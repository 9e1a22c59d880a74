/-
Where a compaction job stands in the tree, and what installing it does.

Between the pick of a job and its installation other threads only put newer
runs in front of the job's runs, at its own level or above.  `Job.Fits` says
just that, so it survives every flush and every job of a shallower level
(`Fits.push`, `Fits.modify_above`).

* `installLevels_placed`, `installLevels_eq` — installation replaces the job's runs
  by its result, in place;
* `Consistent.install`, `Consistent.installDeepen` — the store stays
  consistent.
-/
import Fluent31.Collect
import Fluent31.CommitSpec
import Mathlib.Order.MinMax

namespace Fluent31

open Ordered Mvcc

/-! ### Replacing runs -/

/-- The tree after a manifest commit that changes levels only. -/
def Db.withLevels (db : Db) (levels : List (List Run)) : Db :=
  { db with
    version := { db.version with levels := levels }
    manifest := { db.manifest with nextFileId := db.nextFileId } }

/-- A contiguous block of the runs, newest first, makes way for another one. -/
structure Replaces (db : Db) (levels : List (List Run)) (pre blk blk' post : List Run) : Prop where
  before : db.version.levels.flatten = pre ++ blk ++ post
  after : levels.flatten = pre ++ blk' ++ post
  levels : levels ≠ []
  newer : blk'.Pairwise fun a b => Newer a.entries b.entries
  sub : ∀ e ∈ blk'.flatMap Run.entries, e ∈ blk.flatMap Run.entries
  ordered : ∀ r ∈ blk', r.Ordered
  nodup : (blk'.map Run.id).Nodup
  fresh : ∀ r ∈ blk', r.id < db.nextFileId ∧ ∀ r₀ ∈ pre ++ post, r₀.id ≠ r.id

variable {db : Db} {levels : List (List Run)} {pre blk blk' post : List Run}
  {log : List CommitRec} {floor : ℕ}

/-- The sources of the store around the runs of a block. -/
theorem sources_split (h : db.version.levels.flatten = pre ++ blk ++ post) :
    db.readView.sources = ((db.mem :: db.imms).map Source.mem ++ pre.map Source.run) ++
      blk.map Source.run ++ post.map Source.run := by
  show _ ++ db.version.levels.flatten.map Source.run = _
  rw [h]
  simp [Db.readView]

theorem flatMap_run (runs : List Run) :
    (runs.map Source.run).flatMap Source.entries = runs.flatMap Run.entries := by
  rw [List.flatMap_map]
  rfl

theorem Replaces.recent (hr : Replaces db levels pre blk blk' post) (h : db.readView.Recent) :
    (db.withLevels levels).readView.Recent := by
  refine ⟨?_, fun r hmem => ?_⟩
  · rw [sources_split (show (db.withLevels levels).version.levels.flatten = _ from hr.after)]
    refine pairwise_newer_replace (sources_split hr.before ▸ h.newer)
      (List.pairwise_map.mpr hr.newer) fun b hb e he => ?_
    obtain ⟨r, hrb, rfl⟩ := List.mem_map.mp hb
    obtain ⟨r₀, hr₀, he₀⟩ := List.mem_flatMap.mp (hr.sub e (List.mem_flatMap.mpr ⟨r, hrb, he⟩))
    exact ⟨.run r₀, List.mem_map_of_mem hr₀, he₀⟩
  · have hmem' : r ∈ pre ++ blk' ++ post := hr.after ▸ hmem
    have hold : ∀ r ∈ pre ++ post, r.Ordered := fun r hmem => h.ordered r (by
      show r ∈ db.version.levels.flatten
      rw [hr.before]
      simp only [List.mem_append] at hmem ⊢
      exact hmem.imp_left Or.inl)
    simp only [List.mem_append] at hmem'
    rcases hmem' with (hmem | hmem) | hmem
    · exact hold r (List.mem_append_left _ hmem)
    · exact hr.ordered r hmem
    · exact hold r (List.mem_append_right _ hmem)

/-- **A tree**: at least one level, the runs newest first, each of ordered fragments
and under an id of its own. -/
structure Db.Tree (db : Db) : Prop where
  levels : db.version.levels ≠ []
  newer : db.version.runsNewestFirst.Pairwise fun a b => Newer a.entries b.entries
  ordered : ∀ r ∈ db.version.runsNewestFirst, r.Ordered
  nodup : (db.version.runsNewestFirst.map Run.id).Nodup
  lt : ∀ r ∈ db.version.runsNewestFirst, r.id < db.nextFileId

theorem Db.WF.tree (h : db.WF) : db.Tree where
  levels := h.levels
  newer := (List.pairwise_map (f := Source.run)).mp (List.pairwise_append.mp h.recent.newer).2.1
  ordered := h.recent.ordered
  nodup := h.runs_nodup
  lt := fun r hr => lt_of_lt_of_le (h.runs_lt r hr) h.next_le

theorem Consistent.tree (h : Consistent db log floor) : db.Tree := h.wf.tree

/-- Ids may be allocated. -/
theorem Db.Tree.alloc (h : db.Tree) {next : ℕ} (hle : db.nextFileId ≤ next) :
    Db.Tree { db with nextFileId := next } :=
  { h with lt := fun r hr => lt_of_lt_of_le (h.lt r hr) hle }

theorem Replaces.tree (hr : Replaces db levels pre blk blk' post) (h : db.Tree) :
    (db.withLevels levels).Tree := by
  have hruns : (db.withLevels levels).version.runsNewestFirst = pre ++ blk' ++ post := hr.after
  have hold : db.version.runsNewestFirst = pre ++ blk ++ post := hr.before
  have hkept : ∀ r ∈ pre ++ post, r ∈ db.version.runsNewestFirst := fun r hmem => by
    rw [hold]
    simp only [List.mem_append] at hmem ⊢
    exact hmem.imp_left Or.inl
  -- a run behind the replacement was there before, or is new
  have hnew : ∀ r ∈ pre ++ blk' ++ post, r ∈ pre ++ post ∨ r ∈ blk' := fun r hmem => by
    simp only [List.mem_append] at hmem ⊢
    tauto
  refine ⟨hr.levels, ?_, fun r hmem => ?_, ?_, fun r hmem => ?_⟩
  · rw [hruns]
    refine pairwise_newer_replace (hold ▸ h.newer) hr.newer fun b hb e he => ?_
    exact List.mem_flatMap.mp (hr.sub e (List.mem_flatMap.mpr ⟨b, hb, he⟩))
  · rcases hnew r (hruns ▸ hmem) with hmem | hmem
    · exact h.ordered r (hkept r hmem)
    · exact hr.ordered r hmem
  · have hnodup := h.nodup
    rw [hold] at hnodup
    rw [hruns]
    simp only [List.map_append, List.nodup_append, List.mem_append, List.mem_map] at hnodup ⊢
    obtain ⟨⟨hpre, -, -⟩, hpost, hdisj⟩ := hnodup
    refine ⟨⟨hpre, hr.nodup, ?_⟩, hpost, ?_⟩
    · rintro _ ⟨r₀, hr₀, rfl⟩ _ ⟨r, hmem, rfl⟩
      exact (hr.fresh r hmem).2 r₀ (List.mem_append_left _ hr₀)
    · rintro _ (⟨r, hmem, rfl⟩ | ⟨r, hmem, rfl⟩) _ ⟨r₀, hr₀, rfl⟩
      · exact hdisj _ (Or.inl ⟨r, hmem, rfl⟩) _ ⟨r₀, hr₀, rfl⟩
      · exact ((hr.fresh r hmem).2 r₀ (List.mem_append_right _ hr₀)).symm
  · rcases hnew r (hruns ▸ hmem) with hmem | hmem
    · exact h.lt r (hkept r hmem)
    · exact (hr.fresh r hmem).1

theorem Replaces.wf (hr : Replaces db levels pre blk blk' post) (h : db.WF) :
    (db.withLevels levels).WF := by
  have htree := hr.tree h.tree
  have hruns : (db.withLevels levels).version.runsNewestFirst = pre ++ blk' ++ post := hr.after
  have hold : db.version.runsNewestFirst = pre ++ blk ++ post := hr.before
  refine
    { h with
      recent := hr.recent h.recent
      tables_le := fun e he => h.tables_le e ?_
      runs_nodup := htree.nodup
      runs_lt := htree.lt
      next_le := le_rfl
      levels := hr.levels }
  unfold Db.tableVersions at he ⊢
  rw [hruns, List.flatMap_append, List.flatMap_append] at he
  rw [hold, List.flatMap_append, List.flatMap_append]
  simp only [List.mem_append] at he ⊢
  exact he.imp_left fun he => he.imp_right (hr.sub e)

/-- **Rewriting runs** of a consistent store: what the new block lost must be
shadowed or buried. -/
theorem Consistent.rewrite (h : Consistent db log floor) (hr : Replaces db levels pre blk blk' post)
    (hgone : ∀ e ∈ blk.flatMap Run.entries, e ∉ blk'.flatMap Run.entries →
      Shadowed floor (historyOf log) e ∨
      (e.IsTombstone ∧ e.seq ≤ floor ∧
        (∀ f ∈ blk'.flatMap Run.entries, f.ukey = e.ukey → e.seq < f.seq) ∧
        ∀ f ∈ post.flatMap Run.entries, f.ukey ≠ e.ukey)) :
    Consistent (db.withLevels levels) log floor := by
  refine { h with wf := hr.wf h.wf, retains := ?_ }
  have hret := h.retains
  have hnew := h.wf.recent.newer
  unfold Db.stored ReadView.stored at hret ⊢
  rw [sources_split hr.before] at hret hnew
  rw [sources_split (show (db.withLevels levels).version.levels.flatten = _ from hr.after)]
  refine hret.rewrite hnew ?_ ?_
  · rw [flatMap_run, flatMap_run]
    exact hr.sub
  · rw [flatMap_run, flatMap_run, flatMap_run]
    exact hgone

/-! ### The place of a job -/

/-- How a picked job came about: the runs it consumes and the levels below. -/
inductive Job.Shape : Job → List Run → List (List Run) → Prop
  | tier (level : ℕ) (inputs tgt : List Run) (below : List (List Run)) :
      Shape ⟨level, level + 1, inputs, (tgt :: below).flatten, .tier⟩ inputs (tgt :: below)
  | splice {v : Version} {newRunId : ℕ} {upper base : Run} {job : Job} :
      v.pickSplice newRunId upper base = some job → Shape job [upper, base] []

/-- The job's runs stand at the back of its level. -/
def Job.Fits (levels : List (List Run)) (job : Job) : Prop :=
  ∃ pre newer block below, levels = pre ++ (newer ++ block) :: below ∧ pre.length = job.level ∧
    job.Shape block below

variable {job job' : Job}

theorem modify_at {α : Type*} (f : α → α) (pre : List α) (x : α) (post : List α) :
    (pre ++ x :: post).modify pre.length f = pre ++ f x :: post := by
  induction pre with
  | nil => rfl
  | cons a pre ih => simpa using ih

theorem modify_before {α : Type*} (f : α → α) {i : ℕ} (pre post : List α) (h : i < pre.length) :
    (pre ++ post).modify i f = pre.modify i f ++ post := by
  induction pre generalizing i with
  | nil => exact absurd h (Nat.not_lt_zero _)
  | cons a pre ih =>
    cases i with
    | zero => rfl
    | succ i => simpa using ih (Nat.lt_of_succ_lt_succ h)

namespace Job.Fits

theorem level_lt (h : job.Fits levels) : job.level < levels.length := by
  obtain ⟨pre, newer, block, below, rfl, hlen, -⟩ := h
  simp [← hlen]

/-- Changes above the job's level do not matter to it. -/
theorem modify_above (h : job.Fits levels) (f : List Run → List Run) {i : ℕ} (hi : i < job.level) :
    job.Fits (levels.modify i f) := by
  obtain ⟨pre, newer, block, below, rfl, hlen, hshape⟩ := h
  refine ⟨pre.modify i f, newer, block, below, modify_before f _ _ (hlen ▸ hi), ?_, hshape⟩
  rw [List.length_modify, hlen]

/-- Nor do runs put in front, at its own level or above. -/
theorem push (h : job.Fits levels) (r : Run) {i : ℕ} (hi : i ≤ job.level) :
    job.Fits (levels.modify i fun l => r :: l) := by
  rcases Nat.lt_or_eq_of_le hi with hi | rfl
  · exact h.modify_above _ hi
  · obtain ⟨pre, newer, block, below, rfl, hlen, hshape⟩ := h
    refine ⟨pre, r :: newer, block, below, ?_, hlen, hshape⟩
    rw [← hlen, modify_at]
    rfl

end Job.Fits

/-! ### The splice -/

instance : Std.LawfulOrderMax Bytes :=
  .of_max_le_iff (fun _ _ _ => max_le_iff) fun a b => max_choice a b

/-- The picked splice: the base's fragments fall left of the upper run's key
range, right of it, or into the job. -/
theorem pickSplice_eq {v : Version} {newRunId : ℕ} {upper base : Run}
    (h : v.pickSplice newRunId upper base = some job) :
    ∃ (lo hi : Bytes) (mid left right : List Table),
      job = ⟨v.last, v.last, [upper, ⟨base.id, mid⟩], [],
        .bottomSplice base.id left right newRunId⟩ ∧
      (∀ t ∈ upper.tables, lo ≤ t.minUkey ∧ t.maxUkey ≤ hi) ∧ upper.tables ≠ [] ∧
      mid.Sublist base.tables ∧ left.Sublist base.tables ∧ right.Sublist base.tables ∧
      (∀ t ∈ left, t.maxUkey < lo) ∧ (∀ t ∈ right, hi < t.minUkey) ∧
      (∀ t ∈ mid, ¬ t.maxUkey < lo ∧ ¬ hi < t.minUkey) ∧
      ∀ t ∈ base.tables, t ∈ left ∨ t ∈ mid ∨ t ∈ right := by
  unfold Version.pickSplice at h
  split at h
  · rename_i lo hi hlo hhi
    -- the three parts are filters of the base, by the range of the upper run
    refine ⟨lo, hi, _, _, _, (Option.some_inj.mp h).symm, fun t ht => ⟨?_, ?_⟩, ?_,
      List.filter_sublist, List.filter_sublist, List.filter_sublist, ?_, ?_, ?_, ?_⟩
    · exact (List.min?_eq_some_iff.mp hlo).2 _ (List.mem_map_of_mem ht)
    · exact (List.max?_eq_some_iff.mp hhi).2 _ (List.mem_map_of_mem ht)
    · rintro hnil
      rw [hnil] at hlo
      exact absurd hlo (by simp)
    · intro t ht
      simpa using (List.mem_filter.mp ht).2
    · intro t ht
      have := (List.mem_filter.mp ht).2
      rw [Bool.and_eq_true] at this
      simpa using this.2
    · intro t ht
      have := (List.mem_filter.mp ht).2
      rw [Bool.and_eq_true] at this
      exact ⟨by simpa using this.1, by simpa using this.2⟩
    · intro t ht
      simp only [List.mem_filter, ht, true_and]
      by_cases h1 : t.maxUkey < lo
      · exact Or.inl (by simpa using h1)
      · by_cases h2 : hi < t.minUkey
        · exact Or.inr (Or.inr (by simp [h1, h2]))
        · exact Or.inr (Or.inl (by simp [h1, h2]))
  · exact absurd h (by simp)

/-- Two fragments of an ordered run are the same or apart. -/
theorem Run.Ordered.apart {r : Run} (h : r.Ordered) {t t' : Table} (ht : t ∈ r.tables)
    (ht' : t' ∈ r.tables) : t = t' ∨ t.maxUkey < t'.minUkey ∨ t'.maxUkey < t.minUkey := by
  obtain ⟨id, tables⟩ := r
  replace h : tables.Pairwise fun t t' => t.maxUkey < t'.minUkey := h
  simp only at ht ht'
  induction tables with
  | nil => exact absurd ht List.not_mem_nil
  | cons a tables ih =>
    obtain ⟨ha, hrest⟩ := List.pairwise_cons.mp h
    rcases List.mem_cons.mp ht with hta | ht <;> rcases List.mem_cons.mp ht' with hta' | ht'
    · exact Or.inl (hta.trans hta'.symm)
    · exact Or.inr (Or.inl (hta ▸ ha t' ht'))
    · exact Or.inr (Or.inr (hta' ▸ ha t ht))
    · exact ih ht ht' hrest

theorem ikey_ne_of_newer {l₁ l₂ : List Entry} (h : Newer l₁ l₂) {a b : Entry} (ha : a ∈ l₁)
    (hb : b ∈ l₂) : a.ikey ≠ b.ikey := by
  intro heq
  have hk : a.ukey = b.ukey := congrArg (fun k : IKey => (ofLex k).1) heq
  exact ikey_ne_of_seq_ne (ne_of_gt (h a ha b hb hk)) heq

namespace Job.Shape

variable {block : List Run} {below : List (List Run)} {e f : Entry}

theorem ids (h : job.Shape block below) : job.inputs.map Run.id = block.map Run.id := by
  cases h with
  | tier => rfl
  | splice hp =>
    obtain ⟨lo, hi, mid, left, right, rfl, -⟩ := pickSplice_eq hp
    rfl

theorem inputs_sub (h : job.Shape block below) (he : e ∈ job.inputs.flatMap Run.entries) :
    e ∈ block.flatMap Run.entries := by
  cases h with
  | tier => exact he
  | splice hp =>
    obtain ⟨lo, hi, mid, left, right, rfl, -, -, hmid, -⟩ := pickSplice_eq hp
    simp only [List.flatMap_cons, List.flatMap_nil, List.append_nil, List.mem_append] at he ⊢
    refine he.imp_right fun he => ?_
    obtain ⟨t, ht, het⟩ := Run.mem_entries.mp he
    exact Run.mem_entries.mpr ⟨t, hmid.subset ht, het⟩

/-- The inputs of a picked job can be merged. -/
theorem mergeable (h : job.Shape block below) (hord : ∀ r ∈ block, r.Ordered)
    (hnew : block.Pairwise fun a b => Newer a.entries b.entries) :
    RunningJob.Mergeable job.inputs := by
  cases h with
  | tier => exact ⟨hord, hnew.imp fun h a ha b hb => ikey_ne_of_newer h ha hb⟩
  | @splice v newRunId upper base job hp =>
    obtain ⟨lo, hi, mid, left, right, rfl, -, -, hmid, -⟩ := pickSplice_eq hp
    have hsub : ∀ e ∈ (⟨base.id, mid⟩ : Run).entries, e ∈ base.entries := fun e he => by
      obtain ⟨t, ht, het⟩ := Run.mem_entries.mp he
      exact Run.mem_entries.mpr ⟨t, hmid.subset ht, het⟩
    have hub : Newer upper.entries base.entries := by simpa using hnew
    refine ⟨fun r hr => ?_, List.pairwise_pair.mpr fun a ha b hb =>
      ikey_ne_of_newer hub ha (hsub b hb)⟩
    simp only [List.mem_cons, List.not_mem_nil, or_false] at hr
    rcases hr with rfl | rfl
    · exact hord _ List.mem_cons_self
    · exact (hord base (by simp)).sublist hmid

end Job.Shape

/-! ### The result of a job -/

/-- A run of these fragments, if there are any. -/
def oneRun (id : ℕ) (tables : List Table) : List Run :=
  if tables.isEmpty then [] else [⟨id, tables⟩]

theorem mem_oneRun {id : ℕ} {tables : List Table} {r : Run} (h : r ∈ oneRun id tables) :
    r = ⟨id, tables⟩ := by
  unfold oneRun at h
  split at h
  · exact absurd h List.not_mem_nil
  · exact List.mem_singleton.mp h

theorem flatMap_oneRun (id : ℕ) (tables : List Table) :
    (oneRun id tables).flatMap Run.entries = tables.flatMap Table.entries := by
  unfold oneRun
  split
  · rename_i hempty
    rw [List.isEmpty_iff.mp hempty]
    rfl
  · simp [Run.entries]

theorem pairwise_oneRun {R : Run → Run → Prop} (id : ℕ) (tables : List Table) :
    (oneRun id tables).Pairwise R := by
  unfold oneRun
  split
  · exact .nil
  · exact List.pairwise_singleton _ _

theorem nodup_oneRun (id : ℕ) (tables : List Table) : ((oneRun id tables).map Run.id).Nodup := by
  unfold oneRun
  split <;> simp

namespace Job

variable (job : Job) (runId : ℕ) (tables : List Table)

def outId : ℕ :=
  match job.kind with
  | .tier => runId
  | .bottomSplice _ _ _ newRunId => newRunId

/-- The fragments of the run a job leaves behind: its output, for a splice
between the base's untouched fragments. -/
def outTables : List Table :=
  match job.kind with
  | .tier => tables
  | .bottomSplice _ left right _ => left ++ tables ++ right

def result : List Run := oneRun (job.outId runId) (job.outTables tables)

end Job

namespace Job.Shape

variable {block : List Run} {below : List (List Run)} {e f : Entry}
    {tables : List Table} {runId : ℕ}

/-- The result of a splice is ordered: the untouched fragments lie outside
everything that was rewritten. -/
theorem result_ordered (h : job.Shape block below) (hord : ∀ r ∈ block, r.Ordered)
    (htables : tables.Pairwise fun t t' => t.maxUkey < t'.minUkey)
    (hsub : ∀ e ∈ tables.flatMap Table.entries, e ∈ job.inputs.flatMap Run.entries) :
    (job.outTables tables).Pairwise fun t t' => t.maxUkey < t'.minUkey := by
  cases h with
  | tier => exact htables
  | @splice v newRunId upper base job hp =>
    obtain ⟨lo, hi, mid, left, right, rfl, hupper, hne, hmid, hleft, hright, hl, hr, hm, -⟩ :=
      pickSplice_eq hp
    have hbase : base.Ordered := hord base (by simp)
    -- every rewritten version comes from the upper run or a middle fragment
    have hsrc : ∀ t ∈ tables, ∀ e ∈ t.entries,
        (lo ≤ e.ukey ∧ e.ukey ≤ hi) ∨ ∃ m ∈ mid, e ∈ m.entries := by
      intro t ht e he
      have hmem := hsub e (List.mem_flatMap.mpr ⟨t, ht, he⟩)
      simp only [List.flatMap_cons, List.flatMap_nil, List.append_nil, List.mem_append] at hmem
      rcases hmem with hmem | hmem
      · obtain ⟨u, hu, heu⟩ := Run.mem_entries.mp hmem
        exact Or.inl ⟨le_trans (hupper u hu).1 (Table.minUkey_le heu),
          le_trans (Table.le_maxUkey heu) (hupper u hu).2⟩
      · exact Or.inr (Run.mem_entries.mp hmem)
    have hlohi : lo ≤ hi := by
      obtain ⟨u, hu⟩ := List.exists_mem_of_ne_nil _ hne
      exact le_trans (hupper u hu).1 (le_trans u.minUkey_le_maxUkey (hupper u hu).2)
    show (left ++ tables ++ right).Pairwise _
    refine List.pairwise_append.mpr
      ⟨List.pairwise_append.mpr ⟨?_, htables, fun t ht o ho => ?_⟩, ?_, fun t ht r hrm => ?_⟩
    · exact List.Pairwise.sublist hleft hbase
    · obtain ⟨e, he, hmin⟩ := o.exists_minUkey
      rw [← hmin]
      rcases hsrc o ho e he with ⟨hlo, -⟩ | ⟨m, hmm, hem⟩
      · exact lt_of_lt_of_le (hl t ht) hlo
      · rcases hbase.apart (hleft.subset ht) (hmid.subset hmm) with rfl | hlt | hlt
        · exact absurd (hl t ht) (hm t hmm).1
        · exact lt_of_lt_of_le hlt (Table.minUkey_le hem)
        · exact absurd (lt_trans hlt (lt_of_le_of_lt t.minUkey_le_maxUkey (hl t ht))) (hm m hmm).1
    · exact List.Pairwise.sublist hright hbase
    · rcases List.mem_append.mp ht with ht | ht
      · exact lt_trans (lt_of_lt_of_le (hl t ht) hlohi) (hr r hrm)
      · obtain ⟨e, he, hmax⟩ := t.exists_maxUkey
        rw [← hmax]
        rcases hsrc t ht e he with ⟨-, hhi⟩ | ⟨m, hmm, hem⟩
        · exact lt_of_le_of_lt hhi (hr r hrm)
        · rcases hbase.apart (hmid.subset hmm) (hright.subset hrm) with rfl | hlt | hlt
          · exact absurd (hr m hrm) (hm m hmm).2
          · exact lt_of_le_of_lt (Table.le_maxUkey hem) hlt
          · exact absurd (lt_trans (lt_of_lt_of_le (hr r hrm) r.minUkey_le_maxUkey) hlt)
              (hm m hmm).2

theorem result_sub (h : job.Shape block below)
    (hsub : ∀ e ∈ tables.flatMap Table.entries, e ∈ job.inputs.flatMap Run.entries)
    (he : e ∈ (job.outTables tables).flatMap Table.entries) : e ∈ block.flatMap Run.entries := by
  by_cases hout : e ∈ tables.flatMap Table.entries
  · exact h.inputs_sub (hsub e hout)
  · cases h with
    | tier => exact absurd he hout
    | @splice v newRunId upper base job hp =>
      obtain ⟨lo, hi, mid, left, right, rfl, -, -, -, hleft, hright, -⟩ := pickSplice_eq hp
      replace he : e ∈ (left ++ tables ++ right).flatMap Table.entries := he
      simp only [List.flatMap_append, List.mem_append, hout, or_false] at he
      simp only [List.flatMap_cons, List.flatMap_nil, List.append_nil, List.mem_append]
      refine Or.inr (Run.mem_entries.mpr ?_)
      rcases he with he | he
      · obtain ⟨t, ht, het⟩ := List.mem_flatMap.mp he
        exact ⟨t, hleft.subset ht, het⟩
      · obtain ⟨t, ht, het⟩ := List.mem_flatMap.mp he
        exact ⟨t, hright.subset ht, het⟩

/-- What the job's runs lose was dropped by the merge, and versions of its key
are left in the rewritten fragments only. -/
theorem result_gone (h : job.Shape block below) (hord : ∀ r ∈ block, r.Ordered)
    (he : e ∈ block.flatMap Run.entries)
    (hgone : e ∉ (job.outTables tables).flatMap Table.entries) :
    e ∈ job.inputs.flatMap Run.entries ∧ e ∉ tables.flatMap Table.entries ∧
      ∀ f ∈ (job.outTables tables).flatMap Table.entries, f.ukey = e.ukey →
        f ∈ tables.flatMap Table.entries := by
  cases h with
  | tier => exact ⟨he, hgone, fun f hf _ => hf⟩
  | @splice v newRunId upper base job hp =>
    obtain ⟨lo, hi, mid, left, right, rfl, hupper, hne, hmid, hleft, hright, hl, hr, hm, hall⟩ :=
      pickSplice_eq hp
    have hbase : base.Ordered := hord base (by simp)
    replace hgone : e ∉ (left ++ tables ++ right).flatMap Table.entries := hgone
    simp only [List.flatMap_append, List.mem_append, not_or] at hgone
    obtain ⟨⟨hnl, hnt⟩, hnr⟩ := hgone
    simp only [List.flatMap_cons, List.flatMap_nil, List.append_nil, List.mem_append] at he ⊢
    -- the version lies in the upper run's key range or in a middle fragment
    have hplace : (e ∈ upper.entries ∨ e ∈ (⟨base.id, mid⟩ : Run).entries) ∧
        ((lo ≤ e.ukey ∧ e.ukey ≤ hi) ∨ ∃ m ∈ mid, e ∈ m.entries) := by
      rcases he with he | he
      · obtain ⟨u, hu, heu⟩ := Run.mem_entries.mp he
        exact ⟨Or.inl he, Or.inl ⟨le_trans (hupper u hu).1 (Table.minUkey_le heu),
          le_trans (Table.le_maxUkey heu) (hupper u hu).2⟩⟩
      · obtain ⟨t, ht, het⟩ := Run.mem_entries.mp he
        rcases hall t ht with ht | ht | ht
        · exact absurd (List.mem_flatMap.mpr ⟨t, ht, het⟩) hnl
        · exact ⟨Or.inr (Run.mem_entries.mpr ⟨t, ht, het⟩), Or.inr ⟨t, ht, het⟩⟩
        · exact absurd (List.mem_flatMap.mpr ⟨t, ht, het⟩) hnr
    refine ⟨hplace.1, hnt, fun f hf hk => ?_⟩
    replace hf : f ∈ (left ++ tables ++ right).flatMap Table.entries := hf
    simp only [List.flatMap_append, List.mem_append] at hf
    rcases hf with (hf | hf) | hf
    · obtain ⟨t, ht, hft⟩ := List.mem_flatMap.mp hf
      have hfl : f.ukey < lo := lt_of_le_of_lt (Table.le_maxUkey hft) (hl t ht)
      rcases hplace.2 with ⟨hlo, -⟩ | ⟨m, hmm, hem⟩
      · exact absurd (hk ▸ hfl) (not_lt_of_ge hlo)
      · rcases hbase.apart (hleft.subset ht) (hmid.subset hmm) with rfl | hlt | hlt
        · exact absurd (hl t ht) (hm t hmm).1
        · exact absurd hk (ne_of_lt (lt_of_le_of_lt (Table.le_maxUkey hft)
            (lt_of_lt_of_le hlt (Table.minUkey_le hem))))
        · exact absurd hk.symm (ne_of_lt (lt_of_le_of_lt (Table.le_maxUkey hem)
            (lt_of_lt_of_le hlt (Table.minUkey_le hft))))
    · exact hf
    · obtain ⟨t, ht, hft⟩ := List.mem_flatMap.mp hf
      have hfr : hi < f.ukey := lt_of_lt_of_le (hr t ht) (Table.minUkey_le hft)
      rcases hplace.2 with ⟨-, hhi⟩ | ⟨m, hmm, hem⟩
      · exact absurd (hk ▸ hfr) (not_lt_of_ge hhi)
      · rcases hbase.apart (hright.subset ht) (hmid.subset hmm) with rfl | hlt | hlt
        · exact absurd (hr t ht) (hm t hmm).2
        · exact absurd hk (ne_of_lt (lt_of_le_of_lt (Table.le_maxUkey hft)
            (lt_of_lt_of_le hlt (Table.minUkey_le hem))))
        · exact absurd hk.symm (ne_of_lt (lt_of_le_of_lt (Table.le_maxUkey hem)
            (lt_of_lt_of_le hlt (Table.minUkey_le hft))))

end Job.Shape

/-! ### Installation -/

/-- The output handed to the installation: no run when nothing was written. -/
def outputRun (runId : ℕ) (tables : List Table) : Option Run :=
  if tables.isEmpty then none else some ⟨runId, tables⟩

theorem outputRun_toList (runId : ℕ) (tables : List Table) :
    (outputRun runId tables).toList = oneRun runId tables := by
  unfold outputRun oneRun
  split <;> rfl

theorem outputRun_tables (runId : ℕ) (tables : List Table) :
    ((outputRun runId tables).map Run.tables).getD [] = tables := by
  unfold outputRun
  split
  · rename_i hempty
    exact (List.isEmpty_iff.mp hempty).symm
  · rfl

/-- Removing the consumed runs from their level. -/
theorem filter_consumed {newer block : List Run} (h : ((newer ++ block).map Run.id).Nodup) :
    (newer ++ block).filter (fun r => decide (r.id ∉ block.map Run.id)) = newer := by
  rw [List.map_append, List.nodup_append] at h
  obtain ⟨-, -, hdisj⟩ := h
  rw [List.filter_append, List.filter_eq_self.mpr, List.filter_eq_nil_iff.mpr, List.append_nil]
  · intro r hr
    simpa using ⟨r, hr, rfl⟩
  · intro r hr
    simpa using fun r₀ hr₀ heq => hdisj _ (List.mem_map_of_mem hr) _
      (List.mem_map_of_mem hr₀) heq.symm

/-- What stands from a job's level down once its result is in place: in front of the
target level, or at the back of the bottom. -/
def placed (newer result : List Run) : List (List Run) → List (List Run)
  | tgt :: below => newer :: (result ++ tgt) :: below
  | [] => [newer ++ result]

theorem flatten_placed (newer result : List Run) (below : List (List Run)) :
    (placed newer result below).flatten = newer ++ result ++ below.flatten := by
  cases below with
  | nil => simp [placed]
  | cons tgt below => simp [placed]

/-- **Installation**, on the levels: the job's runs make way for its result. -/
theorem installLevels_placed {newer block : List Run} {above below : List (List Run)}
    (hlevels : db.version.levels = above ++ (newer ++ block) :: below)
    (hlen : above.length = job.level) (hshape : job.Shape block below)
    (hnodup : ((newer ++ block).map Run.id).Nodup) (runId : ℕ) (tables : List Table) :
    db.installLevels job (outputRun runId tables) = above ++ placed newer
      (job.result runId tables) below := by
  -- the job takes its runs out of the level by their ids
  have hremove : db.version.levels.modify job.level (fun l => l.filter fun r =>
      decide (r.id ∉ job.inputs.map Run.id)) = above ++ newer :: below := by
    rw [hlevels, ← hlen, modify_at, hshape.ids, filter_consumed hnodup]
  unfold Db.installLevels
  simp only [hremove]
  cases hshape with
  | tier level _ tgt below =>
    simp only [Job.result, Job.outId, Job.outTables, ← outputRun_toList]
    cases outputRun runId tables with
    | none => rfl
    | some run =>
      have htarget := modify_at (fun l => run :: l) (above ++ [newer]) tgt below
      simp only [List.length_append, List.length_singleton, show above.length = level from hlen,
        List.append_assoc, List.singleton_append] at htarget
      exact htarget
  | @splice v newRunId upper base job hp =>
    obtain ⟨lo, hi, mid, left, right, rfl, -⟩ := pickSplice_eq hp
    -- the base has its id alone
    have hbase : newer.filter (fun r => decide (r.id ≠ base.id)) = newer := by
      rw [List.filter_eq_self]
      intro r hr
      rw [List.map_append, List.nodup_append] at hnodup
      simpa using hnodup.2.2 _ (List.mem_map_of_mem hr) base.id (by simp)
    have hremove' : (above ++ [newer]).modify v.last (fun l => l.filter fun r =>
        decide (r.id ≠ base.id)) = above ++ [newer] := by
      rw [← show above.length = v.last from hlen, modify_at, hbase]
    simp only [hremove', outputRun_tables]
    show (if (left ++ tables ++ right).isEmpty then _ else _) =
      above ++ [newer ++ oneRun _ (left ++ tables ++ right)]
    unfold oneRun
    split
    · simp
    · rw [← show above.length = v.last from hlen, modify_at]
      simp [Job.outId]

theorem installLevels_eq {newer block : List Run} {above below : List (List Run)}
    (hlevels : db.version.levels = above ++ (newer ++ block) :: below)
    (hlen : above.length = job.level) (hshape : job.Shape block below)
    (hnodup : ((newer ++ block).map Run.id).Nodup) (runId : ℕ) (tables : List Table) :
    (db.installLevels job (outputRun runId tables)).flatten =
      (above.flatten ++ newer) ++ job.result runId tables ++ below.flatten := by
  rw [installLevels_placed hlevels hlen hshape hnodup, List.flatten_append, flatten_placed]
  simp

theorem nodup_level {newer block : List Run} {above below : List (List Run)}
    (hlevels : db.version.levels = above ++ (newer ++ block) :: below)
    (h : (db.version.runsNewestFirst.map Run.id).Nodup) : ((newer ++ block).map Run.id).Nodup := by
  unfold Version.runsNewestFirst at h
  rw [hlevels, List.flatten_append, List.flatten_cons] at h
  exact h.sublist (((List.sublist_append_left _ _).trans (List.sublist_append_right _ _)).map _)

/-- Installation brings in one new run at most. -/
theorem mem_installLevels (hfits : job.Fits db.version.levels)
    (h : (db.version.runsNewestFirst.map Run.id).Nodup) {runId : ℕ} {tables : List Table} {r : Run}
    (hr : r ∈ (db.installLevels job (outputRun runId tables)).flatten) :
    r ∈ db.version.runsNewestFirst ∨ r.id = job.outId runId := by
  obtain ⟨above, newer, block, below, hlevels, hlen, hshape⟩ := hfits
  rw [installLevels_eq hlevels hlen hshape (nodup_level hlevels h)] at hr
  unfold Version.runsNewestFirst
  rw [hlevels]
  simp only [List.flatten_append, List.flatten_cons, List.mem_append] at hr ⊢
  rcases hr with ((hr | hr) | hr) | hr
  · exact Or.inl (Or.inl hr)
  · exact Or.inl (Or.inr (Or.inl (Or.inl hr)))
  · exact Or.inr (by rw [mem_oneRun hr])
  · exact Or.inl (Or.inr (Or.inr hr))

/-- Jobs of deeper levels still fit after an installation. -/
theorem installLevels_fits (hfits : job.Fits db.version.levels) (h : job'.Fits db.version.levels)
    (hlt : job.level < job'.level) (output : Option Run) :
    job'.Fits (db.installLevels job output) := by
  obtain ⟨above, newer, block, below, hlevels, hlen, hshape⟩ := hfits
  unfold Db.installLevels
  cases hshape with
  | tier level _ tgt below =>
    have habove := h.modify_above (fun l => l.filter fun r => decide (r.id ∉ block.map Run.id)) hlt
    cases output with
    | none => exact habove
    | some run => exact habove.push run hlt
  | splice hp =>
    -- nothing lies below the bottom level
    have := h.level_lt
    rw [hlevels, List.length_append, List.length_singleton, hlen] at this
    omega

theorem installLevels_ne_nil (hfits : job.Fits db.version.levels) (output : Option Run) :
    db.installLevels job output ≠ [] := by
  have hlt := hfits.level_lt
  have hlen : (db.installLevels job output).length = db.version.levels.length := by
    unfold Db.installLevels
    simp only
    split
    · split <;> simp
    · split <;> simp
  intro hnil
  rw [hnil] at hlen
  simp only [List.length_nil] at hlen
  omega

/-- The runs of a fitting job, where they stand. -/
theorem Db.Tree.block (h : db.Tree) {newer block : List Run} {above below : List (List Run)}
    (hlevels : db.version.levels = above ++ (newer ++ block) :: below) :
    db.version.runsNewestFirst = (above.flatten ++ newer) ++ block ++ below.flatten ∧
      (∀ r ∈ block, r.Ordered) ∧ block.Pairwise fun a b => Newer a.entries b.entries := by
  have hruns : db.version.runsNewestFirst = (above.flatten ++ newer) ++ block ++ below.flatten := by
    unfold Version.runsNewestFirst
    rw [hlevels]
    simp
  refine ⟨hruns, fun r hr => h.ordered r ?_, ?_⟩
  · rw [hruns]
    simp [hr]
  · exact (List.pairwise_append.mp (List.pairwise_append.mp (hruns ▸ h.newer)).1).2.1

/-- The inputs of a fitting job can be merged. -/
theorem Db.Tree.mergeable (h : db.Tree) (hfits : job.Fits db.version.levels) :
    RunningJob.Mergeable job.inputs := by
  obtain ⟨above, newer, block, below, hlevels, -, hshape⟩ := hfits
  obtain ⟨-, hord, hnewer⟩ := h.block hlevels
  exact hshape.mergeable hord hnewer

theorem mem_merged {e : Entry} : e ∈ mergeAll Entry.ikey (job.inputs.map Run.entries) ↔
    e ∈ job.inputs.flatMap Run.entries := by
  rw [mem_mergeAll, List.mem_flatMap]
  simp

/-- **Installing a job** replaces its runs by its result. -/
theorem install_replaces (h : db.Tree) {newer block : List Run} {above below : List (List Run)}
    (hlevels : db.version.levels = above ++ (newer ++ block) :: below)
    (hlen : above.length = job.level)
    (hshape : job.Shape block below) {w runId : ℕ} {tables : List Table}
    (hordered : tables.Pairwise fun t t' => t.maxUkey < t'.minUkey)
    (hwritten : tables.flatMap Table.entries =
      survivors job w none false (mergeAll Entry.ikey (job.inputs.map Run.entries)))
    (hid : job.outId runId < db.nextFileId)
    (hfresh : ∀ r ∈ db.version.runsNewestFirst, r.id ≠ job.outId runId) :
    Replaces db (db.installLevels job (outputRun runId tables)) (above.flatten ++ newer) block
      (job.result runId tables) below.flatten := by
  obtain ⟨hruns, hord, -⟩ := h.block hlevels
  -- what survives is of the inputs
  have hsub : ∀ e ∈ tables.flatMap Table.entries, e ∈ job.inputs.flatMap Run.entries := fun e he =>
    mem_merged.mp (survivors_sublist.subset (hwritten ▸ he))
  exact
    { before := hruns
      after := installLevels_eq hlevels hlen hshape (nodup_level hlevels h.nodup) runId tables
      levels := installLevels_ne_nil ⟨above, newer, block, below, hlevels, hlen, hshape⟩ _
      newer := pairwise_oneRun _ _
      sub := fun e he => hshape.result_sub hsub (by rwa [Job.result, flatMap_oneRun] at he)
      ordered := fun r hr => by
        rw [mem_oneRun hr]
        exact hshape.result_ordered hord hordered hsub
      nodup := nodup_oneRun _ _
      fresh := fun r hr => by
        rw [mem_oneRun hr]
        refine ⟨hid, fun r₀ hr₀ => hfresh r₀ ?_⟩
        rw [hruns]
        simp only [List.mem_append] at hr₀ ⊢
        exact hr₀.imp_left Or.inl }

/-- **Installing a job** keeps the store consistent. -/
theorem Consistent.install (h : Consistent db log floor) (hfits : job.Fits db.version.levels)
    {w runId : ℕ} {tables : List Table}
    (hordered : tables.Pairwise fun t t' => t.maxUkey < t'.minUkey)
    (hwritten : tables.flatMap Table.entries =
      survivors job w none false (mergeAll Entry.ikey (job.inputs.map Run.entries)))
    (hfloor : ∀ e ∈ job.inputs.flatMap Run.entries, e.seq ≤ w → e.seq ≤ floor)
    (hid : job.outId runId < db.nextFileId)
    (hfresh : ∀ r ∈ db.version.runsNewestFirst, r.id ≠ job.outId runId) :
    Consistent (db.install job (outputRun runId tables)) log floor := by
  have hmerge := h.tree.mergeable hfits
  obtain ⟨above, newer, block, below, hlevels, hlen, hshape⟩ := hfits
  obtain ⟨hruns, hord, -⟩ := h.tree.block hlevels
  -- an input version is stored, so it is one of the history
  have hhist : ∀ e ∈ job.inputs.flatMap Run.entries, e ∈ historyOf log := fun e he => by
    refine h.retains.sub e (Db.mem_stored.mpr (Or.inr (Or.inr ?_)))
    obtain ⟨r, hr, her⟩ := List.mem_flatMap.mp (hshape.inputs_sub he)
    refine List.mem_flatMap.mpr ⟨r, ?_, her⟩
    rw [hruns]
    simp [hr]
  -- versions of one key stand together in the merge, newest first
  have hgrouped : Grouped (mergeAll Entry.ikey (job.inputs.map Run.entries)) := by
    refine (List.Pairwise.imp_of_mem ?_ hmerge.sorted)
    intro a b ha hb hab
    rcases lt_or_eq_of_le (ukey_le_of_ikey_lt hab) with hlt | heq
    · exact Or.inl hlt
    · refine Or.inr ⟨heq, lt_of_le_of_ne (seq_ge_of_ikey_lt hab heq) fun hs => ?_⟩
      have := h.distinct a (hhist a (mem_merged.mp ha)) b (hhist b (mem_merged.mp hb)) heq hs.symm
      exact absurd hab (by rw [this]; exact lt_irrefl _)
  refine h.rewrite (install_replaces h.tree hlevels hlen hshape hordered hwritten hid hfresh)
    fun e he hgone => ?_
  rw [Job.result, flatMap_oneRun] at hgone ⊢
  obtain ⟨hin, hdropped, hkey⟩ := hshape.result_gone hord he hgone
  have hdropped' : e ∉ survivors job w none false
      (mergeAll Entry.ikey (job.inputs.map Run.entries)) :=
    hwritten ▸ hdropped
  obtain ⟨hle, ⟨f, hf, hfk, hlt, hfw⟩ | ⟨hdead, holder, hall⟩⟩ :=
    survivors_gone hgrouped (mem_merged.mpr hin) hdropped'
  · have hfin := mem_merged.mp hf
    -- a newer version at or below the watermark shadows it
    exact Or.inl ⟨f, hhist f hfin, hfk, hlt, hfloor f hfin hfw⟩
  · refine Or.inr ⟨hdead, hfloor e hin hle, fun f hf hfk => ?_, fun f hf hfk => ?_⟩
    · exact lt_of_le_of_lt hle (hall f (hwritten ▸ hkey f hf hfk) hfk)
    · -- the tombstone's key is in no run behind the output
      obtain ⟨r, hr, hfr⟩ := List.mem_flatMap.mp hf
      have hrord : r.Ordered := h.tree.ordered r (by
        rw [hruns]
        exact List.mem_append_right _ hr)
      have hmay := hrord.mayContainUkey_of_mem hfr
      rw [hfk] at hmay
      cases hshape with
      | tier level _ tgt below =>
        have : (tgt :: below).flatten.any (fun r => r.mayContainUkey e.ukey) = true :=
          List.any_eq_true.mpr ⟨r, hr, hmay⟩
        exact absurd holder (by rw [Job.olderMayContain, this]; simp)
      | splice hp => exact absurd hr List.not_mem_nil

/-- Deepening, on the levels. -/
theorem installDeepen_levels (h : db.Tree) {level : ℕ} {inputs newer : List Run}
    {above : List (List Run)}
    (hlevels : db.version.levels = above ++ [newer ++ inputs]) (hlen : above.length = level) :
    (db.installDeepen level inputs).version.levels = above ++ [newer, inputs] := by
  show (db.version.levels.modify level fun l => l.filter fun r =>
    decide (r.id ∉ inputs.map Run.id)) ++ [inputs] = _
  rw [hlevels, ← hlen, modify_at, filter_consumed (nodup_level hlevels h.nodup), List.append_assoc]
  rfl

/-- Deepening moves runs to a new level without changing the read order. -/
theorem deepen_replaces (h : db.Tree) {level : ℕ} {inputs newer : List Run}
    {above : List (List Run)}
    (hlevels : db.version.levels = above ++ [newer ++ inputs]) (hlen : above.length = level) :
    Replaces db (db.installDeepen level inputs).version.levels db.version.levels.flatten
      [] [] [] where
  before := by simp
  after := by
    rw [installDeepen_levels h hlevels hlen, hlevels]
    simp
  levels := by
    rw [installDeepen_levels h hlevels hlen]
    simp
  newer := .nil
  sub := fun _ he => he
  ordered := fun _ hr => absurd hr List.not_mem_nil
  nodup := .nil
  fresh := fun _ hr => absurd hr List.not_mem_nil

theorem Consistent.installDeepen (h : Consistent db log floor) {level : ℕ} {inputs newer : List Run}
    {above : List (List Run)} (hlevels : db.version.levels = above ++ [newer ++ inputs])
    (hlen : above.length = level) : Consistent (db.installDeepen level inputs) log floor :=
  h.rewrite (deepen_replaces h.tree hlevels hlen) fun _ he => absurd he List.not_mem_nil

/-- Allocating file ids. -/
theorem Consistent.alloc (h : Consistent db log floor) {next : ℕ} (hle : db.nextFileId ≤ next) :
    Consistent ({ db with nextFileId := next } : Db) log floor :=
  { h with
    wf :=
      { h.wf with
        recent := h.wf.recent
        wal_lt := lt_of_lt_of_le h.wf.wal_lt hle
        vlog := h.wf.vlog.mono hle
        vlogs_lt := fun id hid => lt_of_lt_of_le (h.wf.vlogs_lt id hid) hle
        next_le := le_trans h.wf.next_le hle } }

/-- The floor may rise up to what has been flushed. -/
theorem Consistent.raise (h : Consistent db log floor) {floor' : ℕ} (hle : floor ≤ floor')
    (hmax : floor' ≤ db.manifest.lastFlushedSeqno) : Consistent db log floor' :=
  { h with
    retains := h.retains.drop hle (fun _ he => he) fun _ he hn => absurd he hn
    floor_le := hmax }

end Fluent31
