/-
The compaction scheduler comes to rest.

A round is one call of `Scheduler::step`: it chooses work or goes on with what is in
flight, and runs one slice.  Other threads may do anything between the pieces of a
round; `Db.Quiet` is what they do when nothing is flushed, `Db.Busy` what they do
when something is.

* `Db.rank` — without flushes every round lowers a rank: the levels that may still be
  added, then the runs weighted by the levels below them, then the level of the job
  in hand, then what is left of its merge;
* `pick_none_settled` — where nothing is picked, no level has reached its trigger;
* `Scheduler.quiesces` — the scheduler runs finitely many rounds, never gets stuck,
  and leaves a settled tree; a suspended job waits for the levels above it only and
  resumes as it was.
-/
import Fluent31.Reachable
import Mathlib.Data.Prod.Lex
import Mathlib.Order.WellFounded

namespace Fluent31

open Ordered Mvcc

variable {opts : Options} {db db' d : Db} {s s' : Scheduler} {job : Job} {floor : ℕ}

/-! ### The tree and its weight -/

/-- Every run has a fragment. -/
def Db.Filled (db : Db) : Prop := ∀ r ∈ db.version.runsNewestFirst, r.tables ≠ []

/-- The runs, each counted once for its level and for every level below. -/
def weight : List (List Run) → ℕ
  | [] => 0
  | l :: below => l.length * (below.length + 1) + weight below

theorem weight_replace (above below : List (List Run)) (l l' : List Run) (below' : List (List Run))
    (hlen : below'.length = below.length) (h : weight (l' :: below') < weight (l :: below)) :
    weight (above ++ l' :: below') < weight (above ++ l :: below) := by
  induction above with
  | nil => exact h
  | cons a above ih =>
    simp only [List.cons_append, weight, List.length_append, List.length_cons, hlen]
    omega

theorem length_oneRun (id : ℕ) (tables : List Table) : (oneRun id tables).length ≤ 1 := by
  unfold oneRun
  split <;> simp

/-- A level whose runs the scheduler no longer wants to merge. -/
def triggerOf (opts : Options) (force : Bool) (level : ℕ) : ℕ :=
  if force then 2 else if level = 0 then opts.l0CompactionTrigger else opts.tierWidth

/-- Nothing is left to compact. -/
structure Db.Settled (opts : Options) (force : Bool) (db : Db) : Prop where
  tiers : ∀ i < db.version.last, (db.version.level i).length < triggerOf opts force i
  bottom : (db.version.level db.version.last).length ≤ 1

/-! ### Rounds -/

/-- What other threads do when nothing is flushed. -/
structure Db.Quiet (db db' : Db) : Prop where
  levels : db'.version.levels = db.version.levels
  next : db.nextFileId ≤ db'.nextFileId

/-- What they do otherwise: they may put new runs in front of the top level. -/
inductive Db.Busy (db db' : Db) : Prop
  | quiet : db.Quiet db' → Busy db db'
  | flush (r : Run) : (db'.version.levels = db.version.levels.modify 0 fun l => r :: l) →
    db.nextFileId ≤ r.id →
      r.id < db'.nextFileId → r.Ordered → r.tables ≠ [] →
      (∀ r' ∈ db.version.runsNewestFirst, Newer r.entries r'.entries) → Busy db db'

namespace Scheduler

/-- What the round works on: the active job unless a level above takes over, or what
`schedule` finds.  `none` is the end of the run. -/
def choose (opts : Options) (db : Db) (s : Scheduler) : Option (Scheduler × Db) :=
  match s.active with
  | some _ => (s.preempt opts db).map fun s => (s, db)
  | none => s.schedule opts db

def begin (db : Db) (s : Scheduler) : Option (Scheduler × Db) :=
  match s.pending with
  | some _ => s.start db
  | none => some (s, db)

/-- A deepen leaves nothing to slice. -/
def work (opts : Options) (db : Db) (s : Scheduler) : Option (Scheduler × Db) :=
  match s.active with
  | some _ => s.slice opts db
  | none => some (s, db)

/-- **One round**, with what other threads do between its pieces. -/
inductive Round (opts : Options) (others : Db → Db → Prop) : Scheduler × Db → Scheduler × Db → Prop
  | mk {s s₁ s₂ s₃ : Scheduler} {db d d₁ d₂ d₃ d₄ d₅ : Db} :
      others db d → s.choose opts d = some (s₁, d₁) → others d₁ d₂ → s₁.begin d₂ = some (s₂, d₃) →
      others d₃ d₄ → s₂.work opts d₄ = some (s₃, d₅) → Round opts others (s, db) (s₃, d₅)

end Scheduler

/-! ### The rank -/

/-- The rank of the scheduler's state between two rounds. -/
def Db.rank (db : Db) (s : Scheduler) : ℕ ×ₗ ℕ ×ₗ ℕ ×ₗ ℕ :=
  toLex (MAX_DYNAMIC_LEVELS - db.version.levels.length,
    toLex (weight db.version.levels,
      toLex ((s.jobs.head?.map fun j => j.job.level).getD db.version.levels.length,
        (s.jobs.head?.map RunningJob.remaining).getD 0)))

theorem Db.rank_lt : db'.rank s' < db.rank s ↔
    MAX_DYNAMIC_LEVELS - db'.version.levels.length < MAX_DYNAMIC_LEVELS - db.version.levels.length ∨
    MAX_DYNAMIC_LEVELS - db'.version.levels.length = MAX_DYNAMIC_LEVELS - db.version.levels.length ∧
      (weight db'.version.levels < weight db.version.levels ∨
      weight db'.version.levels = weight db.version.levels ∧
        ((s'.jobs.head?.map fun j => j.job.level).getD db'.version.levels.length <
          (s.jobs.head?.map fun j => j.job.level).getD db.version.levels.length ∨
        (s'.jobs.head?.map fun j => j.job.level).getD db'.version.levels.length =
          (s.jobs.head?.map fun j => j.job.level).getD db.version.levels.length ∧
          (s'.jobs.head?.map RunningJob.remaining).getD 0 <
            (s.jobs.head?.map RunningJob.remaining).getD 0)) := by
  unfold rank
  simp only [Prod.Lex.toLex_lt_toLex]

theorem rank_wf : WellFounded fun (x y : Scheduler × Db) => x.2.rank x.1 < y.2.rank y.1 :=
  InvImage.wf (fun x : Scheduler × Db => x.2.rank x.1) wellFounded_lt

/-! ### What other threads keep -/

theorem Db.Tree.push (h : db.Tree) {r : Run}
    (hlevels : db'.version.levels = db.version.levels.modify 0 fun l => r :: l)
    (hid : db.nextFileId ≤ r.id)
    (hnext : r.id < db'.nextFileId) (hord : r.Ordered)
    (hnewer : ∀ r' ∈ db.version.runsNewestFirst, Newer r.entries r'.entries) : db'.Tree := by
  have hruns : db'.version.runsNewestFirst = r :: db.version.runsNewestFirst := by
    unfold Version.runsNewestFirst
    rw [hlevels]
    exact Db.flatten_modify_zero h.levels r
  refine ⟨?_, ?_, fun r' hr' => ?_, ?_, fun r' hr' => ?_⟩
  · rw [hlevels]
    intro hnil
    have := congrArg List.length hnil
    rw [List.length_modify] at this
    exact h.levels (List.length_eq_zero_iff.mp this)
  · rw [hruns]
    exact List.pairwise_cons.mpr ⟨hnewer, h.newer⟩
  · rw [hruns] at hr'
    rcases List.mem_cons.mp hr' with rfl | hr'
    · exact hord
    · exact h.ordered r' hr'
  · rw [hruns, List.map_cons]
    refine List.nodup_cons.mpr ⟨fun hmem => ?_, h.nodup⟩
    obtain ⟨r', hr', heq⟩ := List.mem_map.mp hmem
    exact absurd (h.lt r' hr') (by omega)
  · rw [hruns] at hr'
    rcases List.mem_cons.mp hr' with rfl | hr'
    · exact hnext
    · exact lt_of_lt_of_le (h.lt r' hr') (by omega)

/-- A flush that installs a run is what `Busy` describes. -/
theorem Db.WF.flush_busy (h : db.WF) {did : Bool} (hf : db.flushOne opts = some (db', did)) :
    db.Busy db' := by
  have htree := (h.flushOne hf).1.tree
  unfold Db.flushOne at hf
  split at hf
  · obtain rfl := (Prod.mk.inj (Option.some.inj hf)).1
    exact .quiet ⟨rfl, le_rfl⟩
  · rename_i imm himm
    split at hf
    · obtain rfl := (Prod.mk.inj (Option.some.inj hf)).1
      exact .quiet ⟨rfl, le_rfl⟩
    · rename_i hne
      obtain ⟨⟨run, maxSeq, next⟩, hbuild, heq⟩ := Option.map_eq_some_iff.mp hf
      obtain rfl := (Prod.mk.inj heq).1
      obtain ⟨hentries, hord, hid, hnext, -⟩ := buildRunFromMem_spec hbuild
      refine .flush run rfl (le_of_eq hid.symm) (hid.symm ▸ hnext) hord (fun hnil => ?_) ?_
      · rw [Run.entries, hnil] at hentries
        exact hne (List.isEmpty_iff.mpr hentries.symm)
      · have hruns : Version.runsNewestFirst (Db.installFlush { db with nextFileId := next } imm
            (some (run, maxSeq))).version = run :: db.version.runsNewestFirst :=
          Db.flatten_modify_zero h.levels run
        exact (List.pairwise_cons.mp (hruns ▸ htree.newer)).1

namespace Scheduler

/-- **What holds between any two pieces of a round.** -/
structure Sound (s : Scheduler) (db : Db) : Prop where
  tree : db.Tree
  filled : db.Filled
  wf : ∃ floor, s.WF db floor
  loaded : ∀ job ∈ s.works, job.inputs ≠ []

theorem sound_new (htree : db.Tree) (hfilled : db.Filled) (force : Bool) :
    (Scheduler.new force).Sound db :=
  ⟨htree, hfilled, ⟨0, wf_new _ _ _⟩, fun _ h => absurd h List.not_mem_nil⟩

theorem Sound.quiet (h : s.Sound db) (hq : db.Quiet db') : s.Sound db' := by
  obtain ⟨floor, hwf⟩ := h.wf
  have hruns : db'.version.runsNewestFirst = db.version.runsNewestFirst := by
    unfold Version.runsNewestFirst
    rw [hq.levels]
  refine ⟨⟨hq.levels ▸ h.tree.levels, hruns ▸ h.tree.newer, hruns ▸ h.tree.ordered,
    hruns ▸ h.tree.nodup,
    fun r hr => lt_of_lt_of_le (h.tree.lt r (hruns ▸ hr)) hq.next⟩, fun r hr =>
      h.filled r (hruns ▸ hr),
    ⟨floor, hwf.frame hq.levels hq.next le_rfl⟩, h.loaded⟩

theorem Sound.busy (h : s.Sound db) (hb : db.Busy db') : s.Sound db' := by
  cases hb with
  | quiet hq => exact h.quiet hq
  | flush r hlevels hid hnext hord htables hnewer =>
    obtain ⟨floor, hwf⟩ := h.wf
    refine ⟨h.tree.push hlevels hid hnext hord hnewer, fun r' hr' => ?_,
      ⟨floor, hwf.push hlevels h.tree.levels hid (by omega)⟩, h.loaded⟩
    unfold Version.runsNewestFirst at hr'
    rw [hlevels, Db.flatten_modify_zero h.tree.levels] at hr'
    rcases List.mem_cons.mp hr' with rfl | hr'
    · exact htables
    · exact h.filled r' hr'

/-! ### The picks -/

theorem triggerOf_pos (h0 : 1 ≤ opts.l0CompactionTrigger) (hwidth : 1 ≤ opts.tierWidth)
    (force : Bool) (i : ℕ) :
    1 ≤ triggerOf opts force i := by
  unfold triggerOf
  split
  · omega
  · split
    · exact h0
    · exact hwidth

theorem pickBefore_loaded (h0 : 1 ≤ opts.l0CompactionTrigger) (hwidth : 1 ≤ opts.tierWidth)
    {v : Version} {before : ℕ} (h : v.pickBefore opts before = some job) : job.inputs ≠ [] := by
  unfold Version.pickBefore at h
  obtain ⟨i, hi, rfl⟩ := Option.map_eq_some_iff.mp h
  have hlen : triggerOf opts false i ≤ (v.level i).length := by
    simpa [triggerOf] using List.find?_some hi
  intro hnil
  have hnil' : v.level i = [] := hnil
  rw [hnil'] at hlen
  exact absurd (triggerOf_pos h0 hwidth false i) (by simpa using hlen)

theorem pick_loaded (h0 : 1 ≤ opts.l0CompactionTrigger) (hwidth : 1 ≤ opts.tierWidth) {force : Bool}
    (h : db.pick opts force = some (.rewrite job, db')) : job.inputs ≠ [] := by
  unfold Db.pick at h
  simp only at h
  split at h
  · rename_i i hi
    simp only [Option.some.injEq, Prod.mk.injEq, Work.rewrite.injEq] at h
    obtain ⟨rfl, -⟩ := h
    have hlen : triggerOf opts force i ≤ (db.version.level i).length := by
      simpa [triggerOf] using List.find?_some hi
    intro hnil
    have hnil' : db.version.level i = [] := hnil
    rw [hnil'] at hlen
    exact absurd (triggerOf_pos h0 hwidth force i) (by simpa using hlen)
  · split at h
    · exact absurd h (by simp)
    · split at h
      · obtain ⟨job', hp, heq⟩ := Option.map_eq_some_iff.mp h
        simp only [Prod.mk.injEq, Work.rewrite.injEq] at heq
        obtain ⟨rfl, -⟩ := heq
        obtain ⟨lo, hi, mid, left, right, rfl, -⟩ := pickSplice_eq hp
        exact List.cons_ne_nil _ _
      · exact absurd h (by simp)

/-- A deepen is picked while levels may be added. -/
theorem pick_deepen {force : Bool} {level : ℕ} {inputs : List Run}
    (h : db.pick opts force = some (.deepen level inputs, db')) :
    db' = db ∧ db.version.levels.length < MAX_DYNAMIC_LEVELS := by
  unfold Db.pick at h
  simp only at h
  split at h
  · exact absurd h (by simp)
  · split at h
    · rename_i hdeep
      exact ⟨((Prod.mk.inj (Option.some.inj h)).2).symm, hdeep.1⟩
    · split at h
      · obtain ⟨job', -, heq⟩ := Option.map_eq_some_iff.mp h
        exact absurd heq (by simp)
      · exact absurd h (by simp)

/-- **Where nothing is picked, nothing is left to do.** -/
theorem pick_none_settled (hfilled : db.Filled) {force : Bool} (h : db.pick opts force = none) :
    db.Settled opts force := by
  unfold Db.pick at h
  simp only at h
  split at h
  · exact absurd h (by simp)
  rename_i hfind
  refine ⟨fun i hi => ?_, ?_⟩
  · have := List.find?_eq_none.mp hfind i (List.mem_range.mpr hi)
    simpa [triggerOf] using this
  · split at h
    · exact absurd h (by simp)
    · split at h
      · rename_i base upper rest hbottom
        -- the upper of the two runs has fragments, so its splice is picked
        have hmem : upper ∈ db.version.runsNewestFirst := by
          have hlevel : upper ∈ db.version.level db.version.last := by
            rw [← List.mem_reverse, hbottom]
            simp
          unfold Version.level at hlevel
          cases hget : db.version.levels[db.version.last]? with
          | none =>
            rw [hget] at hlevel
            exact absurd hlevel List.not_mem_nil
          | some l =>
            rw [hget] at hlevel
            exact List.mem_flatten.mpr ⟨l, List.mem_of_getElem? hget, hlevel⟩
        have htables := hfilled upper hmem
        obtain ⟨t, rest', hcons⟩ := List.exists_cons_of_ne_nil htables
        unfold Version.pickSplice at h
        rw [hcons] at h
        simp [List.min?_cons, List.max?_cons] at h
      · rename_i hno
        have hlen : ∀ l : List Run, (∀ base upper rest, l = base :: upper :: rest → False) →
            l.length ≤ 1 := by
          intro l hl
          rcases l with _ | ⟨a, _ | ⟨b, rest⟩⟩
          · simp
          · simp
          · exact (hl a b rest rfl).elim
        have := hlen _ fun base upper rest => hno base upper rest
        rwa [List.length_reverse] at this

/-! ### The pieces of a round -/

/-- What a round works on: the innermost job in flight, a new one above it, or a new
level when nothing is in flight. -/
inductive Chosen (s : Scheduler) (db : Db) : Scheduler → Prop
  | resume (j : RunningJob) (rest : List RunningJob) : s.jobs = j :: rest →
    Chosen s db ⟨some j, rest, none, s.force⟩
  | rewrite (job : Job) : (∀ j ∈ s.jobs.head?, job.level < j.job.level) →
      Chosen s db ⟨none, s.jobs, some (.rewrite job), s.force⟩
  | deepen (level : ℕ) (inputs : List Run) : s.jobs = [] →
    db.version.levels.length < MAX_DYNAMIC_LEVELS →
      Chosen s db ⟨none, [], some (.deepen level inputs), s.force⟩

theorem jobs_of_active {j : RunningJob} (h : s.active = some j) : s.jobs = j :: s.suspended := by
  unfold jobs
  rw [h]
  rfl

theorem jobs_of_idle (h : s.active = none) : s.jobs = s.suspended := by
  unfold jobs
  rw [h]
  rfl

/-- The work in hand, between two rounds. -/
theorem works_idle (h : s.pending = none) : s.works = s.jobs.map RunningJob.job := by
  unfold works jobs
  rw [h, List.map_append, List.append_nil]

theorem Sound.choose (h : s.Sound db) (h0 : 1 ≤ opts.l0CompactionTrigger)
    (hwidth : 1 ≤ opts.tierWidth) (hpending : s.pending = none) {s₁ : Scheduler} {d₁ : Db}
    (hs : s.choose opts db = some (s₁, d₁)) :
    s₁.Sound d₁ ∧ db.Quiet d₁ ∧ Chosen s db s₁ := by
  obtain ⟨floor, hwf⟩ := h.wf
  have hold : ∀ job ∈ s.jobs.map RunningJob.job, job.inputs ≠ [] := works_idle hpending ▸ h.loaded
  have hnew : ∀ {job : Job}, job.inputs ≠ [] →
      ∀ w ∈ (⟨none, s.jobs, some (.rewrite job), s.force⟩ : Scheduler).works, w.inputs ≠ [] := by
    intro job hjob w hw
    rcases List.mem_cons.mp hw with rfl | hw
    · exact hjob
    · exact hold w hw
  unfold Scheduler.choose at hs
  split at hs
  · -- a job is active: a smaller one preempts it, or it resumes
    rename_i j hactive
    obtain ⟨s', hpre, heq⟩ := Option.map_eq_some_iff.mp hs
    obtain ⟨rfl, rfl⟩ := Prod.mk.inj heq
    have hwf' := hwf.preempt hpre
    have hjobs := jobs_of_active hactive
    unfold preempt at hpre
    rw [hactive, hpending] at hpre
    simp only at hpre
    split at hpre
    · rename_i job hpick
      obtain rfl := Option.some.inj hpre
      rw [← hjobs] at hwf' ⊢
      refine ⟨⟨h.tree, h.filled, ⟨floor, hwf'⟩, hnew (pickBefore_loaded h0 hwidth hpick)⟩,
        ⟨rfl, le_rfl⟩, .rewrite job fun k hk => ?_⟩
      rw [hjobs, List.head?_cons, Option.mem_some_iff] at hk
      exact hk ▸ (pickBefore_spec hpick).2.1
    · obtain rfl := Option.some.inj hpre
      refine ⟨h, ⟨rfl, le_rfl⟩, ?_⟩
      have heq : s = ⟨some j, s.suspended, none, s.force⟩ := by rw [← hactive, ← hpending]
      have hchosen : Chosen s db ⟨some j, s.suspended, none, s.force⟩ := .resume j s.suspended hjobs
      rwa [← heq] at hchosen
  · -- no job is active: a new pick, or the innermost suspended one
    rename_i hactive
    have hjobs := jobs_of_idle hactive
    obtain ⟨hwf', hdb⟩ := hwf.schedule h.tree hs
    -- a pick takes a file id at most
    have hquiet : db.Quiet d₁ := by
      rcases hdb with rfl | rfl
      · exact ⟨rfl, le_rfl⟩
      · exact ⟨rfl, Nat.le_succ _⟩
    have hsound := h.quiet hquiet
    unfold schedule at hs
    rw [hactive, hpending] at hs
    simp only at hs
    split at hs
    · rename_i hsusp
      rw [hsusp] at hjobs
      obtain ⟨⟨work, d⟩, hpick, heq⟩ := Option.map_eq_some_iff.mp hs
      obtain ⟨rfl, rfl⟩ := Prod.mk.inj heq
      cases work with
      | rewrite job =>
        rw [← hjobs] at hwf' ⊢
        exact ⟨⟨hsound.tree, hsound.filled, ⟨floor, hwf'⟩, hnew (pick_loaded h0 hwidth hpick)⟩,
          hquiet, .rewrite job fun k hk => absurd hk (by simp [hjobs])⟩
      | deepen level inputs =>
        exact ⟨⟨hsound.tree, hsound.filled, ⟨floor, hwf'⟩, fun w hw => absurd hw List.not_mem_nil⟩,
          hquiet, .deepen level inputs hjobs (pick_deepen hpick).2⟩
    · rename_i deep rest hsusp
      rw [hsusp] at hjobs
      split at hs
      · rename_i job hpick
        obtain ⟨rfl, rfl⟩ := Prod.mk.inj (Option.some.inj hs)
        rw [← hjobs] at hwf' ⊢
        refine ⟨⟨hsound.tree, hsound.filled, ⟨floor, hwf'⟩,
          hnew (pickBefore_loaded h0 hwidth hpick)⟩, hquiet, .rewrite job fun k hk => ?_⟩
        rw [hjobs, List.head?_cons, Option.mem_some_iff] at hk
        exact hk ▸ (pickBefore_spec hpick).2.1
      · obtain ⟨rfl, rfl⟩ := Prod.mk.inj (Option.some.inj hs)
        refine ⟨⟨hsound.tree, hsound.filled, ⟨floor, hwf'⟩, fun w hw => hold w ?_⟩, hquiet,
          .resume deep rest hjobs⟩
        rw [hjobs]
        exact hw

theorem Sound.begin_rewrite {jobs : List RunningJob} {force : Bool}
    (h : (⟨none, jobs, some (.rewrite job), force⟩ : Scheduler).Sound db) :
    (⟨some (RunningJob.new db job).1, jobs, none, force⟩ : Scheduler).Sound db.allocFileId := by
  obtain ⟨floor, hwf⟩ := h.wf
  have hsound := @Sound.quiet db db.allocFileId _ h ⟨rfl, Nat.le_succ _⟩
  exact ⟨hsound.tree, hsound.filled, ⟨_, hwf.start_rewrite h.tree rfl rfl⟩, h.loaded⟩

theorem Sound.begin_deepen {level : ℕ} {inputs : List Run} {force : Bool}
    (h : (⟨none, [], some (.deepen level inputs), force⟩ : Scheduler).Sound db) :
    (Scheduler.new force).Sound (db.installDeepen level inputs) ∧
      (db.installDeepen level inputs).version.levels.length = db.version.levels.length + 1 := by
  obtain ⟨floor, hwf⟩ := h.wf
  obtain ⟨-, above, newer, hlevels, hlen⟩ := hwf.deepen level inputs rfl
  have hrep := deepen_replaces h.tree hlevels hlen
  have hruns : (db.installDeepen level inputs).version.runsNewestFirst =
      db.version.runsNewestFirst := by
    have := hrep.after
    rwa [List.append_nil, List.append_nil] at this
  refine ⟨sound_new (hrep.tree h.tree) (fun r hr => h.filled r (hruns ▸ hr)) force, ?_⟩
  rw [installDeepen_levels h.tree hlevels hlen, hlevels]
  simp

/-- **An installation lightens the tree.** -/
theorem weight_install (htree : db.Tree) (hfits : job.Fits db.version.levels)
    (hne : job.inputs ≠ []) (runId : ℕ) (tables : List Table) :
    weight (db.installLevels job (outputRun runId tables)) < weight db.version.levels ∧
      (db.installLevels job (outputRun runId tables)).length = db.version.levels.length := by
  obtain ⟨above, newer, block, below, hlevels, hlen, hshape⟩ := hfits
  rw [installLevels_placed hlevels hlen hshape (nodup_level hlevels htree.nodup), hlevels]
  have hresult : (job.result runId tables).length ≤ 1 := length_oneRun _ _
  generalize job.result runId tables = result at hresult
  cases hshape with
  | tier level _ tgt below =>
    have hpos : 0 < block.length := List.length_pos_iff.mpr hne
    refine ⟨weight_replace above _ _ _ _ (by simp) ?_, by simp [placed]⟩
    simp only [weight, List.length_append, List.length_cons]
    have : result.length * (below.length + 1) ≤ 1 * (below.length + 1) :=
      Nat.mul_le_mul_right _ hresult
    have : 1 * (below.length + 1 + 1) ≤ block.length * (below.length + 1 + 1) :=
      Nat.mul_le_mul_right _ hpos
    simp only [Nat.add_mul]
    omega
  | splice hp =>
    refine ⟨weight_replace above [] _ _ _ rfl ?_, by simp [placed]⟩
    simp only [weight, List.length_append, List.length_cons, List.length_nil]
    omega

theorem filled_install (htree : db.Tree) (hfilled : db.Filled)
    (hfits : job.Fits db.version.levels) (runId : ℕ) (tables : List Table) {r : Run}
    (hr : r ∈ (db.installLevels job (outputRun runId tables)).flatten) :
    r.tables ≠ [] := by
  obtain ⟨above, newer, block, below, hlevels, hlen, hshape⟩ := hfits
  rw [installLevels_eq hlevels hlen hshape (nodup_level hlevels htree.nodup)] at hr
  have hruns := (htree.block hlevels).1
  have hold : ∀ r ∈ (above.flatten ++ newer) ++ below.flatten, r.tables ≠ [] :=
    fun r hr => hfilled r (by
    rw [hruns]
    simp only [List.mem_append] at hr ⊢
    exact hr.imp_left Or.inl)
  simp only [List.mem_append] at hr hold
  rcases hr with (hr | hr) | hr
  · exact hold r (Or.inl hr)
  · unfold Job.result oneRun at hr
    split at hr
    · exact absurd hr List.not_mem_nil
    · rename_i hne
      rw [List.mem_singleton.mp hr]
      exact fun hnil => hne (List.isEmpty_iff.mpr hnil)
  · exact hold r (Or.inr hr)

/-- **A slice** takes the active job forward or replaces its runs in the tree. -/
theorem Sound.slice (h : s.Sound db) {j : RunningJob} (hactive : s.active = some j)
    (hs : s.slice opts db = some (s', db')) :
    s'.Sound db' ∧ s'.pending = none ∧ db'.version.levels.length = db.version.levels.length ∧
      ((∃ j', s' = ⟨some j', s.suspended, none, s.force⟩ ∧ j.Same j' ∧ j'.remaining < j.remaining ∧
          db'.version.levels = db.version.levels) ∨
        s' = ⟨none, s.suspended, none, s.force⟩ ∧ weight db'.version.levels <
          weight db.version.levels ∧
          ∃ d tables, db' = Db.install d j.job (outputRun j.runId tables)) := by
  obtain ⟨floor, hwf⟩ := h.wf
  have hwf' := hwf.slice h.tree hs
  obtain ⟨j', k, id, hactive', hpending, hsame, -, hid,
      ⟨rfl, rfl, hless⟩ | ⟨tables, rfl, rfl, hord, hwritten⟩⟩ :=
    hwf.slice_cases hs
  all_goals
    obtain rfl := Option.some.inj (hactive.symm.trans hactive')
    have hquiet : db.Quiet { db with nextFileId := id } := ⟨rfl, hid⟩
    have hsound := h.quiet hquiet
    obtain ⟨hworks, -⟩ := works_active hactive hpending
  · refine ⟨⟨hsound.tree, hsound.filled, ⟨floor, hwf'⟩, fun w hw => h.loaded w ?_⟩, rfl, rfl,
      Or.inl ⟨k, rfl, hsame, hless, rfl⟩⟩
    rw [hworks, ← hsame.job]
    exact hw
  · -- the job ends: its result is installed, which weighs less
    have hjob : j.job ∈ s.works := hworks ▸ List.mem_cons_self
    have hfits : j.job.Fits ({ db with nextFileId := id } : Db).version.levels :=
      hwf.fits j.job hjob
    obtain ⟨hweight, hlen⟩ := weight_install hsound.tree hfits (h.loaded j.job hjob) j.runId tables
    have hframe : s.WF { db with nextFileId := id } floor := hwf.frame rfl hid le_rfl
    obtain ⟨hlt, hruns⟩ := hframe.fresh _ (hwf.outId hactive hpending).1
    refine ⟨⟨?_, fun r hr => filled_install hsound.tree hsound.filled hfits _ _ hr,
      ⟨floor, hwf'⟩, fun w hw =>
      h.loaded w ?_⟩, rfl, hlen, Or.inr ⟨rfl, hweight, _, tables, rfl⟩⟩
    · obtain ⟨above, newer, block, below, hlevels, hlen, hshape⟩ := hfits
      exact
        (install_replaces hsound.tree hlevels hlen hshape hord hwritten hlt hruns).tree hsound.tree
    · rw [hworks]
      exact List.mem_cons_of_mem _ hw

/-- A slice always comes to its end: no assertion of the merge or of the writer fails. -/
theorem Sound.slice_isSome (h : s.Sound db) {j : RunningJob} (hactive : s.active = some j) :
    (s.slice opts db).isSome := by
  obtain ⟨floor, hwf⟩ := h.wf
  have hprog : j.Progress := hwf.progress j (jobs_of_active hactive ▸ List.mem_cons_self)
  obtain ⟨⟨j', id, exhausted⟩, hloop⟩ := Option.isSome_iff_exists.mp
    (@RunningJob.sliceLoop_isSome opts _ db.nextFileId j.merge.flatten.length 0 hprog)
  have hprog' := (RunningJob.sliceLoop_spec hprog le_rfl hloop).2.1
  unfold Scheduler.slice RunningJob.runSlice
  rw [hactive]
  simp only [hloop, Option.bind_some, Option.isSome_map]
  split
  · simpa using FragmentWriter.close_isSome hprog'.ordered
  · rfl

/-! ### Whole rounds -/

/-- The job a round slices and those behind it: the innermost one in flight, or a new
one at a shallower level. -/
def InHand (s : Scheduler) (j : RunningJob) (rest : List RunningJob) : Prop :=
  s.jobs = j :: rest ∨ s.jobs = rest ∧ ∀ k ∈ rest.head?, j.job.level < k.job.level

/-- What a round does: it adds a level, or it takes a job forward or to its end. -/
inductive Rounded (others : Db → Db → Prop) (s : Scheduler) (db : Db) : Scheduler → Db → Prop
  | deepened {db' : Db} : s.jobs = [] → ((∀ d d', others d d' → d.Quiet d') →
      db.version.levels.length < MAX_DYNAMIC_LEVELS ∧
        db'.version.levels.length = db.version.levels.length + 1) →
        Rounded others s db (.new s.force) db'
  | sliced {j j' : RunningJob} {rest : List RunningJob} {db' : Db} : InHand s j rest →
      j.job.level < db'.version.levels.length → j.Same j' → j'.remaining < j.remaining →
      ((∀ d d', others d d' → d.Quiet d') → db'.version.levels = db.version.levels) →
      Rounded others s db ⟨some j', rest, none, s.force⟩ db'
  | installed {j : RunningJob} {rest : List RunningJob} {d : Db} {tables : List Table} :
      InHand s j rest → ((∀ d d', others d d' → d.Quiet d') →
        (d.install j.job (outputRun j.runId tables)).version.levels.length =
          db.version.levels.length ∧
          weight (d.install j.job (outputRun j.runId tables)).version.levels <
            weight db.version.levels) →
      Rounded others s db ⟨none, rest, none, s.force⟩ (d.install j.job (outputRun j.runId tables))

theorem Sound.level_lt (h : s.Sound db) {j : RunningJob} (hactive : s.active = some j) :
    j.job.level < db.version.levels.length := by
  obtain ⟨floor, hwf⟩ := h.wf
  refine (hwf.fits j.job ?_).level_lt
  unfold works
  rw [hactive]
  exact List.mem_cons_self

theorem Sound.round {others : Db → Db → Prop} (hbusy : ∀ d d', others d d' → d.Busy d')
    (h0 : 1 ≤ opts.l0CompactionTrigger) (hwidth : 1 ≤ opts.tierWidth) (h : s.Sound db)
    (hpending : s.pending = none)
    (hr : Round opts others (s, db) (s', db')) :
    s'.Sound db' ∧ s'.pending = none ∧ Rounded others s db s' db' := by
  obtain ⟨hd, hchoose, hd₁, hbegin, hd₃, hwork⟩ := hr
  rename_i s₁ s₂ d d₁ d₂ d₃ d₄
  obtain ⟨hsound₁, hquiet₁, hchosen⟩ := (h.busy (hbusy _ _ hd)).choose h0 hwidth hpending hchoose
  have hsound₂ := hsound₁.busy (hbusy _ _ hd₁)
  have hlevels₂ : (∀ d d', others d d' → d.Quiet d') → d₂.version.levels = db.version.levels :=
    fun hq =>
    (hq _ _ hd₁).levels.trans (hquiet₁.levels.trans (hq _ _ hd).levels)
  -- the slice of the job in hand
  have hslice : ∀ {j : RunningJob} {rest : List RunningJob}, InHand s j rest →
      (⟨some j, rest, none, s.force⟩ : Scheduler).Sound d₃ → d₃.version.levels = d₂.version.levels →
      (⟨some j, rest, none, s.force⟩ : Scheduler).work opts d₄ = some (s', db') →
      s'.Sound db' ∧ s'.pending = none ∧ Rounded others s db s' db' := by
    intro j rest hhand hsound₃ hlevels₃ hwork
    have hsound₄ := hsound₃.busy (hbusy _ _ hd₃)
    have hlevels₄ : (∀ d d', others d d' → d.Quiet d') → d₄.version.levels = db.version.levels :=
      fun hq =>
      (hq _ _ hd₃).levels.trans (hlevels₃.trans (hlevels₂ hq))
    have hlt := hsound₄.level_lt (j := j) rfl
    obtain ⟨hsound', hpending', hlen,
        ⟨j', rfl, hsame, hless, hlevels⟩ | ⟨rfl, hweight, d, tables, rfl⟩⟩ :=
      hsound₄.slice rfl hwork
    · exact ⟨hsound', hpending', .sliced hhand (hlen ▸ hlt) hsame hless fun hq =>
        hlevels.trans (hlevels₄ hq)⟩
    · exact ⟨hsound', hpending', .installed hhand fun hq =>
        ⟨hlen.trans (congrArg List.length (hlevels₄ hq)), hlevels₄ hq ▸ hweight⟩⟩
  cases hchosen with
  | resume j rest hjobs =>
    obtain ⟨rfl, rfl⟩ := Prod.mk.inj (Option.some.inj hbegin)
    exact hslice (Or.inl hjobs) hsound₂ rfl hwork
  | rewrite job hlt =>
    obtain ⟨rfl, rfl⟩ := Prod.mk.inj (Option.some.inj hbegin)
    exact hslice (Or.inr ⟨rfl, hlt⟩) hsound₂.begin_rewrite rfl hwork
  | deepen level inputs hjobs hlen =>
    obtain ⟨rfl, rfl⟩ := Prod.mk.inj (Option.some.inj hbegin)
    obtain ⟨hsound₃, hlen₃⟩ := hsound₂.begin_deepen
    obtain ⟨rfl, rfl⟩ := Prod.mk.inj (Option.some.inj hwork)
    refine ⟨hsound₃.busy (hbusy _ _ hd₃), rfl, .deepened hjobs fun hq => ⟨?_, ?_⟩⟩
    · rwa [(hq _ _ hd).levels] at hlen
    · rw [(hq _ _ hd₃).levels, hlen₃, hlevels₂ hq]

/-- **Every round lowers the rank**, as long as nothing is flushed. -/
theorem Sound.round_lt (h0 : 1 ≤ opts.l0CompactionTrigger) (hwidth : 1 ≤ opts.tierWidth)
    (h : s.Sound db) (hpending : s.pending = none) (hr : Round opts Db.Quiet (s, db) (s', db')) :
    db'.rank s' < db.rank s := by
  obtain ⟨-, -, hrounded⟩ := h.round (fun _ _ => .quiet) h0 hwidth hpending hr
  rw [Db.rank_lt]
  have hquiet : ∀ d d' : Db, d.Quiet d' → d.Quiet d' := fun _ _ h => h
  cases hrounded with
  | deepened hjobs hlen =>
    obtain ⟨hlt, hlen⟩ := hlen hquiet
    exact Or.inl (by omega)
  | @sliced j j' rest _ hhand hlt hsame hless hlevels =>
    have hlevels := hlevels hquiet
    refine Or.inr ⟨by rw [hlevels], Or.inr ⟨by rw [hlevels], ?_⟩⟩
    show j'.job.level < _ ∨ j'.job.level = _ ∧ j'.remaining < _
    rw [hsame.job]
    rcases hhand with hjobs | ⟨hjobs, habove⟩
    · rw [hjobs]
      exact Or.inr ⟨rfl, hless⟩
    · refine Or.inl ?_
      rw [hjobs]
      cases rest with
      | nil =>
        rw [← hlevels]
        exact hlt
      | cons k rest => exact habove k rfl
  | installed hhand hinstall =>
    obtain ⟨hlen, hweight⟩ := hinstall hquiet
    exact Or.inr ⟨by rw [hlen], Or.inl hweight⟩

/-- **The scheduler comes to rest.** -/
structure Quiesces (opts : Options) (force : Bool) (db : Db) : Prop where
  /-- Without flushes there are finitely many rounds. -/
  ends : ¬ ∃ run : ℕ → Scheduler × Db, run 0 = (.new force, db) ∧ ∀ n, Round opts Db.Quiet (run n)
    (run (n + 1))
  /-- Where they end, nothing is in flight and the tree is settled. -/
  settled : ∀ s d, Relation.ReflTransGen (Round opts Db.Quiet) (.new force, db) (s, d) →
    ∀ d', d.Quiet d' → s.choose opts d' = none → s.jobs = [] ∧ d'.Settled opts force
  /-- Whatever else happens, a round that has found work ends. -/
  proceeds : ∀ s d, Relation.ReflTransGen (Round opts Db.Busy) (.new force, db) (s, d) →
    ∀ d', d.Busy d' → ∀ s₁ d₁, s.choose opts d' = some (s₁, d₁) → ∀ d₂, d₁.Busy d₂ →
      ∃ s₂ d₃, s₁.begin d₂ = some (s₂, d₃) ∧ ∀ d₄, d₃.Busy d₄ → (s₂.work opts d₄).isSome
  /-- Of two jobs in flight the one that waits stands deeper. -/
  ordered : ∀ s d, Relation.ReflTransGen (Round opts Db.Busy) (.new force, db) (s, d) →
    s.jobs.Pairwise fun j k => j.job.level < k.job.level
  /-- The innermost suspended job waits for work above it only, and goes on where it was. -/
  resumes : ∀ s d, Relation.ReflTransGen (Round opts Db.Busy) (.new force, db) (s, d) →
    s.active = none → ∀ deep rest, s.suspended = deep :: rest → ∀ d', d.Busy d' →
      d'.version.pickBefore opts deep.job.level = none →
      s.choose opts d' = some (⟨some deep, rest, none, s.force⟩, d')
  /-- A job in flight only goes forward, until its result is in the tree. -/
  forward : ∀ s d s' d', Relation.ReflTransGen (Round opts Db.Busy) (.new force, db) (s, d) →
    Round opts Db.Busy (s, d) (s', d') → ∀ j ∈ s.jobs,
      (∃ j' ∈ s'.jobs, j.Same j' ∧ j'.remaining ≤ j.remaining) ∨
        ∃ d₀ tables, d' = Db.install d₀ j.job (outputRun j.runId tables)

theorem Rounded.forward {others : Db → Db → Prop} (h : Rounded others s db s' db') {j : RunningJob}
    (hj : j ∈ s.jobs) :
    (∃ j' ∈ s'.jobs, j.Same j' ∧ j'.remaining ≤ j.remaining) ∨
      ∃ d₀ tables, db' = Db.install d₀ j.job (outputRun j.runId tables) := by
  have hrefl : j.Same j := ⟨rfl, rfl, rfl⟩
  cases h with
  | deepened hjobs _ => exact absurd (hjobs ▸ hj) List.not_mem_nil
  | @sliced k k' rest _ hhand _ hsame hless _ =>
    refine Or.inl ?_
    rcases hhand with hjobs | ⟨hjobs, -⟩
    · rcases List.mem_cons.mp (hjobs ▸ hj) with rfl | hj
      · exact ⟨k', List.mem_cons_self, hsame, le_of_lt hless⟩
      · exact ⟨j, List.mem_cons_of_mem _ hj, hrefl, le_rfl⟩
    · exact ⟨j, List.mem_cons_of_mem _ (hjobs ▸ hj), hrefl, le_rfl⟩
  | @installed k rest d tables hhand _ =>
    rcases hhand with hjobs | ⟨hjobs, -⟩
    · rcases List.mem_cons.mp (hjobs ▸ hj) with rfl | hj
      · exact Or.inr ⟨d, tables, rfl⟩
      · exact Or.inl ⟨j, hj, hrefl, le_rfl⟩
    · exact Or.inl ⟨j, hjobs ▸ hj, hrefl, le_rfl⟩

theorem Rounded.force {others : Db → Db → Prop} (h : Rounded others s db s' db') :
    s'.force = s.force := by
  cases h <;> rfl

/-- A new scheduler, whatever happens between the pieces of its rounds. -/
theorem sound_of_rounds {others : Db → Db → Prop} (hbusy : ∀ d d', others d d' → d.Busy d')
    (h0 : 1 ≤ opts.l0CompactionTrigger) (hwidth : 1 ≤ opts.tierWidth) (htree : db.Tree)
    (hfilled : db.Filled)
    {force : Bool} {x : Scheduler × Db}
    (h : Relation.ReflTransGen (Round opts others) (.new force, db) x) :
    x.1.Sound x.2 ∧ x.1.pending = none ∧ x.1.force = force := by
  induction h with
  | refl => exact ⟨sound_new htree hfilled force, rfl, rfl⟩
  | tail _ hr ih =>
    rename_i y z
    obtain ⟨hsound, hpending, hrounded⟩ := ih.1.round hbusy h0 hwidth ih.2.1 hr
    exact ⟨hsound, hpending, hrounded.force.trans ih.2.2⟩

theorem choose_none {others : Db} (hpending : s.pending = none) (h : s.choose opts others = none) :
    s.jobs = [] ∧ others.pick opts s.force = none := by
  unfold Scheduler.choose at h
  split at h
  · rename_i j hactive
    unfold preempt at h
    rw [hactive, hpending] at h
    simp only at h
    split at h <;> exact absurd h (by simp)
  · rename_i hactive
    unfold schedule at h
    rw [hactive, hpending] at h
    simp only at h
    split at h
    · rename_i hsusp
      exact ⟨(jobs_of_idle hactive).trans hsusp, by simpa using h⟩
    · split at h <;> exact absurd h (by simp)

/-- **The scheduler comes to rest**, from every tree and in both modes. -/
theorem quiesces (h0 : 1 ≤ opts.l0CompactionTrigger) (hwidth : 1 ≤ opts.tierWidth) (htree : db.Tree)
    (hfilled : db.Filled) (force : Bool) : Quiesces opts force db where
  ends := by
    rintro ⟨run, hzero, hround⟩
    have hreach : ∀ n, Relation.ReflTransGen (Round opts Db.Quiet) (.new force, db) (run n) := by
      intro n
      induction n with
      | zero => exact hzero ▸ .refl
      | succ n ih => exact ih.tail (hround n)
    -- the rank falls with every round, and it is well founded
    have hdesc : ∀ n, (run (n + 1)).2.rank (run (n + 1)).1 < (run n).2.rank (run n).1 := fun n => by
      obtain ⟨hsound, hpending, -⟩ :=
        sound_of_rounds (fun _ _ => .quiet) h0 hwidth htree hfilled (hreach n)
      exact hsound.round_lt h0 hwidth hpending (hround n)
    exact (wellFounded_iff_isEmpty_descending_chain.mp rank_wf).false ⟨run, hdesc⟩
  settled := fun s d hreach d' hquiet hnone => by
    obtain ⟨hsound, hpending, hforce⟩ :=
      sound_of_rounds (fun _ _ => .quiet) h0 hwidth htree hfilled hreach
    obtain ⟨hjobs, hpick⟩ := choose_none hpending hnone
    exact ⟨hjobs, pick_none_settled (hsound.quiet hquiet).filled (hforce ▸ hpick)⟩
  proceeds := fun s d hreach d' hbusy s₁ d₁ hchoose d₂ hbusy₂ => by
    obtain ⟨hsound, hpending, -⟩ := sound_of_rounds (fun _ _ => id) h0 hwidth htree hfilled hreach
    obtain ⟨hsound₁, -, hchosen⟩ := (hsound.busy hbusy).choose h0 hwidth hpending hchoose
    have hsound₂ := hsound₁.busy hbusy₂
    cases hchosen with
    | resume j rest _ => exact ⟨_, _, rfl, fun d₄ hbusy₄ => (hsound₂.busy hbusy₄).slice_isSome rfl⟩
    | rewrite job _ =>
      exact ⟨_, _, rfl, fun d₄ hbusy₄ => (hsound₂.begin_rewrite.busy hbusy₄).slice_isSome rfl⟩
    | deepen level inputs _ _ => exact ⟨_, _, rfl, fun d₄ _ => rfl⟩
  ordered := fun s d hreach => by
    obtain ⟨hsound, hpending, -⟩ := sound_of_rounds (fun _ _ => id) h0 hwidth htree hfilled hreach
    obtain ⟨floor, hwf⟩ := hsound.wf
    have := hwf.levels
    rwa [works_idle hpending, List.pairwise_map] at this
  resumes := fun s d hreach hactive deep rest hsusp d' _ hpick => by
    obtain ⟨-, hpending, -⟩ := sound_of_rounds (fun _ _ => id) h0 hwidth htree hfilled hreach
    unfold Scheduler.choose schedule
    rw [hactive, hpending, hsusp]
    simp only [hpick]
  forward := fun s d s' d' hreach hr j hj => by
    obtain ⟨hsound, hpending, -⟩ := sound_of_rounds (fun _ _ => id) h0 hwidth htree hfilled hreach
    exact (hsound.round (fun _ _ => id) h0 hwidth hpending hr).2.2.forward hj

/-- Two flushed memtables of one key. -/
def twoFlushes : List Action :=
  let write (v : ℕ) : Action := .commit (.batch [.put [byte 107] [byte v]])
  [write 1, .rotate, .flush, write 2, .rotate, .flush]

def twoRunOptions : Options :=
  { Options.default plainFormat with sync := .never, l0CompactionTrigger := 2 }

theorem quiesces_two_runs :
    ∃ e, (engine twoRunOptions).Reachable e ∧ e.db.version.runsNewestFirst.length = 2 ∧
    Quiesces twoRunOptions false e.db := by
  have hrun : ((engine twoRunOptions).run twoFlushes (engine twoRunOptions).init).any (fun e =>
      decide (e.db.version.runsNewestFirst.length = 2 ∧
        (e.db.version.runsNewestFirst.all fun r => !r.tables.isEmpty) = true)) = true := by
    decide +kernel
  obtain ⟨e, hreach, hlen, hall⟩ := System.exists_reachable hrun
  refine ⟨e, hreach, hlen, quiesces (by decide) (by decide)
    (inv_of_reachable hreach).consistent.tree (fun r hr hnil => ?_) false⟩
  have := List.all_eq_true.mp hall r hr
  rw [hnil] at this
  exact absurd this (by simp)

end Scheduler

end Fluent31
