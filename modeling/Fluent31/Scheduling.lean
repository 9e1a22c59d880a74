/-
The compaction scheduler keeps its jobs in place.

`Scheduler.WF` collects what holds between any two pieces of the scheduler:
every picked or running job fits the tree, the jobs stand at strictly
increasing levels from the active one to the outermost suspended one, the file
ids they hold back are unused, and what the running ones have written is as
their drop rule wants.

* `WF.frame`, `WF.flush` — commits and flushes in between do not disturb it;
* `WF.preempt`, `WF.schedule`, `WF.start_rewrite`, `WF.slice` — nor do the pieces of
  the scheduler itself;
* `start_cases`, `slice_eq_some` — what starting a job and running a slice can do;
* `WF.start_consistent`, `WF.slice_consistent` — they keep the store consistent.
-/
import Fluent31.Install

namespace Fluent31

open Ordered Mvcc

/-- The run id a picked splice holds back. -/
def Job.newRunId? (job : Job) : Option ℕ :=
  match job.kind with
  | .tier => none
  | .bottomSplice _ _ _ newRunId => some newRunId

/-- The bottom's runs stand at the back of the last level. -/
def DeepenFits (levels : List (List Run)) (level : ℕ) (inputs : List Run) : Prop :=
  ∃ above newer, levels = above ++ [newer ++ inputs] ∧ above.length = level

namespace Scheduler

/-- All jobs, from the active one outwards. -/
def works (s : Scheduler) : List Job :=
  s.active.toList.map RunningJob.job ++
    (match s.pending with
      | some (.rewrite job) => [job]
      | _ => []) ++ s.suspended.map RunningJob.job

def jobs (s : Scheduler) : List RunningJob := s.active.toList ++ s.suspended

/-- Run ids that are handed out but not in the tree yet. -/
def reserved (s : Scheduler) : List ℕ :=
  s.works.filterMap Job.newRunId? ++ s.jobs.map RunningJob.runId

structure WF (db : Db) (floor : ℕ) (s : Scheduler) : Prop where
  fits : ∀ job ∈ s.works, job.Fits db.version.levels
  levels : s.works.Pairwise fun a b => a.level < b.level
  progress : ∀ j ∈ s.jobs, j.Progress
  collected : ∀ j ∈ s.jobs, ∀ e ∈ j.job.inputs.flatMap Run.entries, e.seq ≤ j.watermark →
    e.seq ≤ floor
  nodup : s.reserved.Nodup
  fresh : ∀ id ∈ s.reserved, id < db.nextFileId ∧ ∀ r ∈ db.version.runsNewestFirst, r.id ≠ id
  idle : s.pending ≠ none → s.active = none
  deepen : ∀ level inputs, s.pending = some (.deepen level inputs) →
    s.suspended = [] ∧ DeepenFits db.version.levels level inputs

variable {opts : Options} {db db' : Db} {floor floor' : ℕ} {s s' : Scheduler} {job : Job}

theorem wf_new (db : Db) (floor : ℕ) (force : Bool) : (Scheduler.new force).WF db floor where
  fits := fun _ h => absurd h List.not_mem_nil
  levels := .nil
  progress := fun _ h => absurd h List.not_mem_nil
  collected := fun _ h => absurd h List.not_mem_nil
  nodup := .nil
  fresh := fun _ h => absurd h List.not_mem_nil
  idle := fun _ => rfl
  deepen := fun _ _ h => absurd h (by simp [Scheduler.new])

/-- Other threads may allocate ids; the floor may rise. -/
theorem WF.frame (h : s.WF db floor) (hlevels : db'.version.levels = db.version.levels)
    (hnext : db.nextFileId ≤ db'.nextFileId) (hfloor : floor ≤ floor') : s.WF db' floor' :=
  { h with
    fits := hlevels ▸ h.fits
    collected := fun j hj e he hw => le_trans (h.collected j hj e he hw) hfloor
    fresh := fun id hid => by
      refine ⟨lt_of_lt_of_le (h.fresh id hid).1 hnext, ?_⟩
      unfold Version.runsNewestFirst
      rw [hlevels]
      exact (h.fresh id hid).2
    deepen := hlevels ▸ h.deepen }

/-- A new run at the front of the top level. -/
theorem WF.push (h : s.WF db floor) {r : Run}
    (hlevels : db'.version.levels = db.version.levels.modify 0 fun l => r :: l)
    (hne : db.version.levels ≠ []) (hid : db.nextFileId ≤ r.id)
    (hnext : db.nextFileId ≤ db'.nextFileId) : s.WF db' floor :=
  { h with
    fits := fun job hjob => hlevels ▸ (h.fits job hjob).push r (Nat.zero_le _)
    fresh := fun id hmem => by
      obtain ⟨hlt, hruns⟩ := h.fresh id hmem
      refine ⟨lt_of_lt_of_le hlt hnext, fun r' hr' => ?_⟩
      unfold Version.runsNewestFirst at hr'
      rw [hlevels, Db.flatten_modify_zero hne] at hr'
      rcases List.mem_cons.mp hr' with rfl | hr'
      · omega
      · exact hruns r' hr'
    deepen := fun level inputs hp => by
      obtain ⟨hsusp, above, newer, hl, hlen⟩ := h.deepen level inputs hp
      refine ⟨hsusp, ?_⟩
      rw [hlevels, hl]
      cases above with
      | nil => exact ⟨[], r :: newer, rfl, hlen⟩
      | cons l above => exact ⟨(r :: l) :: above, newer, rfl, hlen⟩ }

theorem WF.flush (h : s.WF db floor) (hwf : db.WF) {did : Bool}
    (hf : db.flushOne opts = some (db', did)) : s.WF db' floor := by
  rcases Db.flushOne_cases hf with ⟨-, rfl⟩ | ⟨imm, -, ⟨-, rfl⟩ | ⟨run, maxSeq, next, hbuild, rfl⟩⟩
  · exact h
  · exact h.frame rfl le_rfl le_rfl
  · obtain ⟨-, -, hid, hlt, -⟩ := buildRunFromMem_spec hbuild
    exact h.push (r := run) rfl hwf.levels (le_of_eq hid.symm) (le_of_lt hlt)

/-! ### The picker -/

theorem pickTier_fits {v : Version} {level : ℕ} (h : level < v.last) :
    (v.pickTier level).Fits v.levels := by
  have hlen : level + 1 < v.levels.length := by
    unfold Version.last at h
    omega
  have hsplit : v.levels = v.levels.take level ++ v.levels[level] :: v.levels.drop (level + 1) := by
    rw [← List.drop_eq_getElem_cons, List.take_append_drop]
  have hbelow : v.levels.drop (level + 1) = v.levels[level + 1] :: v.levels.drop (level + 2) :=
    List.drop_eq_getElem_cons hlen
  have hinputs : v.level level = v.levels[level] := by
    unfold Version.level
    rw [List.getElem?_eq_getElem (by omega)]
    rfl
  refine ⟨v.levels.take level, [], v.level level, v.levels.drop (level + 1), ?_, ?_, ?_⟩
  · rw [hinputs]
    exact hsplit
  · rw [List.length_take]
    exact min_eq_left (by omega)
  · unfold Version.pickTier
    rw [hbelow]
    exact .tier level _ _ _

theorem pickBefore_spec {v : Version} {before : ℕ} (h : v.pickBefore opts before = some job) :
    job.Fits v.levels ∧ job.level < before ∧ job.newRunId? = none := by
  unfold Version.pickBefore at h
  obtain ⟨i, hi, rfl⟩ := Option.map_eq_some_iff.mp h
  have hlt := List.mem_range.mp (List.mem_of_find?_eq_some hi)
  exact ⟨pickTier_fits (lt_of_lt_of_le hlt (min_le_left _ _)),
    lt_of_lt_of_le hlt (min_le_right _ _), rfl⟩

/-- The last level of a tree. -/
theorem levels_last {v : Version} (h : v.levels ≠ []) :
    v.levels = v.levels.dropLast ++ [v.level v.last] ∧ v.levels.dropLast.length = v.last := by
  have hlast : v.level v.last = v.levels.getLast h := by
    unfold Version.level Version.last
    rw [List.getLast_eq_getElem, List.getElem?_eq_getElem]
    rfl
  rw [hlast]
  exact ⟨(List.dropLast_concat_getLast h).symm, List.length_dropLast⟩

/-- What the picker can choose. -/
theorem pick_cases {force : Bool} {work : Work} (hne : db.version.levels ≠ [])
    (h : db.pick opts force = some (work, db')) :
    (∃ job, work = .rewrite job ∧ job.Fits db.version.levels ∧
      ((db' = db ∧ job.newRunId? = none) ∨
        (db' = db.allocFileId ∧ job.newRunId? = some db.nextFileId))) ∨
    (∃ level inputs, work = .deepen level inputs ∧ db' = db ∧
      DeepenFits db.version.levels level inputs) := by
  obtain ⟨hlast, hlen⟩ := levels_last hne
  unfold Db.pick at h
  simp only at h
  split at h
  · -- a tier over its width, a bottom to deepen, or two bottom runs to splice
    rename_i i hi
    simp only [Option.some.injEq, Prod.mk.injEq] at h
    obtain ⟨rfl, rfl⟩ := h
    exact Or.inl ⟨_, rfl, pickTier_fits (List.mem_range.mp (List.mem_of_find?_eq_some hi)),
      Or.inl ⟨rfl, rfl⟩⟩
  · split at h
    · simp only [Option.some.injEq, Prod.mk.injEq] at h
      obtain ⟨rfl, rfl⟩ := h
      exact Or.inr ⟨_, _, rfl, rfl, _, [], hlast, hlen⟩
    · split at h
      · rename_i base upper rest hbottom
        obtain ⟨job, hp, heq⟩ := Option.map_eq_some_iff.mp h
        obtain ⟨rfl, rfl⟩ := Prod.mk.inj heq
        have hblock : db.version.level db.version.last = rest.reverse ++ [upper, base] := by
          rw [← List.reverse_reverse (db.version.level db.version.last), hbottom]
          simp
        obtain ⟨lo, hi, mid, left, right, hjob, -⟩ := pickSplice_eq hp
        refine Or.inl ⟨job, rfl, ⟨db.version.levels.dropLast, rest.reverse,
          [upper, base], [], ?_, ?_, .splice hp⟩, Or.inr ⟨rfl, ?_⟩⟩
        · rw [← hblock]
          exact hlast
        · rw [hjob]
          exact hlen
        · rw [hjob]
          rfl
      · exact absurd h (by simp)

/-! ### The pieces of the scheduler -/

variable {log : List CommitRec}

/-- New work above everything in flight, without an id of its own. -/
theorem WF.pend (h : s.WF db floor) (hpending : s.pending = none) (hactive : s'.active = none)
    (hjobs : s'.suspended = s.jobs) (hwork : s'.pending = some (.rewrite job))
    (hfits : job.Fits db.version.levels) (habove : ∀ j ∈ s.jobs, job.level < j.job.level)
    (hid : job.newRunId? = none) : s'.WF db floor := by
  have hold : s.works = s.jobs.map RunningJob.job := by
    unfold works jobs
    rw [hpending, List.map_append, List.append_nil]
  have hnew : s'.works = job :: s.works := by
    rw [hold]
    unfold works
    rw [hactive, hwork, hjobs]
    rfl
  have hrun : s'.jobs = s.jobs := by
    unfold jobs at hjobs ⊢
    rw [hactive, hjobs]
    rfl
  have hres : s'.reserved = s.reserved := by
    unfold reserved
    rw [hrun, hnew, List.filterMap_cons, hid]
  refine ⟨fun w hw => ?_, ?_, hrun ▸ h.progress, hrun ▸ h.collected, hres ▸ h.nodup, hres ▸ h.fresh,
    fun _ => hactive, fun level inputs hp => absurd (hwork.symm.trans hp) (by simp)⟩
  · rw [hnew] at hw
    rcases List.mem_cons.mp hw with rfl | hw
    · exact hfits
    · exact h.fits w hw
  · rw [hnew]
    refine List.pairwise_cons.mpr ⟨fun w hw => ?_, h.levels⟩
    rw [hold] at hw
    obtain ⟨j, hj, rfl⟩ := List.mem_map.mp hw
    exact habove j hj

/-- Jobs further out stand at deeper levels. -/
theorem WF.level_le (h : s.WF db floor) {j : RunningJob} {rest : List RunningJob}
    (hpending : s.pending = none) (hjobs : s.jobs = j :: rest) {i : ℕ} (hi : i < j.job.level) :
    ∀ k ∈ s.jobs, i < k.job.level := by
  have hlevels := h.levels
  unfold works at hlevels
  rw [hpending, List.append_nil, ← List.map_append] at hlevels
  replace hlevels : (s.jobs.map RunningJob.job).Pairwise fun a b => a.level < b.level := hlevels
  rw [hjobs, List.map_cons, List.pairwise_cons] at hlevels
  intro k hk
  rw [hjobs] at hk
  rcases List.mem_cons.mp hk with rfl | hk
  · exact hi
  · exact lt_trans hi (hlevels.1 _ (List.mem_map_of_mem hk))

theorem WF.preempt (h : s.WF db floor) (hs : s.preempt opts db = some s') : s'.WF db floor := by
  unfold Scheduler.preempt at hs
  split at hs
  · rename_i deep hactive hpending
    split at hs
    · rename_i job hpick
      obtain rfl := Option.some_inj.mp hs
      obtain ⟨hfits, hlt, hid⟩ := pickBefore_spec hpick
      have hjobs : s.jobs = deep :: s.suspended := by
        unfold jobs
        rw [hactive]
        rfl
      exact h.pend hpending rfl hjobs.symm rfl hfits (h.level_le hpending hjobs hlt) hid
    · obtain rfl := Option.some_inj.mp hs
      exact h
  · exact absurd hs (by simp)

/-- With nothing in flight any fitting job may be picked. -/
theorem wf_single {db : Db} {force : Bool} (hfits : job.Fits db.version.levels)
    (hid : ∀ id ∈ job.newRunId?, id < db.nextFileId ∧ ∀ r ∈ db.version.runsNewestFirst, r.id ≠ id) :
    (⟨none, [], some (.rewrite job), force⟩ : Scheduler).WF db floor := by
  have hres : (⟨none, [], some (.rewrite job), force⟩ : Scheduler).reserved =
      job.newRunId?.toList := by
    unfold reserved works jobs
    cases hj : job.newRunId? <;> simp [hj]
  refine ⟨fun w hw => ?_, List.pairwise_singleton _ _, fun _ hj => absurd hj List.not_mem_nil,
    fun _ hj => absurd hj List.not_mem_nil, ?_, fun id hmem => ?_, fun _ => rfl,
    fun level inputs hp => absurd hp (by simp)⟩
  · rw [List.mem_singleton.mp hw]
    exact hfits
  · rw [hres]
    cases job.newRunId? <;> simp
  · rw [hres] at hmem
    exact hid id (Option.mem_toList.mp hmem)

theorem WF.schedule (h : s.WF db floor) (htree : db.Tree)
    (hs : s.schedule opts db = some (s', db')) :
    s'.WF db' floor ∧ (db' = db ∨ db' = db.allocFileId) := by
  unfold Scheduler.schedule at hs
  split at hs
  · rename_i hactive hpending
    split at hs
    · rename_i hsusp
      obtain ⟨⟨work, db₁⟩, hpick, heq⟩ := Option.map_eq_some_iff.mp hs
      obtain ⟨rfl, rfl⟩ := Prod.mk.inj heq
      rcases pick_cases htree.levels hpick with
        ⟨job, rfl, hfits, ⟨rfl, hid⟩ | ⟨rfl, hid⟩⟩ | ⟨level, inputs, rfl, rfl, hdeep⟩
      · exact ⟨wf_single hfits (by simp [hid]), Or.inl rfl⟩
      · refine ⟨wf_single hfits fun id hmem => ?_, Or.inr rfl⟩
        obtain rfl : db.nextFileId = id := by simpa [hid] using hmem
        exact ⟨Nat.lt_succ_self _, fun r hr => ne_of_lt (htree.lt r hr)⟩
      · refine ⟨⟨fun _ hw => absurd hw List.not_mem_nil, .nil, fun _ hj =>
          absurd hj List.not_mem_nil,
          fun _ hj => absurd hj List.not_mem_nil, .nil, fun _ hid => absurd hid List.not_mem_nil,
          fun _ => rfl, fun level' inputs' hp => ⟨rfl, ?_⟩⟩, Or.inl rfl⟩
        simp only [Option.some.injEq, Work.deepen.injEq] at hp
        obtain ⟨rfl, rfl⟩ := hp
        exact hdeep
    · rename_i deep rest hsusp
      have hjobs : s.jobs = deep :: rest := by
        unfold jobs
        rw [hactive, hsusp]
        rfl
      split at hs
      · rename_i job hpick
        obtain ⟨rfl, rfl⟩ := Prod.mk.inj (Option.some_inj.mp hs)
        obtain ⟨hfits, hlt, hid⟩ := pickBefore_spec hpick
        exact ⟨h.pend hpending rfl hjobs.symm rfl hfits (h.level_le hpending hjobs hlt) hid,
          Or.inl rfl⟩
      · -- the innermost suspended job resumes
        obtain ⟨rfl, rfl⟩ := Prod.mk.inj (Option.some_inj.mp hs)
        have hworks : (⟨some deep, rest, none, s.force⟩ : Scheduler).works = s.works := by
          unfold works
          rw [hactive, hpending, hsusp]
          rfl
        have hjobs' : (⟨some deep, rest, none, s.force⟩ : Scheduler).jobs = s.jobs := hjobs.symm
        have hres : (⟨some deep, rest, none, s.force⟩ : Scheduler).reserved = s.reserved := by
          unfold reserved
          rw [hworks, hjobs']
        exact ⟨⟨hworks ▸ h.fits, hworks ▸ h.levels, hjobs' ▸ h.progress, hjobs' ▸ h.collected,
          hres ▸ h.nodup, hres ▸ h.fresh, fun hne => absurd rfl hne,
          fun level inputs hp => absurd hp (by simp)⟩, Or.inl rfl⟩
  · exact absurd hs (by simp)

/-- The floor a started rewrite may collect under. -/
def startFloor (db : Db) (floor : ℕ) (job : Job) : ℕ :=
  max floor (min db.watermark ((job.inputs.flatMap Run.entries).map Entry.seq |>.foldr max 0))

/-- Versions of a fitting job's inputs are in tables. -/
theorem mem_tableVersions_of_fits (h : job.Fits db.version.levels) {e : Entry}
    (he : e ∈ job.inputs.flatMap Run.entries) : e ∈ db.tableVersions := by
  obtain ⟨above, newer, block, below, hlevels, -, hshape⟩ := h
  obtain ⟨r, hr, her⟩ := List.mem_flatMap.mp (hshape.inputs_sub he)
  refine List.mem_flatMap.mpr ⟨r, ?_, her⟩
  unfold Version.runsNewestFirst
  rw [hlevels]
  simp [hr]

theorem WF.start_rewrite (h : s.WF db floor) (htree : db.Tree) (hactive : s.active = none)
    (hpending : s.pending = some (.rewrite job)) :
    (⟨some (RunningJob.new db job).1, s.suspended, none, s.force⟩ : Scheduler).WF db.allocFileId
      (startFloor db floor job) := by
  have hworks : (⟨some (RunningJob.new db job).1, s.suspended, none, s.force⟩ : Scheduler).works =
      s.works := by
    unfold works
    rw [hactive, hpending]
    rfl
  have hjobs : s.jobs = s.suspended := by
    unfold jobs
    rw [hactive]
    rfl
  have hfits : job.Fits db.version.levels := h.fits job (by
    unfold works
    rw [hactive, hpending]
    exact List.mem_cons_self)
  have hframe : s.WF db.allocFileId (startFloor db floor job) :=
    h.frame rfl (Nat.le_succ _) (le_max_left _ _)
  have hbase : s.reserved = s.works.filterMap Job.newRunId? ++
      s.suspended.map RunningJob.runId := by
    unfold reserved
    rw [hjobs]
  -- the job takes the next file id for its run
  have hperm : (⟨some (RunningJob.new db job).1, s.suspended, none, s.force⟩ :
      Scheduler).reserved.Perm (db.nextFileId :: s.reserved) := by
    rw [hbase]
    unfold reserved
    rw [hworks]
    exact List.perm_middle
  refine ⟨hworks ▸ hframe.fits, hworks ▸ hframe.levels, fun j hj => ?_, fun j hj e he hw => ?_, ?_,
    fun id hid => ?_, fun hne => absurd rfl hne, fun level inputs hp => absurd hp (by simp)⟩
  · rcases List.mem_cons.mp hj with rfl | hj
    · exact RunningJob.progress_new (htree.mergeable hfits)
    · exact h.progress j (hjobs ▸ hj)
  · rcases List.mem_cons.mp hj with rfl | hj
    · exact le_trans (le_min hw (Db.le_foldr_max he)) (le_max_right _ _)
    · exact hframe.collected j (hjobs ▸ hj) e he hw
  · refine hperm.nodup_iff.mpr (List.nodup_cons.mpr ⟨fun hmem => ?_, h.nodup⟩)
    exact absurd (h.fresh _ hmem).1 (lt_irrefl _)
  · rcases List.mem_cons.mp (hperm.mem_iff.mp hid) with rfl | hid
    · exact ⟨Nat.lt_succ_self _, fun r hr => ne_of_lt (htree.lt r hr)⟩
    · exact hframe.fresh id hid

theorem WF.start_consistent (h : s.WF db floor) (hcons : Consistent db log floor)
    (hactive : s.active = none) (hpending : s.pending = some (.rewrite job)) :
    Consistent db.allocFileId log (startFloor db floor job) := by
  have hfits : job.Fits db.version.levels := h.fits job (by
    unfold works
    rw [hactive, hpending]
    exact List.mem_cons_self)
  have hseqs : ∀ e ∈ job.inputs.flatMap Run.entries, e.seq ≤ db.manifest.lastFlushedSeqno :=
    fun e he => hcons.wf.tables_le e (mem_tableVersions_of_fits hfits he)
  have hmax : startFloor db floor job ≤ db.manifest.lastFlushedSeqno :=
    max_le hcons.floor_le (le_trans (min_le_right _ _) (Db.foldr_max_le hseqs))
  exact (hcons.raise (le_max_left _ _) hmax).alloc (Nat.le_succ db.nextFileId)

/-- After a deepen nothing is in flight. -/
theorem WF.start_deepen (h : s.WF db floor) {level : ℕ} {inputs : List Run}
    (hpending : s.pending = some (.deepen level inputs)) :
    (⟨none, s.suspended, none, s.force⟩ : Scheduler) = Scheduler.new s.force := by
  rw [(h.deepen level inputs hpending).1]
  rfl

/-! ### Inversions -/

theorem start_cases (hs : s.start db = some (s', db')) :
    (∃ job, s.active = none ∧ s.pending = some (.rewrite job) ∧
      s' = ⟨some (RunningJob.new db job).1, s.suspended, none, s.force⟩ ∧ db' = db.allocFileId) ∨
    ∃ level inputs, s.active = none ∧ s.pending = some (.deepen level inputs) ∧
      s' = ⟨none, s.suspended, none, s.force⟩ ∧ db' = db.installDeepen level inputs := by
  unfold start at hs
  split at hs
  · rename_i job hactive hpending
    obtain ⟨rfl, rfl⟩ := Prod.mk.inj (Option.some_inj.mp hs)
    exact Or.inl ⟨job, hactive, hpending, rfl, rfl⟩
  · rename_i level inputs hactive hpending
    obtain ⟨rfl, rfl⟩ := Prod.mk.inj (Option.some_inj.mp hs)
    exact Or.inr ⟨level, inputs, hactive, hpending, rfl, rfl⟩
  · exact absurd hs (by simp)

/-- A slice stops at its budget, or installs what its job wrote. -/
theorem slice_eq_some (hs : s.slice opts db = some (s', db')) :
    ∃ j j' id exhausted, s.active = some j ∧
      RunningJob.sliceLoop opts j.merge.flatten.length j 0 db.nextFileId =
        some (j', id, exhausted) ∧
      ((exhausted = false ∧ s' = ⟨some j', s.suspended, s.pending, s.force⟩ ∧
          db' = { db with nextFileId := id }) ∨
        exhausted = true ∧ ∃ tables, j'.writer.close opts = some tables ∧
          s' = ⟨none, s.suspended, s.pending, s.force⟩ ∧
          db' = Db.install { db with nextFileId := id } j'.job (outputRun j'.runId tables)) := by
  unfold slice at hs
  split at hs
  · rename_i j hactive
    obtain ⟨⟨db₁, j?⟩, hrun, heq⟩ := Option.map_eq_some_iff.mp hs
    obtain ⟨rfl, rfl⟩ := Prod.mk.inj heq
    unfold RunningJob.runSlice at hrun
    obtain ⟨⟨j', id, exhausted⟩, hloop, hrest⟩ := Option.bind_eq_some_iff.mp hrun
    refine ⟨j, j', id, exhausted, hactive, hloop, ?_⟩
    cases exhausted with
    | false =>
      simp only [Bool.false_eq_true, if_false, Option.some.injEq, Prod.mk.injEq] at hrest
      obtain ⟨rfl, rfl⟩ := hrest
      exact Or.inl ⟨rfl, rfl, rfl⟩
    | true =>
      simp only [if_true] at hrest
      obtain ⟨tables, hclose, heq⟩ := Option.map_eq_some_iff.mp hrest
      obtain ⟨rfl, rfl⟩ := Prod.mk.inj heq
      exact Or.inr ⟨rfl, tables, hclose, rfl, rfl⟩
  · exact absurd hs (by simp)

/-! ### Slices -/

/-- **A slice** takes its job forward, or installs its output. -/
theorem WF.slice_cases (h : s.WF db floor) (hs : s.slice opts db = some (s', db')) :
    ∃ j j' id, s.active = some j ∧ s.pending = none ∧ j.Same j' ∧ j'.Progress ∧ db.nextFileId ≤ id ∧
      ((s' = ⟨some j', s.suspended, none, s.force⟩ ∧ db' = { db with nextFileId := id } ∧
          j'.remaining < j.remaining) ∨
        ∃ tables, s' = ⟨none, s.suspended, none, s.force⟩ ∧
          db' = Db.install { db with nextFileId := id } j.job (outputRun j.runId tables) ∧
          (tables.Pairwise fun t t' => t.maxUkey < t'.minUkey) ∧ tables.flatMap Table.entries =
            survivors j.job j.watermark none false
              (mergeAll Entry.ikey (j.job.inputs.map Run.entries))) := by
  obtain ⟨j, j', id, exhausted, hactive, hloop, hend⟩ := slice_eq_some hs
  have hpending : s.pending = none := by
    by_contra hne
    exact absurd (h.idle hne) (by rw [hactive]; simp)
  have hjmem : j ∈ s.jobs := by
    unfold jobs
    rw [hactive]
    exact List.mem_cons_self
  obtain ⟨hsame, hprog, hid, hdone⟩ := RunningJob.sliceLoop_spec (h.progress j hjmem) le_rfl hloop
  have hless := (RunningJob.sliceLoop_remaining hloop).2 rfl
  refine ⟨j, j', id, hactive, hpending, hsame, hprog, hid, ?_⟩
  rw [hpending] at hend
  obtain ⟨rfl, rfl, rfl⟩ | ⟨rfl, tables, hclose, rfl, rfl⟩ := hend
  · exact Or.inl ⟨rfl, rfl, hless rfl⟩
  · obtain ⟨hordered, hwritten⟩ := hprog.close (hdone rfl) hclose
    rw [hsame.job, hsame.watermark] at hwritten
    rw [hsame.job, hsame.runId]
    exact Or.inr ⟨tables, rfl, rfl, hordered, hwritten⟩

/-- The result's run id is no longer held back once it is installed. -/
theorem WF.outId (h : s.WF db floor) {j : RunningJob} (hactive : s.active = some j)
    (hpending : s.pending = none) :
    j.job.outId j.runId ∈ s.reserved ∧
      j.job.outId j.runId ∉ (⟨none, s.suspended, none, s.force⟩ : Scheduler).reserved ∧
        (⟨none, s.suspended, none, s.force⟩ : Scheduler).reserved.Sublist s.reserved := by
  have hres : s.reserved = (j.job.newRunId?.toList ++ (s.suspended.map RunningJob.job).filterMap
      Job.newRunId?) ++ j.runId :: s.suspended.map RunningJob.runId := by
    unfold reserved works jobs
    rw [hactive, hpending]
    simp only [Option.toList_some, List.map_cons, List.map_nil, List.append_nil, List.cons_append,
      List.nil_append, List.filterMap_cons]
    cases j.job.newRunId? <;> rfl
  have hres' : (⟨none, s.suspended, none, s.force⟩ : Scheduler).reserved =
      (s.suspended.map RunningJob.job).filterMap Job.newRunId? ++
        s.suspended.map RunningJob.runId := by
    unfold reserved works jobs
    simp
  have hnodup := h.nodup
  rw [hres] at hnodup
  rw [hres, hres']
  refine ⟨?_, ?_, (List.sublist_append_right _ _).append (List.sublist_cons_self _ _)⟩
  · -- a splice writes under the id it held back, any other job under its run id
    unfold Job.outId Job.newRunId?
    cases j.job.kind with
    | tier => simp
    | bottomSplice baseId left right newRunId => exact List.mem_cons_self
  · unfold Job.outId Job.newRunId? at *
    cases hk : j.job.kind with
    | tier =>
      simp only [hk, Option.toList_none, List.nil_append] at hnodup ⊢
      rw [List.nodup_append] at hnodup
      intro hmem
      rcases List.mem_append.mp hmem with hmem | hmem
      · exact hnodup.2.2 _ hmem _ List.mem_cons_self rfl
      · exact (List.nodup_cons.mp hnodup.2.1).1 hmem
    | bottomSplice baseId left right newRunId =>
      simp only [hk, Option.toList_some, List.cons_append] at hnodup ⊢
      intro hmem
      refine (List.nodup_cons.mp hnodup).1 ?_
      rcases List.mem_append.mp hmem with hmem | hmem
      · exact List.mem_append_left _ hmem
      · exact List.mem_append_right _ (List.mem_cons_of_mem _ hmem)

/-- The active job and the suspended ones. -/
theorem works_active {j : RunningJob} (hactive : s.active = some j) (hpending : s.pending = none) :
    s.works = j.job :: s.suspended.map RunningJob.job ∧ s.jobs = j :: s.suspended := by
  unfold works jobs
  rw [hactive, hpending]
  exact ⟨rfl, rfl⟩

theorem WF.slice (h : s.WF db floor) (htree : db.Tree) (hs : s.slice opts db = some (s', db')) :
    s'.WF db' floor := by
  obtain ⟨j, j', id, hactive, hpending, hsame, hprog, hid,
      ⟨rfl, rfl, -⟩ | ⟨tables, rfl, rfl, -, -⟩⟩ :=
    h.slice_cases hs
  all_goals
    obtain ⟨hworks, hjobs⟩ := works_active hactive hpending
    have hjmem : j ∈ s.jobs := hjobs ▸ List.mem_cons_self
    have hsmem : ∀ k ∈ s.suspended, k ∈ s.jobs := fun k hk => hjobs ▸ List.mem_cons_of_mem _ hk
    have hframe : s.WF { db with nextFileId := id } floor := h.frame rfl hid le_rfl
  · -- the job goes on: the works are the same
    have hworks' : (⟨some j', s.suspended, none, s.force⟩ : Scheduler).works = s.works := by
      rw [hworks, ← hsame.job]
      rfl
    have hres' : (⟨some j', s.suspended, none, s.force⟩ : Scheduler).reserved = s.reserved := by
      unfold reserved
      rw [hworks', hjobs, List.map_cons, ← hsame.runId]
      rfl
    refine ⟨hworks' ▸ hframe.fits, hworks' ▸ hframe.levels, fun k hk => ?_, fun k hk e he hw => ?_,
      hres' ▸ hframe.nodup, hres' ▸ hframe.fresh, fun hne => absurd rfl hne,
      fun level inputs hp => absurd hp (by simp)⟩
    · rcases List.mem_cons.mp hk with rfl | hk
      · exact hprog
      · exact h.progress k (hsmem k hk)
    · rcases List.mem_cons.mp hk with rfl | hk
      · exact h.collected j hjmem e (hsame.job ▸ he) (hsame.watermark ▸ hw)
      · exact h.collected k (hsmem k hk) e he hw
  · -- the job ends: the others still fit the tree it leaves
    have hfits : j.job.Fits db.version.levels := h.fits j.job (hworks ▸ List.mem_cons_self)
    obtain ⟨-, hout, hsub⟩ := h.outId hactive hpending
    have hlevels := h.levels
    rw [hworks, List.pairwise_cons] at hlevels
    refine ⟨fun job hjob => ?_, hlevels.2, fun k hk => h.progress k (hsmem k hk),
      fun k hk => h.collected k (hsmem k hk), h.nodup.sublist hsub, fun id' hid' => ?_,
      fun hne => absurd rfl hne, fun level inputs hp => absurd hp (by simp)⟩
    · have hmem : job ∈ s.suspended.map RunningJob.job := hjob
      have hjfits : job.Fits ({ db with nextFileId := id } : Db).version.levels :=
        h.fits job (hworks ▸ List.mem_cons_of_mem _ hmem)
      exact installLevels_fits hfits hjfits (hlevels.1 job hmem) _
    · obtain ⟨hlt, hruns⟩ := hframe.fresh id' (hsub.subset hid')
      refine ⟨hlt, fun r hr => ?_⟩
      rcases mem_installLevels hfits htree.nodup hr with hr | hr
      · exact hruns r hr
      · rw [hr]
        exact fun heq => hout (heq ▸ hid')

theorem WF.slice_consistent (h : s.WF db floor) (hcons : Consistent db log floor)
    (hs : s.slice opts db = some (s', db')) : Consistent db' log floor := by
  obtain ⟨j, j', id, hactive, hpending, hsame, hprog, hid,
    ⟨rfl, rfl, -⟩ | ⟨tables, rfl, rfl, hordered, hwritten⟩⟩ := h.slice_cases hs
  · exact hcons.alloc hid
  · obtain ⟨hworks, hjobs⟩ := works_active hactive hpending
    have hfits : j.job.Fits db.version.levels := h.fits j.job (hworks ▸ List.mem_cons_self)
    have hframe : s.WF { db with nextFileId := id } floor := h.frame rfl hid le_rfl
    obtain ⟨hlt, hruns⟩ := hframe.fresh _ (h.outId hactive hpending).1
    exact (hcons.alloc hid).install hfits hordered hwritten
      (h.collected j (hjobs ▸ List.mem_cons_self)) hlt hruns

end Scheduler

end Fluent31
