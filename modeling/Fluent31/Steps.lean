/-
What an action does to the log, the commit queue and the trigger registry.

`StepCases` lists the kinds of steps; `step_cases` is the inversion every
invariant about commits and triggers goes through.  All actions that are not
named there leave log, registry and touches alone (`Quiet`).
-/
import Fluent31.Reachable
import Fluent31.WalkSpec

namespace Fluent31

variable {opts : Options} {db : Db} {e e' : Engine}

/-- Where a group's commits come from. -/
theorem mem_groupRecs {c : CommitRec} {inc : List QueuedEntry}
    {outcome : List (Except Error (ℕ × List EncEntry))} (hc : c ∈ groupRecs opts db inc outcome) :
    ∃ q ∈ inc, c.ops = q.ops ∧ c.validate = q.validate ∧ c.capture = q.capture ∧
      c.events = db.captureEvents opts q.ops c.base q.capture := by
  obtain ⟨⟨q, r⟩, hmem, hr⟩ := List.mem_filterMap.mp hc
  obtain ⟨x, -, rfl⟩ := Option.map_eq_some_iff.mp hr
  exact ⟨q, (List.of_mem_zip hmem).1, rfl, rfl, rfl, rfl⟩

/-- Who hands an entry to the write path. -/
inductive Supplied (opts : Options) (e : Engine) : QueuedEntry → Prop
  | queued {q : QueuedEntry} : q ∈ e.queue → Supplied opts e q
  | submitted {sub : Submission} : sub.Allowed opts e → Supplied opts e sub.entry
  | relocated {records : List VlogRecord} : (∀ r ∈ records, r ∈ e.db.vlog.records) →
      Supplied opts e ⟨relocationOps e.db records, none, false⟩

/-- What a step commits: entries that passed validation, with the events of the
registered triggers, all of them from one chunk or a single one. -/
structure NewCommits (opts : Options) (e : Engine) (a : Action) (recs : List CommitRec) : Prop where
  origin : ∀ c ∈ recs, ∃ q, Supplied opts e q ∧ q.conflicts e.db.readView [] = false ∧
    c.ops = q.ops ∧ c.validate = q.validate ∧ c.capture = q.capture ∧
    c.events = e.db.captureEvents opts q.ops c.base q.capture
  chunk : (∃ n, a = .group n ∧ recs = groupRecs opts e.db
      (includedEntries (validateGroup e.db.readView [] (e.queue.take n)) (e.queue.take n))
      (e.db.groupOutcome opts ((includedEntries (validateGroup e.db.readView [] (e.queue.take n))
        (e.queue.take n)).map QueuedEntry.batch)).2) ∨ recs.length ≤ 1

/-- Log, registry, admin lock and touches are as before, and nothing was queued. -/
structure Quiet (e e' : Engine) : Prop where
  log : e'.log = e.log
  queue : e'.queue.Sublist e.queue
  defs : e'.db.defs = e.db.defs
  deleting : e'.deleting = e.deleting
  touches : e'.touches = e.touches

inductive StepCases (opts : Options) (e e' : Engine) : Action → Prop
  | commits {a : Action} {recs : List CommitRec} : NewCommits opts e a recs →
      e'.log = e.log ++ recs → e'.queue.Sublist e.queue → e'.db.defs = e.db.defs →
      e'.deleting = e.deleting → e'.touches = e.touches ++ recs.flatMap (touchesOf e.db.defs) →
      StepCases opts e e' a
  | reopen {n orphan : ℕ} : e.reopen opts n orphan = some e' →
    StepCases opts e e' (.reopen n orphan)
  | enqueue {sub : Submission} : sub.Allowed opts e → e'.queue = e.queue ++ [sub.entry] →
      e'.log = e.log → e'.db = e.db → e'.deleting = e.deleting → e'.touches = e.touches →
      StepCases opts e e' (.enqueue sub)
  | createTrigger {d : TriggerDef} : d.Accepted opts → e.deleting = none → e.AdminIdle →
      (∀ d' ∈ e.db.defs, d'.name ≠ d.name) →
      e.db.getAtSeq (sysTriggerKey d.name) e.db.visibleSeqno = .ok (some (encodeDef d)) →
      e' = { e with db := { e.db with defs := e.db.defs ++ [d] } } →
      StepCases opts e e' (.createTrigger d)
  | deleteTrigger {name : Bytes} : e.deleting = none → e.AdminIdle →
      e' = { e with
        db := { e.db with defs := e.db.defs.filter fun d => decide (d.name ≠ name) }
        deleting := some name
        touches := e.touches.filter fun t => decide (t.name ≠ name) } →
      StepCases opts e e' (.deleteTrigger name)
  | deleteDone : e.AdminIdle → e' = { e with deleting := none } → StepCases opts e e' .deleteDone
  | quiet {a : Action} : Quiet e e' → StepCases opts e e' a

/-! ### Commits -/

/-- One batch on the direct path. -/
theorem newCommits_single {q : QueuedEntry} {a : Action} (hsource : Supplied opts e q)
    (hpass : q.conflicts e.db.readView [] = false) : NewCommits opts e a [recOf opts e.db q] := by
  refine ⟨fun c hc => ?_, Or.inr le_rfl⟩
  rw [List.mem_singleton.mp hc]
  exact ⟨q, hsource, hpass, rfl, rfl, rfl, rfl⟩

theorem newCommits_nil {a : Action} : NewCommits opts e a [] :=
  ⟨fun _ hc => absurd hc List.not_mem_nil, Or.inr (Nat.zero_le _)⟩

/-- The direct path commits the entry, or nothing. -/
theorem commit_new {q : QueuedEntry} (a : Action) (hsource : Supplied opts e q) :
    ∃ recs, NewCommits opts e a recs ∧
      e.commit opts q = e.committed (e.db.commitDirect opts q).1 recs := by
  unfold Engine.commit
  rcases commitDirect_cases opts e.db q with ⟨heq, -⟩ | ⟨heq, -, hops⟩ | ⟨heq, hpass, hops⟩
  · rw [heq]
    exact ⟨[], newCommits_nil, rfl⟩
  · rw [heq, hops]
    exact ⟨[], newCommits_nil, rfl⟩
  · rw [heq]
    simp only
    split
    · rw [if_neg (by simpa using hops)]
      exact ⟨_, newCommits_single hsource hpass, rfl⟩
    · exact ⟨[], newCommits_nil, rfl⟩

theorem relocate_new (opts : Options) (a : Action) {records : List VlogRecord}
    (hrecords : ∀ r ∈ records, r ∈ e.db.vlog.records) :
    e.relocate opts records = e ∨ ∃ recs, NewCommits opts e a recs ∧
      e.relocate opts records =
        e.committed (e.db.applyLocked opts (relocationOps e.db records) false).1 recs := by
  unfold Engine.relocate
  simp only
  split
  · exact Or.inl rfl
  · split
    · exact Or.inr ⟨_, newCommits_single (.relocated hrecords) rfl, rfl⟩
    · exact Or.inr ⟨[], newCommits_nil, rfl⟩

theorem group_new (n : ℕ) : NewCommits opts e (.group n) (groupRecs opts e.db
    (includedEntries (validateGroup e.db.readView [] (e.queue.take n)) (e.queue.take n))
    (e.db.groupOutcome opts ((includedEntries (validateGroup e.db.readView [] (e.queue.take n))
      (e.queue.take n)).map QueuedEntry.batch)).2) := by
  refine ⟨fun c hc => ?_, Or.inl ⟨n, rfl, rfl⟩⟩
  obtain ⟨q, hq, horigin⟩ := mem_groupRecs hc
  have hpass := (included_passes e.db.readView [] (e.queue.take n)).1 q hq
  exact ⟨q, .queued (List.mem_of_mem_take (mem_includedEntries hq).1), hpass, horigin⟩

/-! ### The inversion -/

/-- The step of the scheduler that starts work keeps the registry. -/
theorem schedStart_defs (hs : e.schedStart = some e') : Quiet e e' := by
  unfold Engine.schedStart at hs
  obtain ⟨s, -, hs⟩ := Option.bind_eq_some_iff.mp hs
  obtain ⟨⟨s', db'⟩, hstart, rfl⟩ := Option.map_eq_some_iff.mp hs
  obtain ⟨job, -, -, rfl, rfl⟩ | ⟨level, inputs, -, -, rfl, rfl⟩ := Scheduler.start_cases hstart
  · exact ⟨rfl, .refl _, rfl, rfl, rfl⟩
  · exact ⟨rfl, .refl _, rfl, rfl, rfl⟩

theorem step_cases (h : e.Inv) {a : Action} (hs : e.step opts a = some e') :
    StepCases opts e e' a := by
  cases a with
  | commit sub =>
    obtain ⟨⟨-, hallowed⟩, rfl⟩ := Engine.guarded_eq_some hs
    obtain ⟨recs, hnew, heq⟩ := commit_new (.commit sub) (.submitted hallowed)
    obtain ⟨clears, hfinish⟩ := Engine.finishTask_eq (e.commit opts sub.entry) sub
    have hdefs := (Engine.commit_spec opts h.consistent sub.entry).1.defs
    rw [heq] at hfinish hdefs
    rw [heq, hfinish]
    exact .commits hnew rfl (.refl _) hdefs rfl rfl
  | group n =>
    obtain ⟨-, rfl⟩ := Engine.guarded_eq_some hs
    exact .commits (group_new n) rfl (List.drop_sublist _ _)
      (Engine.group_spec opts h.consistent n).1.defs rfl rfl
  | relocate records =>
    obtain ⟨hrecords, rfl⟩ := Engine.guarded_eq_some hs
    have hdefs := (Engine.relocate_spec opts h.consistent records).1.defs
    rcases relocate_new opts (.relocate records) hrecords with heq | ⟨recs, hnew, heq⟩
    · rw [heq]
      exact .quiet ⟨rfl, .refl _, rfl, rfl, rfl⟩
    · rw [heq] at hdefs ⊢
      exact .commits hnew rfl (.refl _) hdefs rfl rfl
  | reopen n orphan => exact .reopen hs
  | enqueue sub =>
    obtain ⟨⟨-, hallowed⟩, rfl⟩ := Engine.guarded_eq_some hs
    refine .enqueue hallowed ?_ ?_ ?_ ?_ ?_
    all_goals
      obtain ⟨clears, heq⟩ := Engine.finishTask_eq _ sub
      rw [heq]
  | withdraw i =>
    obtain ⟨q, -, rfl⟩ := Option.map_eq_some_iff.mp hs
    exact .quiet ⟨rfl, List.eraseIdx_sublist _ _, rfl, rfl, rfl⟩
  | createTrigger d =>
    obtain ⟨⟨h1, h2, h3, h4, h5⟩, rfl⟩ := Engine.guarded_eq_some hs
    exact .createTrigger h1 h2 h3 h4 h5 rfl
  | deleteTrigger name =>
    obtain ⟨⟨h1, h2, -⟩, rfl⟩ := Engine.guarded_eq_some hs
    exact .deleteTrigger h1 h2 rfl
  | deleteDone =>
    obtain ⟨h1, rfl⟩ := Engine.guarded_eq_some hs
    exact .deleteDone h1 rfl
  -- everything else leaves log and defs, and adds nothing to the queue
  | rotate =>
    obtain rfl := Option.some_inj.mp hs
    refine .quiet ⟨rfl, .refl _, ?_, rfl, rfl⟩
    show e.db.forceRotate.defs = e.db.defs
    unfold Db.forceRotate
    split <;> rfl
  | flush =>
    obtain ⟨⟨db', did⟩, hflush, rfl⟩ := Option.map_eq_some_iff.mp hs
    exact .quiet ⟨rfl, .refl _, (h.consistent.flushOne hflush).2.2.2.2, rfl, rfl⟩
  | schedExit | snapshot | snapshotFlushed =>
    obtain rfl := Option.some_inj.mp hs
    exact .quiet ⟨rfl, .refl _, rfl, rfl, rfl⟩
  | snapshotAt seq =>
    obtain ⟨db', hdb, rfl⟩ := Option.map_eq_some_iff.mp hs
    refine .quiet ⟨rfl, .refl _, ?_, rfl, rfl⟩
    unfold Db.tryRegisterSnapshotAt at hdb
    simp only at hdb
    split at hdb
    · exact absurd hdb (by simp [Except.toOption])
    · split at hdb
      · exact absurd hdb (by simp [Except.toOption])
      · rw [← Option.some_inj.mp hdb]
        rfl
  | pin name =>
    obtain ⟨db', hdb, rfl⟩ := Option.map_eq_some_iff.mp hs
    refine .quiet ⟨rfl, .refl _, ?_, rfl, rfl⟩
    unfold Db.pin at hdb
    split at hdb
    · exact absurd hdb (by simp [Except.toOption])
    · rw [← Option.some_inj.mp hdb]
      rfl
  | unpin name =>
    obtain ⟨db', hdb, rfl⟩ := Option.map_eq_some_iff.mp hs
    refine .quiet ⟨rfl, .refl _, ?_, rfl, rfl⟩
    unfold Db.unpin at hdb
    split at hdb
    · exact absurd hdb (by simp [Except.toOption])
    · rw [← Option.some_inj.mp hdb]
      rfl
  | schedBegin force | advance pinned last | release seq | clearLook name | clearRead name =>
    obtain ⟨-, rfl⟩ := Engine.guarded_eq_some hs
    exact .quiet ⟨rfl, .refl _, rfl, rfl, rfl⟩
  | schedStart => exact .quiet (schedStart_defs hs)
  | schedPreempt =>
    obtain ⟨s, -, hs⟩ := Option.bind_eq_some_iff.mp hs
    obtain ⟨r, -, rfl⟩ := Option.map_eq_some_iff.mp hs
    exact .quiet ⟨rfl, .refl _, rfl, rfl, rfl⟩
  | schedSchedule =>
    obtain ⟨s, hsched, hs⟩ := Option.bind_eq_some_iff.mp hs
    obtain ⟨⟨s', db'⟩, hp, rfl⟩ := Option.map_eq_some_iff.mp hs
    obtain ⟨-, rfl | rfl⟩ := (h.sched s hsched).schedule h.consistent.tree hp
    · exact .quiet ⟨rfl, .refl _, rfl, rfl, rfl⟩
    · exact .quiet ⟨rfl, .refl _, rfl, rfl, rfl⟩
  | schedSlice =>
    obtain ⟨s, -, hs⟩ := Option.bind_eq_some_iff.mp hs
    obtain ⟨⟨s', db'⟩, hslice, rfl⟩ := Option.map_eq_some_iff.mp hs
    exact .quiet ⟨rfl, .refl _, (Engine.slice_frame hslice).2.2.2, rfl, rfl⟩

end Fluent31
