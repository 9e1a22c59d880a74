/-
Writers, failing file operations and the WAL files (`db.rs`, `txn.rs`).

Every writer asks `check_bg_error` before it takes the write mutex: `passed`
are the writers in between.  A `WalStore` is a store with the bytes of its WAL
files; an apply carries out its plan on both.  Rotations forced by flush, fork
and slice calls, the flush thread and the other threads interleave with the
writers.

`acked` and `flushed` record the past: the batches that were answered `Ok` and
the versions that were flushed.  `failed` says that an append or sync of the
write path has failed, `torn` that a WAL append has.

* `Writer.planned`, `relocatePlan_planned` — the shape of an apply.
-/
import Fluent31.WalFile
import Fluent31.CommitQueue

namespace Fluent31

/-- Who applies a batch. -/
inductive Writer
  /-- A batch or transaction outside `SyncMode::Always`. -/
  | direct (q : QueuedEntry)
  /-- A chunk of the committer. -/
  | chunk (qs : List QueuedEntry)
  /-- A pass of the value-log collector; it applies chunk after chunk. -/
  | collector
  /-- A caller of `sync_wal`. -/
  | barrier
  deriving DecidableEq

/-- Appends and syncs, of all that can fail. -/
def RotateOp.syncs : RotateOp → Bool
  | .sealWal | .sealHead => true
  | _ => false

def Faults.hard (f : Faults) : Faults := { f with rotate := f.rotate.filter fun p => p.1.syncs }

/-- What fails before the answer. -/
def Faults.unrotated (f : Faults) : Faults := { f with rotate := .none }

/-- Some of the record is in the file. -/
def WriteStep.isTorn : WriteStep → Bool
  | .torn _ _ _ => true
  | _ => false

/-- Off the WAL and the memtable. -/
def WriteStep.offWal : WriteStep → Bool
  | .place _ _ | .syncVlog | .syncWal => true
  | _ => false

namespace Writer

/-- Applies one batch or chunk. -/
def once : Writer → Bool
  | direct _ | chunk _ => true
  | collector | barrier => false

/-- Plain writers go through the committer in `SyncMode::Always`; there is one
committer, and one pass of the collector at a time. -/
def mayPass (opts : Options) (passed : List Writer) : Writer → Bool
  | direct _ => decide (opts.sync ≠ .always)
  | chunk _ => decide (opts.sync = .always) && !passed.any once
  | collector => !passed.contains collector
  | barrier => true

/-- What a writer applies. -/
def plan (opts : Options) (db : Db) (f : Faults) : Writer → Plan
  | direct q =>
    match q.check db.readView [] (f.reads 0) with
    | .ok false => if q.ops = [] then ⟨[], [], none⟩ else db.directPlan opts q.ops q.capture f
    | .ok true | .error _ => ⟨[], [], none⟩
  | chunk qs => (db.commitGroupPlan opts qs f).1
  | collector | barrier => ⟨[], [], none⟩

end Writer

/-- What the collector applies for a chunk of a value-log file. -/
def Db.relocatePlan (opts : Options) (db : Db) (records : List VlogRecord) (f : Faults) : Plan :=
  let ops := relocationOps db records
  if ops = [] then ⟨[], [], none⟩ else db.directPlan opts ops false f

/-! ### Stores with their WAL files -/

structure WalStore where
  db : Db
  files : ℕ → Option WalFile

namespace WalStore

variable (crc : Bytes → Fin (2 ^ 32)) (d : WalStore)

/-- A write to the WAL file that is the append target. -/
def write (f : WalFile → WalFile) : ℕ → Option WalFile :=
  Function.update d.files d.db.wal.id ((d.files d.db.wal.id).map f)

def perform (step : WriteStep) : WalStore where
  db := d.db.perform step
  files := match step with
    | .record base entries => d.write fun f => f.append crc (encodeBatch base entries)
    | .torn base entries len => d.write fun f => f.appendTorn crc (encodeBatch base entries) len
    | .createWal id => Function.update d.files id (some ⟨[], 0⟩)
    | _ => d.files

def performAll (steps : List WriteStep) : WalStore := steps.foldl (perform crc) d

/-- `flush_one`; WAL files below the floor are deleted. -/
def flush (opts : Options) : Option WalStore :=
  (d.db.flushOne opts).map fun r =>
    { db := r.1
      files := fun id => if id < r.1.manifest.walFloor then none else d.files id }

end WalStore

/-! ### The system -/

structure WritePath where
  store : WalStore
  passed : List Writer
  bgError : Option String
  acked : List (ℕ × List EncEntry)
  flushed : List Entry
  failed : Bool
  torn : Bool

/-- The sync of a barrier that fails, and how. -/
inductive BarrierFault
  | vlog (msg : String)
  | wal (msg : String)

/-- What `sync_wal` degrades the store with. -/
def BarrierFault.text : BarrierFault → String
  | vlog msg => "vlog sync failed: " ++ (Error.io msg).text
  | wal msg => "wal sync failed: " ++ (Error.io msg).text

inductive PathAction
  /-- A writer passes `check_bg_error`. -/
  | check (w : Writer)
  /-- A writer gives up, or the collector ends its pass. -/
  | leave (i : ℕ)
  | apply (i : ℕ) (f : Faults)
  /-- One chunk of the collector. -/
  | relocate (i : ℕ) (records : List VlogRecord) (f : Faults)
  /-- `sync_wal`: the head of the value log, and then the WAL. -/
  | sync (i : ℕ) (fault : Option BarrierFault)
  | forceRotate (fault : Option (RotateOp × String))
  | flush
  | degrade (msg : String)
  /-- Compaction, snapshots, pins and trigger administration: whatever they do,
  they leave WAL, memtables and seqnos alone. -/
  | background (version : Version) (snapshots : List ℕ) (defs : List TriggerDef)
    (pins : List (Bytes × ℕ)) (ids : ℕ)

namespace WritePath

variable (crc : Bytes → Fin (2 ^ 32)) (opts : Options) (s : WritePath)

/-- The process that has just opened a store. -/
def opened (db : Db) : WritePath where
  store := ⟨db, Function.update (fun _ => none) db.wal.id (some ⟨[], 0⟩)⟩
  passed := []
  bgError := none
  acked := []
  flushed := []
  failed := false
  torn := false

/-- An apply. -/
def carry (plan : Faults → Plan) (f : Faults) : WritePath :=
  { s with
    store := s.store.performAll crc (plan f).steps
    bgError := s.bgError <|> (plan f).failed
    acked := s.acked ++ (plan f).appended
    failed := s.failed || (plan f.hard).failed.isSome
    torn := s.torn || (plan f).steps.any WriteStep.isTorn }

def step : PathAction → Option WritePath
  | .check w =>
    if s.bgError = none ∧ w.mayPass opts s.passed = true then
      some { s with passed := s.passed ++ [w] }
    else none
  | .leave i => if i < s.passed.length then some { s with passed := s.passed.eraseIdx i } else none
  | .apply i f =>
    (s.passed[i]?).bind fun w =>
      if w.once = true then
        some
          { s.carry crc (fun f => w.plan opts s.store.db f) f with passed := s.passed.eraseIdx i }
      else none
  | .relocate i records f =>
    if s.passed[i]? = some .collector then
      let plan := s.store.db.relocatePlan opts records
      -- an error ends the pass
      some { s.carry crc plan f with
        passed := if (plan f).outcome.any fun r => !r.isOk then s.passed.eraseIdx i else s.passed }
    else none
  | .sync i fault =>
    if s.passed[i]? = some .barrier then
      some { s with
        passed := s.passed.eraseIdx i
        bgError := s.bgError <|> fault.map BarrierFault.text
        failed := s.failed || fault.isSome }
    else none
  | .forceRotate fault =>
    if s.store.db.mem.isEmpty = true then some s
    else
      some { s with
        store := s.store.performAll crc (Db.memtableSteps s.store.db.nextFileId fault).1 }
  | .flush =>
    (s.store.flush opts).map fun d =>
      { s with
        store := d
        flushed := s.flushed ++ (s.store.db.imms.getLast?.elim [] Memtable.map) }
  | .degrade msg => some { s with bgError := s.bgError <|> some msg }
  | .background version snapshots defs pins ids =>
    let db := s.store.db
    some { s with
      store := { s.store with
        db := { db with
          version := version
          snapshots := snapshots
          defs := defs
          manifest := { db.manifest with pins := pins }
          nextFileId := db.nextFileId + ids } } }

end WritePath

/-! ### The shape of an apply -/

/-- An apply writes its records, maybe a part of one more, publishes them and
rotates. -/
structure Plan.Shape (opts : Options) (db : Db) (rotate : Option (RotateOp × String)) (p : Plan)
    (written : List (ℕ × List EncEntry)) (lost : Option (ℕ × List EncEntry × ℕ))
    (pre mid rot : List WriteStep) : Prop where
  steps : p.steps = pre ++ (written.map fun r => .record r.1 r.2) ++
    (lost.map fun r => WriteStep.torn r.1 r.2.1 r.2.2).toList ++ mid ++
      Db.publishSteps p.appended ++ rot
  pre_off : ∀ s ∈ pre, s.offWal = true
  mid_off : ∀ s ∈ mid, s.offWal = true
  numbered : ∃ m, Contiguous (db.visibleSeqno + 1) written m
  fits : ∀ r ∈ written, (encodeBatch r.1 r.2).length < WAL_RECORD_LIMIT
  lost_fits : ∀ r ∈ lost.toList, (encodeBatch r.1 r.2.1).length < WAL_RECORD_LIMIT
  appended : p.appended = written ∨ p.appended = []
  rotates : rot = [] ∨ lost = none ∧ p.appended = written ∧
    rot = ((db.performAll (pre ++ (written.map fun r => .record r.1 r.2) ++ mid ++
      Db.publishSteps p.appended)).rotateSteps opts rotate).1

/-- How an apply depends on what fails. -/
structure Planned (opts : Options) (db : Db) (plan : Faults → Plan) : Prop where
  shape : ∀ f : Faults, ∃ written lost pre mid rot,
    (plan f).Shape opts db f.rotate written lost pre mid rot ∧
    ((plan f.unrotated).failed = none → lost = none ∧ (plan f).appended = written)
  failed : ∀ f : Faults, ∃ (c : Prop) (d : Db), ∀ rotate,
    ((plan { f with rotate := rotate }).failed.isSome ↔
      (plan f.unrotated).failed.isSome ∨ c ∧ (d.rotateSteps opts rotate).2.isSome)

variable {opts : Options} {db : Db}

/-- Restricting a rotation's failure to syncs. -/
theorem rotateSteps_hard (opts : Options) (db : Db) (rotate : Option (RotateOp × String))
    (h : (db.rotateSteps opts (rotate.filter fun p => p.1.syncs)).2.isSome) :
    (db.rotateSteps opts rotate).2.isSome := by
  cases rotate with
  | none => exact h
  | some p =>
    rw [Option.filter_some] at h
    split at h
    · exact h
    · rw [(Db.performAll_rotateSteps opts db).2] at h
      exact absurd h (by simp)

theorem Planned.failed_of_hard {plan : Faults → Plan} (h : Planned opts db plan) {f : Faults}
    (hf : (plan f.hard).failed.isSome) : (plan f).failed.isSome := by
  obtain ⟨c, d, hiff⟩ := h.failed f
  rcases (hiff _).mp hf with hf | ⟨hc, hf⟩
  · exact (hiff f.rotate).mpr (Or.inl hf)
  · exact (hiff f.rotate).mpr (Or.inr ⟨hc, rotateSteps_hard opts d _ hf⟩)

theorem Planned.unrotated_of_hard {plan : Faults → Plan} (h : Planned opts db plan) {f : Faults}
    (hf : (plan f.hard).failed = none) : (plan f.unrotated).failed = none := by
  obtain ⟨c, d, hiff⟩ := h.failed f
  have hhard : ¬ (plan f.hard).failed.isSome := by simp [hf]
  exact Option.not_isSome_iff_eq_none.mp fun hsome => hhard ((hiff _).mpr (Or.inl hsome))

/-- Every record that reached the WAL is below the limit. -/
theorem groupPhase3Io_fits (fault : Option (ℕ × ℕ × String))
    (rs : List (Except Error (ℕ × List EncEntry))) :
    (∀ r ∈ (Db.groupPhase3Io fault rs).1.filterMap Except.toOption,
        (encodeBatch r.1 r.2).length < WAL_RECORD_LIMIT) ∧
      ∀ r ∈ (Db.groupPhase3Io fault rs).2.toList,
        (encodeBatch r.1 r.2).length < WAL_RECORD_LIMIT := by
  induction rs generalizing fault with
  | nil => simp [Db.groupPhase3Io]
  | cons r rs ih =>
    cases r with
    | error e => exact ih fault
    | ok r =>
      obtain ⟨base, entries⟩ := r
      have hnone : ∀ (err err' : Error),
          ((Except.error err :: rs.map fun r => r.bind fun _ => .error err') :
          List (Except Error (ℕ × List EncEntry))).filterMap Except.toOption = [] := by
        intro err err'
        rw [List.filterMap_eq_nil_iff]
        refine List.forall_mem_cons.mpr ⟨rfl, fun r hr => ?_⟩
        obtain ⟨r', -, rfl⟩ := List.mem_map.mp hr
        cases r' <;> rfl
      unfold Db.groupPhase3Io
      by_cases hlimit : WAL_RECORD_LIMIT ≤ (encodeBatch base entries).length
      · rw [if_pos hlimit]
        refine ⟨?_, fun r hr => absurd hr List.not_mem_nil⟩
        rw [hnone]
        exact fun r hr => absurd hr List.not_mem_nil
      · rw [if_neg hlimit]
        have hfit := not_le.mp hlimit
        rcases fault with _ | ⟨_ | done, len, msg⟩
        · exact ⟨List.forall_mem_cons.mpr ⟨hfit, (ih _).1⟩, (ih _).2⟩
        · refine ⟨?_, fun r hr => ?_⟩
          · simp only [hnone]
            exact fun r hr => absurd hr List.not_mem_nil
          · rw [List.mem_singleton.mp (show r ∈ [(base, entries)] from hr)]
            exact hfit
        · exact ⟨List.forall_mem_cons.mpr ⟨hfit, (ih _).1⟩, (ih _).2⟩

/-- An apply up to its publication. -/
structure Plan.Recorded (db : Db) (p : Plan) (written : List (ℕ × List EncEntry))
    (lost : Option (ℕ × List EncEntry × ℕ)) (pre mid : List WriteStep) : Prop where
  steps : p.steps = pre ++ (written.map fun r => .record r.1 r.2) ++
    (lost.map fun r => WriteStep.torn r.1 r.2.1 r.2.2).toList ++ mid
  pre_off : ∀ s ∈ pre, s.offWal = true
  mid_off : ∀ s ∈ mid, s.offWal = true
  numbered : ∃ m, Contiguous (db.visibleSeqno + 1) written m
  fits : ∀ r ∈ written, (encodeBatch r.1 r.2).length < WAL_RECORD_LIMIT
  lost_fits : ∀ r ∈ lost.toList, (encodeBatch r.1 r.2.1).length < WAL_RECORD_LIMIT
  whole : p.failed = none → lost = none ∧ p.appended = written

/-- An apply either stops with nothing to publish, or publishes and rotates. -/
inductive Plan.Ends (opts : Options) (db : Db) (plan : Option (RotateOp × String) → Plan) : Prop
  | stops (p : Plan) (written : List (ℕ × List EncEntry)) (lost : Option (ℕ × List EncEntry × ℕ))
      (pre mid : List WriteStep) : (∀ rotate, plan rotate = p) →
        p.Recorded db written lost pre mid →
      p.appended = [] → Ends opts db plan
  | publishes (p : Plan) (written : List (ℕ × List EncEntry))
    (lost : Option (ℕ × List EncEntry × ℕ))
      (pre mid : List WriteStep) : (∀ rotate, plan rotate = db.publishPhase opts p rotate) →
      p.Recorded db written lost pre mid → p.appended = written → Ends opts db plan

theorem publishPhase_appended (p : Plan) (rotate : Option (RotateOp × String)) :
    (db.publishPhase opts p rotate).appended = p.appended := by
  unfold Db.publishPhase
  simp only
  split <;> rfl

/-- Nothing was published, or something failed. -/
theorem publishPhase_stop {p : Plan} (h : p.appended = [] ∨ p.failed.isSome)
    (rotate : Option (RotateOp × String)) :
    db.publishPhase opts p rotate = p.add (Db.publishSteps p.appended) := by
  unfold Db.publishPhase
  exact if_pos h

theorem publishPhase_rotate {p : Plan} (h : ¬ (p.appended = [] ∨ p.failed.isSome))
    (rotate : Option (RotateOp × String)) :
    let r := (db.performAll (p.steps ++ Db.publishSteps p.appended)).rotateSteps opts rotate
    db.publishPhase opts p rotate = ⟨p.steps ++ Db.publishSteps p.appended ++ r.1, p.outcome,
      r.2.map fun msg => "post-write rotation failed: " ++ (Error.io msg).text⟩ := by
  unfold Db.publishPhase
  exact if_neg h

/-- Nothing to apply. -/
theorem ends_empty (opts : Options) (db : Db) : Plan.Ends opts db fun _ => ⟨[], [], none⟩ :=
  .stops ⟨[], [], none⟩ [] none [] [] (fun _ => rfl)
    ⟨rfl, by simp, by simp, ⟨_, rfl⟩, by simp, by simp, fun _ => ⟨rfl, rfl⟩⟩ rfl

theorem planned_of_ends {plan : Faults → Plan}
    (h : ∀ f : Faults, Plan.Ends opts db fun rotate => plan { f with rotate := rotate }) :
    Planned opts db plan := by
  refine ⟨fun f => ?_, fun f => ?_⟩
  · cases h f with
    | stops p written lost pre mid hplan hrec happ =>
      have hf : plan f = p := hplan f.rotate
      have hu : plan f.unrotated = p := hplan none
      refine ⟨written, lost, pre, mid, [], ?_, fun hnone => ?_⟩
      · rw [hf]
        refine ⟨?_, hrec.pre_off, hrec.mid_off, hrec.numbered, hrec.fits, hrec.lost_fits,
          Or.inr happ, Or.inl rfl⟩
        rw [happ, hrec.steps, List.append_nil]
        exact (List.append_nil _).symm
      · rw [hf]
        exact hrec.whole (hu ▸ hnone)
    | publishes p written lost pre mid hplan hrec happ =>
      have hf : plan f = db.publishPhase opts p f.rotate := hplan f.rotate
      have hu : plan f.unrotated = db.publishPhase opts p none := hplan none
      have happended : (plan f).appended = written := by rw [hf, publishPhase_appended, happ]
      by_cases hstop : p.appended = [] ∨ p.failed.isSome
      · -- no rotation
        have hpub : ∀ rotate, db.publishPhase opts p rotate = _ := publishPhase_stop hstop
        refine ⟨written, lost, pre, mid, [], ?_, fun hnone => ⟨(hrec.whole ?_).1, happended⟩⟩
        · refine ⟨?_, hrec.pre_off, hrec.mid_off, hrec.numbered, hrec.fits, hrec.lost_fits,
            Or.inl happended, Or.inl rfl⟩
          rw [happended, hf, hpub, List.append_nil, ← hrec.steps, ← happ]
          rfl
        · rw [hu, hpub] at hnone
          exact hnone
      · obtain ⟨-, hfailed⟩ := not_or.mp hstop
        obtain ⟨hlost, -⟩ := hrec.whole (Option.not_isSome_iff_eq_none.mp hfailed)
        have hpub : db.publishPhase opts p f.rotate = _ := publishPhase_rotate hstop f.rotate
        refine ⟨written, lost, pre, mid,
          ((db.performAll (p.steps ++ Db.publishSteps p.appended)).rotateSteps
          opts f.rotate).1, ?_, fun _ => ⟨hlost, happended⟩⟩
        refine ⟨?_, hrec.pre_off, hrec.mid_off, hrec.numbered, hrec.fits, hrec.lost_fits,
          Or.inl happended, Or.inr ⟨hlost, happended, ?_⟩⟩
        · rw [happended, hf, hpub, ← hrec.steps, ← happ]
        · rw [happended, ← happ, hrec.steps, hlost, happ]
          simp
  · cases h f with
    | stops p _ _ _ _ hplan =>
      refine ⟨False, db, fun rotate => ?_⟩
      rw [show plan { f with rotate := rotate } = p from hplan rotate,
        show plan f.unrotated = p from hplan none]
      simp
    | publishes p _ _ _ _ hplan =>
      refine ⟨¬ (p.appended = [] ∨ p.failed.isSome),
        db.performAll (p.steps ++ Db.publishSteps p.appended), fun rotate => ?_⟩
      rw [show plan { f with rotate := rotate } = db.publishPhase opts p rotate from hplan rotate,
        show plan f.unrotated = db.publishPhase opts p none from hplan none]
      by_cases hstop : p.appended = [] ∨ p.failed.isSome
      · rw [publishPhase_stop hstop, publishPhase_stop hstop]
        simp [hstop]
      · rw [publishPhase_rotate hstop, publishPhase_rotate hstop,
          (Db.performAll_rotateSteps opts _).2]
        simp [hstop]

theorem recordPhase_lost (p : Plan) (fault : Option (ℕ × ℕ × String)) :
    ∃ lost : Option (ℕ × List EncEntry × ℕ),
      (Db.recordPhase p fault).steps = p.steps ++
          ((Db.recordPhase p fault).appended.map fun r => WriteStep.record r.1 r.2) ++
          (lost.map fun r => WriteStep.torn r.1 r.2.1 r.2.2).toList ∧
        (∀ r ∈ lost.toList, (encodeBatch r.1 r.2.1).length < WAL_RECORD_LIMIT) ∧
        ((Db.recordPhase p fault).failed = none → lost = none) := by
  have hfits := (groupPhase3Io_fits fault p.outcome).2
  revert hfits
  unfold Db.recordPhase
  simp only
  cases (Db.groupPhase3Io fault p.outcome).2 with
  | none => exact fun _ => ⟨none, rfl, by simp, fun _ => rfl⟩
  | some r =>
    intro hfits
    cases fault with
    | none => exact ⟨none, rfl, by simp, fun _ => rfl⟩
    | some q =>
      refine ⟨some (r.1, r.2, q.2.1), rfl, fun x hx => ?_, fun hnone => ?_⟩
      · rw [List.mem_singleton.mp (show x ∈ [(r.1, r.2, q.2.1)] from hx)]
        exact hfits r (List.mem_singleton_self r)
      · cases hp : p.failed <;> simp [hp] at hnone

theorem groupPlan_ends (qs : List QueuedEntry) (hne : ∀ q ∈ qs, q.ops ≠ []) (f : Faults) :
    Plan.Ends opts db fun rotate =>
      db.groupPlan opts (qs.map QueuedEntry.batch) { f with rotate := rotate } := by
  set accepted :=
    db.groupPhase0 opts (db.visibleSeqno + 1) (qs.map QueuedEntry.batch) with haccepted
  set placed := (db.placePhase opts accepted f.place).add
    (if opts.sync = .always ∧ Db.largeOf opts accepted ≠ [] then [.syncVlog] else []) with hplaced
  have hplaces : ∀ s ∈ (db.placePhase opts accepted f.place).steps, s.offWal = true := by
    intro s hs
    obtain ⟨p, -, rfl⟩ := List.mem_map.mp hs
    rfl
  -- until the records are written, no step is on the WAL
  have hpre : ∀ s ∈ placed.steps, s.offWal = true := by
    intro s hs
    rcases List.mem_append.mp hs with hs | hs
    · exact hplaces s hs
    · split at hs
      · rw [List.mem_singleton.mp hs]
        rfl
      · exact absurd hs List.not_mem_nil
  cases hvlog : f.syncVlog.filter fun _ =>
    decide (opts.sync = .always ∧ Db.largeOf opts accepted ≠ []) with
  | some msg =>
    refine .stops ((db.placePhase opts accepted f.place).stop "vlog sync failed: " msg) [] none _ []
      (fun rotate => ?_) ⟨?_, hplaces, by simp, ⟨_, rfl⟩, by simp, by simp, ?_⟩
      (failAll_toOption _ _)
    · unfold Db.groupPlan
      simp only [← haccepted]
      rw [hvlog]
    · simp [Plan.stop]
    · intro hnone
      exact ⟨rfl, failAll_toOption _ _⟩
  | none =>
    have hout := (outcome_placedIo opts db db.vlog (db.visibleSeqno + 1) qs
      (f.place.filter fun p => decide (p.1 < (Db.largeOf opts accepted).length))).phase3Io f.record
    obtain ⟨lost, hsteps, hlost_fits, hwhole⟩ := recordPhase_lost placed f.record
    have hfits := (groupPhase3Io_fits f.record placed.outcome).1
    cases hwal : f.syncWal.filter fun _ => decide (opts.sync = .always ∧
        (Db.recordPhase placed f.record).appended ≠ []) with
    | some msg =>
      refine .stops ((Db.recordPhase placed f.record).stop "wal sync failed: " msg)
        (Db.recordPhase placed f.record).appended lost _ [] (fun rotate => ?_)
        ⟨?_, hpre, by simp, hout.contiguous hne, hfits, hlost_fits, ?_⟩
        (failAll_toOption _ _)
      · unfold Db.groupPlan
        simp only [← haccepted]
        rw [hvlog]
        simp only [← hplaced]
        rw [hwal]
      · rw [List.append_nil, ← hsteps]
        rfl
      · intro hnone
        have hsome :
            ((Db.recordPhase placed f.record).stop "wal sync failed: " msg).failed.isSome := by
          unfold Plan.stop
          cases (Db.recordPhase placed f.record).failed <;> rfl
        rw [hnone] at hsome
        exact absurd hsome (by simp)
    | none =>
      refine .publishes ((Db.recordPhase placed f.record).add (if opts.sync = .always ∧
          (Db.recordPhase placed f.record).appended ≠ [] then [.syncWal] else []))
        (Db.recordPhase placed f.record).appended lost _ _ (fun rotate => ?_)
        ⟨congrArg (· ++ _) hsteps, hpre, fun s hs => ?_, hout.contiguous hne, hfits,
          hlost_fits, fun hnone => ⟨hwhole hnone, rfl⟩⟩ rfl
      · unfold Db.groupPlan
        simp only [← haccepted]
        rw [hvlog]
        simp only [← hplaced]
        rw [hwal]
      · split at hs
        · rw [List.mem_singleton.mp hs]
          rfl
        · exact absurd hs List.not_mem_nil

/-- The plan of a batch whose values are in the log. -/
theorem directPlan_placed {ops : List BatchOp} {capture : Bool} {f : Faults}
    {rotate : Option (RotateOp × String)} {full : List BatchOp}
    (hfull : full = ops ++ db.captureEvents opts ops (db.visibleSeqno + 1) capture)
    {large : List (Bytes × Bytes)} (hlarge : large = largeOps opts.valueThreshold full)
    {entries : List EncEntry}
    (hentries : entries = (db.vlog.placeOps opts.valueThreshold full).2)
    (hmax : ¬ MAX_SEQNO ≤ db.visibleSeqno + 1 + full.length)
    (hsize : ¬ WAL_RECORD_LIMIT ≤ approxSize full)
    (hplace : (f.place.filter fun p => decide (p.1 < large.length)) = none)
    (hvlog : (f.syncVlog.filter fun _ => decide (opts.sync = .always ∧ large ≠ [])) = none)
    {pre : List WriteStep}
    (hpre : pre = ((large.take large.length).map fun (p : Bytes × Bytes) =>
      WriteStep.place p.1 p.2) ++
      (if opts.sync = .always ∧ large ≠ [] then [.syncVlog] else [])) {base : ℕ}
    (hbase : base = db.visibleSeqno + 1) :
    db.directPlan opts ops capture { f with rotate := rotate } =
      if WAL_RECORD_LIMIT ≤ (encodeBatch base entries).length then
        ⟨pre, [.error oversizeError], none⟩
      else
        match f.record with
        | some (_, len, msg) =>
          ⟨pre ++ [.torn base entries len], [.error (.io msg)],
            some ("wal append failed: " ++ (Error.io msg).text)⟩
        | none =>
          match f.syncWal.filter fun _ => decide (opts.sync = .always) with
          | some msg =>
            ⟨pre ++ [.record base entries], [.error (.io msg)],
              some ("wal sync failed: " ++ (Error.io msg).text)⟩
          | none => db.publishPhase opts ⟨pre ++ [.record base entries] ++
              (if opts.sync = .always then [.syncWal] else []), [.ok (base, entries)],
                none⟩ rotate := by
  subst hfull hlarge hentries hpre hbase
  unfold Db.directPlan
  refine (if_neg hmax).trans ((if_neg hsize).trans ?_)
  simp only
  rw [hplace]
  simp only
  rw [hvlog]
  simp only
  by_cases hlimit : WAL_RECORD_LIMIT ≤
    (encodeBatch (db.visibleSeqno + 1) (db.vlog.placeOps opts.valueThreshold
      (ops ++ db.captureEvents opts ops (db.visibleSeqno + 1) capture)).2).length
  · exact (if_pos hlimit).trans (if_pos hlimit).symm
  · refine (if_neg hlimit).trans (Eq.trans ?_ (if_neg hlimit).symm)
    cases f.record with
    | some _ => rfl
    | none =>
      simp only
      cases f.syncWal.filter fun _ => decide (opts.sync = .always) with
      | some _ => rfl
      | none =>
        set base := db.visibleSeqno + 1
        set full := ops ++ db.captureEvents opts ops base capture
        set large := largeOps opts.valueThreshold full
        set entries := (db.vlog.placeOps opts.valueThreshold full).2
        set p : Plan :=
          ⟨((large.take large.length).map fun (p : Bytes × Bytes) => WriteStep.place p.1 p.2) ++
          (if opts.sync = .always ∧ large ≠ [] then [.syncVlog] else []) ++
            [.record base entries] ++
            (if opts.sync = .always then [.syncWal] else []), [.ok (base, entries)], none⟩
        -- nothing failed so far, so the batch is published and the rotation follows
        have hgo : ¬ (p.appended = [] ∨ p.failed.isSome) := by
          rintro (h | h)
          · exact absurd (show [(base, entries)] = [] from h) (List.cons_ne_nil _ _)
          · exact absurd h Bool.false_ne_true
        have hpub : db.publishPhase opts p rotate = _ := publishPhase_rotate hgo rotate
        exact hpub.symm

theorem directPlan_ends {ops : List BatchOp} (hne : ops ≠ []) (capture : Bool) (f : Faults) :
    Plan.Ends opts db fun rotate => db.directPlan opts ops capture { f with rotate := rotate } := by
  set full := ops ++ db.captureEvents opts ops (db.visibleSeqno + 1) capture with hfull
  set large := largeOps opts.valueThreshold full with hlarge
  set entries := (db.vlog.placeOps opts.valueThreshold full).2 with hentries
  have hplaces : ∀ n, ∀ s ∈ (large.take n).map fun (p : Bytes × Bytes) => WriteStep.place p.1 p.2,
      s.offWal = true := by
    intro n s hs
    obtain ⟨p, -, rfl⟩ := List.mem_map.mp hs
    rfl
  have hsync : ∀ (c : Prop) [Decidable c] (s step : WriteStep), step.offWal = true →
      s ∈ (if c then [step] else []) → s.offWal = true := by
    intro c _ s step hstep hs
    split at hs
    · rw [List.mem_singleton.mp hs]
      exact hstep
    · exact absurd hs List.not_mem_nil
  -- an apply that stops before the WAL
  have hstops : ∀ p : Plan,
      (∀ rotate, db.directPlan opts ops capture { f with rotate := rotate } = p) →
      (∀ s ∈ p.steps, s.offWal = true) → p.appended = [] →
      Plan.Ends opts db fun rotate =>
        db.directPlan opts ops capture { f with rotate := rotate } := by
    intro p hp hoff happ
    refine .stops p [] none p.steps [] hp
      ⟨by simp, hoff, by simp, ⟨_, rfl⟩, by simp, by simp, fun _ => ⟨rfl, happ⟩⟩ happ
  have hentries_ne : entries ≠ [] := by
    intro hnil
    have hlen := (db.vlog.placeOps_spec opts.valueThreshold full).2.2.2.length_eq
    rw [← hentries, hnil, List.length_nil, hfull, List.length_append] at hlen
    exact hne (List.length_eq_zero_iff.mp (by omega))
  by_cases hmax : MAX_SEQNO ≤ db.visibleSeqno + 1 + full.length
  · refine hstops ⟨[], [.error exhaustedError], none⟩ (fun rotate => ?_) (by simp) rfl
    unfold Db.directPlan
    exact if_pos hmax
  by_cases hsize : WAL_RECORD_LIMIT ≤ approxSize full
  · refine hstops ⟨[], [.error oversizeError], none⟩ (fun rotate => ?_) (by simp) rfl
    unfold Db.directPlan
    exact (if_neg hmax).trans (if_pos hsize)
  cases hplace : f.place.filter fun p => decide (p.1 < large.length) with
  | some p =>
    refine hstops ⟨(large.take p.1).map fun (p : Bytes × Bytes) => WriteStep.place p.1 p.2,
      [.error (.io p.2)], some ("vlog append failed: " ++ (Error.io p.2).text)⟩ (fun rotate => ?_)
        (hplaces _) rfl
    unfold Db.directPlan
    refine (if_neg hmax).trans ((if_neg hsize).trans ?_)
    simp only
    rw [hplace]
  | none =>
    cases hvlog : f.syncVlog.filter fun _ => decide (opts.sync = .always ∧ large ≠ []) with
    | some msg =>
      refine hstops ⟨(large.take large.length).map fun (p : Bytes × Bytes) =>
        WriteStep.place p.1 p.2,
        [.error (.io msg)], some ("vlog sync failed: " ++ (Error.io msg).text)⟩ (fun rotate => ?_)
          (hplaces _) rfl
      unfold Db.directPlan
      refine (if_neg hmax).trans ((if_neg hsize).trans ?_)
      simp only
      rw [hplace]
      simp only
      rw [hvlog]
    | none =>
      set pre :=
        ((large.take large.length).map fun (p : Bytes × Bytes) => WriteStep.place p.1 p.2) ++
        (if opts.sync = .always ∧ large ≠ [] then [.syncVlog] else []) with hpre
      set base := db.visibleSeqno + 1 with hbase
      have hoff : ∀ s ∈ pre, s.offWal = true := by
        intro s hs
        rcases List.mem_append.mp hs with hs | hs
        · exact hplaces _ s hs
        · exact hsync _ s _ rfl hs
      -- the plan from here on
      have hrest (rotate : Option (RotateOp × String)) :=
        @directPlan_placed opts db ops capture f rotate _ hfull _ hlarge
        _ hentries hmax hsize hplace hvlog _ hpre _ hbase
      by_cases hlimit : WAL_RECORD_LIMIT ≤ (encodeBatch base entries).length
      · exact hstops ⟨pre, [.error oversizeError], none⟩
          (fun rotate => (hrest rotate).trans (if_pos hlimit)) hoff rfl
      have hfit := not_le.mp hlimit
      rcases Option.eq_none_or_eq_some f.record with hrecord | ⟨⟨done, len, msg⟩, hrecord⟩
      swap
      · refine .stops ⟨pre ++ [.torn base entries len], [.error (.io msg)],
          some ("wal append failed: " ++ (Error.io msg).text)⟩ [] (some (base, entries, len)) pre []
          (fun rotate => (hrest rotate).trans ?_)
          ⟨by simp, hoff, by simp, ⟨_, rfl⟩, by simp, ?_, by simp⟩ rfl
        · rw [if_neg hlimit, hrecord]
        · intro r hr
          rw [List.mem_singleton.mp (show r ∈ [(base, entries, len)] from hr)]
          exact hfit
      · have hnumbered : ∃ m, Contiguous (db.visibleSeqno + 1) [(base, entries)] m :=
          ⟨_, Contiguous.singleton hentries_ne⟩
        cases hwal : f.syncWal.filter fun _ => decide (opts.sync = .always) with
        | some msg =>
          refine .stops ⟨pre ++ [.record base entries], [.error (.io msg)],
            some ("wal sync failed: " ++ (Error.io msg).text)⟩ [(base, entries)] none pre []
            (fun rotate => (hrest rotate).trans ?_)
            ⟨by simp, hoff, by simp, hnumbered, by simpa using hfit, by simp, by simp⟩ rfl
          rw [if_neg hlimit, hrecord]
          simp only
          rw [hwal]
        | none =>
          refine .publishes
            ⟨pre ++ [.record base entries] ++ (if opts.sync = .always then [.syncWal] else []),
            [.ok (base, entries)], none⟩ [(base, entries)] none pre
            (if opts.sync = .always then [.syncWal] else []) (fun rotate => (hrest rotate).trans ?_)
            ⟨by simp, hoff, fun s hs => hsync _ s _ rfl hs, hnumbered, by simpa using hfit, by simp,
              fun _ => ⟨rfl, rfl⟩⟩ rfl
          rw [if_neg hlimit, hrecord]
          simp only
          rw [hwal]

theorem Writer.planned (w : Writer) : Planned opts db fun f => w.plan opts db f := by
  refine planned_of_ends fun f => ?_
  cases w with
  | direct q =>
    simp only [Writer.plan]
    -- the rotation's failure does not enter the check
    match q.check db.readView [] (f.reads 0) with
    | .error _ | .ok true => exact ends_empty opts db
    | .ok false =>
      by_cases hops : q.ops = []
      · simp only [if_pos hops]
        exact ends_empty opts db
      · simp only [if_neg hops]
        exact directPlan_ends hops q.capture f
  | chunk qs =>
    simp only [Writer.plan, Db.commitGroupPlan]
    by_cases hempty :
        (includedEntries (validateGroupIo db.readView f.reads [] qs) qs).isEmpty = true
    · simp only [if_pos hempty]
      exact ends_empty opts db
    · simp only [if_neg hempty]
      exact groupPlan_ends _ (fun q hq => ops_ne_nil_of_included hq) f
  | collector | barrier => exact ends_empty opts db

theorem relocatePlan_planned (records : List VlogRecord) :
    Planned opts db (db.relocatePlan opts records) := by
  refine planned_of_ends fun f => ?_
  unfold Db.relocatePlan
  by_cases hops : relocationOps db records = []
  · simp only [if_pos hops]
    exact ends_empty opts db
  · simp only [if_neg hops]
    exact directPlan_ends hops false f

/-- The write path as a transition system, from a store that was just opened. -/
def writePath (crc : Bytes → Fin (2 ^ 32)) (opts : Options) (db : Db) :
    System WritePath PathAction :=
  ⟨WritePath.opened db, WritePath.step crc opts⟩

end Fluent31
