/-
The write path step by step, with failing file operations (`db.rs`).

`applyGroupLocked` and `applyLocked` commit in one go.  Here an apply is a
`Plan`: the list of effects it has on the store and its files, in order, the
result of every batch, and what it tells `set_bg_error`.  A plan is computed
from the file operations that fail (`Faults`); stopping after some of its steps
is what a panic or a crash inside the apply leaves.

* `groupPlan_sound` — without failures, carrying out the plan of a group is its
  apply.
-/
import Fluent31.CommitSpec

namespace Fluent31

/-- One effect of an apply. -/
inductive WriteStep
  /-- Append a value to the head file of the value log. -/
  | place (key value : Bytes)
  | syncVlog
  /-- Append a record to the WAL. -/
  | record (base : ℕ) (entries : List EncEntry)
  /-- A failed append that left `len` bytes of the record in the file. -/
  | torn (base : ℕ) (entries : List EncEntry) (len : ℕ)
  | syncWal
  | insert (e : Entry)
  /-- Store the visible seqno. -/
  | visible (seqno : ℕ)
  | publish (base : ℕ) (entries : List EncEntry)
  | allocId
  | createWal (id : ℕ)
  /-- Freeze the memtable; the new one and the append target are `id`'s. -/
  | freeze (id : ℕ)
  | createHead (id : ℕ)
  | swapHead (id : ℕ)
  /-- Show the new head file to readers. -/
  | adoptHead (id : ℕ)
  deriving DecidableEq

/-- The file operations of the rotations, in the order of the code.  A
`create_new` of io_uring duplicates the handle behind the file it has made. -/
inductive RotateOp
  | sealWal
  | createWal
  | dupWal
  | syncWalDir
  | createHead
  | dupHead
  | sealHead
  | syncHeadDir
  deriving DecidableEq

/-- It fails behind a WAL file that does not become the append target. -/
def RotateOp.orphans : RotateOp → Bool
  | dupWal | syncWalDir => true
  | _ => false

/-- Which file operations of a commit fail: the reads of the validation, by entry and key,
with their errors; with what message the value append after so many that succeed, the WAL
append after so many that succeed (and how many bytes of the record it leaves), a sync, a
rotation's. -/
structure Faults where
  reads : ℕ → ℕ → Option Error
  place : Option (ℕ × String)
  syncVlog : Option String
  record : Option (ℕ × ℕ × String)
  syncWal : Option String
  rotate : Option (RotateOp × String)

def Faults.none : Faults := ⟨fun _ _ => .none, .none, .none, .none, .none, .none⟩

/-- An apply: its effects, each batch's error or record, and the first failure
reported to `set_bg_error`. -/
structure Plan where
  steps : List WriteStep
  outcome : List (Except Error (ℕ × List EncEntry))
  failed : Option String

/-- The error of a batch that another batch's failure aborts. -/
def aborted (msg : String) : Error :=
  .io ("write group aborted by another batch's failure: " ++ msg)

/-- What an apply that stops at an IO error answers: the first batch still
alive gets the error, the others are aborted. -/
def failAll {α : Type} (msg : String) : List (Except Error α) → List (Except Error α)
  | [] => []
  | .error e :: rest => .error e :: failAll msg rest
  | .ok _ :: rest =>
    .error (.io msg) :: rest.map fun r => r.bind fun _ => .error (aborted (Error.io msg).text)

/-- Shows nothing to readers and subscribers. -/
def WriteStep.silent : WriteStep → Bool
  | insert _ | visible _ | publish _ _ => false
  | _ => true

namespace Plan

/-- The records that are in the WAL. -/
def appended (p : Plan) : List (ℕ × List EncEntry) := p.outcome.filterMap Except.toOption

def add (p : Plan) (steps : List WriteStep) : Plan := { p with steps := p.steps ++ steps }

/-- An apply that stops at an IO error. -/
def stop (p : Plan) (what msg : String) : Plan :=
  { p with
    outcome := failAll msg p.outcome
    failed := p.failed <|> some (what ++ (Error.io msg).text) }

end Plan

/-- The values of a batch that go to the value log. -/
def largeOps (threshold : ℕ) (ops : List BatchOp) : List (Bytes × Bytes) :=
  ops.filterMap fun
    | .put key value => if threshold ≤ value.length then some (key, value) else none
    | .delete _ => none

namespace Db

def perform (db : Db) : WriteStep → Db
  | .place key value => { db with vlog := (db.vlog.append key value).2 }
  | .syncVlog | .torn _ _ _ | .syncWal | .createWal _ | .createHead _ => db
  | .record base entries => db.appendRecord base entries
  | .insert e => { db with mem := db.mem.insert e }
  | .visible seqno => { db with visibleSeqno := seqno }
  | .publish base entries => db.publishStream base entries
  | .allocId => { db with nextFileId := db.nextFileId + 1 }
  | .freeze id =>
    { db with
      wal := ⟨id, []⟩
      sealedWals := db.sealedWals ++ [db.wal]
      mem := Memtable.new id
      imms := db.mem :: db.imms }
  | .swapHead id => { db with vlog := db.vlog.rotate id }
  | .adoptHead id =>
    { db with version := { db.version with vlogs := db.version.vlogs ++ [id], vlogHeadId := id } }

def performAll (db : Db) (steps : List WriteStep) : Db := steps.foldl perform db

/-! ### Rotations -/

/-- `rotate_memtable_locked`. -/
def memtableSteps (next : ℕ) : Option (RotateOp × String) → List WriteStep × Option String
  | some (.sealWal, msg) => ([], some msg)
  | some (.createWal, msg) => ([.syncWal, .allocId], some msg)
  | some (.dupWal, msg) | some (.syncWalDir, msg) =>
    ([.syncWal, .allocId, .createWal next], some msg)
  | _ => ([.syncWal, .allocId, .createWal next, .freeze next], none)

/-- `rotate_vlog_locked`. -/
def headSteps (next : ℕ) : Option (RotateOp × String) → List WriteStep × Option String
  | some (.createHead, msg) => ([.allocId], some msg)
  | some (.dupHead, msg) | some (.sealHead, msg) => ([.allocId, .createHead next], some msg)
  | some (.syncHeadDir, msg) => ([.allocId, .createHead next, .syncVlog, .swapHead next], some msg)
  | _ => ([.allocId, .createHead next, .syncVlog, .swapHead next, .adoptHead next], none)

variable (opts : Options) (db : Db)

/-- The rotations that follow a write; the first failure ends them. -/
def rotateSteps (fault : Option (RotateOp × String)) : List WriteStep × Option String :=
  let first := if opts.memtableSize ≤ db.mem.approximateBytes then memtableSteps db.nextFileId fault
    else ([], none)
  match first.2 with
  | some msg => (first.1, some msg)
  | none =>
    let db := db.performAll first.1
    let second := if opts.vlogFileSize ≤ db.vlog.written then headSteps db.nextFileId fault
      else ([], none)
    (first.1 ++ second.1, second.2)

/-! ### A group -/

/-- Phase 1: a failed value append fails its batch and aborts the later ones. -/
def groupPhase1Io (threshold : ℕ) : Option (ℕ × String) → Vlog →
    List (Except Error (ℕ × List BatchOp)) → List (Except Error (ℕ × List EncEntry))
  | _, _, [] => []
  | fault, v, .error e :: rest => .error e :: groupPhase1Io threshold fault v rest
  | none, v, .ok (base, ops) :: rest =>
    .ok (base, (v.placeOps threshold ops).2) ::
      groupPhase1Io threshold none (v.placeOps threshold ops).1 rest
  | some (done, msg), v, .ok (base, ops) :: rest =>
    if done < (largeOps threshold ops).length then
      .error (.io msg) :: rest.map fun r => r.bind fun _ => .error (aborted (Error.io msg).text)
    else
      .ok (base, (v.placeOps threshold ops).2) ::
        groupPhase1Io threshold (some (done - (largeOps threshold ops).length, msg))
          (v.placeOps threshold ops).1 rest

/-- Phase 3: a record over the limit or a failed append fails its batch and
aborts the later ones; also the record whose append failed. -/
def groupPhase3Io : Option (ℕ × ℕ × String) → List (Except Error (ℕ × List EncEntry)) →
    List (Except Error (ℕ × List EncEntry)) × Option (ℕ × List EncEntry)
  | _, [] => ([], none)
  | fault, .error e :: rest =>
    ((.error e :: (groupPhase3Io fault rest).1), (groupPhase3Io fault rest).2)
  | fault, .ok (base, entries) :: rest =>
    if WAL_RECORD_LIMIT ≤ (encodeBatch base entries).length then
      (.error oversizeError :: rest.map fun r => r.bind fun _ => .error abortedError, none)
    else
      match fault with
      | some (0, _, msg) =>
        (.error (.io msg) :: rest.map fun r => r.bind fun _ => .error (aborted (Error.io msg).text),
          some (base, entries))
      | some (done + 1, len, msg) =>
        ((.ok (base, entries) :: (groupPhase3Io (some (done, len, msg)) rest).1),
          (groupPhase3Io (some (done, len, msg)) rest).2)
      | none => ((.ok (base, entries) :: (groupPhase3Io none rest).1), (groupPhase3Io none rest).2)

/-- Inserts, then the visible seqno, then the stream. -/
def publishSteps (appended : List (ℕ × List EncEntry)) : List WriteStep :=
  (appended.flatMap fun r => versionsFrom r.1 r.2).map .insert ++
    (appended.getLast?.map fun r => WriteStep.visible (r.1 + r.2.length - 1)).toList ++
    appended.map fun r => .publish r.1 r.2

/-- All values of the accepted batches that go to the value log. -/
def largeOf (accepted : List (Except Error (ℕ × List BatchOp))) : List (Bytes × Bytes) :=
  (accepted.filterMap Except.toOption).flatMap fun r => largeOps opts.valueThreshold r.2

/-- Phase 1 with its effects. -/
def placePhase (accepted : List (Except Error (ℕ × List BatchOp))) (fault : Option (ℕ × String)) :
    Plan :=
  let large := largeOf opts accepted
  let fault := fault.filter fun p => decide (p.1 < large.length)
  { steps := ((fault.map Prod.fst).elim large large.take).map fun p => .place p.1 p.2
    outcome := groupPhase1Io opts.valueThreshold fault db.vlog accepted
    failed := fault.map fun p => "vlog append failed: " ++ (Error.io p.2).text }

/-- Phase 3 with its effects. -/
def recordPhase (p : Plan) (fault : Option (ℕ × ℕ × String)) : Plan :=
  let (written, lost) := groupPhase3Io fault p.outcome
  { steps := p.steps ++ (written.filterMap Except.toOption).map (fun r => .record r.1 r.2) ++
      (lost.bind fun r => fault.map fun p => WriteStep.torn r.1 r.2 p.2.1).toList
    outcome := written
    failed := p.failed <|> lost.bind fun _ =>
      fault.map fun p => "wal append failed: " ++ (Error.io p.2.2).text }

/-- Phases 5 and 6.  A WAL with a torn record is not sealed: after a failure
there is no rotation. -/
def publishPhase (p : Plan) (fault : Option (RotateOp × String)) : Plan :=
  let p := p.add (publishSteps p.appended)
  if p.appended = [] ∨ p.failed.isSome then p
  else
    let rotation := (db.performAll p.steps).rotateSteps opts fault
    { p.add rotation.1 with
      failed := rotation.2.map fun msg => "post-write rotation failed: " ++ (Error.io msg).text }

/-- `apply_group_locked`. -/
def groupPlan (batches : List (List BatchOp × Bool)) (f : Faults) : Plan :=
  let accepted := db.groupPhase0 opts (db.visibleSeqno + 1) batches
  let p := db.placePhase opts accepted f.place
  let syncs := opts.sync = .always ∧ largeOf opts accepted ≠ []
  match f.syncVlog.filter fun _ => decide syncs with
  | some msg => p.stop "vlog sync failed: " msg
  | none =>
    let p := recordPhase (p.add (if syncs then [.syncVlog] else [])) f.record
    let syncs := opts.sync = .always ∧ p.appended ≠ []
    match f.syncWal.filter fun _ => decide syncs with
    | some msg => p.stop "wal sync failed: " msg
    | none => db.publishPhase opts (p.add (if syncs then [.syncWal] else [])) f.rotate

/-- `apply_locked`. -/
def directPlan (ops : List BatchOp) (capture : Bool) (f : Faults) : Plan :=
  let base := db.visibleSeqno + 1
  let full := ops ++ db.captureEvents opts ops base capture
  if MAX_SEQNO ≤ base + full.length then ⟨[], [.error exhaustedError], none⟩
  else if WAL_RECORD_LIMIT ≤ approxSize full then ⟨[], [.error oversizeError], none⟩
  else
    let large := largeOps opts.valueThreshold full
    let places (n : ℕ) := (large.take n).map fun (p : Bytes × Bytes) => WriteStep.place p.1 p.2
    let syncs := opts.sync = .always ∧ large ≠ []
    match f.place.filter fun p => decide (p.1 < large.length) with
    | some (done, msg) =>
      ⟨places done, [.error (.io msg)], some ("vlog append failed: " ++ (Error.io msg).text)⟩
    | none =>
      match f.syncVlog.filter fun _ => decide syncs with
      | some msg =>
        ⟨places large.length, [.error (.io msg)],
          some ("vlog sync failed: " ++ (Error.io msg).text)⟩
      | none =>
        let entries := (db.vlog.placeOps opts.valueThreshold full).2
        let steps := places large.length ++ if syncs then [.syncVlog] else []
        if WAL_RECORD_LIMIT ≤ (encodeBatch base entries).length then
          ⟨steps, [.error oversizeError], none⟩
        else
          match f.record with
          | some (_, len, msg) =>
            ⟨steps ++ [.torn base entries len], [.error (.io msg)],
              some ("wal append failed: " ++ (Error.io msg).text)⟩
          | none =>
            let steps := steps ++ [.record base entries]
            match f.syncWal.filter fun _ => decide (opts.sync = .always) with
            | some msg =>
              ⟨steps, [.error (.io msg)], some ("wal sync failed: " ++ (Error.io msg).text)⟩
            | none =>
              let steps := steps ++ (if opts.sync = .always then [.syncWal] else []) ++
                publishSteps [(base, entries)]
              let rotation := (db.performAll steps).rotateSteps opts f.rotate
              ⟨steps ++ rotation.1, [.ok (base, entries)],
                rotation.2.map fun msg => "post-write rotation failed: " ++ (Error.io msg).text⟩

/-! ### Carrying out -/

variable {opts : Options} {db : Db}

theorem performAll_append (db : Db) (steps steps' : List WriteStep) :
    db.performAll (steps ++ steps') = (db.performAll steps).performAll steps' :=
      List.foldl_append ..

theorem performAll_places (db : Db) (large : List (Bytes × Bytes)) :
    db.performAll (large.map fun p => .place p.1 p.2) =
      { db with vlog := large.foldl (fun v p => (v.append p.1 p.2).2) db.vlog } := by
  induction large generalizing db with
  | nil => rfl
  | cons p large ih => exact ih _

theorem performAll_records (db : Db) (appended : List (ℕ × List EncEntry)) :
    db.performAll (appended.map fun r => .record r.1 r.2) =
      appended.foldl (fun db r => db.appendRecord r.1 r.2) db := by
  unfold performAll
  rw [List.foldl_map]
  rfl

theorem performAll_inserts (db : Db) (es : List Entry) :
    db.performAll (es.map .insert) = { db with mem := db.mem.insertAll es } := by
  induction es generalizing db with
  | nil => rfl
  | cons e es ih => exact ih _

/-- Memtable inserts batch by batch. -/
theorem foldl_insertEntries (db : Db) (appended : List (ℕ × List EncEntry)) :
    appended.foldl (fun db r => db.insertEntries r.1 r.2) db =
      { db with
        mem := db.mem.insertAll (appended.flatMap fun r => versionsFrom r.1 r.2)
        visibleSeqno :=
          (appended.getLast?.map fun r => r.1 + r.2.length - 1).getD db.visibleSeqno } := by
  induction appended generalizing db with
  | nil => rfl
  | cons r rest ih =>
    rw [List.foldl_cons, ih, List.flatMap_cons, Memtable.insertAll_append, List.getLast?_cons]
    cases rest.getLast? <;> rfl

theorem performAll_publishSteps (db : Db) (appended : List (ℕ × List EncEntry)) :
    db.performAll (publishSteps appended) =
      appended.foldl (fun db r => db.publishStream r.1 r.2)
        (appended.foldl (fun db r => db.insertEntries r.1 r.2) db) := by
  unfold publishSteps
  rw [performAll_append, performAll_append, performAll_inserts, foldl_insertEntries]
  have hlast : ∀ d : Db, d.performAll (appended.getLast?.map fun r =>
      WriteStep.visible (r.1 + r.2.length - 1)).toList =
        { d with visibleSeqno :=
            (appended.getLast?.map fun r => r.1 + r.2.length - 1).getD d.visibleSeqno } := by
    intro d
    cases appended.getLast? <;> rfl
  rw [hlast]
  unfold performAll
  rw [List.foldl_map]
  rfl

theorem performAll_rotateSteps (opts : Options) (db : Db) :
    db.performAll (db.rotateSteps opts none).1 = db.rotateAfterWrite opts ∧
      (db.rotateSteps opts none).2 = none := by
  unfold rotateSteps rotateAfterWrite
  by_cases hmem : opts.memtableSize ≤ db.mem.approximateBytes
  · simp only [if_pos hmem, memtableSteps]
    have hfreeze : db.performAll
        [.syncWal, .allocId, .createWal db.nextFileId, .freeze db.nextFileId] =
        db.rotateMemtableLocked := rfl
    rw [hfreeze, performAll_append, hfreeze]
    split <;> exact ⟨rfl, rfl⟩
  · simp only [if_neg hmem]
    rw [performAll_append]
    have hnone : db.performAll [] = db := rfl
    rw [hnone]
    split <;> exact ⟨rfl, rfl⟩

end Db

/-! ### Without failures -/

theorem Vlog.placeOps_eq (threshold : ℕ) (v : Vlog) (ops : List BatchOp) :
    (v.placeOps threshold ops).1 = (largeOps threshold ops).foldl
      (fun v p => (v.append p.1 p.2).2) v := by
  induction ops generalizing v with
  | nil => rfl
  | cons op ops ih =>
    have hstep : (v.placeOps threshold (op :: ops)).1 =
        ((v.placeOp threshold op).1.placeOps threshold ops).1 := rfl
    rw [hstep, ih]
    cases op with
    | delete key => rfl
    | put key value =>
      by_cases h : threshold ≤ value.length <;> simp [largeOps, Vlog.placeOp, h]

theorem Vlog.mem_foldl_append {v : Vlog} {r : VlogRecord} (hr : r ∈ v.records)
    (large : List (Bytes × Bytes)) :
    r ∈ (large.foldl (fun v p => (v.append p.1 p.2).2) v).records := by
  induction large generalizing v with
  | nil => exact hr
  | cons p large ih => exact ih (List.mem_append_left _ hr)

namespace Db

variable (opts : Options) (db : Db)

theorem groupPhase1Io_none (threshold : ℕ) (v : Vlog)
    (accepted : List (Except Error (ℕ × List BatchOp))) :
    groupPhase1Io threshold none v accepted = (groupPhase1 threshold v accepted).2 ∧
      (groupPhase1 threshold v accepted).1 =
        ((accepted.filterMap Except.toOption).flatMap fun r => largeOps threshold r.2).foldl
          (fun v p => (v.append p.1 p.2).2) v := by
  induction accepted generalizing v with
  | nil => exact ⟨rfl, rfl⟩
  | cons r rest ih =>
    cases r with
    | error e => exact ⟨congrArg (_ :: ·) (ih v).1, (ih v).2⟩
    | ok r =>
      obtain ⟨hout, hlog⟩ := ih (v.placeOps threshold r.2).1
      refine ⟨congrArg (_ :: ·) hout, hlog.trans ?_⟩
      show _ = List.foldl _ v (largeOps threshold r.2 ++ List.flatMap _ _)
      rw [List.foldl_append, ← Vlog.placeOps_eq]

theorem groupPhase3Io_none (placed : List (Except Error (ℕ × List EncEntry))) :
    groupPhase3Io none placed = (groupPhase3 placed, none) := by
  induction placed with
  | nil => rfl
  | cons r rest ih =>
    cases r with
    | error e => rw [groupPhase3Io, ih]; rfl
    | ok r =>
      rw [groupPhase3Io, groupPhase3, ih]
      split <;> rfl

theorem placePhase_none (accepted : List (Except Error (ℕ × List BatchOp))) :
    db.performAll (db.placePhase opts accepted none).steps =
        { db with vlog := (groupPhase1 opts.valueThreshold db.vlog accepted).1 } ∧
      (db.placePhase opts accepted none).outcome =
        (groupPhase1 opts.valueThreshold db.vlog accepted).2 ∧
      (db.placePhase opts accepted none).failed = none := by
  obtain ⟨hout, hlog⟩ := groupPhase1Io_none opts.valueThreshold db.vlog accepted
  refine ⟨?_, hout, rfl⟩
  rw [hlog]
  exact performAll_places db (largeOf opts accepted)

theorem recordPhase_none (p : Plan) :
    (recordPhase p none).steps =
        p.steps ++ ((groupPhase3 p.outcome).filterMap Except.toOption).map
          (fun r => .record r.1 r.2) ∧
      (recordPhase p none).outcome = groupPhase3 p.outcome ∧
      (recordPhase p none).failed = p.failed := by
  unfold recordPhase
  rw [groupPhase3Io_none]
  refine ⟨List.append_nil _, rfl, ?_⟩
  cases p.failed <;> rfl

theorem publishPhase_none (d : Db) {p : Plan} (hp : p.failed = none)
    (hd : db.performAll p.steps = d) :
    let published := p.appended.foldl (fun db r => db.publishStream r.1 r.2)
      (p.appended.foldl (fun db r => db.insertEntries r.1 r.2) d)
    db.performAll (db.publishPhase opts p none).steps =
        (if p.appended.isEmpty then published else published.rotateAfterWrite opts) ∧
      (db.publishPhase opts p none).outcome = p.outcome ∧
      (db.publishPhase opts p none).failed = none := by
  intro published
  have hpub : db.performAll (p.add (publishSteps p.appended)).steps = published := by
    show db.performAll (p.steps ++ publishSteps p.appended) = _
    rw [performAll_append, hd, performAll_publishSteps]
  unfold publishPhase
  simp only
  have happ : (p.add (publishSteps p.appended)).appended = p.appended := rfl
  have hfail : (p.add (publishSteps p.appended)).failed = none := hp
  rw [happ, hfail]
  by_cases hnil : p.appended = []
  · rw [if_pos (Or.inl hnil), if_pos (by simpa using hnil)]
    exact ⟨hpub, rfl, hfail⟩
  · obtain ⟨hrotate, hnone⟩ := performAll_rotateSteps opts published
    rw [if_neg (by simp [hnil]), hpub, hnone,
      if_neg (by simpa using hnil)]
    refine ⟨?_, rfl, rfl⟩
    show db.performAll ((p.add (publishSteps p.appended)).steps ++ _) = _
    rw [performAll_append, hpub, hrotate]

/-- Syncs change nothing in the store. -/
theorem performAll_sync (c : Prop) [Decidable c] (step : WriteStep)
    (hstep : ∀ db : Db, db.perform step = db) (steps : List WriteStep) :
    db.performAll (steps ++ if c then [step] else []) = db.performAll steps := by
  rw [performAll_append]
  split
  · exact hstep _
  · rfl

/-- **A group without failures** is `applyGroupLocked`. -/
theorem groupPlan_sound (batches : List (List BatchOp × Bool)) :
    let plan := db.groupPlan opts batches .none
    (db.performAll plan.steps, plan.outcome.map fun r => r.map fun _ => ()) =
        db.applyGroupLocked opts batches ∧
      plan.outcome = (db.groupOutcome opts batches).2 ∧ plan.failed = none := by
  set accepted := db.groupPhase0 opts (db.visibleSeqno + 1) batches with haccepted
  obtain ⟨hplace, hplaced, hfail⟩ := placePhase_none opts db accepted
  set placed := (db.placePhase opts accepted none).add
    (if opts.sync = .always ∧ largeOf opts accepted ≠ [] then [.syncVlog] else []) with hadd
  obtain ⟨hrecord, hwritten, hfailed⟩ := recordPhase_none placed
  set written := recordPhase placed none
  have hout : written.outcome = (db.groupOutcome opts batches).2 := by
    rw [hwritten]
    exact congrArg groupPhase3 hplaced
  have hstore : db.performAll (written.add (if opts.sync = .always ∧ written.appended ≠ [] then
      [.syncWal] else [])).steps = written.appended.foldl (fun db r => db.appendRecord r.1 r.2)
        { db with vlog := (db.groupOutcome opts batches).1 } := by
    refine (performAll_sync db _ .syncWal (fun _ => rfl) written.steps).trans ?_
    rw [hrecord, performAll_append]
    have hplaced' : db.performAll placed.steps =
        { db with vlog := (db.groupOutcome opts batches).1 } :=
      (performAll_sync db _ .syncVlog (fun _ => rfl) _).trans hplace
    rw [hplaced', performAll_records, ← hwritten]
    rfl
  obtain ⟨hdb, houtcome, hnone⟩ := publishPhase_none opts db _ (p := written.add _)
    (hfailed.trans hfail) hstore
  intro plan
  have hplan : plan = db.publishPhase opts (written.add (if opts.sync = .always ∧
      written.appended ≠ [] then [.syncWal] else [])) none := rfl
  have happ : (written.add (if opts.sync = .always ∧ written.appended ≠ [] then
      [.syncWal] else [])).appended = (db.groupOutcome opts batches).2.filterMap Except.toOption :=
    congrArg (List.filterMap Except.toOption) hout
  rw [happ] at hdb
  refine ⟨Prod.ext ?_ ?_, ?_, hplan ▸ hnone⟩
  · rw [hplan, hdb, show written.appended = _ from happ]
    rfl
  · rw [hplan, houtcome]
    exact congrArg (List.map _) hout
  · rw [hplan, houtcome]
    exact hout

end Db

/-! ### With failures -/

section Outcome

variable {opts : Options} {db : Db} {v : Vlog} {n : ℕ} {qs : List QueuedEntry}
  {rs : List (Except Error (ℕ × List EncEntry))}

theorem Outcome.le_base (h : Outcome opts db v n qs rs) : ∀ p, .ok p ∈ rs → n ≤ p.1 := by
  induction h with
  | nil => exact fun p hp => absurd hp List.not_mem_nil
  | rejected _ _ ih => exact fun p hp => ih p (by simpa using hp)
  | @accepted n q qs es rs _ _ _ ih =>
    intro p hp
    rcases List.mem_cons.mp hp with hp | hp
    · rw [Except.ok.inj hp]
    · exact le_trans (Nat.le_add_right _ _) (ih p hp)

theorem aborted_ne_conflict (msg : String) : aborted msg ≠ .conflict := by simp [aborted]

theorem Outcome.failAll (h : Outcome opts db v n qs rs) (msg : String) :
    Outcome opts db v n qs (failAll msg rs) := by
  induction h with
  | nil => exact .nil
  | rejected herr _ ih => exact .rejected herr ih
  | @accepted n _ _ _ _ _ _ hrest _ =>
    exact .rejected (by simp) (hrest.abort (aborted_ne_conflict _) n)

theorem Outcome.phase3Io (h : Outcome opts db v n qs rs) (fault : Option (ℕ × ℕ × String)) :
    Outcome opts db v n qs (Db.groupPhase3Io fault rs).1 := by
  induction h generalizing fault with
  | nil => exact .nil
  | rejected herr _ ih => exact .rejected herr (ih fault)
  | @accepted n _ _ _ _ henc hmax hrest ih =>
    unfold Db.groupPhase3Io
    split
    · exact .rejected (by simp [oversizeError]) (hrest.abort (by simp [abortedError]) n)
    · rcases fault with _ | ⟨_ | done, len, msg⟩
      · exact .accepted henc hmax (ih none)
      · exact .rejected (by simp) (hrest.abort (aborted_ne_conflict _) n)
      · exact .accepted henc hmax (ih (some (done, len, msg)))

/-- Rejecting everything is an outcome. -/
theorem Outcome.of_errors (hlen : rs.length = qs.length)
    (herr : ∀ r ∈ rs, ∃ err, r = .error err ∧ err ≠ .conflict) : Outcome opts db v n qs rs := by
  induction qs generalizing rs with
  | nil =>
    rw [List.length_eq_zero_iff.mp hlen]
    exact .nil
  | cons q qs ih =>
    obtain ⟨r, rs, rfl⟩ := List.exists_cons_of_length_eq_add_one hlen
    obtain ⟨err, rfl, hne⟩ := herr r List.mem_cons_self
    exact .rejected hne (ih (Nat.succ_inj.mp hlen) fun r hr => herr r (List.mem_cons_of_mem _ hr))

/-- Phase 0 answers every batch. -/
theorem groupPhase0_answers (opts : Options) (db : Db) (n : ℕ) (qs : List QueuedEntry) :
    (db.groupPhase0 opts n (qs.map QueuedEntry.batch)).length = qs.length ∧
      ∀ r ∈ db.groupPhase0 opts n (qs.map QueuedEntry.batch), r ≠ .error .conflict := by
  induction qs generalizing n with
  | nil => exact ⟨rfl, fun r hr => absurd hr List.not_mem_nil⟩
  | cons q qs ih =>
    rw [List.map_cons, QueuedEntry.batch, Db.groupPhase0]
    split
    · exact ⟨by rw [List.length_cons, (ih n).1, List.length_cons],
        List.forall_mem_cons.mpr ⟨by simp [oversizeError], (ih n).2⟩⟩
    · split
      · exact ⟨by rw [List.length_cons, (ih n).1, List.length_cons],
          List.forall_mem_cons.mpr ⟨by simp [exhaustedError], (ih n).2⟩⟩
      · exact ⟨by rw [List.length_cons, (ih _).1, List.length_cons],
          List.forall_mem_cons.mpr ⟨by simp, (ih _).2⟩⟩

/-- Phases 0 and 1; after a failed append the log holds the values before it. -/
theorem outcome_placedIo (opts : Options) (db : Db) (v : Vlog) (n : ℕ) (qs : List QueuedEntry)
    (fault : Option (ℕ × String)) :
    let accepted := db.groupPhase0 opts n (qs.map QueuedEntry.batch)
    let large := Db.largeOf opts accepted
    Outcome opts db
      (((fault.map Prod.fst).elim large large.take).foldl (fun v p => (v.append p.1 p.2).2) v) n qs
      (Db.groupPhase1Io opts.valueThreshold fault v accepted) := by
  rcases fault with _ | ⟨done, msg⟩
  case none =>
    obtain ⟨hout, hlog⟩ := Db.groupPhase1Io_none opts.valueThreshold v
      (db.groupPhase0 opts n (qs.map QueuedEntry.batch))
    have h := (outcome_placed opts db v n qs).2
    rw [hlog, ← hout] at h
    exact h
  case some =>
    induction qs generalizing v n done with
    | nil => exact .nil
    | cons q qs ih =>
      intro accepted large
      unfold large accepted
      simp only [List.map_cons, QueuedEntry.batch, Db.groupPhase0]
      split
      · exact .rejected (by simp [oversizeError]) (ih v n done)
      · split
        · exact .rejected (by simp [exhaustedError]) (ih v n done)
        · rename_i hmax
          have hlog := v.placeOps_eq opts.valueThreshold
            (q.ops ++ db.captureEvents opts q.ops n q.capture)
          obtain ⟨-, -, -, henc⟩ := v.placeOps_spec opts.valueThreshold
            (q.ops ++ db.captureEvents opts q.ops n q.capture)
          have hlen := henc.length_eq
          simp only [Db.groupPhase1Io]
          split
          · -- the failing append is one of this batch's
            obtain ⟨hlength, hanswers⟩ := groupPhase0_answers opts db
              (n + (q.ops ++ db.captureEvents opts q.ops n q.capture).length) qs
            refine .rejected (by simp)
              (.of_errors ((List.length_map _).trans hlength) fun r hr => ?_)
            obtain ⟨r', hr', rfl⟩ := List.mem_map.mp hr
            cases r' with
            | ok _ => exact ⟨_, rfl, aborted_ne_conflict _⟩
            | error err => exact ⟨err, rfl, fun heq => hanswers _ hr' (congrArg Except.error heq)⟩
          · rename_i hdone
            have hrest := ih (v.placeOps opts.valueThreshold
              (q.ops ++ db.captureEvents opts q.ops n q.capture)).1
              (n + (q.ops ++ db.captureEvents opts q.ops n q.capture).length)
              (done - (largeOps opts.valueThreshold
                (q.ops ++ db.captureEvents opts q.ops n q.capture)).length)
            generalize hfull : q.ops ++ db.captureEvents opts q.ops n q.capture = full at *
            have htake : (Db.largeOf opts (.ok (n, full) :: db.groupPhase0 opts (n + full.length)
                (qs.map QueuedEntry.batch))).take done = largeOps opts.valueThreshold full ++
                  (Db.largeOf opts (db.groupPhase0 opts (n + full.length)
                    (qs.map QueuedEntry.batch))).take
                      (done - (largeOps opts.valueThreshold full).length) := by
              show (largeOps opts.valueThreshold full ++ Db.largeOf opts _).take done = _
              rw [List.take_append, List.take_of_length_le (not_lt.mp hdone)]
            simp only [Option.map_some, Option.elim_some] at hrest ⊢
            rw [htake, List.foldl_append, ← hlog]
            rw [← hlen] at hrest hmax ⊢
            refine .accepted ?_ (not_le.mp hmax) hrest
            rw [hfull]
            exact henc.mono fun r hr => Vlog.mem_foldl_append hr _

end Outcome

theorem failAll_toOption {α : Type} (msg : String) (rs : List (Except Error α)) :
    (failAll msg rs).filterMap Except.toOption = [] := by
  rw [List.filterMap_eq_nil_iff]
  induction rs with
  | nil => exact fun r hr => absurd hr List.not_mem_nil
  | cons r rs ih =>
    cases r with
    | error e => exact List.forall_mem_cons.mpr ⟨rfl, ih⟩
    | ok a =>
      refine List.forall_mem_cons.mpr ⟨rfl, fun r hr => ?_⟩
      obtain ⟨r', -, rfl⟩ := List.mem_map.mp hr
      cases r' <;> rfl

theorem rotateSteps_silent (opts : Options) (db : Db) (fault : Option (RotateOp × String)) :
    ∀ s ∈ (db.rotateSteps opts fault).1, s.silent = true := by
  have hmem : ∀ next, ∀ s ∈ (Db.memtableSteps next fault).1, s.silent = true := by
    intro next
    unfold Db.memtableSteps
    split <;> simp [WriteStep.silent]
  have hhead : ∀ next, ∀ s ∈ (Db.headSteps next fault).1, s.silent = true := by
    intro next
    unfold Db.headSteps
    split <;> simp [WriteStep.silent]
  intro s hs
  unfold Db.rotateSteps at hs
  simp only at hs
  have hfirst : ∀ s ∈ (if opts.memtableSize ≤ db.mem.approximateBytes then
      Db.memtableSteps db.nextFileId fault else ([], none)).1, s.silent = true := by
    split
    · exact hmem _
    · exact fun s hs => absurd hs List.not_mem_nil
  have hsecond : ∀ d : Db, ∀ s ∈ (if opts.vlogFileSize ≤ d.vlog.written then
      Db.headSteps d.nextFileId fault else ([], none)).1, s.silent = true := by
    intro d
    split
    · exact hhead _
    · exact fun s hs => absurd hs List.not_mem_nil
  split at hs
  · exact hfirst s hs
  · rcases List.mem_append.mp hs with hs | hs
    · exact hfirst s hs
    · exact hsecond _ s hs

theorem placePhase_silent (opts : Options) (db : Db)
    (accepted : List (Except Error (ℕ × List BatchOp))) (fault : Option (ℕ × String)) :
    ∀ s ∈ (db.placePhase opts accepted fault).steps, s.silent = true := by
  intro s hs
  obtain ⟨p, -, rfl⟩ := List.mem_map.mp hs
  rfl

theorem recordPhase_silent {p : Plan} (h : ∀ s ∈ p.steps, s.silent = true)
    (fault : Option (ℕ × ℕ × String)) :
    ∀ s ∈ (Db.recordPhase p fault).steps, s.silent = true := by
  intro s hs
  unfold Db.recordPhase at hs
  rcases List.mem_append.mp hs with hs | hs
  · rcases List.mem_append.mp hs with hs | hs
    · exact h s hs
    · obtain ⟨r, -, rfl⟩ := List.mem_map.mp hs
      rfl
  · obtain ⟨r, -, hr⟩ := Option.bind_eq_some_iff.mp (Option.mem_toList.mp hs)
    obtain ⟨p, -, rfl⟩ := Option.map_eq_some_iff.mp hr
    rfl

/-- Phases 5 and 6 show the committed batches. -/
theorem publishPhase_spec {opts : Options} {db : Db} {v : Vlog} {n : ℕ}
    {qs : List QueuedEntry} {p : Plan}
    (hout : Outcome opts db v n qs p.outcome) (hsilent : ∀ s ∈ p.steps, s.silent = true)
    (fault : Option (RotateOp × String)) :
    Outcome opts db v n qs (db.publishPhase opts p fault).outcome ∧
      ∃ pre post, (db.publishPhase opts p fault).steps =
          pre ++ Db.publishSteps (db.publishPhase opts p fault).appended ++ post ∧
        ∀ s ∈ pre ++ post, s.silent = true := by
  unfold Db.publishPhase
  simp only
  split
  · exact ⟨hout, p.steps, [], (List.append_nil _).symm, by simpa using hsilent⟩
  · refine ⟨hout, p.steps, _, rfl, fun s hs => ?_⟩
    rcases List.mem_append.mp hs with hs | hs
    · exact hsilent s hs
    · exact rotateSteps_silent opts _ fault s hs

theorem silent_add {p : Plan} (h : ∀ s ∈ p.steps, s.silent = true) (c : Prop) [Decidable c]
    (step : WriteStep) (hstep : step.silent = true) :
    ∀ s ∈ (p.add (if c then [step] else [])).steps, s.silent = true := by
  intro s hs
  rcases List.mem_append.mp hs with hs | hs
  · exact h s hs
  · split at hs
    · rw [List.mem_singleton.mp hs]
      exact hstep
    · exact absurd hs List.not_mem_nil

/-- **A group with failures** answers every batch, and commits what it does not
reject under the next seqnos; it shows exactly its committed batches. -/
theorem groupPlan_spec (opts : Options) (db : Db) (qs : List QueuedEntry) (f : Faults) :
    let plan := db.groupPlan opts (qs.map QueuedEntry.batch) f
    (∃ v, Outcome opts db v (db.visibleSeqno + 1) qs plan.outcome) ∧
      ∃ pre post, plan.steps = pre ++ Db.publishSteps plan.appended ++ post ∧
        ∀ s ∈ pre ++ post, s.silent = true := by
  set accepted := db.groupPhase0 opts (db.visibleSeqno + 1) (qs.map QueuedEntry.batch)
  have hout := outcome_placedIo opts db db.vlog (db.visibleSeqno + 1) qs
    (f.place.filter fun p => decide (p.1 < (Db.largeOf opts accepted).length))
  have hsilent := placePhase_silent opts db accepted f.place
  have hstop : ∀ p : Plan, (∀ s ∈ p.steps, s.silent = true) → ∀ what msg,
      ∃ pre post, (p.stop what msg).steps = pre ++ Db.publishSteps
        (p.stop what msg).appended ++ post ∧ ∀ s ∈ pre ++ post, s.silent = true := by
    intro p hp what msg
    refine ⟨p.steps, [], ?_, by simpa using hp⟩
    rw [show (p.stop what msg).appended = [] from failAll_toOption msg p.outcome]
    simp [Db.publishSteps, Plan.stop]
  intro plan
  unfold plan Db.groupPlan
  simp only
  split
  · exact ⟨⟨_, hout.failAll _⟩, hstop _ hsilent _ _⟩
  · set written := Db.recordPhase ((db.placePhase opts accepted f.place).add
      (if opts.sync = .always ∧ Db.largeOf opts accepted ≠ [] then [.syncVlog] else [])) f.record
    have hrecord : ∀ s ∈ written.steps, s.silent = true :=
      recordPhase_silent (silent_add hsilent _ .syncVlog rfl) f.record
    split
    · exact ⟨⟨_, (hout.phase3Io f.record).failAll _⟩, hstop _ hrecord _ _⟩
    · obtain ⟨hpublished, hsteps⟩ := publishPhase_spec (hout.phase3Io f.record)
        (silent_add hrecord (opts.sync = .always ∧ written.appended ≠ []) .syncWal rfl) f.rotate
      exact ⟨⟨_, hpublished⟩, hsteps⟩

/-! ### What readers and subscribers see -/

/-- Nothing shown is taken back. -/
structure Db.Grows (db d : Db) : Prop where
  published : db.published <+: d.published
  visible : db.visibleSeqno ≤ d.visibleSeqno

theorem Db.Grows.refl (db : Db) : db.Grows db := ⟨List.prefix_rfl, le_rfl⟩

theorem Db.Grows.trans {db d d' : Db} (h : db.Grows d) (h' : d.Grows d') : db.Grows d' :=
  ⟨h.published.trans h'.published, le_trans h.visible h'.visible⟩

theorem grows_performAll {db : Db} {n : ℕ} {steps : List WriteStep} (hn : n ≤ db.visibleSeqno)
    (h : ∀ s, .visible s ∈ steps → n ≤ s) :
    db.published <+: (db.performAll steps).published ∧ n ≤ (db.performAll steps).visibleSeqno := by
  induction steps generalizing db with
  | nil => exact ⟨List.prefix_rfl, hn⟩
  | cons step steps ih =>
    have hrest : ∀ s, .visible s ∈ steps → n ≤ s := fun s hs => h s (List.mem_cons_of_mem _ hs)
    have hstep : n ≤ (db.perform step).visibleSeqno := by
      cases step with
      | visible s => exact h s List.mem_cons_self
      | _ => exact hn
    have hpub : db.published <+: (db.perform step).published := by
      cases step with
      | publish base entries => exact List.prefix_append _ _
      | _ => exact List.prefix_rfl
    exact ⟨hpub.trans (ih hstep hrest).1, (ih hstep hrest).2⟩

theorem performAll_silent (db : Db) {steps : List WriteStep} (h : ∀ s ∈ steps, s.silent = true) :
    (db.performAll steps).published = db.published ∧
      (db.performAll steps).visibleSeqno = db.visibleSeqno := by
  induction steps generalizing db with
  | nil => exact ⟨rfl, rfl⟩
  | cons step steps ih =>
    obtain ⟨hpub, hvis⟩ := ih (db.perform step) fun s hs => h s (List.mem_cons_of_mem _ hs)
    have hstep := h step List.mem_cons_self
    have hsame : (db.perform step).published = db.published ∧
        (db.perform step).visibleSeqno = db.visibleSeqno := by
      cases step with
      | insert _ | visible _ | publish _ _ => exact absurd hstep Bool.false_ne_true
      | _ => exact ⟨rfl, rfl⟩
    exact ⟨hpub.trans hsame.1, hvis.trans hsame.2⟩

theorem Contiguous.last {n m : ℕ} {xs : List (ℕ × List EncEntry)} {r : ℕ × List EncEntry}
    (h : Contiguous n xs m) (hr : xs.getLast? = some r) : m = r.1 + r.2.length := by
  obtain ⟨init, rfl⟩ := List.getLast?_eq_some_iff.mp hr
  obtain ⟨k, -, hk⟩ := contiguous_append.mp h
  exact hk.2.2.symm.trans (congrArg (· + r.2.length) hk.1.symm)

theorem Outcome.contiguous {opts : Options} {db : Db} {v : Vlog} {n : ℕ} {qs : List QueuedEntry}
    {rs : List (Except Error (ℕ × List EncEntry))} (h : Outcome opts db v n qs rs)
    (hne : ∀ q ∈ qs, q.ops ≠ []) : ∃ m, Contiguous n (rs.filterMap Except.toOption) m := by
  induction h with
  | nil => exact ⟨_, rfl⟩
  | rejected _ _ ih => exact ih fun q hq => hne q (List.mem_cons_of_mem _ hq)
  | @accepted n q qs es rs henc _ _ ih =>
    obtain ⟨m, hm⟩ := ih fun q hq => hne q (List.mem_cons_of_mem _ hq)
    refine ⟨m, rfl, fun hnil => hne q List.mem_cons_self ?_, hm⟩
    have hlen := henc.length_eq
    rw [hnil, List.length_nil, List.length_append] at hlen
    exact List.length_eq_zero_iff.mp (by omega)

variable {opts : Options} {db : Db} {qs : List QueuedEntry}

variable (opts db) in
/-- **A group shows its committed batches**: they are offered to subscribers,
and the visible seqno covers them. -/
theorem groupPlan_shown (hne : ∀ q ∈ qs, q.ops ≠ []) (f : Faults) :
    let plan := db.groupPlan opts (qs.map QueuedEntry.batch) f
    (db.performAll plan.steps).published = db.published ++ plan.appended ∧
      ∀ r ∈ plan.appended, r.1 + r.2.length ≤ (db.performAll plan.steps).visibleSeqno + 1 := by
  intro plan
  obtain ⟨⟨v, hout⟩, pre, post, hsteps, hsilent⟩ := groupPlan_spec opts db qs f
  obtain ⟨hpre, hprevis⟩ := performAll_silent db fun s hs => hsilent s (List.mem_append_left _ hs)
  obtain ⟨hpost, hpostvis⟩ :=
    performAll_silent ((db.performAll pre).performAll (Db.publishSteps plan.appended))
    fun s hs => hsilent s (List.mem_append_right _ hs)
  have hall : db.performAll plan.steps =
      ((db.performAll pre).performAll (Db.publishSteps plan.appended)).performAll post := by
    rw [hsteps, Db.performAll_append, Db.performAll_append]
  have hpublish : ∀ (appended : List (ℕ × List EncEntry)) (d : Db),
      (appended.foldl (fun db r => db.publishStream r.1 r.2) d).published =
        d.published ++ appended ∧
        (appended.foldl (fun db r => db.publishStream r.1 r.2) d).visibleSeqno =
          d.visibleSeqno := by
    intro appended
    induction appended with
    | nil => exact fun d => ⟨(List.append_nil _).symm, rfl⟩
    | cons r rest ih =>
      intro d
      obtain ⟨hpub, hvis⟩ := ih (d.publishStream r.1 r.2)
      exact ⟨hpub.trans (List.append_assoc _ [r] rest), hvis⟩
  rw [hall, hpost, hpostvis, Db.performAll_publishSteps, (hpublish _ _).1, (hpublish _ _).2,
    Db.foldl_insertEntries]
  refine ⟨congrArg (· ++ plan.appended) hpre, fun r hr => ?_⟩
  obtain ⟨m, hm⟩ := hout.contiguous hne
  obtain ⟨last, hlast⟩ :=
    List.getLast?_isSome.mpr (List.ne_nil_of_mem hr) |> Option.isSome_iff_exists.mp
  have hend := hm.last hlast
  have hle := (hm.mem (show (r.1, r.2) ∈ plan.appended from hr)).2.1
  show r.1 + r.2.length ≤ ((plan.appended.getLast?.map fun r => r.1 + r.2.length - 1).getD _) + 1
  rw [hlast]
  show r.1 + r.2.length ≤ last.1 + last.2.length - 1 + 1
  omega

/-- A group that stops anywhere takes nothing back. -/
theorem groupPlan_grows (f : Faults) (k : ℕ) :
    db.Grows (db.performAll ((db.groupPlan opts (qs.map QueuedEntry.batch) f).steps.take k)) := by
  obtain ⟨⟨v, hout⟩, pre, post, hsteps, hsilent⟩ := groupPlan_spec opts db qs f
  have hvisible : ∀ s, .visible s ∈ (db.groupPlan opts (qs.map QueuedEntry.batch) f).steps →
      db.visibleSeqno ≤ s := by
    intro s hs
    rw [hsteps] at hs
    have hloud : ∀ l : List WriteStep, (∀ s ∈ l, s.silent = true) → WriteStep.visible s ∉ l :=
      fun l hl hmem => absurd (hl _ hmem) Bool.false_ne_true
    rcases List.mem_append.mp hs with hs | hs
    · rcases List.mem_append.mp hs with hs | hs
      · exact absurd hs (hloud pre fun s hs => hsilent s (List.mem_append_left _ hs))
      · unfold Db.publishSteps at hs
        rcases List.mem_append.mp hs with hs | hs
        · rcases List.mem_append.mp hs with hs | hs
          · obtain ⟨e, -, he⟩ := List.mem_map.mp hs
            exact absurd he (by simp)
          · obtain ⟨r, hr, heq⟩ := Option.map_eq_some_iff.mp (Option.mem_toList.mp hs)
            have hmem := List.mem_of_getLast? hr
            have hbase := hout.le_base r (by
              obtain ⟨x, hx, hopt⟩ := List.mem_filterMap.mp hmem
              cases x with
              | error _ => exact absurd hopt (by simp [Except.toOption])
              | ok y => exact (Option.some_inj.mp hopt) ▸ hx)
            injection heq with heq
            omega
        · obtain ⟨r, -, hr⟩ := List.mem_map.mp hs
          exact absurd hr (by simp)
    · exact absurd hs (hloud post fun s hs => hsilent s (List.mem_append_right _ hs))
  obtain ⟨hpub, hvis⟩ := grows_performAll (le_refl db.visibleSeqno) fun s hs =>
    hvisible s (List.mem_of_mem_take hs)
  exact ⟨hpub, hvis⟩

end Fluent31
