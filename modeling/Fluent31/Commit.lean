/-
The write path (`db.rs`, `txn.rs`): the direct path and group commit.

`applyLocked` commits one batch; `applyGroupLocked` is its multi-batch twin,
phase by phase.  `commitDirect` is what a writer outside `SyncMode::Always`
does under the write mutex, `commitGroup` what the committer thread does with
one chunk of its queue: validate every entry against the view taken at the
start and the keys earlier entries of the chunk wrote, then apply the
survivors as a group.
-/
import Fluent31.Store

namespace Fluent31

/-- A commit-queue entry: the batch, the snapshot and conflict keys of a
transaction, and whether triggers capture the batch. -/
structure QueuedEntry where
  ops : List BatchOp
  validate : Option (ℕ × List Bytes)
  capture : Bool
  deriving DecidableEq

def oversizeError : Error := .invalidArgument "write batch exceeds WAL record limit"

def exhaustedError : Error := .invalidArgument "seqno space exhausted"

def abortedError : Error :=
  .io "write group aborted by another batch's failure: write batch exceeds WAL record limit"

def approxSize (ops : List BatchOp) : ℕ := (ops.map BatchOp.approxSize).sum

namespace Db

variable (opts : Options) (db : Db)

/-- Trigger events of a capture-eligible batch committing at `base`. -/
def captureEvents (ops : List BatchOp) (base : ℕ) (capture : Bool) : List BatchOp :=
  if capture && opts.wasmEnabled then captureOps db.defs ops base opts else []

def appendRecord (base : ℕ) (entries : List EncEntry) : Db :=
  { db with wal := { db.wal with records := db.wal.records ++ [(base, entries)] } }

/-- Memtable inserts, then publication of the new visible seqno. -/
def insertEntries (base : ℕ) (entries : List EncEntry) : Db :=
  { db with
    mem := db.mem.insertAll (versionsFrom base entries)
    visibleSeqno := base + entries.length - 1 }

def publishStream (base : ℕ) (entries : List EncEntry) : Db :=
  { db with published := db.published ++ [(base, entries)] }

/-- Commit one batch; the caller holds the write mutex. -/
def applyLocked (ops : List BatchOp) (capture : Bool) : Db × Except Error Unit :=
  let base := db.visibleSeqno + 1
  let full := ops ++ db.captureEvents opts ops base capture
  if MAX_SEQNO ≤ base + full.length then (db, .error exhaustedError)
  else if WAL_RECORD_LIMIT ≤ approxSize full then (db, .error oversizeError)
  else
    let (vlog, entries) := db.vlog.placeOps opts.valueThreshold full
    let db := { db with vlog := vlog }
    if WAL_RECORD_LIMIT ≤ (encodeBatch base entries).length then (db, .error oversizeError)
    else
      let db := ((db.appendRecord base entries).insertEntries base entries).publishStream
        base entries
      (db.rotateAfterWrite opts, .ok ())

/-! ### Group apply -/

/-- Phase 0: size checks, seqno assignment and event capture.  A rejected batch
consumes no seqno. -/
def groupPhase0 : ℕ → List (List BatchOp × Bool) → List (Except Error (ℕ × List BatchOp))
  | _, [] => []
  | next, (ops, capture) :: rest =>
    let full := ops ++ db.captureEvents opts ops next capture
    if WAL_RECORD_LIMIT ≤ approxSize full then .error oversizeError :: groupPhase0 next rest
    else if MAX_SEQNO ≤ next + full.length then .error exhaustedError :: groupPhase0 next rest
    else .ok (next, full) :: groupPhase0 (next + full.length) rest

/-- Phase 1: value placement, in order. -/
def groupPhase1 (threshold : ℕ) :
    Vlog → List (Except Error (ℕ × List BatchOp)) → Vlog × List (Except Error (ℕ × List EncEntry))
  | v, [] => (v, [])
  | v, .error e :: rest =>
    let (v, placed) := groupPhase1 threshold v rest
    (v, .error e :: placed)
  | v, .ok (base, ops) :: rest =>
    let (v, entries) := v.placeOps threshold ops
    let (v, placed) := groupPhase1 threshold v rest
    (v, .ok (base, entries) :: placed)

/-- Phase 3: a record over the limit fails its batch and every later one. -/
def groupPhase3 : List (Except Error (ℕ × List EncEntry)) → List (Except Error (ℕ × List EncEntry))
  | [] => []
  | .error e :: rest => .error e :: groupPhase3 rest
  | .ok (base, entries) :: rest =>
    if WAL_RECORD_LIMIT ≤ (encodeBatch base entries).length then
      .error oversizeError :: rest.map fun r => r.bind fun _ => .error abortedError
    else .ok (base, entries) :: groupPhase3 rest

/-- Phases 0 to 3: the grown log, and for each batch its error or the record
that was appended for it. -/
def groupOutcome (batches : List (List BatchOp × Bool)) :
    Vlog × List (Except Error (ℕ × List EncEntry)) :=
  let accepted := db.groupPhase0 opts (db.visibleSeqno + 1) batches
  let (vlog, placed) := groupPhase1 opts.valueThreshold db.vlog accepted
  (vlog, groupPhase3 placed)

/-- Commit a group of batches with one WAL record each; the caller holds the
write mutex. -/
def applyGroupLocked (batches : List (List BatchOp × Bool)) : Db × List (Except Error Unit) :=
  let (vlog, outcome) := db.groupOutcome opts batches
  let appended := outcome.filterMap Except.toOption
  let db := { db with vlog := vlog }
  let db := appended.foldl (fun db r => db.appendRecord r.1 r.2) db
  let db := appended.foldl (fun db r => db.insertEntries r.1 r.2) db
  let db := appended.foldl (fun db r => db.publishStream r.1 r.2) db
  (if appended.isEmpty then db else db.rotateAfterWrite opts, outcome.map fun r =>
    r.map fun _ => ())

end Db

/-! ### Validation -/

/-- Some conflict key has a committed version newer than the snapshot, or was
written by an earlier entry of the chunk. -/
def hasConflict (view : ReadView) (written : List Bytes) (snap : ℕ) (keys : List Bytes) : Bool :=
  keys.any fun key =>
    decide (key ∈ written) ||
      match view.latest key with
      | some e => decide (snap < e.seq)
      | none => false

/-- Entries without a validation spec never conflict. -/
def QueuedEntry.conflicts (q : QueuedEntry) (view : ReadView) (written : List Bytes) : Bool :=
  match q.validate with
  | some (snap, keys) => hasConflict view written snap keys
  | none => false

/-- The committer's verdict on one entry of a chunk. -/
inductive Decision
  | conflict
  /-- A read of the check failed. -/
  | failed (err : Error)
  /-- A transaction that only locks keys validates but applies nothing. -/
  | locksOnly
  | included
  deriving DecidableEq

/-- Validate a chunk in queue order, where every read succeeds.  `written` collects the
op keys of the entries that passed. -/
def validateGroup (view : ReadView) : List Bytes → List QueuedEntry → List Decision
  | _, [] => []
  | written, q :: rest =>
    if q.conflicts view written then .conflict :: validateGroup view written rest
    else
      (if q.ops.isEmpty then .locksOnly else .included) ::
        validateGroup view (q.ops.map BatchOp.key ++ written) rest

section

variable {view : ReadView} {written : List Bytes} {q : QueuedEntry} (qs : List QueuedEntry)

theorem validateGroup_conflict (h : q.conflicts view written = true) :
    validateGroup view written (q :: qs) = .conflict :: validateGroup view written qs := if_pos h

theorem validateGroup_locks (h : q.conflicts view written = false) (hops : q.ops = []) :
    validateGroup view written (q :: qs) = .locksOnly :: validateGroup view written qs := by
  conv_lhs => unfold validateGroup
  rw [if_neg (by simp [h]), hops]
  rfl

theorem validateGroup_included (h : q.conflicts view written = false) (hops : q.ops ≠ []) :
    validateGroup view written (q :: qs) =
      .included :: validateGroup view (q.ops.map BatchOp.key ++ written) qs := by
  conv_lhs => unfold validateGroup
  rw [if_neg (by simp [h]), if_neg (by simpa using hops)]

end

/-! ### Reads that fail -/

/-- The check of an entry, key by key: the first conflict ends it, and the first read that
fails.  `reads` are the errors of the reads. -/
def checkKeys (view : ReadView) (written : List Bytes) (snap : ℕ) :
    (ℕ → Option Error) → List Bytes → Except Error Bool
  | _, [] => .ok false
  | reads, key :: keys =>
    let next := checkKeys view written snap (fun i => reads (i + 1)) keys
    if key ∈ written then .ok true
    else
      match reads 0 with
      | some err => .error err
      | none =>
        match view.latest key with
        | some e => if snap < e.seq then .ok true else next
        | none => next

/-- The check of an entry where reads may fail; without a validation spec nothing is read. -/
def QueuedEntry.check (q : QueuedEntry) (view : ReadView) (written : List Bytes)
    (reads : ℕ → Option Error) : Except Error Bool :=
  match q.validate with
  | some (snap, keys) => checkKeys view written snap reads keys
  | none => .ok false

/-- Validate a chunk; an entry whose check cannot be read is answered its error, and its
keys are not collected. -/
def validateGroupIo (view : ReadView) :
    (ℕ → ℕ → Option Error) → List Bytes → List QueuedEntry → List Decision
  | _, _, [] => []
  | reads, written, q :: rest =>
    let later := fun i => reads (i + 1)
    match q.check view written (reads 0) with
    | .error err => .failed err :: validateGroupIo view later written rest
    | .ok true => .conflict :: validateGroupIo view later written rest
    | .ok false =>
      (if q.ops.isEmpty then .locksOnly else .included) ::
        validateGroupIo view later (q.ops.map BatchOp.key ++ written) rest

section

variable {view : ReadView} {reads : ℕ → ℕ → Option Error} {written : List Bytes}
  {q : QueuedEntry} (qs : List QueuedEntry)

theorem validateGroupIo_failed {err : Error} (h : q.check view written (reads 0) = .error err) :
    validateGroupIo view reads written (q :: qs) =
      .failed err :: validateGroupIo view (fun i => reads (i + 1)) written qs := by
  rw [validateGroupIo, h]

theorem validateGroupIo_conflict (h : q.check view written (reads 0) = .ok true) :
    validateGroupIo view reads written (q :: qs) =
      .conflict :: validateGroupIo view (fun i => reads (i + 1)) written qs := by
  rw [validateGroupIo, h]

theorem validateGroupIo_locks (h : q.check view written (reads 0) = .ok false)
    (hops : q.ops = []) :
    validateGroupIo view reads written (q :: qs) =
      .locksOnly :: validateGroupIo view (fun i => reads (i + 1)) written qs := by
  rw [validateGroupIo, h, hops]
  rfl

theorem validateGroupIo_included (h : q.check view written (reads 0) = .ok false)
    (hops : q.ops ≠ []) :
    validateGroupIo view reads written (q :: qs) =
      .included :: validateGroupIo view (fun i => reads (i + 1))
        (q.ops.map BatchOp.key ++ written) qs := by
  rw [validateGroupIo, h]
  simp only
  rw [if_neg (by simpa using hops)]

end

/-- The entries that passed with something to apply. -/
def includedEntries : List Decision → List QueuedEntry → List QueuedEntry
  | .included :: ds, q :: qs => q :: includedEntries ds qs
  | _ :: ds, _ :: qs => includedEntries ds qs
  | _, _ => []

def QueuedEntry.batch (q : QueuedEntry) : List BatchOp × Bool := (q.ops, q.capture)

/-- Every entry's result: the verdict's, or for an included one what the apply
returned for it. -/
def mergeResults : List Decision → List (Except Error Unit) → List (Except Error Unit)
  | [], _ => []
  | .conflict :: ds, rs => .error .conflict :: mergeResults ds rs
  | .failed err :: ds, rs => .error err :: mergeResults ds rs
  | .locksOnly :: ds, rs => .ok () :: mergeResults ds rs
  | .included :: ds, r :: rs => r :: mergeResults ds rs
  | .included :: ds, [] => .error abortedError :: mergeResults ds []

namespace Db

variable (opts : Options) (db : Db)

/-- One chunk of the committer: validation and apply in one critical section. -/
def commitGroup (entries : List QueuedEntry) : Db × List (Except Error Unit) :=
  let decisions := validateGroup db.readView [] entries
  let batches := (includedEntries decisions entries).map QueuedEntry.batch
  if batches.isEmpty then (db, mergeResults decisions [])
  else
    let (db, applied) := db.applyGroupLocked opts batches
    (db, mergeResults decisions applied)

/-- One entry on the direct path: validate against the store, then apply. -/
def commitDirect (q : QueuedEntry) : Db × Except Error Unit :=
  if q.conflicts db.readView [] then (db, .error .conflict)
  else if q.ops.isEmpty then (db, .ok ())
  else db.applyLocked opts q.ops q.capture

end Db

end Fluent31
