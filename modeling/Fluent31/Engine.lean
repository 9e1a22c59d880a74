/-
The engine as a transition system.

An action is one critical section of one thread: a commit on the direct path,
an enqueue, one chunk of the committer, a relocation batch of the value-log
collector, a rotation, a flush, a piece of the compaction scheduler, a snapshot
or pin operation, a trigger administration or clean-up step, a reopen.  Actions
of different threads interleave freely.

Beside the store and the threads' private state, an engine state carries three
records of the past that no action reads: the log of commits, the collection
floor (the largest watermark a compaction has collected under) and the touches
keys-mode triggers were registered for.
-/
import Fluent31.Commit
import Fluent31.Compaction
import Fluent31.History
import Fluent31.Lib.System

namespace Fluent31

/-- A captured touch: an op at `seq` on a key in the range of a registered
keys-mode trigger. -/
structure Touch where
  name : Bytes
  key : Bytes
  seq : ℕ
  deriving DecidableEq

/-- Clean-up of a queue whose trigger was found unregistered. -/
inductive ClearTask
  | looked (name : Bytes)
  | batch (name : Bytes) (keys : List Bytes)
  deriving DecidableEq

structure Engine where
  db : Db
  sched : Option Scheduler
  /-- The commit queue, oldest first. -/
  queue : List QueuedEntry
  /-- Seqnos registered by live snapshots, transactions and subscriptions. -/
  handles : List ℕ
  clears : List ClearTask
  /-- The trigger being deleted under the admin lock. -/
  deleting : Option Bytes
  log : List CommitRec
  floor : ℕ
  touches : List Touch

/-- No definition record is on its way: the holder of the admin lock waits for
its write. -/
def Engine.AdminIdle (e : Engine) : Prop := ∀ q ∈ e.queue, ∀ op ∈ q.ops, ¬ DEF_PREFIX <+: op.key

instance (e : Engine) : Decidable e.AdminIdle :=
  inferInstanceAs (Decidable (∀ q ∈ e.queue, ∀ op ∈ q.ops, ¬ DEF_PREFIX <+: op.key))

/-- What is submitted to the write path, and by whom. -/
inductive Submission
  /-- A user batch. -/
  | batch (ops : List BatchOp)
  /-- A user transaction: its writes and its `get_for_update` keys. -/
  | txn (snap : ℕ) (writes : List BatchOp) (locks : List Bytes)
  /-- A trigger drain: a system transaction that deletes the events it consumed. -/
  | drain (snap : ℕ) (consume : List Bytes) (writes : List BatchOp) (locks : List Bytes)
  /-- An engine write outside the trigger keyspaces. -/
  | system (ops : List BatchOp)
  /-- The definition record of a trigger being created. -/
  | define (d : TriggerDef)
  /-- The removal of the record of a trigger being deleted. -/
  | undefine (name : Bytes)
  /-- One chunk of a queue clean-up. -/
  | clear (name : Bytes) (keys : List Bytes)
  deriving DecidableEq

namespace Submission

def entry : Submission → QueuedEntry
  | batch ops => ⟨ops, none, true⟩
  | txn snap writes locks => ⟨writes, some (snap, writes.map BatchOp.key ++ locks), true⟩
  | drain snap consume writes locks =>
    let ops := consume.map BatchOp.delete ++ writes
    ⟨ops, some (snap, ops.map BatchOp.key ++ locks), false⟩
  | system ops => ⟨ops, none, false⟩
  | define d => ⟨[.put (sysTriggerKey d.name) (encodeDef d)], none, false⟩
  | undefine name => ⟨[.delete (sysTriggerKey name)], none, false⟩
  | clear _ keys => ⟨keys.map BatchOp.delete, none, false⟩

/-- The seqno the submission's transaction holds registered. -/
def snap? : Submission → Option ℕ
  | txn snap _ _ => some snap
  | drain snap _ _ _ => some snap
  | _ => none

/-- What the callers of the write path have checked or hold. -/
def Allowed (opts : Options) (e : Engine) : Submission → Prop
  | batch ops =>
    ops ≠ [] ∧ ∀ op ∈ ops, ValidUserKey op.key ∧ op.key.length ≤ opts.maxKeySize ∧
      (op.value?.getD []).length ≤ opts.maxValueSize
  | txn snap writes _ => snap ∈ e.handles ∧ ∀ op ∈ writes, ValidUserKey op.key
  | drain snap consume writes _ =>
    snap ∈ e.handles ∧ (∀ key ∈ consume, QUEUE_PREFIX <+: key) ∧ ∀ op ∈ writes, ValidUserKey op.key
  | system ops =>
    ops ≠ [] ∧ ∀ op ∈ ops, isSysKey op.key ∧ ¬ QUEUE_PREFIX <+: op.key ∧ ¬ DEF_PREFIX <+: op.key
  | define d =>
    d.Accepted opts ∧ e.deleting = none ∧ e.AdminIdle ∧ ∀ d' ∈ e.db.defs, d'.name ≠ d.name
  | undefine name => e.deleting = some name ∧ e.AdminIdle
  | clear name keys => keys ≠ [] ∧ .batch name keys ∈ e.clears

instance (opts : Options) (e : Engine) (sub : Submission) : Decidable (sub.Allowed opts e) := by
  cases sub <;> unfold Allowed <;> infer_instance

/-- The clean-up task a submission carries out. -/
def task? : Submission → Option ClearTask
  | clear name keys => some (.batch name keys)
  | _ => none

end Submission

inductive Action
  | commit (sub : Submission)
  | enqueue (sub : Submission)
  | withdraw (i : ℕ)
  | group (n : ℕ)
  | relocate (records : List VlogRecord)
  | rotate
  | flush
  | schedBegin (force : Bool)
  | schedPreempt
  | schedSchedule
  | schedStart
  | schedSlice
  | schedExit
  | snapshot
  | snapshotAt (seq : ℕ)
  | snapshotFlushed
  | advance (pinned last : ℕ)
  | release (seq : ℕ)
  | pin (name : Bytes)
  | unpin (name : Bytes)
  | createTrigger (d : TriggerDef)
  | deleteTrigger (name : Bytes)
  | deleteDone
  | clearLook (name : Bytes)
  | clearRead (name : Bytes)
  | reopen (n orphan : ℕ)

/-- The record of a batch the direct path commits. -/
def recOf (opts : Options) (db : Db) (q : QueuedEntry) : CommitRec :=
  let base := db.visibleSeqno + 1
  let events := db.captureEvents opts q.ops base q.capture
  ⟨q.ops, q.validate, q.capture, base, events,
    (db.vlog.placeOps opts.valueThreshold (q.ops ++ events)).2⟩

/-- The records of the batches a group committed. -/
def groupRecs (opts : Options) (db : Db) (included : List QueuedEntry)
    (outcome : List (Except Error (ℕ × List EncEntry))) : List CommitRec :=
  (included.zip outcome).filterMap fun p =>
    p.2.toOption.map fun r =>
      ⟨p.1.ops, p.1.validate, p.1.capture, r.1,
        db.captureEvents opts p.1.ops r.1 p.1.capture, r.2⟩

/-- The touches of a commit on the ranges of the registered keys-mode triggers. -/
def touchesOf (defs : List TriggerDef) (c : CommitRec) : List Touch :=
  if c.capture then
    (c.ops.zipIdx c.base).flatMap fun p =>
      if isSysKey p.1.key then []
      else (defs.filter fun d => decide (d.mode = .keys) && decide (d.Matches p.1.key)).map fun d =>
        ⟨d.name, p.1.key, p.2⟩
  else []

/-- The ops of one relocation batch: the records that are still live. -/
def relocationOps (db : Db) (records : List VlogRecord) : List BatchOp :=
  records.filterMap fun r =>
    match db.readView.getVersioned r.key MAX_SEQNO with
    | some e => if e.kind = .put ∧ e.repr = .ptr r.ptr then some (.put r.key r.value) else none
    | none => none

namespace Engine

variable (opts : Options) (e : Engine)

def init : Engine := ⟨Db.init opts, none, [], [], [], none, [], 0, []⟩

/-- The store after a commit step, with the commits added to the records. -/
def committed (db : Db) (recs : List CommitRec) : Engine :=
  { e with
    db := db
    log := e.log ++ recs
    touches := e.touches ++ recs.flatMap (touchesOf e.db.defs) }

def finishTask (sub : Submission) : Engine :=
  match sub.task? with
  | some t => { e with clears := e.clears.erase t }
  | none => e

/-- A commit on the direct path. -/
def commit (q : QueuedEntry) : Engine :=
  let r := e.db.commitDirect opts q
  match r.2 with
  | .ok _ => e.committed r.1 (if q.ops.isEmpty then [] else [recOf opts e.db q])
  | .error _ => e.committed r.1 []

/-- One chunk of the committer: the first `n` queued entries. -/
def group (n : ℕ) : Engine :=
  let chunk := e.queue.take n
  let included := includedEntries (validateGroup e.db.readView [] chunk) chunk
  let outcome := (e.db.groupOutcome opts (included.map QueuedEntry.batch)).2
  let e' := e.committed (e.db.commitGroup opts chunk).1 (groupRecs opts e.db included outcome)
  { e' with
    queue := e.queue.drop n
    handles := chunk.filterMap (fun q => q.validate.map Prod.fst) ++ e.handles }

/-- One relocation batch of the value-log collector. -/
def relocate (records : List VlogRecord) : Engine :=
  let ops := relocationOps e.db records
  if ops.isEmpty then e
  else
    let r := e.db.applyLocked opts ops false
    match r.2 with
    | .ok _ => e.committed r.1 [recOf opts e.db ⟨ops, none, false⟩]
    | .error _ => e.committed r.1 []

/-- Start the picked work; a rewrite collects under its watermark, and only
versions its inputs hold. -/
def schedStart : Option Engine :=
  e.sched.bind fun s => (s.start e.db).map fun r =>
    { e with
      sched := some r.1
      db := r.2
      floor := match s.pending with
        | some (.rewrite job) =>
          max e.floor (min e.db.watermark
            ((job.inputs.flatMap Run.entries).map Entry.seq |>.foldr max 0))
        | _ => e.floor }

/-- The engine after a crash or close that left `n` WAL records; what was not
recovered is no longer part of the past. -/
def reopen (n orphan : ℕ) : Option Engine :=
  (e.db.reopen opts n orphan).map fun db =>
    let head := e.db.recoveredSeqno n
    { db := db, sched := none, queue := [], handles := [], clears := [], deleting := none
      log := e.log.filter fun c => decide (c.base ≤ head)
      floor := e.floor
      touches := e.touches.filter fun t => decide (t.seq ≤ head) }

/-- Guarded update. -/
def guarded (p : Prop) [Decidable p] (e' : Engine) : Option Engine := if p then some e' else none

def step : Action → Option Engine
  | .commit sub =>
    guarded (opts.sync ≠ .always ∧ sub.Allowed opts e) ((e.commit opts sub.entry).finishTask sub)
  | .enqueue sub =>
    guarded (opts.sync = .always ∧ sub.Allowed opts e)
      (finishTask { e with
        queue := e.queue ++ [sub.entry]
        handles := match sub.snap? with
          | some s => e.handles.erase s
          | none => e.handles } sub)
  | .withdraw i =>
    (e.queue[i]?).map fun q =>
      { e with
        queue := e.queue.eraseIdx i
        handles := (q.validate.map Prod.fst).toList ++ e.handles }
  | .group n => guarded (opts.sync = .always ∧ 0 < n ∧ e.queue ≠ []) (e.group opts n)
  | .relocate records =>
    guarded (∀ r ∈ records, r ∈ e.db.vlog.records) (e.relocate opts records)
  | .rotate => some { e with db := e.db.forceRotate }
  | .flush => (e.db.flushOne opts).map fun r => { e with db := r.1 }
  | .schedBegin force => guarded (e.sched.isNone) { e with sched := some (Scheduler.new force) }
  | .schedPreempt =>
    e.sched.bind fun s => (s.preempt opts e.db).map fun s => { e with sched := some s }
  | .schedSchedule =>
    e.sched.bind fun s => (s.schedule opts e.db).map fun r =>
      { e with sched := some r.1, db := r.2 }
  | .schedStart => e.schedStart
  | .schedSlice =>
    e.sched.bind fun s => (s.slice opts e.db).map fun r => { e with sched := some r.1, db := r.2 }
  | .schedExit => some { e with sched := none }
  | .snapshot =>
    some { e with db := e.db.registerSnapshot, handles := e.db.visibleSeqno :: e.handles }
  | .snapshotAt seq =>
    (e.db.tryRegisterSnapshotAt seq).toOption.map fun db =>
      { e with db := db, handles := seq :: e.handles }
  | .snapshotFlushed =>
    some { e with
      db := e.db.registerSnapshotAt e.db.manifest.lastFlushedSeqno
      handles := e.db.manifest.lastFlushedSeqno :: e.handles }
  | .advance pinned last =>
    guarded (pinned ∈ e.handles ∧ pinned ≤ last ∧ last ≤ e.db.visibleSeqno)
      { e with
        db := (e.db.registerSnapshotAt last).deregisterSnapshot pinned
        handles := (last :: e.handles).erase pinned }
  | .release seq =>
    guarded (seq ∈ e.handles)
      { e with db := e.db.deregisterSnapshot seq, handles := e.handles.erase seq }
  | .pin name => (e.db.pin name).toOption.map fun db => { e with db := db }
  | .unpin name => (e.db.unpin name).toOption.map fun db => { e with db := db }
  | .createTrigger d =>
    guarded (d.Accepted opts ∧ e.deleting = none ∧ e.AdminIdle ∧
        (∀ d' ∈ e.db.defs, d'.name ≠ d.name) ∧
        e.db.getAtSeq (sysTriggerKey d.name) e.db.visibleSeqno = .ok (some (encodeDef d)))
      { e with db := { e.db with defs := e.db.defs ++ [d] } }
  | .deleteTrigger name =>
    guarded (e.deleting = none ∧ e.AdminIdle ∧ ∃ d ∈ e.db.defs, d.name = name)
      { e with
        db := { e.db with defs := e.db.defs.filter fun d => decide (d.name ≠ name) }
        deleting := some name
        touches := e.touches.filter fun t => decide (t.name ≠ name) }
  | .deleteDone => guarded e.AdminIdle { e with deleting := none }
  | .clearLook name =>
    guarded (e.deleting = some name ∨ ∀ d ∈ e.db.defs, d.name ≠ name)
      { e with clears := .looked name :: e.clears }
  | .clearRead name =>
    guarded (.looked name ∈ e.clears)
      { e with clears := .batch name ((e.db.liveKeys (sysTriggerEventKey name [])).take 512) ::
          e.clears.erase (.looked name) }
  | .reopen n orphan => e.reopen opts n orphan

end Engine

/-- The engine as a transition system. -/
def engine (opts : Options) : System Engine Action := ⟨Engine.init opts, Engine.step opts⟩

/-! ### A drain and a new touch -/

/-- Entries back to back, without block headers. -/
def plainFormat : TableFormat :=
  let size (es : List Entry) : ℕ := (es.map fun e => e.ikeyLen + e.repr.encode.length).sum
  ⟨size, size⟩

/-- A keys-mode trigger on all user keys. -/
def touchTrigger : TriggerDef := ⟨[byte 116], [byte 109], [], [], .keys⟩

/-- A trigger is created and a user write touches a key; a drain takes its
snapshot and consumes the event, while another user write of the key is queued
ahead of it. -/
def touchThenDrain : List Action :=
  let write (v : ℕ) : Submission := .batch [.put [byte 107] [byte v]]
  [.enqueue (.define touchTrigger), .group 1, .createTrigger touchTrigger,
    .enqueue (write 1), .group 1,
    .snapshot,
    .enqueue (write 2),
    .enqueue (.drain 3 [sysTriggerEventKey touchTrigger.name [byte 107]] [] [])]

/-! ### A snapshot and a splice -/

/-- Two levels, fragments of about twelve bytes, and values of four bytes or more
in the value log. -/
def smallTables : Options :=
  { Options.default plainFormat with
    maxLevels := 2, l0CompactionTrigger := 2, compactionSliceBytes := 16
    targetFileSize := 12, valueThreshold := 4 }

/-- A user write that the committer takes alone. -/
def writeAlone (op : BatchOp) : List Action := [.enqueue (.batch [op]), .group 1]

/-- Two keys, one of them with its value in the log, are flushed, and a snapshot
is taken at seqno 2. -/
def flushThenSnapshot : List Action :=
  writeAlone (.put [byte 107] [byte 1]) ++ writeAlone
    (.put [byte 108] (List.replicate 5 (byte 2))) ++ [.rotate, .flush, .snapshot]

/-- The first key is overwritten and deleted; a tier merge after each, and then
the merge of the two bottom runs into one of three fragments.  A last write
stays in the memtable. -/
def deleteThenSplice : List Action :=
  writeAlone (.put [byte 107] [byte 3]) ++
    [.rotate, .flush, .schedBegin false, .schedSchedule, .schedStart, .schedSlice, .schedSlice] ++
  writeAlone (.delete [byte 107]) ++ [.rotate, .flush] ++
  writeAlone (.put [byte 109] [byte 4]) ++
    [.rotate, .flush, .schedSchedule, .schedStart, .schedSlice,
      .schedSchedule, .schedStart, .schedSlice, .schedSlice] ++
  writeAlone (.put [byte 107] [byte 5])

end Fluent31
