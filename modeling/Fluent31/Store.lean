/-
The store: state, reads, snapshots, rotations and flush (`db.rs`).

One record holds what `DbInner` guards with its locks; a function here is one
critical section.  File operations succeed in this model, and the manifest and
the in-memory version, which the code updates under the same locks, share one
copy of the levels.
-/
import Fluent31.Fragments
import Fluent31.Vlog
import Fluent31.Trigger

namespace Fluent31

/-- A WAL file: its records are batches with their base seqnos. -/
structure Wal where
  id : ℕ
  records : List (ℕ × List EncEntry)

/-- The versions a WAL file's records replay to. -/
def Wal.versions (w : Wal) : List Entry := w.records.flatMap fun r => versionsFrom r.1 r.2

/-- The manifest's counters and pins. -/
structure Manifest where
  lastFlushedSeqno : ℕ
  walFloor : ℕ
  nextFileId : ℕ
  pins : List (Bytes × ℕ)

structure Db where
  mem : Memtable
  /-- Frozen memtables, newest first. -/
  imms : List Memtable
  version : Version
  visibleSeqno : ℕ
  nextFileId : ℕ
  /-- The append target. -/
  wal : Wal
  /-- Older WAL files still on disk, oldest first. -/
  sealedWals : List Wal
  vlog : Vlog
  manifest : Manifest
  /-- Registered snapshots, one entry for each registration. -/
  snapshots : List ℕ
  /-- The trigger registry. -/
  defs : List TriggerDef
  /-- What the write path has offered to stream subscribers. -/
  published : List (ℕ × List EncEntry)

namespace Db

/-- A fresh store, as the first open leaves it: head file 1, WAL 2. -/
def init (opts : Options) : Db where
  mem := Memtable.new 2
  imms := []
  version := { Version.empty (max opts.maxLevels 1) with vlogs := [1], vlogHeadId := 1 }
  visibleSeqno := 0
  nextFileId := 3
  wal := ⟨2, []⟩
  sealedWals := []
  vlog := ⟨[], 1, 0⟩
  manifest := ⟨0, 2, 3, []⟩
  snapshots := []
  defs := []
  published := []

variable (opts : Options) (db : Db)

/-! ### Reads -/

def readView : ReadView := ⟨db.mem, db.imms, db.version, db.visibleSeqno⟩

/-- All versions stored anywhere in the store. -/
def stored : List Entry := db.readView.stored

def resolveRepr (key : Bytes) : ReprRef → Except Error Bytes
  | .empty => .error (.corruption "short read while decoding")
  | .inline value => .ok value
  | .ptr p =>
    if p.file ∈ db.version.vlogs then db.vlog.readValue p key
    else .error (.corruption "pointer into unknown vlog file")

def getAtSeq (key : Bytes) (seq : ℕ) : Except Error (Option Bytes) :=
  match db.readView.getVersioned key (min seq db.visibleSeqno) with
  | none => .ok none
  | some e =>
    match e.kind with
    | .delete => .ok none
    | .put => (db.resolveRepr key e.repr).map some

/-! ### Snapshots -/

def registerSnapshot : Db := { db with snapshots := db.visibleSeqno :: db.snapshots }

/-- Register at an explicit, already visible seqno. -/
def registerSnapshotAt (seq : ℕ) : Db := { db with snapshots := seq :: db.snapshots }

/-- Register at `seq` only if the state at `seq` is still materializable. -/
def tryRegisterSnapshotAt (seq : ℕ) : Except Error Db :=
  if db.visibleSeqno < seq then
    .error (.invalidArgument "seqno has not been committed yet")
  else
    let wm := db.snapshots.min?.getD (db.visibleSeqno + 1)
    if seq < wm ∧ seq ≠ db.visibleSeqno then
      .error (.invalidArgument "state at seqno is no longer retained")
    else .ok (db.registerSnapshotAt seq)

def deregisterSnapshot (seq : ℕ) : Db := { db with snapshots := db.snapshots.erase seq }

/-- The smallest seqno any current or future reader may use. -/
def watermark : ℕ :=
  match db.snapshots.min? with
  | some s => s
  | none => db.visibleSeqno + 1

/-- A pin is a snapshot whose registration the manifest keeps. -/
def pin (name : Bytes) : Except Error Db :=
  if db.manifest.pins.any fun p => decide (p.1 = name) then
    .error (.invalidArgument "pin already exists")
  else
    .ok { db.registerSnapshot with
      manifest := { db.manifest with pins := db.manifest.pins ++ [(name, db.visibleSeqno)] } }

/-- Delete a pin and release its hold. -/
def unpin (name : Bytes) : Except Error Db :=
  match db.manifest.pins.find? fun p => decide (p.1 = name) with
  | none => .error (.invalidArgument "no pin of this name")
  | some p =>
    .ok { db.deregisterSnapshot p.2 with
      manifest := { db.manifest with pins := db.manifest.pins.erase p } }

/-! ### Rotations and flush -/

/-- Freeze the active memtable and start a fresh WAL. -/
def rotateMemtableLocked : Db :=
  { db with
    nextFileId := db.nextFileId + 1
    wal := ⟨db.nextFileId, []⟩
    sealedWals := db.sealedWals ++ [db.wal]
    mem := Memtable.new db.nextFileId
    imms := db.mem :: db.imms }

/-- Seal the vlog head and open a fresh one. -/
def rotateVlogLocked : Db :=
  { db with
    nextFileId := db.nextFileId + 1
    vlog := db.vlog.rotate db.nextFileId
    version := { db.version with
      vlogs := db.version.vlogs ++ [db.nextFileId], vlogHeadId := db.nextFileId } }

/-- The rotations that follow a write. -/
def rotateAfterWrite : Db :=
  let db := if opts.memtableSize ≤ db.mem.approximateBytes then db.rotateMemtableLocked else db
  if opts.vlogFileSize ≤ db.vlog.written then db.rotateVlogLocked else db

/-- Rotate the memtable even below the size threshold. -/
def forceRotate : Db := if db.mem.isEmpty then db else db.rotateMemtableLocked

/-- WALs below the floor are covered by tables. -/
def deleteOldWals (floor : ℕ) : Db :=
  { db with sealedWals := db.sealedWals.filter fun w => decide (floor ≤ w.id) }

/-- The part of a flush that holds the manifest and state locks: the oldest
frozen memtable `imm` makes way for the run built from it. -/
def installFlush (imm : Memtable) (run : Option (Run × ℕ)) : Db :=
  let lastFlushed := match run with
    | some (_, maxSeq) => max db.manifest.lastFlushedSeqno maxSeq
    | none => db.manifest.lastFlushedSeqno
  let levels := match run with
    | some (r, _) => db.version.levels.modify 0 fun l => r :: l
    | none => db.version.levels
  let walFloor := max db.manifest.walFloor (imm.walId + 1)
  let db := { db with
    manifest := { db.manifest with
      lastFlushedSeqno := lastFlushed, walFloor := walFloor, nextFileId := db.nextFileId }
    version := { db.version with levels := levels }
    imms := db.imms.dropLast }
  db.deleteOldWals walFloor

/-- Flush the oldest frozen memtable into an L0 run; false when there is none. -/
def flushOne : Option (Db × Bool) :=
  match db.imms.getLast? with
  | none => some (db, false)
  | some imm =>
    if imm.isEmpty then some (db.installFlush imm none, true)
    else
      (buildRunFromMem opts db.nextFileId imm).map fun r =>
        ({ db with nextFileId := r.2.2 }.installFlush imm (some (r.1, r.2.1)), true)

/-! ### Reopen -/

/-- The WAL records recovery replays, in file order: those of the files at or
above the floor. -/
def replayable : List (ℕ × List EncEntry) :=
  ((db.sealedWals ++ [db.wal]).filter fun w => decide (db.manifest.walFloor ≤ w.id)).flatMap
    Wal.records

/-- The memtable the first `n` surviving records replay to, tagged with the
newest replayed WAL. -/
def recovered (n : ℕ) : Memtable :=
  (Memtable.new db.wal.id).insertAll
    ((db.replayable.take n).flatMap fun r => versionsFrom r.1 r.2)

/-- The largest seqno recovery finds. -/
def recoveredSeqno (n : ℕ) : ℕ :=
  (((db.replayable.take n).flatMap fun r => versionsFrom r.1 r.2).map Entry.seq).foldr max
    db.manifest.lastFlushedSeqno

/-- The id counter of the next process: above the manifest's counter and every
file on disk.  `orphan` stands for the tables no manifest references. -/
def diskNextFileId (orphan : ℕ) : ℕ :=
  ((db.sealedWals ++ [db.wal]).map Wal.id ++ db.version.vlogs ++
    db.version.runsNewestFirst.flatMap fun r => r.tables.map Table.id).foldr
      (fun id next => max (id + 1) next) (max orphan db.manifest.nextFileId)

/-- The store that opens after a crash or close that left the first `n` WAL
records: levels padded to `maxLevels`, fresh head file and WAL, pins
registered again, and the recovered memtable still to be flushed.  `none` when
a pin lies above the recovered head. -/
def recover (n orphan : ℕ) : Option Db :=
  let maxSeq := db.recoveredSeqno n
  if db.manifest.pins.all fun p => decide (p.2 ≤ maxSeq) then
    let next := db.diskNextFileId orphan
    let pad := opts.maxLevels - db.version.levels.length
    some
      { mem := Memtable.new (next + 1)
        imms := if (db.recovered n).isEmpty then [] else [db.recovered n]
        version :=
          { levels := db.version.levels ++ List.replicate pad []
            vlogs := db.version.vlogs ++ [next], vlogHeadId := next }
        visibleSeqno := maxSeq
        nextFileId := next + 2
        wal := ⟨next + 1, []⟩
        sealedWals := db.sealedWals ++ [db.wal]
        vlog := db.vlog.rotate next
        manifest := db.manifest
        snapshots := db.manifest.pins.map Prod.snd
        defs := []
        published := [] }
  else none

/-- The synchronous recovery flush and the open-completion manifest. -/
def completeOpen : Option Db :=
  (if db.imms.isEmpty then some db else (db.flushOne opts).map Prod.fst).map fun db =>
    { db with
      manifest :=
        { db.manifest with walFloor := db.wal.id, nextFileId := db.nextFileId } }.deleteOldWals
        db.wal.id

/-- The keys under `pre` that a scan at the visible seqno yields, in order. -/
def liveKeys (pre : Bytes) : List Bytes :=
  (sortDedup ((db.stored.map Entry.ukey).filter fun k => decide (pre <+: k))).filter fun k =>
    match db.readView.getVersioned k db.visibleSeqno with
    | some e => decide (e.kind = .put)
    | none => false

/-- Load the persisted trigger definitions into the registry. -/
def loadRegistry : Option Db :=
  ((db.liveKeys DEF_PREFIX).mapM fun k =>
    match db.getAtSeq k db.visibleSeqno with
    | .ok (some value) => decodeDef value
    | _ => none).map fun defs => { db with defs := defs }

/-- Open the store again after a crash or close that left the first `n` WAL
records. -/
def reopen (n orphan : ℕ) : Option Db :=
  ((db.recover opts n orphan).bind fun db => db.completeOpen opts).bind loadRegistry

end Db

end Fluent31
