/-
The ids of the files of a store (`db.rs`, `compaction.rs`, `fork.rs`).

Tables, value log files and WALs take their ids from one counter.  Some manifest
commits record it; `open` derives it again from the manifest and from the names
in the directory.  Value logs and WALs made by a rotation are in no manifest
until the next open adopts them, files the manifest no longer names are unlinked
behind the commit, and the files an interrupted flush, compaction or collection
left behind at the end of `open`.  The directory applies its operations in order
and may lose those since its last sync; a WAL may lose its last records.

The threads are one process whose steps interleave.  A rotation holds the write
mutex to its end, and a commit the manifest mutex.  A level is the set of its
tables.  A directory without CURRENT is initialised again and starts here as
`StoreDir.fresh`; a fork starts as the archive that `create` has renamed.
-/
import Fluent31.Lib.System
import Fluent31.Lib.Unsynced
import Mathlib.Data.List.Sort
import Mathlib.Logic.Function.Basic

namespace Fluent31

inductive FileKind
  | sst
  | vlog
  | wal
  deriving DecidableEq

abbrev StoreFile := FileKind × ℕ

/-- The part of `ManifestData` that names files or decides which are kept. -/
structure FileManifest where
  nextFileId : ℕ
  lastFlushedSeqno : ℕ
  walFloor : ℕ
  /-- The tables of all levels. -/
  tables : List ℕ
  vlogLive : List ℕ
  vlogHead : ℕ
  /-- Retired files, each with the seqno it was retired at. -/
  vlogRetired : List (ℕ × ℕ)
  deriving DecidableEq

def FileManifest.retiredIds (m : FileManifest) : List ℕ := m.vlogRetired.map Prod.fst

/-- A record of a WAL: its last seqno, and the value log files it points into. -/
structure LogRecord where
  seqno : ℕ
  ptrs : List ℕ
  deriving DecidableEq

/-- The names in the directory, and the manifest CURRENT names. -/
structure StoreDir where
  files : List StoreFile
  manifests : List ℕ
  gen : ℕ
  data : FileManifest
  deriving DecidableEq

namespace StoreDir

variable (d : StoreDir)

/-! ### Directory operations -/

def create (f : StoreFile) : StoreDir := { d with files := f :: d.files }

def unlink (f : StoreFile) : StoreDir := { d with files := d.files.filter (· ≠ f) }

def save (gen : ℕ) : StoreDir := { d with manifests := gen :: d.manifests }

def sweep (gen : ℕ) : StoreDir := { d with manifests := d.manifests.filter (· ≠ gen) }

/-- CURRENT is replaced. -/
def flip (gen : ℕ) (data : FileManifest) : StoreDir := { d with gen := gen, data := data }

/-- `init_fresh`. -/
def fresh : StoreDir := ⟨[], [1], 1, ⟨1, 0, 0, [], [], 0, []⟩⟩

/-! ### What `open` reads -/

def ids (kind : FileKind) : List ℕ := (d.files.filter fun f => f.1 = kind).map Prod.snd

/-- Young value logs: created since the manifest's head was recorded. -/
def Young (id : ℕ) : Prop := d.data.vlogHead ≤ id ∧ id ∉ d.data.retiredIds

instance (id : ℕ) : Decidable (d.Young id) := inferInstanceAs (Decidable (_ ∧ _))

/-- The recovered map of value logs: the live ones of the manifest, the retired
ones that still exist, and the young ones of the directory. -/
def liveVlogs : List ℕ :=
  d.data.vlogLive ++ d.data.retiredIds.filter (fun id => id ∈ d.ids .vlog) ++
    (d.ids .vlog).filter (fun id => d.Young id ∧ id ∉ d.data.vlogLive)

/-- The id counter a recovery starts from. -/
def recoverNext : ℕ :=
  (d.liveVlogs.filter (fun id => d.Young id) ++ d.ids .wal ++ d.ids .sst).foldl
    (fun n id => max n (id + 1)) (max d.data.nextFileId 1)

/-- The WALs to replay, in order. -/
def walIds : List ℕ := ((d.ids .wal).filter (fun id => d.data.walFloor ≤ id)).insertionSort (· ≤ ·)

/-- The replayed records: all up to the first whose value never became durable. -/
def replayed (wals : ℕ → List LogRecord) (k : ℕ) : List LogRecord := (d.walIds.flatMap wals).take k

/-- Nothing `open` looks for is missing. -/
def Openable (wals : ℕ → List LogRecord) (k : ℕ) : Prop :=
  d.gen ∈ d.manifests ∧ (∀ t ∈ d.data.tables, t ∈ d.ids .sst) ∧
    (∀ v ∈ d.data.vlogLive, v ∈ d.ids .vlog) ∧
    ∀ r ∈ d.replayed wals k, ∀ v ∈ r.ptrs, v ∈ d.liveVlogs

instance (wals : ℕ → List LogRecord) (k : ℕ) : Decidable (d.Openable wals k) :=
  inferInstanceAs (Decidable (_ ∧ _ ∧ _ ∧ _))

/-- What `startup_gc` deletes. -/
def Orphan (data : FileManifest) : StoreFile → Prop
  | (.sst, id) => id ∉ data.tables
  | (.vlog, id) => id ∉ data.vlogLive ∧ id ∉ data.retiredIds
  | (.wal, id) => id < data.walFloor

instance (data : FileManifest) : (f : StoreFile) → Decidable (Orphan data f)
  | (.sst, id) => inferInstanceAs (Decidable (id ∉ data.tables))
  | (.vlog, id) => inferInstanceAs (Decidable (id ∉ data.vlogLive ∧ id ∉ data.retiredIds))
  | (.wal, id) => inferInstanceAs (Decidable (id < data.walFloor))

end StoreDir

/-! ### The process -/

/-- How far `open` has come. -/
inductive OpenStage
  | createHead
  | createWal
  | syncFresh
  /-- The recovered memtable is flushed and the completion manifest committed. -/
  | recover
  | startupGc
  | running
  deriving DecidableEq

/-- The head and the WAL of this process are durable. -/
def OpenStage.anchored : OpenStage → Bool
  | .recover | .startupGc | .running => true
  | _ => false

/-- The completion manifest is committed. -/
def OpenStage.completed : OpenStage → Bool
  | .startupGc | .running => true
  | _ => false

/-- The files of a `Version`. -/
structure FileVersion where
  tables : List ℕ
  vlogs : List ℕ
  deriving DecidableEq

def FileVersion.files (q : FileVersion) : List StoreFile :=
  q.tables.map (FileKind.sst, ·) ++ q.vlogs.map (FileKind.vlog, ·)

/-- A change that a manifest commit makes. -/
inductive ManifestChange
  /-- `flush_one`: the tables of the oldest immutable memtable. -/
  | flush (outs : List ℕ)
  /-- `install` and `install_deepen`. -/
  | install (drop add : List ℕ)
  /-- `gc_vlog`: the victim is retired. -/
  | retire
  /-- `process_retired`. -/
  | release (ids : List ℕ)
  /-- The open-completion manifest. -/
  | complete
  /-- Pins and trigger state: no file changes. -/
  | other
  deriving DecidableEq

/-- The value logs a commit lets go. -/
def ManifestChange.released : ManifestChange → List ℕ
  | .release ids => ids
  | _ => []

/-- The tables a commit lets go. -/
def ManifestChange.dropped : ManifestChange → List ℕ
  | .install drop _ => drop
  | _ => []

/-- How far the commit has come: the manifest file is written, its directory
entry is durable, CURRENT names it. -/
inductive SavePhase
  | written
  | synced
  | flipped
  deriving DecidableEq

structure FileCommit where
  change : ManifestChange
  data : FileManifest
  deriving DecidableEq

/-- A rotation under the write mutex: the file it made, and whether the directory
has been synced since. -/
structure Rotation where
  file : StoreFile
  synced : Bool
  deriving DecidableEq

structure FileProcess where
  stage : OpenStage
  /-- `next_file_id`. -/
  next : ℕ
  gen : ℕ
  /-- The manifest as last committed. -/
  data : FileManifest
  /-- The published version. -/
  version : FileVersion
  /-- Older versions that readers hold. -/
  pinned : List FileVersion
  head : ℕ
  /-- The append target. -/
  wal : ℕ
  /-- The immutable memtables, newest first: the WAL of each and its highest
  seqno. -/
  imms : List (ℕ × Option ℕ)
  visible : ℕ
  /-- Ids handed out that no file has yet. -/
  allocated : List ℕ
  /-- Tables written that no manifest names yet. -/
  outputs : List ℕ
  rotating : Option Rotation
  /-- The file a collection relocates from, and the seqno it read behind that. -/
  victim : Option (ℕ × Option ℕ)
  /-- The commit in progress. -/
  commit : Option FileCommit
  phase : SavePhase
  /-- Files marked obsolete. -/
  garbage : List StoreFile
  deriving DecidableEq

namespace FileProcess

/-- `open` up to the creation of its first file. -/
def start (d : StoreDir) (wals : ℕ → List LogRecord) (k : ℕ) : FileProcess where
  stage := .createHead
  next := d.recoverNext
  gen := d.gen
  data := d.data
  version := ⟨d.data.tables, d.liveVlogs⟩
  pinned := []
  head := 0
  wal := 0
  imms :=
    if d.replayed wals k = [] then []
    else [(d.walIds.getLast?.getD 0, some (((d.replayed wals k).map LogRecord.seqno).foldl max 0))]
  visible := ((d.replayed wals k).map LogRecord.seqno).foldl max d.data.lastFlushedSeqno
  allocated := []
  outputs := []
  rotating := none
  victim := none
  commit := none
  phase := .written
  garbage := []

variable (p : FileProcess)

/-- The manifest a change leads to, when the process may begin it. -/
def revise : ManifestChange → Option FileManifest
  | .flush outs =>
    match p.imms.getLast? with
    | none => none
    | some (w, seq) =>
      if p.stage ∈ [.recover, .running] ∧ (∀ t ∈ outs, t ∈ p.outputs) ∧ (seq = none →
        outs = []) then
        some { p.data with
          tables := outs ++ p.data.tables
          lastFlushedSeqno := max p.data.lastFlushedSeqno (seq.getD 0)
          walFloor := max p.data.walFloor (w + 1)
          nextFileId := p.next }
      else none
  | .install drop add =>
    if p.stage = .running ∧ (∀ t ∈ drop, t ∈ p.version.tables) ∧ (∀ t ∈ add, t ∈ p.outputs) then
      some { p.data with tables := add ++ p.data.tables.filter (· ∉ drop), nextFileId := p.next }
    else none
  | .retire =>
    match p.victim with
    | some (v, some seq) => some { p.data with
        vlogLive := p.data.vlogLive.filter (· ≠ v)
        vlogRetired := p.data.vlogRetired ++ [(v, seq)] }
    | _ => none
  | .release ids =>
    -- the watermark gate only makes this rarer
    if p.stage = .running ∧ (∀ v ∈ ids, v ∈ p.data.retiredIds) ∧
        ∀ r ∈ p.data.vlogRetired, r.1 ∈ ids → r.2 ≤ p.data.lastFlushedSeqno then
      some { p.data with vlogRetired := p.data.vlogRetired.filter (·.1 ∉ ids) }
    else none
  | .complete =>
    if p.stage = .recover ∧ p.imms = [] ∧ p.outputs = [] then
      some { p.data with
        walFloor := p.wal
        vlogLive := p.version.vlogs.filter (· ∉ p.data.retiredIds)
        vlogHead := p.head
        nextFileId := p.next }
    else none
  | .other => if p.stage = .running then some p.data else none

/-- The commit begins with the data it will write. -/
def begun (change : ManifestChange) (data : FileManifest) : FileProcess :=
  { p with
    commit := some ⟨change, data⟩
    phase := .written
    outputs := p.outputs.filter (· ∉ data.tables)
    victim := if change = .retire then none else p.victim }

/-- The commit has returned: the version follows, and what it no longer names is
marked obsolete. -/
def publish (c : FileCommit) : FileProcess :=
  { p with
    stage := if c.change = .complete then .startupGc else p.stage
    gen := p.gen + 1
    data := c.data
    version := ⟨c.data.tables, p.version.vlogs.filter (· ∉ c.change.released)⟩
    imms := match c.change with
      | .flush _ => p.imms.dropLast
      | _ => p.imms
    commit := none
    garbage := p.garbage ++ c.change.dropped.map (FileKind.sst, ·) ++ c.change.released.map
      (FileKind.vlog, ·) }

/-- The steps of a running store, and those of a flush inside `open`. -/
def working : Bool := p.stage = .running || p.stage = .recover && p.commit = none

end FileProcess

structure FileStore where
  disk : Unsynced StoreDir
  /-- The records of the WAL files. -/
  wals : ℕ → List LogRecord
  proc : Option FileProcess
  /-- The WALs that were an append target at some time. -/
  targets : List ℕ
  /-- A `create_new` found its file there. -/
  collided : Bool
  /-- An `open` did not find a file it needs. -/
  missing : Bool

inductive FileAction
  /-- `open`: `k` records are replayed. -/
  | open (k : ℕ)
  /-- `manifest::sweep` deletes a generation. -/
  | sweep (gen : ℕ)
  | createHead
  | createWal
  | syncFresh
  | alloc
  | createTable (id : ℕ)
  | syncDir
  /-- `rotate_memtable_locked` and `rotate_vlog_locked`: the new file. -/
  | rotate (kind : FileKind)
  | rotateSync
  | adopt
  /-- A commit of `n + 1` entries. -/
  | append (n : ℕ) (large : Bool)
  /-- `gc_vlog` picks its victim. -/
  | pick (v : ℕ)
  /-- It reads the seqno to retire the victim at. -/
  | sample
  | begin (change : ManifestChange)
  | saved
  | flip
  | done
  /-- `delete_old_wals` deletes a WAL. -/
  | deleteOldWal (id : ℕ)
  /-- `startup_gc` deletes a file. -/
  | startupGc (f : StoreFile)
  | started
  /-- A reader holds the published version; a reader lets one go. -/
  | pin
  | unpin (i : ℕ)
  /-- The last version that names an obsolete file is gone. -/
  | unlinkGarbage (f : StoreFile)
  /-- The process ends in any way. -/
  | exit
  /-- The power goes: `n` directory operations since the last sync are kept, and
  `keep id` records of each WAL. -/
  | crash (n : ℕ) (keep : ℕ → ℕ)

namespace FileStore

variable (s : FileStore)

/-- `create_new` by the process, which goes on as `p`. -/
def createNew (f : StoreFile) (p : FileProcess) : FileStore :=
  { s with
    disk := s.disk.push (·.create f)
    wals := if f.1 = .wal then Function.update s.wals f.2 [] else s.wals
    proc := some p
    collided := s.collided || decide (f ∈ s.disk.view.files) }

/-- A step of the process. -/
def act (p : FileProcess) : FileAction → Option FileStore
  | .sweep gen =>
    if gen < p.gen ∨ p.stage = .createHead ∧ gen ≠ p.gen then
      some { s with disk := s.disk.push (·.sweep gen) }
    else none
  | .createHead =>
    if p.stage = .createHead then
      some (s.createNew (.vlog, p.next) { p with
        stage := .createWal
        next := p.next + 1
        head := p.next
        version := { p.version with vlogs := p.next :: p.version.vlogs } })
    else none
  | .createWal =>
    if p.stage = .createWal then
      some (s.createNew (.wal, p.next)
        { p with stage := .syncFresh, next := p.next + 1, wal := p.next })
    else none
  | .syncFresh =>
    if p.stage = .syncFresh then
      some { s with
        disk := s.disk.sync
        proc := some { p with stage := .recover }
        targets := p.wal :: s.targets }
    else none
  | .alloc =>
    if p.working then
      some { s with proc := some { p with next := p.next + 1, allocated := p.next :: p.allocated } }
    else none
  | .createTable id =>
    if p.working ∧ id ∈ p.allocated then
      some (s.createNew (.sst, id) { p with
        allocated := p.allocated.filter (· ≠ id), outputs := id :: p.outputs })
    else none
  | .syncDir => if p.stage.anchored then some { s with disk := s.disk.sync } else none
  | .rotate kind =>
    if p.stage = .running ∧ p.rotating = none ∧ kind ≠ .sst then
      some (s.createNew
        (kind, p.next) { p with next := p.next + 1, rotating := some ⟨(kind, p.next), false⟩ })
    else none
  | .rotateSync =>
    match p.rotating with
    | none => none
    | some r =>
      some
        { s with
          disk := s.disk.sync
          proc := some { p with rotating := some { r with synced := true } } }
  | .adopt =>
    match p.rotating with
    | some ⟨(.wal, id), true⟩ =>
      some { s with
        proc := some { p with
          rotating := none
          wal := id
          imms := (p.wal, if s.wals p.wal = [] then none else some p.visible) :: p.imms }
        targets := id :: s.targets }
    | some ⟨(.vlog, id), true⟩ =>
      some { s with
        proc := some { p with
          rotating := none
          head := id
          version := { p.version with vlogs := id :: p.version.vlogs } } }
    | _ => none
  | .append n large =>
    if p.stage = .running ∧ p.rotating = none then
      some { s with
        wals := Function.update s.wals p.wal
          (s.wals p.wal ++ [⟨p.visible + n + 1, if large then [p.head] else []⟩])
        proc := some { p with visible := p.visible + n + 1 } }
    else none
  | .pick v =>
    if p.stage = .running ∧ p.commit = none ∧ p.victim = none ∧ v ∈ p.version.vlogs ∧ v ≠ p.head ∧
        v ∉ p.data.retiredIds then
      some { s with proc := some { p with victim := some (v, none) } }
    else none
  | .sample =>
    if p.stage = .running then
      some { s with proc := some { p with victim := p.victim.map fun x => (x.1, some p.visible) } }
    else none
  | .begin change =>
    if p.stage.anchored ∧ p.commit = none then
      (p.revise change).map fun data =>
        { s with disk := s.disk.push (·.save (p.gen + 1)), proc := some (p.begun change data) }
    else none
  | .saved =>
    if p.commit ≠ none ∧ p.phase = .written then
      some { s with disk := s.disk.sync, proc := some { p with phase := .synced } }
    else none
  | .flip =>
    match p.commit with
    | none => none
    | some c =>
      if p.phase = .synced then
        some { s with
          disk := s.disk.push (·.flip (p.gen + 1) c.data)
          proc := some { p with phase := .flipped } }
      else none
  | .done =>
    match p.commit with
    | none => none
    | some c =>
      if p.phase = .flipped then some { s with disk := s.disk.sync, proc := some (p.publish c) }
      else none
  | .deleteOldWal id =>
    if p.stage.anchored ∧ id < p.data.walFloor then
      some { s with disk := s.disk.push (·.unlink (.wal, id)) } else none
  | .startupGc f =>
    if p.stage = .startupGc ∧ f ∈ s.disk.view.files ∧ StoreDir.Orphan p.data f then
      some { s with disk := s.disk.push (·.unlink f) }
    else none
  | .started =>
    if p.stage = .startupGc then some { s with proc := some { p with stage := .running } } else none
  | .pin =>
    if p.stage = .running then
      some { s with proc := some { p with pinned := p.version :: p.pinned } } else none
  | .unpin i =>
    if p.stage = .running then some { s with proc := some { p with pinned := p.pinned.eraseIdx i } }
    else none
  | .unlinkGarbage f =>
    if f ∈ p.garbage ∧ ∀ q ∈ p.pinned, f ∉ q.files then
      some { s with
        disk := s.disk.push (·.unlink f)
        proc := some { p with garbage := p.garbage.filter (· ≠ f) } }
    else none
  | .exit => some { s with proc := none }
  | .open _ | .crash _ _ => none

def step : FileAction → Option FileStore
  | .open k =>
    if s.proc ≠ none then none
    else if s.disk.view.Openable s.wals k then
      some { s with proc := some (.start s.disk.view s.wals k) }
    else some { s with missing := true }
  | .crash n keep =>
    some
      { s with disk := s.disk.crash n, wals := fun id => (s.wals id).take (keep id), proc := none }
  | a => s.proc.bind fun p => s.act p a

def init (d : StoreDir) : FileStore := ⟨⟨d, []⟩, fun _ => [], none, [], false, false⟩

end FileStore

/-- The runs of a store whose directory starts as `d`. -/
def fileStore (d : StoreDir) : System FileStore FileAction := ⟨FileStore.init d, FileStore.step⟩

/-- The archive of a fork. -/
def FileProcess.archive (p : FileProcess) (tables : List ℕ) (next cut : ℕ) : StoreDir where
  files := (FileVersion.mk tables p.version.vlogs).files
  manifests := [1]
  gen := 1
  data := ⟨next, cut, next, tables, p.version.vlogs, p.head, []⟩

/-- The directories a store can start with. -/
inductive StoreDir.Origin : StoreDir → Prop
  | fresh : Origin .fresh
  /-- A fork at the flushed head. -/
  | head {d : StoreDir} {s : FileStore} {p : FileProcess} :
      Origin d → (fileStore d).Reachable s → s.proc = some p → p.stage = .running →
        p.commit = none →
      Origin (p.archive p.version.tables p.data.nextFileId p.data.lastFlushedSeqno)
  /-- A fork at an earlier seqno: its tables are written anew. -/
  | point {d : StoreDir} {s : FileStore} {p : FileProcess} {tables : List ℕ} {next cut : ℕ} :
      Origin d → (fileStore d).Reachable s → s.proc = some p → p.stage = .running → p.next ≤ next →
      (∀ t ∈ tables, t < next) → Origin (p.archive tables next cut)

end Fluent31
