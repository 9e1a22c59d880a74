/-
A store in service: its value-log files, the collector and the subscriptions.

`Engine` never forgets a value-log file.  Here the files have their life: the
resolution map (`Version::vlogs`), the directory, the manifest's live set, head
and retired victims, the collector's pass (`gc_vlog`), the release of retired
files (`process_retired`) and recovery's classification of what it finds.  The
head rotation that follows a write may fail at its directory sync: the value log
then appends to a file the map does not name, and the store is degraded.

The deletion gates are read one after the other, the watermark first; whatever
registers, flushes or commits goes on between the two reads and before the list of
retired files is walked.

Beside them stand the subscriptions, and the read views that iterators hold on
to.  A service state remembers four things no action reads: the seqno up to
which the collector has synced the WAL (a crash keeps at least that), the base
seqnos of the relocation commits, the heads that rotations lost, and the largest
retirement seqno of a file that passed the gates.
-/
import Fluent31.Frame
import Fluent31.Subscription
import Mathlib.Data.List.Perm.Basic

namespace Fluent31

/-- The manifest's value-log fields. -/
structure VlogManifest where
  live : List ℕ
  head : ℕ
  /-- Retired victims, each with its retirement seqno. -/
  retired : List (ℕ × ℕ)
  deriving DecidableEq

namespace VlogManifest

def retiredIds (m : VlogManifest) : List ℕ := m.retired.map Prod.fst

/-- The files recovery makes resolvable: live ones, retired ones and young ones,
which no manifest knows yet. -/
def adopt (m : VlogManifest) (disk : List ℕ) : List ℕ :=
  m.live ++ m.retiredIds.filter (fun id => decide (id ∈ disk)) ++
    disk.filter fun id => decide (m.head ≤ id ∧ id ∉ m.live ∧ id ∉ m.retiredIds)

end VlogManifest

/-- A pass of the collector: the chunks of the victim's records still to
relocate. -/
structure Pass where
  victim : ℕ
  todo : List (List VlogRecord)
  synced : Bool
  deriving DecidableEq

/-- The records of a value-log file. -/
def Vlog.scanRecords (v : Vlog) (file : ℕ) : List VlogRecord :=
  v.records.filter fun r => decide (r.ptr.file = file)

/-- The chunks `gc_vlog` works in: 256 records each, in key order. -/
def gcChunks (v : Vlog) (file : ℕ) : List (List VlogRecord) :=
  ((v.scanRecords file).mergeSort fun r r' => decide (r.key ≤ r'.key)).toChunks 256

/-- What `process_retired` has read of its gates. -/
inductive Gate
  | idle
  /-- The snapshot watermark. -/
  | watermark (w : ℕ)
  /-- The flush watermark as well. -/
  | flushed (w f : ℕ)
  deriving DecidableEq

/-- The snapshot watermark that was read. -/
def Gate.watermark? : Gate → Option ℕ
  | idle => none
  | watermark w => some w
  | flushed w _ => some w

inductive Phase
  | running
  /-- Recovery is past its flush; the completion manifest is still to come. -/
  | opening
  /-- A crash hit recovery before its flush. -/
  | down
  deriving DecidableEq

structure Service where
  engine : Engine
  phase : Phase
  degraded : Bool
  /-- The resolution map. -/
  vlogs : List ℕ
  /-- The map's head, which differs from the append target after a head
  rotation that failed. -/
  vlogHead : ℕ
  /-- The value-log files in the directory. -/
  disk : List ℕ
  manifest : VlogManifest
  /-- The victims waiting for their deletion gates. -/
  retired : List (ℕ × ℕ)
  gate : Gate
  /-- Victims past their gates, still in the manifest. -/
  releasing : List (ℕ × ℕ)
  /-- Released files that are not unlinked yet. -/
  obsolete : List ℕ
  pass : Option Pass
  /-- Read views held by iterators, with the seqno they read at. -/
  views : List (ReadView × ℕ)
  subs : List Subscription
  /-- The publisher's fast flag. -/
  subsActive : Bool
  /-- Batches of the holder of the write mutex that are still to be offered. -/
  publishing : List (ℕ × List EncEntry)
  durable : ℕ
  relocated : List ℕ
  lost : List ℕ
  released : ℕ

inductive ServiceAction
  /-- An action of the engine; a head rotation in it may fail. -/
  | engine (a : Action) (headFault : Bool)
  | publish
  | gcPick (victim : ℕ) (chunks : List (List VlogRecord))
  | gcChunk (headFault : Bool)
  | gcAbort
  | gcSync
  | gcRetire
  /-- `process_retired` reads the snapshot watermark, -/
  | gateWatermark
  /-- then, under the manifest lock, the flush watermark, -/
  | gateFlushed
  /-- and takes the retired files that pass both out of their list. -/
  | gates
  | release
  | unlink (id : ℕ)
  | openView (seq : Option ℕ)
  | closeView (i : ℕ)
  | subscribe (lo : Bytes) (hi : Option Bytes) (maxBytes : ℕ)
  | check (i : ℕ)
  | drain (i : ℕ)
  | deliver (i : ℕ)
  | close (i : ℕ)
  | reopen (n orphan : ℕ) (vanished : List ℕ)
  | crashOpening (id : ℕ)
  | completeOpen

/-- The actions that are no part of the service's own ones. -/
def Action.serves : Action → Bool
  | .reopen _ _ | .relocate _ => false
  | _ => true

/-- The actions that run under the write mutex. -/
def Action.writes : Action → Bool
  | .commit _ | .group _ | .rotate => true
  | _ => false

namespace Service

variable (opts : Options) (s : Service)

/-- The store as its readers see it. -/
def db : Db := { s.engine.db with version := { s.engine.db.version with vlogs := s.vlogs } }

/-- The pins of the open subscriptions. -/
def pins : List ℕ := (s.subs.filter fun sub => !sub.closed).map Subscription.pinned

/-- A registration that is not a subscription's pin. -/
def Free (seq : ℕ) : Prop := s.pins.count seq < s.engine.handles.count seq

instance (seq : ℕ) : Decidable (s.Free seq) := inferInstanceAs (Decidable (_ < _))

def init : Service where
  engine := Engine.init opts
  phase := .running
  degraded := false
  vlogs := [1]
  vlogHead := 1
  disk := [1]
  manifest := ⟨[1], 1, []⟩
  retired := []
  gate := .idle
  releasing := []
  obsolete := []
  pass := none
  views := []
  subs := []
  subsActive := false
  publishing := []
  durable := 0
  relocated := []
  lost := []
  released := 0

/-- The engine moves on; a head rotation puts the fresh head into the map, unless
it fails at its directory sync. -/
def moved (e' : Engine) (headFault : Bool) : Service :=
  let head := e'.db.vlog.headId
  let rotated := decide (head ≠ s.engine.db.vlog.headId)
  { s with
    engine := e'
    degraded := s.degraded || (rotated && headFault)
    vlogs := if rotated && !headFault then s.vlogs ++ [head] else s.vlogs
    vlogHead := if rotated && !headFault then head else s.vlogHead
    disk := if rotated then s.disk ++ [head] else s.disk
    publishing := s.publishing ++ e'.db.published.drop s.engine.db.published.length
    lost := if rotated && headFault then head :: s.lost else s.lost }

/-- One chunk of a pass: relocate its live records. -/
def relocate (p : Pass) (chunk : List VlogRecord) (todo : List (List VlogRecord))
    (headFault : Bool) :
    Option Service :=
  let ops := relocationOps s.engine.db chunk
  let applied := !ops.isEmpty && (s.engine.db.applyLocked opts ops false).2.isOk
  (s.engine.step opts (.relocate chunk)).map fun e' =>
    { s.moved e' headFault with
      pass := if ops.isEmpty || applied then some { p with todo := todo } else none
      relocated := if applied then (s.engine.db.visibleSeqno + 1) :: s.relocated else s.relocated }

/-- Whether a retired file passes both deletion gates. -/
def passesGates (w f : ℕ) (r : ℕ × ℕ) : Bool := decide (r.2 < w ∧ r.2 ≤ f)

/-- The retired files that pass. -/
def ready (w f : ℕ) : List (ℕ × ℕ) := s.retired.filter (passesGates w f)

/-- The pointers in the records that recovery replays. -/
def replayPointers (n : ℕ) : List ValuePtr :=
  (batchVersions (s.engine.db.replayable.take n)).filterMap fun e =>
    match e.repr with
    | .ptr p => some p
    | _ => none

/-- A crash or close, and the next open up to its completion manifest.  `n` WAL
records survived, and the files `vanished` never had a durable directory entry. -/
def reopen (n orphan : ℕ) (vanished : List ℕ) : Option Service :=
  (s.engine.reopen opts n orphan).bind fun e' =>
    let disk := s.disk.filter fun id => decide (id ∉ vanished)
    let head := e'.db.vlog.headId
    let vlogs := s.manifest.adopt disk
    if s.durable ≤ s.engine.db.recoveredSeqno n ∧ (∀ id ∈ vanished, id ∉ s.vlogs) ∧ (∀ id ∈ disk,
      id < head) then
      if (∀ id ∈ s.manifest.live, id ∈ disk) ∧ ∀ p ∈ s.replayPointers n, p.file ∈ vlogs then
        some { s with
          engine := e'
          phase := .opening
          degraded := false
          vlogs := vlogs ++ [head]
          vlogHead := head
          disk := disk ++ [head]
          retired := s.manifest.retired.filter fun r => decide (r.1 ∈ disk)
          gate := .idle
          releasing := []
          obsolete := []
          pass := none
          views := []
          subs := []
          subsActive := false
          publishing := []
          relocated := s.relocated.filter fun base => decide (base ≤ e'.db.visibleSeqno) }
      else none
    else none

/-- Guarded update. -/
def guarded (p : Prop) [Decidable p] (s' : Service) : Option Service := if p then some s' else none

/-- One subscription changes. -/
def setSub (i : ℕ) (sub : Subscription) : Service := { s with subs := s.subs.set i sub }

/-- The pin of a subscription moves, and the subscription with it. -/
def repin (i : ℕ) (a : Action) (sub : Subscription) : Option Service :=
  (s.engine.step opts a).map fun e' => { s.setSub i sub with engine := e' }

def step : ServiceAction → Option Service
  | .engine a headFault =>
    if s.phase = .running ∧ a.serves ∧ (a.writes → s.publishing = []) ∧ ∀ seq ∈ a.consumes,
      s.Free seq then
      (s.engine.step opts a).map fun e' => s.moved e' headFault
    else none
  | .publish =>
    match s.publishing with
    | [] => none
    | r :: rest =>
      let p := publishStream s.subs s.subsActive r.1 r.2
      some { s with subs := p.1, subsActive := p.2, publishing := rest }
  | .gcPick victim chunks =>
    guarded (s.phase = .running ∧ s.degraded = false ∧ s.pass = none ∧ victim ∈ s.vlogs ∧
        victim ≠ s.vlogHead ∧ victim ∉ s.manifest.retiredIds ∧
        chunks.flatten.Perm (s.engine.db.vlog.scanRecords victim))
      { s with pass := some ⟨victim, chunks, false⟩ }
  | .gcChunk headFault =>
    s.pass.bind fun p =>
      match p.todo with
      | [] => none
      | chunk :: todo => if s.publishing = [] then s.relocate opts p chunk todo headFault else none
  | .gcAbort => some { s with pass := none }
  | .gcSync =>
    s.pass.bind fun p => guarded (p.todo = [] ∧ s.publishing = [])
      { s with pass := some { p with synced := true }, durable := s.engine.db.visibleSeqno }
  | .gcRetire =>
    s.pass.bind fun p => guarded (p.synced = true)
      { s with
        pass := none
        manifest := { s.manifest with
          live := s.manifest.live.filter fun id => decide (id ≠ p.victim)
          retired := s.manifest.retired ++ [(p.victim, s.engine.db.visibleSeqno)] }
        retired := s.retired ++ [(p.victim, s.engine.db.visibleSeqno)] }
  | .gateWatermark =>
    guarded (s.phase = .running ∧ s.releasing = [] ∧ s.gate = .idle)
      { s with gate := .watermark s.engine.db.watermark }
  | .gateFlushed =>
    match s.gate with
    | .watermark w => some { s with gate := .flushed w s.engine.db.manifest.lastFlushedSeqno }
    | _ => none
  | .gates =>
    match s.gate with
    | .flushed w f =>
      some { s with
        gate := .idle
        releasing := s.ready w f
        retired := s.retired.filter fun r => !passesGates w f r
        released := ((s.ready w f).map Prod.snd).foldl max s.released }
    | _ => none
  | .release =>
    some { s with
      manifest := { s.manifest with
        retired := s.manifest.retired.filter fun r => decide (r.1 ∉ s.releasing.map Prod.fst) }
      vlogs := s.vlogs.filter fun id => decide (id ∉ s.releasing.map Prod.fst)
      obsolete := s.obsolete ++ s.releasing.map Prod.fst
      releasing := [] }
  | .unlink id =>
    guarded (id ∈ s.obsolete ∧ ∀ v ∈ s.views, id ∉ v.1.version.vlogs)
      { s with
        disk := s.disk.filter fun i => decide (i ≠ id)
        obsolete := s.obsolete.filter fun i => decide (i ≠ id) }
  | .openView seq =>
    guarded (s.phase = .running ∧ ∀ t ∈ seq, t ∈ s.engine.handles)
      { s with views := s.views ++
        [(s.db.readView, min (seq.getD s.engine.db.visibleSeqno) s.engine.db.visibleSeqno)] }
  | .closeView i => some { s with views := s.views.eraseIdx i }
  | .subscribe lo hi maxBytes =>
    let lo := if USER_KEYSPACE_START ≤ lo then lo else USER_KEYSPACE_START
    if s.phase = .running ∧ s.degraded = false ∧ s.publishing = [] ∧ ∀ h ∈ hi, lo < h then
      (s.engine.step opts .snapshot).map fun e' =>
        { s with
          engine := e'
          subs := s.subs ++ [.new lo hi maxBytes s.engine.db.visibleSeqno]
          subsActive := true }
    else none
  | .check i =>
    (s.subs[i]?).bind fun sub =>
      guarded (sub.closed = false ∧ sub.checked = false ∧ sub.taken = [])
        (s.setSub i (sub.check s.degraded))
  | .drain i =>
    (s.subs[i]?).bind fun sub => guarded (sub.closed = false ∧ sub.checked = true)
      (s.setSub i sub.drain)
  | .deliver i =>
    (s.subs[i]?).bind fun sub =>
      if sub.closed = false ∧ sub.taken ≠ [] then
        match sub.taken.mapM (RawEntry.resolve s.db) with
        | .ok out => s.repin opts i (.advance sub.pinned sub.lastTaken) (sub.deliver out)
        | .error _ => some (s.setSub i sub.kill)
      else none
  | .close i =>
    (s.subs[i]?).bind fun sub =>
      if sub.closed = false ∧ sub.checked = false ∧ sub.taken = [] then
        (s.repin opts i (.release sub.pinned) sub.close).map fun s' =>
          { s' with subsActive := s'.subs.any Subscription.attached }
      else none
  | .reopen n orphan vanished => s.reopen opts n orphan vanished
  | .crashOpening id =>
    guarded (s.engine.db.nextFileId ≤ id ∧ id ∉ s.disk)
      { s with
        phase := .down
        disk := s.disk ++ [id]
        gate := .idle
        releasing := []
        obsolete := []
        pass := none
        views := []
        subs := []
        subsActive := false
        publishing := [] }
  | .completeOpen =>
    let live := s.vlogs.filter fun id => decide (id ∉ s.manifest.retiredIds)
    guarded (s.phase = .opening)
      { s with
        phase := .running
        manifest := { s.manifest with live := live, head := s.engine.db.vlog.headId }
        disk := s.disk.filter fun id => decide (id ∈ live ∨ id ∈ s.manifest.retiredIds) }

end Service

/-- The service as a transition system. -/
def service (opts : Options) : System Service ServiceAction :=
  ⟨Service.init opts, Service.step opts⟩

end Fluent31
