/-
Durable pins, their calls and their crashes.

`Db::pin` holds its seqno in memory first, then has the WAL synced, and only
then commits a manifest with the pin; `Db::unpin` commits the manifest without
the pin first and releases the hold after that.  Each of these is a step of its
own here, each may fail, and everything else the store does happens in between.

A sync that succeeds makes everything written so far durable, also after one
that failed.  A manifest commit that fails may leave CURRENT naming what it
wrote, until the next commit is through (`loose`); a flush or compaction whose
commit fails and is named all the same is one that commits just before the
crash.  What `CURRENT` may name is on disk as the last commit left it, so that
the floor of that time (`base`) is the one a crash falls back to.  A lost head
may vanish as long as no later commit has synced the directory (`unsynced`).
-/
import Fluent31.VlogFiles

namespace Fluent31

/-- How far a `pin` call is. -/
inductive PinStage
  /-- Its seqno is registered. -/
  | held
  /-- `sync_wal` has found the store healthy. -/
  | checked
  /-- The WAL is synced. -/
  | synced
  deriving DecidableEq

/-- A `pin` call before its manifest commit; it holds its seqno registered. -/
structure PinCall where
  name : Bytes
  seq : ℕ
  stage : PinStage
  deriving DecidableEq

structure PinStore where
  service : Service
  calls : List PinCall
  /-- The seqnos of pins that are deleted durably and still held. -/
  unpins : List ℕ
  /-- The pins of manifests that were not committed and that CURRENT may name. -/
  loose : List (List (Bytes × ℕ))
  /-- Files of a directory entry that no directory sync covers yet. -/
  unsynced : List ℕ
  base : ℕ

inductive PinAction
  /-- An action of the service within one process. -/
  | serve (act : ServiceAction)
  /-- A background failure (`set_bg_error`). -/
  | degrade
  /-- The part of `pin` that registers the seqno.  What `pin` has seen of
  `bg_error` before need not be true any more. -/
  | pinBegin (name : Bytes)
  /-- `sync_wal` looks at `bg_error` and at the shutdown flag. -/
  | pinCheck (i : ℕ) (closing : Bool)
  /-- `sync_wal` syncs the vlog head and the WAL under the write mutex. -/
  | pinSync (i : ℕ) (ok : Bool)
  | pinCommit (i : ℕ) (ok : Bool)
  | unpin (name : Bytes) (ok : Bool)
  /-- The part of `unpin` that releases the hold. -/
  | unpinned (seq : ℕ)
  /-- Another commit of the manifest (a store identity, a pending fork). -/
  | manifest (ok : Bool)
  /-- A crash, and the next open up to its completion manifest, from a manifest
  with `pins`. -/
  | crash (pins : List (Bytes × ℕ)) (n orphan : ℕ) (vanished : List ℕ)
  | crashOpening (id : ℕ)

/-- The step commits a manifest: a flush, a deepen, or the slice that installs
its job's output. -/
def Engine.commits (e e' : Engine) : Action → Bool
  | .flush => !e.db.imms.isEmpty
  | .schedStart => e.sched.any fun s => match s.pending with
    | some (.deepen _ _) => true
    | _ => false
  | .schedSlice => e'.sched.any fun s => s.active.isNone
  | _ => false

/-- The step commits a manifest; a release with nothing to release does not. -/
def Service.commits (s s' : Service) : ServiceAction → Bool
  | .engine a _ => s.engine.commits s'.engine a
  | .gcRetire | .completeOpen => true
  | .release => !s.releasing.isEmpty
  | _ => false

/-- The registered seqno an action takes from its holder. -/
def ServiceAction.consumes : ServiceAction → Option ℕ
  | .engine a _ => a.consumes
  | _ => none

/-- The actions that are one step here as well. -/
def ServiceAction.unsplit : ServiceAction → Bool
  | .engine (.pin _) _ | .engine (.unpin _) _ | .reopen _ _ _ | .crashOpening _ => false
  | _ => true

namespace PinStore

variable (opts : Options) (w : PinStore)

def init : PinStore := ⟨Service.init opts, [], [], [], [], 0⟩

def pins : List (Bytes × ℕ) := w.service.engine.db.manifest.pins

/-- The seqnos that subscriptions, pin calls and unpin calls hold. -/
def holding : List ℕ := w.service.pins ++ (w.calls.map PinCall.seq ++ w.unpins)

/-- The pins of the manifests that CURRENT may name. -/
def manifests : List (List (Bytes × ℕ)) := w.pins :: w.loose

/-- The engine moves on by a registration. -/
def withEngine (e : Engine) : PinStore := { w with service := { w.service with engine := e } }

/-- The engine with other pins in the manifest and other handles. -/
def pinned (pins : List (Bytes × ℕ)) (handles : List ℕ) : Engine :=
  { w.service.engine with
    db := { w.service.engine.db with
      manifest := { w.service.engine.db.manifest with pins := pins } }
    handles := handles }

/-- A manifest commit is through, its directory syncs included. -/
def committed : PinStore := { w with loose := [], unsynced := [], base := w.service.engine.floor }

/-- The service moves on. -/
def served (act : ServiceAction) (s : Service) : PinStore :=
  if w.service.commits s act then { w with service := s }.committed
  else { w with
    service := s
    unsynced := s.lost.filter (fun id => decide (id ∉ w.service.lost)) ++ w.unsynced }

/-- The guard of a pin call that failed releases its hold. -/
def rollback (i : ℕ) (c : PinCall) : Option PinStore :=
  (w.service.engine.step opts (.release c.seq)).map fun e =>
    { w.withEngine e with calls := w.calls.eraseIdx i }

/-- What the directory holds for the next process when CURRENT names a manifest
with `pins`. -/
def onDisk (pins : List (Bytes × ℕ)) : Service :=
  { w.service with
    engine := { w.pinned pins [] with
      db := { (w.pinned pins []).db with snapshots := pins.map Prod.snd }
      sched := none
      queue := []
      floor := w.base }
    releasing := [] }

/-- A call whose name is taken fails before its commit. -/
def taken (name : Bytes) : Bool := w.pins.any fun p => decide (p.1 = name)

def commitPin (i : ℕ) (c : PinCall) (ok : Bool) : Option PinStore :=
  if w.taken c.name then w.rollback opts i c
  else
    let pins := w.pins ++ [(c.name, c.seq)]
    if ok then
      let e := w.pinned pins (w.service.engine.handles.erase c.seq)
      some { w.withEngine e with calls := w.calls.eraseIdx i }.committed
    else (w.rollback opts i c).map fun w => { w with loose := pins :: w.loose }

def commitUnpin (name : Bytes) (ok : Bool) : Option PinStore :=
  (w.pins.find? fun p => decide (p.1 = name)).map fun p =>
    let pins := w.pins.erase p
    if ok then
      let e := w.pinned pins (p.2 :: w.service.engine.handles)
      { w.withEngine e with unpins := p.2 :: w.unpins }.committed
    else { w with loose := pins :: w.loose }

/-- The recovered memtable is flushed within the open: with nothing recovered,
CURRENT is still what the crash left. -/
def crash (pins : List (Bytes × ℕ)) (n orphan : ℕ) (vanished : List ℕ) : Option PinStore :=
  ((w.onDisk pins).reopen opts n orphan vanished).map fun s =>
    { service := s
      calls := []
      unpins := []
      loose := if (w.service.engine.db.recovered n).isEmpty then w.manifests else []
      unsynced := []
      base := s.engine.floor }

def step : PinAction → Option PinStore
  | .serve act =>
    if act.unsplit ∧ ∀ seq ∈ act.consumes, w.holding.count seq <
      w.service.engine.handles.count seq then
      (w.service.step opts act).map (w.served act)
    else none
  | .degrade =>
    if w.service.phase = .running then
      some { w with service := { w.service with degraded := true } } else none
  | .pinBegin name =>
    if w.service.phase = .running then
      (w.service.engine.step opts .snapshot).map fun e =>
        { w.withEngine e with
          calls := w.calls ++ [⟨name, w.service.engine.db.visibleSeqno, .held⟩] }
    else none
  | .pinCheck i closing =>
    (w.calls[i]?).bind fun c =>
      if c.stage = .held then
        if w.service.degraded || closing then w.rollback opts i c
        else some { w with calls := w.calls.set i { c with stage := .checked } }
      else none
  | .pinSync i ok =>
    (w.calls[i]?).bind fun c =>
      if c.stage = .checked ∧ w.service.phase = .running ∧ w.service.publishing = [] then
        if ok then
          some { w with
            service := { w.service with durable := w.service.engine.db.visibleSeqno }
            calls := w.calls.set i { c with stage := .synced } }
        else { w with service := { w.service with degraded := true } }.rollback opts i c
      else none
  | .pinCommit i ok =>
    (w.calls[i]?).bind fun c => if c.stage = .synced then w.commitPin opts i c ok else none
  | .unpin name ok => if w.service.phase = .running then w.commitUnpin name ok else none
  | .unpinned seq =>
    if seq ∈ w.unpins then
      (w.service.engine.step opts (.release seq)).map fun e =>
        { w.withEngine e with unpins := w.unpins.erase seq }
    else none
  | .manifest ok =>
    if w.service.phase = .running then
      some (if ok then w.committed else { w with loose := w.pins :: w.loose })
    else none
  | .crash pins n orphan vanished =>
    if pins ∈ w.manifests ∧ ∀ id ∈ vanished, id ∈ w.unsynced then
      w.crash opts pins n orphan vanished
    else none
  | .crashOpening id =>
    (w.service.step opts (.crashOpening id)).map fun s =>
      { w with service := s, calls := [], unpins := [], unsynced := id :: w.unsynced }

end PinStore

/-- The store with its pins as a transition system. -/
def pinStore (opts : Options) : System PinStore PinAction :=
  ⟨PinStore.init opts, PinStore.step opts⟩

end Fluent31
