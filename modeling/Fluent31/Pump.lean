/-
The pump behind a GraphQL subscription (`subscriptions.rs`).

One thread drains an engine subscription, pins a snapshot at the commit boundary
of every op it reports, and pushes items into a bounded channel.  It runs beside
a store in service; whoever else works with the store takes any action of the
service but those on the pump's subscription, and releases no registration that
is another's.

A snapshot is shared: the pump, the items in the channel and the consumer hold
references to it, and it is deregistered some time after the last one is gone.
`sent` remembers what went into the channel; no action reads it.
-/
import Fluent31.PinSteps

namespace Fluent31

/-- In-flight items between the pump and the consumer. -/
def CHANNEL_ITEMS : ℕ := 16

inductive SubItemKind
  | attached
  | put
  | delete
  deriving DecidableEq

/-- One delivered item: the attach marker or a committed op, with the snapshot
pinned at its commit boundary. -/
structure SubItem where
  seqno : ℕ
  commitSeqno : ℕ
  kind : SubItemKind
  /-- None for the attach marker. -/
  key : Option Bytes
  /-- None for the attach marker and for deletes. -/
  value : Option Bytes
  snap : ℕ
  deriving DecidableEq

/-- The item that opens a stream. -/
def SubItem.marker (start snap : ℕ) : SubItem := ⟨start, start, .attached, none, none, snap⟩

def ValueKind.item : ValueKind → SubItemKind
  | .put => .put
  | .delete => .delete

/-- The item of an op. -/
def StreamEntry.item (e : StreamEntry) (snap : ℕ) : SubItem :=
  ⟨e.seqno, e.commitSeqno, e.kind.item, some e.key, e.value, snap⟩

/-- How a stream ends, but for a consumer that is gone. -/
inductive PumpError
  | subscribe (err : Error)
  | attach (err : Error)
  | stream (err : Error)
  | lagged
  | commit (err : Error)
  | hold (err : Error)
  deriving DecidableEq

def PumpError.text : PumpError → String
  | subscribe err => "subscribe failed: " ++ err.text
  | attach err => "attach snapshot failed: " ++ err.text
  | stream err => "subscription stream failed: " ++ err.text
  | lagged =>
    "subscription lagged past its buffer and was cut off; " ++
      "re-attach and re-scan from the new ATTACHED boundary"
  | commit err => "commit snapshot failed: " ++ err.text
  | hold err => "hold snapshot failed: " ++ err.text

/-- A snapshot could not be taken. -/
def PumpError.ofSnapshot : PumpError → Bool
  | attach _ | commit _ | hold _ => true
  | _ => false

/-- What the pump is called with, and what the store it runs on is configured
with. -/
structure PumpArgs where
  lo : Bytes
  hi : Option Bytes
  putsOnly : Bool
  /-- The limit of the subscription's queue. -/
  maxBytes : ℕ
  /-- What a degraded store reports. -/
  bgError : Error

/-- A snapshot the pump took. -/
structure PumpSnapshot where
  seqno : ℕ
  /-- Its drop has run. -/
  dropped : Bool
  deriving DecidableEq

/-- Where the pump's thread is. -/
inductive PumpStage
  | start
  /-- Subscribed; the snapshot at the start is next. -/
  | attach
  /-- Blocked on sending the attach marker. -/
  | greeting (item : SubItem)
  /-- In `recv_timeout`, or between two calls of it. -/
  | receiving
  /-- In the loop over a batch that ends with the commit `tail`. -/
  | batch (tail : ℕ) (todo : List StreamEntry)
  /-- Blocked on sending an item. -/
  | sending (item : SubItem) (tail : ℕ) (todo : List StreamEntry)
  /-- Blocked on sending the final error. -/
  | failing (err : PumpError)
  /-- The call is over; the subscription is still to be dropped. -/
  | returned
  | done
  deriving DecidableEq

namespace PumpStage

/-- The ops of the batch in hand that the loop has not come to. -/
def todo : PumpStage → List StreamEntry
  | batch _ todo | sending _ _ todo => todo
  | _ => []

def item? : PumpStage → Option SubItem
  | greeting item | sending item _ _ => some item
  | _ => none

/-- The commit the batch in hand ends with. -/
def tail? : PumpStage → Option ℕ
  | batch tail _ | sending _ tail _ => some tail
  | _ => none

/-- The attach marker is on its way, or the loop runs. -/
def going : PumpStage → Bool
  | greeting _ | receiving | batch _ _ | sending _ _ _ => true
  | _ => false

/-- The call has returned. -/
def ended : PumpStage → Bool
  | returned | done => true
  | _ => false

end PumpStage

structure Pump where
  service : Service
  stage : PumpStage
  /-- The index of its subscription. -/
  sub : Option ℕ
  snaps : List PumpSnapshot
  /-- The snapshot of the last delivered batch's tail. -/
  hold : Option ℕ
  /-- The commit boundary pinned last in the batch, and its snapshot. -/
  commit : Option (ℕ × ℕ)
  channel : List (Except PumpError SubItem)
  /-- The consumer has not dropped its end of the channel. -/
  receiver : Bool
  /-- The references of the consumer. -/
  refs : List ℕ
  sent : List (Except PumpError SubItem)

inductive PumpAction
  /-- Someone else's action on the store. -/
  | serve (act : ServiceAction)
  /-- The process ends, and another one opens the store. -/
  | restart (act : ServiceAction)
  /-- The pump's next step. -/
  | go
  /-- `recv_timeout` times out. -/
  | tick
  /-- The drop of a snapshot nobody refers to. -/
  | reap (id : ℕ)
  | recv
  /-- The consumer copies a reference, as it resolves an item's `query`. -/
  | clone (k : ℕ)
  | drop (k : ℕ)
  /-- The consumer drops the stream. -/
  | cancel

/-- The subscription whose `recv_timeout` or drop an action is a part of. -/
def ServiceAction.caller : ServiceAction → Option ℕ
  | .check i | .drain i | .deliver i | .close i => some i
  | _ => none

/-- `Db::snapshot_at`. -/
def Service.snapshotAt (s : Service) (seq : ℕ) : Except Error Service :=
  (s.engine.db.tryRegisterSnapshotAt seq).map fun db =>
    { s with engine := { s.engine with db := db, handles := seq :: s.engine.handles } }

namespace Pump

variable (opts : Options) (args : PumpArgs) (p : Pump)

/-- The pump's thread starts on a store in service. -/
def spawn (s : Service) : Pump where
  service := s
  stage := .start
  sub := none
  snaps := []
  hold := none
  commit := none
  channel := []
  receiver := true
  refs := []
  sent := []

/-- The snapshots that messages of the channel refer to. -/
def channelRefs : List ℕ := p.channel.filterMap fun m => m.toOption.map SubItem.snap

/-- The references to snapshots. -/
def references : List ℕ :=
  p.hold.toList ++ (p.commit.toList.map Prod.snd ++ (p.stage.item?.toList.map SubItem.snap ++
    (p.channelRefs ++ p.refs)))

/-- The registrations of the pump's snapshots. -/
def holding : List ℕ := (p.snaps.filter fun sn => !sn.dropped).map PumpSnapshot.seqno

/-- The pump's own end of the subscription. -/
def sub? : Option Subscription := p.sub.bind fun i => p.service.subs[i]?

def fail (err : PumpError) : Pump := { p with stage := .failing err }

/-- The call returns, and its locals go. -/
def leave : Pump := { p with stage := .returned, hold := none, commit := none }

/-- `snapshot_at`: the snapshot's number, or the stream's end. -/
def pin (seq : ℕ) (failed : Error → PumpError) (next : Pump → ℕ → Pump) : Pump :=
  match p.service.snapshotAt seq with
  | .ok s => next { p with service := s, snaps := p.snaps ++ [⟨seq, false⟩] } p.snaps.length
  | .error err => p.fail (failed err)

/-- `blocking_send`: it waits for room, and fails when the consumer is gone. -/
def push (m : Except PumpError SubItem) (next : PumpStage) : Option Pump :=
  if p.receiver then
    if p.channel.length < CHANNEL_ITEMS then
      some { p with stage := next, channel := p.channel ++ [m], sent := p.sent ++ [m] }
    else none
  else some p.leave

/-- `Db::subscribe`. -/
def open' : Option Pump :=
  let lo := if USER_KEYSPACE_START ≤ args.lo then args.lo else USER_KEYSPACE_START
  if args.hi.any fun h => decide (h ≤ lo) then
    some (p.fail (.subscribe (.invalidArgument "subscription range [lo, hi) is empty")))
  else if p.service.degraded then some (p.fail (.subscribe args.bgError))
  else (p.service.step opts (.subscribe args.lo args.hi args.maxBytes)).map fun s =>
    { p with service := s, sub := some p.service.subs.length, stage := .attach }

/-- The resolved batch is handed out. -/
def receive (out : List StreamEntry) : Pump :=
  match out.getLast? with
  | some e => { p with stage := .batch e.commitSeqno out }
  | none => p

/-- One piece of `recv_timeout`. -/
def poll (i : ℕ) (sub : Subscription) : Option Pump :=
  if sub.checked then
    (p.service.step opts (.drain i)).map fun s => { p with service := s }
  else if sub.taken ≠ [] then
    (p.service.step opts (.deliver i)).map fun s =>
      match sub.taken.mapM (RawEntry.resolve p.service.db) with
      | .ok out => { p with service := s }.receive out
      | .error err => { p with service := s }.fail (.stream err)
  else
    (p.service.step opts (.check i)).map fun s =>
      if sub.dropped then { p with service := s }.fail .lagged
      else if p.service.degraded then { p with service := s }.fail (.stream args.bgError)
      else { p with service := s }

/-- An op of the batch: a filtered one is passed over, an op of the commit that
was pinned last shares its snapshot. -/
def handle (tail : ℕ) (e : StreamEntry) (todo : List StreamEntry) : Pump :=
  if args.putsOnly ∧ e.kind = .delete then { p with stage := .batch tail todo }
  else
    match p.commit.filter fun c => decide (c.1 = e.commitSeqno) with
    | some c => { p with stage := .sending (e.item c.2) tail todo }
    | none => p.pin e.commitSeqno .commit fun p id =>
        { p with commit := some (e.commitSeqno, id), stage := .sending (e.item id) tail todo }

/-- The end of a batch: the hold moves to its tail. -/
def roll (tail : ℕ) : Pump :=
  match p.commit.filter fun c => decide (c.1 = tail) with
  | some c => { p with hold := some c.2, commit := none, stage := .receiving }
  | none =>
    p.pin tail .hold fun p id => { p with hold := some id, commit := none, stage := .receiving }

/-- The pump's next step. -/
def go : Option Pump :=
  match p.stage with
  | .start => if p.service.phase = .running then p.open' opts args else none
  | .attach => p.sub?.map fun sub => p.pin sub.start .attach fun p id =>
      { p with hold := some id, stage := .greeting (.marker sub.start id) }
  | .greeting item => p.push (.ok item) .receiving
  | .receiving => p.sub.bind fun i => (p.service.subs[i]?).bind fun sub => p.poll opts args i sub
  | .batch tail (e :: todo) => some (p.handle args tail e todo)
  | .batch tail [] => some (p.roll tail)
  | .sending item tail todo => p.push (.ok item) (.batch tail todo)
  | .failing err => (p.push (.error err) .returned).map leave
  | .returned =>
    match p.sub with
    | some i =>
      (p.service.step opts (.close i)).map fun s => { p with service := s, stage := .done }
    | none => some { p with stage := .done }
  | .done => none

def step : PumpAction → Option Pump
  | .serve act =>
    if act.inProcess ∧ (∀ i ∈ act.caller, p.sub ≠ some i) ∧
        ∀ t ∈ act.consumes, (p.service.pins ++ p.holding).count t <
          p.service.engine.handles.count t then
      (p.service.step opts act).map fun s => { p with service := s }
    else none
  | .restart act => if act.inProcess then none else (p.service.step opts act).map spawn
  | .go => p.go opts args
  | .tick =>
    p.sub?.bind fun sub =>
      if p.stage = .receiving ∧ sub.checked = false ∧ sub.taken = [] ∧ p.receiver = false then
        some p.leave
      else none
  | .reap id =>
    (p.snaps[id]?).bind fun sn =>
      if sn.dropped = false ∧ id ∉ p.references then
        (p.service.step opts (.engine (.release sn.seqno) false)).map fun s =>
          { p with service := s, snaps := p.snaps.set id { sn with dropped := true } }
      else none
  | .recv =>
    match p.channel with
    | [] => none
    | m :: rest =>
      some { p with channel := rest, refs := (m.toOption.map SubItem.snap).toList ++ p.refs }
  | .clone k => (p.refs[k]?).map fun id => { p with refs := id :: p.refs }
  | .drop k => some { p with refs := p.refs.eraseIdx k }
  | .cancel => some { p with receiver := false, channel := [] }

end Pump

/-- The pump and everyone else as a transition system. -/
def pump (opts : Options) (args : PumpArgs) : System Pump PumpAction :=
  ⟨Pump.spawn (Service.init opts), Pump.step opts args⟩

end Fluent31
