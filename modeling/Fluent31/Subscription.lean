/-
Stream subscriptions (`db.rs`).

A subscription buffers the committed ops of a key range, values unresolved.  The
publisher offers it every committed batch; a subscription that buffers more than
its limit is cut, and pruned from the registry at the publisher's next pass.
The consumer takes all that is buffered, resolves the values and moves its pin
to the last op it took.
-/
import Fluent31.Grouping

namespace Fluent31

/-- The first key of the user keyspace. -/
def USER_KEYSPACE_START : Bytes := [byte 1]

/-- One committed op as published to subscribers. -/
structure RawEntry where
  key : Bytes
  seqno : ℕ
  commitSeqno : ℕ
  kind : ValueKind
  repr : ReprRef
  deriving DecidableEq

/-- What `recv_timeout` returns but for a timeout. -/
inductive StreamEvent
  | batch (entries : List StreamEntry)
  | lagged
  deriving DecidableEq

/-- The publisher's and the consumer's half of a subscription. -/
structure Subscription where
  lo : Bytes
  hi : Option Bytes
  maxBytes : ℕ
  entries : List RawEntry
  bytes : ℕ
  /-- Cut by the publisher, dead, or closed by the consumer. -/
  dropped : Bool
  start : ℕ
  pinned : ℕ
  /-- In the publisher's registry. -/
  attached : Bool
  closed : Bool
  /-- A `recv_timeout` call is past its check for a cut. -/
  checked : Bool
  /-- What it took from the queue and has still to resolve. -/
  taken : List RawEntry
  /-- What the calls have returned. -/
  events : List StreamEvent
  deriving DecidableEq

/-- The published form of a batch committed at `base`. -/
def rawEntries (base : ℕ) (es : List EncEntry) : List RawEntry :=
  (versionsFrom base es).map fun e => ⟨e.ukey, e.seq, base + es.length - 1, e.kind, e.repr⟩

def RawEntry.bytes (r : RawEntry) : ℕ := r.key.length + r.repr.encode.length + 32

/-- Resolve an entry in a store. -/
def RawEntry.resolve (db : Db) (r : RawEntry) : Except Error StreamEntry :=
  match r.kind with
  | .put => (db.resolveRepr r.key r.repr).map fun value =>
      ⟨r.key, r.seqno, r.commitSeqno, r.kind, some value⟩
  | .delete => .ok ⟨r.key, r.seqno, r.commitSeqno, r.kind, none⟩

namespace Subscription

/-- A fresh subscription that starts after `start`. -/
def new (lo : Bytes) (hi : Option Bytes) (maxBytes start : ℕ) : Subscription where
  lo := lo
  hi := hi
  maxBytes := maxBytes
  entries := []
  bytes := 0
  dropped := false
  start := start
  pinned := start
  attached := true
  closed := false
  checked := false
  taken := []
  events := []

variable (sub : Subscription)

def inRange (key : Bytes) : Bool :=
  decide (sub.lo ≤ key) && sub.hi.all fun h => decide (key < h)

/-- The ops of a batch that the subscription is about. -/
def hits (base : ℕ) (es : List EncEntry) : List RawEntry :=
  (rawEntries base es).filter fun r => sub.inRange r.key

/-- Buffer a batch, or cut the subscription loose. -/
def offer (base : ℕ) (es : List EncEntry) : Subscription :=
  let bytes := sub.bytes + ((sub.hits base es).map RawEntry.bytes).sum
  if sub.maxBytes < bytes then { sub with entries := [], bytes := 0, dropped := true }
  else { sub with entries := sub.entries ++ sub.hits base es, bytes := bytes }

/-- One pass of the publisher over the subscription. -/
def publish (base : ℕ) (es : List EncEntry) : Subscription :=
  if sub.attached then
    if sub.dropped then { sub with attached := false } else sub.offer base es
  else sub

/-- Take all that is buffered. -/
def drain : Subscription :=
  { sub with entries := [], bytes := 0, checked := false, taken := sub.entries }

/-- The last op taken, which the pin moves to. -/
def lastTaken : ℕ := (sub.taken.getLast?.map RawEntry.seqno).getD sub.pinned

/-- The resolved batch is returned. -/
def deliver (out : List StreamEntry) : Subscription :=
  { sub with taken := [], pinned := sub.lastTaken, events := sub.events ++ [.batch out] }

/-- An entry did not resolve: the stream is dead. -/
def kill : Subscription := { sub with taken := [], dropped := true }

/-- The consumer is gone. -/
def close : Subscription := { sub with dropped := true, attached := false, closed := true }

/-- The start of a `recv_timeout` call: it reports a cut, or goes on. -/
def check (degraded : Bool) : Subscription :=
  if sub.dropped then { sub with events := sub.events ++ [.lagged] }
  else if degraded then sub
  else { sub with checked := true }

end Subscription

/-- Fan a committed batch out to the registry, behind the fast flag. -/
def publishStream (subs : List Subscription) (active : Bool) (base : ℕ) (es : List EncEntry) :
    List Subscription × Bool :=
  if active then
    let subs := subs.map fun s => s.publish base es
    (subs, subs.any Subscription.attached)
  else (subs, active)

end Fluent31
