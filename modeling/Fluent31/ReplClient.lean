/-
The replica's client (`fluent-replication/src/client.rs`).

All requests share one cached connection.  `ensureConnected` dials when there is
none, says HELLO on it and compares the reported instance with the one the
client is bound to; `request` then locks the connection a second time and uses
whatever stands there.  A `Session` interleaves these two critical sections of
any number of requests.  What is not in the source and no step reads: the store
behind a connection (`Conn.peer`), whether a greeting on it was compared with the
binding (`Conn.verified`), and the log of what was sent.

* `ReplClient.ensureConnected_spec` — one check, and what it leaves behind;
* `Session.sent_verified` — as long as no fresh connection is greeted with
  something else than a greeting while another request stands between check and
  use, every request is sent on a verified connection to the bound store;
* `Session.snapshot_sent_unverified` — otherwise a request reaches another store.
-/
import Fluent31.Proto
import Fluent31.Lib.System

namespace Fluent31

/-! ### One check -/

/-- A connection. -/
structure Conn where
  /-- The store behind it. -/
  peer : InstanceId
  /-- A greeting on it was decoded and agreed with the binding. -/
  verified : Bool
  deriving DecidableEq

/-- The client's errors, with the data their texts are made of. -/
inductive ReplError
  | io (text : String)
  | invalidArgument (text : Bytes)
  | helloFailed (status : ℕ) (text : Bytes)
  | provenanceMismatch (name : Bytes) (reported expect : InstanceId)
  | exhausted
  deriving DecidableEq

structure MasterInfo where
  name : Bytes
  instanceId : InstanceId
  visibleSeqno : ℕ
  deriving DecidableEq

structure ReplClient where
  conn : Option Conn := none
  /-- Instance this client is bound to. -/
  bound : Option InstanceId := none
  nextId : ℕ := 1
  deriving DecidableEq

/-- The frame a request draws: request id, status, body. -/
abbrev Received := Except ReplError (ℕ × ℕ × Bytes)

def roundtrip (id : ℕ) (answer : Received) : Except ReplError (ℕ × Bytes) :=
  answer.bind fun frame =>
    if frame.1 ≠ id then .error (.io s!"response id {frame.1} != request id {id}") else .ok frame.2

namespace ReplClient

variable {c c' : ReplClient} {sock : Conn} {dial : Except ReplError InstanceId} {answer : Received}

/-- HELLO and the instance check on the socket `sock`. -/
def hello (c : ReplClient) (sock : Conn) (answer : Received) :
    Except ReplError MasterInfo × ReplClient :=
  let id := c.nextId
  let c := { c with conn := some sock, nextId := id + 1 }
  match roundtrip id answer with
  | .error e => (.error e, { c with conn := none })
  | .ok (st, body) =>
    if st = ST_OK then
      match decodeHello body with
      -- `?` leaves the socket in place
      | .error e => (.error (.io e), c)
      | .ok h =>
        let checked := { c with conn := some { sock with verified := true } }
        match c.bound with
        | none => (.ok ⟨h.name, h.instanceId, h.visibleSeqno⟩,
          { checked with bound := some h.instanceId })
        | some expect =>
          if expect ≠ h.instanceId then
            (.error (.provenanceMismatch h.name h.instanceId expect), { c with conn := none })
          else (.ok ⟨h.name, h.instanceId, h.visibleSeqno⟩, checked)
    else if st = ST_NO_IDENTITY then (.error (.invalidArgument body), c)
    else (.error (.helloFailed st body), c)

/-- Dial + HELLO + instance check, reusing the cached socket when live. -/
def ensureConnected (c : ReplClient) (dial : Except ReplError InstanceId) (answer : Received) :
    Except ReplError MasterInfo × ReplClient :=
  match c.conn, dial with
  | some sock, _ => c.hello sock answer
  | none, .ok peer => c.hello ⟨peer, false⟩ answer
  | none, .error e => (.error e, c)

/-- The socket a check talks to. -/
def socket (c : ReplClient) (dial : Except ReplError InstanceId) : Option Conn :=
  match c.conn, dial with
  | some sock, _ => some sock
  | none, .ok peer => some ⟨peer, false⟩
  | none, .error _ => none

/-- The frame is a whole reply that is no greeting: another status, or a body that
does not decode. -/
def refused (id : ℕ) (answer : Received) : Bool :=
  match roundtrip id answer with
  | .error _ => false
  | .ok (st, body) => decide (st ≠ ST_OK) || !(decodeHello body).isOk

/-- A server names its own store in its greetings. -/
def honest (peer : InstanceId) : Received → Bool
  | .error _ => true
  | .ok (_, st, body) =>
    if st = ST_OK then
      match decodeHello body with
      | .error _ => true
      | .ok h => decide (h.instanceId = peer)
    else true

/-- A verified connection leads to the bound store. -/
def Consistent (c : ReplClient) : Prop :=
  ∀ sock ∈ c.conn, sock.verified = true → c.bound = some sock.peer

/-- **What one check does**: the binding is set once; a check that succeeds leaves
a verified connection; one that fails drops the connection or leaves it as it was,
a fresh one only when the greeting was refused. -/
structure Checked (c : ReplClient) (dial : Except ReplError InstanceId) (answer : Received)
    (r : Except ReplError MasterInfo) (c' : ReplClient) : Prop where
  bound : ∀ id ∈ c.bound, c'.bound = some id
  consistent : c'.Consistent
  ok : ∀ info, r = .ok info → c'.bound.isSome ∧ ∃ sock, c'.conn = some sock ∧ sock.verified = true
  kept : ∀ sock ∈ c'.conn, sock.verified = false →
    c.conn = some sock ∨ c.conn = none ∧ dial.isOk ∧ refused c.nextId answer = true

theorem hello_refused {st : ℕ} {body : Bytes} (hround : roundtrip c.nextId answer = .ok (st, body))
    (hbad : st ≠ ST_OK ∨ (decodeHello body).isOk = false) :
    refused c.nextId answer = true ∧ (c.hello sock answer).2 =
      { c with conn := some sock, nextId := c.nextId + 1 } ∧
      ∃ e, (c.hello sock answer).1 = .error e := by
  unfold refused hello
  simp only [hround]
  by_cases hst : st = ST_OK
  · have hdec := hbad.resolve_left (fun h => h hst)
    cases hd : decodeHello body with
    | ok h =>
      rw [hd] at hdec
      exact absurd hdec (by simp [Except.isOk, Except.toBool])
    | error e => exact ⟨by simp [Except.isOk, Except.toBool], by simp [hst], by simp [hst]⟩
  · refine ⟨by simp [hst], ?_, ?_⟩
    · rw [if_neg hst]
      split <;> rfl
    · rw [if_neg hst]
      split
      · exact ⟨_, rfl⟩
      · exact ⟨_, rfl⟩

/-- The cases of a check on a socket. -/
theorem hello_cases (hhonest : honest sock.peer answer = true) :
    (∃ e, c.hello sock answer = (.error e, { c with conn := none, nextId := c.nextId + 1 })) ∨
    (refused c.nextId answer = true ∧
      ∃ e, c.hello sock answer = (.error e, { c with conn := some sock, nextId := c.nextId + 1 })) ∨
    ∃ info, (c.bound = none ∨ c.bound = some sock.peer) ∧ c.hello sock answer = (.ok info,
      ⟨some { sock with verified := true }, some sock.peer, c.nextId + 1⟩) := by
  cases hround : roundtrip c.nextId answer with
  | error e => exact Or.inl ⟨e, by unfold hello; simp only [hround]⟩
  | ok r =>
    obtain ⟨st, body⟩ := r
    by_cases hbad : st ≠ ST_OK ∨ (decodeHello body).isOk = false
    · obtain ⟨href, hclient, e, herr⟩ := hello_refused hround hbad
      exact Or.inr (Or.inl ⟨href, e, Prod.ext herr hclient⟩)
    · have hst : st = ST_OK := not_not.mp fun h => hbad (Or.inl h)
      cases hd : decodeHello body with
      | error e => exact absurd (Or.inr (by rw [hd]; rfl)) hbad
      | ok h =>
        -- an honest answer names the instance behind the socket
        have hpeer : h.instanceId = sock.peer := by
          unfold roundtrip at hround
          cases answer with
          | error e => exact absurd hround (by simp [Except.bind])
          | ok frame =>
            obtain ⟨echo, frame⟩ := frame
            simp only [Except.bind] at hround
            split at hround
            · exact absurd hround (by simp)
            · obtain rfl := Except.ok.inj hround
              simpa [honest, hst, hd] using hhonest
        unfold hello
        simp only [hround, hst, hd, if_true, hpeer]
        cases hbound : c.bound with
        | none => exact Or.inr (Or.inr ⟨_, Or.inl rfl, rfl⟩)
        | some expect =>
          by_cases heq : expect = sock.peer
          · subst heq
            simp only [ne_eq, not_true, if_false]
            exact Or.inr (Or.inr ⟨_, Or.inr trivial, rfl⟩)
          · exact Or.inl ⟨_, if_pos heq⟩

theorem ensureConnected_spec (hc : c.Consistent)
    (hhonest : ∀ sock ∈ c.socket dial, honest sock.peer answer = true) :
    c.Checked dial answer (c.ensureConnected dial answer).1 (c.ensureConnected dial answer).2 := by
  -- a check on `sock`, cached or fresh
  have hello_checked (sock : Conn) (hsock : c.socket dial = some sock)
      (hcall : c.ensureConnected dial answer = c.hello sock answer)
      (hverified : sock.verified = true → c.bound = some sock.peer)
      (hfresh : c.conn = some sock ∨ c.conn = none ∧ dial.isOk = true) :
      c.Checked dial answer (c.ensureConnected dial answer).1
        (c.ensureConnected dial answer).2 := by
    rw [hcall]
    obtain ⟨e, heq⟩ | ⟨href, e, heq⟩ | ⟨info, hbound, heq⟩ :=
      hello_cases (c := c) (hhonest sock hsock)
    · rw [heq]
      exact ⟨fun _ h => h, fun _ h => absurd h (by simp), fun _ h => absurd h (by simp),
        fun _ h => absurd h (by simp)⟩
    · rw [heq]
      refine ⟨fun _ h => h, ?_, fun _ h => absurd h (by simp), ?_⟩
      · intro s' hs'
        obtain rfl := Option.some_inj.mp hs'
        exact hverified
      · intro s' hs' _
        obtain rfl := Option.some_inj.mp hs'
        exact hfresh.imp_right fun h => ⟨h.1, h.2, href⟩
    · rw [heq]
      refine ⟨?_, ?_, fun _ _ => ⟨rfl, _, rfl, rfl⟩, ?_⟩
      · intro id hid
        obtain hnone | hsome := hbound
        · rw [hnone] at hid
          exact absurd hid (by simp)
        · exact hsome ▸ hid
      · intro s' hs' _
        obtain rfl := Option.some_inj.mp hs'
        rfl
      · intro s' hs' hver
        obtain rfl := Option.some_inj.mp hs'
        exact absurd hver Bool.noConfusion
  cases hconn : c.conn with
  | some sock =>
    have hcall : c.ensureConnected dial answer = c.hello sock answer := by
      unfold ensureConnected
      rw [hconn]
    exact hello_checked sock (by unfold socket; rw [hconn]) hcall (hc sock hconn) (Or.inl hconn)
  | none =>
    cases dial with
    | ok peer =>
      have hcall : c.ensureConnected (.ok peer) answer = c.hello ⟨peer, false⟩ answer := by
        unfold ensureConnected
        rw [hconn]
      exact hello_checked ⟨peer, false⟩ (by unfold socket; rw [hconn]) hcall
        (fun h => absurd h Bool.noConfusion) (Or.inr ⟨hconn, rfl⟩)
    | error e =>
      have hcall : c.ensureConnected (.error e) answer = (.error e, c) := by
        unfold ensureConnected
        rw [hconn]
      rw [hcall]
      exact ⟨fun _ h => h, hc, fun _ h => absurd h (by simp), fun sock h _ => Or.inl h⟩

end ReplClient

/-! ### Requests that share the client -/

/-- Where the thread of a request stands. -/
inductive RequestPhase
  | checking
  /-- Checked the connection, not yet locked it again. -/
  | checked
  | done (r : Except ReplError (ℕ × Bytes))
  deriving DecidableEq

structure Request where
  opcode : ℕ
  payload : Bytes
  attempt : ℕ := 0
  phase : RequestPhase := .checking
  deriving DecidableEq

/-- A request on the wire, and what came of it. -/
structure Sent where
  opcode : ℕ
  payload : Bytes
  sock : Conn
  reply : Except ReplError (ℕ × Bytes)
  deriving DecidableEq

structure Session where
  client : ReplClient := {}
  /-- `connect` has returned the client. -/
  connected : Bool := false
  requests : List Request := []
  sent : List Sent := []
  deriving DecidableEq

inductive SessionAction
  | connect (dial : Except ReplError InstanceId) (answer : Received)
  /-- A thread calls `request`. -/
  | begin (opcode : ℕ) (payload : Bytes)
  /-- Its call of `ensure_connected`, under the lock. -/
  | ensure (i : ℕ) (dial : Except ReplError InstanceId) (answer : Received)
  /-- The rest of its attempt, under the lock again. -/
  | send (i : ℕ) (answer : Received)

namespace Request

/-- After the check. -/
def afterCheck (r : Request) : Except ReplError MasterInfo → Request
  | .ok _ => { r with phase := .checked }
  | .error e => { r with phase := .done (.error e) }

/-- After an attempt that failed with `e`. -/
def afterFailure (r : Request) (e : ReplError) : Request :=
  if r.attempt = 1 then { r with phase := .done (.error e) }
  else { r with attempt := r.attempt + 1, phase := .checking }

end Request

namespace Session

def setRequest (s : Session) (i : ℕ) (r : Request) : Session :=
  { s with requests := s.requests.set i r }

/-- The second half of an attempt: lock the connection and use what is there. -/
def send (s : Session) (i : ℕ) (r : Request) (answer : Received) : Session :=
  match s.client.conn with
  | none => s.setRequest i (r.afterFailure .exhausted)
  | some sock =>
    let reply := roundtrip s.client.nextId answer
    let client := { s.client with nextId := s.client.nextId + 1 }
    let sent := s.sent ++ [⟨r.opcode, r.payload, sock, reply⟩]
    match reply with
    | .ok body =>
      { s.setRequest i { r with phase := .done (.ok body) } with client := client, sent := sent }
    | .error e =>
      { s.setRequest i (r.afterFailure e) with
        client := { client with conn := none }
        sent := sent }

/-- A server names its own store. -/
def honest (s : Session) (dial : Except ReplError InstanceId) (answer : Received) : Bool :=
  (s.client.socket dial).all fun sock => ReplClient.honest sock.peer answer

def step (s : Session) : SessionAction → Option Session
  | .connect dial answer =>
    if s.connected || !s.honest dial answer then none
    else match s.client.ensureConnected dial answer with
      | (.ok _, client) => some { s with client := client, connected := true }
      -- the client is dropped
      | (.error _, _) => some s
  | .begin opcode payload =>
    if s.connected && decide (opcode ≠ OP_HELLO) then
      some { s with requests := s.requests ++ [{ opcode := opcode, payload := payload }] }
    else none
  | .ensure i dial answer =>
    match s.requests[i]? with
    | some r =>
      if r.phase = .checking && s.honest dial answer then
        let (info, client) := s.client.ensureConnected dial answer
        some { s.setRequest i (r.afterCheck info) with client := client }
      else none
    | none => none
  | .send i answer =>
    match s.requests[i]? with
    | some r => if r.phase = .checked then some (s.send i r answer) else none
    | none => none

/-- A request stands between check and use. -/
def Pending (s : Session) : Prop := ∃ r ∈ s.requests, r.phase = .checked

instance (s : Session) : Decidable s.Pending :=
  inferInstanceAs (Decidable (∃ r ∈ s.requests, r.phase = .checked))

/-- No fresh connection is greeted with something else than a greeting while a
request stands between check and use. -/
def Undisturbed (s : Session) : SessionAction → Prop
  | .ensure _ dial answer => s.client.conn = none → dial.isOk = true →
      ReplClient.refused s.client.nextId answer = true → ¬ s.Pending
  | _ => True

instance (s : Session) (a : SessionAction) : Decidable (s.Undisturbed a) :=
  match a with
  | .ensure _ dial answer => inferInstanceAs (Decidable (s.client.conn = none → dial.isOk = true →
      ReplClient.refused s.client.nextId answer = true → ¬ s.Pending))
  | .connect .. | .begin .. | .send .. => isTrue trivial

end Session

/-- The sessions of one client. -/
def session : System Session SessionAction where
  init := {}
  step := Session.step

namespace Session

variable {s s' : Session} {r r' : Request} {i : ℕ} {answer : Received}

/-- Every request went to the bound store on a connection whose greeting was
decoded and verified, and what a request returns was received so. -/
structure Provenance (s : Session) : Prop where
  sent : ∀ x ∈ s.sent, x.sock.verified = true ∧ s.client.bound = some x.sock.peer
  accepted : ∀ r ∈ s.requests, ∀ body, r.phase = .done (.ok body) →
    ∃ x ∈ s.sent, x.opcode = r.opcode ∧ x.payload = r.payload ∧ x.reply = .ok body

/-- What undisturbed steps preserve. -/
structure Inv (s : Session) : Prop where
  consistent : s.client.Consistent
  /-- An unverified connection is never between a request's check and its use. -/
  unverified : ∀ sock ∈ s.client.conn, sock.verified = false → ¬ s.Pending
  provenance : s.Provenance

theorem pending_setRequest (hr : r.phase ≠ .checked) (h : (s.setRequest i r).Pending) :
    s.Pending := by
  obtain ⟨r', hmem, hphase⟩ := h
  obtain hold | rfl := List.mem_or_eq_of_mem_set hmem
  · exact ⟨r', hold, hphase⟩
  · exact absurd hphase hr

theorem afterFailure_phase (r : Request) (e : ReplError) :
    (r.afterFailure e).phase ≠ .checked ∧ ∀ body, (r.afterFailure e).phase ≠ .done (.ok body) := by
  unfold Request.afterFailure
  split <;> simp

/-- Replies survive more traffic and a new phase of a request that has none. -/
theorem Provenance.setRequest (h : s.Provenance) {client : ReplClient} {sent : List Sent}
    (hbound : ∀ id ∈ s.client.bound, client.bound = some id)
    (hsent : ∀ x ∈ sent, x.sock.verified = true ∧ client.bound = some x.sock.peer)
    (hr : ∀ body, r.phase = .done (.ok body) →
      ∃ x ∈ s.sent ++ sent, x.opcode = r.opcode ∧ x.payload = r.payload ∧ x.reply = .ok body) :
    Provenance { s.setRequest i r with client := client, sent := s.sent ++ sent } where
  sent x hx := by
    obtain hold | hnew := List.mem_append.mp hx
    · exact ⟨(h.sent x hold).1, hbound _ (h.sent x hold).2⟩
    · exact hsent x hnew
  accepted r' hmem body hphase := by
    obtain hold | rfl := List.mem_or_eq_of_mem_set hmem
    · obtain ⟨x, hx, hreply⟩ := h.accepted r' hold body hphase
      exact ⟨x, List.mem_append_left _ hx, hreply⟩
    · exact hr body hphase

theorem inv_init : Inv {} where
  consistent := fun _ h => absurd h (by simp)
  unverified := fun _ h => absurd h (by simp)
  provenance := ⟨fun _ h => absurd h (by simp), fun _ h => absurd h (by simp)⟩

theorem honest_socket {dial : Except ReplError InstanceId} (h : s.honest dial answer = true) :
    ∀ sock ∈ s.client.socket dial, ReplClient.honest sock.peer answer = true :=
  fun sock hsock => by
    unfold honest at h
    rw [Option.mem_def.mp hsock] at h
    exact h

theorem Inv.ensure (h : s.Inv) {dial : Except ReplError InstanceId} (r : Request)
    (hhonest : s.honest dial answer = true) (hok : s.Undisturbed (.ensure i dial answer)) :
    Inv { s.setRequest i (r.afterCheck (s.client.ensureConnected dial answer).1) with
      client := (s.client.ensureConnected dial answer).2 } := by
  have hchecked := ReplClient.ensureConnected_spec h.consistent (honest_socket hhonest)
  refine ⟨hchecked.consistent, ?_, ?_⟩
  · intro sock hsock hver hpending
    cases hres : (s.client.ensureConnected dial answer).1 with
    | ok info =>
      obtain ⟨-, sock', hconn, hver'⟩ := hchecked.ok info hres
      obtain rfl := Option.some_inj.mp (hconn.symm.trans hsock)
      exact absurd (hver.symm.trans hver') Bool.noConfusion
    | error e =>
      rw [hres] at hpending
      have hbefore : s.Pending :=
        pending_setRequest (r := r.afterCheck (.error e)) RequestPhase.noConfusion hpending
      obtain hold | ⟨hnone, hdial, href⟩ := hchecked.kept sock hsock hver
      · exact h.unverified sock hold hver hbefore
      · exact hok hnone hdial href hbefore
  · have := h.provenance.setRequest (i := i)
      (r := r.afterCheck (s.client.ensureConnected dial answer).1)
      hchecked.bound (fun _ hx => absurd hx List.not_mem_nil) (fun body hphase => by
        cases hres : (s.client.ensureConnected dial answer).1 <;>
          rw [hres] at hphase <;> exact absurd hphase (by simp [Request.afterCheck]))
    rwa [List.append_nil] at this

theorem Inv.send (h : s.Inv) (hr : r ∈ s.requests) (hphase : r.phase = .checked) :
    Inv (s.send i r answer) := by
  have hpending : s.Pending := ⟨r, hr, hphase⟩
  unfold Session.send
  cases hconn : s.client.conn with
  | none =>
    refine ⟨h.consistent, fun sock hsock => absurd (hconn.symm.trans hsock) (by simp), ?_⟩
    have := h.provenance.setRequest (i := i) (r := r.afterFailure .exhausted)
      (fun _ hid => hid) (fun _ hx => absurd hx List.not_mem_nil)
      (fun body hdone => absurd hdone ((afterFailure_phase r _).2 body))
    rwa [List.append_nil] at this
  | some sock =>
    -- the request's own check keeps unverified connections away from it
    have hver : sock.verified = true := by
      cases hv : sock.verified with
      | true => rfl
      | false => exact absurd hpending (h.unverified sock hconn hv)
    have hbound := h.consistent sock hconn hver
    have hsent (reply) : ∀ x ∈ [Sent.mk r.opcode r.payload sock reply],
        x.sock.verified = true ∧ s.client.bound = some x.sock.peer := by
      intro x hx
      obtain rfl := List.mem_singleton.mp hx
      exact ⟨hver, hbound⟩
    simp only
    cases hreply : roundtrip s.client.nextId answer with
    | ok body =>
      refine ⟨fun s' hs' => ?_, fun s' hs' hv => ?_, ?_⟩
      · obtain rfl := Option.some_inj.mp (hconn.symm.trans hs')
        exact fun _ => hbound
      · obtain rfl := Option.some_inj.mp (hconn.symm.trans hs')
        exact absurd (hv.symm.trans hver) Bool.noConfusion
      · refine h.provenance.setRequest (fun _ hid => hid) (hsent _) fun body' hdone => ?_
        obtain rfl : body = body' := by simpa using hdone
        exact ⟨⟨r.opcode, r.payload, sock, .ok body⟩, List.mem_append_right _
          (List.mem_singleton_self _), rfl, rfl, rfl⟩
    | error e =>
      refine ⟨fun _ hs' => absurd hs' (by simp), fun _ hs' => absurd hs' (by simp), ?_⟩
      exact h.provenance.setRequest (fun _ hid => hid) (hsent _)
        fun body' hdone => absurd hdone ((afterFailure_phase r e).2 body')

theorem Inv.step {a : SessionAction} (h : s.Inv) (hok : s.Undisturbed a) (hs : s.step a = some s') :
    s'.Inv := by
  cases a with
  | connect dial answer =>
    unfold Session.step at hs
    simp only at hs
    split at hs
    · exact absurd hs (by simp)
    rename_i hguard
    have hhonest : s.honest dial answer = true := by
      simp only [Bool.or_eq_true, Bool.not_eq_true', not_or, Bool.not_eq_false] at hguard
      exact hguard.2
    have hchecked := ReplClient.ensureConnected_spec h.consistent (honest_socket hhonest)
    split at hs
    · rename_i info client hcall
      obtain rfl := Option.some_inj.mp hs
      rw [hcall] at hchecked
      obtain ⟨-, sock, hconn, hver⟩ := hchecked.ok info rfl
      refine ⟨hchecked.consistent, fun sock' hsock' hv => ?_, ?_, h.provenance.accepted⟩
      · obtain rfl := Option.some_inj.mp (hconn.symm.trans hsock')
        exact absurd (hv.symm.trans hver) Bool.noConfusion
      · exact fun x hx => ⟨(h.provenance.sent x hx).1, hchecked.bound _ (h.provenance.sent x hx).2⟩
    · exact Option.some_inj.mp hs ▸ h
  | begin opcode payload =>
    unfold Session.step at hs
    simp only [Option.ite_none_right_eq_some, Option.some.injEq] at hs
    obtain ⟨-, rfl⟩ := hs
    -- a new request is still to check its connection
    have hnew : ∀ r ∈ s.requests ++ [{ opcode := opcode, payload := payload : Request }],
        r.phase ≠ .checking → r ∈ s.requests := by
      intro r hr hphase
      obtain hold | hlast := List.mem_append.mp hr
      · exact hold
      · exact absurd (congrArg Request.phase (List.mem_singleton.mp hlast)) hphase
    refine ⟨h.consistent, fun sock hsock hv ⟨r, hr, hphase⟩ => ?_, h.provenance.sent, ?_⟩
    · exact h.unverified sock hsock hv ⟨r, hnew r hr (by simp [hphase]), hphase⟩
    · exact fun r hr body hphase =>
        h.provenance.accepted r (hnew r hr (by simp [hphase])) body hphase
  | ensure i dial answer =>
    unfold Session.step at hs
    simp only at hs
    split at hs
    · rename_i r hr
      simp only [Option.ite_none_right_eq_some, Option.some.injEq, Bool.and_eq_true] at hs
      obtain ⟨⟨-, hhonest⟩, rfl⟩ := hs
      exact h.ensure r hhonest hok
    · exact absurd hs (by simp)
  | send i answer =>
    unfold Session.step at hs
    simp only at hs
    split at hs
    · rename_i r hr
      simp only [Option.ite_none_right_eq_some, Option.some.injEq] at hs
      obtain ⟨hphase, rfl⟩ := hs
      exact h.send (List.mem_of_getElem? hr) hphase
    · exact absurd hs (by simp)

/-- **Provenance binding.** While no fresh connection is greeted with something
else than a greeting between another request's check and use, every request is
sent on a verified connection to the bound store, and only replies received there
are returned. -/
theorem sent_verified (h : session.Reaches Undisturbed s) : s.Provenance :=
  (h.invariant inv_init Inv.step).provenance

/-- The greeting of a store of which all identity bytes are `b`. -/
def greeting (id : ℕ) (b : ℕ) : Received :=
  .ok (id, ST_OK, encodeHello ⟨1, [], List.replicate 16 (byte b), 7⟩)

/-- Two requests, one of which loses its connection before the other uses it. -/
def interleaved : List SessionAction :=
  [.connect (.ok (List.replicate 16 (byte 1))) (greeting 1 1),
    .begin OP_SNAPSHOT [], .begin OP_FETCH_VALUE [],
    .ensure 0 (.error .exhausted) (greeting 2 1), .ensure 1 (.error .exhausted) (greeting 3 1),
    .send 1 (.error (.io "connection reset by peer"))]

theorem sent_verified_of_retry :
    ∃ s, (session.Reaches Undisturbed s ∧ s.sent.length = 3) ∧ s.Provenance := by
  have hrun : (session.replay Undisturbed (interleaved ++
      [.ensure 1 (.ok (List.replicate 16 (byte 1))) (greeting 5 1),
        .send 0 (.ok (6, ST_OK, [byte 9])), .send 1 (.ok (7, ST_OK, []))]) session.init).any
          (fun s => decide (s.sent.length = 3)) = true := by
    decide +kernel
  obtain ⟨s, hreach, hsent⟩ := System.exists_reaches hrun
  exact ⟨s, ⟨hreach, hsent⟩, sent_verified hreach⟩

/-- The other request has dialled a store that answers its greeting with an error:
the connection stays, and the first request takes that store's reply. -/
theorem snapshot_sent_unverified :
    ∃ s, session.Reachable s ∧ (∃ x ∈ s.sent, x.opcode = OP_SNAPSHOT ∧
    x.sock.verified = false ∧ s.client.bound ≠ some x.sock.peer) ∧
    (∃ r ∈ s.requests, r.phase = .done (.ok (ST_OK, [byte 9]))) ∧ ¬ s.Provenance := by
  have hrun :
      (session.run (interleaved ++ [.ensure 1 (.ok (List.replicate 16 (byte 2))) (.ok (5, 1, [])),
      .send 0 (.ok (6, ST_OK, [byte 9]))]) session.init).any (fun s => decide ((∃ x ∈ s.sent,
        x.opcode = OP_SNAPSHOT ∧ x.sock.verified = false ∧ s.client.bound ≠ some x.sock.peer) ∧
        ∃ r ∈ s.requests, r.phase = .done (.ok (ST_OK, [byte 9])))) = true := by
    decide +kernel
  obtain ⟨s, hreach, hsent, hreply⟩ := System.exists_reachable hrun
  refine ⟨s, hreach, hsent, hreply, fun h => ?_⟩
  obtain ⟨x, hx, -, -, hother⟩ := hsent
  exact hother (h.sent x hx).2

end Session

end Fluent31
