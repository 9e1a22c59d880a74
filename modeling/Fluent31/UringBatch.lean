/-
Batch reads on a pooled ring (`io/uring_io.rs`, `io/mod.rs`).

A ring has a submission queue, the reads the kernel has in flight and a completion
queue.  It outlives the calls it serves, one at a time.  `read_many` pushes a chunk of
its requests, submits and reaps until it has counted as many completions as the chunk
has requests, and finishes short reads itself.  The kernel takes what is submitted and
completes it when and in the order it likes; a submit may fail.

* `readExactAt_spec`, `serialReadMany_spec` — the serial loop fills its buffers;
* `Uring.Inv` — a released ring is empty, and the reads that are out, that are to be
  reaped and that are counted are those of the chunk, each once;
* `Uring.read_many_serial` — in every run where a call leaves early only when none of
  its reads is out, what a call returns is what the serial loop returns, and every
  completion is counted for its own call and chunk.
-/
import Fluent31.Coding
import Fluent31.Lib.System
import Mathlib.Data.List.Forall2

namespace Fluent31

namespace Uring

/-- A failed syscall, or the end of the file. -/
inductive IoError
  | os (errno : ℕ)
  | unexpectedEof
  deriving DecidableEq, Repr

def EINTR : ℕ := 4

structure ReadReq where
  off : ℕ
  buf : Bytes
  deriving DecidableEq, Repr

/-- The bytes of a file at an offset, `n` of them if there are. -/
def bytesAt (f : Bytes) (off n : ℕ) : Bytes := (f.drop off).take n

/-! ### The serial loop -/

section Serial

variable (readAt : ℕ → ℕ → Bytes)

/-- `DbFile::read_exact_at`, with `done` in the buffer already. -/
def readExactAt (off len : ℕ) (done : Bytes) : Except IoError Bytes :=
  if _hmore : done.length < len then
    if _hgot : readAt (off + done.length) (len - done.length) = [] then .error .unexpectedEof
    else readExactAt off len (done ++ readAt (off + done.length) (len - done.length))
  else .ok done
termination_by len - done.length
decreasing_by
  have hpos := List.length_pos_of_ne_nil _hgot
  rw [List.length_append]
  omega

/-- `DbFile::read_many`. -/
def serialReadMany : List ReadReq → Except IoError (List ReadReq)
  | [] => .ok []
  | r :: reqs =>
    (readExactAt readAt r.off r.buf.length []).bind fun buf =>
      (serialReadMany reqs).map ({ r with buf := buf } :: ·)

end Serial

/-- What `pread` gives: some of the bytes asked for, none only when there are none. -/
def Reads (f : Bytes) (readAt : ℕ → ℕ → Bytes) : Prop :=
  ∀ off len, readAt off len <+: bytesAt f off len ∧ (readAt off len = [] → bytesAt f off len = [])

theorem bytesAt_add (f : Bytes) (off n m : ℕ) :
    bytesAt f off (n + m) = bytesAt f off n ++ bytesAt f (off + n) m := by
  rw [bytesAt, List.take_add, List.drop_drop, bytesAt, bytesAt]

theorem length_bytesAt_le (f : Bytes) (off n : ℕ) : (bytesAt f off n).length ≤ n := by
  rw [bytesAt, List.length_take]
  exact Nat.min_le_left _ _

/-- A read within the file goes through, whatever the portions. -/
theorem readExactAt_spec {f : Bytes} {readAt : ℕ → ℕ → Bytes} (hreads : Reads f readAt)
    {off len : ℕ} {done : Bytes}
    (hdone : done = bytesAt f off done.length) (hle : done.length ≤ len)
    (hfile : (bytesAt f off len).length = len) :
    readExactAt readAt off len done = .ok (bytesAt f off len) := by
  rw [readExactAt]
  by_cases hmore : done.length < len
  · rw [dif_pos hmore]
    obtain ⟨hinit, hnil⟩ := hreads (off + done.length) (len - done.length)
    have hsplit := bytesAt_add f off done.length (len - done.length)
    rw [Nat.add_sub_cancel' hle, ← hdone] at hsplit
    have hrest : (bytesAt f (off + done.length) (len - done.length)).length =
        len - done.length := by
      have hlen := congrArg List.length hsplit
      rw [hfile, List.length_append] at hlen
      omega
    by_cases hgot : readAt (off + done.length) (len - done.length) = []
    · -- the file does not end here
      rw [hnil hgot] at hrest
      exact absurd hrest (by simp only [List.length_nil]; omega)
    · have hshort := hinit.length_le
      have htake := List.prefix_iff_eq_take.mp hinit
      rw [bytesAt, List.take_take,
        Nat.min_eq_left (hshort.trans (length_bytesAt_le _ _ _))] at htake
      rw [dif_neg hgot]
      refine readExactAt_spec hreads ?_ ?_ hfile
      · rw [List.length_append, bytesAt_add, ← hdone]
        exact congrArg _ htake
      · rw [List.length_append]
        omega
  · have hlen : done.length = len := by omega
    rw [dif_neg hmore, ← hlen, ← hdone]
termination_by len - done.length
decreasing_by
  have hpos := List.length_pos_of_ne_nil hgot
  rw [List.length_append]
  omega

/-- The buffer holds the file's bytes. -/
def Whole (f : Bytes) (q : ReadReq) : Prop := q.buf = bytesAt f q.off q.buf.length

/-- The same requests, with buffers of the same lengths. -/
def Same (asked reqs : List ReadReq) : Prop :=
  List.Forall₂ (fun a q => q.off = a.off ∧ q.buf.length = a.buf.length) asked reqs

/-- Filled buffers are what the serial loop returns. -/
theorem serialReadMany_spec {f : Bytes} {readAt : ℕ → ℕ → Bytes} (hreads : Reads f readAt)
    {asked reqs : List ReadReq} (hsame : Same asked reqs) (hwhole : ∀ q ∈ reqs, Whole f q) :
    serialReadMany readAt asked = .ok reqs := by
  induction hsame with
  | nil => rfl
  | @cons a q asked reqs hq _ ih =>
    obtain ⟨hoff, hlen⟩ := hq
    have hbuf := hwhole q List.mem_cons_self
    have hexact : readExactAt readAt a.off a.buf.length [] = .ok q.buf := by
      rw [← hoff, ← hlen]
      rw [readExactAt_spec hreads rfl (Nat.zero_le _) (congrArg List.length hbuf).symm]
      exact congrArg _ hbuf.symm
    have hreq : { a with buf := q.buf } = q := by
      cases a
      cases q
      cases hoff
      rfl
    rw [serialReadMany, hexact, ih fun r hr => hwhole r (List.mem_cons_of_mem q hr)]
    show Except.ok ({ a with buf := q.buf } :: reqs) = _
    rw [hreq]

/-! ### The ring -/

def RING_ENTRIES : ℕ := 128

/-- A read that is queued or in flight.  Its buffer pointer is the call's that pushed
it, for the request behind `userData` of the chunk. -/
structure Sqe where
  call : ℕ
  file : ℕ
  off : ℕ
  len : ℕ
  userData : ℕ
  deriving DecidableEq, Repr

/-- A completion: an error, or how many bytes were read. -/
structure Cqe where
  call : ℕ
  userData : ℕ
  result : ℤ
  deriving DecidableEq, Repr

structure Ring where
  sq : List Sqe
  inflight : List Sqe
  cq : List Cqe
  deriving DecidableEq, Repr

def Ring.empty : Ring := ⟨[], [], []⟩

/-- Where a call is. -/
inductive Phase
  /-- At the top of the loop over chunks. -/
  | chunk
  /-- At the top of the loop over completions, one short at least. -/
  | wait
  /-- Reaping, with so many completions to go. -/
  | reap (visible : ℕ)
  /-- Finishing short reads. -/
  | finish
  deriving DecidableEq, Repr

structure Call where
  file : ℕ
  /-- The requests as they came. -/
  asked : List ReadReq
  reqs : List ReadReq
  start : ℕ
  chunkLen : ℕ
  completed : ℕ
  short : List (ℕ × ℕ)
  phase : Phase
  deriving DecidableEq, Repr

inductive Outcome
  | ok (reqs : List ReadReq)
  | err (e : IoError)
  | panic
  deriving DecidableEq, Repr

structure Returned where
  file : ℕ
  asked : List ReadReq
  outcome : Outcome
  deriving DecidableEq, Repr

/-- A completion, and the call and the chunk it was counted for. -/
structure Counted where
  call : ℕ
  chunkLen : ℕ
  cqe : Cqe
  deriving DecidableEq, Repr

structure State where
  ring : Ring
  /-- The calls so far. -/
  calls : ℕ
  current : Option Call
  counted : List Counted
  returned : List Returned
  deriving DecidableEq, Repr

inductive Action
  /-- `read_many` is called, and takes the ring. -/
  | readMany (file : ℕ) (reqs : List ReadReq)
  | push
  /-- The kernel takes some of the queue, and the call succeeds or fails. -/
  | submit (taken : ℕ) (failed : Option ℕ)
  /-- The kernel completes a read. -/
  | complete (i : ℕ) (result : ℤ)
  | reap
  /-- A short read is finished, or it fails. -/
  | finish (failed : Option ℕ)
  deriving DecidableEq, Repr

/-- Put bytes into a buffer from a position on. -/
def ReadReq.write (q : ReadReq) (pos : ℕ) (data : Bytes) : ReadReq :=
  { q with buf := q.buf.take pos ++ (data ++ q.buf.drop (pos + data.length)) }

/-- Put bytes into the buffer of a request of the chunk. -/
def Call.write (c : Call) (idx pos : ℕ) (data : Bytes) : Call :=
  { c with reqs := c.reqs.modify (c.start + idx) fun q => q.write pos data }

/-- The call returns and the ring is released as it is. -/
def State.leave (s : State) (c : Call) (outcome : Outcome) : State :=
  { s with current := none, returned := s.returned ++ [⟨c.file, c.asked, outcome⟩] }

def Call.chunk (c : Call) : List ReadReq := (c.reqs.drop c.start).take c.chunkLen

/-- The reads of a chunk. -/
def Call.sqes (call : ℕ) (c : Call) : List Sqe :=
  c.chunk.zipIdx.map fun p => ⟨call, c.file, p.1.off, p.1.buf.length % 2 ^ 32, p.2⟩

def State.readMany (s : State) (file : ℕ) (reqs : List ReadReq) : Option State :=
  match s.current with
  | some _ => none
  | none =>
    let c : Call := ⟨file, reqs, reqs, 0, 0, 0, [], .chunk⟩
    let s := { s with calls := s.calls + 1 }
    if reqs = [] then some (s.leave c (.ok [])) else some { s with current := some c }

/-- Push the chunk; a queue without room for it is a panic. -/
def State.push (s : State) (c : Call) : Option State :=
  if c.phase = .chunk then
    let c := { c with
      chunkLen := min (c.reqs.length - c.start) RING_ENTRIES
      completed := 0
      short := []
      phase := .wait }
    let sq := s.ring.sq ++ c.sqes s.calls
    if RING_ENTRIES < sq.length then
      some ({ s with ring := { s.ring with sq := sq.take RING_ENTRIES } }.leave c .panic)
    else some { s with ring := { s.ring with sq := sq }, current := some c }
  else none

/-- `submit_and_wait`; an interrupted one is repeated. -/
def State.submit (s : State) (c : Call) (taken : ℕ) (failed : Option ℕ) : Option State :=
  if c.phase = .wait ∧ taken ≤ s.ring.sq.length then
    let s := { s with
      ring :=
        { s.ring with
          sq := s.ring.sq.drop taken
          inflight := s.ring.inflight ++ s.ring.sq.take taken } }
    match failed with
    | none => some { s with current := some { c with phase := .reap s.ring.cq.length } }
    | some errno => if errno = EINTR then some s else some (s.leave c (.err (.os errno)))
  else none

/-- The kernel completes a read: with an error, or with bytes of the file up to the
length asked for.  The buffers of a call that has returned are nobody's. -/
def State.complete (files : ℕ → Bytes) (s : State) (i : ℕ) (result : ℤ) : Option State :=
  s.ring.inflight[i]?.bind fun e =>
    let data := bytesAt (files e.file) e.off result.toNat
    if result < 0 ∨ result.toNat ≤ e.len ∧ data.length = result.toNat then
      some { s with
        ring :=
          { s.ring with
            inflight := s.ring.inflight.eraseIdx i
            cq := s.ring.cq ++ [⟨e.call, e.userData, result⟩] }
        current := s.current.map fun c => if e.call = s.calls then
          c.write e.userData 0 data else c }
    else none

/-- One completion of those that are visible, or the end of the loop over them. -/
def State.reap (s : State) (c : Call) : Option State :=
  match c.phase, s.ring.cq with
  | .reap 0, _ =>
    some
      { s with current := some { c with
          phase := if c.completed < c.chunkLen then .wait else .finish } }
  | .reap (visible + 1), e :: cq =>
    let c := { c with completed := c.completed + 1, phase := .reap visible }
    let s :=
      { s with
        ring := { s.ring with cq := cq }
        counted := s.counted ++ [Counted.mk s.calls c.chunkLen e] }
    if e.result < 0 then some (s.leave c (.err (.os (-e.result).toNat)))
    else
      match c.chunk[e.userData]? with
      | none => some (s.leave c .panic)
      | some q =>
        if e.result.toNat < q.buf.length then
          some
            { s with current := some { c with short := c.short ++ [(e.userData, e.result.toNat)] } }
        else some { s with current := some c }
  | _, _ => none

/-- Finish the next short read, or go on behind the chunk. -/
def State.finish (files : ℕ → Bytes) (s : State) (c : Call) (failed : Option ℕ) : Option State :=
  if c.phase = .finish then
    match c.short with
    | [] =>
      let c := { c with start := c.start + c.chunkLen, phase := .chunk }
      if c.start < c.reqs.length then some { s with current := some c }
      else some (s.leave c (.ok c.reqs))
    | (idx, got) :: short =>
      match c.chunk[idx]?, failed with
      | none, _ => some (s.leave c .panic)
      | some _, some errno => some (s.leave c (.err (.os errno)))
      | some q, none =>
        let data := bytesAt (files c.file) (q.off + got) (q.buf.length - got)
        if data.length = q.buf.length - got then
          some { s with current := some { c.write idx got data with short := short } }
        else some (s.leave c (.err .unexpectedEof))
  else none

def step (files : ℕ → Bytes) (s : State) : Action → Option State
  | .readMany file reqs => s.readMany file reqs
  | .push => s.current.bind s.push
  | .submit taken failed => s.current.bind fun c => s.submit c taken failed
  | .complete i result => s.complete files i result
  | .reap => s.current.bind s.reap
  | .finish failed => s.current.bind fun c => s.finish files c failed

/-- A ring of the pool, over files with these contents. -/
def ring (files : ℕ → Bytes) : System State Action where
  init := State.mk .empty 0 none [] []
  step := step files

/-! ### Buffers -/

/-- The first bytes of the buffer are the file's. -/
def Filled (f : Bytes) (q : ReadReq) (n : ℕ) : Prop :=
  (bytesAt f q.off n).length = n ∧ q.buf.take n = bytesAt f q.off n

theorem Filled.le {f : Bytes} {q : ReadReq} {n : ℕ} (h : Filled f q n) : n ≤ q.buf.length := by
  have hlen := congrArg List.length h.2
  rw [h.1, List.length_take] at hlen
  omega

theorem Filled.whole {f : Bytes} {q : ReadReq} (h : Filled f q q.buf.length) : Whole f q := by
  have htake := h.2
  rwa [List.take_length] at htake

theorem Whole.filled {f : Bytes} {q : ReadReq} (h : Whole f q) {n : ℕ} (hn : n ≤ q.buf.length) :
    Filled f q n := by
  have htake : q.buf.take n = bytesAt f q.off n := by
    have hbytes := congrArg (List.take n) h
    rwa [bytesAt, List.take_take, Nat.min_eq_left hn] at hbytes
  refine ⟨?_, htake⟩
  rw [← htake, List.length_take, Nat.min_eq_left hn]

theorem ReadReq.length_write (q : ReadReq) {pos : ℕ} {data : Bytes}
    (h : pos + data.length ≤ q.buf.length) :
    (q.write pos data).buf.length = q.buf.length := by
  simp only [ReadReq.write, List.length_append, List.length_take, List.length_drop]
  omega

/-- What the kernel reads is in the buffer. -/
theorem filled_write {f : Bytes} {q : ReadReq} {n : ℕ} (h : (bytesAt f q.off n).length = n) :
    Filled f (q.write 0 (bytesAt f q.off n)) n := by
  refine ⟨h, ?_⟩
  show (([] : Bytes) ++ (bytesAt f q.off n ++ _)).take n = bytesAt f q.off n
  rw [List.nil_append, ← h, h, List.take_append_of_le_length (le_of_eq h.symm),
    List.take_of_length_le (le_of_eq h)]

/-- A short read is finished. -/
theorem whole_write {f : Bytes} {q : ReadReq} {got : ℕ} (h : Filled f q got)
    (hrest : (bytesAt f (q.off + got) (q.buf.length - got)).length = q.buf.length - got) :
    Whole f (q.write got (bytesAt f (q.off + got) (q.buf.length - got))) := by
  have hle := h.le
  have hlen : (q.write got (bytesAt f (q.off + got) (q.buf.length - got))).buf.length =
      q.buf.length :=
    q.length_write (by omega)
  have hdrop : q.buf.drop (got + (bytesAt f (q.off + got) (q.buf.length - got)).length) = [] :=
    List.drop_eq_nil_of_le (by omega)
  rw [Whole, hlen]
  show q.buf.take got ++ (_ ++ q.buf.drop _) = bytesAt f q.off q.buf.length
  rw [hdrop, List.append_nil, h.2, ← bytesAt_add, Nat.add_sub_cancel' hle]

theorem Call.getElem?_chunk {c : Call} {i : ℕ} (h : i < c.chunkLen) :
    c.chunk[i]? = c.reqs[c.start + i]? := by
  rw [Call.chunk, List.getElem?_take_of_lt h, List.getElem?_drop]

/-- A write changes the buffer it is for. -/
theorem Call.chunk_write (c : Call) (idx pos : ℕ) (data : Bytes) (i : ℕ) :
    (c.write idx pos data).chunk[i]? =
      if idx = i then c.chunk[i]?.map fun q => q.write pos data else c.chunk[i]? := by
  by_cases hi : i < c.chunkLen
  · have hwrite : (c.write idx pos data).chunk[i]? = (c.write idx pos data).reqs[c.start + i]? :=
      Call.getElem?_chunk (c := c.write idx pos data) hi
    rw [hwrite, Call.getElem?_chunk hi]
    show (c.reqs.modify (c.start + idx) _)[c.start + i]? = _
    rw [List.getElem?_modify]
    by_cases heq : idx = i
    · simp [heq]
    · simp [heq]
  · -- behind the chunk
    have hnone : ∀ c' : Call, c'.chunkLen = c.chunkLen → c'.chunk[i]? = none := by
      intro c' hlen
      rw [Call.chunk, List.getElem?_eq_none]
      rw [List.length_take, hlen]
      omega
    rw [hnone (c.write idx pos data) rfl, hnone c rfl]
    simp

theorem Same.modify {asked reqs : List ReadReq} (h : Same asked reqs) (k : ℕ)
    {f : ReadReq → ReadReq}
    (hf : ∀ q, reqs[k]? = some q → (f q).off = q.off ∧ (f q).buf.length = q.buf.length) :
    Same asked (reqs.modify k f) := by
  unfold Same at h ⊢
  induction h generalizing k with
  | nil => cases k <;> exact .nil
  | @cons a q asked reqs hq hrest ih =>
    cases k with
    | zero =>
      obtain ⟨hoff, hlen⟩ := hf q rfl
      exact .cons ⟨hoff.trans hq.1, hlen.trans hq.2⟩ hrest
    | succ k => exact .cons hq (ih k fun r hr => hf r hr)

/-! ### The invariant -/

/-- While a chunk is read: the reads that are queued, in flight and to be reaped,
and those that are `done`, are the requests of the chunk, each once. -/
structure Call.Running (files : ℕ → Bytes) (call : ℕ) (c : Call) (r : Ring) (done : List ℕ) :
    Prop where
  fits : c.start + c.chunkLen ≤ c.reqs.length
  once : (r.sq.map Sqe.userData ++
    (r.inflight.map Sqe.userData ++ (r.cq.map Cqe.userData ++ done))).Perm (List.range c.chunkLen)
  completed : c.completed = done.length
  /-- A read that is out is for the buffer of its request. -/
  out : ∀ e ∈ r.sq ++ r.inflight, e.call = call ∧ e.file = c.file ∧
    ∃ q, c.chunk[e.userData]? = some q ∧ e.off = q.off ∧ e.len ≤ q.buf.length
  /-- A read that is complete has put its bytes there. -/
  reaped : ∀ e ∈ r.cq, e.call = call ∧
    (0 ≤ e.result → ∃ q, c.chunk[e.userData]? = some q ∧ Filled (files c.file) q e.result.toNat)
  short : ∀ p ∈ c.short, p.1 ∈ done ∧ ∃ q, c.chunk[p.1]? = some q ∧ Filled (files c.file) q p.2
  done : ∀ i ∈ done, (∃ got, (i, got) ∈ c.short) ∨ ∃ q, c.chunk[i]? = some q ∧
    Whole (files c.file) q

/-- What holds while a call has the ring. -/
structure Call.Inv (files : ℕ → Bytes) (call : ℕ) (c : Call) (r : Ring) : Prop where
  same : Same c.asked c.reqs
  before : ∀ i < c.start, ∀ q, c.reqs[i]? = some q → Whole (files c.file) q
  chunk : c.phase = .chunk → r = .empty ∧ c.start < c.reqs.length
  running : c.phase ≠ .chunk → ∃ done, c.Running files call r done
  visible : ∀ v, c.phase = .reap v → v ≤ r.cq.length
  finish : c.phase = .finish → r = .empty

/-- **The invariant of a ring.**  It is empty when it is released. -/
structure Inv (files : ℕ → Bytes) (s : State) : Prop where
  released : s.current = none → s.ring = .empty
  call : ∀ c, s.current = some c → c.Inv files s.calls s.ring
  counted : ∀ e ∈ s.counted, e.cqe.call = e.call ∧ e.cqe.userData < e.chunkLen
  returned : ∀ r ∈ s.returned, r.outcome ≠ .panic ∧
    ∀ reqs, r.outcome = .ok reqs → Same r.asked reqs ∧ ∀ q ∈ reqs, Whole (files r.file) q

/-- The step does not leave a call while one of its reads is out: a submit fails by
an interruption only, and a failed completion is reaped as the last one of its chunk. -/
def Clean (s : State) : Action → Prop
  | .submit _ failed => failed = none ∨ failed = some EINTR
  | .reap => ∀ e ∈ s.ring.cq.head?, e.result < 0 → (∃ c ∈ s.current, c.phase = .reap 0) ∨
      s.ring.sq = [] ∧ s.ring.inflight = [] ∧ s.ring.cq.tail = []
  | _ => True

instance (s : State) (a : Action) : Decidable (Clean s a) :=
  match a with
  | .submit _ failed => inferInstanceAs (Decidable (failed = none ∨ failed = some EINTR))
  | .reap => inferInstanceAs (Decidable
    (∀ e ∈ s.ring.cq.head?, e.result < 0 → (∃ c ∈ s.current, c.phase = .reap 0) ∨
      s.ring.sq = [] ∧ s.ring.inflight = [] ∧ s.ring.cq.tail = []))
  | .readMany _ _ => inferInstanceAs (Decidable True)
  | .push => inferInstanceAs (Decidable True)
  | .complete _ _ => inferInstanceAs (Decidable True)
  | .finish _ => inferInstanceAs (Decidable True)

/-! ### One step -/

section Steps

variable {files : ℕ → Bytes} {s s' : State} {c : Call}

theorem Inv.leave (h : Inv files s) (hring : s.ring = .empty) {outcome : Outcome}
    (hpanic : outcome ≠ .panic)
    (hok : ∀ reqs, outcome = .ok reqs → Same c.asked reqs ∧ ∀ q ∈ reqs, Whole (files c.file) q) :
    Inv files (s.leave c outcome) where
  released _ := hring
  call _ hc := by cases hc
  counted := h.counted
  returned r hr := by
    rcases List.mem_append.mp hr with hr | hr
    · exact h.returned r hr
    · rw [List.mem_singleton.mp hr]
      exact ⟨hpanic, hok⟩

/-- The call goes on, on a ring that may have changed. -/
theorem Inv.going (h : Inv files s) (hc : s'.current = some c)
    (hcall : c.Inv files s'.calls s'.ring)
    (hcounted : ∀ e ∈ s'.counted, e.cqe.call = e.call ∧ e.cqe.userData < e.chunkLen)
    (hreturned : s'.returned = s.returned) : Inv files s' where
  released hnone := by rw [hc] at hnone; cases hnone
  call c' hc' := by
    obtain rfl := Option.some.inj (hc.symm.trans hc')
    exact hcall
  counted := hcounted
  returned := hreturned ▸ h.returned

theorem Inv.readMany (h : Inv files s) {file : ℕ} {reqs : List ReadReq}
    (hstep : s.readMany file reqs = some s') :
    Inv files s' := by
  unfold State.readMany at hstep
  cases hcur : s.current with
  | some c =>
    rw [hcur] at hstep
    cases hstep
  | none =>
    have hring := h.released hcur
    -- a fresh call, on the ring as it was released
    have hfresh : Inv files { s with calls := s.calls + 1 } :=
      ⟨fun _ => hring, fun c hc => absurd (hcur.symm.trans hc) (by simp), h.counted, h.returned⟩
    rw [hcur] at hstep
    dsimp only at hstep
    by_cases hnil : reqs = []
    · rw [if_pos hnil] at hstep
      obtain rfl := Option.some.inj hstep
      refine hfresh.leave hring (by simp) fun reqs' hreqs' => ?_
      obtain rfl := Outcome.ok.inj hreqs'
      rw [hnil]
      exact ⟨.nil, fun q hq => absurd hq List.not_mem_nil⟩
    · rw [if_neg hnil] at hstep
      obtain rfl := Option.some.inj hstep
      refine hfresh.going rfl ?_ h.counted rfl
      refine ⟨List.forall₂_same.mpr fun q _ => ⟨rfl, rfl⟩, fun i hi =>
        absurd hi (Nat.not_lt_zero i), fun _ => ?_, fun hne => absurd rfl hne, ?_, ?_⟩
      · exact ⟨hring, List.length_pos_of_ne_nil hnil⟩
      · intro v hv
        cases hv
      · intro hfinish
        cases hfinish

theorem Call.map_sqes (call : ℕ) (c : Call) :
    (c.sqes call).map Sqe.userData = List.range c.chunk.length := by
  rw [Call.sqes, List.map_map, List.range_eq_range', ← List.zipIdx_map_snd]
  rfl

/-- The reads of a chunk are queued. -/
theorem Call.Running.push (call : ℕ) (hfits : c.start + c.chunkLen ≤ c.reqs.length)
    (hcompleted : c.completed = 0)
    (hshort : c.short = []) : c.Running files call ⟨c.sqes call, [], []⟩ [] := by
  have hlen : c.chunk.length = c.chunkLen := by
    rw [Call.chunk, List.length_take, List.length_drop]
    omega
  refine ⟨hfits, ?_, hcompleted, ?_, ?_, ?_, ?_⟩
  · rw [c.map_sqes call, hlen]
    simp
  · intro e he
    rw [List.append_nil, Call.sqes, List.mem_map] at he
    obtain ⟨⟨q, i⟩, hq, rfl⟩ := he
    exact ⟨rfl, rfl, q, List.mem_zipIdx_iff_getElem?.mp hq, rfl, Nat.mod_le _ _⟩
  · intro e he
    cases he
  · intro p hp
    rw [hshort] at hp
    cases hp
  · intro i hi
    cases hi

theorem Inv.push (h : Inv files s) (hcur : s.current = some c) (hstep : s.push c = some s') :
    Inv files s' := by
  have hcall := h.call c hcur
  unfold State.push at hstep
  by_cases hphase : c.phase = .chunk
  · obtain ⟨hring, hstart⟩ := hcall.chunk hphase
    rw [if_pos hphase] at hstep
    dsimp only at hstep
    generalize hc' : ({ c with
      chunkLen := min (c.reqs.length - c.start) RING_ENTRIES
      completed := 0
      short := []
      phase := .wait } : Call) = c' at hstep
    have hfits : c'.start + c'.chunkLen ≤ c'.reqs.length := by
      rw [← hc']
      show c.start + min _ _ ≤ c.reqs.length
      omega
    have hrunning : c'.Running files s.calls ⟨c'.sqes s.calls, [], []⟩ [] :=
      .push s.calls hfits (hc' ▸ rfl) (hc' ▸ rfl)
    -- one entry for each request of the chunk, in a ring that is empty before
    have hroom : (s.ring.sq ++ c'.sqes s.calls).length = c'.chunkLen := by
      have hlen := congrArg List.length (c'.map_sqes s.calls)
      rw [List.length_map, List.length_range, Call.chunk, List.length_take,
        List.length_drop] at hlen
      rw [hring, show Ring.empty.sq = [] from rfl, List.nil_append, hlen]
      omega
    have hentries : ¬ RING_ENTRIES < (s.ring.sq ++ c'.sqes s.calls).length := by
      rw [hroom, ← hc']
      show ¬ RING_ENTRIES < min _ RING_ENTRIES
      omega
    rw [if_neg hentries] at hstep
    obtain rfl := Option.some.inj hstep
    refine h.going rfl ?_ h.counted rfl
    have hring' : ({ s.ring with sq := s.ring.sq ++ c'.sqes s.calls } : Ring) =
      ⟨c'.sqes s.calls, [], []⟩ := by
      rw [hring]
      rfl
    have hwait : c'.phase = .wait := hc' ▸ rfl
    refine ⟨hc' ▸ hcall.same, hc' ▸ hcall.before, fun hp => ?_, fun _ => ⟨[], hring' ▸ hrunning⟩,
      fun v hp => ?_, fun hp => ?_⟩
    · exact absurd (hwait.symm.trans hp) (by simp)
    · exact absurd (hwait.symm.trans hp) (by simp)
    · exact absurd (hwait.symm.trans hp) (by simp)
  · rw [if_neg hphase] at hstep
    cases hstep

/-- The kernel takes reads from the queue. -/
theorem Call.Running.submit {call : ℕ} {r : Ring} {done : List ℕ} (h : c.Running files call r done)
    (taken : ℕ) :
    c.Running files call { r with sq := r.sq.drop taken, inflight := r.inflight ++ r.sq.take taken }
      done := by
  refine ⟨h.fits, ?_, h.completed, fun e he => h.out e ?_, h.reaped, h.short, h.done⟩
  · -- the same reads, counted one by one
    refine List.Perm.trans (List.perm_iff_count.mpr fun i => ?_) h.once
    have hsq : r.sq.map Sqe.userData = (r.sq.take taken).map Sqe.userData ++
        (r.sq.drop taken).map Sqe.userData := by
      rw [← List.map_append, List.take_append_drop]
    rw [hsq]
    simp only [List.map_append, List.count_append]
    omega
  · rcases List.mem_append.mp he with he | he
    · exact List.mem_append_left _ (List.mem_of_mem_drop he)
    · rcases List.mem_append.mp he with he | he
      · exact List.mem_append_right _ he
      · exact List.mem_append_left _ (List.mem_of_mem_take he)

theorem Inv.submit (h : Inv files s) (hcur : s.current = some c) {taken : ℕ} {failed : Option ℕ}
    (hclean : failed = none ∨ failed = some EINTR) (hstep : s.submit c taken failed = some s') :
    Inv files s' := by
  have hcall := h.call c hcur
  unfold State.submit at hstep
  by_cases hphase : c.phase = .wait ∧ taken ≤ s.ring.sq.length
  · obtain ⟨done, hrunning⟩ := hcall.running (by simp [hphase.1])
    have hsubmit := hrunning.submit taken
    rw [if_pos hphase] at hstep
    rcases hclean with rfl | rfl
    · obtain rfl := Option.some.inj hstep
      refine h.going rfl ?_ h.counted rfl
      refine ⟨hcall.same, hcall.before, ?_, fun _ => ⟨done, ?_⟩, ?_, ?_⟩
      · intro hp
        cases hp
      · exact ⟨hsubmit.fits, hsubmit.once, hsubmit.completed, hsubmit.out, hsubmit.reaped,
          hsubmit.short, hsubmit.done⟩
      · intro v hv
        obtain rfl := Phase.reap.inj hv
        exact le_rfl
      · intro hp
        cases hp
    · -- interrupted: the loop goes round
      dsimp only at hstep
      rw [if_pos rfl] at hstep
      obtain rfl := Option.some.inj hstep
      refine h.going hcur ?_ h.counted rfl
      refine ⟨hcall.same, hcall.before, fun hp => absurd (hphase.1.symm.trans hp) (by simp),
        fun _ => ⟨done, hsubmit⟩, fun v hp => absurd (hphase.1.symm.trans hp) (by simp), fun hp =>
          absurd (hphase.1.symm.trans hp) (by simp)⟩
  · rw [if_neg hphase] at hstep
    cases hstep

/-- A write keeps the shape of every request of the chunk. -/
theorem Call.chunk_write_shape {idx pos : ℕ} {data : Bytes}
    (hfits : ∀ q, c.chunk[idx]? = some q → pos + data.length ≤ q.buf.length) {i : ℕ} {q : ReadReq}
    (hq : c.chunk[i]? = some q) : ∃ q', (c.write idx pos data).chunk[i]? = some q' ∧
      q'.off = q.off ∧ q'.buf.length = q.buf.length := by
  rw [Call.chunk_write]
  by_cases heq : idx = i
  · subst heq
    rw [if_pos rfl, hq]
    exact ⟨_, rfl, rfl, q.length_write (hfits q hq)⟩
  · rw [if_neg heq]
    exact ⟨q, hq, rfl, rfl⟩

theorem Call.same_write (hsame : Same c.asked c.reqs) {idx pos : ℕ} {data : Bytes}
    (hidx : idx < c.chunkLen)
    (hfits : ∀ q, c.chunk[idx]? = some q → pos + data.length ≤ q.buf.length) :
    Same (c.write idx pos data).asked (c.write idx pos data).reqs :=
  hsame.modify _ fun q hq => ⟨rfl, q.length_write (hfits q (Call.getElem?_chunk hidx ▸ hq))⟩

theorem Call.before_write {f : Bytes}
    (hbefore : ∀ i < c.start, ∀ q, c.reqs[i]? = some q → Whole f q) (idx pos : ℕ)
    (data : Bytes) : ∀ i < (c.write idx pos data).start, ∀ q,
      (c.write idx pos data).reqs[i]? = some q → Whole f q := by
  intro i hi q hq
  have hlt : i < c.start := hi
  refine hbefore i hlt q ?_
  rw [← hq]
  show _ = (c.reqs.modify _ _)[i]?
  have hne : c.start + idx ≠ i := by omega
  rw [List.getElem?_modify]
  simp [hne]

/-- What is in flight is not reaped or done. -/
theorem Call.Running.ne {call : ℕ} {r : Ring} {done : List ℕ}
    (h : c.Running files call r done) {e : Sqe}
    (he : e ∈ r.inflight) {i : ℕ} (hi : i ∈ r.cq.map Cqe.userData ++ done) : e.userData ≠ i := by
  have hnodup := h.once.nodup_iff.mpr List.nodup_range
  exact (List.nodup_append.mp (List.nodup_append.mp hnodup).2.1).2.2 _ (List.mem_map_of_mem he) _ hi

/-- A read in flight is completed. -/
theorem Call.Running.complete {call : ℕ} {r : Ring} {done : List ℕ}
    (h : c.Running files call r done) {i : ℕ} {e : Sqe}
    (he : r.inflight[i]? = some e) {result : ℤ} (hle : result.toNat ≤ e.len)
    (hread : (bytesAt (files e.file) e.off result.toNat).length = result.toNat) :
    (c.write e.userData 0 (bytesAt (files e.file) e.off result.toNat)).Running files call
      { r with inflight := r.inflight.eraseIdx i, cq := r.cq ++ [⟨e.call, e.userData, result⟩] }
        done := by
  have hmem := List.mem_of_getElem? he
  obtain ⟨hcall, hfile, q, hq, hoff, hlen⟩ := h.out e (List.mem_append_right _ hmem)
  have hfits : ∀ q', c.chunk[e.userData]? = some q' →
      0 + (bytesAt (files e.file) e.off result.toNat).length ≤ q'.buf.length := by
    intro q' hq'
    obtain rfl := Option.some.inj (hq.symm.trans hq')
    omega
  have hother : ∀ {j}, j ∈ r.cq.map Cqe.userData ++ done →
      (c.write e.userData 0 (bytesAt (files e.file) e.off result.toNat)).chunk[j]? =
        c.chunk[j]? := by
    intro j hj
    rw [Call.chunk_write, if_neg (h.ne hmem hj)]
  refine ⟨?_, ?_, h.completed, ?_, ?_, ?_, ?_⟩
  · show c.start + c.chunkLen ≤ (c.reqs.modify _ _).length
    rw [List.length_modify]
    exact h.fits
  · -- one read moves from the reads in flight to the completions
    refine List.Perm.trans (List.perm_iff_count.mpr fun j => ?_) h.once
    obtain ⟨hi, rfl⟩ := List.getElem?_eq_some_iff.mp he
    have hsplit : r.inflight = r.inflight.take i ++ r.inflight[i] :: r.inflight.drop (i + 1) := by
      rw [← List.drop_eq_getElem_cons hi, List.take_append_drop]
    have hcount := congrArg (fun l => (l.map Sqe.userData).count j) hsplit
    simp only [List.map_append, List.map_cons, List.count_append, List.count_cons] at hcount
    simp only [List.eraseIdx_eq_take_drop_succ, List.map_append, List.count_append, List.map_cons,
      List.map_nil, List.count_cons, List.count_nil]
    omega
  · intro e' he'
    have hold : e' ∈ r.sq ++ r.inflight := by
      rcases List.mem_append.mp he' with he' | he'
      · exact List.mem_append_left _ he'
      · exact List.mem_append_right _ (List.mem_of_mem_eraseIdx he')
    obtain ⟨hcall', hfile', q', hq', hoff', hlen'⟩ := h.out e' hold
    obtain ⟨q'', hq'', hoff'', hlen''⟩ := Call.chunk_write_shape hfits hq'
    exact ⟨hcall', hfile', q'', hq'', hoff'.trans hoff''.symm, hlen''.symm ▸ hlen'⟩
  · intro e' he'
    rcases List.mem_append.mp he' with he' | he'
    · obtain ⟨hcall', hfilled⟩ := h.reaped e' he'
      refine ⟨hcall', fun h0 => ?_⟩
      rw [hother (List.mem_append_left _ (List.mem_map_of_mem he'))]
      exact hfilled h0
    · obtain rfl := List.mem_singleton.mp he'
      refine ⟨hcall, fun _ => ⟨q.write 0 (bytesAt (files e.file) e.off result.toNat), ?_, ?_⟩⟩
      · rw [Call.chunk_write, if_pos rfl, hq]
        rfl
      · rw [hfile, hoff] at hread ⊢
        exact filled_write hread
  · intro p hp
    obtain ⟨hdone, hfilled⟩ := h.short p hp
    refine ⟨hdone, ?_⟩
    rw [hother (List.mem_append_right _ hdone)]
    exact hfilled
  · intro j hj
    rw [hother (List.mem_append_right _ hj)]
    exact h.done j hj

theorem Inv.complete (h : Inv files s) {i : ℕ} {result : ℤ}
    (hstep : s.complete files i result = some s') :
    Inv files s' := by
  unfold State.complete at hstep
  obtain ⟨e, he, hstep⟩ := Option.bind_eq_some_iff.mp hstep
  have hbusy : s.ring ≠ .empty := by
    intro hempty
    rw [hempty] at he
    cases he
  cases hcur : s.current with
  | none => exact absurd (h.released hcur) hbusy
  | some c =>
    have hcall := h.call c hcur
    have hphase : c.phase ≠ .chunk := fun hp => hbusy (hcall.chunk hp).1
    obtain ⟨done, hrunning⟩ := hcall.running hphase
    obtain ⟨hown, -, q, hq, -, hlen⟩ :=
      hrunning.out e (List.mem_append_right _ (List.mem_of_getElem? he))
    dsimp only at hstep
    by_cases hlegal : result < 0 ∨ result.toNat ≤ e.len ∧
        (bytesAt (files e.file) e.off result.toNat).length = result.toNat
    · rw [if_pos hlegal] at hstep
      obtain rfl := Option.some.inj hstep
      -- an error brings no bytes
      have hbytes : result.toNat ≤ e.len ∧ (bytesAt (files e.file) e.off result.toNat).length =
          result.toNat := by
        rcases hlegal with hneg | hbytes
        · rw [Int.toNat_of_nonpos hneg.le]
          exact ⟨Nat.zero_le _, rfl⟩
        · exact hbytes
      have hcomplete := hrunning.complete he hbytes.1 hbytes.2
      have hidx : e.userData < c.chunkLen := by
        have hperm := hrunning.once.mem_iff (a := e.userData)
        rw [List.mem_range] at hperm
        exact hperm.mp (List.mem_append_right _
          (List.mem_append_left _ (List.mem_map_of_mem (List.mem_of_getElem? he))))
      have hcur' : (s.current.map fun c => if e.call = s.calls then
          c.write e.userData 0 (bytesAt (files e.file) e.off result.toNat) else c) =
            some (c.write e.userData 0 (bytesAt (files e.file) e.off result.toNat)) := by
        rw [hcur, Option.map_some, if_pos hown]
      refine h.going hcur' ?_ h.counted rfl
      refine ⟨Call.same_write hcall.same hidx
        fun q' hq' => ?_, Call.before_write hcall.before _ _ _,
        fun hp => absurd hp hphase, fun _ => ⟨done, hcomplete⟩, fun v hv => ?_, fun hp => ?_⟩
      · obtain rfl := Option.some.inj (hq.symm.trans hq')
        omega
      · show v ≤ (s.ring.cq ++ _).length
        rw [List.length_append]
        exact Nat.le_add_right_of_le (hcall.visible v hv)
      · exact absurd (hcall.finish hp) hbusy
    · rw [if_neg hlegal] at hstep
      cases hstep

/-- A completion is taken from the queue and counted. -/
theorem Call.Running.reap {call : ℕ} {sq inflight : List Sqe} {e : Cqe} {cq : List Cqe}
    {done : List ℕ}
    (h : c.Running files call ⟨sq, inflight, e :: cq⟩ done) (he : 0 ≤ e.result) {q : ReadReq}
    (hq : c.chunk[e.userData]? = some q) {short : List (ℕ × ℕ)} {phase : Phase}
    (hshort : short = if e.result.toNat < q.buf.length then
      c.short ++ [(e.userData, e.result.toNat)] else c.short) :
    Call.Running files call { c with completed := c.completed + 1, short := short, phase := phase }
      ⟨sq, inflight, cq⟩ (e.userData :: done) := by
  obtain ⟨-, hfilled⟩ := h.reaped e List.mem_cons_self
  obtain ⟨q', hq', hfilled⟩ := hfilled he
  obtain rfl := Option.some.inj (hq.symm.trans hq')
  have hkept : ∀ p ∈ c.short, p ∈ short := by
    intro p hp
    rw [hshort]
    by_cases hlt : e.result.toNat < q.buf.length
    · rw [if_pos hlt]
      exact List.mem_append_left _ hp
    · rwa [if_neg hlt]
  refine ⟨h.fits, ?_, congrArg (· + 1) h.completed, h.out, fun e' he' =>
    h.reaped e' (List.mem_cons_of_mem e he'), ?_, ?_⟩
  · refine List.Perm.trans (List.perm_iff_count.mpr fun j => ?_) h.once
    simp only [List.map_cons, List.count_append, List.count_cons]
    omega
  · intro p hp
    have hcases : p ∈ c.short ∨ p = (e.userData, e.result.toNat) := by
      rw [hshort] at hp
      by_cases hlt : e.result.toNat < q.buf.length
      · rw [if_pos hlt] at hp
        exact (List.mem_append.mp hp).imp_right List.mem_singleton.mp
      · rw [if_neg hlt] at hp
        exact Or.inl hp
    rcases hcases with hold | rfl
    · obtain ⟨hdone, hslot⟩ := h.short p hold
      exact ⟨List.mem_cons_of_mem _ hdone, hslot⟩
    · exact ⟨List.mem_cons_self, q, hq, hfilled⟩
  · intro i hi
    rcases List.mem_cons.mp hi with rfl | hi
    · by_cases hlt : e.result.toNat < q.buf.length
      · left
        refine ⟨e.result.toNat, ?_⟩
        show _ ∈ short
        rw [hshort, if_pos hlt]
        exact List.mem_append_right _ (List.mem_singleton_self _)
      · -- as many bytes as the buffer holds
        have hfull : e.result.toNat = q.buf.length := le_antisymm hfilled.le (not_lt.mp hlt)
        rw [hfull] at hfilled
        exact Or.inr ⟨q, hq, hfilled.whole⟩
    · rcases h.done i hi with ⟨got, hgot⟩ | hwhole
      · exact Or.inl ⟨got, hkept _ hgot⟩
      · exact Or.inr hwhole

/-- When enough is counted, nothing is out. -/
theorem Call.Running.finished {call : ℕ} {r : Ring} {done : List ℕ}
    (h : c.Running files call r done) (hcompleted : c.chunkLen ≤ c.completed) : r = .empty := by
  have hlen := h.once.length_eq
  rw [h.completed] at hcompleted
  simp only [List.length_append, List.length_map, List.length_range] at hlen
  obtain ⟨sq, inflight, cq⟩ := r
  have hsq : sq = [] := List.length_eq_zero_iff.mp (by dsimp only at hlen; omega)
  have hinflight : inflight = [] := List.length_eq_zero_iff.mp (by dsimp only at hlen; omega)
  have hcq : cq = [] := List.length_eq_zero_iff.mp (by dsimp only at hlen; omega)
  rw [hsq, hinflight, hcq]
  rfl

theorem Inv.reap (h : Inv files s) (hcur : s.current = some c) (hclean : Clean s .reap)
    (hstep : s.reap c = some s') : Inv files s' := by
  have hcall := h.call c hcur
  unfold State.reap at hstep
  cases hphase : c.phase with
  | chunk => rw [hphase] at hstep; cases hstep
  | wait => rw [hphase] at hstep; cases hstep
  | finish => rw [hphase] at hstep; cases hstep
  | reap visible =>
    obtain ⟨done, hrunning⟩ := hcall.running (by simp [hphase])
    have hvisible := hcall.visible visible hphase
    rw [hphase] at hstep
    cases visible with
    | zero =>
      -- the loop over what is visible ends
      have hs' :
          { s with current := some { c with
              phase := if c.completed < c.chunkLen then .wait else .finish } } = s' :=
        Option.some.inj hstep
      subst hs'
      refine h.going rfl ?_ h.counted rfl
      refine ⟨hcall.same, hcall.before, fun hp => ?_, fun _ => ⟨done, ?_⟩,
        fun v hp => ?_, fun hp => ?_⟩
      · dsimp only at hp
        split at hp <;> cases hp
      · exact ⟨hrunning.fits, hrunning.once, hrunning.completed, hrunning.out, hrunning.reaped,
          hrunning.short, hrunning.done⟩
      · dsimp only at hp
        split at hp <;> cases hp
      · dsimp only at hp
        by_cases hmore : c.completed < c.chunkLen
        · rw [if_pos hmore] at hp
          cases hp
        · exact hrunning.finished (not_lt.mp hmore)
    | succ visible =>
      obtain ⟨⟨sq, inflight, cq⟩, calls, current, counted, returned⟩ := s
      cases cq with
      | nil => exact absurd hvisible (Nat.not_succ_le_zero _)
      | cons e cq =>
        dsimp only at hcur hvisible hstep hrunning
        have hidx : e.userData < c.chunkLen := by
          have hperm := hrunning.once.mem_iff (a := e.userData)
          rw [List.mem_range] at hperm
          refine hperm.mp
            (List.mem_append_right _ (List.mem_append_right _ (List.mem_append_left _ ?_)))
          exact List.mem_cons_self
        obtain ⟨hown, hfilled⟩ := hrunning.reaped e List.mem_cons_self
        have hcounted : ∀ e' ∈ counted ++ [Counted.mk calls c.chunkLen e],
            e'.cqe.call = e'.call ∧ e'.cqe.userData < e'.chunkLen := by
          intro e' he'
          rcases List.mem_append.mp he' with he' | he'
          · exact h.counted e' he'
          · rw [List.mem_singleton.mp he']
            exact ⟨hown, hidx⟩
        by_cases hneg : e.result < 0
        · -- the call leaves, and nothing is out
          rw [if_pos hneg] at hstep
          obtain rfl := Option.some.inj hstep
          rcases hclean e rfl hneg with ⟨c', hc', hp⟩ | ⟨hsq, hinflight, hcq⟩
          · obtain rfl := Option.some.inj (hcur.symm.trans hc')
            rw [hphase] at hp
            cases hp
          · have hring : (⟨sq, inflight, cq⟩ : Ring) = .empty := by
              rw [show sq = [] from hsq, show inflight = [] from hinflight, show cq = [] from hcq]
              rfl
            refine ⟨fun _ => hring, fun c' hc' => (by cases hc'), hcounted, fun r hr => ?_⟩
            rcases List.mem_append.mp hr with hr | hr
            · exact h.returned r hr
            · rw [List.mem_singleton.mp hr]
              exact ⟨by simp, fun reqs hreqs => (by cases hreqs)⟩
        · rw [if_neg hneg] at hstep
          obtain ⟨q, hq, -⟩ := hfilled (not_lt.mp hneg)
          have hchunk :
              (Call.chunk
                { c with completed := c.completed + 1, phase := .reap visible })[e.userData]? =
                  some q :=
            hq
          rw [hchunk] at hstep
          dsimp only at hstep
          have hvisible' : ∀ v, Phase.reap visible = .reap v → v ≤ cq.length := by
            intro v hv
            obtain rfl := Phase.reap.inj hv
            exact Nat.le_of_succ_le_succ hvisible
          by_cases hlt : e.result.toNat < q.buf.length
          · rw [if_pos hlt] at hstep
            obtain rfl := Option.some.inj hstep
            refine h.going rfl ?_ hcounted rfl
            refine ⟨hcall.same, hcall.before, fun hp => (by cases hp), fun _ =>
              ⟨e.userData :: done, ?_⟩, hvisible', fun hp => (by cases hp)⟩
            exact hrunning.reap (not_lt.mp hneg) hq (if_pos hlt).symm
          · rw [if_neg hlt] at hstep
            obtain rfl := Option.some.inj hstep
            refine h.going rfl ?_ hcounted rfl
            refine ⟨hcall.same, hcall.before, fun hp => (by cases hp), fun _ =>
              ⟨e.userData :: done, ?_⟩, hvisible', fun hp => (by cases hp)⟩
            exact hrunning.reap (not_lt.mp hneg) hq (if_neg hlt).symm

/-- The short read at the head of the list is finished. -/
theorem Call.Running.finish {call : ℕ} {done : List ℕ} {idx got : ℕ} {short : List (ℕ × ℕ)}
    (h : c.Running files call .empty done) (hshort : c.short = (idx, got) :: short) {q : ReadReq}
    (hq : c.chunk[idx]? = some q)
    (hrest : (bytesAt (files c.file) (q.off + got) (q.buf.length - got)).length =
      q.buf.length - got) :
    Call.Running files call
      { c.write idx got (bytesAt (files c.file) (q.off + got)
        (q.buf.length - got)) with short := short }
      .empty done := by
  obtain ⟨-, q', hq', hfilled⟩ := h.short (idx, got) (hshort ▸ List.mem_cons_self)
  obtain rfl := Option.some.inj (hq.symm.trans hq')
  have hwhole := whole_write hfilled hrest
  have hle : got ≤ q.buf.length := hfilled.le
  have hfits : ∀ q', c.chunk[idx]? = some q' →
      got + (bytesAt (files c.file) (q.off + got) (q.buf.length - got)).length ≤ q'.buf.length := by
    intro q' hq'
    obtain rfl := Option.some.inj (hq.symm.trans hq')
    omega
  -- what the requests of the chunk are now
  have hslot : ∀ i,
      (Call.chunk { c.write idx got (bytesAt (files c.file) (q.off + got) (q.buf.length - got)) with
      short := short })[i]? = if idx = i then c.chunk[i]?.map fun q' => q'.write got
        (bytesAt (files c.file) (q.off + got) (q.buf.length - got)) else c.chunk[i]? :=
    Call.chunk_write c idx got _
  refine ⟨?_, h.once, h.completed, fun e he => (by cases he), fun e he => (by cases he), ?_, ?_⟩
  · show c.start + c.chunkLen ≤ (c.reqs.modify _ _).length
    rw [List.length_modify]
    exact h.fits
  · intro p hp
    obtain ⟨hdone, q', hq', hfilled'⟩ := h.short p (hshort ▸ List.mem_cons_of_mem _ hp)
    refine ⟨hdone, ?_⟩
    rw [hslot]
    by_cases heq : idx = p.1
    · rw [if_pos heq, hq']
      rw [← heq] at hq'
      obtain rfl := Option.some.inj (hq.symm.trans hq')
      refine ⟨_, rfl, hwhole.filled ?_⟩
      rw [q.length_write (hfits q hq)]
      exact hfilled'.le
    · rw [if_neg heq]
      exact ⟨q', hq', hfilled'⟩
  · intro i hi
    rw [hslot]
    by_cases heq : idx = i
    · rw [if_pos heq, ← heq, hq]
      exact Or.inr ⟨_, rfl, hwhole⟩
    · rw [if_neg heq]
      refine (h.done i hi).imp_left ?_
      rintro ⟨got', hgot'⟩
      rw [hshort] at hgot'
      rcases List.mem_cons.mp hgot' with hhead | hgot'
      · exact absurd (Prod.mk.inj hhead).1.symm heq
      · exact ⟨got', hgot'⟩

/-- Behind a finished chunk, everything so far is filled. -/
theorem Call.Inv.advance {call : ℕ} {r : Ring} (h : c.Inv files call r) (hphase : c.phase = .finish)
    (hshort : c.short = []) :
    ∀ i < c.start + c.chunkLen, ∀ q, c.reqs[i]? = some q → Whole (files c.file) q := by
  intro i hi q hq
  by_cases hbefore : i < c.start
  · exact h.before i hbefore q hq
  · obtain ⟨done, hrunning⟩ := h.running (by simp [hphase])
    rw [h.finish hphase] at hrunning
    have hmem : i - c.start ∈ done := hrunning.once.mem_iff.mpr (List.mem_range.mpr (by omega))
    rcases hrunning.done _ hmem with ⟨got, hgot⟩ | ⟨q', hq', hwhole⟩
    · rw [hshort] at hgot
      cases hgot
    · rw [Call.getElem?_chunk (by omega), Nat.add_sub_cancel' (not_lt.mp hbefore)] at hq'
      obtain rfl := Option.some.inj (hq.symm.trans hq')
      exact hwhole

theorem Inv.finish (h : Inv files s) (hcur : s.current = some c) {failed : Option ℕ}
    (hstep : s.finish files c failed = some s') : Inv files s' := by
  have hcall := h.call c hcur
  unfold State.finish at hstep
  by_cases hphase : c.phase = .finish
  · rw [if_pos hphase] at hstep
    have hring := hcall.finish hphase
    obtain ⟨done, hrunning⟩ := hcall.running (by simp [hphase])
    have hempty : c.Running files s.calls .empty done := hring ▸ hrunning
    cases hshort : c.short with
    | nil =>
      have hfilled := hcall.advance hphase hshort
      rw [hshort] at hstep
      dsimp only at hstep
      by_cases hmore : c.start + c.chunkLen < c.reqs.length
      · -- to the next chunk
        rw [if_pos hmore] at hstep
        obtain rfl := Option.some.inj hstep
        refine h.going rfl ?_ h.counted rfl
        exact ⟨hcall.same, hfilled, fun _ => ⟨hring, hmore⟩, fun hp => absurd rfl hp, fun v hp =>
          (by cases hp), fun hp => (by cases hp)⟩
      · rw [if_neg hmore] at hstep
        obtain rfl := Option.some.inj hstep
        refine h.leave hring (by simp) fun reqs hreqs => ?_
        obtain rfl := Outcome.ok.inj hreqs
        refine ⟨hcall.same, fun q hq => ?_⟩
        obtain ⟨i, hi, rfl⟩ := List.getElem_of_mem hq
        exact hfilled i (by omega) _ (List.getElem?_eq_getElem hi)
    | cons p short =>
      obtain ⟨idx, got⟩ := p
      obtain ⟨hdone, q, hq, hfilled⟩ := hempty.short (idx, got) (hshort ▸ List.mem_cons_self)
      rw [hshort] at hstep
      dsimp only at hstep hq hdone
      rw [hq] at hstep
      cases failed with
      | some errno =>
        obtain rfl := Option.some.inj hstep
        exact h.leave hring (by simp) fun reqs hreqs => (by cases hreqs)
      | none =>
        dsimp only at hstep
        by_cases hrest : (bytesAt (files c.file) (q.off + got) (q.buf.length - got)).length =
          q.buf.length - got
        · rw [if_pos hrest] at hstep
          obtain rfl := Option.some.inj hstep
          have hidx : idx < c.chunkLen := List.mem_range.mp (hempty.once.mem_iff.mp hdone)
          have hle : got ≤ q.buf.length := hfilled.le
          refine h.going rfl ?_ h.counted rfl
          refine ⟨Call.same_write hcall.same hidx
            fun q' hq' => ?_, Call.before_write hcall.before _ _ _,
            fun hp => absurd (hphase.symm.trans hp) (by simp), fun _ =>
              ⟨done, hring ▸ hempty.finish hshort hq hrest⟩,
            fun v hp => absurd (hphase.symm.trans hp) (by simp), fun _ => hring⟩
          obtain rfl := Option.some.inj (hq.symm.trans hq')
          omega
        · rw [if_neg hrest] at hstep
          obtain rfl := Option.some.inj hstep
          exact h.leave hring (by simp) fun reqs hreqs => (by cases hreqs)
  · rw [if_neg hphase] at hstep
    cases hstep

/-- **One step** keeps the invariant, unless it leaves reads out. -/
theorem Inv.step (h : Inv files s) {a : Action} (hclean : Clean s a)
    (hstep : step files s a = some s') :
    Inv files s' := by
  cases a with
  | readMany file reqs => exact h.readMany hstep
  | push =>
    obtain ⟨c, hcur, hstep⟩ := Option.bind_eq_some_iff.mp hstep
    exact h.push hcur hstep
  | submit taken failed =>
    obtain ⟨c, hcur, hstep⟩ := Option.bind_eq_some_iff.mp hstep
    exact h.submit hcur hclean hstep
  | complete i result => exact h.complete hstep
  | reap =>
    obtain ⟨c, hcur, hstep⟩ := Option.bind_eq_some_iff.mp hstep
    exact h.reap hcur hclean hstep
  | finish failed =>
    obtain ⟨c, hcur, hstep⟩ := Option.bind_eq_some_iff.mp hstep
    exact h.finish hcur hstep

end Steps

/-! ### Runs -/

/-- What the calls so far returned and counted is theirs. -/
def Serial (files : ℕ → Bytes) (s : State) : Prop :=
  (∀ r ∈ s.returned, r.outcome ≠ .panic ∧ ∀ reqs, r.outcome = .ok reqs →
    ∀ readAt, Reads (files r.file) readAt → serialReadMany readAt r.asked = .ok reqs) ∧
  ∀ e ∈ s.counted, e.cqe.call = e.call ∧ e.cqe.userData < e.chunkLen

/-- **Batch reads are serial reads** in every run where no call leaves while one of
its reads is out. -/
theorem read_many_serial (files : ℕ → Bytes) {s : State} (h : (ring files).Reaches Clean s) :
    Serial files s := by
  have hinv : Inv files s := h.invariant
    ⟨fun _ => rfl, fun c hc => (by cases hc), fun e he => (by cases he), fun r hr => (by cases hr)⟩
    fun hs hclean hstep => hs.step hclean hstep
  refine ⟨fun r hr => ?_, hinv.counted⟩
  obtain ⟨hpanic, hok⟩ := hinv.returned r hr
  refine ⟨hpanic, fun reqs hreqs readAt hreads => ?_⟩
  obtain ⟨hsame, hwhole⟩ := hok reqs hreqs
  exact serialReadMany_spec hreads hsame hwhole

def twoFiles (file : ℕ) : Bytes := if file = 0 then [1, 2, 3] else [9]

theorem reads_bytesAt (f : Bytes) : Reads f (bytesAt f) := fun _ _ => ⟨List.prefix_rfl, id⟩

def cleanRun : List Action :=
  [.readMany 0 [⟨0, [0]⟩, ⟨1, [0, 0]⟩], .push, .submit 2 (some EINTR), .complete 1 1,
    .submit 0 none, .reap, .reap,
    .complete 0 1, .submit 0 none, .reap, .reap, .finish none, .finish none,
    .readMany 0 [⟨0, [0]⟩], .push, .submit 1 (some EINTR), .complete 0 (-5), .submit 0 none, .reap,
    .readMany 1 [⟨0, [0]⟩], .push, .submit 1 (some EINTR), .complete 0 1, .submit 0 none, .reap,
      .reap, .finish none]

/-- Two reads complete out of order, one of them short; a call that fails on its last
completion; and a call behind it. -/
theorem read_many_serial_twoFiles : ∃ s, (ring twoFiles).Reaches Clean s ∧ Serial twoFiles s ∧
    s.returned = [⟨0, [⟨0, [0]⟩, ⟨1, [0, 0]⟩], .ok [⟨0, [1]⟩, ⟨1, [2, 3]⟩]⟩,
      ⟨0, [⟨0, [0]⟩], .err (.os 5)⟩, ⟨1, [⟨0, [0]⟩], .ok [⟨0, [9]⟩]⟩] := by
  have hrun : (((ring twoFiles).replay Clean cleanRun (ring twoFiles).init).any fun s =>
      decide (s.returned = [⟨0, [⟨0, [0]⟩, ⟨1, [0, 0]⟩], .ok [⟨0, [1]⟩, ⟨1, [2, 3]⟩]⟩,
        ⟨0, [⟨0, [0]⟩], .err (.os 5)⟩, ⟨1, [⟨0, [0]⟩], .ok [⟨0, [9]⟩]⟩])) = true := by
          decide +kernel
  obtain ⟨s, hreach, hreturned⟩ := System.exists_reaches hrun
  exact ⟨s, hreach, read_many_serial twoFiles hreach, hreturned⟩

def staleRun : List Action :=
  [.readMany 0 [⟨0, [0]⟩, ⟨1, [0]⟩], .push, .submit 2 (some EINTR), .complete 1 (-5), .complete 0 1,
    .submit 0 none, .reap,
    .readMany 1 [⟨0, [0]⟩], .push, .submit 1 none, .reap, .reap, .finish none]

/-- A read fails while another one of its call is still to be reaped.  The next call
counts that one for its own request, and returns a buffer that nothing filled. -/
theorem read_many_stale : ¬ ∀ s, (ring twoFiles).Reachable s → Serial twoFiles s := by
  intro h
  have hrun : (((ring twoFiles).run staleRun (ring twoFiles).init).any fun s => decide (s.returned =
      [⟨0, [⟨0, [0]⟩, ⟨1, [0]⟩], .err (.os 5)⟩, ⟨1, [⟨0, [0]⟩], .ok [⟨0, [0]⟩]⟩])) = true := by
        decide +kernel
  obtain ⟨s, hreach, hreturned⟩ := System.exists_reachable hrun
  obtain ⟨-, hok⟩ := (h s hreach).1 ⟨1, [⟨0, [0]⟩], .ok [⟨0, [0]⟩]⟩ (by rw [hreturned]; simp)
  have hserial := hok _ rfl _ (reads_bytesAt (twoFiles 1))
  -- the serial loop reads the byte
  have hfilled : serialReadMany (bytesAt (twoFiles 1)) [⟨0, [0]⟩] = .ok [⟨0, [9]⟩] :=
    serialReadMany_spec (reads_bytesAt (twoFiles 1)) (.cons ⟨rfl, rfl⟩ .nil)
      (by simp [Whole, bytesAt, twoFiles])
  exact absurd (hserial.symm.trans hfilled) (by decide)

end Uring

end Fluent31
