/-
The commit queue: clients, the committer thread and its panics (`db.rs`).

A client of `queue_commit` puts a waiter on the queue and parks until the waiter
holds a result, or pulls it back out of the queue once the store is degraded or
shut down.  The committer drains the queue, cuts what it drained into chunks,
refuses a chunk of a degraded store, applies the others and hands out the
results; a panic guard answers the waiters of the chunk it is working on.  The
steps of clients, committer and every other thread interleave freely.

`begun` and `applied` record the past: the waiters whose chunk the committer
started to apply, and the batches it committed for them.

* `step_cases` — everything a step can do, guards included.
-/
import Fluent31.WriteSteps

namespace Fluent31

/-- How `queue_commit` returned. -/
inductive Return
  | delivered (r : Except Error Unit)
  /-- The waiter was pulled back out of the queue. -/
  | bailed (err : Error)
  deriving DecidableEq

/-- A `CommitWaiter`, and what its client has returned. -/
structure Waiter where
  entry : QueuedEntry
  bytes : ℕ
  result : Option (Except Error Unit)
  returned : Option Return

/-- Where the committer is; waiters go by their number. -/
inductive Committer
  | idle
  /-- Between chunks, with what is left of the drain. -/
  | holding (rest : List ℕ)
  /-- Answering a chunk of a degraded store. -/
  | refusing (msg : String) (group rest : List ℕ)
  /-- The panic guard is armed for `group`; its entries are being applied. -/
  | grouped (group rest : List ℕ)
  /-- Handing out results under the guard. -/
  | delivering (todo : List (ℕ × Except Error Unit)) (group rest : List ℕ)
  | exited
  | dead

namespace Committer

/-- Drained waiters whose entries are not applied yet. -/
def unapplied : Committer → List ℕ
  | holding rest => rest
  | refusing _ group rest => group ++ rest
  | grouped group rest => group ++ rest
  | delivering _ _ rest => rest
  | idle | exited | dead => []

/-- Drained waiters without a result. -/
def owned : Committer → List ℕ
  | holding rest => rest
  | refusing _ group rest => group ++ rest
  | grouped group rest => group ++ rest
  | delivering todo _ rest => todo.map Prod.fst ++ rest
  | idle | exited | dead => []

def running : Committer → Bool
  | exited | dead => false
  | _ => true

end Committer

structure CommitQueue where
  engine : Engine
  waiters : List Waiter
  queue : List ℕ
  committer : Committer
  bgError : Option String
  shutdown : Bool
  begun : List ℕ
  applied : List (ℕ × ℕ × List EncEntry)

/-- `group_byte_cap`. -/
def groupByteCap (firstBytes : ℕ) : ℕ :=
  if firstBytes ≤ 128 * 2 ^ 10 then firstBytes + 128 * 2 ^ 10 else 2 ^ 20

/-- How many entries join a chunk that has `total` bytes. -/
def chunkMore (cap total : ℕ) : List ℕ → ℕ
  | [] => 0
  | b :: bs => if cap < total + b then 0 else chunkMore cap (total + b) bs + 1

/-- The length of the next chunk, from the sizes of the drained batches. -/
def chunkLen : List ℕ → ℕ
  | [] => 0
  | b :: bs => chunkMore (groupByteCap b) b bs + 1

def panicMsg : String := "commit thread panicked; write state unknown"

/-- Every entry's result with the record that was written for it, if any. -/
def mergeAnswers : List Decision → List (Except Error (ℕ × List EncEntry)) →
    List (Except Error (Option (ℕ × List EncEntry)))
  | [], _ => []
  | .conflict :: ds, rs => .error .conflict :: mergeAnswers ds rs
  | .failed err :: ds, rs => .error err :: mergeAnswers ds rs
  | .locksOnly :: ds, rs => .ok none :: mergeAnswers ds rs
  | .included :: ds, r :: rs => r.map some :: mergeAnswers ds rs
  | .included :: ds, [] => .error abortedError :: mergeAnswers ds []

/-- The apply of one chunk and the answers of its entries. -/
def Db.commitGroupPlan (opts : Options) (db : Db) (entries : List QueuedEntry) (f : Faults) :
    Plan × List (Except Error (Option (ℕ × List EncEntry))) :=
  let decisions := validateGroupIo db.readView f.reads [] entries
  let included := includedEntries decisions entries
  let plan := if included.isEmpty then ⟨[], [], none⟩ else db.groupPlan opts
    (included.map QueuedEntry.batch) f
  (plan, mergeAnswers decisions plan.outcome)

/-- The committer's entries leave the engine's queue; their transactions are
the clients' again. -/
def Engine.dequeue (e : Engine) (n : ℕ) : Engine :=
  { e with
    queue := e.queue.drop n
    handles := (e.queue.take n).filterMap (fun q => q.validate.map Prod.fst) ++ e.handles }

/-- The engine after some effects of an apply of its first `n` entries. -/
def Engine.applied (opts : Options) (e : Engine) (n : ℕ) (f : Faults) (steps : List WriteStep)
    (outcome : List (Except Error (ℕ × List EncEntry))) : Engine :=
  let chunk := e.queue.take n
  let included := includedEntries (validateGroupIo e.db.readView f.reads [] chunk) chunk
  (e.committed (e.db.performAll steps) (groupRecs opts e.db included outcome)).dequeue n

inductive QueueAction
  /-- A client puts a waiter on the queue. -/
  | submit (sub : Submission) (bytes : ℕ)
  /-- A client finds its result. -/
  | take (i : ℕ)
  /-- A client of a degraded or closing store pulls its waiter out. -/
  | bail (i : ℕ)
  | drain
  | exit
  | chunk
  | refuse
  | apply (f : Faults)
  | deliver
  | finish
  /-- The committer panics; an apply gets as far as its first `k` effects. -/
  | panic (f : Faults) (k : ℕ)
  | degrade (msg : String)
  | close
  /-- A step of another thread of the engine. -/
  | other (a : Action)

/-- The committer's own steps. -/
def QueueAction.committing : QueueAction → Prop
  | drain | chunk | refuse | apply _ | deliver | finish => True
  | _ => False

/-- Steps of the engine that are not on the commit queue. -/
def Action.aside : Action → Bool
  | .commit _ | .enqueue _ | .withdraw _ | .group _ | .reopen _ _ => false
  | _ => true

namespace CommitQueue

variable (opts : Options) (s : CommitQueue)

def init : CommitQueue := ⟨Engine.init opts, [], [], .idle, none, false, [], []⟩

/-- Put a result into waiter `i`. -/
def answer (i : ℕ) (r : Except Error Unit) : CommitQueue :=
  { s with waiters := s.waiters.modify i fun w => { w with result := some r } }

/-- What the panic guard does for its group. -/
def guardDrop (group : List ℕ) : CommitQueue :=
  { s with
    bgError := s.bgError <|> some panicMsg
    waiters := s.waiters.mapIdx fun i w =>
      if i ∈ group ∧ w.result = none then { w with result := some (.error (.background panicMsg)) }
      else w }

def entries (ids : List ℕ) : List QueuedEntry :=
  ids.filterMap fun i => (s.waiters[i]?).map Waiter.entry

def step : QueueAction → Option CommitQueue
  | .submit sub bytes =>
    (s.engine.step opts (.enqueue sub)).map fun e =>
      { s with
        engine := e
        waiters := s.waiters ++ [⟨sub.entry, bytes, none, none⟩]
        queue := s.queue ++ [s.waiters.length] }
  | .take i =>
    (s.waiters[i]?).bind fun w =>
      match w.result, w.returned with
      | some r, none =>
        some { s with
          waiters := s.waiters.modify i fun w =>
            { w with result := none, returned := some (.delivered r) } }
      | _, _ => none
  | .bail i =>
    if (s.bgError.isSome ∨ s.shutdown = true) ∧ i ∈ s.queue then
      (s.engine.step opts (.withdraw (s.committer.unapplied.length + s.queue.idxOf i))).map fun e =>
        { s with
          engine := e
          queue := s.queue.erase i
          waiters := s.waiters.modify i fun w =>
            { w with returned := some (.bailed ((s.bgError.map Error.background).getD .closed)) } }
    else none
  | .drain =>
    match s.committer with
    | .idle =>
      if s.queue = [] then none else some { s with committer := .holding s.queue, queue := [] }
    | _ => none
  | .exit =>
    match s.committer with
    | .idle =>
      if s.queue = [] ∧ s.shutdown = true then some { s with committer := .exited } else none
    | _ => none
  | .chunk =>
    match s.committer with
    | .holding [] => none
    | .holding rest =>
      let n := chunkLen (rest.filterMap fun i => (s.waiters[i]?).map Waiter.bytes)
      some { s with
        committer := match s.bgError with
          | some msg => .refusing msg (rest.take n) (rest.drop n)
          | none => .grouped (rest.take n) (rest.drop n) }
    | _ => none
  | .refuse =>
    match s.committer with
    | .refusing msg (i :: group) rest =>
      some { s.answer i (.error (.background msg)) with
        engine := s.engine.dequeue 1
        committer := .refusing msg group rest }
    | _ => none
  | .apply f =>
    match s.committer with
    | .grouped group rest =>
      let (plan, answers) := s.engine.db.commitGroupPlan opts (s.entries group) f
      some { s with
        engine := s.engine.applied opts group.length f plan.steps plan.outcome
        committer := .delivering (group.zip (answers.map fun a => a.map fun _ => ())) group rest
        bgError := s.bgError <|> plan.failed
        begun := s.begun ++ group
        applied := s.applied ++ (group.zip answers).filterMap fun p =>
          (p.2.toOption.join).map fun r => (p.1, r) }
    | _ => none
  | .deliver =>
    match s.committer with
    | .delivering ((i, r) :: todo) group rest =>
      some { s.answer i r with committer := .delivering todo group rest }
    | _ => none
  | .finish =>
    match s.committer with
    | .delivering [] _ rest => some { s with committer := .holding rest }
    | .refusing _ [] rest => some { s with committer := .holding rest }
    | .holding [] => some { s with committer := .idle }
    | _ => none
  | .panic f k =>
    match s.committer with
    | .holding rest => some { s with engine := s.engine.dequeue rest.length, committer := .dead }
    | .refusing _ group rest =>
      some { s with engine := s.engine.dequeue (group.length + rest.length), committer := .dead }
    | .grouped group rest =>
      let plan := (s.engine.db.commitGroupPlan opts (s.entries group) f).1
      some { s.guardDrop group with
        engine := (s.engine.applied opts group.length f (plan.steps.take k) []).dequeue rest.length
        committer := .dead
        begun := s.begun ++ group }
    | .delivering _ group rest =>
      some { s.guardDrop group with engine := s.engine.dequeue rest.length, committer := .dead }
    | .idle | .exited | .dead => none
  | .degrade msg => some { s with bgError := s.bgError <|> some msg }
  | .close => some { s with shutdown := true }
  | .other a =>
    if a.aside = true then (s.engine.step opts a).map fun e => { s with engine := e } else none

end CommitQueue

/-- The commit queue as a transition system. -/
def commitQueue (opts : Options) : System CommitQueue QueueAction :=
  ⟨CommitQueue.init opts, CommitQueue.step opts⟩

/-! ### What a step can do -/

namespace CommitQueue

variable {opts : Options} {s s' : CommitQueue}

/-- One case for every way through `step`: what it asked for, and the state it leaves. -/
inductive StepCases (opts : Options) (s : CommitQueue) : QueueAction → CommitQueue → Prop
  | submit {sub : Submission} {bytes : ℕ} {d : Engine}
      (hd : s.engine.step opts (.enqueue sub) = some d) :
      StepCases opts s (.submit sub bytes) { s with
        engine := d
        waiters := s.waiters ++ [⟨sub.entry, bytes, none, none⟩]
        queue := s.queue ++ [s.waiters.length] }
  | take {i : ℕ} {w : Waiter} {r : Except Error Unit} (hw : s.waiters[i]? = some w)
      (hres : w.result = some r) (hret : w.returned = none) :
      StepCases opts s (.take i) { s with
        waiters := s.waiters.modify i fun w =>
          { w with result := none, returned := some (.delivered r) } }
  | bail {i : ℕ} {d : Engine} (hstop : s.bgError.isSome = true ∨ s.shutdown = true)
      (hi : i ∈ s.queue)
      (hd : s.engine.step opts
        (.withdraw (s.committer.unapplied.length + s.queue.idxOf i)) = some d) :
      StepCases opts s (.bail i) { s with
        engine := d
        queue := s.queue.erase i
        waiters := s.waiters.modify i fun w =>
          { w with returned := some (.bailed ((s.bgError.map Error.background).getD .closed)) } }
  | drain (hc : s.committer = .idle) (hq : s.queue ≠ []) :
      StepCases opts s .drain { s with committer := .holding s.queue, queue := [] }
  | exit (hc : s.committer = .idle) (hshut : s.shutdown = true) :
      StepCases opts s .exit { s with committer := .exited }
  | chunk {rest : List ℕ} {n : ℕ} {c : Committer} (hc : s.committer = .holding rest)
      (hne : rest ≠ [])
      (hn : n = chunkLen (rest.filterMap fun i => (s.waiters[i]?).map Waiter.bytes))
      (hcut : (∃ msg, s.bgError = some msg ∧ c = .refusing msg (rest.take n) (rest.drop n)) ∨
        s.bgError = none ∧ c = .grouped (rest.take n) (rest.drop n)) :
      StepCases opts s .chunk { s with committer := c }
  | refuse {msg : String} {i : ℕ} {group rest : List ℕ}
      (hc : s.committer = .refusing msg (i :: group) rest) :
      StepCases opts s .refuse { s.answer i (.error (.background msg)) with
        engine := s.engine.dequeue 1
        committer := .refusing msg group rest }
  | apply {f : Faults} {group rest : List ℕ} {plan : Plan}
      {answers : List (Except Error (Option (ℕ × List EncEntry)))}
      (hc : s.committer = .grouped group rest)
      (hplan : s.engine.db.commitGroupPlan opts (s.entries group) f = (plan, answers)) :
      StepCases opts s (.apply f) { s with
        engine := s.engine.applied opts group.length f plan.steps plan.outcome
        committer := .delivering (group.zip (answers.map fun a => a.map fun _ => ())) group rest
        bgError := s.bgError <|> plan.failed
        begun := s.begun ++ group
        applied := s.applied ++ (group.zip answers).filterMap fun p =>
          (p.2.toOption.join).map fun r => (p.1, r) }
  | deliver {i : ℕ} {r : Except Error Unit} {todo : List (ℕ × Except Error Unit)}
      {group rest : List ℕ} (hc : s.committer = .delivering ((i, r) :: todo) group rest) :
      StepCases opts s .deliver { s.answer i r with committer := .delivering todo group rest }
  | delivered {group rest : List ℕ} (hc : s.committer = .delivering [] group rest) :
      StepCases opts s .finish { s with committer := .holding rest }
  | refused {msg : String} {rest : List ℕ} (hc : s.committer = .refusing msg [] rest) :
      StepCases opts s .finish { s with committer := .holding rest }
  | emptied (hc : s.committer = .holding []) :
      StepCases opts s .finish { s with committer := .idle }
  | panicHolding {f : Faults} {k : ℕ} {rest : List ℕ} (hc : s.committer = .holding rest) :
      StepCases opts s (.panic f k) { s with
        engine := s.engine.dequeue rest.length
        committer := .dead }
  | panicRefusing {f : Faults} {k : ℕ} {msg : String} {group rest : List ℕ}
      (hc : s.committer = .refusing msg group rest) :
      StepCases opts s (.panic f k) { s with
        engine := s.engine.dequeue (group.length + rest.length)
        committer := .dead }
  | panicGrouped {f : Faults} {k : ℕ} {group rest : List ℕ}
      (hc : s.committer = .grouped group rest) :
      StepCases opts s (.panic f k) { s.guardDrop group with
        engine := (s.engine.applied opts group.length f
          ((s.engine.db.commitGroupPlan opts (s.entries group) f).1.steps.take k) []).dequeue
            rest.length
        committer := .dead
        begun := s.begun ++ group }
  | panicDelivering {f : Faults} {k : ℕ} {todo : List (ℕ × Except Error Unit)}
      {group rest : List ℕ} (hc : s.committer = .delivering todo group rest) :
      StepCases opts s (.panic f k) { s.guardDrop group with
        engine := s.engine.dequeue rest.length
        committer := .dead }
  | degrade {msg : String} :
      StepCases opts s (.degrade msg) { s with bgError := s.bgError <|> some msg }
  | close : StepCases opts s .close { s with shutdown := true }
  | other {a : Action} {d : Engine} (ha : a.aside = true) (hd : s.engine.step opts a = some d) :
      StepCases opts s (.other a) { s with engine := d }

theorem step_cases {a : QueueAction} (hs : s.step opts a = some s') : StepCases opts s a s' := by
  cases a with
  | submit sub bytes =>
    obtain ⟨d, hd, rfl⟩ := Option.map_eq_some_iff.mp hs
    exact .submit hd
  | take i =>
    obtain ⟨w, hw, hs⟩ := Option.bind_eq_some_iff.mp hs
    split at hs
    · -- an answer is there to take, and no one took it yet
      rename_i r hres hret
      obtain rfl := Option.some_inj.mp hs
      exact .take hw hres hret
    · exact absurd hs (by simp)
  | bail i =>
    simp only [step, Option.ite_none_right_eq_some] at hs
    obtain ⟨⟨hstop, hi⟩, hs⟩ := hs
    obtain ⟨d, hd, rfl⟩ := Option.map_eq_some_iff.mp hs
    exact .bail hstop hi hd
  | drain =>
    simp only [step] at hs
    split at hs
    · rename_i hc
      simp only [Option.ite_none_left_eq_some, Option.some.injEq] at hs
      obtain ⟨hq, rfl⟩ := hs
      exact .drain hc hq
    · exact absurd hs (by simp)
  | exit =>
    simp only [step] at hs
    split at hs
    · rename_i hc
      simp only [Option.ite_none_right_eq_some, Option.some.injEq] at hs
      obtain ⟨⟨-, hshut⟩, rfl⟩ := hs
      exact .exit hc hshut
    · exact absurd hs (by simp)
  -- the committer: every step reads its phase first
  | chunk =>
    simp only [step] at hs
    split at hs
    · exact absurd hs (by simp)
    · rename_i rest hne hc
      obtain rfl := Option.some_inj.mp hs
      refine .chunk hc hne rfl ?_
      cases s.bgError with
      | some msg => exact Or.inl ⟨msg, rfl, rfl⟩
      | none => exact Or.inr ⟨rfl, rfl⟩
    · exact absurd hs (by simp)
  | refuse =>
    simp only [step] at hs
    split at hs
    · rename_i hc
      exact Option.some_inj.mp hs ▸ .refuse hc
    · exact absurd hs (by simp)
  | apply f =>
    simp only [step] at hs
    split at hs
    · rename_i hc
      exact Option.some_inj.mp hs ▸ .apply hc rfl
    · exact absurd hs (by simp)
  | deliver =>
    simp only [step] at hs
    split at hs
    · rename_i hc
      exact Option.some_inj.mp hs ▸ .deliver hc
    · exact absurd hs (by simp)
  | finish =>
    simp only [step] at hs
    split at hs
    · rename_i hc
      exact Option.some_inj.mp hs ▸ .delivered hc
    · rename_i hc
      exact Option.some_inj.mp hs ▸ .refused hc
    · rename_i hc
      exact Option.some_inj.mp hs ▸ .emptied hc
    · exact absurd hs (by simp)
  | panic f k =>
    simp only [step] at hs
    split at hs
    · rename_i hc
      exact Option.some_inj.mp hs ▸ .panicHolding hc
    · rename_i hc
      exact Option.some_inj.mp hs ▸ .panicRefusing hc
    · rename_i hc
      exact Option.some_inj.mp hs ▸ .panicGrouped hc
    · rename_i hc
      exact Option.some_inj.mp hs ▸ .panicDelivering hc
    all_goals exact absurd hs (by simp)
  | degrade msg => exact Option.some_inj.mp hs ▸ .degrade
  | close => exact Option.some_inj.mp hs ▸ .close
  | other a =>
    simp only [step, Option.ite_none_right_eq_some] at hs
    obtain ⟨ha, hs⟩ := hs
    obtain ⟨d, hd, rfl⟩ := Option.map_eq_some_iff.mp hs
    exact .other ha hd

end CommitQueue

end Fluent31
