/-
The verdicts of group commit and of one-at-a-time commit, as walks.

Both paths walk the entries in order.  A direct commit validates against a
store that holds everything committed before it; an entry of a group validates
against the store as the group found it and a set of keys that is meant to
stand for the earlier entries.  `Walk.run` is this walk, with the set of keys
and the handling of overlong records as parameters: `Path.direct` sees all keys
committed so far, `Path.group` the op keys of all entries that passed
validation.  So the group's set lacks the trigger events the store adds to a
batch, and it holds the keys of batches the apply refuses; and in a group an
overlong record takes every later entry with it.

* `Walk.run_agree_iff` — the two walks give the same verdicts exactly when no
  entry hits one of these differences.
-/
import Fluent31.RecordSize

namespace Fluent31

open Mvcc

namespace QueuedEntry

/-- A conflict key of the entry is among `keys`. -/
def hits (q : QueuedEntry) (keys : List Bytes) : Bool :=
  match q.validate with
  | some (_, own) => own.any fun key => decide (key ∈ keys)
  | none => false

def keys (q : QueuedEntry) : List Bytes := q.ops.map BatchOp.key

/-- Trigger events the entry commits with at `base`. -/
def events (q : QueuedEntry) (opts : Options) (db : Db) (base : ℕ) : List BatchOp :=
  db.captureEvents opts q.ops base q.capture

/-- The checks before value placement refuse the batch at `base`. -/
def refusedAt (q : QueuedEntry) (opts : Options) (db : Db) (base : ℕ) : Bool :=
  decide (WAL_RECORD_LIMIT ≤ approxSize (q.ops ++ q.events opts db base)) ||
    decide (MAX_SEQNO ≤ base + (q.ops ++ q.events opts db base).length)

/-- The encoded record at `base` is over the limit, wherever values go. -/
def overlongAt (q : QueuedEntry) (opts : Options) (db : Db) (base : ℕ) : Bool :=
  decide (WAL_RECORD_LIMIT ≤ payloadLen MIN_PTR opts.valueThreshold
    (q.ops ++ q.events opts db base))

/-- Value placement never decides about the entry. -/
def SizeDecided (q : QueuedEntry) (opts : Options) (db : Db) : Prop :=
  ∀ base, RecordDecided opts (q.ops ++ q.events opts db base)

end QueuedEntry

/-- What becomes of an entry; a commit is recorded without its placement. -/
inductive Answer
  | conflict
  | locked
  | refused
  | overlong
  | committed (c : CommitRec)

/-- What a caller is told. -/
inductive Verdict
  | accepted
  | conflict
  | rejected
  deriving DecidableEq, Repr

def Answer.verdict : Answer → Verdict
  | conflict => .conflict
  | locked => .accepted
  | refused => .rejected
  | overlong => .rejected
  | committed _ => .accepted

def Answer.rec? : Answer → Option CommitRec
  | committed c => some c
  | _ => none

/-- The verdict a result stands for. -/
def verdictOf : Except Error Unit → Verdict
  | .ok _ => .accepted
  | .error .conflict => .conflict
  | .error _ => .rejected

theorem verdictOf_eq_conflict {r : Except Error Unit} :
    verdictOf r = .conflict ↔ r = .error .conflict := by
  cases r with
  | ok _ => simp [verdictOf]
  | error err => cases err <;> simp [verdictOf]

theorem verdictOf_error_ne (err : Error) : verdictOf (.error err) ≠ .accepted := by
  cases err <;> simp [verdictOf]

/-- How far a walk has come: the next free seqno, the op and event keys of the
batches committed so far, the keys of the rejected ones, and whether a record
was overlong. -/
structure Walk where
  next : ℕ
  ops : List Bytes
  events : List Bytes
  rejected : List Bytes
  aborted : Bool

/-- How a path looks at the entries before: the keys it takes for written, and
whether it gives up. -/
structure Path where
  seen : Walk → List Bytes
  aborts : Walk → Bool

/-- One at a time: the store holds all keys committed so far. -/
def Path.direct : Path := ⟨fun w => w.ops ++ w.events, fun _ => false⟩

/-- In a group: the op keys of all entries that passed validation so far. -/
def Path.group : Path := ⟨fun w => w.ops ++ w.rejected, Walk.aborted⟩

namespace Walk

def start (db : Db) : Walk := ⟨db.visibleSeqno + 1, [], [], [], false⟩

variable (opts : Options) (db : Db) (path : Path) (w : Walk) (q : QueuedEntry)

/-- The apply's answer to a batch, at the next free seqno. -/
def applied : Answer :=
  if q.refusedAt opts db w.next then .refused
  else if q.overlongAt opts db w.next then .overlong
  else .committed ⟨q.ops, q.validate, q.capture, w.next, q.events opts db w.next, []⟩

def answer : Answer :=
  if q.conflicts db.readView (path.seen w) then .conflict
  else if q.ops.isEmpty then .locked
  else if path.aborts w then .refused
  else applied opts db w q

def advance : Answer → Walk
  | .committed c =>
    { w with
      next := w.next + c.fullOps.length
      ops := q.keys ++ w.ops
      events := c.events.map BatchOp.key ++ w.events }
  | .refused => { w with rejected := q.keys ++ w.rejected }
  | .overlong => { w with rejected := q.keys ++ w.rejected, aborted := true }
  | .conflict => w
  | .locked => w

/-- The answers to the entries, in order. -/
def run : Walk → List QueuedEntry → List Answer
  | _, [] => []
  | w, q :: qs => answer opts db path w q :: run (w.advance q (answer opts db path w q)) qs

/-- The entry is not stale, and no batch committed before it in the group wrote
one of its keys by an op. -/
def Fresh : Prop := q.conflicts db.readView w.ops = false

/-- Group and direct path look at a fresh entry alike: it holds a trigger event
captured in the group if and only if it holds a key of a batch rejected in it,
and if it holds neither and comes after an overlong record, it is to be
rejected anyway, or only locks. -/
def Even : Prop :=
  Fresh db w q → q.hits w.events = q.hits w.rejected ∧
    (w.aborted = true → q.hits w.events = false →
      q.ops = [] ∨ q.refusedAt opts db w.next = true ∨ q.overlongAt opts db w.next = true)

/-- Every entry of the group is looked at alike. -/
def Aligned : Walk → List QueuedEntry → Prop
  | _, [] => True
  | w, q :: qs => Even opts db w q ∧ Aligned (w.advance q (answer opts db .group w q)) qs

instance : Decidable (Even opts db w q) :=
  inferInstanceAs (Decidable (q.conflicts db.readView w.ops = false → _ = _ ∧ (_ → _ → _ ∨ _ ∨ _)))

instance decidableAligned : (w : Walk) → (qs : List QueuedEntry) → Decidable (Aligned opts db w qs)
  | _, [] => inferInstanceAs (Decidable True)
  | w, q :: qs =>
    have := decidableAligned (w.advance q (answer opts db .group w q)) qs
    inferInstanceAs (Decidable (Even opts db w q ∧ _))

end Walk

variable {opts : Options} {db : Db} {w : Walk} {q : QueuedEntry} {qs : List QueuedEntry}

theorem conflicts_append (view : ReadView) (q : QueuedEntry) (ks ks' : List Bytes) :
    q.conflicts view (ks ++ ks') = (q.conflicts view ks || q.hits ks') := by
  unfold QueuedEntry.conflicts QueuedEntry.hits hasConflict
  cases q.validate with
  | none => rfl
  | some v =>
    obtain ⟨snap, own⟩ := v
    simp only
    rw [Bool.eq_iff_iff]
    simp only [Bool.or_eq_true, List.any_eq_true, decide_eq_true_eq, List.mem_append]
    constructor
    · rintro ⟨k, hk, (h | h) | h⟩
      · exact Or.inl ⟨k, hk, Or.inl h⟩
      · exact Or.inr ⟨k, hk, h⟩
      · exact Or.inl ⟨k, hk, Or.inr h⟩
    · rintro (⟨k, hk, h | h⟩ | ⟨k, hk, h⟩)
      · exact ⟨k, hk, Or.inl (Or.inl h)⟩
      · exact ⟨k, hk, Or.inr h⟩
      · exact ⟨k, hk, Or.inl (Or.inr h)⟩

namespace Walk

variable {path : Path}

theorem answer_of_conflicts (h : q.conflicts db.readView (path.seen w) = true) :
    answer opts db path w q = .conflict := if_pos h

theorem applied_cases (opts : Options) (db : Db) (w : Walk) (q : QueuedEntry) :
    applied opts db w q = .refused ∨ applied opts db w q = .overlong ∨ applied opts db w q =
      .committed ⟨q.ops, q.validate, q.capture, w.next, q.events opts db w.next, []⟩ := by
  unfold applied
  split
  · exact Or.inl rfl
  · split
    · exact Or.inr (Or.inl rfl)
    · exact Or.inr (Or.inr rfl)

theorem applied_verdict_ne : (applied opts db w q).verdict ≠ .conflict := by
  rcases applied_cases opts db w q with h | h | h <;> rw [h] <;> simp [Answer.verdict]

theorem applied_rejected_iff : (applied opts db w q).verdict = .rejected ↔
    q.refusedAt opts db w.next = true ∨ q.overlongAt opts db w.next = true := by
  unfold applied
  by_cases href : q.refusedAt opts db w.next = true
  · simp [href, Answer.verdict]
  · by_cases hlong : q.overlongAt opts db w.next = true
    · simp [href, hlong, Answer.verdict]
    · simp [href, hlong, Answer.verdict]

/-- The answers to an entry that passes validation. -/
theorem answer_of_passes (h : q.conflicts db.readView (path.seen w) = false) :
    answer opts db path w q =
      if q.ops.isEmpty then .locked
      else if path.aborts w then .refused
      else applied opts db w q := if_neg (by simp [h])

theorem verdict_conflict_iff :
    (answer opts db path w q).verdict = .conflict ↔
      q.conflicts db.readView (path.seen w) = true := by
  refine ⟨fun hv => ?_, fun h => by rw [answer_of_conflicts h]; rfl⟩
  by_contra hc
  rw [answer_of_passes (by simpa using hc)] at hv
  split at hv
  · exact absurd hv (by decide)
  · split at hv
    · exact absurd hv (by decide)
    · exact absurd hv applied_verdict_ne

theorem conflicts_direct : q.conflicts db.readView (Path.direct.seen w) =
    (q.conflicts db.readView w.ops || q.hits w.events) := conflicts_append _ _ _ _

theorem conflicts_group : q.conflicts db.readView (Path.group.seen w) =
    (q.conflicts db.readView w.ops || q.hits w.rejected) := conflicts_append _ _ _ _

theorem conflicts_agree_iff :
    q.conflicts db.readView (Path.direct.seen w) = q.conflicts db.readView (Path.group.seen w) ↔
      (Fresh db w q → q.hits w.events = q.hits w.rejected) := by
  rw [conflicts_direct, conflicts_group]
  unfold Fresh
  cases q.conflicts db.readView w.ops <;> simp

theorem conflicts_agree_of_verdict
    (h : (answer opts db .direct w q).verdict = (answer opts db .group w q).verdict) :
    q.conflicts db.readView (Path.direct.seen w) = q.conflicts db.readView (Path.group.seen w) := by
  have hdirect : (answer opts db .direct w q).verdict = .conflict ↔ _ := verdict_conflict_iff
  have hgroup : (answer opts db .group w q).verdict = .conflict ↔ _ := verdict_conflict_iff
  rw [Bool.eq_iff_iff, ← hdirect, ← hgroup, h]

/-- Without an overlong record before it, the group applies what it validated. -/
theorem aborts_group (h : w.aborted = false) : ¬ Path.group.aborts w = true := by
  simp [Path.group, h]

theorem aborts_direct : ¬ Path.direct.aborts w = true := Bool.false_ne_true

/-- **One entry**: the verdicts agree exactly where both paths look alike. -/
theorem answer_agree_iff :
    (answer opts db .direct w q).verdict = (answer opts db .group w q).verdict ↔
      Even opts db w q := by
  unfold Even
  constructor
  · intro hv hfresh
    have hconf := conflicts_agree_of_verdict hv
    refine ⟨conflicts_agree_iff.mp hconf hfresh, fun habort hhits => ?_⟩
    have hpass : q.conflicts db.readView (Path.direct.seen w) = false := by
      rw [conflicts_direct, hhits, Bool.or_false]
      exact hfresh
    rw [answer_of_passes hpass, answer_of_passes (hconf ▸ hpass)] at hv
    by_cases hops : q.ops = []
    · exact Or.inl hops
    · -- the group refuses the entry, so the direct path must
      have hempty : ¬ q.ops.isEmpty = true := by simpa using hops
      rw [if_neg hempty, if_neg aborts_direct, if_neg hempty,
        if_pos (show Path.group.aborts w = true from habort)] at hv
      exact Or.inr (applied_rejected_iff.mp hv)
  · intro heven
    have hconf := conflicts_agree_iff.mpr fun hfresh => (heven hfresh).1
    cases hc : q.conflicts db.readView (Path.direct.seen w) with
    | true => rw [answer_of_conflicts hc, answer_of_conflicts (hconf ▸ hc)]
    | false =>
      rw [answer_of_passes hc, answer_of_passes (hconf ▸ hc)]
      rw [conflicts_direct, Bool.or_eq_false_iff] at hc
      by_cases hops : q.ops = []
      · rw [if_pos (by simp [hops]), if_pos (by simp [hops])]
      · have hempty : ¬ q.ops.isEmpty = true := by simpa using hops
        rw [if_neg hempty, if_neg hempty, if_neg aborts_direct]
        cases habort : w.aborted with
        | false => rw [if_neg (aborts_group habort)]
        | true =>
          rw [if_pos (show Path.group.aborts w = true from habort)]
          exact applied_rejected_iff.mpr (((heven hc.1).2 habort hc.2).resolve_left hops)

/-- Where the verdicts agree the walks go on alike. -/
theorem advance_agree
    (h : (answer opts db .direct w q).verdict = (answer opts db .group w q).verdict) :
    w.advance q (answer opts db .direct w q) = w.advance q (answer opts db .group w q) ∧
      (answer opts db .direct w q).rec? = (answer opts db .group w q).rec? := by
  have hconf := conflicts_agree_of_verdict h
  cases hc : q.conflicts db.readView (Path.direct.seen w) with
  | true =>
    rw [answer_of_conflicts hc, answer_of_conflicts (hconf ▸ hc)]
    exact ⟨rfl, rfl⟩
  | false =>
    rw [answer_of_passes hc, answer_of_passes (hconf ▸ hc)] at h ⊢
    by_cases hops : q.ops.isEmpty = true
    · rw [if_pos hops, if_pos hops]
      exact ⟨rfl, rfl⟩
    · rw [if_neg hops, if_neg hops, if_neg aborts_direct] at h ⊢
      cases habort : w.aborted with
      | false =>
        rw [if_neg (aborts_group habort)]
        exact ⟨rfl, rfl⟩
      | true =>
        rw [if_pos (show Path.group.aborts w = true from habort)] at h ⊢
        have hrej := applied_rejected_iff.mp h
        unfold applied
        by_cases href : q.refusedAt opts db w.next = true
        · rw [if_pos href]
          exact ⟨rfl, rfl⟩
        · -- an overlong record after another one
          rw [if_neg href, if_pos (hrej.resolve_left href)]
          exact ⟨by simp [advance, habort], rfl⟩

/-- **Where group and direct commit agree.** -/
theorem run_agree_iff :
    (run opts db .direct w qs).map Answer.verdict = (run opts db .group w qs).map Answer.verdict ↔
      Aligned opts db w qs := by
  induction qs generalizing w with
  | nil => simp [run, Aligned]
  | cons q qs ih =>
    simp only [run, Aligned, List.map_cons, List.cons.injEq]
    rw [answer_agree_iff]
    refine and_congr_right fun heven => ?_
    rw [(advance_agree (answer_agree_iff.mpr heven)).1, ih]

/-- Where they agree on the verdicts they commit the same batches. -/
theorem recs_eq_of_aligned (h : Aligned opts db w qs) :
    (run opts db .direct w qs).filterMap Answer.rec? =
      (run opts db .group w qs).filterMap Answer.rec? := by
  induction qs generalizing w with
  | nil => rfl
  | cons q qs ih =>
    obtain ⟨heven, hrest⟩ := h
    obtain ⟨hadvance, hrec⟩ := advance_agree (answer_agree_iff.mpr heven)
    simp only [run, List.filterMap_cons, hrec, hadvance, ih hrest]

end Walk

end Fluent31
