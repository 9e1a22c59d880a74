/-
The cap on a transaction's write set (`txn.rs`).

`track_bytes` keeps a running sum beside the map of writes: every call adds its
own bytes, before the check and without taking back those of an overwritten
entry or of a call that is then rejected.  The documented cap is on the write
set.

* `Txn.accounted_iff` — the calls of a transaction are rejected as the cap says
  exactly if all of them together, overwritten and rejected ones included, stay
  within it;
* `Txn.small_write_rejected` — a rejected write uses up the cap, and so does an
  overwritten one.
-/
import Fluent31.Admission

namespace Fluent31

open Ordered

namespace Txn

/-- The error of the cap. -/
def capError : Error := .invalidArgument "transaction write set exceeds max_txn_write_bytes"

/-- The key and value bytes of a write set. -/
def setBytes (writes : List (Bytes × Option Bytes)) : ℕ :=
  (writes.map fun w => w.1.length + (w.2.getD []).length).sum

namespace Call

def key : Call → Bytes
  | put key _ => key
  | delete key => key

def value? : Call → Option Bytes
  | put _ value => some value
  | delete _ => none

def size (c : Call) : ℕ := c.key.length + (c.value?.getD []).length

/-- The checks before the cap's let the call through. -/
def Checked (opts : Options) : Call → Prop
  | put key value =>
    ValidUserKey key ∧ key.length ≤ opts.maxKeySize ∧ value.length ≤ opts.maxValueSize
  | delete key => ValidUserKey key

instance (opts : Options) (c : Call) : Decidable (c.Checked opts) := by
  cases c <;> unfold Checked <;> infer_instance

end Call

variable (opts : Options) (t : Txn)

/-- A call with its answer. -/
def attempt : Call → Txn × Except Error Unit
  | .put key value => t.put opts key value
  | .delete key => t.delete opts key

/-- The write set that would result. -/
def resulting (c : Call) : List (Bytes × Option Bytes) := (t.write c.key c.value?).writes

/-- The cap as documented, for one call: rejected for size exactly if the
resulting write set is over it, and then nothing has changed. -/
def CallAccounted (c : Call) : Prop :=
  ((t.attempt opts c).2 = .error capError ↔
    c.Checked opts ∧ opts.maxTxnWriteBytes < setBytes (t.resulting c)) ∧
  (∀ err, (t.attempt opts c).2 = .error err → (t.attempt opts c).1 = t)

/-- The cap as documented, for a sequence of calls. -/
def Accounted : Txn → List Call → Prop
  | _, [] => True
  | t, c :: calls => t.CallAccounted opts c ∧ Accounted (t.call opts c) calls

variable {opts t}

/-! ### One call -/

theorem call_eq (c : Call) : t.call opts c = (t.attempt opts c).1 := by cases c <;> rfl

/-- A call the earlier checks reject. -/
theorem attempt_unchecked {c : Call} (hc : ¬ c.Checked opts) :
    ∃ err, err ≠ capError ∧ t.attempt opts c = (t, .error err) := by
  have hkey : ∀ (key : Bytes) (err : Error), validateUserKey key = .error err → err ≠ capError := by
    intro key err herr
    cases key with
    | nil =>
      obtain rfl := Except.error.inj herr
      decide
    | cons b key =>
      simp only [validateUserKey] at herr
      by_cases hb : b = SYS_PREFIX
      · rw [if_pos hb] at herr
        obtain rfl := Except.error.inj herr
        decide
      · rw [if_neg hb] at herr
        exact absurd herr (by simp)
  cases c with
  | put key value =>
    show ∃ err, err ≠ capError ∧ t.put opts key value = (t, .error err)
    unfold put
    cases hv : validateUserKey key with
    | error err => exact ⟨err, hkey key err hv, rfl⟩
    | ok u =>
      have hsize : opts.maxKeySize < key.length ∨ opts.maxValueSize < value.length := by
        by_contra hno
        rw [not_or, not_lt, not_lt] at hno
        exact hc ⟨validateUserKey_eq_ok.mp hv, hno⟩
      simp only [if_pos hsize]
      exact ⟨.invalidArgument "key or value too large", by decide, rfl⟩
  | delete key =>
    show ∃ err, err ≠ capError ∧ t.delete opts key = (t, .error err)
    unfold delete
    cases hv : validateUserKey key with
    | error err => exact ⟨err, hkey key err hv, rfl⟩
    | ok u => exact absurd (validateUserKey_eq_ok.mp hv) hc

/-- A call that reaches the cap's check: the running sum decides, and keeps the
call's bytes. -/
theorem attempt_checked {c : Call} (hc : c.Checked opts) :
    t.attempt opts c = if opts.maxTxnWriteBytes < t.bytes + c.size then
        ({ t with bytes := t.bytes + c.size }, .error capError)
      else (({ t with bytes := t.bytes + c.size } : Txn).write c.key c.value?, .ok ()) := by
  cases c with
  | put key value =>
    have hno : ¬ (opts.maxKeySize < key.length ∨ opts.maxValueSize < value.length) := by
      have := hc.2
      omega
    show t.put opts key value = _
    unfold put trackBytes
    rw [validateUserKey_eq_ok.mpr hc.1]
    simp only [if_neg hno]
    show _ = if opts.maxTxnWriteBytes < t.bytes + (key.length + value.length) then _ else _
    by_cases hover : opts.maxTxnWriteBytes < t.bytes + (key.length + value.length)
    · simp only [if_pos hover]
      rfl
    · simp only [if_neg hover]
      rfl
  | delete key =>
    show t.delete opts key = _
    unfold delete trackBytes
    rw [validateUserKey_eq_ok.mpr hc]
    simp only
    show _ = if opts.maxTxnWriteBytes < t.bytes + key.length then _ else _
    by_cases hover : opts.maxTxnWriteBytes < t.bytes + key.length
    · simp only [if_pos hover]
      rfl
    · simp only [if_neg hover]
      rfl

theorem Call.Checked.size_pos {c : Call} (hc : c.Checked opts) : 0 < c.size := by
  have hkey : c.key ≠ [] := by
    cases c with
    | put key value => exact hc.1.1
    | delete key => exact hc.1
  have := List.length_pos_iff.mpr hkey
  unfold Call.size
  omega

/-- A write adds at most its own bytes to the set. -/
theorem setBytes_insertBy (w : Bytes × Option Bytes) (writes : List (Bytes × Option Bytes)) :
    setBytes (insertBy Prod.fst w writes) ≤ setBytes writes +
      (w.1.length + (w.2.getD []).length) := by
  induction writes with
  | nil => simp [setBytes, insertBy]
  | cons x writes ih =>
    unfold insertBy
    simp only [setBytes, List.map_cons, List.sum_cons] at ih ⊢
    split_ifs <;> simp only [List.map_cons, List.sum_cons] <;> omega

theorem setBytes_resulting (c : Call) : setBytes (t.resulting c) ≤ setBytes t.writes + c.size :=
  setBytes_insertBy _ _

/-! ### A sequence of calls -/

/-- While the sum is within the cap it bounds the set; the first call past the
cap is rejected and has changed the sum. -/
theorem accounted_iff_of_le (hset : setBytes t.writes ≤ t.bytes)
    (hbytes : t.bytes ≤ opts.maxTxnWriteBytes) (calls : List Call) : t.Accounted opts calls ↔
      t.bytes + ((calls.filter fun c => decide (c.Checked opts)).map Call.size).sum ≤
        opts.maxTxnWriteBytes := by
  induction calls generalizing t with
  | nil => simpa [Accounted] using hbytes
  | cons c calls ih =>
    unfold Accounted
    rw [call_eq]
    by_cases hc : c.Checked opts
    · have hpos := hc.size_pos
      have hres := setBytes_resulting (t := t) c
      rw [List.filter_cons_of_pos (by simpa using hc), List.map_cons, List.sum_cons]
      by_cases hover : opts.maxTxnWriteBytes < t.bytes + c.size
      · -- the rejected call leaves its bytes in the sum
        refine iff_of_false (fun h => ?_) (by omega)
        have hsame := h.1.2 capError (by rw [attempt_checked hc, if_pos hover])
        rw [attempt_checked hc, if_pos hover] at hsame
        have hbytes : t.bytes + c.size = t.bytes := congrArg Txn.bytes hsame
        omega
      · have hwrite : setBytes (t.write c.key c.value?).writes ≤ t.bytes + c.size :=
          le_trans hres (by omega)
        have hrest := ih (t := ({ t with bytes := t.bytes + c.size } : Txn).write c.key c.value?)
          hwrite (not_lt.mp hover)
        have hcall : t.CallAccounted opts c := by
          unfold CallAccounted
          rw [attempt_checked hc, if_neg hover]
          refine ⟨iff_of_false (by simp) fun h => ?_, fun err herr => absurd herr (by simp)⟩
          have := h.2
          omega
        rw [attempt_checked hc, if_neg hover, and_iff_right hcall, hrest]
        show t.bytes + c.size + _ ≤ _ ↔ _
        rw [Nat.add_assoc]
    · obtain ⟨err, herr, heq⟩ := attempt_unchecked (t := t) hc
      have hcall : t.CallAccounted opts c := by
        unfold CallAccounted
        rw [heq]
        exact ⟨iff_of_false (fun h => herr (Except.error.inj h)) fun h => hc h.1, fun _ _ => rfl⟩
      rw [List.filter_cons_of_neg (by simpa using hc), heq, and_iff_right hcall]
      exact ih hset hbytes

/-- **The cap.**  Rejection for size follows the write set, and a rejected call
leaves the transaction as it was, exactly if the bytes of all calls that reach
the cap's check, overwritten and rejected ones included, are within the cap. -/
theorem accounted_iff (opts : Options) (snap : ℕ) (calls : List Call) :
    (new snap).Accounted opts calls ↔
      ((calls.filter fun c => decide (c.Checked opts)).map Call.size).sum ≤
        opts.maxTxnWriteBytes := by
  have h := @accounted_iff_of_le opts (new snap) (Nat.zero_le _) (Nat.zero_le _) calls
  rwa [show (new snap).bytes = 0 from rfl, Nat.zero_add] at h

/-- A cap of eight bytes: a write of nine is rejected, and after it one of two
bytes; a second write of a key is rejected although the set stays at six. -/
theorem small_write_rejected : ∃ opts : Options, opts.maxTxnWriteBytes = 8 ∧
    (∃ big small : Call, big.Checked opts ∧ small.Checked opts ∧
      (((new 0).call opts big).attempt opts small).2 = .error capError ∧
      setBytes (((new 0).call opts big).resulting small) = 2 ∧
      ((new 0).attempt opts small).2 = .ok () ∧ ¬ (new 0).Accounted opts [big, small]) ∧
    ∃ c : Call, c.Checked opts ∧ (((new 0).call opts c).attempt opts c).2 = .error capError ∧
      setBytes (((new 0).call opts c).resulting c) = 6 ∧ ¬ (new 0).Accounted opts [c, c] := by
  refine ⟨{ Options.default ⟨fun _ => 0, fun _ => 0⟩ with maxTxnWriteBytes := 8 }, rfl,
    ⟨.put [byte 107] (List.replicate 8 (byte 1)), .put [byte 107] [byte 1], by decide, by decide,
      by rfl, by rfl, by rfl, fun h => ?_⟩,
    .put [byte 107] (List.replicate 5 (byte 1)), by decide, by rfl, by rfl, fun h => ?_⟩
  · exact absurd (h.1.2 capError (by rfl)) fun heq => absurd (congrArg Txn.bytes heq) (by decide)
  · exact absurd (h.2.1.2 capError (by rfl)) fun heq => absurd (congrArg Txn.bytes heq) (by decide)

end Txn

end Fluent31
