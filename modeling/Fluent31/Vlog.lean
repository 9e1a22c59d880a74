/-
The value log (`vlog.rs`), record by record.

Values at or above a size threshold live in value-log files and the tree holds
pointers to them.  A record embeds its key, and every dereference checks it.
`Vlog.Holds v key repr value` says what a stored representation stands for in
the log `v`; appending keeps it (`Holds.mono`), and a log without two records
at one place reads it back (`WF.resolve`).
-/
import Fluent31.Batch

namespace Fluent31

structure VlogRecord where
  ptr : ValuePtr
  key : Bytes
  value : Bytes
  deriving DecidableEq, Repr

/-- All records of all live files, and the append position of the head file. -/
structure Vlog where
  records : List VlogRecord
  headId : ℕ
  written : ℕ

namespace Vlog

/-- Header, key and value of a record. -/
def recordLen (key value : Bytes) : ℕ :=
  4 + (putUvarint key.length).length + (putUvarint value.length).length + key.length + value.length

def append (v : Vlog) (key value : Bytes) : ValuePtr × Vlog :=
  let p : ValuePtr := ⟨v.headId, v.written, recordLen key value⟩
  (p,
    { v with
      records := v.records ++ [⟨p, key, value⟩]
      written := v.written + recordLen key value })

/-- Seal the head and continue in file `id`. -/
def rotate (v : Vlog) (id : ℕ) : Vlog := { v with headId := id, written := 0 }

/-- Read the record at `p` and check that it is `expectKey`'s. -/
def readValue (v : Vlog) (p : ValuePtr) (expectKey : Bytes) : Except Error Bytes :=
  match v.records.find? fun r => decide (r.ptr = p) with
  | none => .error (.corruption "vlog record crc mismatch")
  | some r =>
    if r.key = expectKey then .ok r.value
    else .error (.corruption "vlog record key mismatch (dangling pointer)")

/-- What `repr`, stored under `key`, stands for. -/
def Holds (v : Vlog) (key : Bytes) : ReprRef → Option Bytes → Prop
  | .empty, value => value = none
  | .inline w, value => value = some w
  | .ptr p, value => ∃ w, value = some w ∧ ⟨p, key, w⟩ ∈ v.records

/-- No two records at one place, none beyond the append position of the head,
all files numbered below `next`. -/
structure WF (v : Vlog) (next : ℕ) : Prop where
  distinct : v.records.Pairwise fun r r' => r.ptr ≠ r'.ptr
  head_lt : v.headId < next
  below : ∀ r ∈ v.records, r.ptr.file = v.headId → r.ptr.offset + r.ptr.len ≤ v.written
  file_lt : ∀ r ∈ v.records, r.ptr.file < next

variable {v v' : Vlog} {key value : Bytes} {repr : ReprRef} {w? : Option Bytes} {next : ℕ}

theorem Holds.mono (h : v.Holds key repr w?) (hsub : ∀ r ∈ v.records, r ∈ v'.records) :
    v'.Holds key repr w? := by
  cases repr with
  | empty => exact h
  | inline w => exact h
  | ptr p =>
    obtain ⟨w, hw, hmem⟩ := h
    exact ⟨w, hw, hsub _ hmem⟩

theorem recordLen_pos (key value : Bytes) : 0 < recordLen key value := by
  unfold recordLen
  omega

theorem WF.append (h : v.WF next) (key value : Bytes) : (v.append key value).2.WF next := by
  refine ⟨?_, h.head_lt, fun r hr hfile => ?_, fun r hr => ?_⟩
  · refine List.pairwise_append.mpr ⟨h.distinct, List.pairwise_singleton _ _, ?_⟩
    intro r hr r' hr' heq
    obtain rfl := List.mem_singleton.mp hr'
    have hbelow := h.below r hr (by rw [heq])
    rw [heq] at hbelow
    have := recordLen_pos key value
    simp only at hbelow
    omega
  · rcases List.mem_append.mp hr with hr | hr
    · exact le_trans (h.below r hr hfile) (Nat.le_add_right _ _)
    · rw [List.mem_singleton.mp hr]
      exact le_rfl
  · rcases List.mem_append.mp hr with hr | hr
    · exact h.file_lt r hr
    · rw [List.mem_singleton.mp hr]
      exact h.head_lt

theorem WF.mono (h : v.WF next) {next' : ℕ} (hle : next ≤ next') : v.WF next' :=
  ⟨h.distinct, lt_of_lt_of_le h.head_lt hle, h.below,
    fun r hr => lt_of_lt_of_le (h.file_lt r hr) hle⟩

/-- A fresh head file holds no record yet. -/
theorem WF.rotate (h : v.WF next) : (v.rotate next).WF (next + 1) := by
  refine ⟨h.distinct, Nat.lt_succ_self _, fun r hr hfile => ?_, fun r hr => ?_⟩
  · exact absurd hfile (ne_of_lt (h.file_lt r hr))
  · exact Nat.lt_succ_of_lt (h.file_lt r hr)

/-- Resolving a pointer gives what it stands for. -/
theorem WF.readValue_eq (h : v.WF next) {p : ValuePtr} (hmem : ⟨p, key, value⟩ ∈ v.records) :
    v.readValue p key = .ok value := by
  have hfind : v.records.find? (fun r => decide (r.ptr = p)) = some ⟨p, key, value⟩ := by
    have hd := h.distinct
    revert hmem hd
    generalize v.records = l
    intro hmem hd
    induction l with
    | nil => exact absurd hmem List.not_mem_nil
    | cons r l ih =>
      obtain ⟨hr, hl⟩ := List.pairwise_cons.mp hd
      rcases List.mem_cons.mp hmem with rfl | hmem
      · rw [List.find?_cons_of_pos (by simp)]
      · rw [List.find?_cons_of_neg (by simpa using hr _ hmem)]
        exact ih hmem hl
  unfold readValue
  rw [hfind]
  exact if_pos rfl

/-! ### Placement -/

/-- Place an op's value: in the log from the threshold on, inline below. -/
def placeOp (threshold : ℕ) (v : Vlog) : BatchOp → Vlog × EncEntry
  | .put key value =>
    if threshold ≤ value.length then
      let (p, v) := v.append key value
      (v, ⟨.put, key, .ptr p⟩)
    else (v, ⟨.put, key, .inline value⟩)
  | .delete key => (v, ⟨.delete, key, .empty⟩)

/-- Place a batch's ops in order. -/
def placeOps (threshold : ℕ) : Vlog → List BatchOp → Vlog × List EncEntry
  | v, [] => (v, [])
  | v, op :: ops =>
    let (v, e) := v.placeOp threshold op
    let (v, es) := placeOps threshold v ops
    (v, e :: es)

/-- The entries of a placed batch stand for its ops. -/
inductive Encodes (v : Vlog) : List BatchOp → List EncEntry → Prop
  | nil : Encodes v [] []
  | cons {op : BatchOp} {ops : List BatchOp} {repr : ReprRef} {es : List EncEntry} :
      v.Holds op.key repr op.value? → Encodes v ops es →
      Encodes v (op :: ops) (⟨op.kind, op.key, repr⟩ :: es)

theorem Encodes.mono {ops : List BatchOp} {es : List EncEntry} (h : v.Encodes ops es)
    (hsub : ∀ r ∈ v.records, r ∈ v'.records) : v'.Encodes ops es := by
  induction h with
  | nil => exact .nil
  | cons hholds _ ih => exact .cons (hholds.mono hsub) ih

theorem Encodes.length_eq {ops : List BatchOp} {es : List EncEntry} (h : v.Encodes ops es) :
    es.length = ops.length := by
  induction h with
  | nil => rfl
  | cons _ _ ih => simp [ih]

theorem Encodes.getElem? {ops : List BatchOp} {es : List EncEntry} (h : v.Encodes ops es) {i : ℕ}
    {e : EncEntry} (he : es[i]? = some e) :
    ∃ op, ops[i]? = some op ∧ e.kind = op.kind ∧ e.key = op.key ∧
      v.Holds op.key e.repr op.value? := by
  induction h generalizing i with
  | nil => exact absurd he (by simp)
  | cons hholds _ ih =>
    cases i with
    | zero =>
      obtain rfl := Option.some_inj.mp he
      exact ⟨_, rfl, rfl, rfl, hholds⟩
    | succ i => exact ih he

theorem placeOp_spec (threshold : ℕ) (v : Vlog) (op : BatchOp) :
    (∀ r ∈ v.records, r ∈ (v.placeOp threshold op).1.records) ∧
      (v.placeOp threshold op).1.headId = v.headId ∧
      (∀ next, v.WF next → (v.placeOp threshold op).1.WF next) ∧
      ∃ repr, (v.placeOp threshold op).2 = ⟨op.kind, op.key, repr⟩ ∧
        (v.placeOp threshold op).1.Holds op.key repr op.value? := by
  cases op with
  | put key value =>
    by_cases h : threshold ≤ value.length
    · rw [show v.placeOp threshold (.put key value) =
        ((v.append key value).2, ⟨.put, key, .ptr (v.append key value).1⟩) from if_pos h]
      exact ⟨fun r hr => List.mem_append_left _ hr, rfl, fun next hw => hw.append key value,
        _, rfl, value, rfl, List.mem_append_right _ (List.mem_singleton_self _)⟩
    · rw [show v.placeOp threshold (.put key value) = (v, ⟨.put, key, .inline value⟩) from if_neg h]
      exact ⟨fun r hr => hr, rfl, fun next hw => hw, _, rfl, rfl⟩
  | delete key => exact ⟨fun r hr => hr, rfl, fun next hw => hw, _, rfl, rfl⟩

/-- **Placement**: the log grows, and the entries stand for the ops. -/
theorem placeOps_spec (threshold : ℕ) (v : Vlog) (ops : List BatchOp) :
    (∀ r ∈ v.records, r ∈ (v.placeOps threshold ops).1.records) ∧
      (v.placeOps threshold ops).1.headId = v.headId ∧
      (∀ next, v.WF next → (v.placeOps threshold ops).1.WF next) ∧
      (v.placeOps threshold ops).1.Encodes ops (v.placeOps threshold ops).2 := by
  induction ops generalizing v with
  | nil => exact ⟨fun r hr => hr, rfl, fun next hw => hw, .nil⟩
  | cons op ops ih =>
    obtain ⟨hsub, hhead, hwf, repr, hentry, hholds⟩ := placeOp_spec threshold v op
    obtain ⟨hsub', hhead', hwf', henc⟩ := ih (v.placeOp threshold op).1
    refine ⟨fun r hr => hsub' r (hsub r hr), hhead'.trans hhead, fun next hw =>
      hwf' next (hwf next hw), ?_⟩
    show Encodes _ (op :: ops) ((v.placeOp threshold op).2 :: _)
    rw [hentry]
    exact .cons (hholds.mono hsub') henc

end Vlog

end Fluent31
