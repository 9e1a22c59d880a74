/-
Options, batches and their WAL payload (`config.rs`, `batch.rs`, `error.rs`).

Only the options the modelled code reads are kept.  A batch is a list of ops;
after value placement it is a list of `EncEntry`, which is what WAL records and
memtables hold.
-/
import Fluent31.Table

namespace Fluent31

inductive Error
  | invalidArgument (msg : String)
  | corruption (msg : String)
  | conflict
  | io (msg : String)
  /-- The database has been shut down. -/
  | closed
  /-- The store is degraded until it is reopened. -/
  | background (msg : String)
  deriving DecidableEq, Repr

/-- How an error is displayed. -/
def Error.text : Error → String
  | io msg => "io error: " ++ msg
  | corruption msg => "corruption: " ++ msg
  | invalidArgument msg => "invalid argument: " ++ msg
  | conflict => "transaction conflict"
  | closed => "database closed"
  | background msg => "background error: " ++ msg

inductive SyncMode
  | always
  | periodic
  | never
  deriving DecidableEq, Repr

structure Options where
  sync : SyncMode
  wasmEnabled : Bool
  memtableSize : ℕ
  bloomBitsPerKey : ℕ
  l0CompactionTrigger : ℕ
  tierWidth : ℕ
  maxLevels : ℕ
  targetFileSize : ℕ
  compactionSliceBytes : ℕ
  valueThreshold : ℕ
  vlogFileSize : ℕ
  maxKeySize : ℕ
  maxValueSize : ℕ
  maxTxnWriteBytes : ℕ
  maxWasmInput : ℕ
  triggerBatch : ℕ
  triggerInlineValue : ℕ
  /-- The block codec's sizes. -/
  tableFormat : TableFormat

/-- The defaults; the table format stands for the block codec. -/
def Options.default (tableFormat : TableFormat) : Options where
  sync := .always
  wasmEnabled := true
  memtableSize := 8 * 2 ^ 20
  bloomBitsPerKey := 10
  l0CompactionTrigger := 4
  tierWidth := 4
  maxLevels := 7
  targetFileSize := 64 * 2 ^ 20
  compactionSliceBytes := 2 ^ 20
  valueThreshold := 4096
  vlogFileSize := 128 * 2 ^ 20
  maxKeySize := 16 * 2 ^ 10
  maxValueSize := 256 * 2 ^ 20
  maxTxnWriteBytes := 256 * 2 ^ 20
  maxWasmInput := 64 * 2 ^ 20
  triggerBatch := 512
  triggerInlineValue := 64 * 2 ^ 10
  tableFormat := tableFormat

/-! ### Batches -/

inductive BatchOp
  | put (key value : Bytes)
  | delete (key : Bytes)
  deriving DecidableEq, Repr

namespace BatchOp

def key : BatchOp → Bytes
  | put key _ => key
  | delete key => key

def kind : BatchOp → ValueKind
  | put _ _ => .put
  | delete _ => .delete

/-- The value an op leaves under its key. -/
def value? : BatchOp → Option Bytes
  | put _ value => some value
  | delete _ => none

/-- The op's share of the size check made before value placement. -/
def approxSize : BatchOp → ℕ
  | put key value => key.length + value.length + 32
  | delete key => key.length + 16

end BatchOp

/-- An entry after value placement. -/
structure EncEntry where
  kind : ValueKind
  key : Bytes
  repr : ReprRef
  deriving DecidableEq, Repr

/-- The entry as a version committed at `seq`. -/
def EncEntry.at (e : EncEntry) (seq : ℕ) : Entry := ⟨e.key, seq, e.kind, e.repr⟩

/-- A batch's versions: the entries take consecutive seqnos from `base` on. -/
def versionsFrom (base : ℕ) : List EncEntry → List Entry
  | [] => []
  | e :: es => e.at base :: versionsFrom (base + 1) es

/-- One entry of the payload. -/
def EncEntry.encode (e : EncEntry) : Bytes :=
  byte e.kind.toNat :: (putLenPrefixed e.key ++ putLenPrefixed e.repr.encode)

/-- WAL payload: base seqno, entry count, entries. -/
def encodeBatch (base : ℕ) (entries : List EncEntry) : Bytes :=
  putU64 base ++ (putU32 entries.length ++ entries.flatMap EncEntry.encode)

/-- Records must stay below this size. -/
def WAL_RECORD_LIMIT : ℕ := 2 ^ 30

theorem mem_versionsFrom {base : ℕ} {es : List EncEntry} {v : Entry} :
    v ∈ versionsFrom base es ↔
      ∃ (i : ℕ) (e : EncEntry), es[i]? = some e ∧ v = e.at (base + i) := by
  induction es generalizing base with
  | nil => simp [versionsFrom]
  | cons e es ih =>
    rw [versionsFrom, List.mem_cons, ih]
    constructor
    · rintro (rfl | ⟨i, f, hf, rfl⟩)
      · exact ⟨0, e, rfl, rfl⟩
      · exact ⟨i + 1, f, hf, by rw [Nat.add_assoc, Nat.add_comm 1]⟩
    · rintro ⟨i, f, hf, rfl⟩
      cases i with
      | zero => exact Or.inl (by rw [Option.some_inj.mp hf, Nat.add_zero])
      | succ i => exact Or.inr ⟨i, f, hf, by rw [Nat.add_assoc, Nat.add_comm 1]⟩

/-- The seqnos of a batch are `base, …, base + length - 1`. -/
theorem seq_of_mem_versionsFrom {base : ℕ} {es : List EncEntry} {v : Entry}
    (h : v ∈ versionsFrom base es) : base ≤ v.seq ∧ v.seq < base + es.length := by
  obtain ⟨i, e, he, rfl⟩ := mem_versionsFrom.mp h
  have hi : i < es.length := (List.getElem?_eq_some_iff.mp he).1
  exact ⟨Nat.le_add_right _ _, Nat.add_lt_add_left hi _⟩

theorem pairwise_versionsFrom (base : ℕ) (es : List EncEntry) :
    (versionsFrom base es).Pairwise fun a b => a.seq < b.seq := by
  induction es generalizing base with
  | nil => exact List.Pairwise.nil
  | cons e es ih =>
    refine List.pairwise_cons.mpr ⟨fun v hv => ?_, ih (base + 1)⟩
    exact (seq_of_mem_versionsFrom hv).1

@[simp] theorem length_versionsFrom (base : ℕ) (es : List EncEntry) :
    (versionsFrom base es).length = es.length := by
  induction es generalizing base with
  | nil => rfl
  | cons e es ih => simp [versionsFrom, ih]

/-- Entries with different seqnos have different internal keys. -/
theorem ikey_ne_of_seq_ne {e f : Entry} (h : e.seq ≠ f.seq) : e.ikey ≠ f.ikey := by
  intro heq
  have htrailer : packTrailer e.seq e.kind.toNat = packTrailer f.seq f.kind.toNat :=
    congrArg (fun k : IKey => OrderDual.ofDual (ofLex k).2) heq
  have he := e.kind.toNat_le
  have hf := f.kind.toNat_le
  unfold packTrailer at htrailer
  omega

end Fluent31
