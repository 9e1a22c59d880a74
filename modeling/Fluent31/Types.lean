/-
Internal keys, stored values and the reserved keyspace (`types.rs`).

An internal key is a user key with a trailer `seqno * 256 + kind`; internal
keys are ordered by user key ascending and trailer descending, so the versions
of one user key stand newest first.  A stored `Put` is either the value itself
or a pointer into a value-log file.

* `seek_le_iff` — the seek target of `(k, s)` is at or before exactly the
  versions of `k` with seqno at most `s`, among those of `k`;
* `decodeRepr_encodePtr`, `decodeRepr_encodeInline` — value round trips;
* `sysTriggerEventKey_inj` and its neighbours — queue keys of distinct
  triggers or user keys are distinct.
-/
import Fluent31.Lib.Newest
import Fluent31.Coding
import Mathlib.Data.Prod.Lex

namespace Fluent31

/-- Seqnos are 56-bit numbers: they leave eight bits of the trailer for the kind. -/
def MAX_SEQNO : ℕ := 2 ^ 56 - 1

inductive ValueKind
  | delete
  | put
  deriving DecidableEq, Repr

def ValueKind.toNat : ValueKind → ℕ
  | .delete => 0
  | .put => 1

/-- The kind byte of seek targets, above every real kind. -/
def SEEK_KIND : ℕ := 255

def packTrailer (seq : ℕ) (kind : ℕ) : ℕ := seq * 256 + kind

/-- Internal keys: user key ascending, then trailer descending. -/
abbrev IKey := Bytes ×ₗ ℕᵒᵈ

def makeIkey (ukey : Bytes) (seq : ℕ) (kind : ValueKind) : IKey :=
  toLex (ukey, OrderDual.toDual (packTrailer seq kind.toNat))

/-- The seek target: before every version of `ukey` with seqno at most `seq`,
after every newer one. -/
def makeSeekIkey (ukey : Bytes) (seq : ℕ) : IKey :=
  toLex (ukey, OrderDual.toDual (packTrailer seq SEEK_KIND))

/-! ### Value representation -/

/-- Location of a whole record inside a value-log file; the fields are `u64`,
`u64` and `u32` numbers. -/
structure ValuePtr where
  file : ℕ
  offset : ℕ
  len : ℕ
  deriving DecidableEq, Repr

/-- What an entry stores beside its key: nothing for a delete, the value itself
or a pointer to it for a put. -/
inductive ReprRef
  | empty
  | inline (value : Bytes)
  | ptr (p : ValuePtr)
  deriving DecidableEq, Repr

def encodeInline (value : Bytes) : Bytes := byte 0 :: value

def encodePtr (p : ValuePtr) : Bytes :=
  byte 1 :: (putUvarint (p.file % 2 ^ 64) ++ (putUvarint (p.offset % 2 ^ 64) ++
    putUvarint (p.len % 2 ^ 32)))

/-- The stored bytes. -/
def ReprRef.encode : ReprRef → Bytes
  | .empty => []
  | .inline value => encodeInline value
  | .ptr p => encodePtr p

def decodeRepr : Bytes → Option ReprRef
  | [] => none
  | tag :: rest =>
    if tag = byte 0 then some (.inline rest)
    else if tag = byte 1 then do
      let (file, rest) ← readUvarint rest
      let (offset, rest) ← readUvarint rest
      let (len, _) ← readUvarint rest
      if 2 ^ 32 ≤ len then none else some (.ptr ⟨file, offset, len⟩)
    else none

theorem decodeRepr_encodeInline (value : Bytes) :
    decodeRepr (encodeInline value) = some (.inline value) := rfl

/-- The pointers the value log can hand out fit their integer types. -/
def ValuePtr.Fits (p : ValuePtr) : Prop :=
  p.file < 2 ^ 64 ∧ p.offset < 2 ^ 64 ∧ p.len < 2 ^ 32

theorem decodeRepr_encodePtr {p : ValuePtr} (h : p.Fits) :
    decodeRepr (encodePtr p) = some (.ptr p) := by
  obtain ⟨hfile, hoffset, hlen⟩ := h
  have hlen' : readUvarint (putUvarint p.len) = some (p.len, []) := by
    simpa using readUvarint_putUvarint (by omega : p.len < 2 ^ 64) []
  have htag : byte 1 ≠ byte 0 := by decide
  simp only [decodeRepr, encodePtr, if_neg htag, if_true, Nat.mod_eq_of_lt hfile,
    Nat.mod_eq_of_lt hoffset, Nat.mod_eq_of_lt hlen, readUvarint_putUvarint hfile,
    readUvarint_putUvarint hoffset, hlen', Option.bind_eq_bind, Option.bind_some]
  rw [if_neg (by omega)]

/-! ### Entries -/

/-- A version of a user key as memtables and tables store it. -/
structure Entry where
  ukey : Bytes
  seq : ℕ
  kind : ValueKind
  repr : ReprRef
  deriving DecidableEq, Repr

instance : Versioned Entry Bytes := ⟨Entry.ukey, Entry.seq⟩

@[simp] theorem key_eq_ukey (e : Entry) : Versioned.key e = e.ukey := rfl

@[simp] theorem seq_eq_seq (e : Entry) : Versioned.seq e = e.seq := rfl

namespace Entry

def ikey (e : Entry) : IKey := makeIkey e.ukey e.seq e.kind

/-- Length of the encoded internal key: the user key and eight trailer bytes. -/
def ikeyLen (e : Entry) : ℕ := e.ukey.length + 8

/-- Deletions are the versions garbage collection may bury. -/
def IsTombstone (e : Entry) : Prop := e.kind = .delete

end Entry

theorem ValueKind.toNat_le (kind : ValueKind) : kind.toNat ≤ 1 := by cases kind <;> decide

theorem ikey_lt_iff {e f : Entry} :
    e.ikey < f.ikey ↔ e.ukey < f.ukey ∨
      e.ukey = f.ukey ∧ packTrailer f.seq f.kind.toNat < packTrailer e.seq e.kind.toNat :=
  Prod.Lex.lt_iff

/-- Strict order of internal keys: by user key, then newest first. -/
theorem ikey_lt_of_seq_lt {e f : Entry} (hk : e.ukey = f.ukey) (hs : f.seq < e.seq) :
    e.ikey < f.ikey := by
  refine ikey_lt_iff.mpr (Or.inr ⟨hk, ?_⟩)
  have := f.kind.toNat_le
  unfold packTrailer
  omega

theorem ukey_le_of_ikey_lt {e f : Entry} (h : e.ikey < f.ikey) : e.ukey ≤ f.ukey := by
  rcases ikey_lt_iff.mp h with h | ⟨h, -⟩
  · exact le_of_lt h
  · exact le_of_eq h

theorem ikey_lt_of_ukey_lt {e f : Entry} (h : e.ukey < f.ukey) : e.ikey < f.ikey :=
  ikey_lt_iff.mpr (Or.inl h)

theorem seq_ge_of_ikey_lt {e f : Entry} (h : e.ikey < f.ikey) (hk : e.ukey = f.ukey) :
    f.seq ≤ e.seq := by
  rcases ikey_lt_iff.mp h with hlt | ⟨-, hlt⟩
  · exact absurd hk (ne_of_lt hlt)
  · have := e.kind.toNat_le
    simp only [packTrailer] at hlt
    omega

/-- A seek target stands at or before an entry when the entry has a larger
user key, or the same one and no newer seqno. -/
theorem seek_le_iff {k : Bytes} {s : ℕ} {e : Entry} :
    makeSeekIkey k s ≤ e.ikey ↔ k < e.ukey ∨ k = e.ukey ∧ e.seq ≤ s := by
  have hkind := e.kind.toNat_le
  have htrailer : packTrailer e.seq e.kind.toNat ≤ packTrailer s SEEK_KIND ↔ e.seq ≤ s := by
    simp only [packTrailer, SEEK_KIND]
    omega
  rw [← htrailer]
  exact Prod.Lex.le_iff

/-! ### Reserved keyspace -/

def SYS_PREFIX : Byte := byte 0

/-- The keys `validate_user_key` accepts. -/
def ValidUserKey (key : Bytes) : Prop := key ≠ [] ∧ key.head? ≠ some SYS_PREFIX

instance (key : Bytes) : Decidable (ValidUserKey key) := inferInstanceAs (Decidable (_ ∧ _))

/-- `\x00trg\x00`: trigger definition records. -/
def DEF_PREFIX : Bytes := [byte 0, byte 116, byte 114, byte 103, byte 0]

/-- `\x00trgq\x00`: pending events of all triggers. -/
def QUEUE_PREFIX : Bytes := [byte 0, byte 116, byte 114, byte 103, byte 113, byte 0]

def sysTriggerKey (name : Bytes) : Bytes := DEF_PREFIX ++ name

/-- Keys-mode event: the touched user key is the queue key. -/
def sysTriggerEventKey (name ukey : Bytes) : Bytes :=
  QUEUE_PREFIX ++ (name ++ byte 0 :: ukey)

/-- Changes-mode event: the queue key is the op's commit seqno, big-endian. -/
def sysTriggerChangeKey (name : Bytes) (seqno : ℕ) : Bytes :=
  QUEUE_PREFIX ++ (name ++ byte 0 :: putBe 8 seqno)

/-- Names without a zero byte split a queue key in one way. -/
theorem name_split {n₁ n₂ r₁ r₂ : Bytes} (h₁ : byte 0 ∉ n₁) (h₂ : byte 0 ∉ n₂)
    (h : n₁ ++ byte 0 :: r₁ = n₂ ++ byte 0 :: r₂) : n₁ = n₂ ∧ r₁ = r₂ := by
  induction n₁ generalizing n₂ with
  | nil =>
    cases n₂ with
    | nil => simpa using h
    | cons b n₂ =>
      simp only [List.nil_append, List.cons_append, List.cons.injEq] at h
      exact absurd (h.1 ▸ List.mem_cons_self) h₂
  | cons a n₁ ih =>
    cases n₂ with
    | nil =>
      simp only [List.nil_append, List.cons_append, List.cons.injEq] at h
      exact absurd (h.1 ▸ List.mem_cons_self) h₁
    | cons b n₂ =>
      simp only [List.cons_append, List.cons.injEq] at h
      obtain ⟨hab, hrest⟩ := h
      obtain ⟨hn, hr⟩ := ih (fun hc => h₁ (List.mem_cons_of_mem _ hc))
        (fun hc => h₂ (List.mem_cons_of_mem _ hc)) hrest
      exact ⟨by rw [hab, hn], hr⟩

theorem sysTriggerEventKey_inj {n₁ n₂ k₁ k₂ : Bytes} (h₁ : byte 0 ∉ n₁) (h₂ : byte 0 ∉ n₂) :
    sysTriggerEventKey n₁ k₁ = sysTriggerEventKey n₂ k₂ ↔ n₁ = n₂ ∧ k₁ = k₂ := by
  constructor
  · intro h
    exact name_split h₁ h₂ (List.append_cancel_left h)
  · rintro ⟨rfl, rfl⟩
    rfl

theorem queuePrefix_eventKey (name ukey : Bytes) :
    QUEUE_PREFIX <+: sysTriggerEventKey name ukey := List.prefix_append _ _

/-- Queue keys lie in the reserved keyspace. -/
theorem not_validUserKey_of_queue {key : Bytes} (h : QUEUE_PREFIX <+: key) :
    ¬ ValidUserKey key := by
  obtain ⟨rest, rfl⟩ := h
  exact fun hv => hv.2 rfl

end Fluent31
