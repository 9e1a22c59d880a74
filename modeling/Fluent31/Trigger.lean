/-
Trigger definitions and event capture (`trigger.rs`).

A keys-mode trigger queues the touched user key under its own name, once per
batch; a changes-mode trigger queues one record per op, under the op's commit
seqno.  `captureOps` computes the event ops a batch commits with.

* `mem_captureOps_keys` — which keys-mode events a batch carries;
* `queue_of_mem_captureOps` — every event is a put of a queue key.
-/
import Fluent31.Batch

namespace Fluent31

open Ordered

inductive TriggerMode
  | keys
  | changes
  deriving DecidableEq, Repr

structure TriggerDef where
  name : Bytes
  module : Bytes
  /-- Inclusive range start; empty for the start of the keyspace. -/
  lo : Bytes
  /-- Exclusive range end; empty for unbounded. -/
  hi : Bytes
  mode : TriggerMode
  deriving DecidableEq, Repr

/-- The key is inside the trigger's range. -/
def TriggerDef.Matches (d : TriggerDef) (key : Bytes) : Prop :=
  (d.lo = [] ∨ d.lo ≤ key) ∧ (d.hi = [] ∨ key < d.hi)

instance (d : TriggerDef) (key : Bytes) : Decidable (d.Matches key) :=
  inferInstanceAs (Decidable (_ ∧ _))

/-- The definition record: the v1 layout for keys mode, v2 for changes mode. -/
def encodeDef (d : TriggerDef) : Bytes :=
  let tail := putLenPrefixed d.name ++ putLenPrefixed d.module ++ putLenPrefixed d.lo ++
    putLenPrefixed d.hi
  match d.mode with
  | .keys => byte 1 :: tail
  | .changes => byte 2 :: (tail ++ [byte 1])

def decodeDef (buf : Bytes) : Option TriggerDef :=
  match buf with
  | [] => none
  | ver :: rest =>
    if ver = byte 1 ∨ ver = byte 2 then do
      let (name, rest) ← readLenPrefixed rest
      let (module, rest) ← readLenPrefixed rest
      let (lo, rest) ← readLenPrefixed rest
      let (hi, rest) ← readLenPrefixed rest
      if ver = byte 1 then some ⟨name, module, lo, hi, .keys⟩
      else if rest.head? = some (byte 0) then some ⟨name, module, lo, hi, .keys⟩
      else if rest.head? = some (byte 1) then some ⟨name, module, lo, hi, .changes⟩
      else none
    else none

/-- Trigger names are non-empty, at most 64 bytes, of letters, digits, `.`,
`_` and `-`. -/
def ValidTriggerName (name : Bytes) : Prop :=
  name ≠ [] ∧ name.length ≤ 64 ∧ ∀ b ∈ name,
    (48 ≤ b.val ∧ b.val ≤ 57) ∨ (65 ≤ b.val ∧ b.val ≤ 90) ∨ (97 ≤ b.val ∧ b.val ≤ 122) ∨
      b.val = 46 ∨ b.val = 95 ∨ b.val = 45

instance (name : Bytes) : Decidable (ValidTriggerName name) :=
  inferInstanceAs (Decidable (_ ∧ _ ∧ _))

theorem ValidTriggerName.zero_notMem {name : Bytes} (h : ValidTriggerName name) :
    byte 0 ∉ name := by
  intro h0
  have := h.2.2 _ h0
  simp at this

/-- What `create_trigger` checks of a definition: the wasm layer is on, the name
is valid, and bounds are valid user keys that leave a non-empty range. -/
def TriggerDef.Accepted (opts : Options) (d : TriggerDef) : Prop :=
  opts.wasmEnabled ∧ ValidTriggerName d.name ∧
    (∀ bound ∈ [d.lo, d.hi], bound ≠ [] → ValidUserKey bound ∧ bound.length ≤ opts.maxKeySize) ∧
    (d.lo ≠ [] → d.hi ≠ [] → d.lo < d.hi)

instance (opts : Options) (d : TriggerDef) : Decidable (d.Accepted opts) :=
  inferInstanceAs (Decidable (_ ∧ _ ∧ (∀ bound ∈ [d.lo, d.hi], (¬ _ → _)) ∧ (¬ _ → ¬ _ → _)))

/-! ### Changes-mode records -/

def CHANGE_PUT : ℕ := 0
def CHANGE_DELETE : ℕ := 1
/-- A put whose value was too large to inline: the event carries the key. -/
def CHANGE_PUT_ELIDED : ℕ := 2

/-- Version, kind, key, and the value when it is inlined. -/
def encodeChangeRecord (op : BatchOp) (inlineCap : ℕ) : Bytes :=
  let record (kind : ℕ) (key value : Bytes) : Bytes :=
    byte 1 :: byte kind :: (putLenPrefixed key ++ value)
  match op with
  | .put key value =>
    if value.length ≤ inlineCap then record CHANGE_PUT key value
    else record CHANGE_PUT_ELIDED key []
  | .delete key => record CHANGE_DELETE key []

/-! ### Capture -/

/-- `sort_unstable` and `dedup` of byte strings. -/
def sortDedup (keys : List Bytes) : List Bytes := keys.foldr (insertBy id) []

/-- Engine-internal writes never fire triggers. -/
def isSysKey (key : Bytes) : Bool := key.head? = some SYS_PREFIX

/-- The keys-mode queue keys an op touches. -/
def touchedKeys (defs : List TriggerDef) (op : BatchOp) : List Bytes :=
  if isSysKey op.key then []
  else (defs.filter fun d => decide (d.Matches op.key) && decide (d.mode = .keys)).map fun d =>
    sysTriggerEventKey d.name op.key

/-- The changes-mode events of an op that commits at `seq`. -/
def changeEvents (defs : List TriggerDef) (inlineCap : ℕ) (op : BatchOp) (seq : ℕ) : List BatchOp :=
  if isSysKey op.key then []
  else (defs.filter fun d => decide (d.Matches op.key) && decide (d.mode = .changes)).map fun d =>
    .put (sysTriggerChangeKey d.name seq) (encodeChangeRecord op inlineCap)

/-- Event ops to append to a batch of `ops` whose first op commits at `base`. -/
def captureOps (defs : List TriggerDef) (ops : List BatchOp) (base : ℕ) (opts : Options) :
    List BatchOp :=
  let inlineCap := min opts.triggerInlineValue (opts.maxWasmInput - (opts.maxKeySize + 64))
  (sortDedup (ops.flatMap (touchedKeys defs))).map (fun key => .put key []) ++
    (ops.zipIdx base).flatMap fun p => changeEvents defs inlineCap p.1 p.2

theorem sortedBy_sortDedup (keys : List Bytes) : SortedBy id (sortDedup keys) := by
  induction keys with
  | nil => exact List.Pairwise.nil
  | cons a keys ih => exact sortedBy_insertBy ih

theorem mem_sortDedup {keys : List Bytes} {k : Bytes} : k ∈ sortDedup keys ↔ k ∈ keys := by
  induction keys with
  | nil => exact Iff.rfl
  | cons a keys ih =>
    show k ∈ insertBy id a (sortDedup keys) ↔ _
    rw [mem_insertBy (sortedBy_sortDedup keys), ih, List.mem_cons]
    constructor
    · rintro (h | ⟨h, -⟩)
      · exact Or.inl h
      · exact Or.inr h
    · rintro (h | h)
      · exact Or.inl h
      · by_cases hka : k = a
        · exact Or.inl hka
        · exact Or.inr ⟨h, hka⟩

theorem mem_touchedKeys {defs : List TriggerDef} {op : BatchOp} {k : Bytes} :
    k ∈ touchedKeys defs op ↔ isSysKey op.key = false ∧
      ∃ d ∈ defs, d.mode = .keys ∧ d.Matches op.key ∧ k = sysTriggerEventKey d.name op.key := by
  unfold touchedKeys
  split
  · rename_i hsys
    simp [hsys]
  · rename_i hsys
    rw [List.mem_map]
    constructor
    · rintro ⟨d, hd, rfl⟩
      obtain ⟨hd, hcond⟩ := List.mem_filter.mp hd
      rw [Bool.and_eq_true, decide_eq_true_eq, decide_eq_true_eq] at hcond
      exact ⟨by simpa using hsys, d, hd, hcond.2, hcond.1, rfl⟩
    · rintro ⟨-, d, hd, hmode, hmatch, rfl⟩
      exact ⟨d, List.mem_filter.mpr ⟨hd, by simp [hmode, hmatch]⟩, rfl⟩

/-- Every event is a put of a queue key. -/
theorem queue_of_mem_captureOps {defs : List TriggerDef} {ops : List BatchOp} {base : ℕ}
    {opts : Options} {ev : BatchOp} (h : ev ∈ captureOps defs ops base opts) :
    QUEUE_PREFIX <+: ev.key ∧ ev.kind = .put := by
  rcases List.mem_append.mp h with h | h
  · obtain ⟨k, hk, rfl⟩ := List.mem_map.mp h
    obtain ⟨op, -, hop⟩ := List.mem_flatMap.mp (mem_sortDedup.mp hk)
    obtain ⟨-, d, -, -, -, rfl⟩ := mem_touchedKeys.mp hop
    exact ⟨queuePrefix_eventKey _ _, rfl⟩
  · obtain ⟨p, -, hp⟩ := List.mem_flatMap.mp h
    unfold changeEvents at hp
    split at hp
    · exact absurd hp List.not_mem_nil
    · obtain ⟨d, -, rfl⟩ := List.mem_map.mp hp
      exact ⟨List.prefix_append _ _, rfl⟩

/-- A touched key's event rides in the batch. -/
theorem mem_captureOps_keys {defs : List TriggerDef} {ops : List BatchOp} {base : ℕ}
    {opts : Options} {op : BatchOp} {d : TriggerDef} (hop : op ∈ ops)
    (hsys : isSysKey op.key = false) (hd : d ∈ defs) (hmode : d.mode = .keys)
    (hmatch : d.Matches op.key) :
    .put (sysTriggerEventKey d.name op.key) [] ∈ captureOps defs ops base opts := by
  refine List.mem_append_left _ (List.mem_map.mpr ⟨_, mem_sortDedup.mpr ?_, rfl⟩)
  exact List.mem_flatMap.mpr ⟨op, hop, mem_touchedKeys.mpr ⟨hsys, d, hd, hmode, hmatch, rfl⟩⟩

end Fluent31
