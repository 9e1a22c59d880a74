/-
A WAL cut at any byte, and the batches in its records (`wal.rs`, `batch.rs`).

* `readWal_take` — what is read of a cut WAL: the payloads framed wholly before
  the cut, and a tail that is clean exactly between two frames;
* `decodeBatch_encode` — a batch decodes to its entries, up to the count that
  its 32-bit field holds;
* `wal_cut` — recovery of a WAL cut anywhere sees whole batches only.
-/
import Fluent31.Reader
import Fluent31.WalFile
import Fluent31.Lib.Blocks

namespace Fluent31

open Decoder

section

variable {crc : Bytes → Fin (2 ^ 32)} {payloads : List Bytes} {n : ℕ}

/-- The byte at which the first `k` frames end. -/
def frameEnd (crc : Bytes → Fin (2 ^ 32)) (payloads : List Bytes) (k : ℕ) : ℕ :=
  (frames crc (payloads.take k)).length

/-- **A cut WAL** reads as the payloads whose frames the cut leaves whole. -/
theorem readWal_take (h : ∀ p ∈ payloads, 0 < p.length ∧ p.length < WAL_RECORD_LIMIT)
    (hn : n ≤ (frames crc payloads).length) :
    (readWal crc ((frames crc payloads).take n)).1 = payloads.take
      (wholeBlocks (frame crc) payloads n) ∧
      ((readWal crc ((frames crc payloads).take n)).2 = .clean ↔
        ∃ j ≤ payloads.length, n = frameEnd crc payloads j) ∧
      ((readWal crc ((frames crc payloads).take n)).2 ≠ .clean →
        (readWal crc ((frames crc payloads).take n)).2 =
          .torn (frameEnd crc payloads (wholeBlocks (frame crc) payloads n))) := by
  obtain ⟨rest, htake, hrest⟩ := take_flatMap (frame crc) payloads n
  have hremnant : Remnant crc rest := hrest.imp id fun ⟨p, hp, hinit, hlt⟩ =>
    ⟨p, (h p hp).1, (h p hp).2, hinit, hlt⟩
  have hread := readWal_frames 
    (fun p hp => h p (List.mem_of_mem_take hp) :
        ∀ p ∈ payloads.take (wholeBlocks (frame crc) payloads n), _)
    hremnant.stops
  have hcut : (frames crc payloads).take n = frames crc
      (payloads.take (wholeBlocks (frame crc) payloads n)) ++ rest :=
    htake
  rw [hcut, hread]
  refine ⟨rfl, ?_, fun htorn => ?_⟩
  · refine Iff.trans ?_ (rest_eq_nil_iff hn htake)
    by_cases hnil : rest = []
    · simp [hnil]
    · simp [hnil]
  · have hnil : rest ≠ [] := fun hnil => htorn (if_pos hnil)
    exact if_neg hnil

/-- Zero bytes behind the frames are no record. -/
theorem readWal_zeros (h : ∀ p ∈ payloads, 0 < p.length ∧ p.length < WAL_RECORD_LIMIT) {m : ℕ}
    (hm : 0 < m) :
    readWal crc (frames crc payloads ++ List.replicate m (byte 0)) =
      (payloads, .torn (frames crc payloads).length) := by
  have hne : List.replicate m (byte 0) ≠ [] := by
    rw [Ne, List.replicate_eq_nil_iff]
    exact hm.ne'
  rw [readWal_frames h (stops_zeros crc m), if_neg hne]

end

/-! ### Batches -/

/-- An entry as the WAL carries it, its value representation in bytes. -/
structure WalEntry where
  kind : ValueKind
  key : Bytes
  repr : Bytes
  deriving DecidableEq

namespace WalEntry

/-- `[kind u8][klen varint][key][rlen varint][repr]`. -/
def encode (e : WalEntry) : Bytes :=
  [byte e.kind.toNat] ++ (putLenPrefixed e.key ++ putLenPrefixed e.repr)

end WalEntry

def ValueKind.fromU8 : ℕ → Except Halt ValueKind
  | 0 => .ok .delete
  | 1 => .ok .put
  | other => .error (.error (.corruption s!"bad value kind {other}"))

def WalEntry.decode : Decoder Reader Halt WalEntry := do
  let k ← Reader.u8
  let kind ← ValueKind.fromU8 k
  let key ← Reader.lenPrefixed
  let repr ← Reader.lenPrefixed
  pure ⟨kind, key, repr⟩

/-- `encode_batch`: the count is cast to 32 bits. -/
def encodeEntries (base : ℕ) (entries : List WalEntry) : Bytes :=
  putU64 base ++ (putU32 entries.length ++ entries.flatMap WalEntry.encode)

/-- A placed entry's representation in bytes. -/
def EncEntry.raw (e : EncEntry) : WalEntry := ⟨e.kind, e.key, e.repr.encode⟩

theorem encodeBatch_eq (base : ℕ) (es : List EncEntry) :
    encodeBatch base es = encodeEntries base (es.map EncEntry.raw) := by
  unfold encodeBatch encodeEntries
  rw [List.length_map, List.flatMap_map]
  rfl

theorem fromU8_toNat (kind : ValueKind) : ValueKind.fromU8 kind.toNat = .ok kind := by
  cases kind <;> rfl

theorem inverts_walEntry : Inverts Reader.rest WalEntry.encode
    (fun e => e.key.length < 2 ^ 64 ∧ e.repr.length < 2 ^ 64) WalEntry.decode := by
  refine Reader.inverts_u8.bind (f := fun e : WalEntry => e.kind.toNat) (fun e _ => ?_)
    fun k _ => ?_
  · have := e.kind.toNat_le
    omega
  · -- the kind byte is an entry's own, so it is a kind
    rintro e ⟨he, rfl⟩ r more hr
    have hfields : Inverts Reader.rest
        (fun e : WalEntry => putLenPrefixed e.key ++ putLenPrefixed e.repr)
        (fun f => (f.key.length < 2 ^ 64 ∧ f.repr.length < 2 ^ 64) ∧ f.kind = e.kind) (do
          let key ← Reader.lenPrefixed
          let repr ← Reader.lenPrefixed
          pure ⟨e.kind, key, repr⟩) := by
      refine Reader.inverts_lenPrefixed.bind (f := WalEntry.key) (fun f hf => hf.1.1)
        fun key _ => ?_
      refine Reader.inverts_lenPrefixed.last (f := WalEntry.repr) (fun f hf => hf.1.1.2)
        fun repr _ f hf => ?_
      obtain ⟨⟨⟨-, hkind⟩, rfl⟩, rfl⟩ := hf
      rw [← hkind]
    obtain ⟨r', hrun, hrest⟩ := hfields ⟨he, rfl⟩ hr
    refine ⟨r', ?_, hrest⟩
    rw [fromU8_toNat]
    exact hrun

theorem putLe_mod (n v : ℕ) : putLe n v = putLe n (v % 256 ^ n) := by
  induction n generalizing v with
  | zero => rfl
  | succ n ih =>
    have hbyte : byte (v % 256 ^ (n + 1)) = byte v := by
      refine Fin.ext ?_
      rw [val_byte, val_byte, Nat.pow_succ, Nat.mul_comm, Nat.mod_mul_right_mod]
    rw [putLe, putLe, hbyte, ih (v / 256), ih (v % 256 ^ (n + 1) / 256), Nat.pow_succ, Nat.mul_comm,
      Nat.mod_mul_right_div_self, Nat.mod_mod]

theorem length_le_of_mem {entries : List WalEntry} {e : WalEntry} (he : e ∈ entries) (base : ℕ) :
    e.key.length ≤ (encodeEntries base entries).length ∧
      e.repr.length ≤ (encodeEntries base entries).length := by
  have hle : e.encode.length ≤ (entries.flatMap WalEntry.encode).length :=
    (List.sublist_flatten_of_mem (List.mem_map_of_mem he)).length_le
  have hfield : e.encode.length = 1 + ((putUvarint e.key.length).length + e.key.length +
      ((putUvarint e.repr.length).length + e.repr.length)) := by
    unfold WalEntry.encode putLenPrefixed
    rw [List.length_append, List.length_append, List.length_append, List.length_append,
      List.length_singleton]
  have hall : (encodeEntries base entries).length =
      (putU64 base).length +
        ((putU32 entries.length).length + (entries.flatMap WalEntry.encode).length) := by
    unfold encodeEntries
    rw [List.length_append, List.length_append]
  omega

/-- The fields of a batch. -/
def batchFields : Decoder Reader Halt (ℕ × List WalEntry) := do
  let base ← Reader.u64
  let count ← Reader.u32
  let entries ← times WalEntry.decode count
  pure (base, entries)

theorem inverts_batchFields :
    Inverts Reader.rest (fun c : ℕ × List WalEntry => encodeEntries c.1 c.2)
    (fun c => c.1 < 2 ^ 64 ∧ c.2.length < 2 ^ 32 ∧ ∀ e ∈ c.2, e.key.length < 2 ^ 64 ∧
      e.repr.length < 2 ^ 64)
    batchFields := by
  refine Reader.inverts_u64.bind (f := Prod.fst) (fun c h => h.1) fun base _ => ?_
  refine Reader.inverts_u32.bind (f := fun c : ℕ × List WalEntry => c.2.length) (fun c h => h.1.2.1)
    fun count _ => ?_
  refine (inverts_walEntry.times count).last (f := Prod.snd) (fun c h => ⟨h.2, h.1.1.2.2⟩)
    fun entries _ c h => ?_
  obtain ⟨⟨⟨-, rfl⟩, -⟩, rfl⟩ := h
  rfl

/-- `decode_batch`; what is behind the counted entries is not looked at. -/
def decodeBatch (payload : Bytes) : Except Halt (ℕ × List WalEntry) :=
  Reader.decodeAll batchFields payload

/-- The entries beyond what the count field holds are left over. -/
theorem encodeEntries_split (base : ℕ) (entries : List WalEntry) :
    encodeEntries base entries = encodeEntries base (entries.take (entries.length % 2 ^ 32)) ++
      (entries.drop (entries.length % 2 ^ 32)).flatMap WalEntry.encode := by
  have hlen : (entries.take (entries.length % 2 ^ 32)).length = entries.length % 2 ^ 32 :=
    List.length_take_of_le (Nat.mod_le _ _)
  have hword : 256 ^ 4 = 2 ^ 32 := by decide
  unfold encodeEntries
  rw [hlen, List.append_assoc, List.append_assoc, ← List.flatMap_append, List.take_append_drop,
    putU32, putU32, putLe_mod 4 entries.length, hword]

/-- **Batches** decode to as many entries as the count field says. -/
theorem decodeBatch_encode {base : ℕ} {entries : List WalEntry} (hbase : base < 2 ^ 64)
    (hsize : (encodeEntries base entries).length < 2 ^ 64) :
    decodeBatch (encodeEntries base entries) =
      .ok (base, entries.take (entries.length % 2 ^ 32)) := by
  have hlen : (entries.take (entries.length % 2 ^ 32)).length < 2 ^ 32 := by
    rw [List.length_take_of_le (Nat.mod_le _ _)]
    exact Nat.mod_lt _ (Nat.two_pow_pos 32)
  have hfits : ∀ e ∈ entries.take (entries.length % 2 ^ 32), e.key.length < 2 ^ 64 ∧
      e.repr.length < 2 ^ 64 := by
    intro e he
    obtain ⟨hkey, hrepr⟩ := length_le_of_mem (List.mem_of_mem_take he) base
    exact ⟨lt_of_le_of_lt hkey hsize, lt_of_le_of_lt hrepr hsize⟩
  rw [encodeEntries_split] at hsize ⊢
  exact Reader.decodeAll_of_inverts inverts_batchFields
    (a := (base, entries.take (entries.length % 2 ^ 32))) ⟨hbase, hlen, hfits⟩ hsize

/-- Every entry takes a byte and more. -/
theorem length_encodeEntries (base : ℕ) (entries : List WalEntry) :
    12 ≤ (encodeEntries base entries).length ∧
      entries.length ≤ (encodeEntries base entries).length := by
  have hle : entries.length ≤ (entries.flatMap WalEntry.encode).length := by
    induction entries with
    | nil => exact Nat.zero_le _
    | cons e entries ih =>
      have hpos : 0 < e.encode.length := Nat.succ_pos _
      rw [List.flatMap_cons, List.length_append, List.length_cons]
      omega
  unfold encodeEntries
  rw [List.length_append, List.length_append, putU64, putU32, length_putLe, length_putLe]
  omega

/-- The payload of a batch given by its base and its entries. -/
def walPayload (b : ℕ × List WalEntry) : Bytes := encodeEntries b.1 b.2

/-- Below the record limit the count fits its field. -/
theorem decodeBatch_walPayload {b : ℕ × List WalEntry} (hbase : b.1 < 2 ^ 64)
    (h : (walPayload b).length < WAL_RECORD_LIMIT) : decodeBatch (walPayload b) = .ok b := by
  have hlimit : WAL_RECORD_LIMIT < 2 ^ 32 := by decide
  have hcount := (length_encodeEntries b.1 b.2).2
  unfold walPayload at h ⊢
  rw [decodeBatch_encode hbase (by omega), Nat.mod_eq_of_lt (by omega), List.take_length]

/-- With `2 ^ 32` entries the count field is zero. -/
theorem decodeBatch_uncounted :
    (encodeEntries 0 (List.replicate (2 ^ 32) ⟨.delete, [], []⟩)).length < 2 ^ 64 ∧
      decodeBatch (encodeEntries 0 (List.replicate (2 ^ 32) ⟨.delete, [], []⟩)) = .ok (0, []) ∧
      decodeBatch (encodeEntries 0 (List.replicate (2 ^ 32) ⟨.delete, [], []⟩)) ≠
        .ok (0, List.replicate (2 ^ 32) ⟨.delete, [], []⟩) := by
  have hsize : (encodeEntries 0 (List.replicate (2 ^ 32) ⟨.delete, [], []⟩)).length < 2 ^ 64 := by
    unfold encodeEntries
    rw [List.length_append, List.length_append, List.length_flatMap, List.map_replicate,
      List.sum_replicate_nat, putU64, putU32, length_putLe, length_putLe]
    decide
  have hnone : decodeBatch (encodeEntries 0 (List.replicate (2 ^ 32) ⟨.delete, [], []⟩)) = .ok
      (0, []) := by
    rw [decodeBatch_encode (by decide) hsize, List.length_replicate, Nat.mod_self, List.take_zero]
  refine ⟨hsize, hnone, ?_⟩
  rw [hnone]
  intro h
  have hnil := (Prod.mk.inj (Except.ok.inj h)).2
  rw [eq_comm, List.replicate_eq_nil_iff] at hnil
  exact absurd hnil (Nat.two_pow_pos 32).ne'

/-- **The truncation law**: what is read of a WAL cut at any byte, or followed by
zero bytes, and that the batches in it decode to themselves. -/
theorem wal_cut (crc : Bytes → Fin (2 ^ 32)) :
    (∀ payloads : List Bytes, (∀ p ∈ payloads, 0 < p.length ∧ p.length < WAL_RECORD_LIMIT) →
      (∀ n ≤ (frames crc payloads).length, ∃ k ≤ payloads.length,
        (∀ j ≤ payloads.length, j ≤ k ↔ frameEnd crc payloads j ≤ n) ∧
        (readWal crc ((frames crc payloads).take n)).1 = payloads.take k ∧
        ((readWal crc ((frames crc payloads).take n)).2 = .clean ↔
          ∃ j ≤ payloads.length, n = frameEnd crc payloads j) ∧
        ((readWal crc ((frames crc payloads).take n)).2 ≠ .clean →
          (readWal crc ((frames crc payloads).take n)).2 = .torn (frameEnd crc payloads k))) ∧
      (∀ k m, 0 < m → readWal crc (frames crc (payloads.take k) ++ List.replicate m (byte 0)) =
        (payloads.take k, .torn (frameEnd crc payloads k)))) ∧
    (∀ base entries, base < 2 ^ 64 → entries.length < 2 ^ 32 →
      (encodeEntries base entries).length < 2 ^ 64 →
      decodeBatch (encodeEntries base entries) = .ok (base, entries)) ∧
    ∀ batches : List (ℕ × List WalEntry),
      (∀ b ∈ batches, b.1 < 2 ^ 64 ∧ (encodeEntries b.1 b.2).length < WAL_RECORD_LIMIT) →
      ∀ n ≤ (frames crc (batches.map walPayload)).length, ∃ k ≤ batches.length,
        (∀ j ≤ batches.length, j ≤ k ↔ frameEnd crc (batches.map walPayload) j ≤ n) ∧
        (readWal crc ((frames crc (batches.map walPayload)).take n)).1.map decodeBatch =
          (batches.take k).map .ok := by
  refine ⟨fun payloads h => ⟨fun n hn => ?_, fun k m hm => ?_⟩,
    fun base entries hbase hcount hsize => ?_, fun batches hbatches n hn => ?_⟩
  · obtain ⟨hread, hclean, htorn⟩ := readWal_take h hn
    exact ⟨_, wholeBlocks_le _ _ _, fun j hj => le_wholeBlocks_iff hj, hread, hclean, htorn⟩
  · exact readWal_zeros (fun p hp => h p (List.mem_of_mem_take hp)) hm
  · rw [decodeBatch_encode hbase hsize, Nat.mod_eq_of_lt hcount, List.take_length]
  · have hfits : ∀ p ∈ batches.map walPayload, 0 < p.length ∧ p.length < WAL_RECORD_LIMIT := by
      intro p hp
      obtain ⟨b, hb, rfl⟩ := List.mem_map.mp hp
      exact ⟨lt_of_lt_of_le (by decide) (length_encodeEntries b.1 b.2).1, (hbatches b hb).2⟩
    obtain ⟨hread, -, -⟩ := readWal_take hfits hn
    refine ⟨_, (wholeBlocks_le _ _ _).trans_eq (List.length_map _),
      fun j hj => le_wholeBlocks_iff (hj.trans_eq (List.length_map _).symm), ?_⟩
    rw [hread, ← List.map_take, List.map_map]
    refine List.map_congr_left fun b hb => ?_
    obtain ⟨hbase, hlong⟩ := hbatches b (List.mem_of_mem_take hb)
    exact decodeBatch_walPayload hbase hlong

end Fluent31
