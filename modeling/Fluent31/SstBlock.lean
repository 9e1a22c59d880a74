/-
The bytes of a data block (`block.rs`, `types.rs`).

A block is its entries end to end, the offset of each as a 32-bit number, and their
count.  A reader bisects over the offsets and decodes the entries it comes by.

* `ofEntries_add`, `finish_ofEntries` — what the builder has written;
* `holds_payload` — a block that was built is read back: every entry is found at its
  index;
* `Block.Holds.lowerBound_eq` — the search of a block finds the partition point;
* `BlockIter.seek_across`, `BlockIter.seekForPrev_across`, … — the iterator of a block
  moves as a cursor over its entries does.
-/
import Fluent31.Lib.Cursor
import Fluent31.Reader
import Fluent31.Types

namespace Fluent31

namespace Sst

open Decoder Cursors

/-! ### Internal keys as bytes -/

def TRAILER_LEN : ℕ := 8

def makeIkey (ukey : Bytes) (seq : ℕ) (kind : ValueKind) : Bytes :=
  ukey ++ putBe 8 (packTrailer seq kind.toNat)

def makeSeekIkey (ukey : Bytes) (seq : ℕ) : Bytes := ukey ++ putBe 8 (packTrailer seq SEEK_KIND)

/-- A key has its trailer: what is read from a file is checked for it, and all others
are made by the two functions above. -/
def ikeyUkey (ikey : Bytes) : Bytes := ikey.take (ikey.length - TRAILER_LEN)

def ikeyTrailer (ikey : Bytes) : ℕ := readLe (ikey.drop (ikey.length - TRAILER_LEN)).reverse

def ikeySeqno (ikey : Bytes) : ℕ := ikeyTrailer ikey / 256

def ikeyKind (ikey : Bytes) : Except Halt ValueKind :=
  match ikeyTrailer ikey % 256 with
  | 0 => .ok .delete
  | 1 => .ok .put
  | other => .error (.error (.corruption ("bad value kind " ++ toString other)))

/-- What `cmp_ikey` compares. -/
def ikeyOrder (ikey : Bytes) : IKey := toLex (ikeyUkey ikey, OrderDual.toDual (ikeyTrailer ikey))

theorem readLe_reverse_putBe {v : ℕ} (h : v < 256 ^ 8) : readLe (putBe 8 v).reverse = v := by
  rw [putBe, List.reverse_reverse, readLe_putLe h]

theorem ikeyUkey_append (ukey : Bytes) (v : ℕ) : ikeyUkey (ukey ++ putBe 8 v) = ukey := by
  rw [ikeyUkey, List.length_append, length_putBe, TRAILER_LEN, Nat.add_sub_cancel, List.take_left]

theorem ikeyTrailer_append (ukey : Bytes) {v : ℕ} (h : v < 256 ^ 8) :
    ikeyTrailer (ukey ++ putBe 8 v) = v := by
  rw [ikeyTrailer, List.length_append, length_putBe, TRAILER_LEN, Nat.add_sub_cancel,
    List.drop_left, readLe_reverse_putBe h]

theorem packTrailer_lt {seq kind : ℕ} (hseq : seq ≤ MAX_SEQNO) (hkind : kind < 256) :
    packTrailer seq kind < 256 ^ 8 := by
  unfold packTrailer
  unfold MAX_SEQNO at hseq
  omega

/-- An entry as a table stores it: internal key and value representation. -/
structure RawEntry where
  ikey : Bytes
  repr : Bytes
  deriving DecidableEq, Repr

namespace RawEntry

/-- The order of entries. -/
def key (e : RawEntry) : IKey := ikeyOrder e.ikey

def ukey (e : RawEntry) : Bytes := ikeyUkey e.ikey

def seq (e : RawEntry) : ℕ := ikeySeqno e.ikey

/-- The key is one that `make_ikey` makes. -/
def WellFormed (e : RawEntry) : Prop :=
  ∃ ukey seq kind, seq ≤ MAX_SEQNO ∧ e.ikey = makeIkey ukey seq kind

end RawEntry

instance : Versioned RawEntry Bytes := ⟨RawEntry.ukey, RawEntry.seq⟩

variable {e : RawEntry}

/-- The parts of a key that was made. -/
theorem RawEntry.WellFormed.parts (h : e.WellFormed) :
    ∃ kind : ValueKind, ikeyKind e.ikey = .ok kind ∧
    e.seq ≤ MAX_SEQNO ∧ e.ikey = makeIkey e.ukey e.seq kind ∧
    e.key = Fluent31.makeIkey e.ukey e.seq kind := by
  obtain ⟨ukey, seq, kind, hseq, heq⟩ := h
  have hkind := kind.toNat_le
  have htrailer : ikeyTrailer e.ikey = packTrailer seq kind.toNat := by
    rw [heq, makeIkey, ikeyTrailer_append _ (packTrailer_lt hseq (by omega))]
  have hukey : e.ukey = ukey := by
    rw [RawEntry.ukey, heq, makeIkey, ikeyUkey_append]
  have hseq' : e.seq = seq := by
    rw [RawEntry.seq, ikeySeqno, htrailer, packTrailer]
    omega
  refine ⟨kind, ?_, hseq'.symm ▸ hseq, ?_, ?_⟩
  · have hlow : packTrailer seq kind.toNat % 256 = kind.toNat := by
      unfold packTrailer
      omega
    rw [ikeyKind, htrailer, hlow]
    cases kind <;> rfl
  · rw [hukey, hseq', heq]
  · rw [RawEntry.key, ikeyOrder, htrailer, show ikeyUkey e.ikey = e.ukey from rfl, hukey, hseq']
    rfl

theorem RawEntry.WellFormed.length_ikey (h : e.WellFormed) : TRAILER_LEN ≤ e.ikey.length := by
  obtain ⟨ukey, seq, kind, -, heq⟩ := h
  rw [heq, makeIkey, List.length_append, length_putBe]
  exact Nat.le_add_left _ _

theorem ikeyOrder_makeSeekIkey (k : Bytes) {s : ℕ} (hs : s ≤ MAX_SEQNO) :
    ikeyOrder (makeSeekIkey k s) = Fluent31.makeSeekIkey k s := by
  rw [ikeyOrder, makeSeekIkey, ikeyUkey_append, ikeyTrailer_append _
    (packTrailer_lt hs (by decide))]
  rfl

/-! ### Building -/

structure BlockBuilder where
  buf : Bytes
  offsets : List ℕ

namespace BlockBuilder

def empty : BlockBuilder := ⟨[], []⟩

def add (b : BlockBuilder) (ikey repr : Bytes) : BlockBuilder where
  buf := b.buf ++ (putUvarint ikey.length ++ (putUvarint repr.length ++ (ikey ++ repr)))
  offsets := b.offsets ++ [b.buf.length % 2 ^ 32]

def isEmpty (b : BlockBuilder) : Bool := b.offsets.isEmpty

def sizeEstimate (b : BlockBuilder) : ℕ := b.buf.length + b.offsets.length * 4 + 4

/-- The payload, and the builder for the next block. -/
def finish (b : BlockBuilder) : Bytes × BlockBuilder :=
  (b.buf ++ (b.offsets.flatMap putU32 ++ putU32 (b.offsets.length % 2 ^ 32)), empty)

end BlockBuilder

/-- The bytes of an entry. -/
def entryBytes (e : RawEntry) : Bytes :=
  putUvarint e.ikey.length ++ (putUvarint e.repr.length ++ (e.ikey ++ e.repr))

/-- Where the entries start. -/
def starts (es : List RawEntry) : List ℕ :=
  (List.range es.length).map fun i => ((es.take i).flatMap entryBytes).length % 2 ^ 32

/-- The payload of a block of these entries. -/
def blockPayload (es : List RawEntry) : Bytes :=
  es.flatMap entryBytes ++ ((starts es).flatMap putU32 ++ putU32 (es.length % 2 ^ 32))

def BlockBuilder.ofEntries (es : List RawEntry) : BlockBuilder := ⟨es.flatMap entryBytes, starts es⟩

variable {es : List RawEntry}

@[simp] theorem length_starts (es : List RawEntry) : (starts es).length = es.length := by
  rw [starts, List.length_map, List.length_range]

theorem starts_concat (es : List RawEntry) (e : RawEntry) :
    starts (es ++ [e]) = starts es ++ [(es.flatMap entryBytes).length % 2 ^ 32] := by
  unfold starts
  rw [List.length_append, List.length_singleton, List.range_succ, List.map_append,
    List.map_singleton, List.take_left]
  congr 1
  refine List.map_congr_left fun i hi => ?_
  rw [List.take_append_of_le_length (le_of_lt (List.mem_range.mp hi))]

theorem ofEntries_add (es : List RawEntry) (e : RawEntry) :
    (BlockBuilder.ofEntries es).add e.ikey e.repr = .ofEntries (es ++ [e]) := by
  unfold BlockBuilder.add BlockBuilder.ofEntries
  rw [starts_concat, List.flatMap_append, List.flatMap_singleton]
  rfl

theorem finish_ofEntries (es : List RawEntry) :
    (BlockBuilder.ofEntries es).finish = (blockPayload es, .empty) := by
  unfold BlockBuilder.finish BlockBuilder.ofEntries blockPayload
  rw [length_starts]

theorem isEmpty_ofEntries (es : List RawEntry) :
    (BlockBuilder.ofEntries es).isEmpty = es.isEmpty := by
  rw [Bool.eq_iff_iff, List.isEmpty_iff, ← List.length_eq_zero_iff, ← length_starts]
  exact List.isEmpty_iff.trans List.length_eq_zero_iff.symm

theorem length_flatMap_putU32 (l : List ℕ) : (l.flatMap putU32).length = 4 * l.length := by
  induction l with
  | nil => rfl
  | cons v l ih =>
    rw [List.flatMap_cons, List.length_append, ih, putU32, length_putLe, List.length_cons]
    omega

theorem length_blockPayload (es : List RawEntry) :
    (blockPayload es).length = (es.flatMap entryBytes).length + (es.length * 4 + 4) := by
  rw [blockPayload, List.length_append, List.length_append, length_flatMap_putU32, length_starts,
    putU32, length_putLe]
  omega

theorem sizeEstimate_ofEntries (es : List RawEntry) :
    (BlockBuilder.ofEntries es).sizeEstimate = (blockPayload es).length := by
  rw [length_blockPayload, ← length_starts es, ← Nat.add_assoc]
  rfl

/-! ### Reading -/

/-- Parsed view over the payload of a block. -/
structure Block where
  data : Bytes
  /-- Where the entries end and the offsets begin. -/
  entriesEnd : ℕ
  count : ℕ

/-- An entry off the entry region. -/
def entryFields : Decoder Reader Halt RawEntry := do
  let iklen ← Reader.uvarint
  let rlen ← Reader.uvarint
  if iklen < TRAILER_LEN then throw (.error (.corruption "internal key shorter than trailer"))
  else do
    let ikey ← Reader.bytes iklen
    let repr ← Reader.bytes rlen
    pure ⟨ikey, repr⟩

namespace Block

def new (data : Bytes) : Except Halt Block :=
  if data.length < 4 then .error (.error (.corruption "block too small"))
  else do
    let tail ← array 4 (data.drop (data.length - 4))
    let count := readLe tail
    if 2 ^ 64 ≤ count * 4 + 4 then .error (.error (.corruption "block count overflow"))
    else if data.length < count * 4 + 4 then
      .error (.error (.corruption "block offset array beyond payload"))
    else .ok ⟨data, data.length - (count * 4 + 4), count⟩

def entryOff (b : Block) (i : ℕ) : Except Halt ℕ :=
  (slice b.data (b.entriesEnd + i * 4) (b.entriesEnd + i * 4 + 4)).map readLe

/-- Internal key and value of entry `i`. -/
def entry (b : Block) (i : ℕ) : Except Halt RawEntry := do
  let off ← b.entryOff i
  if b.entriesEnd ≤ off then .error (.error (.corruption "entry offset beyond entry region"))
  else do
    let region ← slice b.data off b.entriesEnd
    Reader.decodeAll entryFields region

/-- Index of the first entry at or after `target`. -/
def lowerBound (b : Block) (target : Bytes) : Except Halt ℕ :=
  bisectE (fun mid => (b.entry mid).map fun e => decide (ikeyOrder e.ikey < ikeyOrder target))
    b.count 0 b.count

/-- What a block holds. -/
structure Holds (b : Block) (es : List RawEntry) : Prop where
  count : b.count = es.length
  entry : ∀ i (h : i < es.length), b.entry i = .ok es[i]

end Block

/-- The lengths of an entry that a reader accepts. -/
def RawEntry.Readable (e : RawEntry) : Prop :=
  TRAILER_LEN ≤ e.ikey.length ∧ e.ikey.length < 2 ^ 64 ∧ e.repr.length < 2 ^ 64

theorem inverts_entryFields : Inverts Reader.rest entryBytes RawEntry.Readable entryFields := by
  refine Reader.inverts_uvarint.bind (f := fun e : RawEntry => e.ikey.length) (fun e he => he.2.1)
    fun iklen _ => ?_
  refine Reader.inverts_uvarint.bind (f := fun e : RawEntry => e.repr.length) (fun e he => he.1.2.2)
    fun rlen _ => ?_
  intro e he r more hr
  have hlen : ¬ iklen < TRAILER_LEN := by
    rw [← he.1.2]
    exact not_lt.mpr he.1.1.1
  rw [if_neg hlen]
  exact ((Reader.inverts_bytes iklen).bind (f := RawEntry.ikey)
    (fun (e : RawEntry) (h : e.ikey.length = iklen ∧ e.repr.length = rlen) => h.1) fun _ _ =>
      (Reader.inverts_bytes rlen).last (f := RawEntry.repr)
      (fun _ h => h.1.2) fun _ _ _ h => by rw [← h.2, ← h.1.2]) ⟨he.1.2, he.2⟩ hr

theorem entryBytes_ne_nil (e : RawEntry) : entryBytes e ≠ [] := by
  unfold entryBytes putUvarint putUvarintUpTo
  split <;> simp

theorem length_le_entryBytes (e : RawEntry) :
    e.ikey.length + e.repr.length ≤ (entryBytes e).length := by
  unfold entryBytes
  simp only [List.length_append]
  omega

/-- Number `i` of a run of 32-bit numbers. -/
theorem drop_flatMap_putU32 {l : List ℕ} {i : ℕ} (h : i < l.length) (more : Bytes) :
    ((l.flatMap putU32 ++ more).drop (4 * i)).take 4 = putU32 l[i] := by
  have hsplit : l.flatMap putU32 = (l.take i).flatMap putU32 ++
      (putU32 l[i] ++ (l.drop (i + 1)).flatMap putU32) := by
    conv_lhs => rw [← List.take_append_drop i l, List.drop_eq_getElem_cons h, List.flatMap_append,
      List.flatMap_cons]
  have hlen : ((l.take i).flatMap putU32).length = 4 * i := by
    rw [length_flatMap_putU32, List.length_take_of_le (by omega)]
  rw [hsplit, List.append_assoc, List.drop_left' hlen, List.append_assoc,
    List.take_left' (show (putU32 l[i]).length = 4 from length_putLe 4 _)]

variable {b : Block}

/-- **A block that was built is read back.** -/
theorem holds_payload (hfits : (blockPayload es).length < 2 ^ 32)
    (hes : ∀ e ∈ es, TRAILER_LEN ≤ e.ikey.length) :
    ∃ b, Block.new (blockPayload es) = .ok b ∧ b.Holds es := by
  have hlen := length_blockPayload es
  have hcount : es.length < 2 ^ 32 := by omega
  -- the count, the last four bytes
  have htail : (blockPayload es).drop ((blockPayload es).length - 4) = putU32 es.length := by
    rw [blockPayload, Nat.mod_eq_of_lt hcount, ← List.append_assoc]
    refine List.drop_left' ?_
    rw [@List.length_append _ _ (putU32 _), putU32, length_putLe, Nat.add_sub_cancel]
  refine ⟨⟨blockPayload es, (es.flatMap entryBytes).length, es.length⟩, ?_, rfl, fun i hi => ?_⟩
  · unfold Block.new
    rw [if_neg (by omega), htail, array,
      if_pos (show (putU32 es.length).length = 4 from length_putLe 4 _)]
    show (if 2 ^ 64 ≤ readLe (putU32 es.length) * 4 + 4 then _ else _) = _
    rw [putU32, readLe_putLe (by omega), if_neg (by omega), if_neg (by omega)]
    congr 2
    omega
  · have hstart : i < (starts es).length := by rwa [length_starts]
    have hsplit : es.flatMap entryBytes =
        (es.take i).flatMap entryBytes ++
          (entryBytes es[i] ++ (es.drop (i + 1)).flatMap entryBytes) := by
      conv_lhs => rw [← List.take_append_drop i es, List.drop_eq_getElem_cons hi,
        List.flatMap_append, List.flatMap_cons]
    have hregion := congrArg List.length hsplit
    rw [List.length_append] at hregion
    have hpos : 0 < (entryBytes es[i] ++ (es.drop (i + 1)).flatMap entryBytes).length := by
      rw [List.length_append]
      exact Nat.add_pos_left (List.length_pos_of_ne_nil (entryBytes_ne_nil _)) _
    have hoff : (starts es)[i] = ((es.take i).flatMap entryBytes).length := by
      rw [List.getElem_of_eq (starts.eq_1 es), List.getElem_map, List.getElem_range]
      exact Nat.mod_eq_of_lt (by omega)
    -- the offset, and the entry it leads to
    have hentryOff : Block.entryOff ⟨blockPayload es, (es.flatMap entryBytes).length, es.length⟩ i =
        .ok ((es.take i).flatMap entryBytes).length := by
      show (slice (blockPayload es) ((es.flatMap entryBytes).length + i * 4)
        ((es.flatMap entryBytes).length + i * 4 + 4)).map readLe = _
      rw [slice_eq (Nat.le_add_right _ _) (by omega)]
      show Except.ok (readLe _) = _
      rw [Nat.add_sub_cancel_left, ← List.drop_drop, blockPayload, List.drop_left, Nat.mul_comm,
        drop_flatMap_putU32 hstart, hoff, putU32, readLe_putLe (by omega)]
    unfold Block.entry
    rw [hentryOff]
    show (if (es.flatMap entryBytes).length ≤ _ then _ else _) = _
    rw [if_neg (by omega), slice_eq (by simp only; omega)
      (show _ ≤ (blockPayload es).length by simp only; omega)]
    have hcut : ((blockPayload es).drop ((es.take i).flatMap entryBytes).length).take
        ((es.flatMap entryBytes).length - ((es.take i).flatMap entryBytes).length) =
          entryBytes es[i] ++ (es.drop (i + 1)).flatMap entryBytes := by
      rw [blockPayload, hsplit, List.append_assoc, List.drop_left,
        List.length_append, Nat.add_sub_cancel_left, List.take_left]
    show Reader.decodeAll entryFields _ = _
    rw [hcut]
    have hentry := length_le_entryBytes es[i]
    rw [List.length_append] at hregion
    exact Reader.decodeAll_of_inverts inverts_entryFields
      ⟨hes _ (List.getElem_mem hi), by omega, by omega⟩ (by rw [List.length_append]; omega)

/-- **The search of a block.** -/
theorem Block.Holds.lowerBound_eq (h : b.Holds es) (target : Bytes) :
    b.lowerBound target = .ok (ListCursor.lowerBound RawEntry.key es (ikeyOrder target)) := by
  have hentry : ∀ i < es.length,
      (b.entry i).map (fun e => decide (ikeyOrder e.ikey < ikeyOrder target)) =
      .ok ((es[i]?).any fun e => decide (e.key < ikeyOrder target)) := by
    intro i hi
    rw [h.entry i hi, List.getElem?_eq_getElem hi]
    rfl
  unfold Block.lowerBound
  rw [h.count]
  exact bisectE_eq hentry es.length 0 le_rfl

/-! ### Iterating -/

/-- Iterator over one block; `count` means invalid. -/
structure BlockIter where
  block : Block
  pos : ℕ

namespace BlockIter

def new (block : Block) : BlockIter := ⟨block, block.count⟩

def seekToFirst (it : BlockIter) : BlockIter := { it with pos := 0 }

def seekToLast (it : BlockIter) : BlockIter :=
  { it with pos := if it.block.count = 0 then 0 else it.block.count - 1 }

def seek (ikey : Bytes) (it : BlockIter) : Except Halt BlockIter :=
  (it.block.lowerBound ikey).map fun pos => { it with pos := pos }

/-- Whether entry `lb` is there and has the key. -/
def standsAt (it : BlockIter) (ikey : Bytes) (lb : ℕ) : Except Halt Bool :=
  if lb < it.block.count then (it.block.entry lb).map fun e =>
    decide (ikeyOrder e.ikey = ikeyOrder ikey)
  else .ok false

/-- The entry at the lower bound if it is the one asked for, else the one before. -/
def seekForPrev (ikey : Bytes) (it : BlockIter) : Except Halt BlockIter := do
  let lb ← it.block.lowerBound ikey
  let found ← it.standsAt ikey lb
  pure { it with pos := if found then lb else if lb = 0 then it.block.count else lb - 1 }

def valid (it : BlockIter) : Bool := it.pos < it.block.count

def next (it : BlockIter) : BlockIter := { it with pos := it.pos + 1 }

def prev (it : BlockIter) : BlockIter :=
  { it with pos := if it.pos = 0 then it.block.count else it.pos - 1 }

/-- The entry an iterator stands at, which is expected to be there. -/
def validated (it : BlockIter) : Except Halt RawEntry :=
  match it.block.entry it.pos with
  | .ok e => .ok e
  | .error _ => .error .panic

def ikey (it : BlockIter) : Except Halt Bytes := it.validated.map RawEntry.ikey

def value (it : BlockIter) : Except Halt Bytes := it.validated.map RawEntry.repr

/-- The iterator of a block whose entries `c` goes through. -/
def across (b : Block) (c : ListCursor RawEntry.key) : BlockIter := ⟨b, c.pos⟩

variable {c : ListCursor RawEntry.key}

theorem new_eq (h : b.Holds es) : new b = across b ⟨es, es.length⟩ := by
  unfold new across
  rw [h.count]

theorem seekToLast_across (h : b.Holds c.list) :
    (across b c).seekToLast = across b (Cursors.seekToLast c) := by
  unfold seekToLast across
  rw [h.count]
  rfl

theorem seek_across (h : b.Holds c.list) (ikey : Bytes) :
    (across b c).seek ikey = .ok (across b (Cursors.seek (ikeyOrder ikey) c)) := by
  unfold seek across
  rw [h.lowerBound_eq]
  rfl

theorem seekForPrev_across (h : b.Holds c.list) (ikey : Bytes) :
    (across b c).seekForPrev ikey = .ok (across b (Cursors.seekForPrev (ikeyOrder ikey) c)) := by
  unfold seekForPrev
  show (b.lowerBound ikey).bind _ = _
  rw [h.lowerBound_eq, Except.bind]
  generalize hlb : ListCursor.lowerBound RawEntry.key c.list (ikeyOrder ikey) = lb
  -- the cursor decides equality of keys by their order
  have hfound : (across b c).standsAt ikey lb = .ok ((c.list[lb]?).any fun e =>
      @decide (e.key = ikeyOrder ikey) (LinearOrder.toDecidableEq e.key (ikeyOrder ikey))) := by
    show (if lb < b.count then (b.entry lb).map _ else _) = _
    rw [h.count]
    by_cases hlt : lb < c.list.length
    · rw [if_pos hlt, h.entry lb hlt, List.getElem?_eq_getElem hlt]
      exact congrArg Except.ok (decide_eq_decide.mpr Iff.rfl)
    · rw [if_neg hlt, List.getElem?_eq_none (not_lt.mp hlt)]
      rfl
  show ((across b c).standsAt ikey lb).bind _ = _
  rw [hfound, Except.bind]
  show Except.ok (BlockIter.mk b (if _ then lb else if lb = 0 then b.count else lb - 1)) =
    .ok (BlockIter.mk b (ListCursor.toPrev (ikeyOrder ikey) c).pos)
  unfold ListCursor.toPrev
  rw [hlb, h.count]
  simp only
  split <;> rfl

theorem valid_across (h : b.Holds c.list) : (across b c).valid = (Cursors.current c).isSome := by
  rw [Bool.eq_iff_iff]
  show decide (c.pos < b.count) = true ↔ (c.list[c.pos]?).isSome = true
  rw [h.count, decide_eq_true_eq, isSome_getElem?]

theorem prev_across (h : b.Holds c.list) : (across b c).prev = across b (Cursors.prev c) := by
  unfold prev across
  rw [h.count]
  rfl

theorem validated_across (h : b.Holds c.list) {e : RawEntry} (he : Cursors.current c = some e) :
    (across b c).validated = .ok e := by
  obtain ⟨hlt, hget⟩ := List.getElem?_eq_some_iff.mp he
  unfold validated across
  simp only [h.entry c.pos hlt, hget]

end BlockIter

end Sst

end Fluent31
