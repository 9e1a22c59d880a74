/-
The bytes of a table file (`table/mod.rs`, `table/builder.rs`).

Data blocks, filter, index and stats stand one after the other, each with the byte
of its codec and a checksum; a footer of fixed width says where the last three are.
The checksum and the compressor are other crates' code and parameters here; of the
compressor it is used that decompression undoes it.

* `readBlockVerified_of_append` — a block that was written is read back;
* `TableBuilder.add_written`, `build_eq` — what the builder has written after any
  entries, and the whole file;
* `Footer.decode_encode`, `TableStats.decode_encode` — footer and stats round trips;
* `describes_statsOf` — the statistics are exact.
-/
import Fluent31.SstBlock
import Fluent31.SstBloom
import Mathlib.Order.Bounds.Basic

namespace Fluent31

namespace Sst

open Decoder Cursors

def MAGIC : ℕ := 0xf115e731ab1e0001

/-- Every block is stored raw. -/
def FORMAT : ℕ := 1

/-- At least one block is compressed. -/
def FORMAT_COMPRESSED : ℕ := 2

def FOOTER_LEN : ℕ := 48

def BLOCK_TRAILER_LEN : ℕ := 5

def CODEC_NONE : ℕ := 0

def CODEC_LZ4 : ℕ := 1

inductive Compression
  | none
  | lz4
  deriving DecidableEq, Repr

/-- The checksum and the block compressor. -/
structure Codecs where
  crc32 : Bytes → Fin (2 ^ 32)
  compressPrependSize : Bytes → Bytes
  decompressSizePrepended : Bytes → Except String Bytes

/-- Decompression inverts compression. -/
def Codecs.Inverts (lib : Codecs) : Prop :=
  ∀ payload, lib.decompressSizePrepended (lib.compressPrependSize payload) = .ok payload

/-- Where a block is; its length includes the trailer. -/
structure BlockRef where
  off : ℕ
  len : ℕ
  deriving DecidableEq, Repr

/-! ### Footer and stats -/

structure Footer where
  filter : BlockRef
  index : BlockRef
  stats : BlockRef
  format : ℕ
  deriving DecidableEq, Repr

def BlockRef.encode (r : BlockRef) : Bytes := putU64 r.off ++ putU32 r.len

def BlockRef.fields : Decoder Reader Halt BlockRef := do
  let off ← Reader.u64
  let len ← Reader.u32
  pure ⟨off, len⟩

/-- The fields fit their widths. -/
def BlockRef.Fits (r : BlockRef) : Prop := r.off < 2 ^ 64 ∧ r.len < 2 ^ 32

namespace Footer

def encode (f : Footer) : Bytes :=
  f.filter.encode ++ (f.index.encode ++ (f.stats.encode ++ (putU32 f.format ++ putU64 MAGIC)))

def fields : Decoder Reader Halt Footer := do
  let filter ← BlockRef.fields
  let index ← BlockRef.fields
  let stats ← BlockRef.fields
  let format ← Reader.u32
  let magic ← Reader.u64
  if magic ≠ MAGIC then throw (.error (.corruption "bad table magic"))
  else if ¬ (FORMAT ≤ format ∧ format ≤ FORMAT_COMPRESSED) then
    throw (.error (.corruption ("unsupported table format " ++ toString format)))
  else pure ⟨filter, index, stats, format⟩

def decode (buf : Bytes) : Except Halt Footer := Reader.decodeAll fields buf

structure Fits (f : Footer) : Prop where
  filter : f.filter.Fits
  index : f.index.Fits
  stats : f.stats.Fits
  format : f.format = FORMAT ∨ f.format = FORMAT_COMPRESSED

end Footer

/-- Statistics of a table, as its stats block keeps them. -/
structure TableStats where
  entries : ℕ
  tombstones : ℕ
  minSeq : ℕ
  maxSeq : ℕ
  firstIkey : Bytes
  lastIkey : Bytes
  deriving DecidableEq, Repr

namespace TableStats

def encode (s : TableStats) : Bytes :=
  putU64 s.entries ++ (putU64 s.tombstones ++ (putU64 s.minSeq ++ (putU64 s.maxSeq ++
    (putLenPrefixed s.firstIkey ++ putLenPrefixed s.lastIkey))))

def fields : Decoder Reader Halt TableStats := do
  let entries ← Reader.u64
  let tombstones ← Reader.u64
  let minSeq ← Reader.u64
  let maxSeq ← Reader.u64
  let firstIkey ← Reader.lenPrefixed
  let lastIkey ← Reader.lenPrefixed
  pure ⟨entries, tombstones, minSeq, maxSeq, firstIkey, lastIkey⟩

def decode (buf : Bytes) : Except Halt TableStats := do
  let stats ← Reader.decodeAll fields buf
  if stats.firstIkey.length < TRAILER_LEN ∨ stats.lastIkey.length < TRAILER_LEN then
    .error (.error (.corruption "stats keys shorter than trailer"))
  else pure stats

def minUkey (s : TableStats) : Bytes := ikeyUkey s.firstIkey

def maxUkey (s : TableStats) : Bytes := ikeyUkey s.lastIkey

structure Fits (s : TableStats) : Prop where
  entries : s.entries < 2 ^ 64
  tombstones : s.tombstones < 2 ^ 64
  minSeq : s.minSeq < 2 ^ 64
  maxSeq : s.maxSeq < 2 ^ 64
  firstIkey : s.firstIkey.length < 2 ^ 64
  lastIkey : s.lastIkey.length < 2 ^ 64

end TableStats

theorem inverts_blockRef : Inverts Reader.rest BlockRef.encode BlockRef.Fits BlockRef.fields := by
  refine Reader.inverts_u64.bind (f := BlockRef.off) (fun r hr => hr.1) fun off _ => ?_
  exact Reader.inverts_u32.last (f := BlockRef.len) (fun r hr => hr.1.2) fun len _ r hr => by
    rw [← hr.1.2, ← hr.2]

/-- The end of a footer. -/
theorem inverts_footer : Inverts Reader.rest Footer.encode Footer.Fits Footer.fields := by
  refine inverts_blockRef.bind (f := Footer.filter) (fun f hf => hf.filter) fun filter _ => ?_
  refine inverts_blockRef.bind (f := Footer.index) (fun f hf => hf.1.index) fun index _ => ?_
  refine inverts_blockRef.bind (f := Footer.stats) (fun f hf => hf.1.1.stats) fun stats _ => ?_
  refine Reader.inverts_u32.bind (f := Footer.format) (fun f hf => ?_) fun format _ => ?_
  · rcases hf.1.1.1.format with h | h <;> rw [h] <;> decide
  · intro f hf r more hr
    obtain ⟨r', hrun, hrest⟩ := Reader.inverts_u64 (show MAGIC < 2 ^ 64 by decide) hr
    refine ⟨r', ?_, hrest⟩
    obtain ⟨⟨⟨⟨hfits, hfilter⟩, hindex⟩, hstats⟩, hformat⟩ := hf
    have hrange : ¬ ¬ (FORMAT ≤ format ∧ format ≤ FORMAT_COMPRESSED) := by
      rw [← hformat]
      rcases hfits.format with h | h <;> rw [h] <;> decide
    rw [run_bind, hrun, Except.bind]
    simp only
    rw [if_neg (not_not.mpr rfl), if_neg hrange, ← hfilter, ← hindex, ← hstats, ← hformat]
    rfl

@[simp] theorem length_blockRef_encode (r : BlockRef) : r.encode.length = 12 := by
  rw [BlockRef.encode, List.length_append, putU64, putU32, length_putLe, length_putLe]

theorem length_footer (f : Footer) : f.encode.length = FOOTER_LEN := by
  unfold Footer.encode putU64 putU32
  simp only [List.length_append, length_blockRef_encode, length_putLe]
  rfl

theorem Footer.decode_encode {f : Footer} (h : f.Fits) : Footer.decode f.encode = .ok f := by
  have hlen := length_footer f
  have hdecode := Reader.decodeAll_of_inverts inverts_footer h
    (by rw [List.append_nil, hlen]; decide)
  rwa [List.append_nil] at hdecode

theorem inverts_tableStats :
    Inverts Reader.rest TableStats.encode TableStats.Fits TableStats.fields := by
  refine Reader.inverts_u64.bind (f := TableStats.entries) (fun s hs => hs.entries)
    fun entries _ => ?_
  refine Reader.inverts_u64.bind (f := TableStats.tombstones) (fun s hs => hs.1.tombstones)
    fun tombstones _ => ?_
  refine Reader.inverts_u64.bind (f := TableStats.minSeq) (fun s hs => hs.1.1.minSeq)
    fun minSeq _ => ?_
  refine Reader.inverts_u64.bind (f := TableStats.maxSeq) (fun s hs => hs.1.1.1.maxSeq)
    fun maxSeq _ => ?_
  refine Reader.inverts_lenPrefixed.bind (f := TableStats.firstIkey)
    (fun s hs => hs.1.1.1.1.firstIkey) fun firstIkey _ => ?_
  refine Reader.inverts_lenPrefixed.last (f := TableStats.lastIkey)
    (fun s hs => hs.1.1.1.1.1.lastIkey) fun lastIkey _ s hs => ?_
  obtain ⟨⟨⟨⟨⟨⟨-, rfl⟩, rfl⟩, rfl⟩, rfl⟩, rfl⟩, rfl⟩ := hs
  rfl

theorem TableStats.decode_encode {s : TableStats} (h : s.Fits) (hlen : s.encode.length < 2 ^ 64)
    (hfirst : TRAILER_LEN ≤ s.firstIkey.length) (hlast : TRAILER_LEN ≤ s.lastIkey.length) :
    TableStats.decode s.encode = .ok s := by
  have hdecode := Reader.decodeAll_of_inverts inverts_tableStats h (by rwa [List.append_nil])
  rw [List.append_nil] at hdecode
  unfold TableStats.decode
  rw [hdecode]
  exact if_neg (not_or.mpr ⟨not_lt.mpr hfirst, not_lt.mpr hlast⟩)

/-! ### Blocks in the file -/

/-- Codec and stored bytes of a payload: what does not shrink is stored raw. -/
def pack (lib : Codecs) (payload : Bytes) : Compression → ℕ × Bytes
  | .lz4 =>
    let compressed := lib.compressPrependSize payload
    if compressed.length < payload.length then (CODEC_LZ4, compressed) else (CODEC_NONE, payload)
  | .none => (CODEC_NONE, payload)

/-- A block with its trailer. -/
def storedBlock (lib : Codecs) (compression : Compression) (payload : Bytes) : Bytes :=
  let packed := pack lib payload compression
  let buf := packed.2 ++ [byte packed.1]
  buf ++ putU32 (lib.crc32 buf).val

def readExactAt (file : Bytes) (off len : ℕ) : Except Halt Bytes :=
  if off + len ≤ file.length then .ok ((file.drop off).take len)
  else .error (.error (.io "failed to fill whole buffer"))

/-- The payload under a codec byte. -/
def unpack (lib : Codecs) (codec : Byte) (stored : Bytes) : Except Halt Bytes :=
  if codec.val = CODEC_NONE then .ok stored
  else if codec.val = CODEC_LZ4 then
    match lib.decompressSizePrepended stored with
    | .ok payload => .ok payload
    | .error e => .error (.error (.corruption ("lz4 block decode: " ++ e)))
  else .error (.error (.corruption ("unsupported compression " ++ toString codec.val)))

/-- Read a block, payload without trailer, and verify its checksum. -/
def readBlockVerified (lib : Codecs) (file : Bytes) (r : BlockRef) : Except Halt Bytes :=
  if r.len < BLOCK_TRAILER_LEN then .error (.error (.corruption "block shorter than trailer"))
  else do
    let buf ← readExactAt file r.off r.len
    let payloadEnd := buf.length - 4
    let storedCrc ← array 4 (buf.drop payloadEnd)
    if (lib.crc32 (buf.take payloadEnd)).val ≠ readLe storedCrc then
      .error (.error (.corruption "block crc mismatch"))
    else
      match buf[payloadEnd - 1]? with
      | none => .error .panic
      | some codec => unpack lib codec (buf.take (payloadEnd - 1))

variable {lib : Codecs} {compression : Compression} {payload : Bytes}

theorem length_storedBlock (lib : Codecs) (compression : Compression) (payload : Bytes) :
    (storedBlock lib compression payload).length = (pack lib payload compression).2.length +
      BLOCK_TRAILER_LEN := by
  unfold storedBlock putU32
  simp only [List.length_append, List.length_singleton, length_putLe]
  rfl

theorem length_pack_le (lib : Codecs) (payload : Bytes) (compression : Compression) :
    (pack lib payload compression).2.length ≤ payload.length := by
  cases compression with
  | none => exact le_rfl
  | lz4 =>
    unfold pack
    simp only
    split
    · rename_i h
      exact le_of_lt h
    · exact le_rfl

theorem unpack_pack (h : lib.Inverts) (payload : Bytes) (compression : Compression) :
    unpack lib (byte (pack lib payload compression).1) (pack lib payload compression).2 =
      .ok payload := by
  cases compression with
  | none => rfl
  | lz4 =>
    unfold pack
    simp only
    split
    · unfold unpack
      rw [if_neg (show (byte CODEC_LZ4).val ≠ CODEC_NONE by decide),
        if_pos (show (byte CODEC_LZ4).val = CODEC_LZ4 by decide), h payload]
    · rfl

/-- **A block that was written is read back.** -/
theorem readBlockVerified_of_append (h : lib.Inverts) (pre post : Bytes) :
    readBlockVerified lib (pre ++ (storedBlock lib compression payload ++ post))
      ⟨pre.length, (storedBlock lib compression payload).length⟩ = .ok payload := by
  have hunpack := unpack_pack h payload compression
  unfold readBlockVerified
  have hlen : ¬ (storedBlock lib compression payload).length < BLOCK_TRAILER_LEN := by
    rw [length_storedBlock]
    omega
  rw [if_neg hlen, readExactAt, if_pos (by
    simp only [List.length_append]
    omega), List.drop_left, List.take_left]
  show (array 4 _).bind _ = _
  unfold storedBlock
  generalize pack lib payload compression = packed at hunpack ⊢
  simp only
  have hsum : ((packed.2 ++ [byte packed.1]) ++ putU32
      (lib.crc32 (packed.2 ++ [byte packed.1])).val).length - 4 =
      (packed.2 ++ [byte packed.1]).length := by
    rw [List.length_append, putU32, length_putLe, Nat.add_sub_cancel]
  have hlast : (packed.2 ++ [byte packed.1]).length - 1 = packed.2.length := by
    rw [List.length_append, List.length_singleton, Nat.add_sub_cancel]
  rw [hsum, List.drop_left, array, if_pos (show (putU32 _).length = 4 from length_putLe 4 _),
    Except.bind,
    List.take_left, putU32, readLe_putLe (lib.crc32 _).isLt, if_neg (not_not.mpr rfl), hlast,
      List.append_assoc, List.getElem?_append_right le_rfl, Nat.sub_self,
    List.take_left]
  exact hunpack

/-! ### The builder -/

/-- Streaming writer of a table file. -/
structure TableBuilder where
  file : Bytes
  blockSize : ℕ
  bloomBitsPerKey : ℕ
  compression : Compression
  block : BlockBuilder
  /-- Last internal key of a block, and the block. -/
  index : List (Bytes × BlockRef)
  offset : ℕ
  wroteCompressed : Bool
  keyHashes : List ℕ
  lastHashedUkey : Bytes
  stats : TableStats
  started : Bool

/-- The index block: every block under its last key. -/
def indexPayload (index : List (Bytes × BlockRef)) : Bytes :=
  index.flatMap fun e => putLenPrefixed e.1 ++ (putUvarint e.2.off ++ putUvarint e.2.len)

namespace TableBuilder

def new (blockSize bloomBitsPerKey : ℕ) (compression : Compression) : TableBuilder where
  file := []
  blockSize := blockSize
  bloomBitsPerKey := bloomBitsPerKey
  compression := compression
  block := .empty
  index := []
  offset := 0
  wroteCompressed := false
  keyHashes := []
  lastHashedUkey := []
  stats := ⟨0, 0, 2 ^ 64 - 1, 0, [], []⟩
  started := false

variable (lib : Codecs)

/-- Append a block to the file; the file's end is where it lands. -/
def writeBlock (b : TableBuilder) (payload : Bytes) (compression : Compression) :
    TableBuilder × BlockRef :=
  let buf := storedBlock lib compression payload
  ({ b with
      file := b.file ++ buf
      offset := b.offset + buf.length
      wroteCompressed :=
        b.wroteCompressed || decide ((pack lib payload compression).1 ≠ CODEC_NONE) },
    ⟨b.file.length, buf.length % 2 ^ 32⟩)

def flushBlock (b : TableBuilder) : TableBuilder :=
  if b.block.isEmpty then b
  else
    let (payload, block) := b.block.finish
    let (b, r) := writeBlock lib { b with block := block } payload b.compression
    { b with index := b.index ++ [(b.stats.lastIkey, r)] }

/-- Keys arrive in strictly increasing order. -/
def add (b : TableBuilder) (ikey repr : Bytes) : Except Halt TableBuilder := do
  let firstIkey := if b.started then b.stats.firstIkey else ikey
  let kind ← ikeyKind ikey
  let seq := ikeySeqno ikey
  let stats : TableStats :=
    { entries := b.stats.entries + 1
      tombstones := if kind = .delete then b.stats.tombstones + 1 else b.stats.tombstones
      minSeq := min b.stats.minSeq seq
      maxSeq := max b.stats.maxSeq seq
      firstIkey := firstIkey
      lastIkey := ikey }
  let ukey := ikeyUkey ikey
  -- versions of one key stand side by side and are hashed once
  let hashed :=
    if b.keyHashes.isEmpty ∨ b.lastHashedUkey ≠ ukey then (b.keyHashes ++ [hash64 ukey], ukey)
    else (b.keyHashes, b.lastHashedUkey)
  let b : TableBuilder := { b with
    stats := stats
    started := true
    keyHashes := hashed.1
    lastHashedUkey := hashed.2
    block := b.block.add ikey repr }
  pure (if b.blockSize ≤ b.block.sizeEstimate then flushBlock lib b else b)

/-- Filter, index, stats and footer; the stats and the file with its size. -/
def finish (b : TableBuilder) : Except Halt (TableStats × ℕ × Bytes) :=
  if ¬ b.started then .error .panic
  else
    let b := flushBlock lib b
    let (b, filter) := writeBlock lib b (Filter.build b.keyHashes b.bloomBitsPerKey) .none
    let (b, index) := writeBlock lib b (indexPayload b.index) b.compression
    let (b, stats) := writeBlock lib b b.stats.encode .none
    let footer : Footer :=
      ⟨filter, index, stats, if b.wroteCompressed then FORMAT_COMPRESSED else FORMAT⟩
    .ok (b.stats, b.offset + FOOTER_LEN, b.file ++ footer.encode)

end TableBuilder

/-- Build a table of these entries. -/
def buildTable (lib : Codecs) (blockSize bloomBitsPerKey : ℕ) (compression : Compression)
    (es : List RawEntry) :
    Except Halt (TableStats × ℕ × Bytes) := do
  let b ← es.foldlM (fun b e => TableBuilder.add lib b e.ikey e.repr)
    (.new blockSize bloomBitsPerKey compression)
  TableBuilder.finish lib b

/-! ### What the builder has written -/

def RawEntry.isTombstone (e : RawEntry) : Bool :=
  match ikeyKind e.ikey with
  | .ok .delete => true
  | _ => false

def lastIkey (es : List RawEntry) : Bytes := (es.getLast?.map RawEntry.ikey).getD []

/-- The statistics of a list of entries. -/
def statsOf (es : List RawEntry) : TableStats where
  entries := es.length
  tombstones := es.countP RawEntry.isTombstone
  minSeq := es.foldl (fun m e => min m e.seq) (2 ^ 64 - 1)
  maxSeq := es.foldl (fun m e => max m e.seq) 0
  firstIkey := (es.head?.map RawEntry.ikey).getD []
  lastIkey := lastIkey es

/-- The hashes of the user keys, one for each run of versions, and the last key. -/
def hashesOf (es : List RawEntry) : List ℕ × Bytes :=
  es.foldl (fun s e => if s.1.isEmpty ∨ s.2 ≠ e.ukey then (s.1 ++ [hash64 e.ukey], e.ukey) else s)
    ([], [])

/-- One entry more: a block that has reached its size is closed. -/
def fill (blockSize : ℕ) (s : List (List RawEntry) × List RawEntry) (e : RawEntry) :
    List (List RawEntry) × List RawEntry :=
  if blockSize ≤ (blockPayload (s.2 ++ [e])).length then (s.1 ++ [s.2 ++ [e]], [])
  else (s.1, s.2 ++ [e])

/-- Close the open block, if there is anything in it. -/
def close (s : List (List RawEntry) × List RawEntry) : List (List RawEntry) :=
  if s.2 = [] then s.1 else s.1 ++ [s.2]

/-- The blocks of a table. -/
def chunks (blockSize : ℕ) (es : List RawEntry) : List (List RawEntry) :=
  close (es.foldl (fill blockSize) ([], []))

section

variable (lib : Codecs) (compression : Compression)

/-- The data blocks, end to end. -/
def dataBytes (cs : List (List RawEntry)) : Bytes :=
  cs.flatMap fun c => storedBlock lib compression (blockPayload c)

/-- Where a block of these entries is. -/
def refAt (off : ℕ) (c : List RawEntry) : BlockRef :=
  ⟨off, (storedBlock lib compression (blockPayload c)).length % 2 ^ 32⟩

/-- The index of the data blocks, from an offset on. -/
def indexOf : ℕ → List (List RawEntry) → List (Bytes × BlockRef)
  | _, [] => []
  | off, c :: cs =>
    (lastIkey c, refAt lib compression off c) ::
      indexOf (off + (storedBlock lib compression (blockPayload c)).length) cs

/-- Whether any block of these is stored compressed. -/
def anyCompressed (cs : List (List RawEntry)) : Bool :=
  cs.any fun c => decide ((pack lib (blockPayload c) compression).1 ≠ CODEC_NONE)

variable (blockSize bloomBitsPerKey : ℕ)

/-- The builder when the blocks `s.1` are closed and `s.2` is open. -/
def written (s : List (List RawEntry) × List RawEntry) : TableBuilder where
  file := dataBytes lib compression s.1
  blockSize := blockSize
  bloomBitsPerKey := bloomBitsPerKey
  compression := compression
  block := .ofEntries s.2
  index := indexOf lib compression 0 s.1
  offset := (dataBytes lib compression s.1).length
  wroteCompressed := anyCompressed lib compression s.1
  keyHashes := (hashesOf (s.1.flatten ++ s.2)).1
  lastHashedUkey := (hashesOf (s.1.flatten ++ s.2)).2
  stats := statsOf (s.1.flatten ++ s.2)
  started := !(s.1.flatten ++ s.2).isEmpty

end

theorem hashesOf_concat (es : List RawEntry) (e : RawEntry) : hashesOf (es ++ [e]) =
    if (hashesOf es).1.isEmpty ∨ (hashesOf es).2 ≠ e.ukey then
      ((hashesOf es).1 ++ [hash64 e.ukey], e.ukey)
    else hashesOf es := by
  unfold hashesOf
  rw [List.foldl_append]
  rfl

/-- The last user key of the hashes is hashed, and every other before it. -/
theorem hash_mem (es : List RawEntry) : (es ≠ [] → hash64 (hashesOf es).2 ∈ (hashesOf es).1) ∧
    ∀ e ∈ es, hash64 e.ukey ∈ (hashesOf es).1 := by
  induction es using List.reverseRecOn with
  | nil => exact ⟨fun h => absurd rfl h, fun e he => absurd he List.not_mem_nil⟩
  | append_singleton es e ih =>
    rw [hashesOf_concat]
    split
    · refine ⟨fun _ => List.mem_append_right _ (List.mem_singleton_self _), fun f hf => ?_⟩
      rcases List.mem_append.mp hf with hf | hf
      · exact List.mem_append_left _ (ih.2 f hf)
      · rw [List.mem_singleton.mp hf]
        exact List.mem_append_right _ (List.mem_singleton_self _)
    · rename_i hsame
      obtain ⟨hne, hlast⟩ := not_or.mp hsame
      have hes : es ≠ [] := by
        rintro rfl
        exact hne rfl
      refine ⟨fun _ => ih.1 hes, fun f hf => ?_⟩
      rcases List.mem_append.mp hf with hf | hf
      · exact ih.2 f hf
      · rw [List.mem_singleton.mp hf, ← not_not.mp hlast]
        exact ih.1 hes

@[simp] theorem lastIkey_concat (es : List RawEntry) (e : RawEntry) :
    lastIkey (es ++ [e]) = e.ikey := by
  rw [lastIkey, List.getLast?_append, List.getLast?_singleton]
  rfl

theorem indexOf_concat (lib : Codecs) (compression : Compression) (off : ℕ)
    (cs : List (List RawEntry)) (c : List RawEntry) : indexOf lib compression off (cs ++ [c]) =
      indexOf lib compression off cs ++
      [(lastIkey c, refAt lib compression (off + (dataBytes lib compression cs).length) c)] := by
  induction cs generalizing off with
  | nil => rfl
  | cons d cs ih =>
    rw [List.cons_append, indexOf, ih, indexOf, Nat.add_assoc, ← List.length_append]
    rfl

theorem written_nil (lib : Codecs) (compression : Compression) (blockSize bits : ℕ) :
    written lib compression blockSize bits ([], []) = .new blockSize bits compression := rfl

variable {blockSize bits : ℕ} {s : List (List RawEntry) × List RawEntry}

/-- Closing a block. -/
theorem flushBlock_written (lib : Codecs) (compression : Compression) (blockSize bits : ℕ)
    (s : List (List RawEntry) × List RawEntry) :
    TableBuilder.flushBlock lib (written lib compression blockSize bits s) =
      written lib compression blockSize bits (close s, []) := by
  obtain ⟨done, cur⟩ := s
  unfold TableBuilder.flushBlock close
  show (if (BlockBuilder.ofEntries cur).isEmpty = true then _ else _) = _
  rw [isEmpty_ofEntries]
  by_cases hcur : cur = []
  · subst hcur
    rfl
  · have hflatten : (done ++ [cur]).flatten ++ [] = done.flatten ++ cur := by simp
    rw [if_neg (by simpa using hcur), if_neg hcur]
    -- the last key is that of the block, which is not empty
    have hlast : lastIkey (done.flatten ++ cur) = lastIkey cur := by
      rw [lastIkey, List.getLast?_append_of_ne_nil _ hcur]
      rfl
    have hfile : dataBytes lib compression (done ++ [cur]) =
        dataBytes lib compression done ++ storedBlock lib compression (blockPayload cur) := by
      rw [dataBytes, List.flatMap_append, List.flatMap_singleton]
      rfl
    have hindex := indexOf_concat lib compression 0 done cur
    rw [Nat.zero_add, ← hlast] at hindex
    have hany : anyCompressed lib compression (done ++ [cur]) =
        (anyCompressed lib compression done ||
        decide ((pack lib (blockPayload cur) compression).1 ≠ CODEC_NONE)) := by
      rw [anyCompressed, List.any_append, List.any_cons, List.any_nil, Bool.or_false]
      rfl
    unfold written
    simp only [hflatten, finish_ofEntries, hfile, hindex, hany, List.length_append]
    rfl

theorem isTombstone_eq {e : RawEntry} {kind : ValueKind} (h : ikeyKind e.ikey = .ok kind) :
    e.isTombstone = decide (kind = .delete) := by
  unfold RawEntry.isTombstone
  rw [h]
  cases kind <;> rfl

theorem statsOf_concat (es : List RawEntry) {e : RawEntry} {kind : ValueKind}
    (h : ikeyKind e.ikey = .ok kind) :
    statsOf (es ++ [e]) =
      { entries := (statsOf es).entries + 1
        tombstones := if kind = .delete then (statsOf es).tombstones +
          1 else (statsOf es).tombstones
        minSeq := min (statsOf es).minSeq e.seq
        maxSeq := max (statsOf es).maxSeq e.seq
        firstIkey := if !es.isEmpty then (statsOf es).firstIkey else e.ikey
        lastIkey := e.ikey } := by
  have hcount : (es ++ [e]).countP RawEntry.isTombstone =
      if kind = .delete then es.countP RawEntry.isTombstone + 1
      else es.countP RawEntry.isTombstone := by
    rw [List.countP_append, List.countP_singleton, isTombstone_eq h]
    cases kind <;> rfl
  have hfirst : ((es ++ [e]).head?.map RawEntry.ikey).getD [] =
      if !es.isEmpty then (es.head?.map RawEntry.ikey).getD [] else e.ikey := by
    cases es <;> rfl
  unfold statsOf
  rw [hcount, hfirst, List.length_append, List.foldl_append, List.foldl_append, lastIkey_concat]
  rfl

/-- **One entry.** -/
theorem TableBuilder.add_written (lib : Codecs) (compression : Compression) (blockSize bits : ℕ)
    (s : List (List RawEntry) × List RawEntry) {e : RawEntry} (h : e.WellFormed) :
    TableBuilder.add lib (written lib compression blockSize bits s) e.ikey e.repr =
      .ok (written lib compression blockSize bits (fill blockSize s e)) := by
  obtain ⟨kind, hkind, -⟩ := h.parts
  have hconcat : s.1.flatten ++ (s.2 ++ [e]) = (s.1.flatten ++ s.2) ++ [e] :=
    (List.append_assoc _ _ _).symm
  -- the builder before it looks at the size of the block
  have hopen : (⟨dataBytes lib compression s.1, blockSize, bits, compression,
      (BlockBuilder.ofEntries s.2).add e.ikey e.repr, indexOf lib compression 0 s.1,
      (dataBytes lib compression s.1).length, anyCompressed lib compression s.1,
      (hashesOf ((s.1.flatten ++ s.2) ++ [e])).1, (hashesOf ((s.1.flatten ++ s.2) ++ [e])).2,
      statsOf ((s.1.flatten ++ s.2) ++ [e]), true⟩ : TableBuilder) =
        written lib compression blockSize bits (s.1, s.2 ++ [e]) := by
    have hstarted : (!((s.1.flatten ++ s.2) ++ [e]).isEmpty) = true := by simp
    unfold written
    simp only [hconcat, ofEntries_add, hstarted]
  rw [statsOf_concat _ hkind, hashesOf_concat] at hopen
  have hsize := sizeEstimate_ofEntries (s.2 ++ [e])
  unfold TableBuilder.add
  show (ikeyKind e.ikey).bind _ = _
  rw [hkind, Except.bind]
  show Except.ok (if blockSize ≤ ((BlockBuilder.ofEntries s.2).add e.ikey e.repr).sizeEstimate then
    TableBuilder.flushBlock lib ⟨_, _, _, _, _, _, _, _, _, _, _, _⟩
    else ⟨_, _, _, _, _, _, _, _, _, _, _, _⟩) = _
  rw [ofEntries_add, hsize]
  unfold fill
  split
  · refine congrArg Except.ok ((congrArg (TableBuilder.flushBlock lib) hopen).trans ?_)
    rw [flushBlock_written, close, if_neg (by simp)]
  · exact congrArg Except.ok hopen

/-- The entries in the blocks are those that were added. -/
theorem fill_spec (blockSize : ℕ) (s : List (List RawEntry) × List RawEntry) (e : RawEntry) :
    (fill blockSize s e).1.flatten ++ (fill blockSize s e).2 = (s.1.flatten ++ s.2) ++ [e] ∧
      ((∀ c ∈ s.1, c ≠ []) → ∀ c ∈ (fill blockSize s e).1, c ≠ []) := by
  unfold fill
  split
  · refine ⟨by simp, fun h c hc => ?_⟩
    rcases List.mem_append.mp hc with hc | hc
    · exact h c hc
    · rw [List.mem_singleton.mp hc]
      simp
  · exact ⟨(List.append_assoc _ _ _).symm, fun h => h⟩

theorem foldl_fill_spec (blockSize : ℕ) (es : List RawEntry)
    (s : List (List RawEntry) × List RawEntry) :
    (es.foldl (fill blockSize) s).1.flatten ++ (es.foldl (fill blockSize) s).2 =
      (s.1.flatten ++ s.2) ++ es ∧
      ((∀ c ∈ s.1, c ≠ []) → ∀ c ∈ (es.foldl (fill blockSize) s).1, c ≠ []) := by
  induction es generalizing s with
  | nil => exact ⟨(List.append_nil _).symm, fun h => h⟩
  | cons e es ih =>
    obtain ⟨hall, hne⟩ := ih (fill blockSize s e)
    obtain ⟨hone, hone'⟩ := fill_spec blockSize s e
    refine ⟨?_, fun h => hne (hone' h)⟩
    rw [List.foldl_cons, hall, hone, List.append_assoc, List.singleton_append]

theorem close_flatten (s : List (List RawEntry) × List RawEntry) :
    (close s).flatten = s.1.flatten ++ s.2 := by
  unfold close
  split
  · rename_i h
    rw [h, List.append_nil]
  · simp

@[simp] theorem flatten_chunks (blockSize : ℕ) (es : List RawEntry) :
    (chunks blockSize es).flatten = es :=
  (close_flatten _).trans (foldl_fill_spec blockSize es ([], [])).1

theorem chunks_ne_nil {c : List RawEntry} {es : List RawEntry} (hc : c ∈ chunks blockSize es) :
    c ≠ [] := by
  have hne := (foldl_fill_spec blockSize es ([], [])).2 fun c hc => absurd hc List.not_mem_nil
  unfold chunks close at hc
  split at hc
  · exact hne c hc
  · rename_i hopen
    rcases List.mem_append.mp hc with hc | hc
    · exact hne c hc
    · rwa [List.mem_singleton.mp hc]

theorem foldlM_add_written (lib : Codecs) (compression : Compression) (blockSize bits : ℕ)
    {es : List RawEntry} (h : ∀ e ∈ es, e.WellFormed) (s : List (List RawEntry) × List RawEntry) :
    es.foldlM (fun b e => TableBuilder.add lib b e.ikey e.repr)
      (written lib compression blockSize bits s) =
      .ok (written lib compression blockSize bits (es.foldl (fill blockSize) s)) := by
  induction es generalizing s with
  | nil => rfl
  | cons e es ih =>
    rw [List.foldlM_cons, TableBuilder.add_written lib compression blockSize bits s
      (h e List.mem_cons_self)]
    exact ih (fun f hf => h f (List.mem_cons_of_mem _ hf)) _

/-! ### The whole file -/

section

variable (lib : Codecs) (compression : Compression) (bits : ℕ) (cs : List (List RawEntry))

def filterPayload : Bytes := Filter.build (hashesOf cs.flatten).1 bits

def filterBlock : Bytes := storedBlock lib .none (filterPayload bits cs)

def indexBlock : Bytes := storedBlock lib compression (indexPayload (indexOf lib compression 0 cs))

def statsBlock : Bytes := storedBlock lib .none (statsOf cs.flatten).encode

/-- Whether a block of the table is stored compressed. -/
def wroteCompressed : Bool :=
  anyCompressed lib compression cs ||
    decide ((pack lib (indexPayload (indexOf lib compression 0 cs)) compression).1 ≠ CODEC_NONE)

/-- The blocks of a table, end to end. -/
def tableBlocks : Bytes :=
  dataBytes lib compression cs ++ filterBlock lib bits cs ++ indexBlock lib compression cs ++
    statsBlock lib cs

def tableFooter : Footer where
  filter := ⟨(dataBytes lib compression cs).length, (filterBlock lib bits cs).length % 2 ^ 32⟩
  index := ⟨(dataBytes lib compression cs ++ filterBlock lib bits cs).length,
    (indexBlock lib compression cs).length % 2 ^ 32⟩
  stats := ⟨(dataBytes lib compression cs ++ filterBlock lib bits cs ++
    indexBlock lib compression cs).length,
    (statsBlock lib cs).length % 2 ^ 32⟩
  format := if wroteCompressed lib compression cs then FORMAT_COMPRESSED else FORMAT

def tableBytes : Bytes :=
  tableBlocks lib compression bits cs ++ (tableFooter lib compression bits cs).encode

end

theorem finish_written (lib : Codecs) (compression : Compression) (blockSize bits : ℕ)
    {s : List (List RawEntry) × List RawEntry} (hne : s.1.flatten ++ s.2 ≠ []) :
    TableBuilder.finish lib (written lib compression blockSize bits s) =
      .ok (statsOf (s.1.flatten ++ s.2), (tableBytes lib compression bits (close s)).length,
        tableBytes lib compression bits (close s)) := by
  have hstarted : ¬ ¬ (written lib compression blockSize bits s).started = true := by
    simpa [written] using hne
  have hflatten : (close s).flatten ++ [] = (close s).flatten := List.append_nil _
  have hnone : ∀ payload, decide ((pack lib payload .none).1 ≠ CODEC_NONE) = false := fun _ => rfl
  rw [← close_flatten]
  unfold TableBuilder.finish
  rw [if_neg hstarted, flushBlock_written]
  generalize close s = cs at *
  unfold written tableBytes tableFooter
  simp only [TableBuilder.writeBlock, hflatten, hnone, Bool.or_false, List.length_append,
    length_footer]
  unfold tableBlocks
  simp only [List.length_append]
  rfl

/-- **The file of a table.** -/
theorem build_eq (lib : Codecs) (compression : Compression) (blockSize bits : ℕ)
    {es : List RawEntry} (hne : es ≠ []) (hwf : ∀ e ∈ es, e.WellFormed) :
    buildTable lib blockSize bits compression es =
      .ok (statsOf es, (tableBytes lib compression bits (chunks blockSize es)).length,
        tableBytes lib compression bits (chunks blockSize es)) := by
  have hall := (foldl_fill_spec blockSize es ([], [])).1
  rw [List.flatten_nil, List.nil_append, List.nil_append] at hall
  unfold buildTable
  rw [← written_nil lib, foldlM_add_written lib compression blockSize bits hwf]
  show TableBuilder.finish lib _ = _
  rw [finish_written lib compression blockSize bits (by rwa [hall]), hall]
  rfl

/-! ### Exact statistics -/

/-- What statistics say about the entries of a table. -/
structure TableStats.Describes (stats : TableStats) (es : List RawEntry) : Prop where
  entries : stats.entries = es.length
  tombstones : stats.tombstones = es.countP RawEntry.isTombstone
  minSeq : IsLeast {n | ∃ e ∈ es, e.seq = n} stats.minSeq
  maxSeq : IsGreatest {n | ∃ e ∈ es, e.seq = n} stats.maxSeq
  firstIkey : es.head?.map RawEntry.ikey = some stats.firstIkey
  lastIkey : es.getLast?.map RawEntry.ikey = some stats.lastIkey

theorem foldl_min_spec {α κ : Type} [LinearOrder κ] (f : α → κ) (l : List α) (m : κ) :
    l.foldl (fun m a => min m (f a)) m ≤ m ∧ (∀ a ∈ l, l.foldl (fun m a => min m (f a)) m ≤ f a) ∧
      (l.foldl (fun m a => min m (f a)) m = m ∨
        ∃ a ∈ l, f a = l.foldl (fun m a => min m (f a)) m) := by
  induction l generalizing m with
  | nil => exact ⟨le_rfl, fun a ha => absurd ha List.not_mem_nil, Or.inl rfl⟩
  | cons a l ih =>
    obtain ⟨hle, hall, hin⟩ := ih (min m (f a))
    refine ⟨le_trans hle (min_le_left _ _), fun b hb => ?_, ?_⟩
    · rcases List.mem_cons.mp hb with rfl | hb
      · exact le_trans hle (min_le_right _ _)
      · exact hall b hb
    · rcases hin with heq | ⟨b, hb, heq⟩
      · rcases le_total m (f a) with hmin | hmin
        · exact Or.inl (heq.trans (min_eq_left hmin))
        · exact Or.inr ⟨a, List.mem_cons_self, (heq.trans (min_eq_right hmin)).symm⟩
      · exact Or.inr ⟨b, List.mem_cons_of_mem _ hb, heq⟩

/-- A fold that starts outside ends inside. -/
theorem isLeast_foldl_min {α κ : Type} [LinearOrder κ] {f : α → κ} {l : List α} {m : κ}
    (hne : l ≠ []) (h : ∀ a ∈ l, f a ≤ m) :
    IsLeast {k | ∃ a ∈ l, f a = k} (l.foldl (fun m a => min m (f a)) m) := by
  obtain ⟨-, hall, hin⟩ := foldl_min_spec f l m
  refine ⟨?_, fun k ⟨a, ha, hk⟩ => hk ▸ hall a ha⟩
  rcases hin with heq | hin
  · obtain ⟨a, ha⟩ := List.exists_mem_of_ne_nil l hne
    exact ⟨a, ha, le_antisymm ((h a ha).trans_eq heq.symm) (hall a ha)⟩
  · exact hin

/-- **The stats are exact.** -/
theorem describes_statsOf {es : List RawEntry} (hne : es ≠ []) (hwf : ∀ e ∈ es, e.WellFormed) :
    (statsOf es).Describes es := by
  have hseq : ∀ e ∈ es, e.seq ≤ 2 ^ 64 - 1 := by
    intro e he
    obtain ⟨_, -, hle, -⟩ := (hwf e he).parts
    exact le_trans hle (by decide)
  obtain ⟨a, l, rfl⟩ := List.exists_cons_of_ne_nil hne
  refine ⟨rfl, rfl, isLeast_foldl_min hne hseq, ?_, rfl, ?_⟩
  · -- a greatest element is a least one of the dual order
    exact isLeast_foldl_min (κ := ℕᵒᵈ) (f := fun e : RawEntry => OrderDual.toDual e.seq)
      (m := OrderDual.toDual 0) hne fun e _ => Nat.zero_le e.seq
  · show _ = some (lastIkey (a :: l))
    rw [lastIkey, List.getLast?_eq_some_getLast hne]
    rfl

end Sst

end Fluent31
