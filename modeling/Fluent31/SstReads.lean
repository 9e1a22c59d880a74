/-
Reading table files (`table/reader.rs`, `cache.rs`).

Opening a table verifies its filter, reads its stats and pins its index.  Blocks and
the filter are read through a cache that all tables share: under a table's id it holds
what the file has (`Table.Coherent`), or nothing.

* `run_readIndex`, `key_ofIndex` — the index block is read back;
* `openFile_eq` — a table that was built is opened;
* `Table.ensures_cached` — a block is what the file has, whatever the cache has of it.
-/
import Fluent31.Lib.Lru
import Fluent31.SstTable

namespace Fluent31

namespace Sst

open Decoder Cursors Ordered Mvcc

/-! ### The block cache -/

/-- The cache, keyed by file and block offset; a block is charged its length. -/
structure BlockCache where
  shards : Fin 16 → Lru (ℕ × ℕ) Bytes

namespace BlockCache

/-- Sixteen empty shards. -/
def new (capacity : ℕ) : BlockCache := ⟨fun _ => ⟨[], max (capacity / 16) 1024⟩⟩

def shard (key : ℕ × ℕ) : Fin 16 := Fin.ofNat 16 (key.1 * 0x9e3779b97f4a7c15 % 2 ^ 64 ^^^ key.2)

def get (c : BlockCache) (key : ℕ × ℕ) : Option Bytes × BlockCache :=
  let got := (c.shards (shard key)).get key
  (got.1, ⟨Function.update c.shards (shard key) got.2⟩)

def insert (c : BlockCache) (key : ℕ × ℕ) (val : Bytes) : BlockCache :=
  ⟨Function.update c.shards (shard key) ((c.shards (shard key)).insert List.length key val)⟩

/-- The cache holds a block under a key. -/
def Has (c : BlockCache) (key : ℕ × ℕ) (val : Bytes) : Prop := ∃ i, (key, val) ∈ (c.shards i).held

variable {c : BlockCache} {key key' : ℕ × ℕ} {val val' : Bytes}

theorem has_of_get (h : (c.get key).1 = some val) : c.Has key val := ⟨_, Lru.mem_of_get h⟩

/-- Getting a block brings in nothing. -/
theorem Has.of_get (h : (c.get key).2.Has key' val) : c.Has key' val := by
  obtain ⟨i, hi⟩ := h
  by_cases hshard : i = shard key
  · subst hshard
    change (key', val) ∈ (Function.update c.shards (shard key) _ (shard key)).held at hi
    rw [Function.update_self] at hi
    exact ⟨_, Lru.mem_of_mem_get hi⟩
  · change (key', val) ∈ (Function.update c.shards (shard key) _ i).held at hi
    rw [Function.update_of_ne hshard] at hi
    exact ⟨i, hi⟩

/-- Inserting a block brings in that block only. -/
theorem Has.of_insert (h : (c.insert key val).Has key' val') :
    key' = key ∧ val' = val ∨ c.Has key' val' := by
  obtain ⟨i, hi⟩ := h
  by_cases hshard : i = shard key
  · subst hshard
    change (key', val') ∈ (Function.update c.shards (shard key) _ (shard key)).held at hi
    rw [Function.update_self] at hi
    rcases Lru.mem_of_mem_insert hi with heq | hmem
    · exact Or.inl (Prod.mk.inj heq)
    · exact Or.inr ⟨_, hmem⟩
  · change (key', val') ∈ (Function.update c.shards (shard key) _ i).held at hi
    rw [Function.update_of_ne hshard] at hi
    exact Or.inr ⟨i, hi⟩

theorem not_has_new (capacity : ℕ) : ¬ (BlockCache.new capacity).Has key val :=
  fun ⟨_, h⟩ => List.not_mem_nil h

end BlockCache

/-! ### Opening -/

/-- Index a vector. -/
def getAt {α : Type} (l : List α) (i : ℕ) : Except Halt α :=
  match l[i]? with
  | some a => .ok a
  | none => .error .panic

/-- The pinned block index: all last keys in one arena, where each ends, and the blocks. -/
structure TableIndex where
  keys : Bytes
  ends : List ℕ
  blocks : List BlockRef

namespace TableIndex

def start (ti : TableIndex) (i : ℕ) : Except Halt ℕ :=
  if i = 0 then .ok 0 else getAt ti.ends (i - 1)

def key (ti : TableIndex) (i : ℕ) : Except Halt Bytes := do
  let start ← ti.start i
  let stop ← getAt ti.ends i
  slice ti.keys start stop

/-- First block whose last key is at or after `target`. -/
def lowerBound (ti : TableIndex) (target : Bytes) : Except Halt ℕ :=
  bisectE (fun mid => (ti.key mid).map fun k => decide (ikeyOrder k < ikeyOrder target))
    ti.blocks.length 0 ti.blocks.length

end TableIndex

/-- The loop over an index block, with `turns` left. -/
def readIndex : ℕ → TableIndex → Decoder Reader Halt TableIndex
  | 0, _ => throw .panic
  | turns + 1, ti => do
    let r ← get
    if r.remaining = 0 then pure ti
    else do
      let lastIkey ← Reader.lenPrefixed
      if lastIkey.length < TRAILER_LEN then
        throw (.error (.corruption "index key shorter than trailer"))
      else do
        let off ← Reader.uvarint
        let len ← Reader.uvarint
        let keys := ti.keys ++ lastIkey
        if 2 ^ 32 ≤ keys.length then throw (.error (.corruption "index keys exceed u32 arena"))
        else readIndex turns ⟨keys, ti.ends ++ [keys.length], ti.blocks ++ [⟨off, len % 2 ^ 32⟩]⟩

structure Table where
  id : ℕ
  file : Bytes
  index : TableIndex
  /-- Where the filter is; its bytes are read when they are asked for. -/
  filter : BlockRef
  stats : TableStats

/-- Open a table file. -/
def Table.openFile (lib : Codecs) (file : Bytes) (id : ℕ) : Except Halt Table :=
  if file.length < FOOTER_LEN then .error (.error (.corruption "table smaller than footer"))
  else do
    let fbuf ← readExactAt file (file.length - FOOTER_LEN) FOOTER_LEN
    let footer ← Footer.decode fbuf
    -- a corrupt filter fails the open
    let _ ← readBlockVerified lib file footer.filter
    let statsPayload ← readBlockVerified lib file footer.stats
    let stats ← TableStats.decode statsPayload
    let payload ← readBlockVerified lib file footer.index
    let index ← Reader.decodeAll (readIndex (payload.length + 1) ⟨[], [], []⟩) payload
    if index.blocks.isEmpty then .error (.error (.corruption "table has no data blocks"))
    else .ok ⟨id, file, index, footer.filter, stats⟩

/-- The index in memory. -/
def ofIndex (index : List (Bytes × BlockRef)) : TableIndex where
  keys := index.flatMap Prod.fst
  ends := (List.range index.length).map fun i => ((index.take (i + 1)).flatMap Prod.fst).length
  blocks := index.map Prod.snd

/-- An index entry that a reader accepts. -/
structure IndexFits (e : Bytes × BlockRef) : Prop where
  trailer : TRAILER_LEN ≤ e.1.length
  key : e.1.length < 2 ^ 64
  ref : e.2.Fits

theorem ofIndex_concat (index : List (Bytes × BlockRef)) (e : Bytes × BlockRef) :
    ofIndex (index ++ [e]) = ⟨(ofIndex index).keys ++ e.1,
      (ofIndex index).ends ++ [((ofIndex index).keys ++ e.1).length], (ofIndex index).blocks ++
        [e.2]⟩ := by
  have hkeys : (index ++ [e]).flatMap Prod.fst = index.flatMap Prod.fst ++ e.1 := by
    rw [List.flatMap_append, List.flatMap_singleton]
  have hends : (List.range (index ++ [e]).length).map
      (fun i => (((index ++ [e]).take (i + 1)).flatMap Prod.fst).length) =
        (List.range index.length).map (fun i => ((index.take (i + 1)).flatMap Prod.fst).length) ++
          [(index.flatMap Prod.fst ++ e.1).length] := by
    rw [List.length_append, List.length_singleton, List.range_succ, List.map_append,
      List.map_singleton, List.take_of_length_le (by simp), hkeys]
    congr 1
    refine List.map_congr_left fun i hi => ?_
    rw [List.take_append_of_le_length (Nat.succ_le_of_lt (List.mem_range.mp hi))]
  unfold ofIndex
  rw [hkeys, hends, List.map_append]
  rfl

/-- **The index block** is read back. -/
theorem run_readIndex {turns : ℕ} {pre post : List (Bytes × BlockRef)} {r : Reader}
    (hturns : post.length < turns)
    (hr : r.rest = indexPayload post) (hfits : ∀ e ∈ post, IndexFits e)
    (hkeys : ((pre ++ post).flatMap Prod.fst).length < 2 ^ 32) :
    ∃ r', (readIndex turns (ofIndex pre)).run r = .ok (ofIndex (pre ++ post), r') := by
  induction post generalizing turns pre r with
  | nil =>
    obtain ⟨turns, rfl⟩ := Nat.exists_eq_succ_of_ne_zero (Nat.ne_zero_of_lt hturns)
    have hrest : r.remaining = 0 := by
      rw [← Reader.length_rest, hr]
      rfl
    refine ⟨r, ?_⟩
    show (if r.remaining = 0 then pure (ofIndex pre) else _ :
      Decoder Reader Halt TableIndex).run r = _
    rw [if_pos hrest, List.append_nil]
    rfl
  | cons e post ih =>
    obtain ⟨turns, rfl⟩ := Nat.exists_eq_succ_of_ne_zero (Nat.ne_zero_of_lt hturns)
    obtain ⟨htrailer, hkey, hoff, hlen⟩ := hfits e List.mem_cons_self
    have hsplit : indexPayload (e :: post) =
        putLenPrefixed e.1 ++
          (putUvarint e.2.off ++ (putUvarint e.2.len ++ indexPayload post)) := by
      unfold indexPayload
      rw [List.flatMap_cons, List.append_assoc, List.append_assoc]
    have hrest : r.remaining ≠ 0 := by
      have hpos : 8 ≤ e.1.length := htrailer
      rw [← Reader.length_rest, hr, hsplit, putLenPrefixed]
      simp only [List.length_append]
      omega
    -- one entry: its key, then the offset and the length of its block
    obtain ⟨r₁, hrun₁, hr₁⟩ := Reader.inverts_lenPrefixed hkey (hr.trans hsplit)
    obtain ⟨r₂, hrun₂, hr₂⟩ := Reader.inverts_uvarint hoff hr₁
    obtain ⟨r₃, hrun₃, hr₃⟩ := Reader.inverts_uvarint (show e.2.len < 2 ^ 64 by omega) hr₂
    have happend : pre ++ e :: post = (pre ++ [e]) ++ post := by simp
    -- the keys read so far are a part of all keys, which fit the arena
    have harena : ¬ 2 ^ 32 ≤ ((ofIndex pre).keys ++ e.1).length := by
      rw [happend, List.flatMap_append, List.length_append, List.flatMap_append,
        List.flatMap_singleton] at hkeys
      show ¬ 2 ^ 32 ≤ (pre.flatMap Prod.fst ++ e.1).length
      omega
    obtain ⟨r', hrun⟩ := ih (by simpa using hturns) hr₃
      (fun f hf => hfits f (List.mem_cons_of_mem _ hf)) (by rwa [← happend])
    refine ⟨r', ?_⟩
    show (if r.remaining = 0 then _ else _ : Decoder Reader Halt TableIndex).run r = _
    rw [if_neg hrest, run_bind, hrun₁, Except.bind]
    simp only
    rw [if_neg (not_lt.mpr htrailer), run_bind, hrun₂, Except.bind]
    simp only
    rw [run_bind, hrun₃, Except.bind]
    simp only
    rw [if_neg harena, Nat.mod_eq_of_lt hlen, happend, ← hrun, ofIndex_concat]

/-- The last key of block `i`. -/
theorem key_ofIndex {index : List (Bytes × BlockRef)} {i : ℕ} (h : i < index.length) :
    (ofIndex index).key i = .ok index[i].1 := by
  have hends : ∀ j (hj : j < index.length), getAt (ofIndex index).ends j =
      .ok ((index.take (j + 1)).flatMap Prod.fst).length := by
    intro j hj
    have hget : (ofIndex index).ends[j]? = some ((index.take (j + 1)).flatMap Prod.fst).length := by
      show ((List.range index.length).map _)[j]? = _
      rw [List.getElem?_map, List.getElem?_range hj]
      rfl
    rw [getAt, hget]
  have hstart : (ofIndex index).start i = .ok ((index.take i).flatMap Prod.fst).length := by
    unfold TableIndex.start
    cases i with
    | zero => rfl
    | succ i => exact hends i (by omega)
  have hsplit : index.flatMap Prod.fst =
      (index.take i).flatMap Prod.fst ++ (index[i].1 ++ (index.drop (i + 1)).flatMap Prod.fst) := by
    conv_lhs => rw [← List.take_append_drop i index, List.drop_eq_getElem_cons h,
      List.flatMap_append, List.flatMap_cons]
  have hstop : (index.take (i + 1)).flatMap Prod.fst = (index.take i).flatMap Prod.fst ++
      index[i].1 := by
    rw [List.take_succ_eq_append_getElem h, List.flatMap_append, List.flatMap_singleton]
  unfold TableIndex.key
  rw [hstart, hends i h, hstop]
  show slice (index.flatMap Prod.fst) _ _ = _
  rw [hsplit, slice_eq (by simp) (by simp), List.drop_left, List.length_append,
    Nat.add_sub_cancel_left, List.take_left]

/-! ### The index of a written table -/

section

variable {lib : Codecs} {compression : Compression} {bits : ℕ} {cs : List (List RawEntry)}

@[simp] theorem length_indexOf (off : ℕ) : (indexOf lib compression off cs).length = cs.length := by
  induction cs generalizing off with
  | nil => rfl
  | cons c cs ih => rw [indexOf, List.length_cons, ih, List.length_cons]

theorem getElem?_indexOf (off : ℕ) {i : ℕ} (h : i < cs.length) :
    (indexOf lib compression off cs)[i]? = some (lastIkey cs[i], refAt lib compression
      (off + (dataBytes lib compression (cs.take i)).length) cs[i]) := by
  induction cs generalizing off i with
  | nil => exact absurd h (Nat.not_lt_zero i)
  | cons c cs ih =>
    cases i with
    | zero => rfl
    | succ i =>
      have hlen : i < cs.length := Nat.lt_of_succ_lt_succ h
      rw [indexOf, List.getElem?_cons_succ, ih _ hlen, List.getElem_cons_succ, Nat.add_assoc,
        ← List.length_append]
      rfl

theorem length_le_indexPayload (index : List (Bytes × BlockRef)) :
    index.length ≤ (indexPayload index).length ∧
    (index.flatMap Prod.fst).length ≤ (indexPayload index).length := by
  induction index with
  | nil => exact ⟨le_rfl, le_rfl⟩
  | cons e index ih =>
    have hpos : 0 < (putUvarint e.1.length).length := length_putUvarint_pos _
    have hsplit : indexPayload (e :: index) =
        putLenPrefixed e.1 ++ (putUvarint e.2.off ++ putUvarint e.2.len) ++ indexPayload index :=
          List.flatMap_cons
    rw [hsplit, List.flatMap_cons, putLenPrefixed]
    simp only [List.length_append, List.length_cons]
    omega

/-- The sizes stay within the fields that hold them: lengths of blocks are 32-bit
numbers, and so are the offsets inside a block; a file's length is a 64-bit number. -/
structure Fits (lib : Codecs) (compression : Compression) (bits : ℕ) (cs : List (List RawEntry)) :
    Prop where
  data : ∀ c ∈ cs, (blockPayload c).length + BLOCK_TRAILER_LEN < 2 ^ 32
  filter : (filterPayload bits cs).length + BLOCK_TRAILER_LEN < 2 ^ 32
  index : (indexPayload (indexOf lib compression 0 cs)).length + BLOCK_TRAILER_LEN < 2 ^ 32
  stats : (statsOf cs.flatten).encode.length + BLOCK_TRAILER_LEN < 2 ^ 32
  file : (tableBytes lib compression bits cs).length < 2 ^ 64

theorem mod_storedBlock (lib : Codecs) (compression : Compression) {payload : Bytes}
    (h : payload.length + BLOCK_TRAILER_LEN < 2 ^ 32) :
    (storedBlock lib compression payload).length % 2 ^ 32 =
      (storedBlock lib compression payload).length := by
  have hle := length_pack_le lib payload compression
  refine Nat.mod_eq_of_lt ?_
  rw [length_storedBlock]
  omega

/-- A block of the file, wherever it stands. -/
theorem read_block (h : lib.Inverts) {payload file pre : Bytes} {r : BlockRef}
    (hfits : payload.length + BLOCK_TRAILER_LEN < 2 ^ 32)
    (hfile : ∃ post, file = pre ++ (storedBlock lib compression payload ++ post))
    (hr : r = ⟨pre.length, (storedBlock lib compression payload).length % 2 ^ 32⟩) :
    readBlockVerified lib file r = .ok payload := by
  obtain ⟨post, rfl⟩ := hfile
  rw [hr, mod_storedBlock lib compression hfits]
  exact readBlockVerified_of_append h pre post

/-- Data block `i` in the file. -/
theorem tableBytes_split {i : ℕ} (hi : i < cs.length) : ∃ post, tableBytes lib compression bits cs =
    dataBytes lib compression (cs.take i) ++
      (storedBlock lib compression (blockPayload cs[i]) ++ post) := by
  have hdata : dataBytes lib compression cs = dataBytes lib compression (cs.take i) ++
      (storedBlock lib compression (blockPayload cs[i]) ++ dataBytes lib compression
        (cs.drop (i + 1))) := by
    conv_lhs => rw [← List.take_append_drop i cs, List.drop_eq_getElem_cons hi]
    exact List.flatMap_append.trans (congrArg _ List.flatMap_cons)
  unfold tableBytes tableBlocks
  rw [hdata]
  simp only [List.append_assoc]
  exact ⟨_, rfl⟩

theorem lastIkey_eq {c : List RawEntry} (h : c ≠ []) : lastIkey c = (c.getLast h).ikey := by
  rw [lastIkey, List.getLast?_eq_some_getLast h]
  rfl

/-- The table as `openFile` finds it. -/
def opened (lib : Codecs) (compression : Compression) (bits : ℕ) (cs : List (List RawEntry))
    (id : ℕ) : Table where
  id := id
  file := tableBytes lib compression bits cs
  index := ofIndex (indexOf lib compression 0 cs)
  filter := (tableFooter lib compression bits cs).filter
  stats := statsOf cs.flatten

theorem length_flatten_le {n : ℕ} (h : ∀ c ∈ cs, c.length ≤ n) :
    cs.flatten.length ≤ cs.length * n := by
  induction cs with
  | nil => exact Nat.zero_le _
  | cons c cs ih =>
    have hhead := h c List.mem_cons_self
    have hrest := ih fun d hd => h d (List.mem_cons_of_mem _ hd)
    rw [List.flatten_cons, List.length_append, List.length_cons, Nat.succ_mul]
    omega

/-- There is a 32-bit number of blocks, each with a 32-bit number of entries. -/
theorem Fits.length_lt (h : Fits lib compression bits cs) : cs.flatten.length < 2 ^ 64 := by
  have hblocks := (length_le_indexPayload (indexOf lib compression 0 cs)).1
  rw [length_indexOf] at hblocks
  have hindex := h.index
  have hflat := length_flatten_le (n := 2 ^ 31) fun c hc => by
    have hdata := h.data c hc
    rw [length_blockPayload] at hdata
    omega
  omega

theorem Fits.statsFits (h : Fits lib compression bits cs) (hwf : ∀ e ∈ cs.flatten, e.WellFormed)
    (hne : cs.flatten ≠ []) : (statsOf cs.flatten).Fits := by
  have hlen := h.length_lt
  have hstats := h.stats
  obtain ⟨hentries, htombstones, hmin, hmax, -, -⟩ := describes_statsOf hne hwf
  have hseq : ∀ n ∈ {n | ∃ e ∈ cs.flatten, e.seq = n}, n < 2 ^ 64 := by
    rintro n ⟨e, he, rfl⟩
    obtain ⟨_, -, hle, -⟩ := (hwf e he).parts
    exact lt_of_le_of_lt hle (by decide)
  have hcount := List.countP_le_length (p := RawEntry.isTombstone) (l := cs.flatten)
  unfold TableStats.encode putLenPrefixed at hstats
  simp only [List.length_append] at hstats
  exact ⟨hlen, lt_of_le_of_lt hcount hlen, hseq _ hmin.1, hseq _ hmax.1, by omega, by omega⟩

theorem Fits.footerFits (h : Fits lib compression bits cs) :
    (tableFooter lib compression bits cs).Fits := by
  have hfile := h.file
  have hmod : ∀ n, n % 2 ^ 32 < 2 ^ 32 := fun n => Nat.mod_lt n (by decide)
  unfold tableBytes tableBlocks at hfile
  simp only [List.length_append] at hfile
  refine ⟨⟨?_, hmod _⟩, ⟨?_, hmod _⟩, ⟨?_, hmod _⟩, ?_⟩
  · show (dataBytes lib compression cs).length < 2 ^ 64
    omega
  · show (dataBytes lib compression cs ++ filterBlock lib bits cs).length < 2 ^ 64
    rw [List.length_append]
    omega
  · show (dataBytes lib compression cs ++ filterBlock lib bits cs ++
      indexBlock lib compression cs).length < 2 ^ 64
    rw [List.length_append, List.length_append]
    omega
  · unfold tableFooter
    cases wroteCompressed lib compression cs with
    | false => exact Or.inl rfl
    | true => exact Or.inr rfl

/-- The entries of the index are what the reader accepts. -/
theorem Fits.indexFits (h : Fits lib compression bits cs) (hwf : ∀ e ∈ cs.flatten, e.WellFormed)
    (hcs : ∀ c ∈ cs, c ≠ []) : ∀ e ∈ indexOf lib compression 0 cs, IndexFits e := by
  intro e he
  obtain ⟨i, hi, hget⟩ := List.getElem_of_mem he
  rw [length_indexOf] at hi
  have hentry := @getElem?_indexOf lib compression cs 0 i hi
  rw [List.getElem?_eq_getElem (by rwa [length_indexOf]), hget] at hentry
  obtain rfl := Option.some.inj hentry
  have hmem : cs[i] ∈ cs := List.getElem_mem hi
  have hlast : cs[i].getLast (hcs _ hmem) ∈ cs.flatten :=
    List.mem_flatten.mpr ⟨_, hmem, List.getLast_mem _⟩
  obtain ⟨post, hsplit⟩ := tableBytes_split hi
  have hfile := h.file
  rw [hsplit, List.length_append] at hfile
  have hkeys := (length_le_indexPayload (indexOf lib compression 0 cs)).2
  have hindex := h.index
  have hkey : (lastIkey cs[i]).length ≤
      ((indexOf lib compression 0 cs).flatMap Prod.fst).length := by
    obtain ⟨before, after, heq⟩ := List.append_of_mem he
    rw [heq, List.flatMap_append, List.flatMap_cons]
    simp only [List.length_append]
    omega
  refine ⟨?_, by simp only; omega, ?_, Nat.mod_lt _ (by decide)⟩
  · show TRAILER_LEN ≤ (lastIkey cs[i]).length
    rw [lastIkey_eq (hcs _ hmem)]
    exact (hwf _ hlast).length_ikey
  · show 0 + (dataBytes lib compression (cs.take i)).length < 2 ^ 64
    omega

theorem read_footer (lib : Codecs) (compression : Compression) (bits : ℕ)
    (cs : List (List RawEntry)) :
    FOOTER_LEN ≤ (tableBytes lib compression bits cs).length ∧
      readExactAt (tableBytes lib compression bits cs)
        ((tableBytes lib compression bits cs).length - FOOTER_LEN)
        FOOTER_LEN = .ok (tableFooter lib compression bits cs).encode := by
  have hfooter := length_footer (tableFooter lib compression bits cs)
  have hlen : (tableBytes lib compression bits cs).length =
      (tableBlocks lib compression bits cs).length + FOOTER_LEN := by
    rw [tableBytes, List.length_append, hfooter]
  refine ⟨by omega, ?_⟩
  rw [readExactAt, if_pos (by omega), hlen, Nat.add_sub_cancel, tableBytes, List.drop_left,
    List.take_of_length_le (le_of_eq hfooter)]

theorem read_filter (hlib : lib.Inverts) (h : Fits lib compression bits cs) :
    readBlockVerified lib (tableBytes lib compression bits cs)
      (tableFooter lib compression bits cs).filter = .ok (filterPayload bits cs) := by
  refine read_block hlib h.filter ?_ rfl
  unfold tableBytes tableBlocks filterBlock
  simp only [List.append_assoc]
  exact ⟨_, rfl⟩

theorem read_index (hlib : lib.Inverts) (h : Fits lib compression bits cs) :
    readBlockVerified lib (tableBytes lib compression bits cs)
      (tableFooter lib compression bits cs).index =
      .ok (indexPayload (indexOf lib compression 0 cs)) := by
  refine read_block hlib h.index ?_ rfl
  unfold tableBytes tableBlocks indexBlock
  simp only [List.append_assoc]
  exact ⟨_, rfl⟩

theorem read_stats (hlib : lib.Inverts) (h : Fits lib compression bits cs) :
    readBlockVerified lib (tableBytes lib compression bits cs)
      (tableFooter lib compression bits cs).stats = .ok (statsOf cs.flatten).encode := by
  refine read_block hlib h.stats ?_ rfl
  unfold tableBytes tableBlocks statsBlock
  simp only [List.append_assoc]
  exact ⟨_, rfl⟩

theorem decode_stats (hne : cs.flatten ≠ []) (hwf : ∀ e ∈ cs.flatten, e.WellFormed)
    (h : Fits lib compression bits cs) :
    TableStats.decode (statsOf cs.flatten).encode = .ok (statsOf cs.flatten) := by
  have hfirst : TRAILER_LEN ≤ (statsOf cs.flatten).firstIkey.length := by
    obtain ⟨e, l, hl⟩ := List.exists_cons_of_ne_nil hne
    rw [hl] at hwf ⊢
    exact (hwf e List.mem_cons_self).length_ikey
  have hlast : TRAILER_LEN ≤ (statsOf cs.flatten).lastIkey.length := by
    show TRAILER_LEN ≤ (lastIkey cs.flatten).length
    rw [lastIkey_eq hne]
    exact (hwf _ (List.getLast_mem hne)).length_ikey
  have hfits := h.stats
  exact TableStats.decode_encode (h.statsFits hwf hne) (by omega) hfirst hlast

theorem decode_index (hwf : ∀ e ∈ cs.flatten, e.WellFormed) (hcs : ∀ c ∈ cs, c ≠ [])
    (h : Fits lib compression bits cs) :
    Reader.decodeAll
      (readIndex ((indexPayload (indexOf lib compression 0 cs)).length + 1) ⟨[], [], []⟩)
      (indexPayload (indexOf lib compression 0 cs)) =
        .ok (ofIndex (indexOf lib compression 0 cs)) := by
  have hfits := h.index
  obtain ⟨hcount, hkeys⟩ := length_le_indexPayload (indexOf lib compression 0 cs)
  have hindex := h.indexFits hwf hcs
  generalize indexOf lib compression 0 cs = index at hfits hcount hkeys hindex ⊢
  have hword : (indexPayload index).length < 2 ^ 64 := by omega
  obtain ⟨r', hrun⟩ := @run_readIndex ((indexPayload index).length + 1) [] index
    ⟨indexPayload index, 0, Nat.zero_le _, hword⟩ (by omega) rfl hindex (by
      rw [List.nil_append]
      omega)
  unfold Reader.decodeAll
  rw [dif_pos hword]
  exact congrArg (Except.map Prod.fst) hrun

/-- **A table that was built is opened.** -/
theorem openFile_eq (hlib : lib.Inverts) (hne : cs.flatten ≠ []) (hcs : ∀ c ∈ cs, c ≠ [])
    (hwf : ∀ e ∈ cs.flatten, e.WellFormed) (h : Fits lib compression bits cs) (id : ℕ) :
    Table.openFile lib (tableBytes lib compression bits cs) id =
      .ok (opened lib compression bits cs id) := by
  obtain ⟨hlen, hread⟩ := read_footer lib compression bits cs
  have hblocks : (ofIndex (indexOf lib compression 0 cs)).blocks.isEmpty = false := by
    cases cs with
    | nil => exact absurd rfl hne
    | cons c cs => rfl
  have hok : ∀ {α β : Type} (a : α) (f : α → Except Halt β), (Except.ok a >>= f) = f a :=
    fun _ _ => rfl
  unfold Table.openFile
  rw [if_neg (not_lt.mpr hlen), hread, hok, Footer.decode_encode h.footerFits, hok,
    read_filter hlib h, hok,
    read_stats hlib h, hok, decode_stats hne hwf h, hok, read_index hlib h, hok,
      decode_index hwf hcs h, hok, hblocks]
  rfl

end

/-! ### Reads through the cache -/

/-- What may change the cache. -/
abbrev Cached := Decoder BlockCache Halt

namespace Table

variable (lib : Codecs)

/-- The payload of a block, through the shared cache: a miss reads the file and
leaves the block in the cache. -/
def cached (t : Table) (r : BlockRef) : Cached Bytes := fun cache =>
  let got := cache.get (t.id, r.off)
  match got.1 with
  | some payload => .ok (payload, got.2)
  | none => (readBlockVerified lib t.file r).map fun payload => (payload,
    got.2.insert (t.id, r.off) payload)

def loadBlock (t : Table) (idx : ℕ) : Cached Block := do
  let r ← ofResult (getAt t.index.blocks idx)
  let payload ← t.cached lib r
  ofResult (Block.new payload)

/-- Key range first, then the filter. -/
def mayContainUkey (t : Table) (ukey : Bytes) : Cached Bool :=
  if ukey < t.stats.minUkey ∨ t.stats.maxUkey < ukey then pure false
  else do
    let filter ← t.cached lib t.filter
    pure (Filter.mayContain filter (hash64 ukey))

/-- Newest version of `ukey` with seqno at most `seq` in this table. -/
def get (t : Table) (ukey : Bytes) (seq : ℕ) : Cached (Option (ValueKind × ℕ × Bytes)) := do
  let mayContain ← t.mayContainUkey lib ukey
  if mayContain = false then pure none
  else do
    let target := makeSeekIkey ukey seq
    let bi ← ofResult (t.index.lowerBound target)
    if t.index.blocks.length ≤ bi then pure none
    else do
      let block ← t.loadBlock lib bi
      let i ← ofResult (block.lowerBound target)
      if block.count ≤ i then pure none
      else do
        let e ← ofResult (block.entry i)
        if ikeyUkey e.ikey ≠ ukey then pure none
        else do
          let kind ← ofResult (ikeyKind e.ikey)
          pure (some (kind, ikeySeqno e.ikey, e.repr))

/-- The blocks whose payloads the cache may hold under the table's id. -/
def refs (t : Table) : List BlockRef := t.index.blocks ++ [t.filter]

/-- Under the table's id the cache holds what the file has. -/
def Coherent (t : Table) (cache : BlockCache) : Prop :=
  ∀ r ∈ t.refs, ∀ payload, cache.Has (t.id, r.off) payload →
    readBlockVerified lib t.file r = .ok payload

variable {lib}

/-- A cache without blocks of this table. -/
theorem coherent_of_not_has {t : Table} {cache : BlockCache}
    (h : ∀ off payload, ¬ cache.Has (t.id, off) payload) :
    t.Coherent lib cache := fun r _ payload hhas => absurd hhas (h r.off payload)

/-- Other tables' blocks do not matter. -/
theorem Coherent.insert_other {t : Table} {cache : BlockCache} (h : t.Coherent lib cache)
    {key : ℕ × ℕ}
    (hkey : key.1 ≠ t.id) (payload : Bytes) : t.Coherent lib (cache.insert key payload) := by
  intro r hr payload' hhas
  rcases hhas.of_insert with ⟨heq, -⟩ | hhas
  · exact absurd (congrArg Prod.fst heq).symm hkey
  · exact h r hr payload' hhas

/-- **One block**, whatever the cache has of it. -/
theorem ensures_cached {t : Table} (hoffs : SortedBy BlockRef.off t.refs) {r : BlockRef}
    (hr : r ∈ t.refs) {payload : Bytes} (hread : readBlockVerified lib t.file r = .ok payload) :
    Ensures (t.Coherent lib) (t.cached lib r) (· = payload) := by
  intro cache hcache
  have hkept : t.Coherent lib (cache.get (t.id, r.off)).2 :=
    fun r' hr' payload' hhas => hcache r' hr' payload' hhas.of_get
  unfold cached
  cases hget : (cache.get (t.id, r.off)).1 with
  | some hit =>
    have heq := hcache r hr hit (BlockCache.has_of_get hget)
    rw [hread] at heq
    refine ⟨hit, _, ?_, hkept, (Except.ok.inj heq).symm⟩
    show (match (cache.get (t.id, r.off)).1 with | some payload => _ | none => _) = _
    rw [hget]
  | none =>
    refine ⟨payload, (cache.get (t.id, r.off)).2.insert (t.id, r.off) payload, ?_, ?_, rfl⟩
    · show (match (cache.get (t.id, r.off)).1 with | some payload => _ | none => _) = _
      rw [hget, hread]
      rfl
    · intro r' hr' payload' hhas
      rcases hhas.of_insert with ⟨heq, rfl⟩ | hhas
      · -- blocks at one offset are one block
        rw [hoffs.key_inj hr' hr (congrArg Prod.snd heq), hread]
      · exact hkept r' hr' payload' hhas

end Table

end Sst

end Fluent31
