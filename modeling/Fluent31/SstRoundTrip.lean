/-
What is written to a table file is read from it (`table/`, `block.rs`, `bloom.rs`).

A table iterator opens one block after the other through the cache.  It moves as the
concatenation of cursors over the blocks' entries does, and that one moves over all
entries of the table.

* `Follows.next`, `Follows.seek`, … — the iterator stays where the cursor is;
* `ensures_get`, `ensures_mayContain` — the filtered lookup finds the newest version;
* `format_eq_iff` — the plain format is that of tables without compressed blocks;
* `table_round_trip` — a table that was built is opened and reads as its entries.
-/
import Fluent31.SstReads
import Fluent31.WalFile

namespace Fluent31

namespace Sst

open Decoder Cursors Ordered Mvcc

/-! ### The iterator -/

structure TableIter where
  t : Table
  idx : ℕ
  bi : Option BlockIter

def Table.iter (t : Table) : TableIter := ⟨t, 0, none⟩

namespace TableIter

/-- Apply an operation of the block's iterator, which is expected to be there. -/
def onBlock (f : BlockIter → Except Halt BlockIter) (it : TableIter) : Cached TableIter :=
  match it.bi with
  | some b => ofResult ((f b).map fun b => { it with bi := some b })
  | none => throw .panic

def valid (it : TableIter) : Bool := it.bi.any BlockIter.valid

def ikey (it : TableIter) : Except Halt Bytes :=
  match it.bi with
  | some b => b.ikey
  | none => .error .panic

def value (it : TableIter) : Except Halt Bytes :=
  match it.bi with
  | some b => b.value
  | none => .error .panic

variable (lib : Codecs)

def load (it : TableIter) (idx : ℕ) : Cached TableIter := do
  let block ← it.t.loadBlock lib idx
  pure { it with idx := idx, bi := some (BlockIter.new block) }

def seekToFirst (it : TableIter) : Cached TableIter := do
  let it ← it.load lib 0
  it.onBlock fun b => .ok b.seekToFirst

def seekToLast (it : TableIter) : Cached TableIter := do
  let it ← it.load lib (it.t.index.blocks.length - 1)
  it.onBlock fun b => .ok b.seekToLast

/-- Go on with the next block when this one is exhausted. -/
def skipForward (it : TableIter) : Cached TableIter :=
  if it.valid then pure it
  else if it.idx + 1 < it.t.index.blocks.length then do
    let it ← it.load lib (it.idx + 1)
    it.onBlock fun b => .ok b.seekToFirst
  else pure { it with bi := none }

/-- Go on with the previous block when this one is exhausted. -/
def skipBack (it : TableIter) : Cached TableIter :=
  if it.valid then pure it
  else if 0 < it.idx then do
    let it ← it.load lib (it.idx - 1)
    it.onBlock fun b => .ok b.seekToLast
  else pure { it with bi := none }

def seek (ikey : Bytes) (it : TableIter) : Cached TableIter := do
  let bi ← ofResult (it.t.index.lowerBound ikey)
  if it.t.index.blocks.length ≤ bi then pure { it with bi := none }
  else do
    let it ← it.load lib bi
    let it ← it.onBlock (BlockIter.seek ikey)
    it.skipForward lib

def seekForPrev (ikey : Bytes) (it : TableIter) : Cached TableIter := do
  let bi ← ofResult (it.t.index.lowerBound ikey)
  -- every entry is before the target
  if it.t.index.blocks.length ≤ bi then it.seekToLast lib
  else do
    let it ← it.load lib bi
    let it ← it.onBlock (BlockIter.seekForPrev ikey)
    it.skipBack lib

def next (it : TableIter) : Cached TableIter := do
  let it ← it.onBlock fun b => .ok b.next
  it.skipForward lib

def prev (it : TableIter) : Cached TableIter := do
  let it ← it.onBlock fun b => .ok b.prev
  it.skipBack lib

/-- Take entries while the iterator is valid, `turns` at most. -/
def collect (step : TableIter → Cached TableIter) : ℕ → TableIter → Cached (List RawEntry)
  | turns, it =>
    if it.valid = false then pure []
    else
      match turns with
      | 0 => throw .panic
      | turns + 1 => do
        let ikey ← ofResult it.ikey
        let value ← ofResult it.value
        let it ← step it
        let rest ← collect step turns it
        pure (⟨ikey, value⟩ :: rest)

end TableIter

/-! ### What a table serves -/

/-- The entries of a block. -/
structure Chunk where
  entries : List RawEntry
  nonempty : entries ≠ []

/-- A place among the entries of a block. -/
abbrev ChunkIter := ListCursor RawEntry.key

instance : Part Chunk ChunkIter RawEntry IKey where
  iter c := ⟨c.entries, c.entries.length⟩
  lastKey c := ikeyOrder (lastIkey c.entries)
  -- an exhausted table iterator drops its block
  atEnd _ := none

variable {lib : Codecs} {t : Table} {parts : List Chunk}

/-- The index and the blocks of a table, read through any coherent cache. -/
structure Serves (lib : Codecs) (t : Table) (parts : List Chunk) : Prop where
  count : t.index.blocks.length = parts.length
  lower : ∀ target, t.index.lowerBound target =
    .ok (partitionPoint (fun p => decide (Part.lastKey ChunkIter p < ikeyOrder target)) parts)
  load : ∀ i (h : i < parts.length), Ensures (t.Coherent lib) (t.loadBlock lib i)
    (·.Holds parts[i].entries)

/-- The iterator is where the cursor over the parts is. -/
structure Follows (t : Table) (parts : List Chunk) (it : TableIter) (c : Concat Chunk ChunkIter) :
    Prop where
  table : it.t = t
  parts : c.parts = parts
  idx : it.idx = c.idx
  inner : Option.Rel (fun b i => ∃ block : Block, block.Holds i.list ∧ b = .across block i)
    it.bi c.inner
  inside : c.inner.isSome = true → c.idx < c.parts.length

/-- An operation of a block's iterator and the one of the cursor it follows. -/
structure Acts (f : BlockIter → Except Halt BlockIter) (position : ChunkIter → ChunkIter) :
    Prop where
  list : ∀ c, (position c).list = c.list
  across : ∀ (block : Block) c, block.Holds c.list → f (.across block c) =
    .ok (.across block (position c))

theorem acts_seekToFirst : Acts (fun b => .ok b.seekToFirst) seekToFirst :=
  ⟨fun _ => rfl, fun _ _ _ => rfl⟩

theorem acts_seekToLast : Acts (fun b => .ok b.seekToLast) seekToLast :=
  ⟨fun _ => rfl, fun _ _ h => congrArg _ (BlockIter.seekToLast_across h)⟩

theorem acts_seek (ikey : Bytes) : Acts (BlockIter.seek ikey) (seek (ikeyOrder ikey)) :=
  ⟨fun _ => rfl, fun _ _ h => BlockIter.seek_across h ikey⟩

theorem acts_seekForPrev (ikey : Bytes) :
    Acts (BlockIter.seekForPrev ikey) (seekForPrev (ikeyOrder ikey)) := by
  refine ⟨fun c => ?_, fun _ _ h => BlockIter.seekForPrev_across h ikey⟩
  show (ListCursor.toPrev (ikeyOrder ikey) c).list = c.list
  unfold ListCursor.toPrev
  simp only
  split <;> rfl

theorem acts_next : Acts (fun b => .ok b.next) next := ⟨fun _ => rfl, fun _ _ _ => rfl⟩

theorem acts_prev : Acts (fun b => .ok b.prev) prev :=
  ⟨fun _ => rfl, fun _ _ h => congrArg _ (BlockIter.prev_across h)⟩

variable {it : TableIter} {c : Concat Chunk ChunkIter}

theorem Follows.valid_eq (h : Follows t parts it c) : it.valid = (current c).isSome := by
  have hinner := h.inner
  show it.bi.any BlockIter.valid = (c.inner.bind Cursors.current).isSome
  cases hb : it.bi <;> cases hc : c.inner <;> rw [hb, hc] at hinner <;> cases hinner
  · rfl
  · rename_i i hsome
    obtain ⟨block, hholds, rfl⟩ := hsome
    exact BlockIter.valid_across hholds

/-- What a cursor stands at, its iterator stands at. -/
theorem Follows.entry_eq (h : Follows t parts it c) {e : RawEntry} (he : current c = some e) :
    it.ikey = .ok e.ikey ∧ it.value = .ok e.repr := by
  have hinner := h.inner
  have he : c.inner.bind Cursors.current = some e := he
  unfold TableIter.ikey TableIter.value
  cases hb : it.bi <;> cases hc : c.inner <;> rw [hb, hc] at hinner <;> cases hinner
  · rw [hc] at he
    exact nomatch he
  · rename_i i hsome
    obtain ⟨block, hholds, rfl⟩ := hsome
    rw [hc] at he
    have hval := BlockIter.validated_across hholds he
    unfold BlockIter.ikey BlockIter.value
    simp only [hval]
    exact ⟨rfl, rfl⟩

variable {f : BlockIter → Except Halt BlockIter} {position : ChunkIter → ChunkIter}

/-- Position the open block's iterator. -/
theorem Follows.onBlock (h : Follows t parts it c) (hacts : Acts f position)
    (hopen : c.inner.isSome = true) :
    Ensures (t.Coherent lib) (it.onBlock f)
      (Follows t parts · { c with inner := c.inner.map position }) := by
  obtain ⟨i, hc⟩ := Option.isSome_iff_exists.mp hopen
  have hinner := h.inner
  rw [hc] at hinner
  unfold TableIter.onBlock
  cases hb : it.bi with
  | none =>
    rw [hb] at hinner
    exact nomatch hinner
  | some b =>
    rw [hb] at hinner
    obtain ⟨block, hholds, rfl⟩ : ∃ block : Block, block.Holds i.list ∧ b = .across block i := by
      cases hinner
      assumption
    refine Ensures.ofResult (a := { it with bi := some (.across block (position i)) })
      (by rw [hacts.across _ _ hholds]; rfl) ?_
    refine ⟨h.table, h.parts, h.idx, ?_, fun _ => h.inside hopen⟩
    show Option.Rel _ (some (BlockIter.across block (position i))) (c.inner.map position)
    rw [hc]
    exact .some ⟨block, by rwa [hacts.list], rfl⟩

/-- Open a block and position its iterator. -/
theorem Follows.load (hs : Serves lib t parts) (htable : it.t = t)
    (hparts : c.parts = parts) {i : ℕ} (hi : i < parts.length) (hacts : Acts f position) :
    Ensures (t.Coherent lib) (it.load lib i >>= fun it => it.onBlock f)
      (Follows t parts · (c.load i position)) := by
  have hload : Ensures (t.Coherent lib) (it.load lib i) (Follows t parts ·
      { c with idx := i, inner := some ⟨parts[i].entries, parts[i].entries.length⟩ }) := by
    unfold TableIter.load
    rw [htable]
    refine (hs.load i hi).bind fun block hblock =>
      .pure ⟨rfl, hparts, rfl, .some ⟨block, hblock, ?_⟩, fun _ => hparts ▸ hi⟩
    exact BlockIter.new_eq hblock
  refine hload.bind fun it hit => ?_
  have hpos := @Follows.onBlock lib _ _ _ _ _ _ hit hacts rfl
  have heq : c.load i position =
      { c with
        idx := i
        inner := some (position ⟨parts[i].entries, parts[i].entries.length⟩) } := by
    unfold Concat.load
    rw [hparts, List.getElem?_eq_getElem hi]
    rfl
  rw [heq]
  exact hpos

/-- Without a block the iterator is where a cursor without a part is. -/
theorem Follows.dropped (h : Follows t parts it c) :
    Follows t parts { it with bi := none } { c with inner := c.inner.bind (Part.atEnd Chunk) } := by
  have hnone : c.inner.bind (Part.atEnd Chunk) = none := by cases c.inner <;> rfl
  rw [hnone]
  exact ⟨h.table, h.parts, h.idx, .none, fun hopen => nomatch hopen⟩

theorem Follows.skipForward (hs : Serves lib t parts) (h : Follows t parts it c) :
    Ensures (t.Coherent lib) (it.skipForward lib) (Follows t parts · c.skipForward) := by
  have hvalid := h.valid_eq
  unfold TableIter.skipForward Concat.skipForward
  by_cases hcur : c.current.isSome = true
  · rw [if_pos (hvalid.trans hcur), if_pos hcur]
    exact .pure h
  · have hnext : it.idx + 1 < it.t.index.blocks.length ↔ c.idx + 1 < c.parts.length := by
      rw [h.table, hs.count, h.parts, h.idx]
    rw [if_neg (fun hv => hcur (hvalid.symm.trans hv)), if_neg hcur]
    by_cases hlt : c.idx + 1 < c.parts.length
    · rw [if_pos (hnext.mpr hlt), if_pos hlt, h.idx]
      exact Follows.load hs h.table h.parts (h.parts ▸ hlt) acts_seekToFirst
    · rw [if_neg (fun hv => hlt (hnext.mp hv)), if_neg hlt]
      exact .pure h.dropped

theorem Follows.skipBack (hs : Serves lib t parts) (h : Follows t parts it c)
    (hopen : c.inner.isSome = true) :
    Ensures (t.Coherent lib) (it.skipBack lib) (Follows t parts · c.skipBack) := by
  have hvalid := h.valid_eq
  unfold TableIter.skipBack Concat.skipBack
  by_cases hcur : c.current.isSome = true
  · rw [if_pos (hvalid.trans hcur), if_pos hcur]
    exact .pure h
  · have hinside := h.inside hopen
    have hidx' := h.idx
    rw [h.parts] at hinside
    rw [if_neg (fun hv => hcur (hvalid.symm.trans hv)), if_neg hcur]
    by_cases hpos : 0 < c.idx
    · rw [if_pos (hidx'.symm ▸ hpos), if_pos hpos, hidx']
      exact Follows.load hs h.table h.parts (by omega) acts_seekToLast
    · rw [if_neg (hidx'.symm ▸ hpos), if_neg hpos]
      exact .pure h.dropped

/-! ### Every operation -/

theorem Follows.seekToFirst (hs : Serves lib t parts) (hne : parts ≠ [])
    (h : Follows t parts it c) :
    Ensures (t.Coherent lib) (it.seekToFirst lib) (Follows t parts · (Cursors.seekToFirst c)) :=
  Follows.load hs h.table h.parts (List.length_pos_of_ne_nil hne) acts_seekToFirst

theorem Follows.seekToLast (hs : Serves lib t parts) (hne : parts ≠ []) (h : Follows t parts it c) :
    Ensures (t.Coherent lib) (it.seekToLast lib) (Follows t parts · (Cursors.seekToLast c)) := by
  have hpos := List.length_pos_of_ne_nil hne
  show Ensures _ _ (Follows t parts · (c.load (c.parts.length - 1) Cursors.seekToLast))
  unfold TableIter.seekToLast
  rw [h.table, hs.count, h.parts]
  exact Follows.load hs h.table h.parts (by omega) acts_seekToLast

theorem Follows.seek (hs : Serves lib t parts) (ikey : Bytes) (h : Follows t parts it c) :
    Ensures (t.Coherent lib) (it.seek lib ikey)
      (Follows t parts · (Cursors.seek (ikeyOrder ikey) c)) := by
  show Ensures _ _ (Follows t parts · (Concat.seek (ikeyOrder ikey) c))
  unfold TableIter.seek Concat.seek
  refine (Ensures.ofResult (by rw [h.table, hs.lower]) rfl).bind fun bi hbi => ?_
  rw [h.table, hs.count, h.parts, hbi]
  simp only
  split
  · exact .pure ⟨rfl, rfl, h.idx, .none, fun hopen => nomatch hopen⟩
  · rename_i hlt
    rw [← bind_assoc]
    refine (Follows.load hs h.table h.parts (not_le.mp hlt) (acts_seek ikey)).bind fun it hit => ?_
    exact hit.skipForward hs

theorem Follows.seekForPrev (hs : Serves lib t parts) (hne : parts ≠ []) (ikey : Bytes)
    (h : Follows t parts it c) :
    Ensures (t.Coherent lib) (it.seekForPrev lib ikey)
      (Follows t parts · (Cursors.seekForPrev (ikeyOrder ikey) c)) := by
  show Ensures _ _ (Follows t parts · (Concat.seekForPrev (ikeyOrder ikey) c))
  unfold TableIter.seekForPrev Concat.seekForPrev
  refine (Ensures.ofResult (by rw [h.table, hs.lower]) rfl).bind fun bi hbi => ?_
  rw [h.table, hs.count, h.parts, hbi]
  simp only
  split
  · exact h.seekToLast hs hne
  · rename_i hlt
    rw [← bind_assoc]
    refine (Follows.load hs h.table h.parts (not_le.mp hlt) (acts_seekForPrev ikey)).bind
      fun it hit => ?_
    refine hit.skipBack hs ?_
    unfold Concat.load
    rw [h.parts, List.getElem?_eq_getElem (not_le.mp hlt)]
    rfl

theorem Follows.next (hs : Serves lib t parts) (h : Follows t parts it c)
    (hcur : (current c).isSome = true) :
    Ensures (t.Coherent lib) (it.next lib) (Follows t parts · (Cursors.next c)) := by
  have hopen : c.inner.isSome = true := Option.isSome_of_isSome_bind hcur
  exact (h.onBlock acts_next hopen).bind fun it hit => hit.skipForward hs

theorem Follows.prev (hs : Serves lib t parts) (h : Follows t parts it c)
    (hcur : (current c).isSome = true) :
    Ensures (t.Coherent lib) (it.prev lib) (Follows t parts · (Cursors.prev c)) := by
  have hopen : c.inner.isSome = true := Option.isSome_of_isSome_bind hcur
  refine (h.onBlock acts_prev hopen).bind fun it hit => hit.skipBack hs ?_
  rwa [Option.isSome_map]

/-! ### Walks -/

/-- **A walk** takes what the cursor shows. -/
theorem Follows.collect {step : TableIter → Cached TableIter}
    {move : Concat Chunk ChunkIter → Concat Chunk ChunkIter}
    (hstep : ∀ it c, Follows t parts it c → (current c).isSome = true →
      Ensures (t.Coherent lib) (step it) (Follows t parts · (move c)))
    (h : Follows t parts it c) {l : List RawEntry} (hshow : Shows current move c l) {turns : ℕ}
    (hturns : l.length ≤ turns) : Ensures (t.Coherent lib) (TableIter.collect step turns it)
      (· = l) := by
  induction l generalizing it c turns with
  | nil =>
    have hcur : current c = none := hshow
    have hvalid : it.valid = false := by
      rw [h.valid_eq, hcur]
      rfl
    unfold TableIter.collect
    rw [if_pos hvalid]
    exact .pure rfl
  | cons e l ih =>
    obtain ⟨turns, rfl⟩ := Nat.exists_eq_succ_of_ne_zero (Nat.ne_zero_of_lt hturns)
    have hcur : (current c).isSome = true := by
      rw [hshow.1]
      rfl
    have hvalid : ¬ it.valid = false := by
      rw [h.valid_eq, hcur]
      exact Bool.noConfusion
    -- the entry under the cursor is collected before the step
    obtain ⟨hikey, hvalue⟩ := h.entry_eq hshow.1
    unfold TableIter.collect
    rw [if_neg hvalid]
    refine (Ensures.ofResult_eq hikey).bind fun ikey hikey => ?_
    refine (Ensures.ofResult_eq hvalue).bind fun value hvalue => ?_
    refine (hstep it c h hcur).bind fun it hit => ?_
    refine (ih hit hshow.2 (Nat.le_of_succ_le_succ hturns)).bind fun rest hrest => .pure ?_
    rw [hikey, hvalue, hrest]

/-! ### The table that was built -/

section

variable {compression : Compression} {bits : ℕ} {cs : List (List RawEntry)}

/-- The offsets of the data blocks. -/
theorem indexOf_offs (lib : Codecs) (compression : Compression) (off : ℕ)
    (cs : List (List RawEntry)) :
    (∀ e ∈ indexOf lib compression off cs,
      off ≤ e.2.off ∧ e.2.off < off + (dataBytes lib compression cs).length) ∧
    SortedBy (fun e : Bytes × BlockRef => e.2.off) (indexOf lib compression off cs) := by
  induction cs generalizing off with
  | nil => exact ⟨fun e he => absurd he List.not_mem_nil, List.Pairwise.nil⟩
  | cons c cs ih =>
    obtain ⟨hbounds, hsorted⟩ := ih (off + (storedBlock lib compression (blockPayload c)).length)
    have hpos : 0 < (storedBlock lib compression (blockPayload c)).length := by
      rw [length_storedBlock]
      exact Nat.add_pos_right _ (by decide)
    have hlen : (dataBytes lib compression (c :: cs)).length =
        (storedBlock lib compression (blockPayload c)).length +
          (dataBytes lib compression cs).length := by
      rw [dataBytes, List.flatMap_cons, List.length_append]
      rfl
    refine ⟨fun e he => ?_, List.pairwise_cons.mpr ⟨fun e he => ?_, hsorted⟩⟩
    · rcases List.mem_cons.mp he with rfl | he
      · show off ≤ off ∧ off < _
        omega
      · have hbound := hbounds e he
        omega
    · have hbound := hbounds e he
      show off < e.2.off
      omega

theorem sorted_refs (lib : Codecs) (compression : Compression) (bits : ℕ)
    (cs : List (List RawEntry)) (id : ℕ) :
    SortedBy BlockRef.off (opened lib compression bits cs id).refs := by
  obtain ⟨hbounds, hsorted⟩ := indexOf_offs lib compression 0 cs
  refine List.pairwise_append.mpr
    ⟨List.pairwise_map.mpr hsorted, List.pairwise_singleton _ _, fun r hr r' hr' => ?_⟩
  obtain ⟨e, he, rfl⟩ := List.mem_map.mp hr
  rw [List.mem_singleton.mp hr']
  show e.2.off < (dataBytes lib compression cs).length
  have hbound := hbounds e he
  omega

/-- **A table that was built serves its blocks.** -/
theorem serves_opened (hlib : lib.Inverts) {parts : List Chunk}
    (hparts : parts.map Chunk.entries = cs)
    (hwf : ∀ e ∈ cs.flatten, e.WellFormed) (h : Fits lib compression bits cs) (id : ℕ) :
    Serves lib (opened lib compression bits cs id) parts := by
  have hlen : cs.length = parts.length := by rw [← hparts, List.length_map]
  have hget : ∀ i (hi : i < parts.length) (hi' : i < cs.length), cs[i] = parts[i].entries := by
    intro i hi hi'
    subst hparts
    exact List.getElem_map _
  have hcount : (opened lib compression bits cs id).index.blocks.length = parts.length := by
    show ((indexOf lib compression 0 cs).map Prod.snd).length = _
    rw [List.length_map, length_indexOf, hlen]
  -- the entry of a block has its last key, and the place behind the blocks before
  have hentry : ∀ i (hi : i < parts.length), (indexOf lib compression 0 cs)[i]? =
      some (lastIkey parts[i].entries,
        refAt lib compression (dataBytes lib compression (cs.take i)).length parts[i].entries) := by
    intro i hi
    rw [getElem?_indexOf 0 (hlen ▸ hi), Nat.zero_add, hget i hi (hlen ▸ hi)]
  refine ⟨hcount, fun target => ?_, fun i hi => ?_⟩
  · have hkey : ∀ i < parts.length,
        ((ofIndex (indexOf lib compression 0 cs)).key i).map
          (fun k => decide (ikeyOrder k < ikeyOrder target)) =
          .ok ((parts[i]?).any fun p => decide (Part.lastKey ChunkIter p < ikeyOrder target)) := by
      intro i hi
      have hi' : i < (indexOf lib compression 0 cs).length := by rwa [length_indexOf, hlen]
      have hfst := hentry i hi
      rw [List.getElem?_eq_getElem hi'] at hfst
      rw [key_ofIndex hi', Option.some.inj hfst, List.getElem?_eq_getElem hi]
      rfl
    unfold TableIndex.lowerBound
    rw [hcount]
    exact bisectE_eq hkey parts.length 0 le_rfl
  · have hblock : (opened lib compression bits cs id).index.blocks[i]? =
        some (refAt lib compression (dataBytes lib compression (cs.take i)).length
          parts[i].entries) := by
      show ((indexOf lib compression 0 cs).map Prod.snd)[i]? = _
      rw [List.getElem?_map, hentry i hi]
      rfl
    have hmem : parts[i].entries ∈ cs := hget i hi (hlen ▸ hi) ▸ List.getElem_mem _
    -- from the file the block is the one that was written
    have hread : readBlockVerified lib (opened lib compression bits cs id).file
        (refAt lib compression (dataBytes lib compression (cs.take i)).length parts[i].entries) =
          .ok (blockPayload parts[i].entries) := by
      refine read_block hlib (h.data _ hmem) ?_ rfl
      rw [← hget i hi (hlen ▸ hi)]
      exact tableBytes_split (hlen ▸ hi)
    have hdata := h.data _ hmem
    obtain ⟨b, hnew, hholds⟩ := holds_payload (by omega) fun e he =>
      (hwf e (List.mem_flatten.mpr ⟨_, hmem, he⟩)).length_ikey
    unfold Table.loadBlock
    refine (Ensures.ofResult_eq (by rw [getAt, hblock])).bind fun r hr => ?_
    rw [hr]
    -- and the cache has it, or no block at its place
    refine (Table.ensures_cached (sorted_refs lib compression bits cs id) ?_ hread).bind
      fun payload hpayload => ?_
    · exact List.mem_append_left _ (List.mem_of_getElem? hblock)
    · rw [hpayload]
      exact .ofResult hnew hholds

end

/-- The entries of a table in its parts. -/
theorem holds_chunks {parts : List Chunk}
    (hsorted : SortedBy RawEntry.key (parts.flatMap Chunk.entries)) :
    Concat.Holds (C := ChunkIter) parts Chunk.entries where
  covers p hp := ListCursor.covers ((List.pairwise_flatMap.mp hsorted).1 p hp) _
  last p _ := ⟨p.entries.getLast p.nonempty, List.getLast?_eq_some_getLast p.nonempty,
    congrArg ikeyOrder (lastIkey_eq p.nonempty)⟩
  atEnd _ _ := rfl
  sorted := hsorted

/-! ### Point lookups -/

/-- The first version of `k` at or below `s`, in the order of the table. -/
def newest (es : List RawEntry) (k : Bytes) (s : ℕ) : Option RawEntry :=
  es.find? fun e => decide (e.ukey = k ∧ e.seq ≤ s)

def RawEntry.kind (e : RawEntry) : ValueKind := if e.isTombstone then .delete else .put

theorem ikeyKind_eq {e : RawEntry} (h : e.WellFormed) : ikeyKind e.ikey = .ok e.kind := by
  obtain ⟨kind, hkind, -⟩ := h.parts
  rw [hkind, RawEntry.kind, isTombstone_eq hkind]
  cases kind <;> rfl

/-- A seek target stands at or before the versions of its key from the seqno down. -/
theorem seek_le_key {e : RawEntry} (h : e.WellFormed) {k : Bytes} {s : ℕ} (hs : s ≤ MAX_SEQNO) :
    ikeyOrder (makeSeekIkey k s) ≤ e.key ↔ k < e.ukey ∨ k = e.ukey ∧ e.seq ≤ s := by
  obtain ⟨kind, -, -, -, hkey⟩ := h.parts
  rw [ikeyOrder_makeSeekIkey k hs, hkey]
  exact seek_le_iff (e := ⟨e.ukey, e.seq, kind, .empty⟩)

theorem ukey_le_of_key_lt {e f : RawEntry} (h : e.key < f.key) : e.ukey ≤ f.ukey := by
  rcases Prod.Lex.lt_iff.mp h with h | ⟨h, -⟩
  · exact le_of_lt h
  · exact le_of_eq h

/-- The entry at the seek target is the one looked for, if it has the key. -/
theorem newest_eq {es : List RawEntry} (hsorted : SortedBy RawEntry.key es)
    (hwf : ∀ e ∈ es, e.WellFormed) (k : Bytes) {s : ℕ} (hs : s ≤ MAX_SEQNO) :
    newest es k s =
      ((es.dropWhile fun e => decide (e.key < ikeyOrder (makeSeekIkey k s))).head?).filter
      fun e => decide (e.ukey = k) := by
  induction es with
  | nil => rfl
  | cons e es ih =>
    obtain ⟨hlater, hrest⟩ := List.pairwise_cons.mp hsorted
    have hle := seek_le_key (hwf e List.mem_cons_self) (k := k) hs
    unfold newest at ih ⊢
    by_cases hbefore : e.key < ikeyOrder (makeSeekIkey k s)
    · have hno : ¬ (e.ukey = k ∧ e.seq ≤ s) :=
        fun h => absurd (hle.mpr (Or.inr ⟨h.1.symm, h.2⟩)) (not_le_of_gt hbefore)
      rw [List.find?_cons_of_neg (by simpa using hno), List.dropWhile_cons_of_pos
        (by simpa using hbefore)]
      exact ih hrest fun f hf => hwf f (List.mem_cons_of_mem _ hf)
    · rw [List.dropWhile_cons_of_neg (by simpa using hbefore), List.head?_cons]
      rcases hle.mp (not_lt.mp hbefore) with hlt | ⟨heq, hseq⟩
      · -- the entry is past the key, and so are all later ones
        have hne : e.ukey ≠ k := (ne_of_lt hlt).symm
        rw [Option.filter_some_neg (by simpa using hne), List.find?_eq_none]
        intro f hf
        have hpast : k < f.ukey := by
          rcases List.mem_cons.mp hf with rfl | hf
          · exact hlt
          · exact lt_of_lt_of_le hlt (ukey_le_of_key_lt (hlater f hf))
        simpa using fun hk => absurd hk (ne_of_lt hpast).symm
      · rw [Option.filter_some_pos (by simpa using heq.symm), List.find?_cons_of_pos
          (by simpa using ⟨heq.symm, hseq⟩)]

/-- What is found answers for the entries of the table. -/
theorem answers_newest {es : List RawEntry} (hsorted : SortedBy RawEntry.key es)
    (hwf : ∀ e ∈ es, e.WellFormed) (k : Bytes) (s : ℕ) : Answers es k s (newest es k s) := by
  unfold newest
  cases hfind : es.find? (fun e => decide (e.ukey = k ∧ e.seq ≤ s)) with
  | none =>
    intro f hf hk
    have hno := List.find?_eq_none.mp hfind f hf
    by_contra hle
    exact hno (decide_eq_true ⟨hk, not_lt.mp hle⟩)
  | some e =>
    obtain ⟨hp, pre, post, rfl, hpre⟩ := List.find?_eq_some_iff_append.mp hfind
    obtain ⟨hk, hs⟩ := of_decide_eq_true hp
    refine ⟨by simp, hk, hs, fun f hf hfk hfs => ?_⟩
    rcases List.mem_append.mp hf with hf | hf
    · have hno := hpre f hf
      simp only [Bool.not_eq_true', decide_eq_false_iff_not] at hno
      exact absurd ⟨hfk, hfs⟩ hno
    · rcases List.mem_cons.mp hf with rfl | hf'
      · exact le_rfl
      · have hlt := (List.pairwise_cons.mp (List.pairwise_append.mp hsorted).2.1).1 f hf'
        obtain ⟨kind, -, -, -, hkey⟩ := (hwf e (by simp)).parts
        obtain ⟨kind', -, -, -, hkey'⟩ := (hwf f (by simp [hf'])).parts
        rw [hkey, hkey'] at hlt
        exact seq_ge_of_ikey_lt (e := ⟨e.ukey, e.seq, kind, .empty⟩)
          (f := ⟨f.ukey, f.seq, kind', .empty⟩) hlt (hk.trans hfk.symm)

/-- **The filtered lookup.** -/
theorem ensures_get (hs : Serves lib t parts)
    (hsorted : SortedBy RawEntry.key (parts.flatMap Chunk.entries))
    (hwf : ∀ e ∈ parts.flatMap Chunk.entries, e.WellFormed) {k : Bytes} {s : ℕ}
    (hle : s ≤ MAX_SEQNO)
    (hmay : Ensures (t.Coherent lib) (t.mayContainUkey lib k)
      fun b => (∃ e ∈ parts.flatMap Chunk.entries, e.ukey = k) → b = true) :
    Ensures (t.Coherent lib) (t.get lib k s)
      (· = (newest (parts.flatMap Chunk.entries) k s).map fun e => (e.kind, e.seq, e.repr)) := by
  have hnewest := newest_eq hsorted hwf k hle
  have hcut := (holds_chunks hsorted).dropWhile_eq (ikeyOrder (makeSeekIkey k s))
  unfold Table.get
  refine hmay.bind fun b hb => ?_
  split
  · -- the range or the filter excludes the key
    rename_i hfalse
    have hnone : newest (parts.flatMap Chunk.entries) k s = none := by
      refine List.find?_eq_none.mpr fun e he hp => ?_
      have htrue := hb ⟨e, he, (of_decide_eq_true hp).1⟩
      rw [hfalse] at htrue
      exact nomatch htrue
    rw [hnone]
    exact .pure rfl
  · refine (Ensures.ofResult_eq (hs.lower _)).bind fun bi hbi => ?_
    rw [← hbi] at hcut
    rw [hs.count]
    split
    · rename_i hlen
      rw [List.getElem?_eq_none hlen] at hcut
      change (parts.flatMap Chunk.entries).dropWhile
        (fun e => decide (e.key < ikeyOrder (makeSeekIkey k s))) = [] at hcut
      rw [hnewest, hcut]
      exact .pure rfl
    · rename_i hlen
      have hlt := not_le.mp hlen
      rw [List.getElem?_eq_getElem hlt] at hcut
      obtain ⟨hne, hdrop⟩ := hcut
      have hpart : SortedBy RawEntry.key parts[bi].entries :=
        (List.pairwise_flatMap.mp hsorted).1 _ (List.getElem_mem hlt)
      -- the entry at the lower bound of the block
      have hlower := ListCursor.getElem?_lowerBound hpart (ikeyOrder (makeSeekIkey k s))
      obtain ⟨e, rest, hcons⟩ := List.exists_cons_of_ne_nil hne
      change parts[bi].entries.dropWhile (fun e => decide (e.key < ikeyOrder (makeSeekIkey k s))) =
        e :: rest at hcons
      change (parts.flatMap Chunk.entries).dropWhile
        (fun e => decide (e.key < ikeyOrder (makeSeekIkey k s))) =
        parts[bi].entries.dropWhile (fun e => decide (e.key < ikeyOrder (makeSeekIkey k s))) ++
          _ at hdrop
      rw [hcons] at hlower hdrop
      rw [hdrop, List.cons_append, List.head?_cons] at hnewest
      obtain ⟨hi, hget⟩ := List.getElem?_eq_some_iff.mp hlower
      refine (hs.load bi hlt).bind fun block hblock => ?_
      refine (Ensures.ofResult_eq (hblock.lowerBound_eq _)).bind fun i hi' => ?_
      rw [if_neg (by rw [hblock.count, hi']; exact not_le.mpr hi)]
      refine (Ensures.ofResult_eq (a := e) (by rw [hi', hblock.entry _ hi, hget])).bind
        fun f hf => ?_
      rw [hf]
      have hmem : e ∈ parts.flatMap Chunk.entries :=
        List.mem_flatMap.mpr ⟨_, List.getElem_mem hlt, hget ▸ List.getElem_mem hi⟩
      by_cases hk : ikeyUkey e.ikey = k
      · have hukey : e.ukey = k := hk
        rw [if_neg (not_not.mpr hk), hnewest, Option.filter_some_pos (by simpa using hukey)]
        refine (Ensures.ofResult_eq (ikeyKind_eq (hwf e hmem))).bind fun kind hkind => .pure ?_
        rw [hkind]
        rfl
      · have hukey : e.ukey ≠ k := hk
        rw [if_pos hk, hnewest, Option.filter_some_neg (by simpa using hukey)]
        exact .pure rfl

theorem le_of_sorted {es : List RawEntry} (h : SortedBy RawEntry.key es) {e : RawEntry}
    (he : e ∈ es) :
    (∀ f, es.head? = some f → f.ukey ≤ e.ukey) ∧ ∀ f, es.getLast? = some f → e.ukey ≤ f.ukey := by
  refine ⟨fun f hf => ?_, fun f hf => ?_⟩
  · obtain ⟨l, rfl⟩ := List.head?_eq_some_iff.mp hf
    rcases List.mem_cons.mp he with rfl | he
    · exact le_rfl
    · exact ukey_le_of_key_lt ((List.pairwise_cons.mp h).1 e he)
  · obtain ⟨l, rfl⟩ := List.getLast?_eq_some_iff.mp hf
    rcases List.mem_append.mp he with he | he
    · exact ukey_le_of_key_lt ((List.pairwise_append.mp h).2.2 e he f (List.mem_singleton_self _))
    · rw [List.mem_singleton.mp he]

/-- **No false negatives**, through the cache. -/
theorem ensures_mayContain {es : List RawEntry} {bits : ℕ} (hsorted : SortedBy RawEntry.key es)
    (hstats : t.stats.Describes es) (hoffs : SortedBy BlockRef.off t.refs)
    (hfilter : readBlockVerified lib t.file t.filter = .ok (Filter.build (hashesOf es).1 bits))
    (k : Bytes) :
    Ensures (t.Coherent lib) (t.mayContainUkey lib k) fun b => (∃ e ∈ es, e.ukey = k) →
      b = true := by
  unfold Table.mayContainUkey
  split
  · rename_i hout
    refine .pure ?_
    rintro ⟨e, he, rfl⟩
    obtain ⟨hmin, hmax⟩ := le_of_sorted hsorted he
    obtain ⟨first, hfirst, hfirst'⟩ := Option.map_eq_some_iff.mp hstats.firstIkey
    obtain ⟨last, hlast, hlast'⟩ := Option.map_eq_some_iff.mp hstats.lastIkey
    have hminUkey : t.stats.minUkey = first.ukey := congrArg ikeyUkey hfirst'.symm
    have hmaxUkey : t.stats.maxUkey = last.ukey := congrArg ikeyUkey hlast'.symm
    rcases hout with hlt | hlt
    · exact absurd (hmin first hfirst) (not_le_of_gt (hminUkey ▸ hlt))
    · exact absurd (hmax last hlast) (not_le_of_gt (hmaxUkey ▸ hlt))
  · refine (Table.ensures_cached hoffs (List.mem_append_right _ (List.mem_singleton_self _))
      hfilter).bind fun filter hf => .pure ?_
    rintro ⟨e, he, rfl⟩
    rw [hf]
    exact Filter.mayContain_build bits ((hash_mem es).2 e he)

/-! ### The round trip -/

/-- The codec byte of a block in the file. -/
def codecOf (file : Bytes) (r : BlockRef) : Option Byte := file[r.off + r.len - BLOCK_TRAILER_LEN]?

/-- A table that reads as the entries it was built from. -/
structure RoundTrip (lib : Codecs) (file : Bytes) (t : Table) (es : List RawEntry) : Prop where
  stats : t.stats.Describes es
  /-- Whatever the cache holds of other tables. -/
  fresh : ∀ cache, (∀ off payload, ¬ cache.Has (t.id, off) payload) → t.Coherent lib cache
  forward : Ensures (t.Coherent lib)
    (t.iter.seekToFirst lib >>= TableIter.collect (TableIter.next lib) es.length) (· = es)
  backward : Ensures (t.Coherent lib)
    (t.iter.seekToLast lib >>= TableIter.collect (TableIter.prev lib) es.length) (· = es.reverse)
  seek : ∀ target, Ensures (t.Coherent lib)
    (t.iter.seek lib target >>= TableIter.collect (TableIter.next lib) es.length)
    (· = es.dropWhile fun e => decide (e.key < ikeyOrder target))
  seekForPrev : ∀ target, Ensures (t.Coherent lib)
    (t.iter.seekForPrev lib target >>= TableIter.collect (TableIter.prev lib) es.length)
    (· = (es.takeWhile fun e => decide (e.key ≤ ikeyOrder target)).reverse)
  get : ∀ k s, s ≤ MAX_SEQNO → Answers es k s (newest es k s) ∧
    Ensures (t.Coherent lib) (t.get lib k s)
      (· = (newest es k s).map fun e => (e.kind, e.seq, e.repr))
  mayContain : ∀ e ∈ es, Ensures (t.Coherent lib) (t.mayContainUkey lib e.ukey) (· = true)
  format : ∃ footer, Footer.decode (file.drop (file.length - FOOTER_LEN)) = .ok footer ∧
    (footer.format = FORMAT ∨ footer.format = FORMAT_COMPRESSED) ∧
    (footer.format = FORMAT ↔
      ∀ r ∈ t.index.blocks ++ [footer.filter, footer.index, footer.stats], codecOf file r = some
        (byte CODEC_NONE))

section

variable {compression : Compression} {bits : ℕ} {cs : List (List RawEntry)}

/-- The codec byte of a block that was written. -/
theorem codecOf_block {payload file pre : Bytes} {r : BlockRef}
    (hfits : payload.length + BLOCK_TRAILER_LEN < 2 ^ 32)
    (hfile : ∃ post, file = pre ++ (storedBlock lib compression payload ++ post))
    (hr : r = ⟨pre.length, (storedBlock lib compression payload).length % 2 ^ 32⟩) :
    codecOf file r = some (byte (pack lib payload compression).1) := by
  obtain ⟨post, rfl⟩ := hfile
  have hat : pre.length + (storedBlock lib compression payload).length - BLOCK_TRAILER_LEN =
      pre.length + (pack lib payload compression).2.length := by
    rw [length_storedBlock]
    omega
  unfold codecOf
  rw [hr, mod_storedBlock lib compression hfits, hat, List.getElem?_append_right
    (Nat.le_add_right _ _),
    Nat.add_sub_cancel_left, storedBlock, List.append_assoc, List.append_assoc,
      List.getElem?_append_right le_rfl,
    Nat.sub_self]
  rfl

theorem byte_codec (lib : Codecs) (payload : Bytes) (compression : Compression) :
    byte (pack lib payload compression).1 = byte CODEC_NONE ↔
      (pack lib payload compression).1 = CODEC_NONE := by
  cases compression with
  | none => exact ⟨fun _ => rfl, fun _ => rfl⟩
  | lz4 =>
    unfold pack
    simp only
    split
    · exact ⟨fun h => absurd h (show byte CODEC_LZ4 ≠ byte CODEC_NONE by decide),
        fun h => absurd h (show CODEC_LZ4 ≠ CODEC_NONE by decide)⟩
    · exact ⟨fun _ => rfl, fun _ => rfl⟩

/-- **The plain format** is that of a file whose blocks are all stored raw. -/
theorem format_eq_iff (h : Fits lib compression bits cs) (id : ℕ) :
    (tableFooter lib compression bits cs).format = FORMAT ↔
      ∀ r ∈ (opened lib compression bits cs id).index.blocks ++
          [(tableFooter lib compression bits cs).filter,
            (tableFooter lib compression bits cs).index,
            (tableFooter lib compression bits cs).stats],
        codecOf (tableBytes lib compression bits cs) r = some (byte CODEC_NONE) := by
  -- filter and stats are never packed
  have hfilter : codecOf (tableBytes lib compression bits cs)
      (tableFooter lib compression bits cs).filter = some (byte CODEC_NONE) := by
    refine codecOf_block h.filter ?_ rfl
    unfold tableBytes tableBlocks filterBlock
    simp only [List.append_assoc]
    exact ⟨_, rfl⟩
  have hstats : codecOf (tableBytes lib compression bits cs)
      (tableFooter lib compression bits cs).stats = some (byte CODEC_NONE) := by
    refine codecOf_block h.stats ?_ rfl
    unfold tableBytes tableBlocks statsBlock
    simp only [List.append_assoc]
    exact ⟨_, rfl⟩
  have hindex : codecOf (tableBytes lib compression bits cs)
      (tableFooter lib compression bits cs).index =
      some (byte (pack lib (indexPayload (indexOf lib compression 0 cs)) compression).1) := by
    refine codecOf_block h.index ?_ rfl
    unfold tableBytes tableBlocks indexBlock
    simp only [List.append_assoc]
    exact ⟨_, rfl⟩
  have hdata : ∀ i (hi : i < cs.length),
      (opened lib compression bits cs id).index.blocks[i]? =
          some (refAt lib compression (dataBytes lib compression (cs.take i)).length cs[i]) ∧
        codecOf (tableBytes lib compression bits cs)
          (refAt lib compression (dataBytes lib compression (cs.take i)).length cs[i]) =
            some (byte (pack lib (blockPayload cs[i]) compression).1) := by
    intro i hi
    refine ⟨?_, codecOf_block (h.data _ (List.getElem_mem hi)) (tableBytes_split hi) rfl⟩
    show ((indexOf lib compression 0 cs).map Prod.snd)[i]? = _
    rw [List.getElem?_map, getElem?_indexOf 0 hi, Nat.zero_add]
    rfl
  -- the footer has the format that the writer noted
  have hformat : (tableFooter lib compression bits cs).format = FORMAT ↔
      wroteCompressed lib compression cs = false := by
    unfold tableFooter
    cases wroteCompressed lib compression cs with
    | false => exact ⟨fun _ => rfl, fun _ => rfl⟩
    | true => exact ⟨fun hf => absurd hf (show FORMAT_COMPRESSED ≠ FORMAT by decide),
      fun hf => nomatch hf⟩
  rw [hformat, wroteCompressed, Bool.or_eq_false_iff, anyCompressed, List.any_eq_false]
  constructor
  · rintro ⟨hall, hlast⟩ r hr
    rcases List.mem_append.mp hr with hr | hr
    · obtain ⟨i, hi, hget⟩ := List.getElem_of_mem hr
      have hi' : i < cs.length := by
        rwa [show (opened lib compression bits cs id).index.blocks.length = cs.length by
          show ((indexOf lib compression 0 cs).map Prod.snd).length = _
          rw [List.length_map, length_indexOf]] at hi
      obtain ⟨hblock, hcodec⟩ := hdata i hi'
      rw [List.getElem?_eq_getElem hi, hget] at hblock
      have hraw : (pack lib (blockPayload cs[i]) compression).1 = CODEC_NONE := by
        simpa using hall cs[i] (List.getElem_mem hi')
      rw [Option.some.inj hblock, hcodec, hraw]
    · have hraw : (pack lib (indexPayload (indexOf lib compression 0 cs)) compression).1 =
        CODEC_NONE := by
        simpa using hlast
      rw [hraw] at hindex
      rcases List.mem_cons.mp hr with rfl | hr
      · exact hfilter
      · rcases List.mem_cons.mp hr with rfl | hr
        · exact hindex
        · rw [List.mem_singleton.mp hr]
          exact hstats
  · intro hall
    refine ⟨fun c hc => ?_, ?_⟩
    · obtain ⟨i, hi, rfl⟩ := List.getElem_of_mem hc
      obtain ⟨hblock, hcodec⟩ := hdata i hi
      rw [hall _ (List.mem_append_left _ (List.mem_of_getElem? hblock))] at hcodec
      simpa using (byte_codec lib _ compression).mp (Option.some.inj hcodec).symm
    · rw [hall _ (List.mem_append_right _ (by simp))] at hindex
      simpa using (byte_codec lib _ compression).mp (Option.some.inj hindex).symm

end

theorem Table.iter_follows (t : Table) (parts : List Chunk) :
    Follows t parts t.iter ⟨parts, 0, none⟩ :=
  ⟨rfl, rfl, rfl, .none, fun h => nomatch h⟩

/-- The blocks of a table with their entries. -/
def chunkParts (blockSize : ℕ) (es : List RawEntry) : List Chunk :=
  (chunks blockSize es).pmap Chunk.mk fun _ hc => chunks_ne_nil hc

theorem entries_chunkParts (blockSize : ℕ) (es : List RawEntry) :
    (chunkParts blockSize es).map Chunk.entries = chunks blockSize es := by
  unfold chunkParts
  rw [List.map_pmap]
  exact (List.pmap_eq_map _).trans (List.map_id _)

/-- **Table round trip.** -/
theorem table_round_trip {lib : Codecs} (hlib : lib.Inverts) (blockSize bits : ℕ)
    (compression : Compression) {es : List RawEntry} (hne : es ≠ []) (hwf : ∀ e ∈ es, e.WellFormed)
    (hsorted : SortedBy RawEntry.key es)
    (hfits : Fits lib compression bits (chunks blockSize es)) (id : ℕ) :
    ∃ stats file t, buildTable lib blockSize bits compression es = .ok (stats, file.length, file) ∧
      Table.openFile lib file id = .ok t ∧ t.stats = stats ∧ t.id = id ∧
      RoundTrip lib file t es := by
  have hflat := flatten_chunks blockSize es
  have hparts := entries_chunkParts blockSize es
  -- the chunks hold the entries, in order
  have hentries : (chunkParts blockSize es).flatMap Chunk.entries = es := by
    rw [List.flatMap_def, hparts, hflat]
  have hopened : opened lib compression bits (chunks blockSize es) id =
      ⟨id, tableBytes lib compression bits (chunks blockSize es),
        ofIndex (indexOf lib compression 0 (chunks blockSize es)),
        (tableFooter lib compression bits (chunks blockSize es)).filter, statsOf es⟩ := by
    unfold opened
    rw [hflat]
  -- the opened table serves each of its blocks, whatever the cache has
  have hserves := serves_opened hlib hparts (hflat.symm ▸ hwf) hfits id
  have hoffs := sorted_refs lib compression bits (chunks blockSize es) id
  have hstats : (opened lib compression bits (chunks blockSize es) id).stats.Describes es := by
    rw [hopened]
    exact describes_statsOf hne hwf
  have hfilter := read_filter hlib hfits
  rw [filterPayload, hflat] at hfilter
  have hopen := openFile_eq hlib (hflat.symm ▸ hne) (fun c hc => chunks_ne_nil hc)
    (hflat.symm ▸ hwf) hfits id
  have hmay := ensures_mayContain hsorted hstats hoffs hfilter
  -- so its iterator moves as the concatenation of the chunks does
  have hcovers : Covers (⟨chunkParts blockSize es, 0, none⟩ : Concat Chunk ChunkIter) es := by
    have hholds := holds_chunks (hentries.symm ▸ hsorted)
    have hconcat := Concat.covers_concat hholds 0 none
    rwa [hentries] at hconcat
  have hpne : chunkParts blockSize es ≠ [] := by
    intro hnil
    rw [hnil] at hentries
    exact hne hentries.symm
  have hfollows := Table.iter_follows (opened lib compression bits (chunks blockSize es) id)
    (chunkParts blockSize es)
  have hnext := fun it c (h : Follows (opened lib compression bits (chunks blockSize es) id)
    (chunkParts blockSize es) it c) =>
    h.next hserves
  have hprev := fun it c (h : Follows (opened lib compression bits (chunks blockSize es) id)
    (chunkParts blockSize es) it c) =>
    h.prev hserves
  refine ⟨statsOf es, _, _, build_eq lib compression blockSize bits hne hwf,
    hopen, by rw [hopened], rfl, hstats,
    fun cache => Table.coherent_of_not_has, ?_, ?_, fun target => ?_,
      fun target => ?_, fun k s hs => ?_, fun e he => ?_, ?_⟩
  · exact (hfollows.seekToFirst hserves hpne).bind fun it hit =>
      hit.collect hnext hcovers.first le_rfl
  · exact (hfollows.seekToLast hserves hpne).bind fun it hit =>
      hit.collect hprev hcovers.last (le_of_eq List.length_reverse)
  · exact (hfollows.seek hserves target).bind fun it hit =>
      hit.collect hnext (hcovers.seek (ikeyOrder target)) (List.dropWhile_sublist _).length_le
  · exact (hfollows.seekForPrev hserves hpne target).bind fun it hit =>
      hit.collect hprev (hcovers.seekForPrev (ikeyOrder target))
        ((le_of_eq List.length_reverse).trans (List.takeWhile_sublist _).length_le)
  · have hget := ensures_get hserves (hentries.symm ▸ hsorted) (hentries.symm ▸ hwf) hs (k := k)
      (hentries.symm ▸ hmay k)
    rw [hentries] at hget
    exact ⟨answers_newest hsorted hwf k s, hget⟩
  · intro cache hcache
    obtain ⟨b, cache', hrun, hcache', hb⟩ := hmay e.ukey hcache
    exact ⟨b, cache', hrun, hcache', hb ⟨e, he, rfl⟩⟩
  · obtain ⟨hlen, hread⟩ := read_footer lib compression bits (chunks blockSize es)
    refine ⟨tableFooter lib compression bits (chunks blockSize es), ?_, hfits.footerFits.format,
      format_eq_iff hfits id⟩
    have hdrop : (tableBytes lib compression bits (chunks blockSize es)).drop
        ((tableBytes lib compression bits (chunks blockSize es)).length - FOOTER_LEN) =
          (tableFooter lib compression bits (chunks blockSize es)).encode := by
      unfold tableBytes
      rw [List.length_append, length_footer, Nat.add_sub_cancel, List.drop_left]
    rw [hdrop]
    exact Footer.decode_encode hfits.footerFits

/-- A codec that leaves out three zeros at the end, as the restart count of a small
block has them. -/
def zeroTail : Codecs where
  crc32 := crc32
  compressPrependSize payload :=
    if payload.drop (payload.length - 3) = [0, 0, 0] then 1 :: payload.take (payload.length - 3)
    else 0 :: payload
  decompressSizePrepended
    | b :: rest => .ok (if b = 1 then rest ++ [0, 0, 0] else rest)
    | [] => .error "expected more bytes"

theorem inverts_zeroTail : zeroTail.Inverts := by
  intro payload
  unfold zeroTail
  by_cases htail : payload.drop (payload.length - 3) = [0, 0, 0]
  · simp only [if_pos htail]
    rw [← htail, if_pos trivial, List.take_append_drop]
  · simp only [if_neg htail]
    rw [if_neg (by decide)]

/-- Three versions of two keys, one of them deleted, in blocks of one entry, each of
them stored compressed. -/
theorem table_round_trip_three :
    let es : List RawEntry := [⟨makeIkey [97] 5 .put, [0, 120]⟩, ⟨makeIkey [97] 3 .delete, []⟩,
      ⟨makeIkey [97, 98] 4 .put, [0, 121]⟩]
    (chunks 16 es).map (fun c => (pack zeroTail (blockPayload c) .lz4).1) =
      [CODEC_LZ4, CODEC_LZ4, CODEC_LZ4] ∧
      ∃ stats file t, buildTable zeroTail 16 10 .lz4 es = .ok (stats, file.length, file) ∧
        Table.openFile zeroTail file 7 = .ok t ∧ t.stats = stats ∧ t.id = 7 ∧
        RoundTrip zeroTail file t es := by
  refine ⟨by decide +kernel, table_round_trip inverts_zeroTail 16 10 .lz4 (by simp) ?_ ?_ ?_ 7⟩
  · intro e he
    rcases List.mem_cons.mp he with rfl | he
    · exact ⟨[97], 5, .put, by decide, rfl⟩
    · rcases List.mem_cons.mp he with rfl | he
      · exact ⟨[97], 3, .delete, by decide, rfl⟩
      · rw [List.mem_singleton.mp he]
        exact ⟨[97, 98], 4, .put, by decide, rfl⟩
  · unfold SortedBy
    decide +kernel
  · exact ⟨by decide +kernel, by decide +kernel, by decide +kernel, by decide +kernel,
      by decide +kernel⟩

end Sst

end Fluent31
