/-
Reading table files and memtables (`block.rs`, `table/reader.rs`, `memtable.rs`,
`version.rs`).

A table file is a list of blocks with the last internal key of each in its
index; `BlockedTable` is a table with such a split of its versions.  A block is
searched by bisection, so are the index of a table and the fragments of a run;
the iterators of the three move over the versions in internal-key order.

* `covers_blockIter`, `covers_tableIter`, `covers_runIter`, `covers_memIter`,
  `BlockedSource.covers` — an iterator moves over exactly the versions of its
  source;
* `BlockedRun.cursor_laws` — the iterator of a run stands where an index into its
  versions does, after any calls;
* `BlockedTable.get_eq`, `BlockedRun.get_eq`, `Layout.getVersioned_eq` — a point
  lookup by bisection finds what the search over all versions finds.
-/
import Fluent31.Lib.Moves
import Fluent31.Version

namespace Fluent31

open Ordered Cursors

/-! ### Blocks -/

/-- Iterator over one block; `block.length` means invalid. -/
structure BlockIter where
  block : List Entry
  pos : ℕ

namespace BlockIter

/-- Index of the first entry at or after `target`. -/
def lowerBoundIdx (block : List Entry) (target : IKey) : ℕ :=
  partitionPoint (fun e => decide (e.ikey < target)) block

def new (block : List Entry) : BlockIter := ⟨block, block.length⟩

def seekToLast (it : BlockIter) : BlockIter :=
  { it with pos := if it.block.length = 0 then 0 else it.block.length - 1 }

def seek (target : IKey) (it : BlockIter) : BlockIter :=
  { it with pos := lowerBoundIdx it.block target }

def seekForPrev (target : IKey) (it : BlockIter) : BlockIter :=
  let lb := lowerBoundIdx it.block target
  if (it.block[lb]?).any fun e => decide (e.ikey = target) then { it with pos := lb }
  else { it with pos := if lb = 0 then it.block.length else lb - 1 }

def prev (it : BlockIter) : BlockIter :=
  { it with pos := if it.pos = 0 then it.block.length else it.pos - 1 }

instance : Cursor BlockIter Entry IKey where
  key := Entry.ikey
  seekToFirst it := { it with pos := 0 }
  seekToLast := seekToLast
  seek := seek
  seekForPrev := seekForPrev
  current it := it.block[it.pos]?
  next it := { it with pos := it.pos + 1 }
  prev := prev

/-- A block's iterator is a cursor over its list. -/
def ofList (it : ListCursor Entry.ikey) : BlockIter := ⟨it.list, it.pos⟩

theorem seekForPrev_ofList (target : IKey) (it : ListCursor Entry.ikey) :
    (ofList it).seekForPrev target = ofList (it.toPrev target) := by
  have hdec : (fun e : Entry =>
      @decide (e.ikey = target) (LinearOrder.toDecidableEq e.ikey target)) =
      fun e => decide (e.ikey = target) := funext fun e => decide_eq_decide.mpr Iff.rfl
  unfold seekForPrev ListCursor.toPrev lowerBoundIdx ListCursor.lowerBound ofList
  simp only [hdec]
  split <;> rfl

end BlockIter

/-- **Blocks.** -/
theorem covers_blockIter {block : List Entry} (h : Sorted block) (pos : ℕ) :
    Covers (⟨block, pos⟩ : BlockIter) block := by
  have hlist : Covers (⟨block, pos⟩ : ListCursor Entry.ikey) block := ListCursor.covers h pos
  exact hlist.map (f := BlockIter.ofList) rfl (fun _ => rfl) (fun _ => rfl) (fun _ => rfl) rfl rfl
    (fun _ => rfl) fun t => BlockIter.seekForPrev_ofList t ⟨block, pos⟩

theorem follows_blockIter {block : List Entry} (h : Sorted block) :
    Follows block (BlockIter.new block) none := by
  have hlist : Follows block (⟨block, block.length⟩ : ListCursor Entry.ikey) none := by
    have hplace := ListCursor.follows h block.length
    rwa [ListCursor.place_none le_rfl] at hplace
  refine hlist.map (f := BlockIter.ofList) rfl (fun _ => rfl) fun m it => ?_
  cases m with
  | seekForPrev t => exact BlockIter.seekForPrev_ofList t it
  | _ => rfl

/-! ### Tables -/

/-- A block with its entry in the index. -/
structure IndexedBlock where
  lastIkey : IKey
  entries : List Entry
  last : ∃ e, entries.getLast? = some e ∧ lastIkey = e.ikey

instance : Part IndexedBlock BlockIter Entry IKey where
  iter b := BlockIter.new b.entries
  lastKey := IndexedBlock.lastIkey
  -- an exhausted table iterator drops its block
  atEnd _ := none

/-- A table with the split of its versions over blocks. -/
structure BlockedTable where
  table : Table
  index : List IndexedBlock
  holds : index.flatMap IndexedBlock.entries = table.entries

abbrev TableIter := Concat IndexedBlock BlockIter

namespace BlockedTable

/-- The last key of the stats block. -/
def lastIkey (t : BlockedTable) : IKey := (t.table.entries.getLast t.table.nonempty).ikey

def iter (t : BlockedTable) : TableIter := ⟨t.index, 0, none⟩

/-- Newest version of `ukey` with seqno at most `seq` in this table: key range
and filter, then the one block that can hold it, then the block's entry. -/
def get (t : BlockedTable) (ukey : Bytes) (seq : ℕ) : Option Entry :=
  if t.table.mayContainUkey ukey then
    let target := makeSeekIkey ukey seq
    let bi := partitionPoint (fun b => decide (b.lastIkey < target)) t.index
    (t.index[bi]?).bind fun block =>
      (block.entries[BlockIter.lowerBoundIdx block.entries target]?).filter fun e =>
        decide (e.ukey = ukey)
  else none

end BlockedTable

theorem holds_blocks (t : BlockedTable) :
    Concat.Holds (C := BlockIter) t.index IndexedBlock.entries where
  covers b hb := covers_blockIter ((List.pairwise_flatMap.mp (t.holds ▸ t.table.sorted)).1 b hb) _
  last b _ := b.last
  atEnd _ _ := rfl
  sorted := t.holds ▸ t.table.sorted

/-- **Tables.** -/
theorem covers_tableIter (t : BlockedTable) : Covers t.iter t.table.entries :=
  t.holds ▸ Concat.covers_concat (holds_blocks t) 0 none

theorem follows_tableIter (t : BlockedTable) : Follows t.table.entries t.iter none := by
  rw [← t.holds]
  refine Concat.follows (holds_blocks t) (fun b hb => ?_) 0
  exact follows_blockIter ((List.pairwise_flatMap.mp (t.holds ▸ t.table.sorted)).1 b hb)

instance : Part BlockedTable TableIter Entry IKey where
  iter := BlockedTable.iter
  lastKey := BlockedTable.lastIkey
  -- an exhausted run iterator keeps its table's; the source drops it when a
  -- backward seek finds nothing, which shows no more
  atEnd := some

/-! ### Runs -/

structure BlockedRun where
  tables : List BlockedTable

abbrev RunIter := Concat BlockedTable TableIter

namespace BlockedRun

def entries (r : BlockedRun) : List Entry := r.tables.flatMap fun t => t.table.entries

def iter (r : BlockedRun) : RunIter := ⟨r.tables, 0, none⟩

/-- The single fragment that may contain `ukey`, if any. -/
def fragmentFor (r : BlockedRun) (ukey : Bytes) : Option BlockedTable :=
  let i := partitionPoint (fun t => decide (t.table.maxUkey < ukey)) r.tables
  (r.tables[i]?).filter fun t => decide (t.table.minUkey ≤ ukey)

def get (r : BlockedRun) (ukey : Bytes) (seq : ℕ) : Option Entry :=
  match r.fragmentFor ukey with
  | some t => t.get ukey seq
  | none => none

end BlockedRun

theorem holds_tables {r : BlockedRun} (h : Sorted r.entries) :
    Concat.Holds (C := TableIter) r.tables fun t => t.table.entries where
  covers t _ := covers_tableIter t
  last t _ := ⟨_, List.getLast?_eq_some_getLast t.table.nonempty, rfl⟩
  atEnd _ hc := hc
  sorted := h

/-- **Runs.** -/
theorem covers_runIter {r : BlockedRun} (h : Sorted r.entries) : Covers r.iter r.entries :=
  Concat.covers_concat (holds_tables h) 0 none

theorem follows_runIter {r : BlockedRun} (h : Sorted r.entries) : Follows r.entries r.iter none :=
  Concat.follows (holds_tables h) (fun t _ => follows_tableIter t) 0

/-- **Cursor laws.**  At every step of a sequence of calls, steps being made only
while the iterator is valid, the iterator of a run shows the version at the place
of an index into all versions of the run, and is valid while there is one. -/
theorem BlockedRun.cursor_laws {r : BlockedRun} (h : Sorted r.entries) {ms : List (Move IKey)}
    (hms : Move.Legal ms r.iter) (n : ℕ) :
    let it := Move.runAll (ms.take n) r.iter
    let place := Move.indexAll Entry.ikey r.entries (ms.take n) none
    current it = (place.bind fun i => r.entries[i]?) ∧
      ((current it).isSome = true ↔ place.isSome = true) := by
  have hrun := (follows_runIter h).run (hms.take n)
  exact ⟨hrun.shown, by rw [hrun.isSome_eq]; rfl⟩

/-- Two tables of a run, the first in two blocks. -/
def twoTables : BlockedRun :=
  let entry (k : Byte) : Entry := ⟨[k], 1, .put, .inline []⟩
  let block (k : Byte) : IndexedBlock := ⟨(entry k).ikey, [entry k], _, rfl, rfl⟩
  let passAll : Bloom := ⟨31, 8, []⟩
  ⟨[⟨⟨1, 0, [entry 1, entry 3], passAll, List.pairwise_pair.mpr (by decide +kernel),
    List.cons_ne_nil _ _,
        fun _ _ => rfl⟩, [block 1, block 3], rfl⟩,
    ⟨⟨2, 0, [entry 5], passAll, List.pairwise_singleton _ _, List.cons_ne_nil _ _, fun _ _ => rfl⟩,
      [block 5], rfl⟩]⟩

/-- Over the block boundary, out at the front and in again. -/
def throughTwoTables : List (Move IKey) :=
  [.seekForPrev (makeSeekIkey [4] 1), .next, .prev, .prev, .prev, .seek (makeSeekIkey [2] 1)]

theorem sorted_twoTables : Sorted twoTables.entries :=
  List.pairwise_cons.mpr ⟨by decide +kernel, List.pairwise_pair.mpr (by decide +kernel)⟩

theorem BlockedRun.cursor_laws_twoTables :
    Move.indexAll Entry.ikey twoTables.entries throughTwoTables none = some 1 ∧
      current (Move.runAll throughTwoTables twoTables.iter) = some ⟨[3], 1, .put, .inline []⟩ := by
  have hlegal : Move.Legal throughTwoTables twoTables.iter := by
    refine ⟨?_, ?_, ?_, ?_, ?_, ?_, trivial⟩ <;> decide +kernel
  have hplace : Move.indexAll Entry.ikey twoTables.entries throughTwoTables none = some 1 := by
    decide +kernel
  have hrun := (BlockedRun.cursor_laws sorted_twoTables hlegal throughTwoTables.length).1
  rw [List.take_length, hplace] at hrun
  exact ⟨hplace, hrun⟩

/-! ### Memtables -/

/-- An entry of the skip list, or nowhere. -/
structure MemIter where
  map : List Entry
  cur : Option Entry

namespace MemIter

instance : Cursor MemIter Entry IKey where
  key := Entry.ikey
  seekToFirst it := { it with cur := it.map.head? }
  seekToLast it := { it with cur := it.map.getLast? }
  seek target it := { it with cur := it.map.find? fun e => decide (target ≤ e.ikey) }
  seekForPrev target it := { it with cur := it.map.reverse.find? fun e => decide (e.ikey ≤ target) }
  current := MemIter.cur
  next it := { it with cur := it.cur.bind fun c => it.map.find? fun e => decide (c.ikey < e.ikey) }
  prev it :=
    { it with cur := it.cur.bind fun c => it.map.reverse.find? fun e => decide (e.ikey < c.ikey) }

variable {map : List Entry}

/-- The first element of a list of later elements. -/
theorem find_after {pre post : List Entry} (h : Sorted (pre ++ post)) {p : Entry → Bool}
    (hpre : ∀ e ∈ pre, p e = false) (hpost : ∀ e ∈ post, p e = true) :
    (pre ++ post).find? p = post.head? := by
  rw [List.find?_append, List.find?_eq_none.mpr fun e he => by simp [hpre e he], Option.none_or]
  cases post with
  | nil => rfl
  | cons e post => exact List.find?_cons_of_pos (hpost e List.mem_cons_self)

theorem shows_next (pre : List Entry) {post : List Entry} (h : Sorted (pre ++ post)) :
    Shows current Cursors.next (⟨pre ++ post, post.head?⟩ : MemIter) post := by
  induction post generalizing pre with
  | nil => rfl
  | cons e post ih =>
    refine ⟨rfl, ?_⟩
    have hsplit : pre ++ e :: post = (pre ++ [e]) ++ post := by simp
    have hnext : (pre ++ e :: post).find? (fun f => decide (e.ikey < f.ikey)) = post.head? := by
      rw [hsplit] at h ⊢
      obtain ⟨hpre, -, hcross⟩ := List.pairwise_append.mp h
      refine find_after h (fun f hf => decide_eq_false ?_) fun f hf => decide_eq_true ?_
      · rcases List.mem_append.mp hf with hf | hf
        · exact not_lt_of_gt ((List.pairwise_append.mp hpre).2.2 f hf e (List.mem_singleton_self _))
        · rw [List.mem_singleton.mp hf]
          exact lt_irrefl _
      · exact hcross e (List.mem_append_right _ (List.mem_singleton_self _)) f hf
    show Shows current Cursors.next (⟨pre ++ e :: post, (pre ++ e :: post).find? _⟩ : MemIter) post
    rw [hnext, hsplit]
    exact ih (pre ++ [e]) (hsplit ▸ h)

theorem shows_prev {pre : List Entry} (post : List Entry) (h : Sorted (pre ++ post)) :
    Shows current Cursors.prev (⟨pre ++ post, pre.getLast?⟩ : MemIter) pre.reverse := by
  generalize hrev : pre.reverse = back
  induction back generalizing pre post with
  | nil =>
    obtain rfl := List.reverse_eq_nil_iff.mp hrev
    rfl
  | cons e back ih =>
    obtain rfl : pre = back.reverse ++ [e] := by
      rw [← List.reverse_reverse pre, hrev, List.reverse_cons]
    have hsplit : back.reverse ++ [e] ++ post = back.reverse ++ e :: post := by simp
    rw [hsplit] at h ⊢
    refine ⟨by simp [current], ?_⟩
    -- the largest key below that of `e` is the one in front of it
    have hprev : (back.reverse ++ e :: post).reverse.find? (fun f => decide (f.ikey < e.ikey)) =
        back.reverse.getLast? := by
      obtain ⟨-, hpost, hcross⟩ := List.pairwise_append.mp h
      rw [List.reverse_append, List.find?_append, List.find?_eq_none.mpr, Option.none_or,
        List.reverse_reverse, List.getLast?_reverse]
      · cases back with
        | nil => rfl
        | cons f back =>
          exact List.find?_cons_of_pos (decide_eq_true (hcross f (by simp) e List.mem_cons_self))
      · intro f hf
        rw [List.mem_reverse] at hf
        rcases List.mem_cons.mp hf with rfl | hf
        · simp
        · simpa using le_of_lt ((List.pairwise_cons.mp hpost).1 f hf)
    have hlast : (back.reverse ++ [e]).getLast? = some e := by simp
    rw [hlast]
    show Shows current Cursors.prev
      (⟨back.reverse ++ e :: post, (back.reverse ++ e :: post).reverse.find? _⟩ : MemIter) back
    rw [hprev]
    exact ih (e :: post) h (List.reverse_reverse back)

end MemIter

/-- **Memtables.** -/
theorem covers_memIter {map : List Entry} (h : Sorted map) (cur : Option Entry) :
    Covers (⟨map, cur⟩ : MemIter) map := by
  refine ⟨MemIter.shows_next [] h, ?_, fun t => ?_, fun t => ?_⟩
  · have hshow := MemIter.shows_prev [] (by rwa [List.append_nil])
    rwa [List.append_nil] at hshow
  · show Shows current Cursors.next (⟨map, map.find? _⟩ : MemIter)
      (map.dropWhile fun e => decide (e.ikey < t))
    have hsplit : map.takeWhile (fun e => decide (e.ikey < t)) ++ map.dropWhile
        (fun e => decide (e.ikey < t)) =
      map := List.takeWhile_append_dropWhile
    have hfilter := dropWhile_eq_filter h t
    have hfind : map.find? (fun e => decide (t ≤ e.ikey)) =
        (map.dropWhile fun e => decide (e.ikey < t)).head? := by
      rw [hfilter, List.head?_filter]
    have hshow := MemIter.shows_next (map.takeWhile fun e => decide (e.ikey < t)) (hsplit.symm ▸ h)
    rw [hsplit] at hshow
    rwa [hfind]
  · show Shows current Cursors.prev (⟨map, map.reverse.find? _⟩ : MemIter)
      (map.takeWhile fun e => decide (e.ikey ≤ t)).reverse
    have hsplit : map.takeWhile (fun e => decide (e.ikey ≤ t)) ++ map.dropWhile
        (fun e => decide (e.ikey ≤ t)) =
      map := List.takeWhile_append_dropWhile
    have hfind : map.reverse.find? (fun e => decide (e.ikey ≤ t)) =
        (map.takeWhile fun e => decide (e.ikey ≤ t)).getLast? := by
      rw [takeWhile_eq_filter h, ← List.head?_filter, List.filter_reverse, List.head?_reverse]
    have hshow := MemIter.shows_prev (map.dropWhile fun e => decide (e.ikey ≤ t)) (hsplit.symm ▸ h)
    rw [hsplit] at hshow
    rwa [hfind]

/-! ### Point lookups -/

theorem lowerBound_eq_head? {l : List Entry} (h : Sorted l) (t : IKey) :
    lowerBound Entry.ikey t l = (l.dropWhile fun e => decide (e.ikey < t)).head? := by
  rw [dropWhile_eq_filter h, List.head?_filter]
  rfl

theorem getElem?_lowerBoundIdx {block : List Entry} (h : Sorted block) (t : IKey) :
    block[BlockIter.lowerBoundIdx block t]? =
      (block.dropWhile fun e => decide (e.ikey < t)).head? :=
  ListCursor.getElem?_lowerBound h t

/-- **The one block asked** holds the version looked for, if the table does. -/
theorem BlockedTable.get_eq (t : BlockedTable) (k : Bytes) (s : ℕ) :
    t.get k s = t.table.get k s := by
  unfold BlockedTable.get Table.get
  split
  · have hcut := (holds_blocks t).dropWhile_eq (makeSeekIkey k s)
    rw [t.holds] at hcut
    unfold seekVersion
    rw [lowerBound_eq_head? t.table.sorted]
    simp only
    change ((t.index[partitionPoint (fun b => decide (Part.lastKey BlockIter b < makeSeekIkey k s))
      t.index]?).bind fun block => _) = _
    cases hb : t.index[partitionPoint
      (fun b => decide (Part.lastKey BlockIter b < makeSeekIkey k s)) t.index]? with
    | none =>
      rw [hb] at hcut
      rw [show t.table.entries.dropWhile (fun e => decide (e.ikey < makeSeekIkey k s)) =
        [] from hcut]
      rfl
    | some b =>
      rw [hb] at hcut
      obtain ⟨hne, hdrop⟩ := hcut
      have hsorted : Sorted b.entries :=
        (List.pairwise_flatMap.mp (t.holds ▸ t.table.sorted)).1 b (List.mem_of_getElem? hb)
      have hhead : (t.table.entries.dropWhile fun e => decide (e.ikey < makeSeekIkey k s)).head? =
          (b.entries.dropWhile fun e => decide (e.ikey < makeSeekIkey k s)).head? :=
        (congrArg List.head? hdrop).trans (List.head?_append_of_ne_nil _ hne)
      rw [Option.bind_some, getElem?_lowerBoundIdx hsorted, hhead]
  · rfl

def BlockedRun.run (id : ℕ) (r : BlockedRun) : Run := ⟨id, r.tables.map BlockedTable.table⟩

/-- The fragment the bisection finds. -/
theorem BlockedRun.get_eq {r : BlockedRun} {id : ℕ} (h : (r.run id).Ordered) (k : Bytes) (s : ℕ) :
    r.get k s = (r.run id).get k s := by
  have hpair : r.tables.Pairwise fun t t' => t.table.maxUkey < t'.table.minUkey :=
    List.pairwise_map.mp h
  have hmono : r.tables.Pairwise fun t t' =>
      decide (t'.table.maxUkey < k) = true → decide (t.table.maxUkey < k) = true :=
    hpair.imp fun {t t'} hlt ht' => decide_eq_true
      (lt_trans (lt_of_lt_of_le hlt t'.table.minUkey_le_maxUkey) (of_decide_eq_true ht'))
  -- the bisection finds the first fragment that does not end below the key
  have hfind : (r.run id).fragmentFor k = (r.fragmentFor k).map BlockedTable.table := by
    unfold Run.fragmentFor BlockedRun.fragmentFor BlockedRun.run
    have hfirst : r.tables[partitionPoint (fun t => decide (t.table.maxUkey < k)) r.tables]? =
        r.tables.find? fun t => decide (¬ t.table.maxUkey < k) := by
      rw [← List.head?_drop, (split_partitionPoint hmono).2]
      generalize r.tables = l
      induction l with
      | nil => rfl
      | cons t l ih =>
        by_cases ht : t.table.maxUkey < k
        · rw [List.dropWhile_cons_of_pos (by simpa using ht), List.find?_cons_of_neg
            (by simpa using ht), ih]
        · rw [List.dropWhile_cons_of_neg (by simpa using ht), List.find?_cons_of_pos
            (by simpa using ht)]
          rfl
    rw [List.find?_map]
    simp only [hfirst, Function.comp_def]
    cases r.tables.find? fun t => decide (¬ t.table.maxUkey < k) with
    | none => rfl
    | some t =>
      by_cases hmin : t.table.minUkey ≤ k
      · rw [Option.map_some, Option.filter_some_pos (by simpa using hmin),
          Option.filter_some_pos (by simpa using hmin)]
        rfl
      · rw [Option.map_some, Option.filter_some_neg (by simpa using hmin),
          Option.filter_some_neg (by simpa using hmin)]
        rfl
  unfold BlockedRun.get Run.get
  rw [hfind]
  cases r.fragmentFor k with
  | none => rfl
  | some t => exact t.get_eq k s

/-! ### Sources -/

/-- A memtable or a run of table files. -/
inductive BlockedSource
  | mem (mt : Memtable)
  | run (r : BlockedRun)

/-- The iterator of a source, behind one interface. -/
inductive ChildIter
  | mem (it : MemIter)
  | run (it : RunIter)

namespace ChildIter

/-- Apply an operation of the interface. -/
def step (onMem : MemIter → MemIter) (onRun : RunIter → RunIter) : ChildIter → ChildIter
  | mem it => mem (onMem it)
  | run it => run (onRun it)

def current : ChildIter → Option Entry
  | mem it => Cursors.current it
  | run it => Cursors.current it

instance : Cursor ChildIter Entry IKey where
  key := Entry.ikey
  seekToFirst := step seekToFirst seekToFirst
  seekToLast := step seekToLast seekToLast
  seek target := step (seek target) (seek target)
  seekForPrev target := step (seekForPrev target) (seekForPrev target)
  current := current
  next := step next next
  prev := step prev prev

theorem covers_mem {it : MemIter} {l : List Entry} (h : Covers it l) : Covers (mem it) l :=
  ⟨h.first.map (f := mem) (fun _ => rfl) fun _ => rfl, h.last.map (f := mem) (fun _ => rfl)
    fun _ => rfl, fun t => (h.seek t).map (f := mem) (fun _ => rfl) fun _ => rfl,
    fun t => (h.seekForPrev t).map (f := mem) (fun _ => rfl) fun _ => rfl⟩

theorem covers_run {it : RunIter} {l : List Entry} (h : Covers it l) : Covers (run it) l :=
  ⟨h.first.map (f := run) (fun _ => rfl) fun _ => rfl, h.last.map (f := run) (fun _ => rfl)
    fun _ => rfl, fun t => (h.seek t).map (f := run) (fun _ => rfl) fun _ => rfl,
    fun t => (h.seekForPrev t).map (f := run) (fun _ => rfl) fun _ => rfl⟩

end ChildIter

namespace BlockedSource

def entries : BlockedSource → List Entry
  | mem mt => mt.map
  | run r => r.entries

def iter : BlockedSource → ChildIter
  | mem mt => .mem ⟨mt.map, none⟩
  | run r => .run r.iter

/-- **Sources.** -/
theorem covers {src : BlockedSource} (h : Sorted src.entries) : Covers src.iter src.entries := by
  cases src with
  | mem mt => exact ChildIter.covers_mem (covers_memIter mt.sorted none)
  | run r => exact ChildIter.covers_run (covers_runIter h)

end BlockedSource

/-! ### Layouts -/

/-- How tables are split into blocks. -/
structure Layout where
  index : Table → List IndexedBlock
  holds : ∀ t, (index t).flatMap IndexedBlock.entries = t.entries

namespace Layout

variable (l : Layout) (v : ReadView)

def table (t : Table) : BlockedTable := ⟨t, l.index t, l.holds t⟩

def run (r : Run) : BlockedRun := ⟨r.tables.map l.table⟩

def source : Source → BlockedSource
  | .mem mt => .mem mt
  | .run r => .run (l.run r)

/-- Newest version of `ukey` with seqno at most `seq` across the view. -/
def getVersioned (ukey : Bytes) (seq : ℕ) : Option Entry :=
  (v.mem.get ukey seq).or
    ((v.imms.findSome? fun imm => imm.get ukey seq).or
      (v.version.runsNewestFirst.findSome? fun r => (l.run r).get ukey seq))

/-- Newest committed version of `ukey`, tombstones included. -/
def latest (ukey : Bytes) : Option (ℕ × ValueKind) :=
  (l.getVersioned v ukey MAX_SEQNO).map fun e => (e.seq, e.kind)

/-- Children for a merge iterator, newest source first. -/
def internalChildren : List ChildIter := v.sources.map fun src => (l.source src).iter

variable {l v}

theorem run_run (r : Run) : (l.run r).run r.id = r := by
  unfold run BlockedRun.run
  rw [List.map_map]
  exact congrArg (Run.mk r.id) (List.map_id _)

theorem entries_source (src : Source) : (l.source src).entries = src.entries := by
  cases src with
  | mem mt => rfl
  | run r =>
    show (r.tables.map l.table).flatMap (fun t => t.table.entries) = r.entries
    rw [List.flatMap_map]
    rfl

/-- **Point lookups** by bisection, filter and block search. -/
theorem getVersioned_eq (h : v.Recent) (k : Bytes) (s : ℕ) :
    l.getVersioned v k s = v.getVersioned k s := by
  unfold getVersioned ReadView.getVersioned Version.get
  have hruns : v.version.runsNewestFirst.findSome? (fun r => (l.run r).get k s) =
      v.version.runsNewestFirst.findSome? fun r => r.get k s := by
    have hget : ∀ r ∈ v.version.runsNewestFirst, (l.run r).get k s = r.get k s := by
      intro r hr
      have hordered : ((l.run r).run r.id).Ordered := by
        rw [run_run]
        exact h.ordered r hr
      have heq := BlockedRun.get_eq hordered k s
      rwa [run_run] at heq
    generalize v.version.runsNewestFirst = runs at hget
    induction runs with
    | nil => rfl
    | cons r runs ih =>
      rw [List.findSome?_cons, List.findSome?_cons, hget r List.mem_cons_self,
        ih fun r hr => hget r (List.mem_cons_of_mem _ hr)]
  rw [hruns]

end Layout

/-! ### The layout the builder writes -/

/-- Bytes of an entry in a block. -/
def blockEntryLen (e : Entry) : ℕ :=
  (putUvarint e.ikeyLen).length + (putUvarint e.repr.encode.length).length + e.ikeyLen +
    e.repr.encode.length

/-- `size_estimate` of a block under construction. -/
def blockSizeEstimate (es : List Entry) : ℕ := (es.map blockEntryLen).sum + es.length * 4 + 4

/-- Cut a block when it has grown to the block size, and at the end. -/
def cutBlocks (blockSize : ℕ) : List Entry → List Entry → List (List Entry)
  | block, [] => if block = [] then [] else [block]
  | block, e :: es =>
    if blockSize ≤ blockSizeEstimate (block ++ [e]) then (block ++ [e]) :: cutBlocks blockSize [] es
    else cutBlocks blockSize (block ++ [e]) es

theorem cutBlocks_spec (blockSize : ℕ) (block es : List Entry) :
    (cutBlocks blockSize block es).flatten = block ++ es ∧ ∀ b ∈ cutBlocks blockSize block es,
      b ≠ [] := by
  induction es generalizing block with
  | nil =>
    unfold cutBlocks
    split
    · rename_i hnil
      exact ⟨by simp [hnil], fun b hb => absurd hb List.not_mem_nil⟩
    · rename_i hne
      exact ⟨by simp, fun b hb => (List.mem_singleton.mp hb) ▸ hne⟩
  | cons e es ih =>
    unfold cutBlocks
    split
    · refine ⟨?_, fun b hb => ?_⟩
      · rw [List.flatten_cons, (ih []).1]
        simp
      · rcases List.mem_cons.mp hb with rfl | hb
        · simp
        · exact (ih []).2 b hb
    · refine ⟨?_, (ih _).2⟩
      rw [(ih _).1]
      simp

/-- A finished block. -/
def IndexedBlock.ofEntries (es : List Entry) (h : es ≠ []) : IndexedBlock :=
  ⟨(es.getLast h).ikey, es, _, List.getLast?_eq_some_getLast h, rfl⟩

def Layout.built (blockSize : ℕ) : Layout where
  index t := (cutBlocks blockSize [] t.entries).pmap IndexedBlock.ofEntries
    (cutBlocks_spec blockSize [] t.entries).2
  holds t := by
    have hentries : ∀ (bs : List (List Entry)) (h : ∀ b ∈ bs, b ≠ []),
        (bs.pmap IndexedBlock.ofEntries h).flatMap IndexedBlock.entries = bs.flatten := by
      intro bs h
      induction bs with
      | nil => rfl
      | cons b bs ih => exact congrArg (b ++ ·) (ih fun b hb => h b (List.mem_cons_of_mem _ hb))
    rw [hentries, (cutBlocks_spec blockSize [] t.entries).1]
    rfl

end Fluent31
