/-
The tree and the search over it (`version.rs`).

A run is a list of table fragments; a version is the array of levels, each a
list of runs, newest first; a read view adds the memtables.  `Run.Ordered`
says that fragments are key-ordered with disjoint user-key ranges, and
`ReadView.Recent` that every source of the read order holds newer versions of
a key than the sources after it.  Under both,

* `Run.answers_get` — the one fragment a lookup asks answers for the run;
* `ReadView.answers_getVersioned` — the first hit over the read order is the
  newest version at or below the given seqno stored anywhere in the view.
-/
import Fluent31.Table

namespace Fluent31

open Ordered Mvcc

/-! ### Runs -/

/-- A sorted run: fragments ordered by key. -/
structure Run where
  id : ℕ
  tables : List Table

namespace Run

def size (r : Run) : ℕ := (r.tables.map Table.size).sum

def entries (r : Run) : List Entry := r.tables.flatMap Table.entries

/-- Fragments are key-ordered with pairwise disjoint user-key ranges. -/
def Ordered (r : Run) : Prop := r.tables.Pairwise fun t t' => t.maxUkey < t'.minUkey

/-- The single fragment that may contain `ukey`, if any. -/
def fragmentFor (r : Run) (ukey : Bytes) : Option Table :=
  (r.tables.find? fun t => decide (¬ t.maxUkey < ukey)).filter fun t => decide (t.minUkey ≤ ukey)

def get (r : Run) (ukey : Bytes) (seq : ℕ) : Option Entry :=
  match r.fragmentFor ukey with
  | some t => t.get ukey seq
  | none => none

/-- False means that the run provably lacks `ukey`. -/
def mayContainUkey (r : Run) (ukey : Bytes) : Bool :=
  match r.fragmentFor ukey with
  | some t => t.mayContainUkey ukey
  | none => false

variable {r : Run} {e : Entry}

theorem mem_entries : e ∈ r.entries ↔ ∃ t ∈ r.tables, e ∈ t.entries := List.mem_flatMap

/-- No user key straddles two fragments: the fragment asked for a key holds
all its versions. -/
theorem Ordered.fragmentFor_eq (h : r.Ordered) {t : Table} (ht : t ∈ r.tables)
    (he : e ∈ t.entries) : r.fragmentFor e.ukey = some t := by
  obtain ⟨id, tables⟩ := r
  unfold fragmentFor
  simp only at ht ⊢
  replace h : tables.Pairwise fun t t' => t.maxUkey < t'.minUkey := h
  induction tables with
  | nil => exact absurd ht List.not_mem_nil
  | cons t' tables ih =>
    obtain ⟨hhead, htail⟩ := List.pairwise_cons.mp h
    rcases List.mem_cons.mp ht with rfl | ht
    · rw [List.find?_cons_of_pos (by simpa using Table.le_maxUkey he),
        Option.filter_some_pos (by simpa using Table.minUkey_le he)]
    · have hlt : t'.maxUkey < e.ukey := lt_of_lt_of_le (hhead t ht) (Table.minUkey_le he)
      rw [List.find?_cons_of_neg (by simpa using hlt)]
      exact ih ht htail

theorem mem_of_fragmentFor {t : Table} {k : Bytes} (h : r.fragmentFor k = some t) :
    t ∈ r.tables :=
  List.mem_of_find?_eq_some (Option.filter_eq_some_iff.mp h).1

theorem Ordered.answers_get (h : r.Ordered) (k : Bytes) (s : ℕ) :
    Answers r.entries k s (r.get k s) := by
  unfold get
  cases hf : r.fragmentFor k with
  | none =>
    intro f hfr hk
    obtain ⟨t, ht, hft⟩ := mem_entries.mp hfr
    have := h.fragmentFor_eq ht hft
    rw [show f.ukey = k from hk, hf] at this
    exact absurd this (by simp)
  | some t =>
    -- versions of `k` in the run are those in the fragment
    have honly : ∀ f ∈ r.entries, f.ukey = k → f ∈ t.entries := by
      intro f hfr hk
      obtain ⟨t', ht', hft⟩ := mem_entries.mp hfr
      have := h.fragmentFor_eq ht' hft
      rw [hk, hf] at this
      rwa [Option.some_inj.mp this]
    have hans := t.answers_get k s
    show Answers r.entries k s (t.get k s)
    cases hg : t.get k s with
    | none =>
      rw [hg] at hans
      exact fun f hfr hk => hans f (honly f hfr hk) hk
    | some e =>
      rw [hg] at hans
      obtain ⟨hmem, hk, hs, hmax⟩ := hans
      refine ⟨mem_entries.mpr ⟨t, mem_of_fragmentFor hf, hmem⟩, hk, hs, fun f hfr hfk => ?_⟩
      exact hmax f (honly f hfr hfk) hfk

theorem Ordered.mayContainUkey_of_mem (h : r.Ordered) (he : e ∈ r.entries) :
    r.mayContainUkey e.ukey = true := by
  obtain ⟨t, ht, het⟩ := mem_entries.mp he
  unfold mayContainUkey
  rw [h.fragmentFor_eq ht het]
  exact Table.mayContainUkey_of_mem het

/-- The fragments of an ordered run, end to end, are in internal-key order. -/
theorem Ordered.sorted_entries (h : r.Ordered) : Sorted r.entries := by
  refine List.pairwise_flatMap.mpr ⟨fun t _ => t.sorted, h.imp ?_⟩
  intro t t' hlt a ha b hb
  exact ikey_lt_of_ukey_lt
    (lt_of_le_of_lt (Table.le_maxUkey ha) (lt_of_lt_of_le hlt (Table.minUkey_le hb)))

theorem Ordered.sublist {r' : Run} (h : r.Ordered) (hs : r'.tables.Sublist r.tables) :
    r'.Ordered := List.Pairwise.sublist hs h

end Run

/-! ### Versions -/

/-- Immutable view of the tree.  Levels hold runs newest first. -/
structure Version where
  levels : List (List Run)
  /-- The live value-log files. -/
  vlogs : List ℕ
  vlogHeadId : ℕ

namespace Version

def empty (maxLevels : ℕ) : Version := ⟨List.replicate maxLevels [], [], 0⟩

def runsNewestFirst (v : Version) : List Run := v.levels.flatten

def get (v : Version) (ukey : Bytes) (seq : ℕ) : Option Entry :=
  v.runsNewestFirst.findSome? fun r => r.get ukey seq

end Version

/-! ### Read views -/

/-- A source of the read order. -/
inductive Source
  | mem (mt : Memtable)
  | run (r : Run)

namespace Source

def get : Source → Bytes → ℕ → Option Entry
  | mem mt => mt.get
  | run r => r.get

def entries : Source → List Entry
  | mem mt => mt.map
  | run r => r.entries

/-- Memtables are ordered by construction, runs when their fragments are. -/
def Ordered : Source → Prop
  | mem _ => True
  | run r => r.Ordered

theorem Ordered.answers_get {src : Source} (h : src.Ordered) (k : Bytes) (s : ℕ) :
    Answers src.entries k s (src.get k s) := by
  cases src with
  | mem mt => exact mt.answers_get k s
  | run r => exact Run.Ordered.answers_get h k s

theorem Ordered.sorted {src : Source} (h : src.Ordered) : Sorted src.entries := by
  cases src with
  | mem mt => exact mt.sorted
  | run r => exact Run.Ordered.sorted_entries h

end Source

structure ReadView where
  mem : Memtable
  imms : List Memtable
  version : Version
  visible : ℕ

namespace ReadView

/-- The sources in read order, newest first. -/
def sources (v : ReadView) : List Source :=
  (v.mem :: v.imms).map Source.mem ++ v.version.runsNewestFirst.map Source.run

/-- All versions stored anywhere in the view. -/
def stored (v : ReadView) : List Entry := v.sources.flatMap Source.entries

/-- Newest version of `ukey` with seqno at most `seq` across the view: the
active memtable, the frozen ones newest first, then the runs. -/
def getVersioned (v : ReadView) (ukey : Bytes) (seq : ℕ) : Option Entry :=
  (v.mem.get ukey seq).or
    ((v.imms.findSome? fun imm => imm.get ukey seq).or (v.version.get ukey seq))

/-- Newest committed version of `ukey`, tombstones included. -/
def latest (v : ReadView) (ukey : Bytes) : Option Entry := v.getVersioned ukey MAX_SEQNO

/-- **Recency**: a source holds newer versions of a key than any later one,
and every run is ordered. -/
structure Recent (v : ReadView) : Prop where
  newer : v.sources.Pairwise fun a b => Newer a.entries b.entries
  ordered : ∀ r ∈ v.version.runsNewestFirst, r.Ordered

variable {v : ReadView}

theorem getVersioned_eq_firstHit (v : ReadView) (k : Bytes) (s : ℕ) :
    v.getVersioned k s = firstHit Source.get v.sources k s := by
  unfold getVersioned firstHit sources Version.get
  rw [List.findSome?_append, List.findSome?_map, List.findSome?_map, List.findSome?_cons]
  simp only [Function.comp_def, Source.get]
  cases v.mem.get k s <;> rfl

theorem Recent.source_ordered (h : v.Recent) {src : Source} (hs : src ∈ v.sources) :
    src.Ordered := by
  rcases List.mem_append.mp hs with hs | hs
  · obtain ⟨mt, -, rfl⟩ := List.mem_map.mp hs
    trivial
  · obtain ⟨r, hr, rfl⟩ := List.mem_map.mp hs
    exact h.ordered r hr

/-- **Point reads**: the first hit is the newest version stored anywhere. -/
theorem Recent.answers_getVersioned (h : v.Recent) (k : Bytes) (s : ℕ) :
    Answers v.stored k s (v.getVersioned k s) := by
  rw [getVersioned_eq_firstHit]
  exact answers_firstHit (fun src hs => (h.source_ordered hs).answers_get k s) h.newer

end ReadView

end Fluent31
