/-
The write buffer (`memtable.rs`): versions in internal-key order.

`seekVersion` is the search every ordered source of the engine performs: the
lower bound of a seek target, discarded when it belongs to another user key.
On a list in internal-key order it finds the newest version at or below the
given seqno (`answers_seekVersion`), so a memtable answers for the versions it
holds (`Memtable.answers_get`).
-/
import Fluent31.Lib.Ordered
import Fluent31.Types

namespace Fluent31

open Ordered Mvcc

/-- Strict internal-key order. -/
abbrev Sorted (l : List Entry) : Prop := SortedBy Entry.ikey l

theorem sorted_nil : Sorted [] := List.Pairwise.nil

/-- The lower bound of the seek target, if it is a version of `ukey`. -/
def seekVersion (l : List Entry) (ukey : Bytes) (seq : ℕ) : Option Entry :=
  (lowerBound Entry.ikey (makeSeekIkey ukey seq) l).filter fun e => decide (e.ukey = ukey)

theorem answers_seekVersion {l : List Entry} (h : Sorted l) (k : Bytes) (s : ℕ) :
    Answers l k s (seekVersion l k s) := by
  unfold seekVersion
  cases hlb : lowerBound Entry.ikey (makeSeekIkey k s) l with
  | none =>
    intro f hf hk
    have hlt := lowerBound_eq_none.mp hlb f hf
    by_contra hs
    exact absurd (seek_le_iff.mpr (Or.inr ⟨hk.symm, not_lt.mp hs⟩)) (not_le_of_gt hlt)
  | some e =>
    obtain ⟨hmem, hle, hleast⟩ := lowerBound_eq_some h hlb
    by_cases hk : e.ukey = k
    · rw [Option.filter_some_pos (by simpa using hk)]
      have hs : e.seq ≤ s := by
        rcases seek_le_iff.mp hle with hlt | ⟨-, hs⟩
        · exact absurd hk.symm (ne_of_lt hlt)
        · exact hs
      refine ⟨hmem, hk, hs, fun f hf hfk hfs => ?_⟩
      have hef := hleast f hf (seek_le_iff.mpr (Or.inr ⟨hfk.symm, hfs⟩))
      rcases lt_or_eq_of_le hef with hlt | heq
      · exact seq_ge_of_ikey_lt hlt (hk.trans hfk.symm)
      · exact le_of_eq (congrArg Entry.seq (h.key_inj hmem hf heq)).symm
    · -- the lower bound is already past `k`
      rw [Option.filter_some_neg (by simpa using hk)]
      intro f hf hfk
      by_contra hs
      have hef := hleast f hf (seek_le_iff.mpr (Or.inr ⟨hfk.symm, not_lt.mp hs⟩))
      have hlt : k < e.ukey := by
        rcases seek_le_iff.mp hle with hlt | ⟨heq, -⟩
        · exact hlt
        · exact absurd heq.symm hk
      have hfe : f.ikey < e.ikey := ikey_lt_of_ukey_lt (by rw [show f.ukey = k from hfk]; exact hlt)
      exact absurd hef (not_le_of_gt hfe)

/-! ### Memtables -/

/-- Bookkeeping bytes added to each entry's key and value bytes. -/
def ENTRY_OVERHEAD : ℕ := 64

structure Memtable where
  map : List Entry
  bytes : ℕ
  /-- The WAL file backing this memtable. -/
  walId : ℕ
  sorted : Sorted map

namespace Memtable

def new (walId : ℕ) : Memtable := ⟨[], 0, walId, sorted_nil⟩

def insert (mt : Memtable) (e : Entry) : Memtable where
  map := insertBy Entry.ikey e mt.map
  bytes := mt.bytes + (e.ikeyLen + e.repr.encode.length + ENTRY_OVERHEAD)
  walId := mt.walId
  sorted := sortedBy_insertBy mt.sorted

/-- Insertion of a batch's entries, in order. -/
def insertAll (mt : Memtable) (es : List Entry) : Memtable := es.foldl insert mt

def approximateBytes (mt : Memtable) : ℕ := mt.bytes

def isEmpty (mt : Memtable) : Bool := mt.map.isEmpty

/-- Newest version of `ukey` with seqno at most `seq`, if any. -/
def get (mt : Memtable) (ukey : Bytes) (seq : ℕ) : Option Entry := seekVersion mt.map ukey seq

variable {mt : Memtable} {e f : Entry} {es : List Entry}

theorem answers_get (mt : Memtable) (k : Bytes) (s : ℕ) : Answers mt.map k s (mt.get k s) :=
  answers_seekVersion mt.sorted k s

@[simp] theorem new_map (id : ℕ) : (new id).map = [] := rfl

@[simp] theorem new_walId (id : ℕ) : (new id).walId = id := rfl

@[simp] theorem insert_walId : (mt.insert e).walId = mt.walId := rfl

@[simp] theorem insertAll_walId : (mt.insertAll es).walId = mt.walId := by
  induction es generalizing mt with
  | nil => rfl
  | cons e es ih => exact ih.trans insert_walId

theorem insertAll_append {es' : List Entry} :
    mt.insertAll (es ++ es') = (mt.insertAll es).insertAll es' :=
  List.foldl_append

/-- An insertion under a fresh internal key loses nothing. -/
theorem mem_insert (hfresh : ∀ f ∈ mt.map, f.ikey ≠ e.ikey) :
    f ∈ (mt.insert e).map ↔ f ∈ mt.map ∨ f = e := by
  show f ∈ insertBy Entry.ikey e mt.map ↔ _
  rw [mem_insertBy mt.sorted]
  constructor
  · rintro (h | ⟨h, -⟩)
    · exact Or.inr h
    · exact Or.inl h
  · rintro (h | h)
    · exact Or.inr ⟨h, hfresh f h⟩
    · exact Or.inl h

/-- A batch under fresh, pairwise distinct internal keys is added as it is. -/
theorem mem_insertAll (hfresh : ∀ f ∈ mt.map, ∀ e ∈ es, f.ikey ≠ e.ikey)
    (hdistinct : es.Pairwise fun a b => a.ikey ≠ b.ikey) :
    f ∈ (mt.insertAll es).map ↔ f ∈ mt.map ∨ f ∈ es := by
  induction es generalizing mt with
  | nil => simp [insertAll]
  | cons e es ih =>
    obtain ⟨he, hes⟩ := List.pairwise_cons.mp hdistinct
    have hone : ∀ f, f ∈ (mt.insert e).map ↔ f ∈ mt.map ∨ f = e := fun f =>
      mem_insert fun g hg => hfresh g hg e List.mem_cons_self
    have hrest : ∀ g ∈ (mt.insert e).map, ∀ d ∈ es, g.ikey ≠ d.ikey := by
      intro g hg d hd
      rcases (hone g).mp hg with hg | rfl
      · exact hfresh g hg d (List.mem_cons_of_mem _ hd)
      · exact he d hd
    show f ∈ ((mt.insert e).insertAll es).map ↔ _
    rw [ih hrest hes, hone, List.mem_cons, or_assoc]

end Memtable

end Fluent31
