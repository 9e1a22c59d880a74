/-
Cursors over ordered sources.

A cursor stands at an element or nowhere, and steps one element forward or
back.  `Shows current step c l` says that the element at `c` and those it steps
to from there are the list `l`, and then nothing; `Covers c l` that the cursor
`c`, however it is positioned, moves over the list `l`.  A source made of
sources has a cursor made of cursors:

* `partitionPoint_eq` — the bisection finds where a predicate ends;
* `ListCursor.covers` — a list is moved over by its indices;
* `covers_concat` — one part after the other, the next one opened when the last
  is exhausted;
* `Merging.shows_advance` — the least head of all children, again and again.

`Yields step s l` says that a pull-based iterator hands out `l` and then ends.
-/
import Fluent31.Lib.Ordered
import Mathlib.Data.List.Forall2
import Mathlib.Data.List.TakeWhile

namespace Cursors

open Ordered

/-! ### Bisection -/

/-- Where `p` ends between `lo` and `hi`. -/
def bisect (p : ℕ → Bool) : ℕ → ℕ → ℕ → ℕ
  | 0, lo, _ => lo
  | fuel + 1, lo, hi =>
    if lo < hi then
      let mid := (lo + hi) / 2
      if p mid then bisect p fuel (mid + 1) hi else bisect p fuel lo mid
    else lo

/-- Number of elements before the first that fails `p`, for a list whose
elements that satisfy `p` come first. -/
def partitionPoint {α : Type} (p : α → Bool) (l : List α) : ℕ :=
  bisect (fun i => l[i]?.any p) l.length 0 l.length

theorem bisect_eq {p : ℕ → Bool} {n m : ℕ} (hlow : ∀ i < m, p i = true)
    (hhigh : ∀ i, m ≤ i → i < n → p i = false) {fuel lo hi : ℕ} (hfuel : hi - lo ≤ fuel)
    (hlo : lo ≤ m) (hhi : m ≤ hi) (hn : hi ≤ n) : bisect p fuel lo hi = m := by
  induction fuel generalizing lo hi with
  | zero =>
    unfold bisect
    omega
  | succ fuel ih =>
    unfold bisect
    by_cases hlt : lo < hi
    · simp only [if_pos hlt]
      split
      · rename_i hmid
        have hbelow : (lo + hi) / 2 < m := by
          by_contra hge
          rw [hhigh _ (not_lt.mp hge) (by omega)] at hmid
          exact absurd hmid Bool.false_ne_true
        exact ih (by omega) (by omega) hhi hn
      · rename_i hmid
        have habove : m ≤ (lo + hi) / 2 := by
          by_contra hlt'
          exact hmid (hlow _ (not_le.mp hlt'))
        exact ih (by omega) hlo habove (by omega)
    · rw [if_neg hlt]
      omega

/-- The bisection where the predicate may fail. -/
def bisectE {ε : Type} (p : ℕ → Except ε Bool) : ℕ → ℕ → ℕ → Except ε ℕ
  | 0, lo, _ => .ok lo
  | fuel + 1, lo, hi =>
    if lo < hi then do
      let mid := (lo + hi) / 2
      if ← p mid then bisectE p fuel (mid + 1) hi else bisectE p fuel lo mid
    else .ok lo

theorem bisectE_eq {ε : Type} {p : ℕ → Except ε Bool} {q : ℕ → Bool} {n : ℕ}
    (h : ∀ i < n, p i = .ok (q i))
    (fuel lo : ℕ) {hi : ℕ} (hn : hi ≤ n) : bisectE p fuel lo hi = .ok (bisect q fuel lo hi) := by
  induction fuel generalizing lo hi with
  | zero => rfl
  | succ fuel ih =>
    unfold bisectE bisect
    by_cases hlt : lo < hi
    · rw [if_pos hlt, if_pos hlt]
      show (p ((lo + hi) / 2)).bind _ = _
      rw [h _ (by omega), Except.bind]
      simp only
      split
      · exact ih _ hn
      · exact ih lo (by omega)
    · rw [if_neg hlt, if_neg hlt]

variable {α : Type}

theorem partitionPoint_eq {p : α → Bool} {l : List α} (h : l.Pairwise fun a b => p b → p a) :
    partitionPoint p l = (l.takeWhile p).length := by
  have hsplit : l.takeWhile p ++ l.dropWhile p = l := List.takeWhile_append_dropWhile
  have hlen := congrArg List.length hsplit
  rw [List.length_append] at hlen
  refine bisect_eq (n := l.length) (fun i hi => ?_) (fun i hi hn => ?_)
    (by omega) (Nat.zero_le _) (by omega) le_rfl
  · have hget : l[i]? = some (l.takeWhile p)[i] := by
      rw [← List.getElem?_eq_getElem hi]
      conv_lhs => rw [← hsplit]
      exact List.getElem?_append_left hi
    rw [hget]
    show p (l.takeWhile p)[i] = true
    exact List.mem_takeWhile_imp (List.getElem_mem hi)
  · -- everything from the first failure on fails
    have hget : l[i]? = (l.dropWhile p)[i - (l.takeWhile p).length]? := by
      conv_lhs => rw [← hsplit]
      exact List.getElem?_append_right hi
    rw [← hsplit, List.pairwise_append] at h
    have hfail : ∀ b ∈ l.dropWhile p, ¬ p b = true := by
      have hhead := List.head?_dropWhile_not p l
      cases hd : l.dropWhile p with
      | nil => exact fun b hb => absurd hb List.not_mem_nil
      | cons c rest =>
        rw [hd] at hhead h
        simp only [List.head?_cons] at hhead
        intro b hb hpb
        rcases List.mem_cons.mp hb with rfl | hb
        · simp [hpb] at hhead
        · have := (List.pairwise_cons.mp h.2.1).1 b hb hpb
          simp [this] at hhead
    rw [hget]
    cases hb : (l.dropWhile p)[i - (l.takeWhile p).length]? with
    | none => rfl
    | some b => exact Bool.eq_false_iff.mpr (hfail b (List.mem_of_getElem? hb))

/-- The elements before and after the partition point. -/
theorem split_partitionPoint {p : α → Bool} {l : List α} (h : l.Pairwise fun a b => p b → p a) :
    l.take (partitionPoint p l) = l.takeWhile p ∧ l.drop (partitionPoint p l) = l.dropWhile p := by
  rw [partitionPoint_eq h]
  have hsplit : l.takeWhile p ++ l.dropWhile p = l := List.takeWhile_append_dropWhile
  have htake : (l.takeWhile p ++ l.dropWhile p).take (l.takeWhile p).length = l.takeWhile p :=
    List.take_left
  have hdrop : (l.takeWhile p ++ l.dropWhile p).drop (l.takeWhile p).length = l.dropWhile p :=
    List.drop_left
  rw [hsplit] at htake hdrop
  exact ⟨htake, hdrop⟩

/-! ### Cursors -/

/-- A cursor `C` over elements `E` ordered by keys `K`. -/
class Cursor (C : Type) (E K : outParam Type) where
  key : E → K
  seekToFirst : C → C
  seekToLast : C → C
  /-- Position at the first element at or after a key. -/
  seek : K → C → C
  /-- Position at the last element at or before a key. -/
  seekForPrev : K → C → C
  /-- The element the cursor stands at. -/
  current : C → Option E
  next : C → C
  prev : C → C

export Cursor (seekToFirst seekToLast seek seekForPrev current next prev)

/-- From `c` on, `step` shows the elements of the list and then none. -/
def Shows {C E : Type} (current : C → Option E) (step : C → C) : C → List E → Prop
  | c, [] => current c = none
  | c, e :: l => current c = some e ∧ Shows current step (step c) l

theorem Shows.current_eq {C E : Type} {current : C → Option E} {step : C → C} {c : C} {l : List E}
    (h : Shows current step c l) : current c = l.head? := by
  cases l with
  | nil => exact h
  | cons e l => exact h.1

theorem Shows.tail {C E : Type} {current : C → Option E} {step : C → C} {c : C} {e : E} {l : List E}
    (h : Shows current step c (e :: l)) : Shows current step (step c) l := h.2

/-- A wrapped cursor shows what the cursor shows. -/
theorem Shows.map {C D E : Type} {current : C → Option E} {step : C → C} {current' : D → Option E}
    {step' : D → D} {f : C → D} (hcurrent : ∀ c, current' (f c) = current c)
    (hstep : ∀ c, step' (f c) = f (step c)) {c : C} {l : List E} (h : Shows current step c l) :
    Shows current' step' (f c) l := by
  induction l generalizing c with
  | nil => exact (hcurrent c).trans h
  | cons e l ih =>
    refine ⟨(hcurrent c).trans h.1, ?_⟩
    rw [hstep]
    exact ih h.2

/-- However it is positioned, the cursor moves over the elements of `l`. -/
structure Covers {C E K : Type} [Cursor C E K] [LinearOrder K] (c : C) (l : List E) : Prop where
  first : Shows current next (seekToFirst c) l
  last : Shows current prev (seekToLast c) l.reverse
  seek (t : K) : Shows current next (seek t c) (l.dropWhile fun e => decide (Cursor.key C e < t))
  seekForPrev (t : K) :
    Shows current prev (seekForPrev t c) (l.takeWhile fun e => decide (Cursor.key C e ≤ t)).reverse

/-- A wrapped cursor covers what the cursor covers. -/
theorem Covers.map {C D E K : Type} [Cursor C E K] [Cursor D E K] [LinearOrder K] {f : C → D}
    {c : C} {l : List E} (h : Covers c l) (hkey : Cursor.key D = Cursor.key C)
    (hcurrent : ∀ c, current (f c) = current c)
    (hnext : ∀ c, next (f c) = f (next c)) (hprev : ∀ c, prev (f c) = f (prev c))
    (hfirst : seekToFirst (f c) = f (seekToFirst c)) (hlast : seekToLast (f c) = f (seekToLast c))
    (hseek : ∀ t, Cursor.seek t (f c) = f (Cursor.seek t c))
    (hfor : ∀ t, Cursor.seekForPrev t (f c) = f (Cursor.seekForPrev t c)) : Covers (f c) l where
  first := hfirst ▸ h.first.map hcurrent hnext
  last := hlast ▸ h.last.map hcurrent hprev
  seek t := by
    rw [hseek, hkey]
    exact (h.seek t).map hcurrent hnext
  seekForPrev t := by
    rw [hfor, hkey]
    exact (h.seekForPrev t).map hcurrent hprev

/-! ### Sorted lists, cut at a key -/

section Cut

variable {E K : Type} [LinearOrder K] {key : E → K}

/-- The elements before a predicate ends are those that satisfy it. -/
theorem takeWhile_of_antitone {p : E → Bool} {l : List E} (h : l.Pairwise fun a b => p b → p a) :
    l.takeWhile p = l.filter p := by
  induction l with
  | nil => rfl
  | cons e l ih =>
    obtain ⟨he, hl⟩ := List.pairwise_cons.mp h
    by_cases hp : p e
    · rw [List.takeWhile_cons_of_pos hp, ih hl, List.filter_cons_of_pos hp]
    · rw [List.takeWhile_cons_of_neg hp]
      refine (List.filter_eq_nil_iff.mpr fun f hf => ?_).symm
      rcases List.mem_cons.mp hf with rfl | hf
      · exact hp
      · exact fun hpf => hp (he f hf hpf)

theorem dropWhile_of_antitone {p : E → Bool} {l : List E} (h : l.Pairwise fun a b => p b → p a) :
    l.dropWhile p = l.filter fun e => !p e := by
  induction l with
  | nil => rfl
  | cons e l ih =>
    obtain ⟨he, hl⟩ := List.pairwise_cons.mp h
    by_cases hp : p e
    · rw [List.dropWhile_cons_of_pos hp, ih hl, List.filter_cons_of_neg (by simpa using hp)]
    · rw [List.dropWhile_cons_of_neg hp]
      refine (List.filter_eq_self.mpr fun f hf => ?_).symm
      rcases List.mem_cons.mp hf with rfl | hf
      · simpa using hp
      · simpa using fun hpf => hp (he f hf hpf)

theorem dropWhile_eq_filter {l : List E} (h : SortedBy key l) (t : K) :
    (l.dropWhile fun e => decide (key e < t)) = l.filter fun e => decide (t ≤ key e) := by
  rw [dropWhile_of_antitone
    (h.imp fun hlt hf => decide_eq_true (lt_trans hlt (of_decide_eq_true hf)))]
  refine List.filter_congr fun e _ => ?_
  rw [← decide_not, decide_eq_decide]
  exact not_lt

theorem takeWhile_eq_filter {l : List E} (h : SortedBy key l) (t : K) :
    (l.takeWhile fun e => decide (key e ≤ t)) = l.filter fun e => decide (key e ≤ t) :=
  takeWhile_of_antitone
    (h.imp fun hlt hf => decide_eq_true (le_trans (le_of_lt hlt) (of_decide_eq_true hf)))

end Cut

/-! ### Lists -/

/-- A place in a list; beyond its end, nowhere. -/
structure ListCursor {E K : Type} (key : E → K) where
  list : List E
  pos : ℕ

namespace ListCursor

variable {E K : Type} {key : E → K}

def toLast (it : ListCursor key) : ListCursor key :=
  { it with pos := if it.list.length = 0 then 0 else it.list.length - 1 }

def back (it : ListCursor key) : ListCursor key :=
  { it with pos := if it.pos = 0 then it.list.length else it.pos - 1 }

variable [LinearOrder K]

/-- Index of the first element at or after `t`. -/
def lowerBound (key : E → K) (l : List E) (t : K) : ℕ :=
  partitionPoint (fun e => decide (key e < t)) l

def toPrev (t : K) (it : ListCursor key) : ListCursor key :=
  let lb := lowerBound key it.list t
  if (it.list[lb]?).any fun e => decide (key e = t) then { it with pos := lb }
  else { it with pos := if lb = 0 then it.list.length else lb - 1 }

instance : Cursor (ListCursor key) E K where
  key := key
  seekToFirst it := { it with pos := 0 }
  seekToLast := toLast
  seek t it := { it with pos := lowerBound key it.list t }
  seekForPrev := toPrev
  current it := it.list[it.pos]?
  next it := { it with pos := it.pos + 1 }
  prev := back

variable (key) in
theorem shows_next (l : List E) (pos : ℕ) :
    Shows current next (⟨l, pos⟩ : ListCursor key) (l.drop pos) := by
  generalize hrest : l.drop pos = rest
  induction rest generalizing pos with
  | nil => exact List.getElem?_eq_none (List.drop_eq_nil_iff.mp hrest)
  | cons e rest ih =>
    refine ⟨?_, ih (pos + 1) ?_⟩
    · show l[pos]? = some e
      rw [← List.head?_drop, hrest]
      rfl
    · rw [← List.drop_drop, hrest]
      rfl

variable (key) in
theorem shows_prev {l : List E} {i : ℕ} (h : i < l.length) :
    Shows current prev (⟨l, i⟩ : ListCursor key) (l.take (i + 1)).reverse := by
  induction i with
  | zero =>
    rw [List.take_succ_eq_append_getElem h, List.take_zero]
    refine ⟨List.getElem?_eq_getElem h, ?_⟩
    show l[l.length]? = none
    exact List.getElem?_eq_none le_rfl
  | succ i ih =>
    rw [List.take_succ_eq_append_getElem h, List.reverse_append]
    exact ⟨List.getElem?_eq_getElem h, ih (by omega)⟩

variable (key) in
/-- One step before the end of `pre`. -/
theorem shows_before (pre post : List E) :
    Shows current prev (⟨pre ++ post, if pre.length = 0 then (pre ++ post).length
      else pre.length - 1⟩ : ListCursor key) pre.reverse := by
  by_cases hlen : pre.length = 0
  · obtain rfl := List.length_eq_zero_iff.mp hlen
    exact List.getElem?_eq_none le_rfl
  · have hshow := shows_prev key (show pre.length - 1 < (pre ++ post).length by
      rw [List.length_append]
      omega)
    rw [if_neg hlen]
    rwa [show pre.length - 1 + 1 = pre.length by omega, List.take_left] at hshow

theorem lower_monotone {l : List E} (h : SortedBy key l) (t : K) :
    l.Pairwise fun e f => decide (key f < t) = true → decide (key e < t) = true :=
  h.imp fun hlt hf => decide_eq_true (lt_trans hlt (of_decide_eq_true hf))

theorem getElem?_lowerBound {l : List E} (h : SortedBy key l) (t : K) :
    l[lowerBound key l t]? = (l.dropWhile fun e => decide (key e < t)).head? := by
  rw [← (split_partitionPoint (lower_monotone h t)).2, List.head?_drop]
  rfl

/-- **Lists** are moved over from end to end. -/
theorem covers {l : List E} (h : SortedBy key l) (pos : ℕ) :
    Covers (⟨l, pos⟩ : ListCursor key) l := by
  refine ⟨shows_next key l 0, ?_, fun t => ?_, fun t => ?_⟩
  · show Shows current prev (toLast ⟨l, pos⟩) _
    unfold toLast
    by_cases hlen : l.length = 0
    · obtain rfl := List.length_eq_zero_iff.mp hlen
      rfl
    · simp only [if_neg hlen]
      have hshow := shows_prev key (show l.length - 1 < l.length by omega)
      rwa [List.take_of_length_le (by omega)] at hshow
  · have hshow := shows_next key l (lowerBound key l t)
    rwa [lowerBound, (split_partitionPoint (lower_monotone h t)).2] at hshow
  · show Shows current prev (toPrev t ⟨l, pos⟩) _
    have hlb : lowerBound key l t = (l.takeWhile fun e => decide (key e < t)).length :=
      partitionPoint_eq (lower_monotone h t)
    have hsplit : l.takeWhile (fun e => decide (key e < t)) ++
        l.dropWhile (fun e => decide (key e < t)) = l := List.takeWhile_append_dropWhile
    have hhead := List.head?_dropWhile_not (fun e : E => decide (key e < t)) l
    unfold toPrev
    simp only [hlb]
    have hbefore : ∀ e ∈ l.takeWhile (fun e => decide (key e < t)), decide (key e ≤ t) = true :=
      fun e he => decide_eq_true (le_of_lt (of_decide_eq_true
        (List.mem_takeWhile_imp (p := fun e : E => decide (key e < t)) he)))
    generalize l.takeWhile (fun e => decide (key e < t)) = pre at *
    generalize l.dropWhile (fun e => decide (key e < t)) = post at *
    subst hsplit
    show Shows current prev _ ((pre ++ post).takeWhile fun e => decide (key e ≤ t)).reverse
    have hget : (pre ++ post)[pre.length]? = post.head? := by
      rw [List.getElem?_append_right le_rfl, Nat.sub_self, List.head?_eq_getElem?]
    rw [List.takeWhile_append_of_pos hbefore, hget]
    cases post with
    | nil =>
      rw [if_neg (by simp), List.takeWhile_nil, List.append_nil]
      simpa using shows_before key pre []
    | cons e rest =>
      have hge : t ≤ key e := by simpa using hhead
      have hrest : ∀ f ∈ rest, key e < key f :=
        (List.pairwise_cons.mp (List.pairwise_append.mp h).2.1).1
      by_cases heq : key e = t
      · -- the target itself is there
        have hnone : rest.takeWhile (fun f => decide (key f ≤ t)) = [] := by
          refine List.takeWhile_eq_nil_iff.mpr fun hpos => ?_
          simpa [heq] using hrest _ (List.getElem_mem hpos)
        have hshow := shows_prev key (l := pre ++ e :: rest) (i := pre.length) (by simp)
        rw [if_pos (by simpa using heq), List.takeWhile_cons_of_pos (by simp [heq]), hnone]
        rwa [show (pre ++ e :: rest).take (pre.length + 1) = pre ++ [e] by
          rw [List.take_append, List.take_of_length_le (by omega), Nat.add_sub_cancel_left]
          rfl] at hshow
      · rw [if_neg (by simpa using heq), List.takeWhile_cons_of_neg (by
          simpa using lt_of_le_of_ne hge fun h => heq h.symm), List.append_nil]
        exact shows_before key pre (e :: rest)

end ListCursor

/-! ### Concatenation -/

/-- The parts a concatenating cursor opens one after the other. -/
class Part (P C : Type) (E K : outParam Type) [Cursor C E K] where
  iter : P → C
  lastKey : P → K
  /-- What is kept of the last part's cursor when it is exhausted. -/
  atEnd : C → Option C

structure Concat (P C : Type) where
  parts : List P
  idx : ℕ
  inner : Option C

namespace Concat

variable {P C E K : Type} [Cursor C E K]

def current (it : Concat P C) : Option E := it.inner.bind Cursor.current

theorem isSome_of_shows {parts : List P} {i : ℕ} {c : C} {rest : List E} {step : C → C}
    (h : Shows Cursor.current step c rest) (hne : rest ≠ []) :
    (⟨parts, i, some c⟩ : Concat P C).current.isSome = true := by
  show (Cursor.current c).isSome = true
  obtain ⟨e, l, rfl⟩ := List.exists_cons_of_ne_nil hne
  rw [h.current_eq]
  rfl

theorem not_isSome_of_shows {parts : List P} {i : ℕ} {c : C} {step : C → C}
    (h : Shows Cursor.current step c []) :
    ¬ (⟨parts, i, some c⟩ : Concat P C).current.isSome = true := by
  show ¬ (Cursor.current c).isSome = true
  rw [h.current_eq]
  exact Bool.false_ne_true

variable [Part P C E K]

/-- Open part `i` and position its cursor. -/
def load (it : Concat P C) (i : ℕ) (position : C → C) : Concat P C :=
  { it with idx := i, inner := (it.parts[i]?).map fun p => position (Part.iter p) }

def first (it : Concat P C) : Concat P C := it.load 0 seekToFirst

def last (it : Concat P C) : Concat P C := it.load (it.parts.length - 1) seekToLast

/-- Go on with the next part when the cursor of the current one is exhausted. -/
def skipForward (it : Concat P C) : Concat P C :=
  if it.current.isSome then it
  else if it.idx + 1 < it.parts.length then it.load (it.idx + 1) seekToFirst
  else { it with inner := it.inner.bind (Part.atEnd P) }

def skipBack (it : Concat P C) : Concat P C :=
  if it.current.isSome then it
  else if 0 < it.idx then it.load (it.idx - 1) seekToLast
  else { it with inner := it.inner.bind (Part.atEnd P) }

theorem load_eq {it : Concat P C} {i : ℕ} (hi : i < it.parts.length) (position : C → C) :
    it.load i position = ⟨it.parts, i, some (position (Part.iter it.parts[i]))⟩ := by
  unfold load
  rw [List.getElem?_eq_getElem hi]
  rfl

/-- A cursor that stands at an element is not moved on. -/
theorem skipForward_eq {it : Concat P C} (h : it.current.isSome = true) :
    it.skipForward = it := if_pos h

theorem skipBack_eq {it : Concat P C} (h : it.current.isSome = true) : it.skipBack = it := if_pos h

def next (it : Concat P C) : Concat P C :=
  ({ it with inner := it.inner.map Cursor.next }).skipForward

def prev (it : Concat P C) : Concat P C := ({ it with inner := it.inner.map Cursor.prev }).skipBack

variable [LinearOrder K]

def seek (t : K) (it : Concat P C) : Concat P C :=
  let i := partitionPoint (fun p => decide (Part.lastKey C p < t)) it.parts
  if it.parts.length ≤ i then { it with inner := none }
  else (it.load i (Cursor.seek t)).skipForward

def seekForPrev (t : K) (it : Concat P C) : Concat P C :=
  let i := partitionPoint (fun p => decide (Part.lastKey C p < t)) it.parts
  if it.parts.length ≤ i then it.last
  else (it.load i (Cursor.seekForPrev t)).skipBack

instance : Cursor (Concat P C) E K where
  key := Cursor.key C
  seekToFirst := first
  seekToLast := last
  seek := seek
  seekForPrev := seekForPrev
  current := current
  next := next
  prev := prev

/-- The parts hold non-empty lists that make one sorted list end to end, and
their last keys are known. -/
structure Holds (parts : List P) (held : P → List E) : Prop where
  covers : ∀ p ∈ parts, Covers (Part.iter p : C) (held p)
  last : ∀ p ∈ parts, ∃ e, (held p).getLast? = some e ∧ Part.lastKey C p = Cursor.key C e
  atEnd : ∀ c : C, Cursor.current c = none → (Part.atEnd P c).bind Cursor.current = none
  sorted : SortedBy (Cursor.key C) (parts.flatMap held)

variable {parts : List P} {held : P → List E}

theorem Holds.nonempty (h : Holds (C := C) parts held) {p : P} (hp : p ∈ parts) : held p ≠ [] := by
  obtain ⟨e, he, -⟩ := h.last p hp
  exact List.ne_nil_of_mem (List.mem_of_getLast? he)

/-- Forward from part `i`: what its cursor still shows, then the later parts. -/
theorem Holds.shows_next (h : Holds (C := C) parts held) {i : ℕ} {c : C} {rest : List E}
    (hrest : Shows Cursor.current Cursor.next c rest) :
    Shows current next (⟨parts, i, some c⟩ : Concat P C).skipForward
      (rest ++ (parts.drop (i + 1)).flatMap held) := by
  -- outer induction on the parts to come, inner on what the open one still shows
  obtain ⟨n, hn⟩ : ∃ n, parts.length ≤ i + 1 + n := ⟨parts.length, by omega⟩
  induction n generalizing i c rest with
  | zero =>
    induction rest generalizing c with
    | nil =>
      rw [skipForward, if_neg (not_isSome_of_shows hrest),
        if_neg (by show ¬ i + 1 < parts.length; omega), List.drop_eq_nil_of_le (by omega)]
      exact h.atEnd _ hrest
    | cons e rest ih =>
      rw [skipForward_eq (isSome_of_shows hrest (by simp))]
      exact ⟨hrest.1, ih hrest.2⟩
  | succ n ihn =>
    induction rest generalizing c with
    | nil =>
      rw [skipForward, if_neg (not_isSome_of_shows hrest)]
      by_cases hlt : i + 1 < parts.length
      · have hmem : parts[i + 1] ∈ parts := List.getElem_mem hlt
        have hfirst := (h.covers _ hmem).first
        have hload := ihn (i := i + 1) hfirst (by omega)
        rw [skipForward_eq (isSome_of_shows hfirst (h.nonempty hmem))] at hload
        rw [if_pos hlt, load_eq hlt, List.drop_eq_getElem_cons hlt]
        exact hload
      · rw [if_neg hlt, List.drop_eq_nil_of_le (by omega)]
        exact h.atEnd _ hrest
    | cons e rest ih =>
      rw [skipForward_eq (isSome_of_shows hrest (by simp))]
      exact ⟨hrest.1, ih hrest.2⟩

/-- Back from part `i`: what its cursor still shows, then the earlier parts. -/
theorem Holds.shows_prev (h : Holds (C := C) parts held) {i : ℕ} {c : C} {rest : List E}
    (hi : i < parts.length) (hrest : Shows Cursor.current Cursor.prev c rest) :
    Shows current prev (⟨parts, i, some c⟩ : Concat P C).skipBack
      (rest ++ ((parts.take i).flatMap held).reverse) := by
  induction i generalizing c rest with
  | zero =>
    induction rest generalizing c with
    | nil =>
      rw [skipBack, if_neg (not_isSome_of_shows hrest), if_neg (by show ¬ 0 < 0; omega)]
      exact h.atEnd _ hrest
    | cons e rest ih =>
      rw [skipBack_eq (isSome_of_shows hrest (by simp))]
      exact ⟨hrest.1, ih hrest.2⟩
  | succ i ihi =>
    induction rest generalizing c with
    | nil =>
      -- the cursor is at its end: the part before is loaded from its end
      have hlt : i < parts.length := by omega
      have hmem : parts[i] ∈ parts := List.getElem_mem hlt
      have hlast := (h.covers _ hmem).last
      have hload := ihi hlt hlast
      rw [skipBack_eq (isSome_of_shows hlast (by simpa using h.nonempty hmem))] at hload
      rw [skipBack, if_neg (not_isSome_of_shows hrest), if_pos (Nat.succ_pos i), List.nil_append,
        List.take_succ_eq_append_getElem hlt, List.flatMap_append, List.flatMap_singleton,
        List.reverse_append]
      show Shows current prev (Concat.load _ i seekToLast) _
      rw [load_eq hlt]
      exact hload
    | cons e rest ih =>
      rw [skipBack_eq (isSome_of_shows hrest (by simp))]
      exact ⟨hrest.1, ih hrest.2⟩

/-- The parts whose last key lies before `t`, and the others. -/
theorem Holds.cut (h : Holds (C := C) parts held) (t : K) {pre post : List P}
    (hpre : pre = parts.takeWhile fun p => decide (Part.lastKey C p < t))
    (hpost : post = parts.dropWhile fun p => decide (Part.lastKey C p < t)) :
    parts = pre ++ post ∧ partitionPoint (fun p => decide (Part.lastKey C p < t)) parts =
      pre.length ∧ (∀ e ∈ pre.flatMap held, Cursor.key C e < t) ∧
      ∀ p rest, post = p :: rest → ∃ e, (held p).getLast? = some e ∧ t ≤ Cursor.key C e ∧
        ∀ f ∈ rest.flatMap held, t < Cursor.key C f := by
  have hsplit : parts = pre ++ post := by
    rw [hpre, hpost]
    exact List.takeWhile_append_dropWhile.symm
  -- an element is at or before the last one of its part
  have hle : ∀ p ∈ parts, ∀ e ∈ held p, ∀ last, (held p).getLast? = some last →
      Cursor.key C e ≤ Cursor.key C last := by
    intro p hp e he last hlast
    have hsorted := (List.pairwise_flatMap.mp h.sorted).1 p hp
    obtain ⟨init, hinit⟩ := List.getLast?_eq_some_iff.mp hlast
    rw [hinit] at he hsorted
    rcases List.mem_append.mp he with he | he
    · exact le_of_lt ((List.pairwise_append.mp hsorted).2.2 e he last (List.mem_singleton_self _))
    · rw [List.mem_singleton.mp he]
  have hmono : parts.Pairwise fun p q => decide (Part.lastKey C q < t) = true →
      decide (Part.lastKey C p < t) = true := by
    refine (List.pairwise_flatMap.mp h.sorted).2.imp_of_mem fun hp hq hpq hlt => ?_
    obtain ⟨e, he, hkey⟩ := h.last _ hp
    obtain ⟨f, hf, hkey'⟩ := h.last _ hq
    have hef := hpq e (List.mem_of_getLast? he) f (List.mem_of_getLast? hf)
    rw [decide_eq_true_eq] at hlt ⊢
    rw [hkey]
    exact lt_trans hef (hkey' ▸ hlt)
  refine ⟨hsplit, by rw [partitionPoint_eq hmono, hpre], fun e he => ?_, fun p rest heq => ?_⟩
  · obtain ⟨p, hp, he⟩ := List.mem_flatMap.mp he
    have hmem : p ∈ parts := hsplit ▸ List.mem_append_left _ hp
    obtain ⟨last, hlast, hkey⟩ := h.last p hmem
    rw [hpre] at hp
    have hlt := of_decide_eq_true
      (List.mem_takeWhile_imp (p := fun p => decide (Part.lastKey C p < t)) hp)
    exact lt_of_le_of_lt (hle p hmem e he last hlast) (hkey ▸ hlt)
  · have hmem : p ∈ parts := hsplit ▸ List.mem_append_right _ (heq ▸ List.mem_cons_self)
    obtain ⟨last, hlast, hkey⟩ := h.last p hmem
    have hge : t ≤ Cursor.key C last := by
      have hhead := List.head?_dropWhile_not (fun p => decide (Part.lastKey C p < t)) parts
      rw [← hpost, heq] at hhead
      simpa [hkey] using hhead
    refine ⟨last, hlast, hge, fun f hf => lt_of_le_of_lt hge ?_⟩
    have hsorted := h.sorted
    rw [hsplit, heq, List.flatMap_append, List.flatMap_cons] at hsorted
    have htail := (List.pairwise_append.mp hsorted).2.1
    exact (List.pairwise_append.mp htail).2.2 last (List.mem_of_getLast? hlast) f hf

/-- The elements from `t` on start in the part the bisection finds. -/
theorem Holds.dropWhile_eq (h : Holds (C := C) parts held) (t : K) :
    match parts[partitionPoint (fun p => decide (Part.lastKey C p < t)) parts]? with
    | none => (parts.flatMap held).dropWhile (fun e => decide (Cursor.key C e < t)) = []
    | some p => (held p).dropWhile (fun e => decide (Cursor.key C e < t)) ≠ [] ∧
      (parts.flatMap held).dropWhile (fun e => decide (Cursor.key C e < t)) =
        (held p).dropWhile (fun e => decide (Cursor.key C e < t)) ++
          (parts.drop
            (partitionPoint (fun p => decide (Part.lastKey C p < t)) parts + 1)).flatMap held := by
  obtain ⟨hsplit, hpoint, hbefore, hafter⟩ := h.cut t rfl rfl
  rw [hpoint]
  generalize (parts.takeWhile fun p => decide (Part.lastKey C p < t)) = pre at *
  generalize (parts.dropWhile fun p => decide (Part.lastKey C p < t)) = post at *
  -- all that the parts in front hold lies below `t`
  have hdrop : (pre.flatMap held ++ post.flatMap held).dropWhile
      (fun e => decide (Cursor.key C e < t)) =
      (post.flatMap held).dropWhile fun e => decide (Cursor.key C e < t) :=
    List.dropWhile_append_of_pos fun e he => decide_eq_true (hbefore e he)
  rw [← List.flatMap_append, ← hsplit] at hdrop
  rw [hdrop]
  cases post with
  | nil =>
    rw [show parts[pre.length]? = none by simp [hsplit]]
    rfl
  | cons p rest =>
    obtain ⟨last, hlast, hge, -⟩ := hafter p rest rfl
    have hne : (held p).dropWhile (fun e => decide (Cursor.key C e < t)) ≠ [] := by
      rw [ne_eq, List.dropWhile_eq_nil_iff]
      exact fun hall => absurd (of_decide_eq_true (hall last (List.mem_of_getLast? hlast)))
        (not_lt.mpr hge)
    rw [show parts[pre.length]? = some p by simp [hsplit]]
    refine ⟨hne, ?_⟩
    rw [List.flatMap_cons, List.dropWhile_append, List.isEmpty_eq_false_iff.mpr hne,
      show parts.drop (pre.length + 1) = rest by simp [hsplit]]
    rfl

/-- The elements up to `t` end in the part the bisection finds, or before it. -/
theorem Holds.takeWhile_eq (h : Holds (C := C) parts held) (t : K) :
    match parts[partitionPoint (fun p => decide (Part.lastKey C p < t)) parts]? with
    | none => (parts.flatMap held).takeWhile (fun e =>
      decide (Cursor.key C e ≤ t)) = parts.flatMap held
    | some p => (parts.flatMap held).takeWhile (fun e => decide (Cursor.key C e ≤ t)) =
        (parts.take (partitionPoint (fun p => decide (Part.lastKey C p < t)) parts)).flatMap held ++
          (held p).takeWhile (fun e => decide (Cursor.key C e ≤ t)) := by
  obtain ⟨hsplit, hpoint, hbefore, hafter⟩ := h.cut t rfl rfl
  rw [hpoint]
  generalize (parts.takeWhile fun p => decide (Part.lastKey C p < t)) = pre at *
  generalize (parts.dropWhile fun p => decide (Part.lastKey C p < t)) = post at *
  have htake : (pre.flatMap held ++ post.flatMap held).takeWhile
      (fun e => decide (Cursor.key C e ≤ t)) =
      pre.flatMap held ++ (post.flatMap held).takeWhile fun e => decide (Cursor.key C e ≤ t) :=
    List.takeWhile_append_of_pos fun e he => decide_eq_true (le_of_lt (hbefore e he))
  rw [← List.flatMap_append, ← hsplit] at htake
  rw [htake]
  cases post with
  | nil =>
    rw [show parts[pre.length]? = none by simp [hsplit]]
    simp [hsplit]
  | cons p rest =>
    obtain ⟨-, -, -, hgt⟩ := hafter p rest rfl
    -- behind the part found everything lies above `t`
    have hrest : (rest.flatMap held).takeWhile (fun e => decide (Cursor.key C e ≤ t)) = [] := by
      refine List.takeWhile_eq_nil_iff.mpr fun hpos => ?_
      simpa using hgt _ (List.getElem_mem hpos)
    rw [show parts[pre.length]? = some p by simp [hsplit]]
    show _ = (parts.take pre.length).flatMap held ++ _
    rw [show parts.take pre.length =
      pre by simp [hsplit], List.flatMap_cons, List.takeWhile_append, hrest, List.append_nil]
    split
    · rename_i hall
      rw [(List.takeWhile_prefix _).eq_of_length hall]
    · rfl

/-- **Concatenation.** -/
theorem covers_concat (h : Holds (C := C) parts held) (idx : ℕ) (inner : Option C) :
    Covers (⟨parts, idx, inner⟩ : Concat P C) (parts.flatMap held) := by
  -- the last part is not empty, so its last element is the last of all
  have hlast : Shows current prev (Concat.last ⟨parts, idx, inner⟩)
      (parts.flatMap held).reverse := by
    unfold Concat.last
    rcases List.eq_nil_or_concat parts with rfl | ⟨init, p, rfl⟩
    · rfl
    · rw [List.concat_eq_append] at h ⊢
      have hlen : (init ++ [p]).length - 1 < (init ++ [p]).length := by simp
      have hget : (init ++ [p])[(init ++ [p]).length - 1] = p := by simp
      have hp := (h.covers p (by simp)).last
      have hshow := h.shows_prev hlen hp
      rw [skipBack_eq (isSome_of_shows hp (by simpa using h.nonempty (p := p) (by simp)))] at hshow
      rw [load_eq hlen, hget]
      simpa using hshow
  refine ⟨?_, hlast, fun t => ?_, fun t => ?_⟩
  · show Shows current next (Concat.load _ 0 seekToFirst) _
    cases parts with
    | nil => rfl
    | cons p rest =>
      have hfirst := (h.covers p List.mem_cons_self).first
      have hshow := h.shows_next (i := 0) hfirst
      rw [skipForward_eq (isSome_of_shows hfirst (h.nonempty List.mem_cons_self))] at hshow
      rw [load_eq (Nat.succ_pos _)]
      exact hshow
  · show Shows current next (Concat.seek t ⟨parts, idx, inner⟩)
      ((parts.flatMap held).dropWhile fun e => decide (Cursor.key C e < t))
    -- the parts before the first whose last key reaches `t` lie below `t`
    have hcut := h.dropWhile_eq t
    unfold Concat.seek
    simp only
    generalize partitionPoint (fun p => decide (Part.lastKey C p < t)) parts = i at hcut ⊢
    by_cases hi : i < parts.length
    · rw [List.getElem?_eq_getElem hi] at hcut
      rw [if_neg (by show ¬ parts.length ≤ i; omega), load_eq hi, hcut.2]
      exact h.shows_next ((h.covers _ (List.getElem_mem hi)).seek t)
    · rw [List.getElem?_eq_none (not_lt.mp hi)] at hcut
      rw [if_pos (not_lt.mp hi), hcut]
      rfl
  · show Shows current prev (Concat.seekForPrev t ⟨parts, idx, inner⟩)
      ((parts.flatMap held).takeWhile fun e => decide (Cursor.key C e ≤ t)).reverse
    have hcut := h.takeWhile_eq t
    unfold Concat.seekForPrev
    simp only
    generalize partitionPoint (fun p => decide (Part.lastKey C p < t)) parts = i at hcut ⊢
    by_cases hi : i < parts.length
    · rw [List.getElem?_eq_getElem hi] at hcut
      rw [if_neg (by show ¬ parts.length ≤ i; omega), load_eq hi, hcut, List.reverse_append]
      exact h.shows_prev hi ((h.covers _ (List.getElem_mem hi)).seekForPrev t)
    · rw [List.getElem?_eq_none (not_lt.mp hi)] at hcut
      rw [if_pos (not_lt.mp hi), hcut]
      exact hlast

end Concat

/-! ### Merging -/

/-- The index and the value of the first entry with the least key; entries
without an element are skipped. -/
def pickBy {E κ : Type} [LinearOrder κ] (μ : E → κ) :
    Option (ℕ × E) → ℕ → List (Option E) → Option (ℕ × E)
  | best, _, [] => best
  | best, i, none :: cs => pickBy μ best (i + 1) cs
  | none, i, some e :: cs => pickBy μ (some (i, e)) (i + 1) cs
  | some (b, f), i, some e :: cs =>
    pickBy μ (if μ e < μ f then some (i, e) else some (b, f)) (i + 1) cs

section Pick

variable {E κ : Type} [LinearOrder κ] {μ : E → κ}

/-- The pick is one of the entries, or what was picked before, and none is
less. -/
theorem pickBy_spec {best : Option (ℕ × E)} {i : ℕ} {cs : List (Option E)} :
    match pickBy μ best i cs with
    | none => best = none ∧ ∀ c ∈ cs, c = none
    | some (b, e) => (best = some (b, e) ∨ i ≤ b ∧ cs[b - i]? = some (some e)) ∧
      (∀ x ∈ best, μ e ≤ μ x.2) ∧ ∀ f, some f ∈ cs → μ e ≤ μ f := by
  induction cs generalizing best i with
  | nil => cases best <;> simp [pickBy]
  | cons c cs ih =>
    cases c with
    | none =>
      have hrest := @ih best (i + 1)
      unfold pickBy
      cases hp : pickBy μ best (i + 1) cs with
      | none =>
        rw [hp] at hrest
        exact ⟨hrest.1, fun c hc => (List.mem_cons.mp hc).elim id (hrest.2 c)⟩
      | some r =>
        rw [hp] at hrest
        obtain ⟨hsrc, hbest, hall⟩ := hrest
        refine ⟨?_, hbest, fun f hf => hall f ((List.mem_cons.mp hf).resolve_left (by simp))⟩
        rcases hsrc with hsrc | ⟨hge, hget⟩
        · exact Or.inl hsrc
        · refine Or.inr ⟨by omega, ?_⟩
          rw [show r.1 - i = (r.1 - (i + 1)) + 1 by omega]
          exact hget
    | some a =>
      -- the new best entry: the old one, or this one
      obtain ⟨best', hstep, hsrc', hle⟩ : ∃ best' : ℕ × E,
          pickBy μ best i (some a :: cs) = pickBy μ (some best') (i + 1) cs ∧
          (best = some best' ∨ best' = (i, a)) ∧ μ best'.2 ≤ μ a ∧ ∀ x ∈ best,
            μ best'.2 ≤ μ x.2 := by
        cases best with
        | none => exact ⟨(i, a), rfl, Or.inr rfl, le_rfl, fun x hx => absurd hx (by simp)⟩
        | some r =>
          obtain ⟨b, f⟩ := r
          by_cases hlt : μ a < μ f
          · refine ⟨(i, a), ?_, Or.inr rfl, le_rfl, fun x hx => ?_⟩
            · show pickBy μ (if μ a < μ f then some (i, a) else some (b, f)) (i + 1) cs = _
              rw [if_pos hlt]
            · rw [← Option.some_inj.mp hx]
              exact le_of_lt hlt
          · refine ⟨(b, f), ?_, Or.inl rfl, not_lt.mp hlt, fun x hx => ?_⟩
            · show pickBy μ (if μ a < μ f then some (i, a) else some (b, f)) (i + 1) cs = _
              rw [if_neg hlt]
            · rw [← Option.some_inj.mp hx]
      have hrest := @ih (some best') (i + 1)
      rw [hstep]
      cases hp : pickBy μ (some best') (i + 1) cs with
      | none =>
        rw [hp] at hrest
        exact absurd hrest.1 (by simp)
      | some r =>
        rw [hp] at hrest
        obtain ⟨hsrc, hbest, hall⟩ := hrest
        have hmin := hbest best' rfl
        refine ⟨?_, fun x hx => le_trans hmin (hle.2 x hx), fun f hf => ?_⟩
        · rcases hsrc with hsrc | ⟨hge, hget⟩
          · obtain rfl := Option.some_inj.mp hsrc
            rcases hsrc' with h | heq
            · exact Or.inl h
            · obtain ⟨hi, ha⟩ := Prod.mk.inj heq
              exact Or.inr ⟨le_of_eq hi.symm, by rw [hi, ha]; simp⟩
          · refine Or.inr ⟨by omega, ?_⟩
            rw [show r.1 - i = (r.1 - (i + 1)) + 1 by omega]
            exact hget
        · rcases List.mem_cons.mp hf with hf | hf
          · obtain rfl := Option.some_inj.mp hf
            exact le_trans hmin hle.1
          · exact hall f hf

end Pick

structure Merging (C : Type) where
  children : List C
  cur : Option ℕ
  reverse : Bool

namespace Merging

variable {C E K : Type} [Cursor C E K] [LinearOrder K]

/-- Stand at the least head, at the greatest when reversed. -/
def pick (m : Merging C) : Merging C :=
  let heads := m.children.map Cursor.current
  let best := if m.reverse then pickBy (fun e => OrderDual.toDual (Cursor.key C e)) none 0 heads
    else pickBy (Cursor.key C) none 0 heads
  { m with cur := best.map Prod.fst }

def current (m : Merging C) : Option E := m.cur.bind fun i => (m.children[i]?).bind Cursor.current

def positioned (m : Merging C) (position : C → C) : Merging C :=
  ({ m with children := m.children.map position }).pick

def advance (m : Merging C) (step : C → C) : Merging C :=
  match m.cur with
  | some i => ({ m with children := m.children.modify i step }).pick
  | none => m

instance : Cursor (Merging C) E K where
  key := Cursor.key C
  seekToFirst m := m.positioned seekToFirst
  seekToLast m := m.positioned seekToLast
  seek t m := m.positioned (Cursor.seek t)
  seekForPrev t m := m.positioned (Cursor.seekForPrev t)
  current := current
  next m := m.advance Cursor.next
  prev m := m.advance Cursor.prev

/-- Taking a child's head takes it from all elements. -/
theorem perm_modify_tail {rests : List (List E)} {i : ℕ} {e : E} {rest : List E}
    (h : rests[i]? = some (e :: rest)) :
    rests.flatten.Perm (e :: (rests.modify i List.tail).flatten) := by
  induction rests generalizing i with
  | nil => exact absurd h (by simp)
  | cons r rests ih =>
    cases i with
    | zero =>
      obtain rfl := Option.some_inj.mp (show some r = some (e :: rest) from h)
      exact List.Perm.refl _
    | succ i =>
      rw [List.modify_succ_cons, List.flatten_cons, List.flatten_cons]
      exact ((ih h).append_left r).trans List.perm_middle

theorem forall₂_modify {R : C → List E → Prop} {f : C → C} {children : List C}
    {rests : List (List E)} (h : List.Forall₂ R children rests) {i : ℕ} {e : E} {rest : List E}
    (hi : rests[i]? = some (e :: rest))
    (hstep : ∀ c, R c (e :: rest) → R (f c) rest) :
    List.Forall₂ R (children.modify i f) (rests.modify i List.tail) := by
  induction h generalizing i with
  | nil => exact absurd hi (by simp)
  | @cons c r children rests hcr htail ih =>
    cases i with
    | zero =>
      obtain rfl := Option.some_inj.mp (show some r = some (e :: rest) from hi)
      exact .cons (hstep c hcr) htail
    | succ i => exact .cons hcr (ih hi)

omit [LinearOrder K] in
theorem heads_eq {step : C → C} {children : List C} {rests : List (List E)}
    (h : List.Forall₂ (Shows Cursor.current step) children rests) :
    children.map Cursor.current = rests.map List.head? := by
  induction h with
  | nil => rfl
  | cons hcr _ ih => rw [List.map_cons, List.map_cons, ih, hcr.current_eq]

/-- The head picked is the least of all elements. -/
theorem pickBy_heads {κ : Type} [LinearOrder κ] {μ : E → κ} {rests : List (List E)}
    (hrests : ∀ rest ∈ rests, SortedBy μ rest) :
    match pickBy μ none 0 (rests.map List.head?) with
    | none => rests.flatten = []
    | some (b, e) => (∃ rest, rests[b]? = some (e :: rest)) ∧ ∀ f ∈ rests.flatten, μ e ≤ μ f := by
  have hspec := @pickBy_spec _ _ _ μ none 0 (rests.map List.head?)
  split <;> rename_i hp <;> rw [hp] at hspec
  · rw [List.flatten_eq_nil_iff]
    intro r hr
    exact List.head?_eq_none_iff.mp (hspec.2 _ (List.mem_map_of_mem hr))
  · rename_i b e
    obtain ⟨hsrc, -, hle⟩ := hspec
    have hget := (hsrc.resolve_left (by simp)).2
    rw [Nat.sub_zero, List.getElem?_map, Option.map_eq_some_iff] at hget
    obtain ⟨r, hr, hhead⟩ := hget
    obtain ⟨rest, rfl⟩ := List.head?_eq_some_iff.mp hhead
    refine ⟨⟨rest, hr⟩, fun f hf => ?_⟩
    obtain ⟨r, hr, hf⟩ := List.mem_flatten.mp hf
    obtain ⟨g, r, rfl⟩ := List.exists_cons_of_ne_nil (List.ne_nil_of_mem hf)
    have hg := hle g (List.mem_map.mpr ⟨g :: r, hr, rfl⟩)
    rcases List.mem_cons.mp hf with rfl | hf
    · exact hg
    · exact le_trans hg (le_of_lt ((List.pairwise_cons.mp (hrests _ hr)).1 f hf))

/-- **Merging.**  When the children show lists sorted in the order `μ`, stepping
the least head shows their merge. -/
theorem shows_advance {κ : Type} [LinearOrder κ] {μ : E → κ} {rev : Bool} {step : C → C}
    (hpick : ∀ (children : List C) cur, (pick ⟨children, cur, rev⟩).cur =
      (pickBy μ none 0 (children.map Cursor.current)).map Prod.fst)
    {merged : List E} {children : List C} {rests : List (List E)}
    (h : List.Forall₂ (Shows Cursor.current step) children rests)
    (hrests : ∀ rest ∈ rests, SortedBy μ rest) (hmerged : SortedBy μ merged)
    (hperm : merged.Perm rests.flatten) {cur : Option ℕ} :
    Shows current (fun m => advance m step) (pick ⟨children, cur, rev⟩) merged := by
  induction merged generalizing children rests cur with
  | nil =>
    have hspec := pickBy_heads hrests
    have hcur := hpick children cur
    rw [heads_eq h] at hcur
    show current _ = none
    unfold current
    rw [hcur]
    split at hspec <;> rename_i hp
    · rw [hp]
      rfl
    · obtain ⟨rest, hget⟩ := hspec.1
      have hnil := List.flatten_eq_nil_iff.mp hperm.symm.eq_nil _ (List.mem_of_getElem? hget)
      exact absurd hnil (by simp)
  | cons e merged ih =>
    have hspec := pickBy_heads hrests
    have hcur := hpick children cur
    rw [heads_eq h] at hcur
    split at hspec <;> rename_i hp
    · exact absurd (hspec ▸ hperm).eq_nil (by simp)
    · rename_i b f
      obtain ⟨⟨rest, hget⟩, hleast⟩ := hspec
      rw [hp] at hcur
      -- the least element comes first in the merge
      have hf : f ∈ e :: merged :=
        hperm.mem_iff.mpr (List.mem_flatten.mpr ⟨_, List.mem_of_getElem? hget, List.mem_cons_self⟩)
      have hef : μ e ≤ μ f := by
        rcases List.mem_cons.mp hf with rfl | hf
        · exact le_rfl
        · exact le_of_lt ((List.pairwise_cons.mp hmerged).1 f hf)
      have hfe : μ f ≤ μ e := hleast e (hperm.mem_iff.mp List.mem_cons_self)
      obtain rfl := hmerged.key_inj List.mem_cons_self hf (le_antisymm hef hfe)
      have hb : b < children.length := by
        rw [h.length_eq]
        exact (List.getElem?_eq_some_iff.mp hget).1
      have hc : Shows Cursor.current step children[b] (e :: rest) := by
        have hlen : b < rests.length := h.length_eq ▸ hb
        have hrel := List.forall₂_iff_get.mp h |>.2 b hb hlen
        rwa [show rests.get ⟨b, hlen⟩ =
          e :: rest from (List.getElem?_eq_some_iff.mp hget).2] at hrel
      refine ⟨?_, ?_⟩
      · show current _ = some e
        unfold current
        rw [hcur]
        show (children[b]?).bind Cursor.current = some e
        rw [List.getElem?_eq_getElem hb]
        exact hc.1
      · have hstep : advance (pick ⟨children, cur, rev⟩) step =
          pick ⟨children.modify b step, some b, rev⟩ := by
          unfold advance
          rw [hcur]
          show pick ⟨children.modify b step, (pick ⟨children, cur, rev⟩).cur, rev⟩ = _
          rw [hcur]
          rfl
        show Shows current _ (advance (pick ⟨children, cur, rev⟩) step) merged
        rw [hstep]
        refine ih (forall₂_modify h hget fun c hc => hc.2) (fun r hr => ?_)
          (List.pairwise_cons.mp hmerged).2 ?_
        · obtain ⟨i, hi⟩ := List.mem_iff_getElem?.mp hr
          rw [List.getElem?_modify] at hi
          obtain ⟨r', hr', rfl⟩ := Option.map_eq_some_iff.mp hi
          have hsorted := hrests r' (List.mem_of_getElem? hr')
          split
          · exact List.Pairwise.tail hsorted
          · exact hsorted
        · exact List.Perm.cons_inv (hperm.trans (perm_modify_tail hget))

omit [LinearOrder K] in
/-- What is left of each child is left of all. -/
theorem perm_flatten_map {p : E → Bool} {f : List E → List E} (hf : ∀ l, (f l).Perm (l.filter p))
    (lists : List (List E)) : (lists.map f).flatten.Perm (lists.flatten.filter p) := by
  induction lists with
  | nil => exact List.Perm.refl _
  | cons l lists ih =>
    rw [List.map_cons, List.flatten_cons, List.flatten_cons, List.filter_append]
    exact (hf l).append ih

omit [Cursor C E K] in
theorem sorted_reverse {key : E → K} {l : List E} (h : SortedBy key l) :
    SortedBy (fun e => OrderDual.toDual (key e)) l.reverse :=
  List.pairwise_reverse.mpr h

section Children

variable {children : List C} {lists : List (List E)} {merged : List E}

/-- **A merge, forward** from a key. -/
theorem shows_seek (h : List.Forall₂ Covers children lists)
    (hlists : ∀ l ∈ lists, SortedBy (Cursor.key C) l)
    (hmerged : SortedBy (Cursor.key C) merged) (hperm : merged.Perm lists.flatten) (t : K)
    (cur : Option ℕ) :
    Shows Cursor.current Cursor.next (Cursor.seek t (⟨children, cur, false⟩ : Merging C))
      (merged.dropWhile fun e => decide (Cursor.key C e < t)) := by
  have hrests : List.Forall₂ (Shows Cursor.current Cursor.next) (children.map (Cursor.seek t))
      (lists.map fun l => l.dropWhile fun e => decide (Cursor.key C e < t)) := by
    rw [List.forall₂_map_left_iff, List.forall₂_map_right_iff]
    exact h.imp fun c l hc => hc.seek t
  refine shows_advance (μ := Cursor.key C) (fun _ _ => rfl) hrests (fun r hr => ?_)
    (hmerged.sublist (List.dropWhile_sublist _)) ?_
  · obtain ⟨l, hl, rfl⟩ := List.mem_map.mp hr
    exact (hlists l hl).sublist (List.dropWhile_sublist _)
  · rw [dropWhile_eq_filter hmerged]
    have hcut : (lists.map fun l => l.dropWhile fun e => decide (Cursor.key C e < t)) =
        lists.map fun l => l.filter fun e => decide (t ≤ Cursor.key C e) :=
      List.map_congr_left fun l hl => dropWhile_eq_filter (hlists l hl) t
    rw [hcut]
    exact (hperm.filter _).trans (perm_flatten_map (fun _ => List.Perm.refl _) lists).symm

/-- **A merge, backward** from a key. -/
theorem shows_seekForPrev (h : List.Forall₂ Covers children lists)
    (hlists : ∀ l ∈ lists, SortedBy (Cursor.key C) l) (hmerged : SortedBy (Cursor.key C) merged)
    (hperm : merged.Perm lists.flatten) (t : K) (cur : Option ℕ) :
    Shows Cursor.current Cursor.prev (Cursor.seekForPrev t (⟨children, cur, true⟩ : Merging C))
      (merged.takeWhile fun e => decide (Cursor.key C e ≤ t)).reverse := by
  have hrests : List.Forall₂ (Shows Cursor.current Cursor.prev)
      (children.map (Cursor.seekForPrev t))
      (lists.map fun l => (l.takeWhile fun e => decide (Cursor.key C e ≤ t)).reverse) := by
    rw [List.forall₂_map_left_iff, List.forall₂_map_right_iff]
    exact h.imp fun c l hc => hc.seekForPrev t
  refine shows_advance (μ := fun e => OrderDual.toDual (Cursor.key C e)) (fun _ _ => rfl) hrests
    (fun r hr => ?_) (sorted_reverse (hmerged.sublist (List.takeWhile_sublist _))) ?_
  · obtain ⟨l, hl, rfl⟩ := List.mem_map.mp hr
    exact sorted_reverse ((hlists l hl).sublist (List.takeWhile_sublist _))
  · rw [takeWhile_eq_filter hmerged]
    have hcut : (lists.map fun l => (l.takeWhile fun e => decide (Cursor.key C e ≤ t)).reverse) =
        lists.map fun l => (l.filter fun e => decide (Cursor.key C e ≤ t)).reverse :=
      List.map_congr_left fun l hl => congrArg List.reverse (takeWhile_eq_filter (hlists l hl) t)
    rw [hcut]
    exact (List.reverse_perm _).trans
      ((hperm.filter _).trans (perm_flatten_map (fun _ => List.reverse_perm _) lists).symm)

/-- A merge, backward from the end. -/
theorem shows_seekToLast (h : List.Forall₂ Covers children lists)
    (hlists : ∀ l ∈ lists, SortedBy (Cursor.key C) l) (hmerged : SortedBy (Cursor.key C) merged)
    (hperm : merged.Perm lists.flatten) (cur : Option ℕ) :
    Shows Cursor.current Cursor.prev (Cursor.seekToLast (⟨children, cur, true⟩ : Merging C))
      merged.reverse := by
  have hrests : List.Forall₂ (Shows Cursor.current Cursor.prev) (children.map Cursor.seekToLast)
      (lists.map List.reverse) := by
    rw [List.forall₂_map_left_iff, List.forall₂_map_right_iff]
    exact h.imp fun c l hc => hc.last
  refine shows_advance (μ := fun e => OrderDual.toDual (Cursor.key C e)) (fun _ _ => rfl) hrests
    (fun r hr => ?_) (sorted_reverse hmerged) ?_
  · obtain ⟨l, hl, rfl⟩ := List.mem_map.mp hr
    exact sorted_reverse (hlists l hl)
  · have hall := perm_flatten_map (p := fun _ => true) (f := List.reverse)
      (fun l => by rw [List.filter_true]; exact List.reverse_perm l) lists
    rw [List.filter_true] at hall
    exact (List.reverse_perm _).trans (hperm.trans hall.symm)

end Children

end Merging

/-! ### Pulling -/

/-- Pulling again and again hands out the elements of the list, then the end. -/
def Yields {S A : Type} (pull : S → S → Option A → Prop) : S → List A → Prop
  | s, [] => ∀ s' a, pull s s' a → a = none
  | s, x :: l => ∀ s' a, pull s s' a → a = some x ∧ Yields pull s' l

/-- A wrapped iterator hands out what the iterator does. -/
theorem Yields.wrap {S T A : Type} {pull : S → S → Option A → Prop}
    {pull' : T → T → Option A → Prop} {g : S → T}
    (h : ∀ s t a, pull' (g s) t a → ∃ s', t = g s' ∧ pull s s' a) {s : S} {l : List A}
    (hs : Yields pull s l) :
    Yields pull' (g s) l := by
  induction l generalizing s with
  | nil =>
    intro t a hpull
    obtain ⟨s', -, hpull'⟩ := h s t a hpull
    exact hs s' a hpull'
  | cons x l ih =>
    intro t a hpull
    obtain ⟨s', rfl, hpull'⟩ := h s t a hpull
    exact ⟨(hs s' a hpull').1, ih (hs s' a hpull').2⟩

/-- When every pull hands out the head of what remains, and its tail remains
then, all that remains is handed out. -/
theorem Yields.of_remains {S A : Type} {pull : S → S → Option A → Prop} {R : S → List A → Prop}
    (h : ∀ s l, R s l → ∀ s' a, pull s s' a → a = l.head? ∧ (l ≠ [] → R s' l.tail)) {s : S}
    {l : List A}
    (hs : R s l) : Yields pull s l := by
  induction l generalizing s with
  | nil => exact fun s' a hpull => (h s [] hs s' a hpull).1
  | cons x l ih =>
    intro s' a hpull
    obtain ⟨ha, hrest⟩ := h s (x :: l) hs s' a hpull
    exact ⟨ha, ih (hrest (by simp))⟩

end Cursors
