/-
Cursors as indices.

The cursor every other one is measured against is an index into a list of
elements, or nowhere: `Move.index` says where each call takes it.  A cursor
`Follows` that index from some place when it shows the element there and goes on
following it whatever calls come, steps being made only from an element
(`Follows` is the largest such relation, `Tracks` any one of them).

* `ListCursor.follows` — a list searched by bisection follows;
* `Concat.follows` — so does one part after the other, if every part does;
* `Follows.run` — hence after any sequence of calls.
-/
import Fluent31.Lib.Cursor

namespace Cursors

open Ordered

/-! ### Calls -/

/-- A call that positions a cursor. -/
inductive Move (K : Type)
  | seekToFirst
  | seekToLast
  | seek (t : K)
  | seekForPrev (t : K)
  | next
  | prev

/-- Index of the last element that satisfies `p`. -/
def lastIdx? {E : Type} (p : E → Bool) : List E → Option ℕ
  | [] => none
  | e :: l => ((lastIdx? p l).map (· + 1)).or (if p e then some 0 else none)

namespace Move

variable {C E K : Type}

/-- A step starts from the element the cursor stands at. -/
def isStep : Move K → Bool
  | next | prev => true
  | _ => false

def apply [Cursor C E K] : Move K → C → C
  | seekToFirst => Cursor.seekToFirst
  | seekToLast => Cursor.seekToLast
  | seek t => Cursor.seek t
  | seekForPrev t => Cursor.seekForPrev t
  | next => Cursor.next
  | prev => Cursor.prev

/-- The call on an index into `l`. -/
def index [LinearOrder K] (key : E → K) (l : List E) : Move K → Option ℕ → Option ℕ
  | seekToFirst, _ => if l.length = 0 then none else some 0
  | seekToLast, _ => if l.length = 0 then none else some (l.length - 1)
  | seek t, _ => l.findIdx? fun e => decide (t ≤ key e)
  | seekForPrev t, _ => lastIdx? (fun e => decide (key e ≤ t)) l
  | next, p => p.bind fun i => if i + 1 < l.length then some (i + 1) else none
  | prev, p => p.bind fun i => if i = 0 then none else some (i - 1)

/-- The calls one after the other. -/
def runAll [Cursor C E K] (ms : List (Move K)) (c : C) : C := ms.foldl (fun c m => m.apply c) c

def indexAll [LinearOrder K] (key : E → K) (l : List E) (ms : List (Move K)) (p : Option ℕ) :
    Option ℕ :=
  ms.foldl (fun p m => m.index key l p) p

/-- Steps are made only while the cursor stands at an element. -/
def Legal [Cursor C E K] : List (Move K) → C → Prop
  | [], _ => True
  | m :: ms, c => (m.isStep = true → (Cursor.current c).isSome = true) ∧ Legal ms (m.apply c)

end Move

theorem Move.Legal.take {C E K : Type} [Cursor C E K] {ms : List (Move K)} {c : C}
    (h : Move.Legal ms c) (n : ℕ) :
    Move.Legal (ms.take n) c := by
  induction ms generalizing c n with
  | nil =>
    rw [List.take_nil]
    trivial
  | cons m ms ih =>
    cases n with
    | zero => trivial
    | succ n => exact ⟨h.1, ih h.2 n⟩

/-! ### The last index -/

section LastIdx

variable {E : Type} {p : E → Bool}

theorem lastIdx?_none {l : List E} (h : ∀ e ∈ l, p e = false) : lastIdx? p l = none := by
  induction l with
  | nil => rfl
  | cons e l ih =>
    rw [lastIdx?, ih fun f hf => h f (List.mem_cons_of_mem _ hf), h e List.mem_cons_self]
    rfl

theorem lastIdx?_append (xs ys : List E) :
    lastIdx? p (xs ++ ys) = ((lastIdx? p ys).map (· + xs.length)).or (lastIdx? p xs) := by
  induction xs with
  | nil =>
    show lastIdx? p ys = ((lastIdx? p ys).map id).or none
    rw [Option.map_id, Option.or_none]
    rfl
  | cons e xs ih =>
    rw [List.cons_append, lastIdx?, ih, lastIdx?]
    cases lastIdx? p ys with
    | none => rfl
    | some i => rfl

theorem lastIdx?_all {l : List E} (h : ∀ e ∈ l, p e = true) :
    lastIdx? p l = if l.length = 0 then none else some (l.length - 1) := by
  rcases List.eq_nil_or_concat l with rfl | ⟨init, e, rfl⟩
  · rfl
  · have he : p e = true := h e (by simp)
    rw [List.concat_eq_append, lastIdx?_append, if_neg (by simp)]
    simp [lastIdx?, he]

end LastIdx

/-! ### Following an index -/

section Follows

variable {C E K : Type} [Cursor C E K] [LinearOrder K]

/-- `R` relates cursors to the indices they stand at, whatever is called. -/
structure Tracks (l : List E) (R : C → Option ℕ → Prop) : Prop where
  shown {c : C} {p : Option ℕ} : R c p → current c = p.bind fun i => l[i]?
  inside {c : C} {i : ℕ} : R c (some i) → i < l.length
  move {c : C} {p : Option ℕ} (m : Move K) : R c p → (m.isStep = true → p.isSome = true) →
    R (m.apply c) (m.index (Cursor.key C) l p)

/-- The cursor stands at index `p` of `l` and stays with the index. -/
def Follows (l : List E) (c : C) (p : Option ℕ) : Prop :=
  ∃ R : C → Option ℕ → Prop, Tracks l R ∧ R c p

/-- The largest relation that tracks `l`. -/
theorem follows_tracks (l : List E) : Tracks l (Follows l : C → Option ℕ → Prop) where
  shown := fun ⟨_, hR, h⟩ => hR.shown h
  inside := fun ⟨_, hR, h⟩ => hR.inside h
  move m := fun ⟨R, hR, h⟩ hm => ⟨R, hR, hR.move m h hm⟩

variable {l : List E} {c : C} {p : Option ℕ}

theorem Follows.shown (h : Follows l c p) : current c = p.bind fun i => l[i]? :=
  (follows_tracks l).shown h

theorem Follows.inside {i : ℕ} (h : Follows l c (some i)) : i < l.length :=
  (follows_tracks l).inside h

theorem Follows.move (h : Follows l c p) (m : Move K) (hm : m.isStep = true → p.isSome = true) :
    Follows l (m.apply c) (m.index (Cursor.key C) l p) := (follows_tracks l).move m h hm

/-- A cursor stands at an element exactly when the index does. -/
theorem Follows.isSome_eq (h : Follows l c p) : (current c).isSome = p.isSome := by
  rw [h.shown]
  cases p with
  | none => rfl
  | some i =>
    show (l[i]?).isSome = true
    rw [List.getElem?_eq_getElem h.inside]
    rfl

/-- **Any sequence of calls** takes cursor and index to the same place. -/
theorem Follows.run (h : Follows l c p) {ms : List (Move K)} (hms : Move.Legal ms c) :
    Follows l (Move.runAll ms c) (Move.indexAll (Cursor.key C) l ms p) := by
  induction ms generalizing c p with
  | nil => exact h
  | cons m ms ih =>
    obtain ⟨hm, hms⟩ := hms
    exact ih (h.move m fun hstep => h.isSome_eq ▸ hm hstep) hms

/-- A wrapped cursor follows where the cursor does. -/
theorem Follows.map {D : Type} [Cursor D E K] {f : C → D} (h : Follows l c p)
    (hkey : Cursor.key D = Cursor.key C) (hcurrent : ∀ c, current (f c) = current c)
    (hmove : ∀ (m : Move K) c, m.apply (f c) = f (m.apply c)) : Follows l (f c) p := by
  refine ⟨fun d q => ∃ c, d = f c ∧ Follows l c q, ⟨?_, ?_, ?_⟩, c, rfl, h⟩
  · rintro d q ⟨c, rfl, hc⟩
    rw [hcurrent, hc.shown]
  · rintro d i ⟨c, -, hc⟩
    exact hc.inside
  · rintro d q m ⟨c, rfl, hc⟩ hm
    rw [hmove, hkey]
    exact ⟨_, rfl, hc.move m hm⟩

end Follows

/-! ### Lists -/

namespace ListCursor

variable {E K : Type}

/-- The index a position in `l` stands for. -/
def place (l : List E) (pos : ℕ) : Option ℕ := if pos < l.length then some pos else none

theorem place_some {l : List E} {pos : ℕ} (h : pos < l.length) : place l pos = some pos := if_pos h

theorem place_none {l : List E} {pos : ℕ} (h : l.length ≤ pos) : place l pos = none :=
  if_neg (not_lt.mpr h)

theorem place_getElem? (l : List E) (pos : ℕ) : ((place l pos).bind fun i => l[i]?) = l[pos]? := by
  by_cases h : pos < l.length
  · rw [place_some h]
    rfl
  · rw [place_none (not_lt.mp h), List.getElem?_eq_none (not_lt.mp h)]
    rfl

/-- Only a position inside the list stands for an index. -/
theorem of_place {l : List E} {pos i : ℕ} (h : place l pos = some i) : pos = i ∧ i < l.length := by
  unfold place at h
  by_cases hpos : pos < l.length
  · rw [if_pos hpos] at h
    exact Option.some.inj h ▸ ⟨rfl, hpos⟩
  · rw [if_neg hpos] at h
    exact absurd h (Option.some_ne_none i).symm

variable [LinearOrder K] {key : E → K}

theorem lowerBound_eq_findIdx {l : List E} (h : SortedBy key l) (t : K) :
    lowerBound key l t = l.findIdx fun e => decide (t ≤ key e) := by
  have hnot : (fun e => !decide (key e < t)) = fun e => decide (t ≤ key e) := by
    funext e
    rw [← decide_not, decide_eq_decide]
    exact not_lt
  rw [lowerBound, partitionPoint_eq (lower_monotone h t), List.takeWhile_eq_take_findIdx_not, hnot,
    List.length_take]
  exact Nat.min_eq_left List.findIdx_le_length

/-- The bisection of a backward seek stops at the last element up to `t`. -/
theorem place_toPrev {l : List E} (h : SortedBy key l) (pos : ℕ) (t : K) :
    place l (toPrev t (⟨l, pos⟩ : ListCursor key)).pos =
      lastIdx? (fun e => decide (key e ≤ t)) l := by
  have hlb : lowerBound key l t = (l.takeWhile fun e => decide (key e < t)).length :=
    partitionPoint_eq (lower_monotone h t)
  have hsplit : l.takeWhile (fun e => decide (key e < t)) ++ l.dropWhile
      (fun e => decide (key e < t)) = l :=
    List.takeWhile_append_dropWhile
  have hbefore : ∀ e ∈ l.takeWhile (fun e => decide (key e < t)), decide (key e ≤ t) = true :=
    fun e he => decide_eq_true (le_of_lt (of_decide_eq_true
      (List.mem_takeWhile_imp (p := fun e : E => decide (key e < t)) he)))
  have hhead := List.head?_dropWhile_not (fun e : E => decide (key e < t)) l
  unfold toPrev
  simp only [hlb]
  generalize l.takeWhile (fun e => decide (key e < t)) = pre at *
  generalize l.dropWhile (fun e => decide (key e < t)) = post at *
  subst hsplit
  have hget : (pre ++ post)[pre.length]? = post.head? := by
    rw [List.getElem?_append_right le_rfl, Nat.sub_self, List.head?_eq_getElem?]
  -- when the elements from `t` on all lie after it, the answer is the last of `pre`
  have hback : (∀ e ∈ post, decide (key e ≤ t) = false) →
      place (pre ++ post) (if pre.length = 0 then (pre ++ post).length else pre.length - 1) =
        lastIdx? (fun e => decide (key e ≤ t)) (pre ++ post) := by
    intro hpost
    rw [lastIdx?_append, lastIdx?_none hpost, lastIdx?_all hbefore]
    by_cases hlen : pre.length = 0
    · rw [if_pos hlen, if_pos hlen]
      exact place_none le_rfl
    · rw [if_neg hlen, if_neg hlen]
      refine place_some ?_
      rw [List.length_append]
      omega
  rw [hget]
  cases post with
  | nil =>
    rw [if_neg (by simp)]
    exact hback fun e he => absurd he List.not_mem_nil
  | cons e rest =>
    have hge : t ≤ key e := by simpa using hhead
    have hrest : ∀ f ∈ rest, key e < key f :=
      (List.pairwise_cons.mp (List.pairwise_append.mp h).2.1).1
    by_cases heq : key e = t
    · -- the target itself is there
      have hnone : ∀ f ∈ rest, decide (key f ≤ t) = false := by
        intro f hf
        exact decide_eq_false (not_le.mpr (heq ▸ hrest f hf))
      rw [if_pos (by simpa using heq), lastIdx?_append, lastIdx?, lastIdx?_none hnone,
        if_pos (decide_eq_true (le_of_eq heq))]
      show place _ _ = some (0 + pre.length)
      rw [Nat.zero_add]
      exact place_some (by simp)
    · rw [if_neg (by simpa using heq)]
      refine hback fun f hf => decide_eq_false (not_le.mpr ?_)
      rcases List.mem_cons.mp hf with rfl | hf
      · exact lt_of_le_of_ne hge fun heq' => heq heq'.symm
      · exact lt_of_le_of_lt hge (hrest f hf)

/-- **Lists** follow the index. -/
theorem follows {l : List E} (h : SortedBy key l) (pos : ℕ) :
    Follows l (⟨l, pos⟩ : ListCursor key) (place l pos) := by
  refine ⟨fun it p => it.list = l ∧ p = place l it.pos, ⟨?_, ?_, ?_⟩, rfl, rfl⟩
  · rintro ⟨l, pos⟩ p ⟨rfl, rfl⟩
    exact (place_getElem? l pos).symm
  · rintro ⟨l, pos⟩ i ⟨rfl, hi⟩
    exact (of_place hi.symm).2
  · rintro ⟨l, pos⟩ p m ⟨rfl, rfl⟩ hm
    -- a step is asked of a cursor with a place only
    change m.isStep = true → (place l pos).isSome = true at hm
    cases m with
    | seekToFirst =>
      refine ⟨rfl, ?_⟩
      show (if l.length = 0 then none else some 0) = place l 0
      by_cases hlen : l.length = 0
      · rw [if_pos hlen, place_none (by omega)]
      · rw [if_neg hlen, place_some (by omega)]
    | seekToLast =>
      refine ⟨rfl, ?_⟩
      show (if l.length = 0 then none else some (l.length - 1)) =
        place l (if l.length = 0 then 0 else l.length - 1)
      by_cases hlen : l.length = 0
      · rw [if_pos hlen, if_pos hlen, place_none (by omega)]
      · rw [if_neg hlen, if_neg hlen, place_some (by omega)]
    | seek t =>
      refine ⟨rfl, ?_⟩
      show (l.findIdx? fun e => decide (t ≤ key e)) = place l (lowerBound key l t)
      rw [lowerBound_eq_findIdx h, List.findIdx?_eq_guard_findIdx_lt]
      by_cases hlt : l.findIdx (fun e => decide (t ≤ key e)) < l.length
      · rw [place_some hlt]
        exact Option.guard_eq_some_iff.mpr ⟨rfl, decide_eq_true hlt⟩
      · rw [place_none (not_lt.mp hlt)]
        exact Option.guard_eq_none_iff.mpr (decide_eq_false hlt)
    | seekForPrev t =>
      refine ⟨?_, (place_toPrev h pos t).symm⟩
      show (toPrev t (⟨l, pos⟩ : ListCursor key)).list = l
      unfold toPrev
      simp only
      split <;> rfl
    | next =>
      obtain ⟨i, hi⟩ := Option.isSome_iff_exists.mp (hm rfl)
      obtain ⟨rfl, -⟩ := of_place hi
      rw [hi]
      exact ⟨rfl, rfl⟩
    | prev =>
      obtain ⟨i, hi⟩ := Option.isSome_iff_exists.mp (hm rfl)
      obtain ⟨rfl, hlt⟩ := of_place hi
      refine ⟨rfl, ?_⟩
      rw [hi]
      show (if pos = 0 then none else some (pos - 1)) =
        place l (if pos = 0 then l.length else pos - 1)
      by_cases hzero : pos = 0
      · rw [if_pos hzero, if_pos hzero, place_none le_rfl]
      · rw [if_neg hzero, if_neg hzero, place_some (by omega)]

end ListCursor

/-! ### Concatenation -/

namespace Concat

variable {P C E K : Type}

/-- How many elements the parts before part `i` hold. -/
def offset (held : P → List E) (parts : List P) (i : ℕ) : ℕ := ((parts.take i).flatMap held).length

section Offset

variable {held : P → List E} {parts : List P} {i : ℕ} {p : P}

theorem flatMap_split (hi : parts[i]? = some p) :
    parts.flatMap held = (parts.take i).flatMap held ++
      (held p ++ (parts.drop (i + 1)).flatMap held) := by
  obtain ⟨hlt, rfl⟩ := List.getElem?_eq_some_iff.mp hi
  conv_lhs => rw [← List.take_append_drop i parts, List.drop_eq_getElem_cons hlt]
  rw [List.flatMap_append, List.flatMap_cons]

theorem offset_succ (hi : parts[i]? = some p) :
    offset held parts (i + 1) = offset held parts i + (held p).length := by
  obtain ⟨hlt, rfl⟩ := List.getElem?_eq_some_iff.mp hi
  unfold offset
  rw [List.take_succ_eq_append_getElem hlt, List.flatMap_append, List.length_append,
    List.flatMap_singleton]

theorem length_eq (hi : parts[i]? = some p) :
    (parts.flatMap held).length = offset held parts (i + 1) +
      ((parts.drop (i + 1)).flatMap held).length := by
  rw [offset_succ hi, flatMap_split hi, List.length_append, List.length_append, offset,
    Nat.add_assoc]

/-- Element `k` of part `i`, in the parts end to end. -/
theorem getElem?_offset (hi : parts[i]? = some p) {k : ℕ} (hk : k < (held p).length) :
    (parts.flatMap held)[offset held parts i + k]? = (held p)[k]? := by
  rw [flatMap_split hi, offset, List.getElem?_append_right (Nat.le_add_right _ _),
    Nat.add_sub_cancel_left, List.getElem?_append_left hk]

end Offset

variable [Cursor C E K] [LinearOrder K]

/-- Index `j` is index `k` of the part that is open. -/
def At (parts : List P) (held : P → List E) (it : Concat P C) : Option ℕ → Prop
  | none => it.parts = parts ∧ it.current = none
  | some j => ∃ (i : ℕ) (p : P) (c : C) (k : ℕ), parts[i]? = some p ∧ it = ⟨parts, i, some c⟩ ∧
      Follows (held p) c (some k) ∧ j = offset held parts i + k

theorem At.parts_eq {parts : List P} {held : P → List E} {it : Concat P C} {q : Option ℕ}
    (h : At parts held it q) : it.parts = parts := by
  cases q with
  | none => exact h.1
  | some j =>
    obtain ⟨i, p, c, k, -, rfl, -, -⟩ := h
    rfl

theorem At.shown {parts : List P} {held : P → List E} {it : Concat P C} {q : Option ℕ}
    (h : At parts held it q) : it.current = q.bind fun i => (parts.flatMap held)[i]? := by
  cases q with
  | none => exact h.2
  | some j =>
    obtain ⟨i, p, c, k, hi, rfl, hc, rfl⟩ := h
    show Cursor.current c = (parts.flatMap held)[offset held parts i + k]?
    rw [getElem?_offset hi hc.inside]
    exact hc.shown

theorem At.inside {parts : List P} {held : P → List E} {it : Concat P C} {j : ℕ}
    (h : At parts held it (some j)) : j < (parts.flatMap held).length := by
  obtain ⟨i, p, c, k, hi, rfl, hc, rfl⟩ := h
  have hk : k < (held p).length := hc.inside
  have hlen : (parts.flatMap held).length = _ := length_eq hi
  rw [offset_succ hi] at hlen
  omega

theorem At.isSome {parts : List P} {held : P → List E} {it : Concat P C} {j : ℕ}
    (h : At parts held it (some j)) : it.current.isSome = true := by
  rw [h.shown]
  show ((parts.flatMap held)[j]?).isSome = true
  rw [List.getElem?_eq_getElem h.inside]
  rfl

variable [Part P C E K] {parts : List P} {held : P → List E}

/-- Opening part `i` with a call that lands on its element `k`. -/
theorem load_at (hfollows : ∀ p ∈ parts, Follows (held p) (Part.iter p : C) none) {it : Concat P C}
    (hparts : it.parts = parts) {i : ℕ} {p : P} (hi : parts[i]? = some p) {m : Move K}
    (hm : m.isStep = false) {k : ℕ} (hk : m.index (Cursor.key C) (held p) none = some k) :
    At parts held (it.load i m.apply) (some (offset held parts i + k)) := by
  refine ⟨i, p, m.apply (Part.iter p), k, hi, ?_, ?_, rfl⟩
  · unfold load
    rw [hparts, hi]
    rfl
  · have hmove :=
      (hfollows p (List.mem_of_getElem? hi)).move m fun hs => absurd (hm ▸ hs) Bool.false_ne_true
    rwa [hk] at hmove

theorem at_first (h : Holds (C := C) parts held)
    (hfollows : ∀ p ∈ parts, Follows (held p) (Part.iter p : C) none) {it : Concat P C}
    (hparts : it.parts = parts) :
    At parts held it.first (if (parts.flatMap held).length = 0 then none else some 0) := by
  cases parts with
  | nil =>
    refine ⟨hparts, ?_⟩
    unfold first load
    rw [hparts]
    rfl
  | cons p rest =>
    have hpos := List.length_pos_iff.mpr (h.nonempty List.mem_cons_self)
    rw [if_neg (by rw [List.flatMap_cons, List.length_append]; omega)]
    exact load_at hfollows hparts (i := 0) (p := p) rfl (m := .seekToFirst) rfl (if_neg (by omega))

/-- Opening the part before part `i` at its end. -/
theorem at_back (h : Holds (C := C) parts held)
    (hfollows : ∀ p ∈ parts, Follows (held p) (Part.iter p : C) none) {it : Concat P C}
    (hparts : it.parts = parts)
    {i : ℕ} {p : P} (hi : parts[i]? = some p) :
    At parts held (it.load i seekToLast) (some (offset held parts (i + 1) - 1)) := by
  have hpos := List.length_pos_iff.mpr (h.nonempty (List.mem_of_getElem? hi))
  have hload := load_at hfollows hparts hi (m := .seekToLast) rfl (if_neg (by omega))
  rw [offset_succ hi, Nat.add_sub_assoc hpos]
  exact hload

theorem at_last (h : Holds (C := C) parts held)
    (hfollows : ∀ p ∈ parts, Follows (held p) (Part.iter p : C) none) {it : Concat P C}
    (hparts : it.parts = parts) :
    At parts held it.last
      (if (parts.flatMap held).length = 0 then
        none else some ((parts.flatMap held).length - 1)) := by
  rcases List.eq_nil_or_concat parts with rfl | ⟨init, p, rfl⟩
  · refine ⟨hparts, ?_⟩
    unfold last load
    rw [hparts]
    rfl
  · rw [List.concat_eq_append] at *
    have hi : (init ++ [p])[(init ++ [p]).length - 1]? = some p := by simp
    have hpos := List.length_pos_iff.mpr (h.nonempty (List.mem_of_getElem? hi))
    have hlen : ((init ++ [p]).flatMap held).length = _ := length_eq hi
    rw [List.drop_eq_nil_of_le (by omega), List.flatMap_nil, List.length_nil, Nat.add_zero] at hlen
    rw [if_neg (by rw [hlen, offset_succ hi]; omega), hlen]
    have hback := at_back h hfollows hparts hi
    unfold last
    rw [hparts]
    exact hback

/-- The open part's cursor, wherever it went, and on to the next part. -/
theorem at_skipForward (h : Holds (C := C) parts held)
    (hfollows : ∀ p ∈ parts, Follows (held p) (Part.iter p : C) none) {i : ℕ} {p : P}
    (hi : parts[i]? = some p)
    {c : C} {k : ℕ} (hk : k < (held p).length)
    (hc : Follows (held p) c (if k + 1 < (held p).length then some (k + 1) else none)) :
    At parts held (⟨parts, i, some c⟩ : Concat P C).skipForward
      (if offset held parts i + k + 1 < (parts.flatMap held).length then
        some (offset held parts i + k + 1)
        else none) := by
  have hlen : (parts.flatMap held).length = _ := length_eq hi
  rw [offset_succ hi] at hlen
  by_cases hin : k + 1 < (held p).length
  · -- still in the same part
    rw [if_pos hin] at hc
    have hsome : (⟨parts, i, some c⟩ : Concat P C).current.isSome = true := hc.isSome_eq
    rw [skipForward_eq hsome, if_pos (by omega)]
    exact ⟨i, p, c, k + 1, hi, rfl, hc, rfl⟩
  · rw [if_neg hin] at hc
    have hnone : ¬ (⟨parts, i, some c⟩ : Concat P C).current.isSome = true := by
      show ¬ (Cursor.current c).isSome = true
      rw [hc.isSome_eq]
      exact Bool.false_ne_true
    have hend : k + 1 = (held p).length := by omega
    rw [skipForward, if_neg hnone]
    by_cases hnext : i + 1 < parts.length
    · have hi' : parts[i + 1]? = some parts[i + 1] := List.getElem?_eq_getElem hnext
      have hpos := List.length_pos_iff.mpr (h.nonempty (List.getElem_mem hnext))
      have hmore : (parts.flatMap held).length = _ := length_eq hi'
      rw [offset_succ hi', offset_succ hi] at hmore
      rw [if_pos (by exact hnext), if_pos (by omega), Nat.add_assoc, hend, ← offset_succ hi]
      exact load_at hfollows rfl hi' (m := .seekToFirst) rfl (if_neg (by omega))
    · rw [List.drop_eq_nil_of_le (by omega), List.flatMap_nil, List.length_nil] at hlen
      rw [if_neg (by exact hnext), if_neg (by omega)]
      exact ⟨rfl, h.atEnd c hc.shown⟩

/-- The open part's cursor exhausted backwards, and on to the part before. -/
theorem at_skipBack (h : Holds (C := C) parts held)
    (hfollows : ∀ p ∈ parts, Follows (held p) (Part.iter p : C) none) {i : ℕ} {p : P}
    (hi : parts[i]? = some p)
    {c : C} (hc : Follows (held p) c none) :
    At parts held (⟨parts, i, some c⟩ : Concat P C).skipBack
      (if offset held parts i = 0 then none else some (offset held parts i - 1)) := by
  have hnone : ¬ (⟨parts, i, some c⟩ : Concat P C).current.isSome = true := by
    show ¬ (Cursor.current c).isSome = true
    rw [hc.isSome_eq]
    exact Bool.false_ne_true
  rw [skipBack, if_neg hnone]
  cases i with
  | zero =>
    rw [if_neg (by exact lt_irrefl 0)]
    exact ⟨rfl, h.atEnd c hc.shown⟩
  | succ i =>
    obtain ⟨hlt, -⟩ := List.getElem?_eq_some_iff.mp hi
    have hi' : parts[i]? = some parts[i] := List.getElem?_eq_getElem (by omega)
    have hpos := List.length_pos_iff.mpr (h.nonempty (List.mem_of_getElem? hi'))
    have hoff : offset held parts (i + 1) ≠ 0 := by
      rw [offset_succ hi']
      omega
    rw [if_pos (by exact Nat.succ_pos i), if_neg hoff]
    exact at_back h hfollows rfl hi'

theorem at_seek (h : Holds (C := C) parts held)
    (hfollows : ∀ p ∈ parts, Follows (held p) (Part.iter p : C) none) {it : Concat P C}
    (hparts : it.parts = parts)
    (t : K) : At parts held (it.seek t)
      ((parts.flatMap held).findIdx? fun e => decide (t ≤ Cursor.key C e)) := by
  obtain ⟨hsplit, hpoint, hbefore, hafter⟩ := h.cut t rfl rfl
  unfold seek
  simp only [hparts, hpoint]
  generalize (parts.takeWhile fun p => decide (Part.lastKey C p < t)) = pre at *
  generalize (parts.dropWhile fun p => decide (Part.lastKey C p < t)) = post at *
  have hpre : (pre.flatMap held).findIdx? (fun e => decide (t ≤ Cursor.key C e)) = none := by
    rw [List.findIdx?_eq_none_iff]
    intro e he
    exact decide_eq_false (not_le.mpr (hbefore e he))
  cases post with
  | nil =>
    rw [List.append_nil] at hsplit
    rw [if_pos (le_of_eq (congrArg List.length hsplit)), hsplit, hpre]
    exact ⟨rfl, rfl⟩
  | cons p rest =>
    obtain ⟨last, hlast, hge, -⟩ := hafter p rest rfl
    have hi : parts[pre.length]? = some p := by simp [hsplit]
    have hoff : offset held parts pre.length = (pre.flatMap held).length := by simp [offset, hsplit]
    -- the last element of the part is at or after the target
    obtain ⟨k, hk⟩ : ∃ k, (held p).findIdx? (fun e => decide (t ≤ Cursor.key C e)) = some k :=
      Option.isSome_iff_exists.mp (List.findIdx?_isSome.trans
        (List.any_eq_true.mpr ⟨last, List.mem_of_getLast? hlast, decide_eq_true hge⟩))
    have hfound : (parts.flatMap held).findIdx? (fun e => decide (t ≤ Cursor.key C e)) =
        some (offset held parts pre.length + k) := by
      rw [hsplit, List.flatMap_append, List.findIdx?_append, hpre, List.flatMap_cons,
        List.findIdx?_append, hk, ← hsplit, hoff, Nat.add_comm]
      rfl
    have hload := load_at hfollows hparts hi (m := .seek t) rfl hk
    rw [if_neg (by simp [hsplit]), hfound]
    change At parts held (it.load pre.length (Move.seek t).apply).skipForward _
    rw [skipForward_eq hload.isSome]
    exact hload

theorem at_seekForPrev (h : Holds (C := C) parts held)
    (hfollows : ∀ p ∈ parts, Follows (held p) (Part.iter p : C) none) {it : Concat P C}
    (hparts : it.parts = parts)
    (t : K) :
    At parts held (it.seekForPrev t)
      (lastIdx? (fun e => decide (Cursor.key C e ≤ t)) (parts.flatMap held)) := by
  obtain ⟨hsplit, hpoint, hbefore, hafter⟩ := h.cut t rfl rfl
  unfold seekForPrev
  simp only [hparts, hpoint]
  generalize (parts.takeWhile fun p => decide (Part.lastKey C p < t)) = pre at *
  generalize (parts.dropWhile fun p => decide (Part.lastKey C p < t)) = post at *
  have hpre : lastIdx? (fun e => decide (Cursor.key C e ≤ t)) (pre.flatMap held) =
      if (pre.flatMap held).length = 0 then none else some ((pre.flatMap held).length - 1) :=
    lastIdx?_all fun e he => decide_eq_true (le_of_lt (hbefore e he))
  cases post with
  | nil =>
    -- every element lies before the target
    rw [List.append_nil] at hsplit
    rw [if_pos (le_of_eq (congrArg List.length hsplit))]
    have hlast := at_last h hfollows hparts
    rw [hsplit] at hlast ⊢
    rwa [hpre]
  | cons p rest =>
    obtain ⟨-, -, -, hgt⟩ := hafter p rest rfl
    have hi : parts[pre.length]? = some p := by simp [hsplit]
    have hoff : offset held parts pre.length = (pre.flatMap held).length := by simp [offset, hsplit]
    have hrest : lastIdx? (fun e => decide (Cursor.key C e ≤ t)) (rest.flatMap held) = none :=
      lastIdx?_none fun e he => decide_eq_false (not_le.mpr (hgt e he))
    have hfound : lastIdx? (fun e => decide (Cursor.key C e ≤ t)) (parts.flatMap held) =
        ((lastIdx? (fun e => decide (Cursor.key C e ≤ t)) (held p)).map
          (· + offset held parts pre.length)).or (if offset held parts pre.length = 0 then
            none else some (offset held parts pre.length - 1)) := by
      rw [hoff, ← hpre, hsplit, List.flatMap_append, lastIdx?_append, List.flatMap_cons,
        lastIdx?_append, hrest]
      rfl
    rw [if_neg (by simp [hsplit]), hfound]
    cases hk : lastIdx? (fun e => decide (Cursor.key C e ≤ t)) (held p) with
    | some k =>
      have hload := load_at hfollows hparts hi (m := .seekForPrev t) rfl hk
      show At parts held (it.load pre.length (Move.seekForPrev t).apply).skipBack
        (some (k + offset held parts pre.length))
      rw [skipBack_eq hload.isSome, Nat.add_comm]
      exact hload
    | none =>
      -- every element of this part lies after the target
      have hmove := (hfollows p (List.mem_of_getElem? hi)).move (.seekForPrev t) fun hs =>
        absurd hs Bool.false_ne_true
      rw [show Move.index (Cursor.key C) (held p) (.seekForPrev t) none = none from hk] at hmove
      have hload : it.load pre.length (Cursor.seekForPrev t) =
          ⟨parts, pre.length, some (Cursor.seekForPrev t (Part.iter p))⟩ := by
        unfold load
        rw [hparts, hi]
        rfl
      rw [hload]
      exact at_skipBack h hfollows hi hmove

/-- **One part after the other** follows the index into all of them. -/
theorem follows (h : Holds (C := C) parts held)
    (hfollows : ∀ p ∈ parts, Follows (held p) (Part.iter p : C) none) (idx : ℕ) :
    Follows (parts.flatMap held) (⟨parts, idx, none⟩ : Concat P C) none := by
  refine ⟨At parts held, ⟨At.shown, At.inside, ?_⟩, rfl, rfl⟩
  intro it q m hat hm
  cases m with
  | seekToFirst => exact at_first h hfollows hat.parts_eq
  | seekToLast => exact at_last h hfollows hat.parts_eq
  | seek t => exact at_seek h hfollows hat.parts_eq t
  | seekForPrev t => exact at_seekForPrev h hfollows hat.parts_eq t
  | next =>
    obtain ⟨j, rfl⟩ := Option.isSome_iff_exists.mp (hm rfl)
    obtain ⟨i, p, c, k, hi, rfl, hc, rfl⟩ := hat
    exact at_skipForward h hfollows hi hc.inside (hc.move .next fun _ => rfl)
  | prev =>
    obtain ⟨j, rfl⟩ := Option.isSome_iff_exists.mp (hm rfl)
    obtain ⟨i, p, c, k, hi, rfl, hc, rfl⟩ := hat
    have hmove := hc.move .prev fun _ => rfl
    cases k with
    | zero =>
      -- the first element of its part
      exact at_skipBack h hfollows hi hmove
    | succ k =>
      have hsome : (⟨parts, i, some (Cursor.prev c)⟩ : Concat P C).current.isSome = true :=
        hmove.isSome_eq
      show At parts held (⟨parts, i, some (Cursor.prev c)⟩ : Concat P C).skipBack
        (some (offset held parts i + k))
      rw [skipBack_eq hsome]
      exact ⟨i, p, _, k, hi, rfl, hmove, rfl⟩

end Concat

end Cursors
