/-
Lists ordered by a key: lower bound, insertion, k-way merge.

`SortedBy key l` is strict order by key.  The three operations every ordered
source of a storage engine is built from are given with their specifications:

* `lowerBound` — the first element at or after a target
  (`lowerBound_eq_some`, `lowerBound_eq_none`);
* `insertBy` — insertion that replaces an element of equal key
  (`mem_insertBy`, `sortedBy_insertBy`);
* `popLeast` / `mergeAll` — the merge that repeatedly takes the least head of
  its children (`perm_mergeAll`, `sortedBy_mergeAll`).
-/
import Mathlib.Algebra.Order.Ring.Nat
import Mathlib.Order.Nat
import Mathlib.Data.List.Basic
import Mathlib.Order.Defs.LinearOrder

namespace Ordered

variable {α κ : Type*} [LinearOrder κ] {key : α → κ}

/-- Strictly ascending by key. -/
def SortedBy (key : α → κ) (l : List α) : Prop := l.Pairwise fun a b => key a < key b

theorem SortedBy.key_inj {l : List α} (h : SortedBy key l) {a b : α} (ha : a ∈ l) (hb : b ∈ l)
    (hk : key a = key b) : a = b := by
  induction l with
  | nil => exact absurd ha List.not_mem_nil
  | cons c l ih =>
    obtain ⟨hc, hl⟩ := List.pairwise_cons.mp h
    rcases List.mem_cons.mp ha with hac | hal <;> rcases List.mem_cons.mp hb with hbc | hbl
    · rw [hac, hbc]
    · exact absurd hk (by rw [hac]; exact ne_of_lt (hc b hbl))
    · exact absurd hk.symm (by rw [hbc]; exact ne_of_lt (hc a hal))
    · exact ih hl hal hbl

/-! ### Lower bound -/

/-- The first element whose key is at or after `t`. -/
def lowerBound (key : α → κ) (t : κ) (l : List α) : Option α :=
  l.find? fun a => decide (t ≤ key a)

theorem lowerBound_eq_none {t : κ} {l : List α} :
    lowerBound key t l = none ↔ ∀ a ∈ l, key a < t := by
  simp [lowerBound]

/-- In a sorted list the lower bound is the least element at or after `t`. -/
theorem lowerBound_eq_some {t : κ} {l : List α} (h : SortedBy key l) {a : α}
    (ha : lowerBound key t l = some a) :
    a ∈ l ∧ t ≤ key a ∧ ∀ b ∈ l, t ≤ key b → key a ≤ key b := by
  induction l with
  | nil => simp [lowerBound] at ha
  | cons c l ih =>
    obtain ⟨hc, hl⟩ := List.pairwise_cons.mp h
    unfold lowerBound at ha ih
    by_cases htc : t ≤ key c
    · rw [List.find?_cons_of_pos (by simpa using htc), Option.some_inj] at ha
      subst ha
      refine ⟨List.mem_cons_self, htc, fun b hb _ => ?_⟩
      rcases List.mem_cons.mp hb with rfl | hb
      · exact le_rfl
      · exact le_of_lt (hc b hb)
    · rw [List.find?_cons_of_neg (by simpa using htc)] at ha
      obtain ⟨hmem, hle, hleast⟩ := ih hl ha
      refine ⟨List.mem_cons_of_mem _ hmem, hle, fun b hb hbt => ?_⟩
      rcases List.mem_cons.mp hb with rfl | hb
      · exact absurd hbt htc
      · exact hleast b hb hbt

/-! ### Insertion -/

/-- Insert `a` in key order, replacing an element with the same key. -/
def insertBy (key : α → κ) (a : α) : List α → List α
  | [] => [a]
  | b :: l =>
    if key a < key b then a :: b :: l
    else if key b < key a then b :: insertBy key a l
    else a :: l

theorem mem_insertBy {a b : α} {l : List α} (h : SortedBy key l) :
    b ∈ insertBy key a l ↔ b = a ∨ (b ∈ l ∧ key b ≠ key a) := by
  induction l with
  | nil => simp [insertBy]
  | cons c l ih =>
    obtain ⟨hc, hl⟩ := List.pairwise_cons.mp h
    unfold insertBy
    split_ifs with h1 h2
    · -- everything in the list lies after `a`
      have hall : ∀ d ∈ c :: l, key d ≠ key a := by
        intro d hd
        rcases List.mem_cons.mp hd with rfl | hd
        · exact ne_of_gt h1
        · exact ne_of_gt (lt_trans h1 (hc d hd))
      constructor
      · intro hb
        rcases List.mem_cons.mp hb with rfl | hb
        · exact Or.inl rfl
        · exact Or.inr ⟨hb, hall b hb⟩
      · rintro (rfl | ⟨hb, -⟩)
        · exact List.mem_cons_self
        · exact List.mem_cons_of_mem _ hb
    · rw [List.mem_cons, ih hl, List.mem_cons]
      constructor
      · rintro (rfl | rfl | ⟨hb, hne⟩)
        · exact Or.inr ⟨Or.inl rfl, ne_of_lt h2⟩
        · exact Or.inl rfl
        · exact Or.inr ⟨Or.inr hb, hne⟩
      · rintro (rfl | ⟨rfl | hb, hne⟩)
        · exact Or.inr (Or.inl rfl)
        · exact Or.inl rfl
        · exact Or.inr (Or.inr ⟨hb, hne⟩)
    · -- `c` has the key of `a` and is replaced
      have hceq : key c = key a := le_antisymm (not_lt.mp h1) (not_lt.mp h2)
      rw [List.mem_cons, List.mem_cons]
      constructor
      · rintro (rfl | hb)
        · exact Or.inl rfl
        · exact Or.inr ⟨Or.inr hb, fun he => absurd (hc b hb) (by rw [hceq, he]; exact lt_irrefl _)⟩
      · rintro (rfl | ⟨rfl | hb, hne⟩)
        · exact Or.inl rfl
        · exact absurd hceq hne
        · exact Or.inr hb

theorem sortedBy_insertBy {a : α} {l : List α} (h : SortedBy key l) :
    SortedBy key (insertBy key a l) := by
  induction l with
  | nil => exact List.pairwise_singleton _ _
  | cons c l ih =>
    obtain ⟨hc, hl⟩ := List.pairwise_cons.mp h
    unfold insertBy
    split_ifs with h1 h2
    · refine List.pairwise_cons.mpr ⟨fun b hb => ?_, h⟩
      rcases List.mem_cons.mp hb with rfl | hb
      · exact h1
      · exact lt_trans h1 (hc b hb)
    · refine List.pairwise_cons.mpr ⟨fun b hb => ?_, ih hl⟩
      rcases (mem_insertBy hl).mp hb with rfl | ⟨hb, -⟩
      · exact h2
      · exact hc b hb
    · have hceq : key c = key a := le_antisymm (not_lt.mp h1) (not_lt.mp h2)
      exact List.pairwise_cons.mpr ⟨fun b hb => hceq ▸ hc b hb, hl⟩

/-! ### Merging -/

/-- Take the least head among the children (the first child's on a tie), with
the children that remain. -/
def popLeast (key : α → κ) : List (List α) → Option (α × List (List α))
  | [] => none
  | [] :: cs => (popLeast key cs).map fun r => (r.1, [] :: r.2)
  | (a :: c) :: cs =>
    match popLeast key cs with
    | none => some (a, c :: cs)
    | some (b, cs') => if key b < key a then some (b, (a :: c) :: cs') else some (a, c :: cs)

/-- The merge of the children, at most `fuel` elements of it. -/
def mergeUpTo (key : α → κ) : ℕ → List (List α) → List α
  | 0, _ => []
  | fuel + 1, cs =>
    match popLeast key cs with
    | none => []
    | some (a, cs') => a :: mergeUpTo key fuel cs'

/-- All elements of the children, least key first. -/
def mergeAll (key : α → κ) (cs : List (List α)) : List α :=
  mergeUpTo key cs.flatten.length cs

theorem popLeast_eq_none {cs : List (List α)} : popLeast key cs = none ↔ cs.flatten = [] := by
  induction cs with
  | nil => simp [popLeast]
  | cons c cs ih =>
    cases c with
    | nil => simp [popLeast, ih]
    | cons a c =>
      simp only [popLeast, List.flatten_cons, List.cons_append]
      split
      · simp
      · split <;> simp

theorem popLeast_perm {cs cs' : List (List α)} {a : α} (h : popLeast key cs = some (a, cs')) :
    (a :: cs'.flatten).Perm cs.flatten := by
  induction cs generalizing a cs' with
  | nil => simp [popLeast] at h
  | cons c cs ih =>
    cases c with
    | nil =>
      simp only [popLeast, Option.map_eq_some_iff] at h
      obtain ⟨⟨b, ds⟩, hb, heq⟩ := h
      obtain ⟨rfl, rfl⟩ := Prod.mk.inj heq
      simpa using ih hb
    | cons d c =>
      simp only [popLeast] at h
      split at h
      · obtain ⟨rfl, rfl⟩ := Prod.mk.inj (Option.some_inj.mp h)
        exact List.Perm.refl _
      · rename_i b ds hb
        split at h
        · obtain ⟨rfl, rfl⟩ := Prod.mk.inj (Option.some_inj.mp h)
          simp only [List.flatten_cons]
          exact List.perm_middle.symm.trans ((ih hb).append_left (d :: c))
        · obtain ⟨rfl, rfl⟩ := Prod.mk.inj (Option.some_inj.mp h)
          exact List.Perm.refl _

/-- The element taken is least, and the children stay sorted. -/
theorem popLeast_least {cs cs' : List (List α)} {a : α} (hs : ∀ c ∈ cs, SortedBy key c)
    (h : popLeast key cs = some (a, cs')) :
    (∀ b ∈ cs.flatten, key a ≤ key b) ∧ ∀ c ∈ cs', SortedBy key c := by
  induction cs generalizing a cs' with
  | nil => simp [popLeast] at h
  | cons c cs ih =>
    have hcs : ∀ c ∈ cs, SortedBy key c := fun c hc => hs c (List.mem_cons_of_mem _ hc)
    cases c with
    | nil =>
      simp only [popLeast, Option.map_eq_some_iff] at h
      obtain ⟨⟨b, ds⟩, hb, heq⟩ := h
      obtain ⟨rfl, rfl⟩ := Prod.mk.inj heq
      obtain ⟨hleast, hsorted⟩ := ih hcs hb
      refine ⟨by simpa using hleast, fun c hc => ?_⟩
      rcases List.mem_cons.mp hc with rfl | hc
      · exact List.Pairwise.nil
      · exact hsorted c hc
    | cons d c =>
      have hdc : SortedBy key (d :: c) := hs _ List.mem_cons_self
      obtain ⟨hd, hc⟩ := List.pairwise_cons.mp hdc
      have hhead : ∀ b ∈ d :: c, key d ≤ key b := by
        intro b hb
        rcases List.mem_cons.mp hb with rfl | hb
        · exact le_rfl
        · exact le_of_lt (hd b hb)
      simp only [popLeast] at h
      split at h
      · -- no other child has an element: the head of `c` is taken
        rename_i hnone
        obtain ⟨rfl, rfl⟩ := Prod.mk.inj (Option.some_inj.mp h)
        rw [popLeast_eq_none] at hnone
        refine ⟨by simpa [hnone] using hhead, fun e he => ?_⟩
        rcases List.mem_cons.mp he with rfl | he
        · exact hc
        · exact hcs e he
      · rename_i b ds hb
        obtain ⟨hleast, hsorted⟩ := ih hcs hb
        have hbmem : b ∈ cs.flatten := (popLeast_perm hb).mem_iff.mp List.mem_cons_self
        split at h
        · -- the other children have a smaller head, and `c` stays
          rename_i hlt
          obtain ⟨rfl, rfl⟩ := Prod.mk.inj (Option.some_inj.mp h)
          refine ⟨fun e he => ?_, fun e he => ?_⟩
          · rcases List.mem_append.mp (by simpa using he : e ∈ (d :: c) ++ cs.flatten) with he | he
            · exact le_trans (le_of_lt hlt) (hhead e he)
            · exact hleast e he
          · rcases List.mem_cons.mp he with rfl | he
            · exact hdc
            · exact hsorted e he
        · -- the head of `c` is the smaller one, or ties
          rename_i hnlt
          obtain ⟨rfl, rfl⟩ := Prod.mk.inj (Option.some_inj.mp h)
          refine ⟨fun e he => ?_, fun e he => ?_⟩
          · rcases List.mem_append.mp (by simpa using he : e ∈ (d :: c) ++ cs.flatten) with he | he
            · exact hhead e he
            · exact le_trans (not_lt.mp hnlt) (hleast e he)
          · rcases List.mem_cons.mp he with rfl | he
            · exact hc
            · exact hcs e he

theorem perm_mergeUpTo {fuel : ℕ} {cs : List (List α)} (h : cs.flatten.length ≤ fuel) :
    (mergeUpTo key fuel cs).Perm cs.flatten := by
  induction fuel generalizing cs with
  | zero =>
    rw [Nat.le_zero, List.length_eq_zero_iff] at h
    simp [mergeUpTo, h]
  | succ fuel ih =>
    simp only [mergeUpTo]
    split
    · rename_i hnone
      rw [popLeast_eq_none.mp hnone]
    · rename_i a cs' hpop
      have hperm := popLeast_perm hpop
      have hlen : cs'.flatten.length ≤ fuel := by
        have := hperm.length_eq
        simp only [List.length_cons] at this
        omega
      exact ((ih hlen).cons a).trans hperm

theorem perm_mergeAll (cs : List (List α)) : (mergeAll key cs).Perm cs.flatten :=
  perm_mergeUpTo le_rfl

theorem mem_mergeAll {cs : List (List α)} {a : α} :
    a ∈ mergeAll key cs ↔ ∃ c ∈ cs, a ∈ c := by
  rw [(perm_mergeAll cs).mem_iff, List.mem_flatten]

theorem mergeAll_of_none {cs : List (List α)} (h : popLeast key cs = none) :
    mergeAll key cs = [] := by
  unfold mergeAll
  rw [popLeast_eq_none.mp h]
  rfl

/-- The merge starts with the element popped first. -/
theorem mergeAll_of_pop {cs cs' : List (List α)} {a : α} (h : popLeast key cs = some (a, cs')) :
    mergeAll key cs = a :: mergeAll key cs' := by
  have hlen : cs.flatten.length = cs'.flatten.length + 1 := (popLeast_perm h).length_eq.symm
  unfold mergeAll
  rw [hlen, mergeUpTo, h]

theorem mergeUpTo_le {fuel : ℕ} {cs : List (List α)} (hs : ∀ c ∈ cs, SortedBy key c)
    (h : cs.flatten.length ≤ fuel) :
    (mergeUpTo key fuel cs).Pairwise fun a b => key a ≤ key b := by
  induction fuel generalizing cs with
  | zero => exact List.Pairwise.nil
  | succ fuel ih =>
    simp only [mergeUpTo]
    split
    · exact List.Pairwise.nil
    · rename_i a cs' hpop
      obtain ⟨hleast, hsorted⟩ := popLeast_least hs hpop
      have hperm := popLeast_perm hpop
      have hlen : cs'.flatten.length ≤ fuel := by
        have := hperm.length_eq
        simp only [List.length_cons] at this
        omega
      refine List.pairwise_cons.mpr ⟨fun b hb => hleast b ?_, ih hsorted hlen⟩
      exact hperm.mem_iff.mp (List.mem_cons_of_mem _ ((perm_mergeUpTo hlen).mem_iff.mp hb))

/-- The merge of sorted children without a common key is sorted. -/
theorem sortedBy_mergeAll {cs : List (List α)} (hs : ∀ c ∈ cs, SortedBy key c)
    (hd : cs.Pairwise fun c d => ∀ a ∈ c, ∀ b ∈ d, key a ≠ key b) :
    SortedBy key (mergeAll key cs) := by
  have hne : cs.flatten.Pairwise fun a b => key a ≠ key b :=
    List.pairwise_flatten.mpr ⟨fun c hc => (hs c hc).imp fun h => ne_of_lt h, hd⟩
  have hne' : (mergeAll key cs).Pairwise fun a b => key a ≠ key b :=
    hne.perm (perm_mergeAll cs).symm fun h => h.symm
  exact ((mergeUpTo_le hs le_rfl).and hne').imp fun ⟨hle, hne⟩ => lt_of_le_of_ne hle hne

end Ordered
