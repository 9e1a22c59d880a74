/-
Cutting a concatenation of encoded items.

`wholeBlocks enc as n` counts the items whose encodings lie wholly within the
first `n` tokens of `as.flatMap enc`.

* `le_wholeBlocks_iff` — an item counts exactly when its encoding ends by `n`;
* `take_flatMap` — the cut leaves the encodings of those items, and behind them
  a proper part of the next one.
-/
import Mathlib.Algebra.Order.Ring.Nat
import Mathlib.Data.List.Basic
import Mathlib.Tactic.Common

section

variable {α τ : Type*} {enc : α → List τ} {as : List α} {n : ℕ}

/-- How many items are encoded wholly within the first `n` tokens. -/
def wholeBlocks (enc : α → List τ) : List α → ℕ → ℕ
  | [], _ => 0
  | a :: as, n => if (enc a).length ≤ n then wholeBlocks enc as (n - (enc a).length) + 1 else 0

theorem wholeBlocks_le (enc : α → List τ) (as : List α) (n : ℕ) :
    wholeBlocks enc as n ≤ as.length := by
  induction as generalizing n with
  | nil => exact Nat.zero_le _
  | cons a as ih =>
    unfold wholeBlocks
    split
    · exact Nat.succ_le_succ (ih _)
    · exact Nat.zero_le _

theorem le_wholeBlocks_iff {j : ℕ} (hj : j ≤ as.length) :
    j ≤ wholeBlocks enc as n ↔ ((as.take j).flatMap enc).length ≤ n := by
  induction as generalizing j n with
  | nil =>
    obtain rfl : j = 0 := Nat.le_zero.mp hj
    simp
  | cons a as ih =>
    cases j with
    | zero => simp
    | succ j =>
      rw [List.take_succ_cons, List.flatMap_cons, List.length_append]
      unfold wholeBlocks
      split
      · rename_i hfits
        rw [Nat.add_le_add_iff_right, ih (Nat.succ_le_succ_iff.mp hj)]
        omega
      · rename_i hlong
        constructor
        · exact fun h => absurd h (Nat.not_succ_le_zero j)
        · exact fun h => absurd (Nat.le_trans (Nat.le_add_right _ _) h) hlong

/-- **A cut** keeps the whole items and a proper part of the next. -/
theorem take_flatMap (enc : α → List τ) (as : List α) (n : ℕ) :
    ∃ rest, (as.flatMap enc).take n = (as.take (wholeBlocks enc as n)).flatMap enc ++ rest ∧
      (rest = [] ∨ ∃ a ∈ as, rest <+: enc a ∧ rest.length < (enc a).length) := by
  induction as generalizing n with
  | nil => exact ⟨[], by simp, Or.inl rfl⟩
  | cons a as ih =>
    unfold wholeBlocks
    rw [List.flatMap_cons]
    split
    · rename_i hfits
      obtain ⟨rest, htake, hrest⟩ := ih (n - (enc a).length)
      refine ⟨rest, ?_, hrest.imp id fun ⟨b, hb, h⟩ => ⟨b, List.mem_cons_of_mem _ hb, h⟩⟩
      rw [List.take_append, List.take_of_length_le hfits, htake, List.take_succ_cons,
        List.flatMap_cons, List.append_assoc]
    · rename_i hlong
      refine ⟨(enc a).take n, ?_, Or.inr ⟨a, List.mem_cons_self, List.take_prefix _ _, ?_⟩⟩
      · rw [List.take_append_of_le_length (by omega)]
        rfl
      · rw [List.length_take]
        omega

/-- Nothing is left behind the whole items exactly when the cut is between two. -/
theorem rest_eq_nil_iff {rest : List τ} (hn : n ≤ (as.flatMap enc).length)
    (h : (as.flatMap enc).take n = (as.take (wholeBlocks enc as n)).flatMap enc ++ rest) :
    rest = [] ↔ ∃ j ≤ as.length, n = ((as.take j).flatMap enc).length := by
  have hlen := congrArg List.length h
  rw [List.length_take, List.length_append, Nat.min_eq_left hn] at hlen
  constructor
  · rintro rfl
    exact ⟨wholeBlocks enc as n, wholeBlocks_le enc as n, hlen⟩
  · rintro ⟨j, hj, hend⟩
    -- the item count at the cut is at least `j`, so the whole items reach the cut
    have hle : j ≤ wholeBlocks enc as n := (le_wholeBlocks_iff hj).mpr (Nat.le_of_eq hend.symm)
    have hinit : as.take j <+: as.take (wholeBlocks enc as n) := List.take_prefix_take_left hle
    have hmono : ((as.take j).flatMap enc).length ≤
        ((as.take (wholeBlocks enc as n)).flatMap enc).length := by
      obtain ⟨more, hmore⟩ := hinit
      rw [← hmore, List.flatMap_append, List.length_append]
      exact Nat.le_add_right _ _
    exact List.length_eq_zero_iff.mp (by omega)

end
