/-
The lexicographic order of lists.

* `between_iff` — the lists between `p ++ [a]` and `p ++ [b]`, where `b` comes
  right after `a`, are those that start with `p ++ [a]`;
* `append_lt_append` — lists of one length are ordered whatever follows them;
* `snoc_bot_le_iff` — nothing lies between a list and the same with a least element
  behind it;
* `top_le_iff`, `between_top_iff` — the lists that start with some elements, the last
  ones of which are the greatest there are.
-/
import Mathlib.Algebra.Order.Ring.Nat
import Mathlib.Data.List.Lex
import Mathlib.Order.Cover

namespace Lists

variable {α : Type} [LinearOrder α]

theorem cons_le_cons_iff {a b : α} {xs ys : List α} :
    a :: xs ≤ b :: ys ↔ a < b ∨ a = b ∧ xs ≤ ys := by
  rw [le_iff_lt_or_eq, le_iff_lt_or_eq, List.cons_lt_cons_iff, List.cons.injEq]
  constructor
  · rintro ((h | ⟨rfl, h⟩) | ⟨rfl, h⟩)
    · exact Or.inl h
    · exact Or.inr ⟨rfl, Or.inl h⟩
    · exact Or.inr ⟨rfl, Or.inr h⟩
  · rintro (h | ⟨rfl, h | h⟩)
    · exact Or.inl (Or.inl h)
    · exact Or.inl (Or.inr ⟨rfl, h⟩)
    · exact Or.inr ⟨rfl, h⟩

theorem nil_le (xs : List α) : [] ≤ xs := not_lt.mp (List.not_lt_nil xs)

theorem not_cons_le_nil (a : α) (xs : List α) : ¬ a :: xs ≤ [] := not_le.mpr (List.nil_lt_cons a xs)

theorem between_iff {a b : α} (h : a ⋖ b) (p k : List α) :
    p ++ [a] ≤ k ∧ k < p ++ [b] ↔ p ++ [a] <+: k := by
  induction p generalizing k with
  | nil =>
    cases k with
    | nil => exact iff_of_false (fun h => not_cons_le_nil a [] h.1) (by simp)
    | cons c k =>
      rw [List.nil_append, List.nil_append, cons_le_cons_iff, List.cons_lt_cons_iff,
        List.cons_prefix_cons]
      constructor
      · rintro ⟨hle, hlt⟩
        have hcb : c < b := hlt.resolve_right fun hb => List.not_lt_nil _ hb.2
        refine ⟨?_, List.nil_prefix⟩
        rcases hle with hac | ⟨hac, -⟩
        · exact absurd hcb (h.2 hac)
        · exact hac
      · rintro ⟨rfl, -⟩
        exact ⟨Or.inr ⟨rfl, nil_le k⟩, Or.inl h.1⟩
  | cons c p ih =>
    cases k with
    | nil => exact iff_of_false (fun h => not_cons_le_nil c (p ++ [a]) h.1) (by simp)
    | cons d k =>
      rw [List.cons_append, List.cons_append, cons_le_cons_iff, List.cons_lt_cons_iff,
        List.cons_prefix_cons, ← ih k]
      constructor
      · rintro ⟨hle, hlt⟩
        -- the heads bound each other
        rcases hle with hcd | ⟨rfl, hle⟩
        · rcases hlt with hdc | ⟨rfl, -⟩
          · exact absurd hdc (lt_asymm hcd)
          · exact absurd hcd (lt_irrefl _)
        · rcases hlt with hcc | ⟨-, hlt⟩
          · exact absurd hcc (lt_irrefl _)
          · exact ⟨rfl, hle, hlt⟩
      · rintro ⟨rfl, hle, hlt⟩
        exact ⟨Or.inr ⟨rfl, hle⟩, Or.inr ⟨rfl, hlt⟩⟩

theorem append_lt_append {xs ys : List α} (h : xs < ys) (hlen : xs.length = ys.length)
    (s t : List α) :
    xs ++ s < ys ++ t := by
  induction xs generalizing ys with
  | nil =>
    obtain rfl := List.length_eq_zero_iff.mp hlen.symm
    exact absurd h (List.not_lt_nil _)
  | cons x xs ih =>
    cases ys with
    | nil => exact absurd h (List.not_lt_nil _)
    | cons y ys =>
      rw [List.cons_append, List.cons_append, List.cons_lt_cons_iff]
      rcases List.cons_lt_cons_iff.mp h with hxy | ⟨rfl, hlt⟩
      · exact Or.inl hxy
      · exact Or.inr ⟨rfl, ih hlt (Nat.succ.inj hlen)⟩

theorem snoc_bot_le [OrderBot α] {xs ys : List α} (h : xs < ys) : xs ++ [⊥] ≤ ys := by
  induction xs generalizing ys with
  | nil =>
    cases ys with
    | nil => exact absurd h (List.not_lt_nil _)
    | cons y ys =>
      rw [List.nil_append, cons_le_cons_iff]
      rcases lt_or_eq_of_le (bot_le : ⊥ ≤ y) with hlt | heq
      · exact Or.inl hlt
      · exact Or.inr ⟨heq, nil_le ys⟩
  | cons x xs ih =>
    cases ys with
    | nil => exact absurd h (List.not_lt_nil _)
    | cons y ys =>
      rw [List.cons_append, cons_le_cons_iff]
      rcases List.cons_lt_cons_iff.mp h with hxy | ⟨rfl, hlt⟩
      · exact Or.inl hxy
      · exact Or.inr ⟨rfl, ih hlt⟩

theorem lt_snoc (xs : List α) (a : α) : xs < xs ++ [a] := by
  induction xs with
  | nil => exact List.nil_lt_cons a []
  | cons x xs ih => exact List.cons_lt_cons_iff.mpr (Or.inr ⟨rfl, ih⟩)

theorem snoc_bot_le_iff [OrderBot α] {xs ys : List α} : xs ++ [⊥] ≤ ys ↔ xs < ys :=
  ⟨(lt_snoc xs ⊥).trans_le, snoc_bot_le⟩

theorem append_le_append_iff (p xs ys : List α) : p ++ xs ≤ p ++ ys ↔ xs ≤ ys := by
  induction p with
  | nil => rfl
  | cons a p ih =>
    rw [List.cons_append, List.cons_append, cons_le_cons_iff]
    exact ⟨fun h => ih.mp (h.resolve_left (lt_irrefl a)).2, fun h => Or.inr ⟨rfl, ih.mpr h⟩⟩

theorem le_append (p xs : List α) : p ≤ p ++ xs := by
  have hle := (append_le_append_iff p [] xs).mpr (nil_le xs)
  rwa [List.append_nil] at hle

theorem top_le_iff [OrderTop α] (n : ℕ) (xs : List α) :
    List.replicate n ⊤ ≤ xs ↔ List.replicate n ⊤ <+: xs := by
  induction n generalizing xs with
  | zero => exact iff_of_true (nil_le xs) List.nil_prefix
  | succ n ih =>
    cases xs with
    | nil => exact iff_of_false (not_cons_le_nil _ _) (by simp [List.replicate_succ])
    | cons x xs =>
      rw [List.replicate_succ, cons_le_cons_iff, List.cons_prefix_cons, ih xs]
      exact or_iff_right not_top_lt

theorem between_top_iff [OrderTop α] {a b : α} (h : a ⋖ b) (p : List α) (n : ℕ) (k : List α) :
    (p ++ [a]) ++ List.replicate n ⊤ ≤ k ∧ k < p ++ [b] ↔
      (p ++ [a]) ++ List.replicate n ⊤ <+: k := by
  constructor
  · rintro ⟨hle, hlt⟩
    obtain ⟨t, rfl⟩ := (between_iff h p k).mp ⟨(le_append _ _).trans hle, hlt⟩
    rw [append_le_append_iff, top_le_iff] at hle
    exact (List.prefix_append_right_inj _).mpr hle
  · rintro ⟨t, rfl⟩
    refine ⟨le_append _ _, ?_⟩
    rw [List.append_assoc]
    exact ((between_iff h p _).mpr (List.prefix_append _ _)).2

end Lists
