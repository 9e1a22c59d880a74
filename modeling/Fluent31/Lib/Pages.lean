/-
Reading an ordered list page by page.

A page holds the first elements, up to a limit, and when more are left its last key
as a cursor; the next page is one of the elements beyond the cursor.

* `beyond_last` — beyond the last key of a page is what the page left;
* `walk_all` — following the cursors gives all that is left, and ends.
-/
import Mathlib.Algebra.Order.Ring.Nat
import Mathlib.Data.List.Basic
import Mathlib.Order.Defs.Unbundled
import Mathlib.Tactic.Common

namespace Pages

variable {α κ ε : Type}

/-- The page of a list, and its cursor. -/
def page (key : α → κ) (limit : ℕ) (l : List α) : List α × Option κ :=
  (l.take limit, if limit < l.length then ((l.take limit).getLast?).map key else none)

/-- What is beyond a cursor, in the order of the list. -/
def beyond (r : κ → κ → Prop) [DecidableRel r] (key : α → κ) (cursor : Option κ) (l : List α) :
    List α :=
  l.filter fun x => decide (∀ c ∈ cursor, r c (key x))

/-- Follow the cursors from a page on, for so many pages at most. -/
def walk (fetch : ℕ → Option κ → Except ε (List α × Option κ)) :
    ℕ → ℕ → Option κ → Option (Except ε (List α))
  | 0, _, _ => none
  | pages + 1, i, cursor =>
    match fetch i cursor with
    | .error e => some (.error e)
    | .ok (front, none) => some (.ok front)
    | .ok (front, some c) => (walk fetch pages (i + 1) (some c)).map fun r => r.map (front ++ ·)

theorem beyond_none (r : κ → κ → Prop) [DecidableRel r] (key : α → κ) (l : List α) :
    beyond r key none l = l := by
  rw [beyond, List.filter_eq_self]
  intro x _
  simp

section Sorted

variable {r : κ → κ → Prop} [DecidableRel r] [IsStrictOrder κ r] {key : α → κ}

/-- The elements behind one are those beyond its key. -/
theorem beyond_last {front back : List α} {x : α}
    (h : (front ++ x :: back).Pairwise fun a b => r (key a) (key b)) :
    beyond r key (some (key x)) (front ++ x :: back) = back := by
  obtain ⟨-, hback, hfront⟩ := List.pairwise_append.mp h
  have hbefore : ∀ y ∈ front, ¬ r (key x) (key y) := fun y hy hr =>
    irrefl_of r _ (trans_of r hr (hfront y hy x List.mem_cons_self))
  have hself : ¬ r (key x) (key x) := irrefl_of r _
  have hbehind : ∀ y ∈ back, r (key x) (key y) := (List.pairwise_cons.mp hback).1
  have hnone : front.filter (fun y => decide (∀ c ∈ some (key x), r c (key y))) = [] := by
    rw [List.filter_eq_nil_iff]
    intro y hy
    simpa using hbefore y hy
  have hall : back.filter (fun y => decide (∀ c ∈ some (key x), r c (key y))) = back := by
    rw [List.filter_eq_self]
    intro y hy
    simpa using hbehind y hy
  rw [beyond, List.filter_append, hnone, List.nil_append, List.filter_cons_of_neg
    (by simpa using hself), hall]

/-- A page that is not the last one, and what is beyond its cursor. -/
theorem page_more {front rest : List α} (h : (front ++ rest).Pairwise fun a b => r (key a) (key b))
    {limit : ℕ} (hlimit : 0 < limit) (hmore : limit < rest.length) :
    ∃ c, page key limit rest = (rest.take limit, some c) ∧
      beyond r key (some c) (front ++ rest) = rest.drop limit := by
  obtain ⟨init, x, hlast⟩ : ∃ init x, rest.take limit = init ++ [x] := by
    have hne : rest.take limit ≠ [] := List.ne_nil_of_length_pos (by rw [List.length_take]; omega)
    exact ⟨_, _, (List.dropLast_append_getLast hne).symm⟩
  have hsplit : front ++ rest = (front ++ init) ++ x :: rest.drop limit := by
    conv_lhs => rw [← List.take_append_drop limit rest, hlast]
    simp
  refine ⟨key x, ?_, ?_⟩
  · rw [page, if_pos hmore, hlast, List.getLast?_concat]
    rfl
  · rw [hsplit] at h ⊢
    exact beyond_last h

/-- **All pages.**  Whatever serves them, when every page is the page of what is
beyond its cursor. -/
theorem walk_all {l : List α} (hl : l.Pairwise fun a b => r (key a) (key b)) {limit : ℕ}
    (hlimit : 0 < limit) {fetch : ℕ → Option κ → Except ε (List α × Option κ)}
    (hfetch : ∀ i cursor, fetch i cursor = .ok (page key limit (beyond r key cursor l)))
    {front rest : List α}
    (hrest : l = front ++ rest) {cursor : Option κ}
    (hcursor : beyond r key cursor l = rest) (i : ℕ) :
    ∃ pages ≤ rest.length + 1, walk fetch pages i cursor = some (.ok rest) := by
  -- every page but the last leaves less
  induction hn : rest.length using Nat.strong_induction_on generalizing front rest cursor i with
  | _ n ih =>
    subst hn
    by_cases hmore : limit < rest.length
    · obtain ⟨c, hpage, hbeyond⟩ := page_more (hrest ▸ hl) hlimit hmore
      rw [← hrest] at hbeyond
      have hshorter : (rest.drop limit).length < rest.length := by
        rw [List.length_drop]
        omega
      have hnext : l = (front ++ rest.take limit) ++ rest.drop limit := by
        rw [List.append_assoc, List.take_append_drop, hrest]
      obtain ⟨pages, hpages, hwalk⟩ := ih _ hshorter hnext hbeyond (i + 1) rfl
      refine ⟨pages + 1, by omega, ?_⟩
      rw [walk, hfetch, hcursor, hpage]
      dsimp only
      rw [hwalk]
      show some (Except.ok (rest.take limit ++ rest.drop limit)) = _
      rw [List.take_append_drop]
    · refine ⟨1, Nat.succ_le_succ (Nat.zero_le _), ?_⟩
      rw [walk, hfetch, hcursor, page, if_neg hmore, List.take_of_length_le (not_lt.mp hmore)]

end Sorted

end Pages
