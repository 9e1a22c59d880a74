/-
A sorted list of pairs overridden by a sorted list of writes.

A write gives its key a new value or takes the key away.  `override le os bs`
goes through the writes `os` and the pairs `bs` together, in the order `le` of
their keys, the write first where both have the same key.

* `mem_override` — a pair is there when it is written, or was there and its
  key is not written;
* `sorted_override` — each key once, in order.
-/
import Fluent31.Lib.Ordered
import Mathlib.Order.Basic

namespace Overlay

open Ordered

variable {α β κ : Type} [DecidableEq α] [LinearOrder κ]

/-- The pairs from a write's key on, without the pair it shadows. -/
def shadow (key : α) : List (α × β) → List (α × β)
  | [] => []
  | b :: bs => if b.1 = key then bs else b :: bs

theorem length_shadow_le (key : α) (bs : List (α × β)) : (shadow key bs).length ≤ bs.length := by
  cases bs with
  | nil => exact le_rfl
  | cons b bs =>
    rw [shadow]
    split
    · exact Nat.le_succ _
    · exact le_rfl

/-- The pairs `bs` overridden by the writes `os`. -/
def override (le : α → α → Bool) : List (α × Option β) → List (α × β) → List (α × β)
  | [], bs => bs
  | o :: os, [] => o.2.toList.map (Prod.mk o.1) ++ override le os []
  | o :: os, b :: bs =>
    if le o.1 b.1 then o.2.toList.map (Prod.mk o.1) ++ override le os (shadow o.1 (b :: bs))
    else b :: override le (o :: os) bs
termination_by os bs => os.length + bs.length
decreasing_by
  · simp only [List.length_cons, List.length_nil]
    omega
  · have := length_shadow_le o.1 (b :: bs)
    simp only [List.length_cons] at this ⊢
    omega
  · simp only [List.length_cons]
    omega

variable {le : α → α → Bool} {μ : α → κ} {o : α × Option β} {b : α × β} {os : List (α × Option β)}
  {bs : List (α × β)}

theorem override_write_nil :
    override le (o :: os) [] = o.2.toList.map (Prod.mk o.1) ++ override le os [] := by
  rw [override]

theorem override_write (h : le o.1 b.1 = true) : override le (o :: os) (b :: bs) =
    o.2.toList.map (Prod.mk o.1) ++ override le os (shadow o.1 (b :: bs)) := by
  rw [override, if_pos h]

theorem override_pair (h : ¬ le o.1 b.1 = true) :
    override le (o :: os) (b :: bs) = b :: override le (o :: os) bs := by
  rw [override, if_neg h]

omit [DecidableEq α] in
theorem mem_written {k : α} {w : β} : (k, w) ∈ o.2.toList.map (Prod.mk o.1) ↔ (k, some w) = o := by
  obtain ⟨key, value⟩ := o
  cases value with
  | none => simp
  | some v =>
    simp only [Option.toList_some, List.map_cons, List.map_nil, List.mem_singleton, Prod.mk.injEq,
      Option.some.injEq]

theorem sorted_shadow (key : α) (h : SortedBy (fun b => μ b.1) bs) :
    SortedBy (fun b => μ b.1) (shadow key bs) := by
  cases bs with
  | nil => exact h
  | cons b bs =>
    rw [shadow]
    split
    · exact h.tail
    · exact h

/-- A write drops the pair under its key, and only that. -/
theorem mem_shadow (h : SortedBy (fun b => μ b.1) (b :: bs)) (hle : μ o.1 ≤ μ b.1) {x : α × β} :
    x ∈ shadow o.1 (b :: bs) ↔ x ∈ b :: bs ∧ x.1 ≠ o.1 := by
  have hb := (List.pairwise_cons.mp h).1
  rw [shadow]
  split
  · rename_i heq
    constructor
    · exact fun hx => ⟨List.mem_cons_of_mem _ hx, fun hk =>
        absurd (hb x hx) (by simp only [hk, heq, lt_irrefl, not_false_iff])⟩
    · rintro ⟨hx, hk⟩
      rcases List.mem_cons.mp hx with rfl | hx
      · exact absurd heq hk
      · exact hx
  · rename_i hne
    refine (and_iff_left_of_imp fun hx hk => ?_).symm
    rcases List.mem_cons.mp hx with rfl | hx
    · exact hne hk
    · have hlt : μ b.1 < μ x.1 := hb x hx
      rw [hk] at hlt
      exact absurd hle (not_le.mpr hlt)

/-- **What is there**: what is written, and what was there under other keys. -/
theorem mem_override (hle : ∀ a b, le a b = true ↔ μ a ≤ μ b) (hos : SortedBy (fun o => μ o.1) os)
    (hbs : SortedBy (fun b => μ b.1) bs) {k : α} {w : β} :
    (k, w) ∈ override le os bs ↔ (k, some w) ∈ os ∨ (k, w) ∈ bs ∧ ∀ v, (k, v) ∉ os := by
  induction os, bs using override.induct le with
  | case1 bs => simp [override]
  | case2 o os ih =>
    rw [override_write_nil, List.mem_append, mem_written, ih hos.tail List.Pairwise.nil,
      List.mem_cons]
    simp
  | case3 o os b bs hlt ih =>
    rw [override_write hlt, List.mem_append, mem_written, ih hos.tail (sorted_shadow o.1 hbs),
      mem_shadow hbs ((hle _ _).mp hlt)]
    have hkeys : (k ≠ o.1 ∧ ∀ v, (k, v) ∉ os) ↔ ∀ v, (k, v) ∉ o :: os := by
      constructor
      · rintro ⟨hk, hnot⟩ v hv
        rcases List.mem_cons.mp hv with rfl | hv
        · exact hk rfl
        · exact hnot v hv
      · intro hnot
        refine ⟨?_, fun v hv => hnot v (List.mem_cons_of_mem _ hv)⟩
        rintro rfl
        exact hnot o.2 List.mem_cons_self
    rw [and_assoc, hkeys, List.mem_cons (l := os), or_assoc]
  | case4 o os b bs hlt ih =>
    rw [override_pair hlt, List.mem_cons, ih hos hbs.tail, List.mem_cons (l := bs)]
    -- the pair stands before all writes
    have hb : ∀ v, (b.1, v) ∉ o :: os := by
      intro v hv
      have hlt : μ b.1 < μ o.1 := not_le.mp fun h => hlt ((hle _ _).mpr h)
      rcases List.mem_cons.mp hv with rfl | hv
      · exact lt_irrefl _ hlt
      · exact lt_asymm hlt ((List.pairwise_cons.mp hos).1 _ hv)
    constructor
    · rintro (rfl | hos | ⟨hbs, hnot⟩)
      · exact Or.inr ⟨Or.inl rfl, hb⟩
      · exact Or.inl hos
      · exact Or.inr ⟨Or.inr hbs, hnot⟩
    · rintro (hos | ⟨rfl | hbs, hnot⟩)
      · exact Or.inr (Or.inl hos)
      · exact Or.inl rfl
      · exact Or.inr (Or.inr ⟨hbs, hnot⟩)

omit [DecidableEq α] in
theorem sorted_written {l : List (α × β)} (h : SortedBy (fun b => μ b.1) l)
    (hlt : ∀ x ∈ l, μ o.1 < μ x.1) :
    SortedBy (fun b => μ b.1) (o.2.toList.map (Prod.mk o.1) ++ l) := by
  cases o.2 with
  | none => exact h
  | some v => exact List.pairwise_cons.mpr ⟨hlt, h⟩

/-- Each key once, in order. -/
theorem sorted_override (hle : ∀ a b, le a b = true ↔ μ a ≤ μ b) (hμ : Function.Injective μ)
    (hos : SortedBy (fun o => μ o.1) os)
    (hbs : SortedBy (fun b => μ b.1) bs) : SortedBy (fun b => μ b.1) (override le os bs) := by
  induction os, bs using override.induct le with
  | case1 bs => rwa [override]
  | case2 o os ih =>
    rw [override_write_nil]
    refine sorted_written (ih hos.tail List.Pairwise.nil) fun x hx => ?_
    rcases (mem_override hle hos.tail List.Pairwise.nil).mp hx with hx | ⟨hx, -⟩
    · exact (List.pairwise_cons.mp hos).1 _ hx
    · exact absurd hx List.not_mem_nil
  | case3 o os b bs hlt ih =>
    rw [override_write hlt]
    have hle' := (hle _ _).mp hlt
    have hshadow := sorted_shadow o.1 hbs
    refine sorted_written (ih hos.tail hshadow) fun x hx => ?_
    rcases (mem_override hle hos.tail hshadow).mp hx with hx | ⟨hx, -⟩
    · exact (List.pairwise_cons.mp hos).1 _ hx
    · obtain ⟨hx, hne⟩ := (mem_shadow hbs hle').mp hx
      rcases List.mem_cons.mp hx with rfl | hx
      · exact lt_of_le_of_ne hle' fun heq => hne (hμ heq).symm
      · exact lt_of_le_of_lt hle' ((List.pairwise_cons.mp hbs).1 x hx)
  | case4 o os b bs hlt ih =>
    rw [override_pair hlt]
    have hlt : μ b.1 < μ o.1 := not_le.mp fun h => hlt ((hle _ _).mpr h)
    refine List.pairwise_cons.mpr ⟨fun x hx => ?_, ih hos hbs.tail⟩
    rcases (mem_override hle hos hbs.tail).mp hx with hx | ⟨hx, -⟩
    · rcases List.mem_cons.mp hx with rfl | hx
      · exact hlt
      · exact lt_trans hlt ((List.pairwise_cons.mp hos).1 _ hx)
    · exact (List.pairwise_cons.mp hbs).1 x hx

omit [DecidableEq α] in
/-- Sorted lists with the same elements are equal. -/
theorem eq_of_mem_iff {l l' : List (α × β)} (h : SortedBy (fun b => μ b.1) l)
    (h' : SortedBy (fun b => μ b.1) l') (hmem : ∀ x, x ∈ l ↔ x ∈ l') : l = l' := by
  have hnodup : ∀ {l : List (α × β)}, SortedBy (fun b => μ b.1) l → l.Nodup := by
    intro l h
    refine List.Pairwise.imp ?_ h
    rintro a _ hlt rfl
    exact lt_irrefl _ hlt
  refine List.Perm.eq_of_pairwise (fun a b _ _ hab hba => ?_) h h'
    ((List.perm_ext_iff_of_nodup (hnodup h) (hnodup h')).mpr hmem)
  exact absurd hab (lt_asymm hba)

/-- The other way round. -/
theorem override_reverse {le' : α → α → Bool} (hle : ∀ a b, le a b = true ↔ μ a ≤ μ b)
    (hle' : ∀ a b, le' a b = true ↔ μ b ≤ μ a) (hμ : Function.Injective μ)
    (hos : SortedBy (fun o => μ o.1) os)
    (hbs : SortedBy (fun b => μ b.1) bs) : override le' os.reverse bs.reverse =
      (override le os bs).reverse := by
  let ν : α → κᵒᵈ := fun a => OrderDual.toDual (μ a)
  have hos' : SortedBy (fun o => ν o.1) os.reverse := List.pairwise_reverse.mpr hos
  have hbs' : SortedBy (fun b => ν b.1) bs.reverse := List.pairwise_reverse.mpr hbs
  have hν : Function.Injective ν := fun a b heq => hμ heq
  refine eq_of_mem_iff (μ := ν) (sorted_override hle' hν hos' hbs')
    (List.pairwise_reverse.mpr (sorted_override hle hμ hos hbs)) fun x => ?_
  rw [List.mem_reverse, mem_override (μ := ν) hle' hos' hbs', mem_override hle hos hbs]
  simp only [List.mem_reverse]

end Overlay
