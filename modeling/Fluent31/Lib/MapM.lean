/-
Mapping a fallible function over a list.

* `mapM_cons_ok` — what a success is made of;
* `mapM_ok`, `mapM_eq_ok` — a loop whose steps answer as a function does;
* `map_of_mapM_ok` — from the results back to the list;
* `mapM_ok_left`, `mapM_ok_right` — what was mapped, and to what;
* `mapM_isOk`, `mapM_of_forall₂` — when the loop succeeds.
-/
import Fluent31.Lib.Distinct

namespace Checks

variable {α β γ ε : Type} {f : α → Except ε β} {l : List α} {out : List β}

theorem mapM_cons_ok {a : α} (h : (a :: l).mapM f = .ok out) :
    ∃ b bs, f a = .ok b ∧ l.mapM f = .ok bs ∧ out = b :: bs := by
  rw [List.mapM_cons] at h
  obtain ⟨b, ha, h⟩ := bind_eq_ok.mp h
  obtain ⟨bs, hl, h⟩ := bind_eq_ok.mp h
  exact ⟨b, bs, ha, hl, (Except.ok.inj h).symm⟩

/-- Each result is what `g` says. -/
theorem mapM_ok {g : α → β} (h : l.mapM f = .ok out) (hg : ∀ x ∈ l, ∀ y, f x = .ok y → y = g x) :
    out = l.map g := by
  induction l generalizing out with
  | nil => exact (Except.ok.inj h).symm
  | cons a l ih =>
    obtain ⟨b, bs, ha, hl, rfl⟩ := mapM_cons_ok h
    rw [hg a List.mem_cons_self b ha, ih hl fun x hx => hg x (List.mem_cons_of_mem _ hx)]
    rfl

theorem mapM_eq_ok {g : α → β} (hg : ∀ x ∈ l, f x = .ok (g x)) : l.mapM f = .ok (l.map g) := by
  induction l with
  | nil => rfl
  | cons a l ih =>
    rw [List.mapM_cons, hg a List.mem_cons_self, ih fun x hx => hg x (List.mem_cons_of_mem _ hx)]
    rfl

/-- Each result tells what it is the result of. -/
theorem map_of_mapM_ok {inv : β → α} (h : l.mapM f = .ok out)
    (hf : ∀ x y, f x = .ok y → inv y = x) :
    out.map inv = l := by
  induction l generalizing out with
  | nil =>
    obtain rfl := Except.ok.inj h
    rfl
  | cons a l ih =>
    obtain ⟨b, bs, ha, hl, rfl⟩ := mapM_cons_ok h
    rw [List.map_cons, hf a b ha, ih hl]

theorem mapM_ok_left (h : l.mapM f = .ok out) {x : α} (hx : x ∈ l) : ∃ y ∈ out, f x = .ok y := by
  induction l generalizing out with
  | nil => exact absurd hx List.not_mem_nil
  | cons a l ih =>
    obtain ⟨b, bs, ha, hl, rfl⟩ := mapM_cons_ok h
    obtain rfl | hx := List.mem_cons.mp hx
    · exact ⟨b, List.mem_cons_self, ha⟩
    · obtain ⟨y, hy, hf⟩ := ih hl hx
      exact ⟨y, List.mem_cons_of_mem _ hy, hf⟩

theorem mapM_ok_right (h : l.mapM f = .ok out) {y : β} (hy : y ∈ out) : ∃ x ∈ l, f x = .ok y := by
  induction l generalizing out with
  | nil =>
    obtain rfl := Except.ok.inj h
    exact absurd hy List.not_mem_nil
  | cons a l ih =>
    obtain ⟨b, bs, ha, hl, rfl⟩ := mapM_cons_ok h
    obtain rfl | hy := List.mem_cons.mp hy
    · exact ⟨a, List.mem_cons_self, ha⟩
    · obtain ⟨x, hx, hf⟩ := ih hl hy
      exact ⟨x, List.mem_cons_of_mem _ hx, hf⟩

theorem mapM_isOk (h : ∀ x ∈ l, ∃ y, f x = .ok y) : ∃ out, l.mapM f = .ok out := by
  induction l with
  | nil => exact ⟨[], rfl⟩
  | cons a l ih =>
    obtain ⟨b, ha⟩ := h a List.mem_cons_self
    obtain ⟨bs, hl⟩ := ih fun x hx => h x (List.mem_cons_of_mem _ hx)
    exact ⟨b :: bs, by rw [List.mapM_cons, ha, hl]; rfl⟩

/-- A loop whose steps keep a relation. -/
theorem mapM_of_forall₂ {R : α → γ → Prop} {R' : β → γ → Prop}
    (hf : ∀ x z, R x z → ∃ y, f x = .ok y ∧ R' y z) {zs : List γ} (h : List.Forall₂ R l zs) :
    ∃ out, l.mapM f = .ok out ∧ List.Forall₂ R' out zs := by
  induction h with
  | nil => exact ⟨[], rfl, .nil⟩
  | cons hxz _ ih =>
    obtain ⟨y, hy, hyz⟩ := hf _ _ hxz
    obtain ⟨out, hout, hrest⟩ := ih
    refine ⟨y :: out, ?_, .cons hyz hrest⟩
    rw [List.mapM_cons, hy, hout]
    rfl

end Checks
