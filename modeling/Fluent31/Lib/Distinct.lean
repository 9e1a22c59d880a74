/-
Checks in `Except`, and loops that refuse what they have seen.

`readDistinct key read seen l` reads the entries of `l` one after another and
remembers their keys; `read` gets the keys seen so far and may refuse an entry for
them.

* `need_eq_ok`, `require_eq_ok`, `forM_eq_ok` — when the checks pass;
* `readDistinct_eq_ok` — the loop reads every entry, and the keys are distinct.
-/
import Mathlib.Data.List.Forall2
import Mathlib.Data.List.Nodup
import Mathlib.Tactic.Common

namespace Checks

variable {ε α β κ : Type}

/-- A value, or an error for its absence. -/
def need (o : Option α) (err : ε) : Except ε α :=
  match o with
  | some a => .ok a
  | none => .error err

theorem need_eq_ok {o : Option α} {err : ε} {a : α} : need o err = .ok a ↔ o = some a := by
  cases o with
  | none => exact iff_of_false (by simp [need]) (by simp)
  | some b => exact ⟨fun h => congrArg some (Except.ok.inj h), fun h =>
    congrArg Except.ok (Option.some_inj.mp h)⟩

/-- A condition, or an error. -/
def require (p : Prop) [Decidable p] (err : ε) : Except ε Unit := if p then .ok () else .error err

theorem require_eq_ok {p : Prop} [Decidable p] {err : ε} {u : Unit} :
    require p err = .ok u ↔ p := by
  unfold require
  by_cases hp : p
  · rw [if_pos hp]
    exact iff_of_true rfl hp
  · rw [if_neg hp]
    exact iff_of_false (by simp) hp

theorem bind_eq_ok {x : Except ε α} {f : α → Except ε β} {b : β} :
    (x >>= f) = .ok b ↔ ∃ a, x = .ok a ∧ f a = .ok b := by
  cases x with
  | error err =>
    refine iff_of_false (by simp [bind, Except.bind]) ?_
    rintro ⟨a, ha, -⟩
    exact absurd ha (by simp)
  | ok a =>
    constructor
    · intro h
      exact ⟨a, rfl, h⟩
    · rintro ⟨a', ha, hb⟩
      obtain rfl := Except.ok.inj ha
      exact hb

theorem map_eq_ok {x : Except ε α} {f : α → β} {b : β} :
    x.map f = .ok b ↔ ∃ a, x = .ok a ∧ f a = b := by
  cases x with
  | error err =>
    refine iff_of_false (by simp [Except.map]) ?_
    rintro ⟨a, ha, -⟩
    exact absurd ha (by simp)
  | ok a =>
    constructor
    · intro h
      exact ⟨a, rfl, Except.ok.inj h⟩
    · rintro ⟨a', ha, rfl⟩
      obtain rfl := Except.ok.inj ha
      rfl

/-- One check for each member. -/
def checkAll (check : α → Except ε Unit) : List α → Except ε Unit
  | [] => .ok ()
  | a :: l => do
    check a
    checkAll check l

theorem checkAll_eq_ok {check : α → Except ε Unit} {l : List α} {u : Unit} :
    checkAll check l = .ok u ↔ ∀ a ∈ l, check a = .ok () := by
  induction l with
  | nil => exact iff_of_true rfl fun a ha => absurd ha List.not_mem_nil
  | cons a l ih =>
    rw [checkAll, bind_eq_ok, List.forall_mem_cons]
    constructor
    · rintro ⟨⟨⟩, ha, hl⟩
      exact ⟨ha, ih.mp hl⟩
    · rintro ⟨ha, hl⟩
      exact ⟨(), ha, ih.mpr hl⟩

/-- A loop that reads entries and remembers their keys. -/
def readDistinct (key : β → κ) (read : List κ → α → Except ε β) :
    List κ → List α → Except ε (List β)
  | _, [] => .ok []
  | seen, a :: l => do
    let b ← read seen a
    let bs ← readDistinct key read (key b :: seen) l
    pure (b :: bs)

/-- **The loop reads every entry, and no key twice.** -/
theorem readDistinct_eq_ok {key : β → κ} {read : List κ → α → Except ε β} {reads : α → β → Prop}
    (hread : ∀ seen a b, read seen a = .ok b ↔ reads a b ∧ key b ∉ seen) {seen : List κ}
    {l : List α}
    {out : List β} : readDistinct key read seen l = .ok out ↔
      List.Forall₂ reads l out ∧ (out.map key).Nodup ∧ ∀ b ∈ out, key b ∉ seen := by
  induction l generalizing seen out with
  | nil =>
    constructor
    · intro h
      obtain rfl := Except.ok.inj h
      exact ⟨.nil, List.nodup_nil, fun b hb => absurd hb List.not_mem_nil⟩
    · rintro ⟨h, -⟩
      rw [List.forall₂_nil_left_iff.mp h]
      rfl
  | cons a l ih =>
    rw [readDistinct, bind_eq_ok]
    constructor
    · rintro ⟨b, hb, hrest⟩
      obtain ⟨bs, hbs, hout⟩ := bind_eq_ok.mp hrest
      obtain rfl := Except.ok.inj hout
      obtain ⟨hreads, hnew⟩ := (hread _ _ _).mp hb
      obtain ⟨hall, hnodup, hfresh⟩ := ih.mp hbs
      refine ⟨.cons hreads hall, List.nodup_cons.mpr ⟨fun hmem => ?_, hnodup⟩, fun x hx => ?_⟩
      · obtain ⟨x, hx, heq⟩ := List.mem_map.mp hmem
        exact hfresh x hx (heq ▸ List.mem_cons_self)
      · rcases List.mem_cons.mp hx with rfl | hx
        · exact hnew
        · exact fun hmem => hfresh x hx (List.mem_cons_of_mem _ hmem)
    · rintro ⟨hall, hnodup, hfresh⟩
      cases hall with
      | @cons _ b _ bs hreads hrest =>
        obtain ⟨hnew, hnodup⟩ := List.nodup_cons.mp hnodup
        refine ⟨b, (hread _ _ _).mpr ⟨hreads, hfresh b List.mem_cons_self⟩,
          bind_eq_ok.mpr ⟨bs, ih.mpr ⟨hrest, hnodup, fun x hx hmem => ?_⟩, rfl⟩⟩
        rcases List.mem_cons.mp hmem with heq | hmem
        · exact hnew (heq ▸ List.mem_map_of_mem hx)
        · exact hfresh x (List.mem_cons_of_mem _ hx) hmem

theorem readDistinct_nil {key : β → κ} {read : List κ → α → Except ε β} {reads : α → β → Prop}
    (hread : ∀ seen a b, read seen a = .ok b ↔ reads a b ∧ key b ∉ seen) {l : List α}
    {out : List β} :
    readDistinct key read [] l = .ok out ↔ List.Forall₂ reads l out ∧ (out.map key).Nodup := by
  rw [readDistinct_eq_ok hread]
  constructor
  · rintro ⟨hall, hnodup, -⟩
    exact ⟨hall, hnodup⟩
  · rintro ⟨hall, hnodup⟩
    exact ⟨hall, hnodup, fun b _ => List.not_mem_nil⟩

end Checks
