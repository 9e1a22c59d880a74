/-
Multi-version stores: which version a read at a sequence number must return.

A store is a list of *versions*; each version belongs to a key and carries the
sequence number of the write that made it.  `IsNewest l k s e` says that `e`
is the version a read of `k` at `s` has to find in `l`, and `Answers l k s r`
extends it to the empty answer.  The lemmas here are about the *shape* of a
store only:

* `Answers.unique` — a store without two versions of one key at one sequence
  number has one answer for every read;
* `Answers.or` — of two stores of which the first holds the newer versions,
  the first one's answer wins;
* `answers_firstHit` — a search over a list of stores, newest first, that
  stops at the first hit, answers for all of them together.
-/
import Mathlib.Algebra.Order.Ring.Nat
import Mathlib.Order.Nat
import Mathlib.Tactic.Common

/-- A type of versions: every version has a key and a sequence number. -/
class Versioned (E : Type*) (K : outParam Type*) where
  key : E → K
  seq : E → ℕ

namespace Mvcc

open Versioned

variable {E K : Type*} [Versioned E K] {l l' l₁ l₂ : List E} {k : K} {s : ℕ} {e f : E}

/-- `e` is the newest version of `k` in `l` at or below `s`. -/
def IsNewest (l : List E) (k : K) (s : ℕ) (e : E) : Prop :=
  e ∈ l ∧ key e = k ∧ seq e ≤ s ∧ ∀ f ∈ l, key f = k → seq f ≤ s → seq f ≤ seq e

/-- `r` is the answer a read of `k` at `s` has to give over `l`. -/
def Answers (l : List E) (k : K) (s : ℕ) : Option E → Prop
  | none => ∀ f ∈ l, key f = k → s < seq f
  | some e => IsNewest l k s e

/-- Every version in `l₁` is newer than every version of its key in `l₂`. -/
def Newer (l₁ l₂ : List E) : Prop :=
  ∀ e ∈ l₁, ∀ f ∈ l₂, key e = key f → seq f < seq e

/-- No two versions of one key share a sequence number. -/
def Distinct (l : List E) : Prop :=
  ∀ e ∈ l, ∀ f ∈ l, key e = key f → seq e = seq f → e = f

theorem answers_some : Answers l k s (some e) ↔ IsNewest l k s e := Iff.rfl

/-- Answers depend on the versions a store holds, not on their order. -/
theorem Answers.congr (h : ∀ e, e ∈ l ↔ e ∈ l') {r : Option E} (hr : Answers l k s r) :
    Answers l' k s r := by
  cases r with
  | none => exact fun f hf => hr f ((h f).mpr hf)
  | some e =>
    obtain ⟨hmem, hk, hs, hmax⟩ := hr
    exact ⟨(h e).mp hmem, hk, hs, fun f hf => hmax f ((h f).mpr hf)⟩

theorem Answers.unique (hd : Distinct l) {r r' : Option E} (hr : Answers l k s r)
    (hr' : Answers l k s r') : r = r' := by
  match r, r' with
  | none, none => rfl
  | none, some e => exact absurd (hr e hr'.1 hr'.2.1) (by have := hr'.2.2.1; omega)
  | some e, none => exact absurd (hr' e hr.1 hr.2.1) (by have := hr.2.2.1; omega)
  | some e, some f =>
    obtain ⟨he, hke, hse, hmaxe⟩ := hr
    obtain ⟨hf, hkf, hsf, hmaxf⟩ := hr'
    have hseq : seq e = seq f :=
      Nat.le_antisymm (hmaxf e he hke hse) (hmaxe f hf hkf hsf)
    rw [hd e he f hf (hke.trans hkf.symm) hseq]

/-- Every read has an answer. -/
theorem exists_answers (l : List E) (k : K) (s : ℕ) : ∃ r, Answers l k s r := by
  induction l with
  | nil => exact ⟨none, fun _ hf => absurd hf List.not_mem_nil⟩
  | cons a l ih =>
    obtain ⟨r, hr⟩ := ih
    by_cases ha : key a = k ∧ seq a ≤ s
    · by_cases hmax : ∀ f ∈ l, key f = k → seq f ≤ s → seq f ≤ seq a
      · refine ⟨some a, List.mem_cons_self, ha.1, ha.2, fun f hf => ?_⟩
        rcases List.mem_cons.mp hf with rfl | hf
        · exact fun _ _ => le_rfl
        · exact hmax f hf
      · simp only [not_forall, not_le] at hmax
        -- another version is newer, so the answer of the rest stays
        obtain ⟨g, hg, hgk, hgs, hlt⟩ := hmax
        cases r with
        | none => exact absurd (hr g hg hgk) (not_lt_of_ge hgs)
        | some e =>
          obtain ⟨he, hk, hs, hle⟩ := hr
          refine ⟨some e, List.mem_cons_of_mem _ he, hk, hs, fun f hf hfk hfs => ?_⟩
          rcases List.mem_cons.mp hf with rfl | hf
          · exact le_trans (le_of_lt hlt) (hle g hg hgk hgs)
          · exact hle f hf hfk hfs
    · refine ⟨r, ?_⟩
      cases r with
      | none =>
        intro f hf hk
        rcases List.mem_cons.mp hf with rfl | hf
        · exact not_le.mp fun hs => ha ⟨hk, hs⟩
        · exact hr f hf hk
      | some e =>
        obtain ⟨he, hk, hs, hle⟩ := hr
        refine ⟨List.mem_cons_of_mem _ he, hk, hs, fun f hf hfk hfs => ?_⟩
        rcases List.mem_cons.mp hf with rfl | hf
        · exact absurd ⟨hfk, hfs⟩ ha
        · exact hle f hf hfk hfs

theorem Distinct.mono (hd : Distinct l) (h : ∀ e ∈ l', e ∈ l) : Distinct l' :=
  fun e he f hf => hd e (h e he) f (h f hf)

/-- The answer over `l₁ ++ l₂` is `l₁`'s when it has one, else `l₂`'s. -/
theorem Answers.or (hn : Newer l₁ l₂) {r₁ r₂ : Option E} (h₁ : Answers l₁ k s r₁)
    (h₂ : Answers l₂ k s r₂) : Answers (l₁ ++ l₂) k s (r₁.or r₂) := by
  cases r₁ with
  | some e =>
    obtain ⟨hmem, hk, hs, hmax⟩ := h₁
    refine ⟨List.mem_append_left _ hmem, hk, hs, fun f hf hkf hsf => ?_⟩
    rcases List.mem_append.mp hf with hf | hf
    · exact hmax f hf hkf hsf
    · exact Nat.le_of_lt (hn e hmem f hf (hk.trans hkf.symm))
  | none =>
    cases r₂ with
    | none =>
      intro f hf hkf
      rcases List.mem_append.mp hf with hf | hf
      · exact h₁ f hf hkf
      · exact h₂ f hf hkf
    | some e =>
      obtain ⟨hmem, hk, hs, hmax⟩ := h₂
      refine ⟨List.mem_append_right _ hmem, hk, hs, fun f hf hkf hsf => ?_⟩
      rcases List.mem_append.mp hf with hf | hf
      · exact absurd (h₁ f hf hkf) (by omega)
      · exact hmax f hf hkf hsf

/-- Ask the sources one after the other and stop at the first hit. -/
def firstHit {S : Type*} (get : S → K → ℕ → Option E) (sources : List S) (k : K) (s : ℕ) :
    Option E :=
  sources.findSome? fun src => get src k s

/-- **First-hit search.**  When every source answers for its own versions and
the sources are ordered newest first, the first hit is the newest version
stored in any of them. -/
theorem answers_firstHit {S : Type*} {get : S → K → ℕ → Option E} {held : S → List E}
    {sources : List S} (hget : ∀ src ∈ sources, Answers (held src) k s (get src k s))
    (hn : sources.Pairwise fun a b => Newer (held a) (held b)) :
    Answers (sources.flatMap held) k s (firstHit get sources k s) := by
  induction sources with
  | nil => simp [firstHit, Answers]
  | cons src rest ih =>
    obtain ⟨hsrc, hrest⟩ := List.pairwise_cons.mp hn
    have hhead : Newer (held src) (rest.flatMap held) := by
      intro e he f hf hkey
      obtain ⟨t, ht, hft⟩ := List.mem_flatMap.mp hf
      exact hsrc t ht e he f hft hkey
    have htail := ih (fun t ht => hget t (List.mem_cons_of_mem _ ht)) hrest
    have := (hget src List.mem_cons_self).or hhead htail
    rw [List.flatMap_cons]
    unfold firstHit at this ⊢
    rw [List.findSome?_cons]
    cases hg : get src k s <;> simpa [hg] using this

/-! ### Order between stores -/

theorem Newer.mono (h : Newer l₁ l₂) {m₁ m₂ : List E} (h₁ : ∀ e ∈ m₁, e ∈ l₁)
    (h₂ : ∀ e ∈ m₂, e ∈ l₂) : Newer m₁ m₂ :=
  fun e he f hf => h e (h₁ e he) f (h₂ f hf)

@[simp] theorem newer_nil_left : Newer ([] : List E) l := fun _ he => absurd he List.not_mem_nil

@[simp] theorem newer_nil_right : Newer l ([] : List E) :=
  fun _ _ _ hf => absurd hf List.not_mem_nil

/-- **Replacing neighbours.**  A contiguous block of sources may be replaced by
any sources that are themselves ordered and hold only versions of the block. -/
theorem pairwise_newer_replace {S : Type*} {held : S → List E} {pre blk blk' post : List S}
    (h : (pre ++ blk ++ post).Pairwise fun a b => Newer (held a) (held b))
    (hblk : blk'.Pairwise fun a b => Newer (held a) (held b))
    (hsub : ∀ b ∈ blk', ∀ e ∈ held b, ∃ a ∈ blk, e ∈ held a) :
    (pre ++ blk' ++ post).Pairwise fun a b => Newer (held a) (held b) := by
  rw [List.pairwise_append, List.pairwise_append] at h ⊢
  obtain ⟨⟨hpre, -, hpb⟩, hpost, hbp⟩ := h
  refine ⟨⟨hpre, hblk, fun a ha b hb e he f hf hkey => ?_⟩, hpost,
    fun a ha c hc e he f hf hkey => ?_⟩
  · obtain ⟨b', hb', hf'⟩ := hsub b hb f hf
    exact hpb a ha b' hb' e he f hf' hkey
  · rcases List.mem_append.mp ha with ha | ha
    · exact hbp a (List.mem_append_left _ ha) c hc e he f hf hkey
    · obtain ⟨a', ha', he'⟩ := hsub a ha e he
      exact hbp a' (List.mem_append_right _ ha') c hc e he' f hf hkey

end Mvcc
