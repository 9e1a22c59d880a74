/-
Garbage collection of a multi-version store under a floor.

A store that is collected forgets versions no reader at or above a *floor* can
ask for.  `Retains dead floor hist store` relates the versions ever written
(`hist`) to the versions still stored: a version that is gone is either
shadowed by a newer one at or below the floor, or it is dead (a tombstone) at
or below the floor with nothing older left beneath it.

* `Retains.answers` — a read at or above the floor gives the same answer over
  the store as over the history, up to a tombstone reading as nothing;
* `Retains.append`, `Retains.drop`, `Retains.truncate` — the relation survives
  a write, a collection pass that raises the floor, and the loss of a suffix
  of the history;
* `Retains.rewrite` — it survives the rewriting of a block of sources.
-/
import Fluent31.Lib.Newest

namespace Mvcc

open Versioned

variable {E K : Type*} [Versioned E K] {hist store : List E} {dead : E → Prop} {floor : ℕ}

/-- A version no reader at or above `floor` can see: a newer one at or below
the floor was written. -/
def Shadowed (floor : ℕ) (hist : List E) (e : E) : Prop :=
  ∃ f ∈ hist, key f = key e ∧ seq e < seq f ∧ seq f ≤ floor

/-- A dead version at or below `floor` with nothing older of its key stored. -/
def Buried (dead : E → Prop) (floor : ℕ) (store : List E) (e : E) : Prop :=
  dead e ∧ seq e ≤ floor ∧ ∀ f ∈ store, key f = key e → seq e < seq f

/-- `store` keeps of `hist` all that readers at or above `floor` can see. -/
structure Retains (dead : E → Prop) (floor : ℕ) (hist store : List E) : Prop where
  sub : ∀ e ∈ store, e ∈ hist
  gone : ∀ e ∈ hist, e ∉ store → Shadowed floor hist e ∨ Buried dead floor store e

theorem Retains.refl (hist : List E) : Retains dead floor hist hist :=
  ⟨fun _ h => h, fun _ h hn => absurd h hn⟩

theorem Shadowed.mono {floor' : ℕ} {hist' : List E} {e : E} (h : Shadowed floor hist e)
    (hf : floor ≤ floor') (hh : ∀ f ∈ hist, f ∈ hist') : Shadowed floor' hist' e := by
  obtain ⟨f, hmem, hk, hlt, hle⟩ := h
  exact ⟨f, hh f hmem, hk, hlt, le_trans hle hf⟩

/-- The newest version at or above the floor is never shadowed. -/
theorem IsNewest.not_shadowed {k : K} {t : ℕ} {e : E} (he : IsNewest hist k t e)
    (ht : floor ≤ t) : ¬ Shadowed floor hist e := by
  rintro ⟨f, hf, hk, hlt, hle⟩
  have := he.2.2.2 f hf (hk.trans he.2.1) (le_trans hle ht)
  omega

/-- Two versions of one key that are not shadowed are one. -/
theorem Distinct.eq_of_not_shadowed (hd : Distinct hist) {e f : E} (he : e ∈ hist) (hf : f ∈ hist)
    (hk : key e = key f) (hes : seq e ≤ floor) (hfs : seq f ≤ floor) (hne : ¬ Shadowed floor hist e)
    (hnf : ¬ Shadowed floor hist f) : e = f := by
  rcases Nat.lt_trichotomy (seq e) (seq f) with hlt | heq | hlt
  · exact absurd ⟨f, hf, hk.symm, hlt, hfs⟩ hne
  · exact hd e he f hf hk heq
  · exact absurd ⟨e, he, hk, hlt, hes⟩ hnf

/-- What the history answers at or above the floor is stored or buried. -/
theorem Retains.newest_mem_or_buried (h : Retains dead floor hist store) {k : K} {t : ℕ} {e : E}
    (he : IsNewest hist k t e) (ht : floor ≤ t) :
    e ∈ store ∨ Buried dead floor store e := by
  by_cases hmem : e ∈ store
  · exact Or.inl hmem
  · exact Or.inr ((h.gone e he.1 hmem).resolve_left (he.not_shadowed ht))

/-- **Reads at or above the floor.**  What the store answers, the history
answers too — except that the store may say nothing where the history holds a
dead version. -/
theorem Retains.answers (h : Retains dead floor hist store) (hd : Distinct hist) {k : K} {t : ℕ}
    (ht : floor ≤ t) {r r' : Option E} (hr : Answers store k t r) (hr' : Answers hist k t r') :
    r = r' ∨ (r = none ∧ ∃ e, r' = some e ∧ dead e ∧ seq e ≤ floor) := by
  cases r' with
  | none =>
    left
    cases r with
    | none => rfl
    | some e =>
      exact absurd (hr' e (h.sub e hr.1) hr.2.1) (by have := hr.2.2.1; omega)
  | some n =>
    have hn : IsNewest hist k t n := hr'
    rcases h.newest_mem_or_buried hn ht with hmem | ⟨hdead, hle, hold⟩
    · -- the newest version is stored, so the store answers with it
      left
      have : Answers store k t (some n) :=
        ⟨hmem, hn.2.1, hn.2.2.1, fun f hf hk hs => hn.2.2.2 f (h.sub f hf) hk hs⟩
      exact hr.unique (hd.mono h.sub) this
    · -- the newest version is buried: nothing at or below `t` is stored
      right
      refine ⟨?_, n, rfl, hdead, hle⟩
      cases r with
      | none => rfl
      | some e =>
        have h1 := hold e hr.1 (hr.2.1.trans hn.2.1.symm)
        have h2 := hn.2.2.2 e (h.sub e hr.1) hr.2.1 hr.2.2.1
        omega

/-- New versions, numbered above all older ones, join history and store. -/
theorem Retains.append (h : Retains dead floor hist store) {new hist' store' : List E}
    (hhist : ∀ e, e ∈ hist' ↔ e ∈ hist ∨ e ∈ new)
    (hstore : ∀ e, e ∈ store' ↔ e ∈ store ∨ e ∈ new)
    (hfresh : ∀ e ∈ new, ∀ f ∈ hist, seq f < seq e) : Retains dead floor hist' store' := by
  refine ⟨fun e he => (hhist e).mpr (((hstore e).mp he).imp_left (h.sub e)), fun e he hn => ?_⟩
  rw [hstore, not_or] at hn
  have hold : e ∈ hist := ((hhist e).mp he).resolve_right hn.2
  rcases h.gone e hold hn.1 with hs | ⟨hdead, hle, hb⟩
  · exact Or.inl (hs.mono le_rfl fun f hf => (hhist f).mpr (Or.inl hf))
  · refine Or.inr ⟨hdead, hle, fun f hf hk => ?_⟩
    rcases (hstore f).mp hf with hf | hf
    · exact hb f hf hk
    · exact hfresh f hf e hold

/-- A collection pass keeps `store'` and may raise the floor; it may forget a
stored version only when that one is shadowed or buried under the new floor. -/
theorem Retains.drop (h : Retains dead floor hist store) {floor' : ℕ} {store' : List E}
    (hfloor : floor ≤ floor') (hsub : ∀ e ∈ store', e ∈ store)
    (hgone : ∀ e ∈ store, e ∉ store' → Shadowed floor' hist e ∨ Buried dead floor' store' e) :
    Retains dead floor' hist store' := by
  refine ⟨fun e he => h.sub e (hsub e he), fun e he hn => ?_⟩
  by_cases hmem : e ∈ store
  · exact hgone e hmem hn
  · rcases h.gone e he hmem with hs | ⟨hdead, hle, hb⟩
    · exact Or.inl (hs.mono hfloor fun _ hf => hf)
    · exact Or.inr ⟨hdead, le_trans hle hfloor, fun f hf hk => hb f (hsub f hf) hk⟩

/-- **Collecting a block.**  Of sources ordered newest first, a contiguous block
is rewritten.  What the new block lost must be shadowed under the floor, or
dead under it with newer versions only in the new block and none behind it. -/
theorem Retains.rewrite {S : Type*} {held : S → List E} {pre blk blk' post : List S}
    (h : Retains dead floor hist ((pre ++ blk ++ post).flatMap held))
    (hnewer : (pre ++ blk ++ post).Pairwise fun a b => Newer (held a) (held b))
    (hsub : ∀ e ∈ blk'.flatMap held, e ∈ blk.flatMap held)
    (hgone : ∀ e ∈ blk.flatMap held, e ∉ blk'.flatMap held → Shadowed floor hist e ∨
      (dead e ∧ seq e ≤ floor ∧ (∀ f ∈ blk'.flatMap held, key f = key e → seq e < seq f) ∧
        ∀ f ∈ post.flatMap held, key f ≠ key e)) :
    Retains dead floor hist ((pre ++ blk' ++ post).flatMap held) := by
  rw [List.pairwise_append, List.pairwise_append] at hnewer
  obtain ⟨⟨-, -, hpre⟩, -, -⟩ := hnewer
  refine h.drop le_rfl (fun e he => ?_) fun e he hnot => ?_
  · simp only [List.flatMap_append, List.mem_append] at he ⊢
    rcases he with (he | he) | he
    · exact Or.inl (Or.inl he)
    · exact Or.inl (Or.inr (hsub e he))
    · exact Or.inr he
  · simp only [List.flatMap_append, List.mem_append, not_or] at he hnot
    obtain ⟨⟨hnpre, hnblk⟩, hnpost⟩ := hnot
    have heblk : e ∈ blk.flatMap held := by
      rcases he with (he | he) | he
      · exact absurd he hnpre
      · exact he
      · exact absurd he hnpost
    refine (hgone e heblk hnblk).imp_right fun ⟨hdead, hle, hnew, hpost⟩ =>
      ⟨hdead, hle, fun f hf hk => ?_⟩
    simp only [List.flatMap_append, List.mem_append] at hf
    rcases hf with (hf | hf) | hf
    · -- sources in front of the block hold newer versions
      obtain ⟨a, ha, hfa⟩ := List.mem_flatMap.mp hf
      obtain ⟨b, hb, heb⟩ := List.mem_flatMap.mp heblk
      exact hpre a ha b hb f hfa e heb hk
    · exact hnew f hf hk
    · exact absurd hk (hpost f hf)

/-- The relation depends on the versions held, not on their order. -/
theorem Retains.congr (h : Retains dead floor hist store) {store' : List E}
    (hs : ∀ e, e ∈ store' ↔ e ∈ store) : Retains dead floor hist store' :=
  h.drop le_rfl (fun e he => (hs e).mp he) fun e he hn => absurd ((hs e).mpr he) hn

/-- Losing every version above `n`, in history and store alike. -/
theorem Retains.truncate (h : Retains dead floor hist store) {n : ℕ} (hn : floor ≤ n)
    {hist' store' : List E} (hhist : ∀ e, e ∈ hist' ↔ e ∈ hist ∧ seq e ≤ n)
    (hstore : ∀ e, e ∈ store' ↔ e ∈ store ∧ seq e ≤ n) : Retains dead floor hist' store' := by
  refine ⟨fun e he => ?_, fun e he hmem => ?_⟩
  · obtain ⟨h1, h2⟩ := (hstore e).mp he
    exact (hhist e).mpr ⟨h.sub e h1, h2⟩
  · obtain ⟨he, hle⟩ := (hhist e).mp he
    have hnot : e ∉ store := fun hc => hmem ((hstore e).mpr ⟨hc, hle⟩)
    rcases h.gone e he hnot with ⟨f, hf, hk, hlt, hle'⟩ | ⟨hdead, hle', hb⟩
    · exact Or.inl ⟨f, (hhist f).mpr ⟨hf, le_trans hle' hn⟩, hk, hlt, hle'⟩
    · exact Or.inr ⟨hdead, hle', fun f hf => hb f ((hstore f).mp hf).1⟩

end Mvcc
