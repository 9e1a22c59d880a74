/-
Labelled transition systems given by a partial step function.

A system has an initial state and a partial function that takes a state and an
action to the next state.  `Reaches sys ok s` says that `s` is reached by a run
whose every step satisfies the condition `ok`; `Reachable` drops the condition.
Concrete runs are replayed by `run`, which is computable.

* `Reaches.invariant` — what holds initially and survives every admitted step
  holds in every state reached;
* `exists_reachable`, `exists_reaches` — a replayed run witnesses
  reachability;
* `Follows.done_or_le` — a rank that every tick lowers bounds the ticks before
  a goal.
-/
import Mathlib.Algebra.Order.Ring.Nat
import Mathlib.Data.List.Basic
import Mathlib.Tactic.Common

structure System (σ α : Type*) where
  init : σ
  step : σ → α → Option σ

namespace System

variable {σ α : Type*} {sys : System σ α} {ok : σ → α → Prop} {s s' : σ} {a : α}

/-- Reached by a run whose every step is admitted. -/
inductive Reaches (sys : System σ α) (ok : σ → α → Prop) : σ → Prop
  | init : Reaches sys ok sys.init
  | step {s s' : σ} {a : α} :
      Reaches sys ok s → ok s a → sys.step s a = some s' → Reaches sys ok s'

/-- Reached by any run. -/
abbrev Reachable (sys : System σ α) : σ → Prop := Reaches sys fun _ _ => True

theorem Reaches.mono {ok' : σ → α → Prop} (h : Reaches sys ok s) (himp : ∀ s a, ok s a → ok' s a) :
    Reaches sys ok' s := by
  induction h with
  | init => exact .init
  | step _ hok hstep ih => exact .step ih (himp _ _ hok) hstep

theorem Reaches.reachable (h : Reaches sys ok s) : sys.Reachable s :=
  h.mono fun _ _ _ => trivial

/-- **Invariants**: initially true, preserved by admitted steps. -/
theorem Reaches.invariant {I : σ → Prop} (h : Reaches sys ok s) (hinit : I sys.init)
    (hstep : ∀ {s s' : σ} {a : α}, I s → ok s a → sys.step s a = some s' → I s') : I s := by
  induction h with
  | init => exact hinit
  | step _ hok hs ih => exact hstep ih hok hs

/-- The invariant rule when the step proof needs reachability of the pre-state. -/
theorem Reaches.invariant_of_reachable {I : σ → Prop} (h : Reaches sys ok s) (hinit : I sys.init)
    (hstep : ∀ {s s' : σ} {a : α}, sys.Reachable s → I s → ok s a → sys.step s a = some s' → I s') :
    I s := by
  induction h with
  | init => exact hinit
  | step hr hok hs ih => exact hstep hr.reachable ih hok hs

/-- Replay a list of actions. -/
def run (sys : System σ α) : List α → σ → Option σ
  | [], s => some s
  | a :: as, s => (sys.step s a).bind (run sys as)

theorem run_append (sys : System σ α) (as bs : List α) (s : σ) :
    sys.run (as ++ bs) s = (sys.run as s).bind (sys.run bs) := by
  induction as generalizing s with
  | nil => rfl
  | cons a as ih =>
    rw [List.cons_append, System.run, System.run, Option.bind_assoc]
    exact congrArg _ (funext ih)

/-- What every step preserves, a run preserves. -/
theorem run_invariant {I : σ → Prop} {as : List α} (h : I s)
    (hstep : ∀ {s s' : σ} {a : α}, I s → sys.step s a = some s' → I s')
    (hr : sys.run as s = some s') : I s' := by
  induction as generalizing s with
  | nil => exact Option.some_inj.mp hr ▸ h
  | cons a as ih =>
    obtain ⟨t, ht, hr⟩ := Option.bind_eq_some_iff.mp hr
    exact ih (hstep h ht) hr

theorem Reaches.run {as : List α} (h : Reaches sys (fun _ _ => True) s)
    (hr : sys.run as s = some s') : sys.Reachable s' := by
  induction as generalizing s with
  | nil => exact Option.some_inj.mp hr ▸ h
  | cons a as ih =>
    obtain ⟨t, ht, hr⟩ := Option.bind_eq_some_iff.mp hr
    exact ih (.step h trivial ht) hr

/-- A run of actions that are admitted in every state. -/
theorem Reaches.run_of {as : List α} (h : Reaches sys ok s) (hok : ∀ a ∈ as, ∀ t, ok t a)
    (hr : sys.run as s = some s') : Reaches sys ok s' := by
  induction as generalizing s with
  | nil => exact Option.some_inj.mp hr ▸ h
  | cons a as ih =>
    obtain ⟨t, ht, hr⟩ := Option.bind_eq_some_iff.mp hr
    exact ih (.step h (hok a List.mem_cons_self s) ht)
      (fun b hb => hok b (List.mem_cons_of_mem a hb)) hr

theorem reachable_of_run {as : List α} (hr : sys.run as sys.init = some s) : sys.Reachable s :=
  Reaches.run .init hr

/-- A run that ends in a state with a decidable property. -/
theorem exists_reachable {as : List α} {p : σ → Prop} [DecidablePred p]
    (h : (sys.run as sys.init).any (fun s => decide (p s)) = true) :
    ∃ s, sys.Reachable s ∧ p s := by
  cases hr : sys.run as sys.init with
  | none =>
    rw [hr] at h
    exact absurd h Bool.false_ne_true
  | some s =>
    rw [hr] at h
    exact ⟨s, reachable_of_run hr, of_decide_eq_true h⟩

/-- Replay a list of actions, each of them admitted. -/
def replay (sys : System σ α) (ok : σ → α → Prop) [∀ s a, Decidable (ok s a)] :
    List α → σ → Option σ
  | [], s => some s
  | a :: as, s => if ok s a then (sys.step s a).bind (replay sys ok as) else none

theorem Reaches.replay [∀ s a, Decidable (ok s a)] {as : List α} (h : Reaches sys ok s)
    (hr : sys.replay ok as s = some s') : Reaches sys ok s' := by
  induction as generalizing s with
  | nil => exact Option.some_inj.mp hr ▸ h
  | cons a as ih =>
    rw [System.replay, Option.ite_none_right_eq_some] at hr
    obtain ⟨hok, hr⟩ := hr
    obtain ⟨t, ht, hr⟩ := Option.bind_eq_some_iff.mp hr
    exact ih (.step h hok ht) hr

theorem run_of_replay [∀ s a, Decidable (ok s a)] {as : List α}
    (hr : sys.replay ok as s = some s') :
    sys.run as s = some s' := by
  induction as generalizing s with
  | nil => exact hr
  | cons a as ih =>
    rw [System.replay, Option.ite_none_right_eq_some] at hr
    obtain ⟨t, ht, hr⟩ := Option.bind_eq_some_iff.mp hr.2
    rw [System.run, ht]
    exact ih hr

/-- A run of admitted steps that ends in a state with a decidable property. -/
theorem exists_reaches [∀ s a, Decidable (ok s a)] {as : List α} {p : σ → Prop} [DecidablePred p]
    (h : (sys.replay ok as sys.init).any (fun s => decide (p s)) = true) :
    ∃ s, sys.Reaches ok s ∧ p s := by
  cases hr : sys.replay ok as sys.init with
  | none =>
    rw [hr] at h
    exact absurd h Bool.false_ne_true
  | some s =>
    rw [hr] at h
    exact ⟨s, Reaches.init.replay hr, of_decide_eq_true h⟩

/-- A run of actions that are admitted in every state, to a state with a decidable
property. -/
theorem exists_reaches_of {as : List α} {p : σ → Prop} [DecidablePred p]
    (hok : ∀ a ∈ as, ∀ t, ok t a) (h : (sys.run as sys.init).any (fun s => decide (p s)) = true) :
    ∃ s, sys.Reaches ok s ∧ p s := by
  cases hr : sys.run as sys.init with
  | none =>
    rw [hr] at h
    exact absurd h Bool.false_ne_true
  | some s =>
    rw [hr] at h
    exact ⟨s, Reaches.init.run_of hok hr, of_decide_eq_true h⟩

/-! ### Progress -/

/-- `s'` follows `s` by admitted steps, `n` of which tick. -/
inductive Follows (sys : System σ α) (ok : σ → α → Prop) (tick : α → Prop) (s : σ) : ℕ → σ → Prop
  | refl : Follows sys ok tick s 0 s
  | step {n : ℕ} {t u : σ} {a : α} :
      Follows sys ok tick s n t → ok t a → ¬ tick a → sys.step t a = some u →
        Follows sys ok tick s n u
  | tick {n : ℕ} {t u : σ} {a : α} :
      Follows sys ok tick s n t → ok t a → tick a → sys.step t a = some u →
      Follows sys ok tick s (n + 1) u

theorem Follows.reaches {tick : α → Prop} {n : ℕ} (h : Follows sys ok tick s n s')
    (hs : Reaches sys ok s) :
    Reaches sys ok s' := by
  induction h with
  | refl => exact hs
  | step _ hok _ hstep ih => exact .step ih hok hstep
  | tick _ hok _ hstep ih => exact .step ih hok hstep

/-- **Ranking**: while the goal is not reached, no step raises the rank and
every tick lowers it; then ticks that outnumber the rank reach the goal. -/
theorem Follows.done_or_le {tick : α → Prop} {n : ℕ} {goal : σ → Prop} {rank : σ → ℕ}
    (h : Follows sys ok tick s n s')
    (hgoal : ∀ {m : ℕ} {t u : σ} {a : α}, Follows sys ok tick s m t → goal t → ok t a →
      sys.step t a = some u → goal u)
    (hrank : ∀ {m : ℕ} {t u : σ} {a : α}, Follows sys ok tick s m t → ¬ goal t → ok t a →
      sys.step t a = some u → ¬ goal u → rank u ≤ rank t ∧ (tick a → rank u < rank t)) :
    goal s' ∨ rank s' + n ≤ rank s := by
  induction h with
  | refl => exact Or.inr (Nat.le_refl _)
  | @step n t u a hfollows hok _ hstep ih =>
    by_cases hu : goal u
    · exact Or.inl hu
    · have ht : ¬ goal t := fun ht => hu (hgoal hfollows ht hok hstep)
      have hle := (hrank hfollows ht hok hstep hu).1
      have hsum := ih.resolve_left ht
      exact Or.inr (by omega)
  | @tick n t u a hfollows hok htick hstep ih =>
    by_cases hu : goal u
    · exact Or.inl hu
    · have ht : ¬ goal t := fun ht => hu (hgoal hfollows ht hok hstep)
      have hlt := (hrank hfollows ht hok hstep hu).2 htick
      have hsum := ih.resolve_left ht
      exact Or.inr (by omega)

end System
