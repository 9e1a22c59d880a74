/-
A value kept on a disk that applies changes in order and may lose the last.

`durable` is what the last sync left and `pending` the changes since, oldest
first.  A power loss keeps some prefix of them: `outcome n` is the value it
leaves.  `view` is what a running program sees.

* `Always.push`, `Always.sync`, `Always.crash` — what holds of every outcome
  survives a change, a sync and a power loss.
-/
import Mathlib.Algebra.Order.Ring.Nat
import Mathlib.Data.List.Basic
import Mathlib.Tactic.Common

structure Unsynced (σ : Type*) where
  durable : σ
  pending : List (σ → σ)

namespace Unsynced

variable {σ : Type*} (k : Unsynced σ) {P Q : σ → Prop}

/-- What a power loss leaves that keeps the first `n` changes. -/
def outcome (n : ℕ) : σ := (k.pending.take n).foldl (fun d f => f d) k.durable

def view : σ := k.pending.foldl (fun d f => f d) k.durable

def push (f : σ → σ) : Unsynced σ := { k with pending := k.pending ++ [f] }

def sync : Unsynced σ := ⟨k.view, []⟩

def crash (n : ℕ) : Unsynced σ := ⟨k.outcome n, []⟩

/-- `P` holds whatever a power loss leaves. -/
def Always (P : σ → Prop) : Prop := ∀ n, P (k.outcome n)

variable {k}

@[simp] theorem view_push (f : σ → σ) : (k.push f).view = f k.view := by
  simp only [view, push, List.foldl_append, List.foldl_cons, List.foldl_nil]

@[simp] theorem view_sync : k.sync.view = k.view := rfl

@[simp] theorem view_crash (n : ℕ) : (k.crash n).view = k.outcome n := rfl

@[simp] theorem outcome_sync (n : ℕ) : k.sync.outcome n = k.view := by
  simp only [outcome, sync, List.take_nil, List.foldl_nil]

@[simp] theorem outcome_crash (n m : ℕ) : (k.crash n).outcome m = k.outcome n := by
  simp only [outcome, crash, List.take_nil, List.foldl_nil]

theorem outcome_length : k.outcome k.pending.length = k.view := by
  rw [outcome, List.take_length, view]

theorem outcome_push (f : σ → σ) (n : ℕ) :
    (k.push f).outcome n = k.outcome n ∨ (k.push f).outcome n = f k.view := by
  rcases Nat.lt_or_ge k.pending.length n with h | h
  · refine .inr ?_
    rw [outcome, List.take_of_length_le (by rw [push, List.length_append]; exact h)]
    exact view_push f
  · refine .inl ?_
    rw [outcome, push, List.take_append_of_le_length h, outcome]

namespace Always

theorem view (h : k.Always P) : P k.view := by
  have := h k.pending.length
  rwa [outcome_length] at this

theorem mono (h : k.Always P) (himp : ∀ d, P d → Q d) : k.Always Q := fun n => himp _ (h n)

theorem push (h : k.Always P) {f : σ → σ} (hf : P (f k.view)) : (k.push f).Always P := fun n => by
  rcases outcome_push (k := k) f n with heq | heq <;> rw [heq]
  exacts [h n, hf]

theorem sync (h : P k.view) : k.sync.Always P := fun n => by rwa [outcome_sync]

theorem crash (h : k.Always P) (n : ℕ) : (k.crash n).Always P := fun m => by
  rw [outcome_crash]
  exact h n

end Always

end Unsynced
