/-
Bounded caches that forget the least recently used entry first.

A cache is the list of its entries, the most recently used first; every value has a
charge, and the charges are to stay within a capacity.  A hit or an insertion moves
its entry to the front, and after an insertion entries go from the back as long as
there is too much and more than one of them.

* `mem_of_mem_insert`, `mem_of_mem_get` — operations bring in nothing but what is
  inserted;
* `fits_insert` — after an insertion all is within the capacity, or one entry is held;
* `fits_run` — in any run the charges stay within the capacity, or one entry is held;
* `recent_run` — in any run, entries are held by their last use, and with the value that
  came last.
-/
import Mathlib.Algebra.Order.Ring.Nat
import Mathlib.Data.List.Basic
import Mathlib.Data.List.Induction
import Mathlib.Order.Nat

structure Lru (κ ν : Type) where
  /-- The most recently used first. -/
  held : List (κ × ν)
  cap : ℕ

namespace Lru

variable {κ ν : Type}

section

variable (charge : ν → ℕ)

/-- The charges of all entries. -/
def size (held : List (κ × ν)) : ℕ := (held.map fun e => charge e.2).sum

/-- What stays within a capacity, at most `turns` entries forgotten; the first entry
stays in any case. -/
def evict (cap : ℕ) : ℕ → List (κ × ν) → List (κ × ν)
  | 0, held => held
  | turns + 1, held =>
    if cap < size charge held ∧ 1 < held.length then evict cap turns held.dropLast else held

variable [DecidableEq κ]

/-- Put an entry in front. -/
def touch (c : Lru κ ν) (key : κ) (val : ν) : Lru κ ν :=
  { c with held := (key, val) :: c.held.filter fun e => decide (e.1 ≠ key) }

def get (c : Lru κ ν) (key : κ) : Option ν × Lru κ ν :=
  match c.held.find? fun e => decide (e.1 = key) with
  | some e => (some e.2, c.touch key e.2)
  | none => (none, c)

def insert (c : Lru κ ν) (key : κ) (val : ν) : Lru κ ν :=
  { c with held := evict charge c.cap (c.touch key val).held.length (c.touch key val).held }

end

variable {charge : ν → ℕ} {c : Lru κ ν} {key : κ} {val : ν} {e : κ × ν} {held : List (κ × ν)}
    {cap turns : ℕ}

/-- What is forgotten goes from the back. -/
theorem evict_initial (charge : ν → ℕ) (cap turns : ℕ) (held : List (κ × ν)) :
    evict charge cap turns held <+: held := by
  induction turns generalizing held with
  | zero => exact List.prefix_rfl
  | succ turns ih =>
    unfold evict
    split
    · exact (ih _).trans (List.dropLast_prefix _)
    · exact List.prefix_rfl

/-- The first entry stays. -/
theorem evict_cons (charge : ν → ℕ) (cap turns : ℕ) (e : κ × ν) (rest : List (κ × ν)) :
    ∃ kept, evict charge cap turns (e :: rest) = e :: kept ∧ kept <+: rest := by
  induction turns generalizing rest with
  | zero => exact ⟨rest, rfl, List.prefix_rfl⟩
  | succ turns ih =>
    unfold evict
    split
    · rename_i hover
      obtain ⟨f, rest, rfl⟩ := List.exists_cons_of_length_pos (Nat.lt_of_succ_lt_succ hover.2)
      rw [List.dropLast_cons_of_ne_nil (List.cons_ne_nil _ _)]
      obtain ⟨kept, heq, hkept⟩ := ih (f :: rest).dropLast
      exact ⟨kept, heq, hkept.trans (List.dropLast_prefix _)⟩
    · exact ⟨rest, rfl, List.prefix_rfl⟩

/-- What is held fits, or is one entry. -/
theorem evict_fits (h : held.length ≤ turns + 1) :
    size charge (evict charge cap turns held) ≤ cap ∨ (evict charge cap turns held).length ≤ 1 := by
  induction turns generalizing held with
  | zero => exact Or.inr h
  | succ turns ih =>
    unfold evict
    split
    · refine ih ?_
      rw [List.length_dropLast]
      omega
    · omega

variable [DecidableEq κ]

theorem mem_touch (h : e ∈ (c.touch key val).held) : e = (key, val) ∨ e ∈ c.held := by
  rcases List.mem_cons.mp h with h | h
  · exact Or.inl h
  · exact Or.inr (List.mem_of_mem_filter h)

theorem mem_of_mem_insert (h : e ∈ (c.insert charge key val).held) : e = (key, val) ∨ e ∈ c.held :=
  mem_touch ((evict_initial charge _ _ _).subset h)

/-- What is got is held. -/
theorem mem_of_get (h : (c.get key).1 = some val) : (key, val) ∈ c.held := by
  unfold get at h
  cases hfind : c.held.find? (fun e => decide (e.1 = key)) with
  | none =>
    rw [hfind] at h
    exact nomatch h
  | some e =>
    rw [hfind] at h
    have hkey : e.1 = key :=
      of_decide_eq_true (List.find?_some (p := fun e : κ × ν => decide (e.1 = key)) hfind)
    obtain rfl : e.2 = val := Option.some.inj h
    rw [← hkey]
    exact List.mem_of_find?_eq_some hfind

theorem mem_of_mem_get (h : e ∈ (c.get key).2.held) : e ∈ c.held := by
  unfold get at h
  cases hfind : c.held.find? (fun e => decide (e.1 = key)) with
  | none =>
    rw [hfind] at h
    exact h
  | some f =>
    rw [hfind] at h
    have hkey : f.1 = key :=
      of_decide_eq_true (List.find?_some (p := fun e : κ × ν => decide (e.1 = key)) hfind)
    rcases mem_touch h with rfl | h
    · rw [← hkey]
      exact List.mem_of_find?_eq_some hfind
    · exact h

/-- **After an insertion** all is within the capacity, or only what was inserted is held. -/
theorem fits_insert (charge : ν → ℕ) (c : Lru κ ν) (key : κ) (val : ν) :
    size charge (c.insert charge key val).held ≤ c.cap ∨
      (c.insert charge key val).held = [(key, val)] := by
  have hfits : size charge (c.insert charge key val).held ≤ c.cap ∨
      (c.insert charge key val).held.length ≤ 1 :=
    evict_fits (Nat.le_succ (c.touch key val).held.length)
  refine hfits.imp_right fun hlen => ?_
  obtain ⟨kept, heq, -⟩ := evict_cons charge c.cap (c.touch key val).held.length (key, val)
    (c.held.filter fun e => decide (e.1 ≠ key))
  change (c.insert charge key val).held = (key, val) :: kept at heq
  change (c.insert charge key val).held.length ≤ 1 at hlen
  rw [heq, List.length_cons] at hlen
  rw [heq, List.length_eq_zero_iff.mp (Nat.le_zero.mp (Nat.le_of_succ_le_succ hlen))]

/-! ### Runs -/

/-- An operation of a run. -/
inductive Op (κ ν : Type)
  | get (key : κ)
  | insert (key : κ) (val : ν)

def Op.named : Op κ ν → κ
  | .get key => key
  | .insert key _ => key

def step (charge : ν → ℕ) (c : Lru κ ν) : Op κ ν → Lru κ ν
  | .get key => (c.get key).2
  | .insert key val => c.insert charge key val

def run (charge : ν → ℕ) (c : Lru κ ν) (ops : List (Op κ ν)) : Lru κ ν := ops.foldl (step charge) c

/-- How many operations ago a key was last named. -/
def age (ops : List (Op κ ν)) (key : κ) : ℕ := (ops.reverse.map Op.named).idxOf key

/-- The value that was inserted last under a key. -/
def lastInserted (ops : List (Op κ ν)) (key : κ) : Option ν :=
  ops.reverse.findSome? fun
    | .insert k val => if k = key then some val else none
    | .get _ => none

variable {ops : List (Op κ ν)} {op : Op κ ν}

theorem age_concat (ops : List (Op κ ν)) (op : Op κ ν) (key : κ) :
    age (ops ++ [op]) key = if op.named = key then 0 else age ops key + 1 := by
  unfold age
  rw [List.reverse_concat, List.map_cons, List.idxOf_cons]
  by_cases h : op.named = key
  · simp [h]
  · rw [if_neg h, beq_false_of_ne h]
    rfl

/-- Entries are held by their last use, and with the value inserted last. -/
structure Recent (c : Lru κ ν) (ops : List (Op κ ν)) : Prop where
  sorted : c.held.Pairwise fun e f => age ops e.1 < age ops f.1
  latest : ∀ e ∈ c.held, lastInserted ops e.1 = some e.2

/-- The key of the operation comes to the front. -/
theorem Recent.touch (h : c.Recent ops) (hkey : op.named = key)
    (hval : lastInserted (ops ++ [op]) key = some val)
    (hrest : ∀ k, k ≠ key → lastInserted (ops ++ [op]) k = lastInserted ops k) :
    (c.touch key val).Recent (ops ++ [op]) := by
  have hothers : ∀ e ∈ c.held.filter fun e => decide (e.1 ≠ key), e ∈ c.held ∧ e.1 ≠ key :=
    fun e he =>
    ⟨List.mem_of_mem_filter he, of_decide_eq_true (List.mem_filter.mp he).2⟩
  refine ⟨List.pairwise_cons.mpr ⟨fun f hf => ?_, ?_⟩, List.forall_mem_cons.mpr
    ⟨hval, fun f hf => ?_⟩⟩
  · rw [age_concat, age_concat, if_pos hkey, hkey, if_neg (hothers f hf).2.symm]
    exact Nat.succ_pos _
  · refine (h.sorted.filter _).imp_of_mem fun {e f} he hf hlt => ?_
    rw [age_concat, age_concat, hkey, if_neg (hothers e he).2.symm, if_neg (hothers f hf).2.symm]
    exact Nat.succ_lt_succ hlt
  · rw [hrest f.1 (hothers f hf).2]
    exact h.latest f (hothers f hf).1

theorem Recent.take (h : c.Recent ops) (hinit : held <+: c.held) : Recent ⟨held, cap⟩ ops :=
  ⟨h.sorted.sublist hinit.sublist, fun e he => h.latest e (hinit.subset he)⟩

theorem lastInserted_insert (ops : List (Op κ ν)) (key : κ) (val : ν) (k : κ) :
    lastInserted (ops ++ [.insert key val]) k = if key = k then
      some val else lastInserted ops k := by
  unfold lastInserted
  rw [List.reverse_concat, List.findSome?_cons]
  by_cases h : key = k <;> simp [h]

theorem lastInserted_get (ops : List (Op κ ν)) (key k : κ) :
    lastInserted (ops ++ [.get key]) k = lastInserted ops k := by
  unfold lastInserted
  rw [List.reverse_concat, List.findSome?_cons]

theorem Recent.step (charge : ν → ℕ) (h : c.Recent ops) (op : Op κ ν) :
    (c.step charge op).Recent (ops ++ [op]) := by
  cases op with
  | insert key val =>
    have htouch : (c.touch key val).Recent (ops ++ [.insert key val]) :=
      h.touch rfl (by rw [lastInserted_insert, if_pos rfl]) fun k hk => by
        rw [lastInserted_insert, if_neg (Ne.symm hk)]
    exact htouch.take (evict_initial charge _ _ _)
  | get key =>
    show (c.get key).2.Recent _
    unfold get
    cases hfind : c.held.find? (fun e => decide (e.1 = key)) with
    | none =>
      -- a miss ages every entry alike
      have hmiss : ∀ e ∈ c.held, (Op.get key : Op κ ν).named ≠ e.1 := fun e he heq =>
        absurd (decide_eq_true heq.symm) (List.find?_eq_none.mp hfind e he)
      refine ⟨h.sorted.imp_of_mem fun {e f} he hf hlt => ?_, fun e he => ?_⟩
      · rw [age_concat, age_concat, if_neg (hmiss e he), if_neg (hmiss f hf)]
        exact Nat.succ_lt_succ hlt
      · rw [lastInserted_get]
        exact h.latest e he
    | some e =>
      have hkey : e.1 = key :=
        of_decide_eq_true (List.find?_some (p := fun e : κ × ν => decide (e.1 = key)) hfind)
      refine h.touch rfl ?_ fun k _ => lastInserted_get ops key k
      rw [lastInserted_get, ← hkey]
      exact h.latest e (List.mem_of_find?_eq_some hfind)

theorem cap_step (charge : ν → ℕ) (c : Lru κ ν) (op : Op κ ν) : (c.step charge op).cap = c.cap := by
  cases op with
  | insert key val => rfl
  | get key =>
    show (c.get key).2.cap = c.cap
    unfold get
    cases c.held.find? (fun e => decide (e.1 = key)) <;> rfl

theorem cap_run (charge : ν → ℕ) (c : Lru κ ν) (ops : List (Op κ ν)) :
    (c.run charge ops).cap = c.cap := by
  induction ops using List.reverseRecOn with
  | nil => rfl
  | append_singleton ops op ih =>
    rw [run, List.foldl_concat]
    exact (cap_step charge _ op).trans ih

/-- **Runs** keep the entries by their last use. -/
theorem recent_run (charge : ν → ℕ) (cap : ℕ) (ops : List (Op κ ν)) :
    ((⟨[], cap⟩ : Lru κ ν).run charge ops).Recent ops := by
  induction ops using List.reverseRecOn with
  | nil => exact ⟨List.Pairwise.nil, fun e he => absurd he List.not_mem_nil⟩
  | append_singleton ops op ih =>
    rw [run, List.foldl_concat]
    exact ih.step charge op

/-- Getting an entry changes only the order. -/
theorem Recent.perm_get (h : c.Recent ops) (key : κ) : (c.get key).2.held.Perm c.held := by
  unfold get
  cases hfind : c.held.find? (fun e => decide (e.1 = key)) with
  | none => exact List.Perm.rfl
  | some e =>
    obtain ⟨hkey, before, behind, hsplit, hbefore⟩ := List.find?_eq_some_iff_append.mp hfind
    have hkey : e.1 = key := of_decide_eq_true hkey
    have hsorted := h.sorted
    rw [hsplit] at hsorted
    have hbehind : ∀ f ∈ behind, f.1 ≠ key := fun f hf heq => by
      have hlt := (List.pairwise_cons.mp (List.pairwise_append.mp hsorted).2.1).1 f hf
      rw [hkey, heq] at hlt
      exact lt_irrefl _ hlt
    have hfilter : c.held.filter (fun f => decide (f.1 ≠ key)) = before ++ behind := by
      rw [hsplit, List.filter_append, List.filter_cons_of_neg (by simp [hkey]),
        List.filter_eq_self.mpr fun f hf => by simpa using hbefore f hf,
        List.filter_eq_self.mpr fun f hf => by simpa using hbehind f hf]
    show ((key, e.2) :: c.held.filter fun f => decide (f.1 ≠ key)).Perm c.held
    rw [hfilter, hsplit, ← hkey]
    exact List.perm_middle.symm

/-- **Any run** keeps the charges within the capacity, unless one entry is held. -/
theorem fits_run (charge : ν → ℕ) (cap : ℕ) (ops : List (Op κ ν)) :
    size charge ((⟨[], cap⟩ : Lru κ ν).run charge ops).held ≤ cap ∨
      ∃ e, ((⟨[], cap⟩ : Lru κ ν).run charge ops).held = [e] := by
  induction ops using List.reverseRecOn with
  | nil => exact Or.inl (Nat.zero_le _)
  | append_singleton ops op ih =>
    have hcap := cap_run charge (⟨[], cap⟩ : Lru κ ν) ops
    have hrecent := recent_run charge cap ops
    rw [run, List.foldl_concat]
    change ((⟨[], cap⟩ : Lru κ ν).run charge ops).cap = cap at hcap
    change size charge ((((⟨[], cap⟩ : Lru κ ν).run charge ops).step charge op).held) ≤ cap ∨ _
    cases op with
    | insert key val =>
      have hfits := fits_insert charge ((⟨[], cap⟩ : Lru κ ν).run charge ops) key val
      rw [hcap] at hfits
      exact hfits.imp_right fun hone => ⟨_, hone⟩
    | get key =>
      have hperm := hrecent.perm_get key
      refine ih.imp (fun hle => ?_) fun ⟨e, hone⟩ => ⟨e, ?_⟩
      · exact (List.Perm.sum_nat (hperm.map _)).trans_le hle
      · exact List.perm_singleton.mp (hone ▸ hperm)

end Lru
