/-
Doubly linked lists through the slots of an array.

A slot knows the slot before it and the one behind it, and the list its two ends.

* `Links.Through` — the slots of the list in their order, each of them once;
* `Links.Through.unlink`, `Links.Through.pushFront` — taking a slot out, and putting
  one in front.
-/
import Mathlib.Algebra.Order.Ring.Nat
import Mathlib.Data.List.Nodup
import Mathlib.Logic.Function.Basic

@[ext] structure Links where
  prev : ℕ → Option ℕ
  next : ℕ → Option ℕ
  head : Option ℕ
  tail : Option ℕ

namespace Links

/-- The list is `order`, from either end. -/
structure Through (l : Links) (order : List ℕ) : Prop where
  nodup : order.Nodup
  head : l.head = order.head?
  tail : l.tail = order.getLast?
  link : ∀ pre i post, order = pre ++ i :: post → l.prev i = pre.getLast? ∧ l.next i = post.head?

def setPrev (l : Links) (i : ℕ) (p : Option ℕ) : Links :=
  { l with prev := Function.update l.prev i p }

def setNext (l : Links) (i : ℕ) (n : Option ℕ) : Links :=
  { l with next := Function.update l.next i n }

/-- Join what is before `i` and what is behind it. -/
def unlink (l : Links) (i : ℕ) : Links :=
  let before := (l.prev i).elim { l with head := l.next i } fun p => l.setNext p (l.next i)
  let behind := (l.next i).elim { before with tail := l.prev i } fun n =>
    before.setPrev n (l.prev i)
  (behind.setPrev i none).setNext i none

def pushFront (l : Links) (i : ℕ) : Links :=
  let own := (l.setPrev i none).setNext i l.head
  let behind := l.head.elim own fun h => own.setPrev h (some i)
  { behind with head := some i, tail := l.tail.or (some i) }

variable {l : Links} {i j : ℕ} {order pre post : List ℕ}

theorem through_nil : Through ⟨l.prev, l.next, none, none⟩ [] where
  nodup := List.nodup_nil
  head := rfl
  tail := rfl
  link pre i post h := absurd h (by simp)

/-- Only the slots of the list matter. -/
theorem Through.congr {l' : Links} (h : l.Through order) (hhead : l'.head = l.head)
    (htail : l'.tail = l.tail)
    (hlink : ∀ i ∈ order, l'.prev i = l.prev i ∧ l'.next i = l.next i) : l'.Through order := by
  refine ⟨h.nodup, hhead.trans h.head, htail.trans h.tail, fun pre i post heq => ?_⟩
  have hi : i ∈ order := heq ▸ List.mem_append_right _ List.mem_cons_self
  rw [(hlink i hi).1, (hlink i hi).2]
  exact h.link pre i post heq

theorem unlink_head : (l.unlink i).head = (l.prev i).elim (l.next i) fun _ => l.head := by
  unfold unlink
  cases l.prev i <;> cases l.next i <;> rfl

theorem unlink_tail : (l.unlink i).tail = (l.next i).elim (l.prev i) fun _ => l.tail := by
  unfold unlink
  cases l.prev i <;> cases l.next i <;> rfl

theorem unlink_prev (hj : j ≠ i) :
    (l.unlink i).prev j = if l.next i = some j then l.prev i else l.prev j := by
  have hprev : (l.unlink i).prev = Function.update ((l.next i).elim l.prev fun n =>
      Function.update l.prev n (l.prev i)) i none := by
    unfold unlink
    cases l.prev i <;> cases l.next i <;> rfl
  rw [hprev, Function.update_of_ne hj]
  cases l.next i with
  | none => rfl
  | some n =>
    rw [Option.elim_some, Function.update_apply]
    simp only [Option.some.injEq, eq_comm]

theorem unlink_next (hj : j ≠ i) :
    (l.unlink i).next j = if l.prev i = some j then l.next i else l.next j := by
  have hnext : (l.unlink i).next = Function.update ((l.prev i).elim l.next fun p =>
      Function.update l.next p (l.next i)) i none := by
    unfold unlink
    cases l.prev i <;> cases l.next i <;> rfl
  rw [hnext, Function.update_of_ne hj]
  cases l.prev i with
  | none => rfl
  | some p =>
    rw [Option.elim_some, Function.update_apply]
    simp only [Option.some.injEq, eq_comm]

/-- **A slot is taken out.** -/
theorem Through.unlink (h : l.Through (pre ++ i :: post)) : (l.unlink i).Through (pre ++ post) := by
  obtain ⟨hprev, hnext⟩ := h.link pre i post rfl
  have hnodup := List.nodup_append.mp h.nodup
  obtain ⟨hi, hpost⟩ := List.nodup_cons.mp hnodup.2.1
  have hapart : ∀ j ∈ pre, j ≠ i ∧ j ∉ post := fun j hj =>
    ⟨hnodup.2.2 j hj i List.mem_cons_self, fun hmem =>
      hnodup.2.2 j hj j (List.mem_cons_of_mem _ hmem) rfl⟩
  refine ⟨List.nodup_append.mpr ⟨hnodup.1, hpost, fun a ha b hb => ?_⟩, ?_, ?_,
    fun pre' j post' heq => ?_⟩
  · exact hnodup.2.2 a ha b (List.mem_cons_of_mem _ hb)
  · rw [unlink_head, hprev, hnext, h.head]
    cases pre with
    | nil => rfl
    | cons a pre => rw [List.getLast?_cons, Option.elim_some]; rfl
  · rw [unlink_tail, hprev, hnext, h.tail]
    cases post with
    | nil => rw [List.append_nil]; rfl
    | cons b post => simp
  · -- the slot is behind the one taken out, or before it
    have hsplit : (∃ mid, pre' = pre ++ mid ∧ post = mid ++ j :: post') ∨
        ∃ mid, pre = pre' ++ j :: mid ∧ post' = mid ++ post := by
      rcases List.append_eq_append_iff.mp heq with ⟨mid, hpre', hrest⟩ | ⟨mid, hpre, hrest⟩
      · exact Or.inl ⟨mid, hpre', hrest⟩
      · cases mid with
        | nil => exact Or.inl ⟨[], by rw [hpre, List.append_nil, List.append_nil], hrest.symm⟩
        | cons a mid =>
          obtain ⟨rfl, hbehind⟩ := List.cons.inj hrest
          exact Or.inr ⟨mid, hpre, hbehind⟩
    rcases hsplit with ⟨mid, rfl, rfl⟩ | ⟨mid, rfl, rfl⟩
    · have hj : j ∈ mid ++ j :: post' := List.mem_append_right _ List.mem_cons_self
      have hne : j ≠ i := fun heq => hi (heq ▸ hj)
      obtain ⟨hjprev, hjnext⟩ := h.link (pre ++ i :: mid) j post' (by rw [List.append_assoc]; rfl)
      rw [unlink_prev hne, unlink_next hne, hprev, hnext, hjprev, hjnext]
      refine ⟨?_, if_neg fun hlast => (hapart j (List.mem_of_getLast? hlast)).2 hj⟩
      cases mid with
      | nil => simp
      | cons a mid =>
        have ha : a ≠ j := by
          rintro rfl
          exact (List.nodup_cons.mp hpost).1 (List.mem_append_right _ List.mem_cons_self)
        rw [if_neg (fun hhead : (a :: mid ++ j :: post').head? = some j =>
          ha (Option.some.inj hhead))]
        simp
    · have hj : j ∈ pre' ++ j :: mid := List.mem_append_right _ List.mem_cons_self
      obtain ⟨hne, hnot⟩ := hapart j hj
      obtain ⟨hjprev, hjnext⟩ := h.link pre' j (mid ++ i :: post) (by rw [List.append_assoc]; rfl)
      rw [unlink_prev hne, unlink_next hne, hprev, hnext, hjprev, hjnext]
      refine ⟨if_neg fun hhead => hnot (List.mem_of_head? hhead), ?_⟩
      rcases List.eq_nil_or_concat mid with rfl | ⟨mid, a, rfl⟩
      · simp
      · have ha : a ≠ j := by
          rintro rfl
          exact (List.nodup_cons.mp (List.nodup_append.mp hnodup.1).2.1).1 (by simp)
        have hlast : (pre' ++ j :: (mid ++ [a])).getLast? = some a := by
          rw [← List.cons_append, ← List.append_assoc, List.getLast?_concat]
        rw [List.concat_eq_append, hlast, if_neg (fun heq => ha (Option.some.inj heq))]
        cases mid <;> rfl

theorem pushFront_prev : (l.pushFront i).prev j = if l.head = some j then some i else if j = i then
    none else l.prev j := by
  unfold pushFront
  cases l.head with
  | none => exact Function.update_apply ..
  | some h =>
    show Function.update (Function.update l.prev i none) h (some i) j = _
    rw [Function.update_apply, Function.update_apply]
    simp only [Option.some.injEq, eq_comm]

theorem pushFront_next : (l.pushFront i).next j = if j = i then l.head else l.next j := by
  unfold pushFront
  cases l.head <;> exact Function.update_apply ..

/-- **A slot comes in front.** -/
theorem Through.pushFront (h : l.Through order) (hi : i ∉ order) :
    (l.pushFront i).Through (i :: order) := by
  refine ⟨List.nodup_cons.mpr ⟨hi, h.nodup⟩, rfl, ?_, fun pre' j post' heq => ?_⟩
  · show l.tail.or (some i) = _
    rw [h.tail]
    cases order with
    | nil => rfl
    | cons a order =>
      rw [List.getLast?_cons_cons]
      cases hlast : (a :: order).getLast? with
      | none => exact absurd (List.getLast?_eq_none_iff.mp hlast) (List.cons_ne_nil _ _)
      | some b => rfl
  · rw [pushFront_prev, pushFront_next, h.head]
    cases pre' with
    | nil =>
      obtain ⟨rfl, rfl⟩ := List.cons.inj heq
      rw [if_pos rfl, if_pos rfl]
      exact ⟨if_neg fun hhead => hi (List.mem_of_head? hhead), rfl⟩
    | cons a pre' =>
      obtain ⟨rfl, hrest⟩ := List.cons.inj heq
      -- a slot further back keeps its links, but for the old head
      have hj : j ∈ order := hrest ▸ List.mem_append_right _ List.mem_cons_self
      have hne : j ≠ i := fun heq => hi (heq ▸ hj)
      obtain ⟨hjprev, hjnext⟩ := h.link pre' j post' hrest
      rw [if_neg hne, if_neg hne, hjprev, hjnext]
      refine ⟨?_, rfl⟩
      cases pre' with
      | nil =>
        rw [hrest]
        exact if_pos rfl
      | cons b pre' =>
        have hb : b ≠ j := by
          rintro rfl
          exact (List.nodup_cons.mp (hrest ▸ h.nodup)).1
            (List.mem_append_right _ List.mem_cons_self)
        rw [if_neg (by rw [hrest]; exact fun hhead => hb (Option.some.inj hhead))]
        simp

end Links
