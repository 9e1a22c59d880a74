/-
The merge and the visibility passes over it (`iter.rs`).

In internal-key order the versions of a key stand newest first.  `MvccForward`
keeps the first visible version of a key and skips the others; `MvccReverse`
meets them oldest first and holds back a candidate until the key changes.

* `mem_visibleFrom` — what the forward pass keeps, against the newest versions;
* `reverseFrom_eq` — the reverse pass keeps the same;
* `MvccForward.Remains.yields`, `MvccReverse.Remains.yields` — the passes hand
  out what they keep of the entries they are shown.
-/
import Fluent31.Readers

namespace Fluent31

open Ordered Cursors Mvcc

/-- An iterator that is pulled with `next`. -/
def Pulls {S A : Type} (next : S → S × Option A) (s s' : S) (a : Option A) : Prop :=
  next s = (s', a)

theorem Pulls.eq {S A : Type} {next : S → S × Option A} {s s' : S} {a : Option A}
    (h : Pulls next s s' a) :
    s' = (next s).1 ∧ a = (next s).2 := Prod.mk.inj (Eq.symm h)

/-! ### Visibility -/

abbrev MergeIterator := Merging ChildIter

def MergeIterator.new (children : List ChildIter) (reverse : Bool) : MergeIterator :=
  ⟨children, none, reverse⟩

/-- Forward stream of the newest visible put of each user key.  `rounds` bounds
the rounds of the loop by the entries there are. -/
structure MvccForward where
  it : MergeIterator
  snap : ℕ
  hi : Option Bytes
  lastUkey : Option Bytes
  done : Bool
  rounds : ℕ

namespace MvccForward

def new (it : MergeIterator) (rounds snap : ℕ) (lo : Bytes) (hi : Option Bytes) : MvccForward :=
  ⟨seek (makeSeekIkey lo MAX_SEQNO) it, snap, hi, none, false, rounds⟩

def loop : ℕ → MvccForward → MvccForward × Option (Bytes × ReprRef)
  | 0, f => (f, none)
  | n + 1, f =>
    match current f.it with
    | none => ({ f with done := true }, none)
    | some e =>
      if f.hi.any fun hi => decide (hi ≤ e.ukey) then ({ f with done := true }, none)
      else if f.lastUkey = some e.ukey then loop n { f with it := next f.it }
      else if f.snap < e.seq then loop n { f with it := next f.it }
      else
        let f := { f with it := next f.it, lastUkey := some e.ukey }
        match e.kind with
        | .delete => loop n f
        | .put => (f, some (e.ukey, e.repr))

/-- Next visible key with what is stored under it. -/
def nextVisible (f : MvccForward) : MvccForward × Option (Bytes × ReprRef) :=
  if f.done then (f, none) else loop (f.rounds + 1) f

end MvccForward

/-- The same stream, backward. -/
structure MvccReverse where
  it : MergeIterator
  snap : ℕ
  lo : Bytes
  group : Option Bytes
  /-- The newest visible version of the group so far; `none` inside for a
  tombstone. -/
  cand : Option (Option ReprRef)
  done : Bool
  rounds : ℕ

namespace MvccReverse

def new (it : MergeIterator) (rounds snap : ℕ) (lo : Bytes) (hi : Option Bytes) : MvccReverse :=
  let it := match hi with
    -- the seek target stands before every entry of `hi`
    | some hi => seekForPrev (makeSeekIkey hi MAX_SEQNO) it
    | none => seekToLast it
  ⟨it, snap, lo, none, none, false, rounds⟩

def takeEmittable (r : MvccReverse) : MvccReverse × Option (Bytes × ReprRef) :=
  match r.group with
  | none => (r, none)
  | some g =>
    ({ r with group := none, cand := none },
      match r.cand with
      | some (some v) => some (g, v)
      | _ => none)

/-- What a version makes of the candidate of its key. -/
def absorb (snap : ℕ) (cand : Option (Option ReprRef)) (e : Entry) : Option (Option ReprRef) :=
  if e.seq ≤ snap then some (if e.kind = .put then some e.repr else none) else cand

def loop : ℕ → MvccReverse → MvccReverse × Option (Bytes × ReprRef)
  | 0, r => (r, none)
  | n + 1, r =>
    match current r.it with
    | none => ({ r with done := true }).takeEmittable
    | some e =>
      if e.ukey < r.lo then ({ r with done := true }).takeEmittable
      else if r.group = some e.ukey then
        loop n { r with cand := absorb r.snap r.cand e, it := prev r.it }
      else
        -- a new key: hand out the previous one's candidate first
        match r.takeEmittable with
        | (r, some out) => ({ r with group := some e.ukey, cand := none }, some out)
        | (r, none) =>
          loop n { r with group := some e.ukey, cand := absorb r.snap none e, it := prev r.it }

def nextVisible (r : MvccReverse) : MvccReverse × Option (Bytes × ReprRef) :=
  if r.done then (r, none) else loop (r.rounds + 1) r

end MvccReverse

inductive MvccIter
  | fwd (f : MvccForward)
  | rev (r : MvccReverse)

def MvccIter.nextVisible : MvccIter → MvccIter × Option (Bytes × ReprRef)
  | fwd f => (fwd f.nextVisible.1, f.nextVisible.2)
  | rev r => (rev r.nextVisible.1, r.nextVisible.2)

/-! ### The visible versions of a sorted list -/

/-- What the forward pass keeps, after it has decided `last`. -/
def visibleFrom (snap : ℕ) : Option Bytes → List Entry → List (Bytes × ReprRef)
  | _, [] => []
  | last, e :: es =>
    if last = some e.ukey then visibleFrom snap last es
    else if snap < e.seq then visibleFrom snap last es
    else
      match e.kind with
      | .delete => visibleFrom snap (some e.ukey) es
      | .put => (e.ukey, e.repr) :: visibleFrom snap (some e.ukey) es

section Visible

variable {snap : ℕ} {last : Option Bytes} {k g : Bytes} {r : ReprRef} {e : Entry}
    {es l p : List Entry}

theorem visibleFrom_skip (h : last = some e.ukey ∨ snap < e.seq) :
    visibleFrom snap last (e :: es) = visibleFrom snap last es := by
  rw [visibleFrom]
  by_cases hlast : last = some e.ukey
  · rw [if_pos hlast]
  · rw [if_neg hlast, if_pos (h.resolve_left hlast)]

theorem visibleFrom_delete (hlast : last ≠ some e.ukey) (hseq : e.seq ≤ snap)
    (hkind : e.kind = .delete) :
    visibleFrom snap last (e :: es) = visibleFrom snap (some e.ukey) es := by
  rw [visibleFrom, if_neg hlast, if_neg (not_lt.mpr hseq), hkind]

theorem visibleFrom_put (hlast : last ≠ some e.ukey) (hseq : e.seq ≤ snap) (hkind : e.kind = .put) :
    visibleFrom snap last (e :: es) = (e.ukey, e.repr) :: visibleFrom snap (some e.ukey) es := by
  rw [visibleFrom, if_neg hlast, if_neg (not_lt.mpr hseq), hkind]

/-- A visible version of `k` at the head of a sorted list is the newest. -/
theorem isNewest_head (h : Sorted (e :: es)) (hseq : e.seq ≤ snap) :
    IsNewest (e :: es) e.ukey snap e := by
  refine ⟨List.mem_cons_self, rfl, hseq, fun f hf hk _ => ?_⟩
  rcases List.mem_cons.mp hf with rfl | hf
  · exact le_rfl
  · exact seq_ge_of_ikey_lt ((List.pairwise_cons.mp h).1 f hf) (Eq.symm hk)

/-- Only a tombstone shares the newest seqno with the head. -/
theorem eq_head_of_isNewest (h : Sorted (e :: es)) (hseq : e.seq ≤ snap) {f : Entry}
    (hf : IsNewest (e :: es) e.ukey snap f) (hput : f.kind = .put) : f = e := by
  obtain ⟨hmem, hk, -, hmax⟩ := hf
  rcases List.mem_cons.mp hmem with rfl | hmem
  · rfl
  · have hlt := (List.pairwise_cons.mp h).1 f hmem
    have hle := hmax e List.mem_cons_self rfl hseq
    rcases ikey_lt_iff.mp hlt with hlt | ⟨-, hlt⟩
    · exact absurd (Eq.symm hk) (ne_of_lt hlt)
    · have := e.kind.toNat_le
      have hone : f.kind.toNat = 1 := by rw [hput]; rfl
      rw [packTrailer, packTrailer, hone] at hlt
      simp only [seq_eq_seq] at hle
      omega

theorem isNewest_tail (h : e.ukey ≠ k ∨ snap < e.seq) {f : Entry} :
    IsNewest (e :: es) k snap f ↔ IsNewest es k snap f := by
  have hskip : ∀ {f : Entry}, f = e → f.ukey = k → ¬ f.seq ≤ snap := by
    rintro f rfl hk
    exact not_le.mpr (h.resolve_left (fun hne => hne hk))
  constructor
  · rintro ⟨hmem, hk, hseq, hmax⟩
    exact ⟨(List.mem_cons.mp hmem).resolve_left fun heq => hskip heq hk hseq, hk, hseq,
      fun f hf => hmax f (List.mem_cons_of_mem _ hf)⟩
  · rintro ⟨hmem, hk, hseq, hmax⟩
    refine ⟨List.mem_cons_of_mem _ hmem, hk, hseq, fun f hf hfk hfs => ?_⟩
    rcases List.mem_cons.mp hf with heq | hf
    · exact absurd hfs (hskip heq hfk)
    · exact hmax f hf hfk hfs

/-- **What is kept**: the puts that are newest for a key not yet decided. -/
theorem mem_visibleFrom (h : Sorted l) (hlow : ∀ k ∈ last, ∀ e ∈ l, k ≤ e.ukey) :
    (k, r) ∈ visibleFrom snap last l ↔
      last ≠ some k ∧ ∃ e, IsNewest l k snap e ∧ e.kind = .put ∧ e.repr = r := by
  induction l generalizing last with
  | nil =>
    refine ⟨fun hm => absurd hm List.not_mem_nil, ?_⟩
    rintro ⟨-, e, he, -⟩
    exact absurd he.1 List.not_mem_nil
  | cons e es ih =>
    have hes : Sorted es := List.Pairwise.tail h
    have hlow' : ∀ k ∈ last, ∀ f ∈ es, k ≤ f.ukey :=
      fun k hk f hf => hlow k hk f (List.mem_cons_of_mem _ hf)
    by_cases hlast : last = some e.ukey
    · rw [visibleFrom_skip (Or.inl hlast), ih hes hlow']
      refine and_congr_right fun hne => exists_congr fun f => and_congr_left fun _ => ?_
      exact (isNewest_tail (Or.inl fun hk => hne (hlast.trans (congrArg some hk)))).symm
    by_cases hseq : snap < e.seq
    · rw [visibleFrom_skip (Or.inr hseq), ih hes hlow']
      exact and_congr_right fun _ => exists_congr fun f => and_congr_left fun _ =>
        (isNewest_tail (Or.inr hseq)).symm
    · have hseq := not_lt.mp hseq
      have hdecided : ∀ k ∈ some e.ukey, ∀ f ∈ es, k ≤ f.ukey := by
        rintro _ ⟨⟩ f hf
        exact ukey_le_of_ikey_lt ((List.pairwise_cons.mp h).1 f hf)
      by_cases hk : e.ukey = k
      · -- the head decides its key
        subst hk
        have hnot : (e.ukey, r) ∉ visibleFrom snap (some e.ukey) es :=
          fun hm => ((ih hes hdecided).mp hm).1 rfl
        have hdecides : (∃ f, IsNewest (e :: es) e.ukey snap f ∧ f.kind = .put ∧ f.repr = r) ↔
            e.kind = .put ∧ e.repr = r := by
          constructor
          · rintro ⟨f, hf, hput, hrepr⟩
            obtain rfl := eq_head_of_isNewest h hseq hf hput
            exact ⟨hput, hrepr⟩
          · exact fun he => ⟨e, isNewest_head h hseq, he⟩
        rw [hdecides]
        cases hkind : e.kind with
        | delete =>
          rw [visibleFrom_delete hlast hseq hkind]
          exact ⟨fun hm => absurd hm hnot, fun hm => absurd hm.2.1 (by simp)⟩
        | put =>
          rw [visibleFrom_put hlast hseq hkind]
          constructor
          · intro hm
            rcases List.mem_cons.mp hm with heq | hm
            · exact ⟨hlast, rfl, (Prod.mk.inj heq).2.symm⟩
            · exact absurd hm hnot
          · rintro ⟨-, -, rfl⟩
            exact List.mem_cons_self
      · have hrest : (k, r) ∈ visibleFrom snap last (e :: es) ↔
          (k, r) ∈ visibleFrom snap (some e.ukey) es := by
          cases hkind : e.kind with
          | delete => rw [visibleFrom_delete hlast hseq hkind]
          | put =>
            rw [visibleFrom_put hlast hseq hkind, List.mem_cons]
            exact or_iff_right fun heq => hk (Prod.mk.inj heq).1.symm
        rw [hrest, ih hes hdecided]
        constructor
        · rintro ⟨-, f, hf, hput⟩
          refine ⟨?_, f, (isNewest_tail (Or.inl hk)).mpr hf, hput⟩
          -- a key decided before stands before the head
          rintro rfl
          have hle := hdecided e.ukey rfl f hf.1
          rw [show f.ukey = k from hf.2.1] at hle
          exact hk (le_antisymm hle (hlow k rfl e List.mem_cons_self))
        · rintro ⟨-, f, hf, hput⟩
          exact ⟨fun heq => hk (Option.some_inj.mp heq), f, (isNewest_tail (Or.inl hk)).mp hf, hput⟩

/-- The keys kept are ascending, and none of them is decided. -/
theorem sorted_visibleFrom (h : Sorted l) (hlow : ∀ k ∈ last, ∀ e ∈ l, k ≤ e.ukey) :
    (visibleFrom snap last l).Pairwise fun x y => x.1 < y.1 := by
  induction l generalizing last with
  | nil => exact List.Pairwise.nil
  | cons e es ih =>
    have hes : Sorted es := List.Pairwise.tail h
    have hdecided : ∀ k ∈ some e.ukey, ∀ f ∈ es, k ≤ f.ukey := by
      rintro _ ⟨⟩ f hf
      exact ukey_le_of_ikey_lt ((List.pairwise_cons.mp h).1 f hf)
    by_cases hskip : last = some e.ukey ∨ snap < e.seq
    · rw [visibleFrom_skip hskip]
      exact ih hes fun k hk f hf => hlow k hk f (List.mem_cons_of_mem _ hf)
    · obtain ⟨hlast, hseq⟩ := not_or.mp hskip
      cases hkind : e.kind with
      | delete =>
        rw [visibleFrom_delete hlast (not_lt.mp hseq) hkind]
        exact ih hes hdecided
      | put =>
        rw [visibleFrom_put hlast (not_lt.mp hseq) hkind]
        refine List.pairwise_cons.mpr ⟨fun x hx => ?_, ih hes hdecided⟩
        obtain ⟨hne, f, hf, -⟩ := (mem_visibleFrom hes hdecided (k := x.1) (r := x.2)).mp hx
        have hle := hdecided e.ukey rfl f hf.1
        rw [show f.ukey = x.1 from hf.2.1] at hle
        exact lt_of_le_of_ne hle fun heq => hne (congrArg some heq)

/-- A decided key that does not occur makes no difference. -/
theorem visibleFrom_of_ne (h : ∀ e ∈ p, e.ukey ≠ g) :
    visibleFrom snap (some g) p = visibleFrom snap none p := by
  induction p with
  | nil => rfl
  | cons e es ih =>
    have hne : some g ≠ some e.ukey :=
      fun heq => h e List.mem_cons_self (Option.some_inj.mp heq).symm
    have ih := ih fun f hf => h f (List.mem_cons_of_mem _ hf)
    by_cases hseq : snap < e.seq
    · rw [visibleFrom_skip (Or.inr hseq), visibleFrom_skip (Or.inr hseq), ih]
    · have hseq := not_lt.mp hseq
      cases hkind : e.kind with
      | delete => rw [visibleFrom_delete hne hseq hkind, visibleFrom_delete (by simp) hseq hkind]
      | put => rw [visibleFrom_put hne hseq hkind, visibleFrom_put (by simp) hseq hkind]

/-- Keys of two lists with no key in common are decided apart. -/
theorem visibleFrom_append (h : ∀ e ∈ l, ∀ f ∈ p, f.ukey ≠ e.ukey)
    (hlast : ∀ k ∈ last, ∀ f ∈ p, f.ukey ≠ k) :
    visibleFrom snap last (l ++ p) = visibleFrom snap last l ++ visibleFrom snap none p := by
  induction l generalizing last with
  | nil =>
    cases last with
    | none => rfl
    | some k => exact visibleFrom_of_ne (hlast k rfl)
  | cons e es ih =>
    have hes : ∀ e ∈ es, ∀ f ∈ p, f.ukey ≠ e.ukey := fun f hf => h f (List.mem_cons_of_mem _ hf)
    have hdecided : ∀ k ∈ some e.ukey, ∀ f ∈ p, f.ukey ≠ k := by
      rintro _ ⟨⟩
      exact h e List.mem_cons_self
    rw [List.cons_append]
    by_cases hskip : last = some e.ukey ∨ snap < e.seq
    · rw [visibleFrom_skip hskip, visibleFrom_skip hskip, ih hes hlast]
    · obtain ⟨hne, hseq⟩ := not_or.mp hskip
      cases hkind : e.kind with
      | delete =>
        rw [visibleFrom_delete hne (not_lt.mp hseq) hkind, visibleFrom_delete hne
          (not_lt.mp hseq) hkind, ih hes hdecided]
      | put =>
        rw [visibleFrom_put hne (not_lt.mp hseq) hkind, visibleFrom_put hne (not_lt.mp hseq) hkind,
          ih hes hdecided, List.cons_append]

/-! ### The reverse pass -/

/-- What a candidate is worth when its key is left. -/
def emit : Option Bytes → Option (Option ReprRef) → List (Bytes × ReprRef)
  | some g, some (some v) => [(g, v)]
  | _, _ => []

/-- What the reverse pass keeps of the entries to come, oldest first. -/
def reverseFrom (snap : ℕ) :
    Option Bytes → Option (Option ReprRef) → List Entry → List (Bytes × ReprRef)
  | group, cand, [] => emit group cand
  | group, cand, e :: es =>
    if group = some e.ukey then reverseFrom snap group (MvccReverse.absorb snap cand e) es
    else emit group cand ++ reverseFrom snap (some e.ukey) (MvccReverse.absorb snap none e) es

/-- The candidate after the versions `p` of a key, which stand newest first. -/
def candOf (snap : ℕ) (p : List Entry) : Option (Option ReprRef) :=
  p.foldr (fun e cand => MvccReverse.absorb snap cand e) none

theorem visibleFrom_same (h : ∀ e ∈ p, e.ukey = g) : visibleFrom snap (some g) p = [] := by
  induction p with
  | nil => rfl
  | cons e es ih =>
    rw [visibleFrom_skip (Or.inl (congrArg some (h e List.mem_cons_self).symm))]
    exact ih fun f hf => h f (List.mem_cons_of_mem _ hf)

/-- Of the versions of one key the forward pass keeps the candidate. -/
theorem visibleFrom_group (h : ∀ e ∈ p, e.ukey = g) :
    visibleFrom snap none p = emit (some g) (candOf snap p) := by
  induction p with
  | nil => rfl
  | cons e es ih =>
    have hes : ∀ f ∈ es, f.ukey = g := fun f hf => h f (List.mem_cons_of_mem _ hf)
    have hk : e.ukey = g := h e List.mem_cons_self
    have hcand : candOf snap (e :: es) = MvccReverse.absorb snap (candOf snap es) e := rfl
    rw [hcand]
    by_cases hseq : snap < e.seq
    · rw [visibleFrom_skip (Or.inr hseq), ih hes, MvccReverse.absorb, if_neg (not_le.mpr hseq)]
    · rw [MvccReverse.absorb, if_pos (not_lt.mp hseq)]
      cases hkind : e.kind with
      | delete =>
        rw [visibleFrom_delete (by simp) (not_lt.mp hseq) hkind, hk, visibleFrom_same hes]
        rfl
      | put =>
        rw [visibleFrom_put (by simp) (not_lt.mp hseq) hkind, hk, visibleFrom_same hes]
        rfl

/-- **The reverse pass** keeps what the forward pass keeps: after the versions
`p` of the group, from the entries before them. -/
theorem reverseFrom_group {back : List Entry} (hp : ∀ e ∈ p, e.ukey = g)
    (h : Sorted (back.reverse ++ p)) (hne : p ≠ []) :
    reverseFrom snap (some g) (candOf snap p) back =
      (visibleFrom snap none (back.reverse ++ p)).reverse := by
  induction back generalizing g p with
  | nil =>
    rw [List.reverse_nil, List.nil_append, visibleFrom_group hp, reverseFrom]
    cases candOf snap p with
    | none => rfl
    | some cand => cases cand <;> rfl
  | cons e back ih =>
    have hsplit : (e :: back).reverse ++ p = back.reverse ++ (e :: p) := by simp
    rw [reverseFrom]
    by_cases hk : some g = some e.ukey
    · rw [if_pos hk, hsplit]
      obtain rfl := Option.some_inj.mp hk
      -- still in the group: `e` is the newest of it so far
      refine ih (p := e :: p) (fun f hf => ?_) (hsplit ▸ h) (by simp)
      rcases List.mem_cons.mp hf with rfl | hf
      · rfl
      · exact hp f hf
    · -- `e` belongs to an earlier key, and so do all before it
      have hcross : ∀ f ∈ (e :: back).reverse, ∀ q ∈ p, q.ukey ≠ f.ukey := by
        obtain ⟨q₀, p', rfl⟩ := List.exists_cons_of_ne_nil hne
        intro f hf q hq heq
        rw [hp q hq] at heq
        have hg : q₀.ukey = g := hp q₀ List.mem_cons_self
        have hfe : f.ukey ≤ e.ukey := by
          rw [List.reverse_cons] at h hf
          rcases List.mem_append.mp hf with hf | hf
          · exact ukey_le_of_ikey_lt
              ((List.pairwise_append.mp (List.pairwise_append.mp h).1).2.2 f hf e
                (List.mem_singleton_self _))
          · exact le_of_eq (congrArg Entry.ukey (List.mem_singleton.mp hf))
        have heq' : e.ukey ≤ g := by
          rw [← hg]
          exact ukey_le_of_ikey_lt
            ((List.pairwise_append.mp h).2.2 e (by simp) q₀ List.mem_cons_self)
        exact hk (congrArg some (le_antisymm (heq ▸ hfe) heq'))
      rw [if_neg hk, visibleFrom_append hcross (by simp), List.reverse_append, visibleFrom_group hp]
      -- so the group is over, and the next one starts with `e`
      have hrest := ih (p := [e]) (g := e.ukey)
        (fun f hf => congrArg Entry.ukey (List.mem_singleton.mp hf))
        (List.reverse_cons ▸ (List.pairwise_append.mp h).1) (by simp)
      rw [show MvccReverse.absorb snap none e = candOf snap [e] from rfl, hrest, List.reverse_cons]
      cases candOf snap p with
      | none => rfl
      | some cand => cases cand <;> rfl

theorem reverseFrom_eq (h : Sorted l) :
    reverseFrom snap none none l.reverse = (visibleFrom snap none l).reverse := by
  generalize hback : l.reverse = back
  cases back with
  | nil =>
    obtain rfl := List.reverse_eq_nil_iff.mp hback
    rfl
  | cons e back =>
    obtain rfl : l = back.reverse ++ [e] := by
      rw [← List.reverse_reverse l, hback, List.reverse_cons]
    rw [reverseFrom, if_neg (by simp)]
    exact reverseFrom_group (p := [e])
      (fun f hf => congrArg Entry.ukey (List.mem_singleton.mp hf)) h (by simp)

end Visible

/-! ### The passes -/

namespace MvccForward

/-- Before the upper bound. -/
def below (hi : Option Bytes) (e : Entry) : Bool := !(hi.any fun hi => decide (hi ≤ e.ukey))

/-- The pass has `l` left to hand out. -/
def Remains (f : MvccForward) (l : List (Bytes × ReprRef)) : Prop :=
  f.done = false ∧ ∃ rest, Shows current Cursors.next f.it rest ∧ rest.length ≤ f.rounds ∧
    visibleFrom f.snap f.lastUkey (rest.takeWhile (below f.hi)) = l

variable {f : MvccForward} {rest : List Entry} {l : List (Bytes × ReprRef)}

theorem loop_spec {n : ℕ} (hshow : Shows current Cursors.next f.it rest) (hn : rest.length < n)
    (hrounds : rest.length ≤ f.rounds) (hdone : f.done = false)
    (hl : visibleFrom f.snap f.lastUkey (rest.takeWhile (below f.hi)) = l) :
    (loop n f).2 = l.head? ∧ (l ≠ [] → (loop n f).1.Remains l.tail) := by
  induction n generalizing f rest with
  | zero => exact absurd hn (Nat.not_lt_zero _)
  | succ n ih =>
    rw [loop, hshow.current_eq]
    cases rest with
    | nil =>
      obtain rfl : [] = l := hl
      exact ⟨rfl, fun h => absurd rfl h⟩
    | cons e rest =>
      have hn' : rest.length < n := Nat.lt_of_succ_lt_succ hn
      have hrounds' : rest.length ≤ f.rounds := Nat.le_of_succ_le hrounds
      simp only [List.head?_cons]
      by_cases hhi : (f.hi.any fun hi => decide (hi ≤ e.ukey)) = true
      · rw [if_pos hhi]
        rw [List.takeWhile_cons_of_neg (by simp [below, hhi])] at hl
        obtain rfl : [] = l := hl
        exact ⟨rfl, fun h => absurd rfl h⟩
      rw [if_neg hhi]
      rw [List.takeWhile_cons_of_pos (by simp [below, hhi])] at hl
      by_cases hlast : f.lastUkey = some e.ukey
      · -- an older version of the key that was handed out or deleted
        rw [if_pos hlast]
        rw [visibleFrom_skip (Or.inl hlast)] at hl
        exact ih (f := { f with it := Cursors.next f.it }) hshow.tail hn' hrounds' hdone hl
      rw [if_neg hlast]
      by_cases hseq : f.snap < e.seq
      · -- not visible at the snapshot
        rw [if_pos hseq]
        rw [visibleFrom_skip (Or.inr hseq)] at hl
        exact ih (f := { f with it := Cursors.next f.it }) hshow.tail hn' hrounds' hdone hl
      rw [if_neg hseq]
      cases hkind : e.kind with
      | delete =>
        rw [visibleFrom_delete hlast (not_lt.mp hseq) hkind] at hl
        exact ih (f := { f with it := Cursors.next f.it, lastUkey := some e.ukey }) hshow.tail hn'
          hrounds' hdone hl
      | put =>
        rw [visibleFrom_put hlast (not_lt.mp hseq) hkind] at hl
        subst hl
        exact ⟨rfl, fun _ => ⟨hdone, rest, hshow.tail, hrounds', rfl⟩⟩

theorem Remains.yields (h : f.Remains l) : Yields (Pulls nextVisible) f l := by
  refine Yields.of_remains (R := Remains) ?_ h
  rintro f l ⟨hdone, rest, hshow, hrounds, hl⟩ f' a hpull
  obtain ⟨rfl, rfl⟩ := hpull.eq
  rw [nextVisible, hdone, if_neg Bool.false_ne_true]
  exact loop_spec hshow (Nat.lt_succ_of_le hrounds) hrounds hdone hl

end MvccForward

namespace MvccReverse

/-- The pass has `l` left to hand out. -/
def Remains (r : MvccReverse) (l : List (Bytes × ReprRef)) : Prop :=
  if r.done then l = []
  else ∃ rest, Shows current prev r.it rest ∧ rest.length ≤ r.rounds ∧
    reverseFrom r.snap r.group r.cand (rest.takeWhile fun e => decide (r.lo ≤ e.ukey)) = l

variable {r : MvccReverse} {rest : List Entry} {l : List (Bytes × ReprRef)}

/-- Taking the candidate out. -/
theorem takeEmittable_spec (r : MvccReverse) :
    r.takeEmittable.2 = (emit r.group r.cand).head? ∧ (emit r.group r.cand).tail = [] ∧
      ∃ group cand, r.takeEmittable.1 = { r with group := group, cand := cand } := by
  unfold takeEmittable
  cases hgroup : r.group with
  | none => exact ⟨rfl, rfl, r.group, r.cand, rfl⟩
  | some g =>
    cases hcand : r.cand with
    | none => exact ⟨rfl, rfl, none, none, rfl⟩
    | some cand => cases cand <;> exact ⟨rfl, rfl, none, none, rfl⟩

/-- The last candidate ends the pass. -/
theorem finish_spec (hl : emit r.group r.cand = l) :
    ({ r with done := true }).takeEmittable.2 = l.head? ∧
      (l ≠ [] → ({ r with done := true }).takeEmittable.1.Remains l.tail) := by
  obtain ⟨hout, htail, group, cand, hstate⟩ := takeEmittable_spec { r with done := true }
  subst hl
  refine ⟨hout, fun _ => ?_⟩
  rw [hstate]
  exact htail

theorem loop_spec {n : ℕ} (hshow : Shows current prev r.it rest) (hn : rest.length < n)
    (hrounds : rest.length ≤ r.rounds) (hdone : r.done = false)
    (hl : reverseFrom r.snap r.group r.cand (rest.takeWhile fun e => decide (r.lo ≤ e.ukey)) = l) :
    (loop n r).2 = l.head? ∧ (l ≠ [] → (loop n r).1.Remains l.tail) := by
  induction n generalizing r rest with
  | zero => exact absurd hn (Nat.not_lt_zero _)
  | succ n ih =>
    rw [loop, hshow.current_eq]
    cases rest with
    | nil => exact finish_spec hl
    | cons e rest =>
      have hn' : rest.length < n := Nat.lt_of_succ_lt_succ hn
      have hrounds' : rest.length ≤ r.rounds := Nat.le_of_succ_le hrounds
      simp only [List.head?_cons]
      by_cases hlo : e.ukey < r.lo
      · rw [if_pos hlo]
        rw [List.takeWhile_cons_of_neg (by simpa using hlo)] at hl
        exact finish_spec hl
      rw [if_neg hlo]
      rw [List.takeWhile_cons_of_pos (by simpa using hlo), reverseFrom] at hl
      by_cases hgroup : r.group = some e.ukey
      · rw [if_pos hgroup]
        rw [if_pos hgroup] at hl
        exact ih (r := { r with cand := absorb r.snap r.cand e, it := prev r.it }) hshow.tail hn'
          hrounds' hdone hl
      rw [if_neg hgroup]
      rw [if_neg hgroup] at hl
      obtain ⟨hout, htail, group, cand, hstate⟩ := takeEmittable_spec r
      cases hemit : emit r.group r.cand with
      | nil =>
        rw [hemit] at hout hl
        rw [show r.takeEmittable = ({ r with group := group, cand := cand }, none) from
          Prod.ext hstate hout]
        exact ih
          (r := { r with group := some e.ukey, cand := absorb r.snap none e, it := prev r.it })
          hshow.tail hn' hrounds' hdone hl
      | cons x xs =>
        rw [hemit] at hout hl htail
        obtain rfl : xs = [] := htail
        subst hl
        rw [show r.takeEmittable = ({ r with group := group, cand := cand }, some x) from
          Prod.ext hstate hout]
        refine ⟨rfl, fun _ => ?_⟩
        -- the entry of the new key is met again, with no candidate
        show (MvccReverse.mk r.it r.snap r.lo (some e.ukey) none r.done r.rounds).Remains _
        unfold Remains
        rw [hdone, if_neg Bool.false_ne_true]
        refine ⟨e :: rest, hshow, hrounds, ?_⟩
        rw [List.takeWhile_cons_of_pos (by simpa using hlo), reverseFrom, if_pos rfl]
        rfl

theorem Remains.yields (h : r.Remains l) : Yields (Pulls nextVisible) r l := by
  refine Yields.of_remains (R := Remains) ?_ h
  rintro r l hr r' a hpull
  obtain ⟨rfl, rfl⟩ := hpull.eq
  unfold Remains at hr
  unfold nextVisible
  by_cases hdone : r.done = true
  · rw [if_pos hdone] at hr ⊢
    subst hr
    exact ⟨rfl, fun h => absurd rfl h⟩
  · rw [if_neg hdone] at hr ⊢
    obtain ⟨rest, hshow, hrounds, hl⟩ := hr
    exact loop_spec hshow (Nat.lt_succ_of_le hrounds) hrounds (Bool.eq_false_iff.mpr hdone) hl

end MvccReverse

namespace MvccIter

theorem yields_fwd {f : MvccForward} {l : List (Bytes × ReprRef)}
    (h : Yields (Pulls MvccForward.nextVisible) f l) : Yields (Pulls nextVisible) (fwd f) l := by
  refine h.wrap (g := fwd) fun f t a hpull => ?_
  obtain ⟨rfl, rfl⟩ := hpull.eq
  exact ⟨f.nextVisible.1, rfl, rfl⟩

theorem yields_rev {r : MvccReverse} {l : List (Bytes × ReprRef)}
    (h : Yields (Pulls MvccReverse.nextVisible) r l) : Yields (Pulls nextVisible) (rev r) l := by
  refine h.wrap (g := rev) fun r t a hpull => ?_
  obtain ⟨rfl, rfl⟩ := hpull.eq
  exact ⟨r.nextVisible.1, rfl, rfl⟩

end MvccIter

end Fluent31
