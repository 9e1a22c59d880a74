/-
Reads of a transaction (`txn.rs`): its own writes over its snapshot.

`Txn.iter` captures the writes within the bounds and merges them with an
iterator over the snapshot, one pair ahead.  A write shadows the pair of its
key; a delete hands out nothing and goes on.

* `Txn.Iter.Remains.yields` — the pulls hand out the overridden list;
* `txn_iter_eq` — over the store of any run, at a registered snapshot, after
  any calls, the iterator and `Txn.get` read the same map.
-/
import Fluent31.Lib.Overlay
import Fluent31.PointReads
import Fluent31.Subscription
import Fluent31.TxnCap

namespace Fluent31

open Ordered Cursors Overlay

namespace Layout

/-- User-facing iterator: the lower bound is clamped to the user keyspace. -/
def iterAtSeq (l : Layout) (db : Db) (seq : Option ℕ) (lo hi : Option Bytes) (reverse : Bool) :
    DbIterator :=
  let lo := match lo with
    | some lo => if USER_KEYSPACE_START ≤ lo then lo else USER_KEYSPACE_START
    | none => USER_KEYSPACE_START
  l.iterRaw db seq lo hi reverse

end Layout

namespace Txn

/-- Merges the transaction's write overlay with a snapshot iterator. -/
structure Iter where
  base : DbIterator
  basePeek : Option (Bytes × Bytes)
  overlay : List (Bytes × Option Bytes)
  reverse : Bool
  done : Bool

def get (l : Layout) (db : Db) (t : Txn) (key : Bytes) : Except Error (Option Bytes) :=
  match validateUserKey key with
  | .error err => .error err
  | .ok _ =>
    match t.writes.find? fun w => decide (w.1 = key) with
    | some w => .ok w.2
    | none => l.getAtSeq db key t.snap

/-- The writes within the bounds over the snapshot. -/
def iter (l : Layout) (db : Db) (t : Txn) (lo hi : Option Bytes) (reverse : Bool) : Iter :=
  let overlay := t.writes.filter fun w =>
    lo.all (fun lo => decide (lo ≤ w.1)) && hi.all fun hi => decide (w.1 < hi)
  ⟨l.iterAtSeq db (some t.snap) lo hi reverse, none, if reverse then overlay.reverse else overlay,
    reverse, false⟩

namespace Iter

def fillBase (env : FillEnv) (it : Iter) : Iter × Except Error Unit :=
  match it.basePeek with
  | some _ => (it, .ok ())
  | none =>
    match it.base.next env with
    | (base, none) => ({ it with base := base, basePeek := none }, .ok ())
    | (base, some (.ok kv)) => ({ it with base := base, basePeek := some kv }, .ok ())
    | (base, some (.error err)) => ({ it with base := base }, .error err)

/-- Does the overlay's front come before the base's? -/
def before (reverse : Bool) (ok bk : Bytes) : Bool :=
  if reverse then decide (bk ≤ ok) else decide (ok ≤ bk)

/-- The rounds of a pull; one that goes on has dropped a delete. -/
def rounds : ℕ → (ℕ → FillEnv) → Iter → Iter × Option (Except Error (Bytes × Bytes))
  | 0, _, it => (it, none)
  | n + 1, envs, it =>
    match it.fillBase (envs n) with
    | (it, .error err) => ({ it with done := true }, some (.error err))
    | (it, .ok _) =>
      match it.overlay, it.basePeek with
      | [], none => ({ it with done := true }, none)
      | [], some kv => ({ it with basePeek := none }, some (.ok kv))
      | (key, value) :: overlay, peek =>
        if peek.all fun kv => before it.reverse key kv.1 then
          -- the overlay shadows an equal base key
          let it := { it with
            overlay := overlay
            basePeek := if peek.any fun kv => decide (kv.1 = key) then none else peek }
          match value with
          | some v => (it, some (.ok (key, v)))
          | none => rounds n envs it
        else ({ it with basePeek := none }, peek.map .ok)

def next (envs : ℕ → FillEnv) (it : Iter) : Iter × Option (Except Error (Bytes × Bytes)) :=
  if it.done then (it, none) else rounds (it.overlay.length + 1) envs it

/-- A pull, with whatever the fills of its rounds find around them. -/
def Pulls (log : Vlog) (it it' : Iter) (a : Option (Except Error (Bytes × Bytes))) : Prop :=
  ∃ envs : ℕ → FillEnv, (∀ n, (envs n).Serves log) ∧ it.next envs = (it', a)

/-- The iterator has `out` left to hand out. -/
def Remains (log : Vlog) (it : Iter) (out : List (Except Error (Bytes × Bytes))) : Prop :=
  it.done = false ∧ ∃ back, DbIterator.Remains log it.base (back.map .ok) ∧
    out = (override (before it.reverse) it.overlay (it.basePeek.toList ++ back)).map .ok

variable {log : Vlog} {it : Iter} {out : List (Except Error (Bytes × Bytes))}

/-- The peek is filled while the base has pairs. -/
theorem fillBase_spec {env : FillEnv} {back : List (Bytes × Bytes)} (henv : env.Serves log)
    (hback : DbIterator.Remains log it.base (back.map .ok)) :
    ∃ base back', it.fillBase env =
        ({ it with base := base, basePeek := (it.basePeek.toList ++ back).head? }, .ok ()) ∧
      DbIterator.Remains log base (back'.map .ok) ∧ back' = (it.basePeek.toList ++ back).tail := by
  obtain ⟨base, peek, overlay, reverse, done⟩ := it
  unfold fillBase
  cases peek with
  | some kv => exact ⟨base, back, rfl, hback, rfl⟩
  | none =>
    have hpull := hback.next henv
    simp only at hpull ⊢
    generalize base.next env = pull at hpull ⊢
    obtain ⟨base', a⟩ := pull
    obtain ⟨rfl, hrest⟩ := hpull
    cases back with
    | nil => exact ⟨base', [], rfl, hrest, rfl⟩
    | cons kv back => exact ⟨base', back, rfl, hrest, rfl⟩

theorem rounds_spec {n : ℕ} {envs : ℕ → FillEnv} {back : List (Bytes × Bytes)}
    (henvs : ∀ n, (envs n).Serves log) (hn : it.overlay.length < n) (hdone : it.done = false)
    (hback : DbIterator.Remains log it.base (back.map .ok))
    (hout : out = (override (before it.reverse) it.overlay (it.basePeek.toList ++ back)).map .ok) :
    (rounds n envs it).2 = out.head? ∧ (out ≠ [] → Remains log (rounds n envs it).1 out.tail) := by
  induction n generalizing it back with
  | zero => exact absurd hn (Nat.not_lt_zero _)
  | succ n ih =>
    obtain ⟨base, back', hfill, hback', hpairs⟩ := fillBase_spec (henvs n) hback
    rw [rounds, hfill]
    generalize it.basePeek.toList ++ back = pairs at hout hpairs
    subst hpairs
    simp only
    cases hover : it.overlay with
    | nil =>
      rw [hover, override] at hout
      cases pairs with
      -- no write is left, so the base goes first
      | nil =>
        subst hout
        exact ⟨rfl, fun h => absurd rfl h⟩
      | cons b bs =>
        subst hout
        refine ⟨rfl, fun _ => ⟨hdone, bs, hback', ?_⟩⟩
        show _ = List.map Except.ok (override _ [] bs)
        rw [override]
        rfl
    | cons o os =>
      obtain ⟨key, value⟩ := o
      rw [hover] at hout hn
      have hn' : os.length < n := Nat.lt_of_succ_lt_succ hn
      cases pairs with
      | nil =>
        rw [override_write_nil] at hout
        cases value with
        | none => exact ih hn' hdone hback' hout
        | some v =>
          subst hout
          exact ⟨rfl, fun _ => ⟨hdone, [], hback', rfl⟩⟩
      | cons b bs =>
        simp only [List.head?_cons, Option.all_some, Option.any_some, decide_eq_true_eq]
        by_cases hbefore : before it.reverse key b.1 = true
        · rw [override_write hbefore] at hout
          rw [if_pos hbefore]
          -- the write goes first, and hides the pair with its key
          have hshadow : shadow key (b :: bs) =
              (if b.1 = key then none else some b).toList ++ bs := by
            rw [shadow]
            split <;> rfl
          rw [hshadow] at hout
          cases value with
          | none =>
            exact ih hn' hdone hback' hout
          | some v =>
            subst hout
            exact ⟨rfl, fun _ => ⟨hdone, bs, hback', rfl⟩⟩
        · -- the base goes first, and the write waits
          rw [override_pair hbefore] at hout
          rw [if_neg hbefore]
          subst hout
          exact ⟨rfl, fun _ => ⟨hdone, bs, hback', rfl⟩⟩

theorem Remains.yields (h : Remains log it out) : Yields (Pulls log) it out := by
  refine Yields.of_remains (R := Remains log) ?_ h
  rintro it out ⟨hdone, back, hback, hout⟩ it' a ⟨envs, henvs, hnext⟩
  unfold next at hnext
  rw [hdone, if_neg Bool.false_ne_true] at hnext
  have hspec := rounds_spec henvs (Nat.lt_succ_self _) hdone hback hout
  rw [hnext] at hspec
  exact hspec

end Iter

/-! ### The overridden map -/

/-- The map `snapshot` overridden by the write set: puts replace or add,
deletes remove. -/
def overridden (t : Txn) (snapshot : Bytes → Option Bytes) (key : Bytes) : Option Bytes :=
  match t.writes.find? fun w => decide (w.1 = key) with
  | some w => w.2
  | none => snapshot key

theorem find?_writes {writes : List (Bytes × Option Bytes)}
    (h : SortedBy Prod.fst writes) {k : Bytes} {value : Option Bytes} :
    (writes.find? fun w => decide (w.1 = k)) = some (k, value) ↔ (k, value) ∈ writes := by
  constructor
  · exact List.mem_of_find?_eq_some
  · intro hmem
    cases hfind : writes.find? fun w => decide (w.1 = k) with
    | none => simpa using List.find?_eq_none.mp hfind _ hmem
    | some w =>
      have hk : w.1 = k := by simpa using List.find?_some hfind
      rw [h.key_inj (List.mem_of_find?_eq_some hfind) hmem hk]

variable {t : Txn}

theorem overridden_eq (h : SortedBy Prod.fst t.writes) {snapshot : Bytes → Option Bytes}
    {k w : Bytes} :
    t.overridden snapshot k = some w ↔
      (k, some w) ∈ t.writes ∨ snapshot k = some w ∧ ∀ v, (k, v) ∉ t.writes := by
  unfold overridden
  cases hfind : t.writes.find? fun w => decide (w.1 = k) with
  | none =>
    have hnot : ∀ v, (k, v) ∉ t.writes := fun v hv => by
      rw [(find?_writes h).mpr hv] at hfind
      exact absurd hfind (by simp)
    exact ⟨fun hs => Or.inr ⟨hs, hnot⟩, fun hor => (hor.resolve_left (hnot _)).1⟩
  | some x =>
    have hk : x.1 = k := by simpa using List.find?_some hfind
    obtain ⟨key, value⟩ := x
    obtain rfl : key = k := hk
    have hmem := (find?_writes h).mp hfind
    constructor
    · rintro rfl
      exact Or.inl hmem
    · rintro (hor | ⟨-, hnot⟩)
      · rw [(find?_writes h).mpr hor] at hfind
        exact (Prod.mk.inj (Option.some_inj.mp hfind)).2.symm
      · exact absurd hmem (hnot _)

/-- A write of the buffer is an update of the map. -/
theorem overridden_write (h : SortedBy Prod.fst t.writes) (key : Bytes) (value : Option Bytes)
    (snapshot : Bytes → Option Bytes) :
    (t.write key value).overridden snapshot = Function.update
      (t.overridden snapshot) key value := by
  have hsorted : SortedBy Prod.fst (t.write key value).writes := sortedBy_insertBy h
  have hmem : ∀ x, x ∈ (t.write key value).writes ↔ x = (key, value) ∨ x ∈ t.writes ∧ x.1 ≠ key :=
    fun x =>
    mem_insertBy h
  funext k
  refine Option.ext fun w => ?_
  show _ = some w ↔ _ = some w
  rw [overridden_eq hsorted]
  simp only [hmem, Prod.mk.injEq]
  by_cases hk : k = key
  · subst hk
    rw [Function.update_self]
    constructor
    · rintro ((⟨-, rfl⟩ | ⟨-, hne⟩) | ⟨-, hfree⟩)
      · rfl
      · exact absurd rfl hne
      · exact (hfree value (Or.inl ⟨rfl, rfl⟩)).elim
    · rintro rfl
      exact Or.inl (Or.inl ⟨rfl, rfl⟩)
  · rw [Function.update_of_ne hk, overridden_eq h]
    simp [hk]

/-- The map after a sequence of calls: an accepted call updates its key. -/
def applied (opts : Options) : Txn → List Call → (Bytes → Option Bytes) → Bytes → Option Bytes
  | _, [], map => map
  | t, c :: calls, map =>
    applied opts (t.call opts c) calls
      (match (t.attempt opts c).2 with
        | .ok _ => Function.update map c.key c.value?
        | .error _ => map)

variable {opts : Options}

/-- **One call.** -/
theorem call_spec (h : SortedBy Prod.fst t.writes) (c : Call) (snapshot : Bytes → Option Bytes) :
    (t.call opts c).snap = t.snap ∧ SortedBy Prod.fst (t.call opts c).writes ∧
      (t.call opts c).overridden snapshot = match (t.attempt opts c).2 with
        | .ok _ => Function.update (t.overridden snapshot) c.key c.value?
        | .error _ => t.overridden snapshot := by
  rw [call_eq]
  by_cases hc : c.Checked opts
  · rw [attempt_checked hc]
    split
    · exact ⟨rfl, h, rfl⟩
    · exact ⟨rfl, sortedBy_insertBy h, overridden_write h _ _ _⟩
  · obtain ⟨err, -, heq⟩ := attempt_unchecked (t := t) hc
    rw [heq]
    exact ⟨rfl, h, rfl⟩

/-- **A sequence of calls.** -/
theorem runs_spec (h : SortedBy Prod.fst t.writes) (calls : List Call)
    (snapshot : Bytes → Option Bytes) :
    (t.runs opts calls).snap = t.snap ∧
      (t.runs opts calls).overridden snapshot = applied opts t calls (t.overridden snapshot) := by
  induction calls generalizing t with
  | nil => exact ⟨rfl, rfl⟩
  | cons c calls ih =>
    obtain ⟨hsnap, hsorted, hmap⟩ := call_spec h c snapshot
    obtain ⟨hsnap', hmap'⟩ := ih hsorted
    refine ⟨hsnap'.trans hsnap, ?_⟩
    rw [applied, ← hmap]
    exact hmap'

end Txn

/-- The keys from the start of the user keyspace on are the valid ones. -/
theorem userKeyspaceStart_le_iff {k : Bytes} : USER_KEYSPACE_START ≤ k ↔ ValidUserKey k := by
  cases k with
  | nil => decide
  | cons b k =>
    have hnil : ¬ k < [] := by rintro ⟨⟩
    rw [← not_lt, USER_KEYSPACE_START, List.cons_lt_cons_iff]
    simp only [hnil, and_false, or_false, ValidUserKey, SYS_PREFIX, List.head?_cons, ne_eq,
      reduceCtorEq, not_false_iff, true_and, Option.some.injEq]
    refine not_congr ⟨fun hlt => ?_, ?_⟩
    · exact Fin.ext (Nat.lt_one_iff.mp hlt)
    · rintro rfl
      decide

/-- Reads of a layout are those of the store. -/
theorem Layout.getAtSeq_eq_store (l : Layout) {db : Db} (h : db.readView.Recent)
    (k : Bytes) (s : ℕ) :
    l.getAtSeq db k s = db.getAtSeq k s := by
  unfold Layout.getAtSeq Db.getAtSeq
  cases hfound : db.readView.getVersioned k (min s db.visibleSeqno) with
  | none => simp only [Layout.getVersioned_eq h, hfound]
  | some e => cases hkind : e.kind <;> simp only [Layout.getVersioned_eq h, hfound, hkind]

section Scan

variable {opts : Options} {e : Engine} {snap : ℕ}

/-- The user-facing iterator over the snapshot map. -/
theorem iterAtSeq_remains (l : Layout) (h : (engine opts).Reachable e) (hreg : snap ∈ e.registered)
    (lo hi : Option Bytes) :
    ∃ values : List (Bytes × Bytes), (values.Pairwise fun x y => x.1 < y.1) ∧
      (∀ k w, (k, w) ∈ values ↔
        (ValidUserKey k ∧ (∀ b, lo = some b → b ≤ k) ∧ ∀ b, hi = some b → k < b) ∧
        stateAfter e.log snap k = some w) ∧
      DbIterator.Remains e.db.vlog (l.iterAtSeq e.db (some snap) lo hi false) (values.map .ok) ∧
      DbIterator.Remains e.db.vlog (l.iterAtSeq e.db (some snap) lo hi true)
        (values.reverse.map .ok) := by
  have hinv := inv_of_reachable h
  have hwf := hinv.consistent.wf
  obtain ⟨hfloor, hvis⟩ := hinv.retained snap (hinv.snapshots.mem_iff.mpr hreg)
  have hseq : ∀ x ∈ e.db.readView.stored, x.seq ≤ MAX_SEQNO := fun x hx =>
    le_trans (hwf.stored_le hx) (le_of_lt hwf.visible_lt)
  have hsnap : ∀ k, l.getAtSeq e.db k snap = .ok (stateAfter e.log snap k) := fun k => by
    rw [l.getAtSeq_eq_store hwf.recent, hinv.consistent.getAtSeq_eq hfloor hvis]
  have hclamp : ∃ start, (∀ reverse, l.iterAtSeq e.db (some snap) lo hi reverse =
        l.iterRaw e.db (some snap) start hi reverse) ∧
      ∀ k, start ≤ k ↔ ValidUserKey k ∧ ∀ b, lo = some b → b ≤ k := by
    cases lo with
    | none => exact ⟨USER_KEYSPACE_START, fun _ => rfl, fun k => by simp [userKeyspaceStart_le_iff]⟩
    | some b =>
      by_cases hb : USER_KEYSPACE_START ≤ b
      · refine ⟨b, fun _ => by simp only [Layout.iterAtSeq, if_pos hb], fun k => ?_⟩
        rw [← userKeyspaceStart_le_iff]
        exact ⟨fun hk => ⟨le_trans hb hk, by simpa using hk⟩, fun hk => hk.2 b rfl⟩
      · refine ⟨USER_KEYSPACE_START,
          fun _ => by simp only [Layout.iterAtSeq, if_neg hb], fun k => ?_⟩
        rw [← userKeyspaceStart_le_iff]
        refine ⟨fun hk => ⟨hk, ?_⟩, fun hk => hk.1⟩
        rintro _ ⟨⟩
        exact le_trans (le_of_lt (not_le.mp hb)) hk
  obtain ⟨start, hiter, hstart⟩ := hclamp
  obtain ⟨values, hvalues, hmem, hfwd, hrev⟩ :=
    Layout.iterRaw_remains (l := l) hwf.recent hseq hsnap start hi
  refine ⟨values, hvalues, fun k w => ?_, hiter false ▸ hfwd, hiter true ▸ hrev⟩
  rw [hmem, hstart, and_assoc (a := ValidUserKey k)]

/-- **Transaction reads.**  Over the store of any run, at a registered snapshot
and after any calls, the iterator hands out, in key order and each key once,
the entries within the bounds of the snapshot's map as the accepted calls have
updated it; `get` reads the same map. -/
theorem txn_iter_eq (l : Layout) (h : (engine opts).Reachable e) (hreg : snap ∈ e.registered)
    (calls : List Txn.Call) (lo hi : Option Bytes) :
    ∃ out : List (Bytes × Bytes), (out.Pairwise fun x y => x.1 < y.1) ∧
      (∀ k w, (k, w) ∈ out ↔
        (ValidUserKey k ∧ (∀ b, lo = some b → b ≤ k) ∧ ∀ b, hi = some b → k < b) ∧
        Txn.applied opts (.new snap) calls (stateAfter e.log snap) k = some w) ∧
      Yields (Txn.Iter.Pulls e.db.vlog) (((Txn.new snap).runs opts calls).iter l e.db lo hi false)
        (out.map .ok) ∧
      Yields (Txn.Iter.Pulls e.db.vlog) (((Txn.new snap).runs opts calls).iter l e.db lo hi true)
        (out.reverse.map .ok) ∧
      ∀ k, ValidUserKey k → ((Txn.new snap).runs opts calls).get l e.db k =
        .ok (Txn.applied opts (.new snap) calls (stateAfter e.log snap) k) := by
  obtain ⟨hsnap, hmap⟩ := @Txn.runs_spec (.new snap) opts List.Pairwise.nil calls
    (stateAfter e.log snap)
  replace hmap : ((Txn.new snap).runs opts calls).overridden (stateAfter e.log snap) =
      Txn.applied opts (.new snap) calls (stateAfter e.log snap) := hmap
  have hadmitted := Txn.admitted_runs (@Txn.admitted_new opts snap) calls
  rw [← hmap]
  generalize (Txn.new snap).runs opts calls = t at hsnap hadmitted ⊢
  obtain rfl : t.snap = snap := hsnap
  obtain ⟨values, hvalues, hmem, hfwd, hrev⟩ := iterAtSeq_remains l h hreg lo hi
  let overlay := t.writes.filter fun w =>
    lo.all (fun lo => decide (lo ≤ w.1)) && hi.all fun hi => decide (w.1 < hi)
  have hoverlay : SortedBy Prod.fst overlay := hadmitted.sorted.sublist List.filter_sublist
  let out := override (Txn.Iter.before false) overlay values
  have hle : ∀ a b : Bytes, Txn.Iter.before false a b = true ↔ a ≤ b :=
    fun a b => decide_eq_true_iff
  have hsorted : out.Pairwise fun x y => x.1 < y.1 :=
    sorted_override (μ := id) hle Function.injective_id hoverlay hvalues
  have hout : ∀ k w, (k, w) ∈ out ↔ (k, some w) ∈ overlay ∨ (k, w) ∈ values ∧
      ∀ v, (k, v) ∉ overlay := fun k w =>
    mem_override (μ := id) hle hoverlay hvalues
  have hwithin : ∀ w, w ∈ overlay ↔ w ∈ t.writes ∧ (∀ b, lo = some b → b ≤ w.1) ∧ ∀ b, hi = some b →
      w.1 < b := by
    intro w
    simp only [overlay, List.mem_filter, Bool.and_eq_true, Option.all_eq_true, decide_eq_true_eq]
  have hvalid : ∀ w ∈ t.writes, ValidUserKey w.1 := fun w hw => (hadmitted.write w hw).1
  refine ⟨out, hsorted, fun k w => ?_, Txn.Iter.Remains.yields ⟨rfl, values, hfwd, rfl⟩,
    Txn.Iter.Remains.yields ⟨rfl, values.reverse, hrev, ?_⟩, fun k hk => ?_⟩
  · rw [hout, hmem, Txn.overridden_eq hadmitted.sorted]
    simp only [hwithin]
    constructor
    · rintro (⟨hw, hbounds⟩ | ⟨⟨⟨hk, hbounds⟩, hs⟩, hfree⟩)
      · exact ⟨⟨hvalid _ hw, hbounds⟩, Or.inl hw⟩
      · exact ⟨⟨hk, hbounds⟩, Or.inr ⟨hs, fun v hv => hfree v ⟨hv, hbounds⟩⟩⟩
    · rintro ⟨⟨hk, hbounds⟩, hw | ⟨hs, hfree⟩⟩
      · exact Or.inl ⟨hw, hbounds⟩
      · exact Or.inr ⟨⟨⟨hk, hbounds⟩, hs⟩, fun v hv => hfree v hv.1⟩
  · -- the reversed merge is the merge, reversed
    have hrev : override (Txn.Iter.before true) overlay.reverse values.reverse = out.reverse :=
      override_reverse (μ := id) hle (fun a b => decide_eq_true_iff) Function.injective_id
        hoverlay hvalues
    exact congrArg _ hrev.symm
  · unfold Txn.get Txn.overridden
    rw [validateUserKey_eq_ok.mpr hk]
    simp only
    cases t.writes.find? fun w => decide (w.1 = k) with
    | some w => rfl
    | none =>
      have hinv := inv_of_reachable h
      obtain ⟨hfloor, hvis⟩ := hinv.retained t.snap (hinv.snapshots.mem_iff.mpr hreg)
      exact (l.getAtSeq_eq_store hinv.consistent.wf.recent k _).trans
        (hinv.consistent.getAtSeq_eq hfloor hvis k)

/-- A put of the transaction over the value its snapshot has. -/
theorem txn_iter_of_touched : ∃ e : Engine, ∃ out : List (Bytes × Bytes),
    (engine (.default plainFormat)).Reachable e ∧ ([byte 107], [byte 9]) ∈ out ∧
    Yields (Txn.Iter.Pulls e.db.vlog) (((Txn.new 3).runs (.default plainFormat)
      [.put [byte 107] [byte 9], .delete [byte 108]]).iter (.built 4096) e.db none none false)
        (out.map .ok) := by
  have hrun : ((engine (.default plainFormat)).run touchThenDrain
      (engine (.default plainFormat)).init).any
      (fun e => decide (3 ∈ e.registered)) = true := by decide +kernel
  obtain ⟨e, hreach, hreg⟩ := System.exists_reachable hrun
  obtain ⟨out, -, hmem, hfwd, -⟩ := txn_iter_eq (.built 4096) hreach hreg
    [.put [byte 107] [byte 9], .delete [byte 108]] none none
  exact ⟨e, out, hreach, (hmem _ _).mpr ⟨⟨by decide, by simp, by simp⟩, rfl⟩, hfwd⟩

end Scan

end Fluent31
