/-
Point reads against scans (`version.rs`, `db.rs`).

A point read asks the memtables and then, run by run, the one fragment, the
one block and the entry a bisection finds there, and stops at the first hit.
A scan merges all of it.

* `Recent.getVersioned_least` — the first hit is, in internal-key order, the
  first version of its key at or below the seqno;
* `point_read_eq_scan` — a point read finds what a scan of the same view hands
  out for the key, and `latest` the newest version of all.
-/
import Fluent31.Scans
import Fluent31.Reads

namespace Fluent31

open Ordered Cursors Mvcc

/-! ### The first hit -/

theorem seekVersion_least {l : List Entry} {k : Bytes} {s : ℕ} {e f : Entry} (h : Sorted l)
    (hs : seekVersion l k s = some e) (hf : f ∈ l) (hk : f.ukey = k) (hseq : f.seq ≤ s) :
    e = f ∨ e.ikey < f.ikey := by
  obtain ⟨hlb, -⟩ := Option.filter_eq_some_iff.mp hs
  obtain ⟨hmem, -, hleast⟩ := lowerBound_eq_some h hlb
  rcases lt_or_eq_of_le (hleast f hf (seek_le_iff.mpr (Or.inr ⟨hk.symm, hseq⟩))) with hlt | heq
  · exact Or.inr hlt
  · exact Or.inl (h.key_inj hmem hf heq)

theorem Table.get_least {t : Table} {k : Bytes} {s : ℕ} {e f : Entry} (hs : t.get k s = some e)
    (hf : f ∈ t.entries) (hk : f.ukey = k) (hseq : f.seq ≤ s) : e = f ∨ e.ikey < f.ikey := by
  unfold Table.get at hs
  split at hs
  · exact seekVersion_least t.sorted hs hf hk hseq
  · exact absurd hs (by simp)

theorem Source.get_least {src : Source} (h : src.Ordered) {k : Bytes} {s : ℕ} {e f : Entry}
    (hs : src.get k s = some e) (hf : f ∈ src.entries) (hk : f.ukey = k) (hseq : f.seq ≤ s) :
    e = f ∨ e.ikey < f.ikey := by
  cases src with
  | mem mt => exact seekVersion_least mt.sorted hs hf hk hseq
  | run r =>
    -- the fragment asked is the one that holds the versions of `k`
    obtain ⟨t, ht, hft⟩ := Run.mem_entries.mp hf
    have hfragment := Run.Ordered.fragmentFor_eq h ht hft
    rw [hk] at hfragment
    have hget : t.get k s = some e := by
      rw [← hs]
      show _ = Run.get r k s
      unfold Run.get
      rw [hfragment]
    exact t.get_least hget hft hk hseq

namespace ReadView

variable {v : ReadView} {k : Bytes} {s : ℕ} {e f : Entry}

theorem Recent.getVersioned_least (h : v.Recent) (hs : v.getVersioned k s = some e)
    (hf : f ∈ v.stored) (hk : f.ukey = k) (hseq : f.seq ≤ s) : e = f ∨ e.ikey < f.ikey := by
  have hanswer := h.answers_getVersioned k s
  rw [hs] at hanswer
  obtain ⟨-, hek, -, hmax⟩ := hanswer
  rw [getVersioned_eq_firstHit] at hs
  obtain ⟨src, hsrc, hget⟩ := List.exists_of_findSome?_eq_some hs
  obtain ⟨src', hsrc', hf'⟩ := List.mem_flatMap.mp hf
  by_cases heq : src = src'
  · subst heq
    exact Source.get_least (h.source_ordered hsrc) hget hf' hk hseq
  · -- versions of a key in two sources have two seqnos
    have he : e ∈ src.entries := by
      have hans := (h.source_ordered hsrc).answers_get k s
      rw [hget] at hans
      exact hans.1
    have hapart : src ≠ src' → ∀ x ∈ src.entries, ∀ y ∈ src'.entries, x.ukey = y.ukey →
        x.seq ≠ y.seq := by
      refine List.Pairwise.forall_of_forall_of_flip
        (R := fun a b : Source => a ≠ b → ∀ x ∈ a.entries, ∀ y ∈ b.entries, x.ukey = y.ukey →
          x.seq ≠ y.seq) (fun a _ hne => absurd rfl hne) ?_ ?_ hsrc hsrc'
      · exact h.newer.imp fun hnewer _ x hx y hy hxy => Ne.symm (ne_of_lt (hnewer x hx y hy hxy))
      · exact h.newer.imp fun hnewer _ x hx y hy hxy => ne_of_lt (hnewer y hy x hx (Eq.symm hxy))
    have hne : e.seq ≠ f.seq := hapart heq e he f hf' (Eq.trans hek hk.symm)
    have hlt : f.seq < e.seq := lt_of_le_of_ne (hmax f hf hk hseq) (Ne.symm hne)
    exact Or.inr (ikey_lt_of_seq_lt (Eq.trans hek hk.symm) hlt)

end ReadView

/-! ### Point reads -/

theorem exists_mem_of_forall₂ {α β : Type} {R : α → β → Prop} {l : List α} {l' : List β}
    (h : List.Forall₂ R l l') {x : α} (hx : x ∈ l) : ∃ y ∈ l', R x y := by
  induction h with
  | nil => exact absurd hx List.not_mem_nil
  | cons hxy _ ih =>
    rcases List.mem_cons.mp hx with rfl | hx
    · exact ⟨_, List.mem_cons_self, hxy⟩
    · obtain ⟨y, hy, hR⟩ := ih hx
      exact ⟨y, List.mem_cons_of_mem _ hy, hR⟩

namespace Layout

variable {l : Layout} {db : Db} {k : Bytes} {s : ℕ}

/-- A read of `key` at `seq`, or at the visible seqno when that is older. -/
def getAtSeq (l : Layout) (db : Db) (key : Bytes) (seq : ℕ) : Except Error (Option Bytes) :=
  match l.getVersioned db.readView key (min seq db.visibleSeqno) with
  | none => .ok none
  | some e =>
    match e.kind with
    | .delete => .ok none
    | .put => (db.resolveRepr key e.repr).map some

/-- The sources of a view, as they are read. -/
def sources (l : Layout) (v : ReadView) : List BlockedSource := v.sources.map l.source

/-- Unclamped iterator, at `seq` or at the visible seqno when that is older or
none is given. -/
def iterRaw (l : Layout) (db : Db) (seq : Option ℕ) (lo : Bytes) (hi : Option Bytes)
    (reverse : Bool) :
    DbIterator :=
  .new (l.internalChildren db.readView) (versions (l.sources db.readView)).length db.version.vlogs
    (min (seq.getD db.visibleSeqno) db.visibleSeqno) lo hi reverse

theorem mem_versions {v : ReadView} {e : Entry} : e ∈ versions (l.sources v) ↔ e ∈ v.stored := by
  unfold versions sources ReadView.stored
  rw [List.flatMap_map]
  simp only [List.mem_flatMap, entries_source]

theorem children_sources (v : ReadView) : children (l.sources v) = l.internalChildren v := by
  unfold children sources internalChildren
  rw [List.map_map]
  rfl

theorem sorted_sources {v : ReadView} (h : v.Recent) : ∀ src ∈ l.sources v, Sorted src.entries := by
  intro src hsrc
  obtain ⟨src', hsrc', rfl⟩ := List.mem_map.mp hsrc
  rw [entries_source]
  exact (h.source_ordered hsrc').sorted

theorem distinct_sources {v : ReadView} (h : v.Recent) :
    (l.sources v).Pairwise fun a b => ∀ x ∈ a.entries, ∀ y ∈ b.entries, x.ikey ≠ y.ikey := by
  refine List.pairwise_map.mpr (h.newer.imp fun hnewer x hx y hy heq => ?_)
  rw [entries_source] at hx hy
  have hk : x.ukey = y.ukey := congrArg Prod.fst (congrArg ofLex heq)
  exact absurd heq (ne_of_lt (ikey_lt_of_seq_lt hk (hnewer x hx y hy hk)))

/-- The passes over a recent view. -/
theorem view_remains {v : ReadView} (h : v.Recent) (hseq : ∀ e ∈ v.stored, e.seq ≤ MAX_SEQNO)
    (s : ℕ) (lo : Bytes) (hi : Option Bytes) :
    ∃ pairs : List (Bytes × ReprRef), (pairs.Pairwise fun x y => x.1 < y.1) ∧
      (∀ k r, (k, r) ∈ pairs ↔ (lo ≤ k ∧ ∀ h, hi = some h → k < h) ∧
        ∃ e, IsNewest v.stored k s e ∧ e.kind = .put ∧ e.repr = r) ∧
      (MvccForward.new (.new (l.internalChildren v) false) (versions (l.sources v)).length s
        lo hi).Remains pairs ∧
      (MvccReverse.new (.new (l.internalChildren v) true) (versions (l.sources v)).length s
        lo hi).Remains pairs.reverse := by
  obtain ⟨pairs, hpairs, hmem, hforward, hreverse⟩ :=
    scan_remains (sorted_sources (l := l) h) (distinct_sources h)
    (fun e he => hseq e (mem_versions.mp he)) s lo hi
  rw [children_sources] at hforward hreverse
  refine ⟨pairs, hpairs, fun k r => ?_, hforward, hreverse⟩
  rw [hmem]
  refine and_congr_right fun _ => exists_congr fun e => and_congr_left fun _ => ?_
  exact ⟨fun he => Answers.congr (r := some e) (fun f => mem_versions) he,
    fun he => Answers.congr (r := some e) (fun f => mem_versions.symm) he⟩

/-- The scan's pairs against the first hit. -/
theorem mem_pairs_iff {v : ReadView} (h : v.Recent) {r : ReprRef} :
    (∃ e, IsNewest v.stored k s e ∧ e.kind = .put ∧ e.repr = r) ↔
      ∃ e, v.getVersioned k s = some e ∧ e.kind = .put ∧ e.repr = r := by
  have hanswer := h.answers_getVersioned k s
  constructor
  · rintro ⟨f, hf, hput, hrepr⟩
    cases hget : v.getVersioned k s with
    | none =>
      rw [hget] at hanswer
      exact absurd hf.2.2.1 (not_le.mpr (hanswer f hf.1 hf.2.1))
    | some e =>
      rw [hget] at hanswer
      rcases h.getVersioned_least hget hf.1 hf.2.1 hf.2.2.1 with rfl | hlt
      · exact ⟨e, rfl, hput, hrepr⟩
      · -- nothing of a seqno stands before its put
        have hseq : e.seq ≤ f.seq := hf.2.2.2 e hanswer.1 hanswer.2.1 hanswer.2.2.1
        have hkind := e.kind.toNat_le
        have hone : f.kind.toNat = 1 := by rw [hput]; rfl
        rcases ikey_lt_iff.mp hlt with hlt | ⟨-, hlt⟩
        · exact absurd (Eq.trans hanswer.2.1 (Eq.symm hf.2.1)) (ne_of_lt hlt)
        · rw [packTrailer, packTrailer, hone] at hlt
          omega
  · rintro ⟨e, hget, hput⟩
    rw [hget] at hanswer
    exact ⟨e, hanswer, hput⟩

/-- What a read makes of the first hit. -/
theorem getAtSeq_eq (h : db.readView.Recent) (key : Bytes) (seq : ℕ) :
    (∀ r, (∃ e, IsNewest db.readView.stored key (min seq db.visibleSeqno) e ∧ e.kind = .put ∧
      e.repr = r) → l.getAtSeq db key seq = (db.resolveRepr key r).map some) ∧
    (l.getAtSeq db key seq = .ok none ↔
      ∀ r, ¬ ∃ e, IsNewest db.readView.stored key (min seq db.visibleSeqno) e ∧ e.kind = .put ∧
        e.repr = r) := by
  simp only [mem_pairs_iff h]
  unfold getAtSeq
  rw [getVersioned_eq h]
  cases hget : db.readView.getVersioned key (min seq db.visibleSeqno) with
  | none => exact ⟨fun r he => absurd he (by simp), by simp⟩
  | some e =>
    cases hkind : e.kind with
    | delete => simp [hkind]
    | put =>
      simp only [Option.some.injEq, hkind]
      refine ⟨?_, fun hnone => ?_, fun hnone => absurd ⟨e, rfl, hkind, rfl⟩ (hnone e.repr)⟩
      · rintro r ⟨_, rfl, -, rfl⟩
        rfl
      · cases hres : db.resolveRepr key e.repr <;> rw [hres] at hnone <;> exact absurd hnone
          (by simp [Except.map])

/-- A pointer into a log without two records at one place. -/
theorem resolveRepr_of_resolves {next : ℕ} (hw : db.vlog.WF next) {x : Bytes × ReprRef}
    {y : Bytes × Bytes}
    (h : Resolves db.vlog db.version.vlogs x y) : db.resolveRepr x.1 x.2 = .ok y.2 := by
  obtain ⟨key, repr⟩ := x
  obtain ⟨-, hholds, hfile⟩ := h
  cases repr with
  | empty => exact absurd hholds (by simp [Vlog.Holds])
  | inline w =>
    obtain rfl : y.2 = w := Option.some_inj.mp hholds
    rfl
  | ptr p =>
    obtain ⟨w, hw', hmem⟩ := hholds
    obtain rfl : y.2 = w := Option.some_inj.mp hw'
    exact (if_pos (hfile p rfl)).trans (hw.readValue_eq hmem)

/-- What a resolved representation stands for. -/
theorem resolves_of_resolveRepr {x : Bytes × ReprRef} {w : Bytes}
    (h : db.resolveRepr x.1 x.2 = .ok w) :
    Resolves db.vlog db.version.vlogs x (x.1, w) := by
  obtain ⟨key, repr⟩ := x
  cases repr with
  | empty => exact absurd h (by simp [Db.resolveRepr])
  | inline v =>
    obtain rfl : v = w := Except.ok.inj h
    exact ⟨rfl, rfl, fun p hp => absurd hp (by simp)⟩
  | ptr p =>
    unfold Db.resolveRepr at h
    simp only at h
    split at h
    · rename_i hfile
      refine ⟨rfl, ⟨w, rfl, ?_⟩, fun q hq => (ReprRef.ptr.inj hq) ▸ hfile⟩
      unfold Vlog.readValue at h
      split at h
      · exact absurd h (by simp)
      · rename_i r hfind
        split at h
        · rename_i hkey
          obtain rfl := Except.ok.inj h
          have hptr : r.ptr = p := by simpa using List.find?_some hfind
          exact hptr ▸ hkey ▸ List.mem_of_find?_eq_some hfind
        · exact absurd h (by simp)
    · exact absurd h (by simp)

/-- **An iterator at a seqno** has the map that point reads at it see to hand
out, within its bounds. -/
theorem iterRaw_remains (h : db.readView.Recent)
    (hseq : ∀ e ∈ db.readView.stored, e.seq ≤ MAX_SEQNO)
    {snapshot : Bytes → Option Bytes} (hsnap : ∀ k, l.getAtSeq db k s = .ok (snapshot k))
    (lo : Bytes)
    (hi : Option Bytes) :
    ∃ values : List (Bytes × Bytes), (values.Pairwise fun x y => x.1 < y.1) ∧
      (∀ k w, (k, w) ∈ values ↔ (lo ≤ k ∧ ∀ h, hi = some h → k < h) ∧ snapshot k = some w) ∧
      DbIterator.Remains db.vlog (l.iterRaw db (some s) lo hi false) (values.map .ok) ∧
      DbIterator.Remains db.vlog (l.iterRaw db (some s) lo hi true) (values.reverse.map .ok) := by
  obtain ⟨pairs, hpairs, hmem, hforward, hreverse⟩ :=
    view_remains (l := l) h hseq (min s db.visibleSeqno) lo hi
  -- a pair of the scan resolves to what the point read of its key gives
  have hvalue : ∀ x ∈ pairs, ∃ w, snapshot x.1 = some w ∧ db.resolveRepr x.1 x.2 = .ok w := by
    intro x hx
    have hget := (getAtSeq_eq (l := l) h x.1 s).1 x.2 ((hmem x.1 x.2).mp hx).2
    rw [hsnap] at hget
    cases hres : db.resolveRepr x.1 x.2 with
    | error err =>
      rw [hres] at hget
      exact absurd hget (by simp [Except.map])
    | ok w =>
      rw [hres] at hget
      exact ⟨w, Except.ok.inj hget, rfl⟩
  refine ⟨pairs.map fun x => (x.1, (snapshot x.1).getD []), List.pairwise_map.mpr hpairs,
    fun k w => ?_, DbIterator.remains_new hforward hreverse ?_⟩
  · constructor
    · intro hkw
      obtain ⟨x, hx, heq⟩ := List.mem_map.mp hkw
      obtain ⟨rfl, rfl⟩ := Prod.mk.inj heq
      obtain ⟨w, hw, -⟩ := hvalue x hx
      exact ⟨((hmem x.1 x.2).mp hx).1, by rw [hw]; rfl⟩
    · rintro ⟨hbounds, hw⟩
      have hsome : ¬ ∀ r, ¬ ∃ e, IsNewest db.readView.stored k (min s db.visibleSeqno) e ∧
          e.kind = .put ∧ e.repr = r := by
        rw [← (getAtSeq_eq (l := l) h k s).2, hsnap, hw]
        simp
      obtain ⟨r, hr⟩ := not_forall_not.mp hsome
      exact List.mem_map.mpr ⟨(k, r), (hmem k r).mpr ⟨hbounds, hr⟩, by rw [hw]; rfl⟩
  · rw [List.forall₂_map_right_iff, List.forall₂_same]
    intro x hx
    obtain ⟨w, hw, hres⟩ := hvalue x hx
    rw [hw]
    exact resolves_of_resolveRepr hres

/-- **Point reads agree with scans.**  Over a recent view, a scan of the whole
view at `s` hands out pairs such that a point read of any key at `s` resolves
what the scan has for it, and is absent exactly where the scan has nothing;
`latest` is the newest version of all, tombstones included. -/
theorem point_read_eq_scan (l : Layout) (db : Db) (h : db.readView.Recent)
    (hseq : ∀ e ∈ db.readView.stored, e.seq ≤ MAX_SEQNO) (s : ℕ) :
    (∃ pairs : List (Bytes × ReprRef), (pairs.Pairwise fun x y => x.1 < y.1) ∧
      Yields (Pulls MvccForward.nextVisible) (.new (.new (l.internalChildren db.readView) false)
        (versions (l.sources db.readView)).length (min s db.visibleSeqno) [] none) pairs ∧
      (∀ k r, (k, r) ∈ pairs → l.getAtSeq db k s = (db.resolveRepr k r).map some) ∧
      (∀ k, l.getAtSeq db k s = .ok none ↔ ∀ r, (k, r) ∉ pairs) ∧
      ∀ values, List.Forall₂ (Resolves db.vlog db.version.vlogs) pairs values →
        Yields (DbIterator.Pulls db.vlog) (l.iterRaw db (some s) [] none false) (values.map .ok) ∧
        Yields (DbIterator.Pulls db.vlog) (l.iterRaw db (some s) [] none true)
          (values.reverse.map .ok) ∧
        ∀ next, db.vlog.WF next → ∀ k w, (k, w) ∈ values ↔ l.getAtSeq db k s = .ok (some w)) ∧
    ∀ k, match l.latest db.readView k with
      | none => ∀ f ∈ db.readView.stored, f.ukey ≠ k
      | some (seq, kind) => ∃ e ∈ db.readView.stored, e.ukey = k ∧ e.seq = seq ∧ e.kind = kind ∧
          ∀ f ∈ db.readView.stored, f.ukey = k → f.seq ≤ seq := by
  refine ⟨?_, fun k => ?_⟩
  · obtain ⟨pairs, hpairs, hmem, hforward, hreverse⟩ :=
      view_remains (l := l) h hseq (min s db.visibleSeqno) [] none
    replace hmem : ∀ k r, (k, r) ∈ pairs ↔
        ∃ e, IsNewest db.readView.stored k (min s db.visibleSeqno) e ∧ e.kind = .put ∧ e.repr = r :=
          fun k r => by
      rw [hmem, and_iff_right ⟨not_lt.mp (by rintro ⟨⟩), by simp⟩]
    -- a point read answers the newest version at `s`, as the scan does
    have hread := fun k => getAtSeq_eq (l := l) h k s
    refine ⟨pairs, hpairs, hforward.yields, fun k r hr => (hread k).1 r ((hmem k r).mp hr),
      fun k => ?_, fun values hvalues => ?_⟩
    · rw [(hread k).2]
      simp only [hmem]
    obtain ⟨hfwd, hrev⟩ := DbIterator.remains_new hforward hreverse hvalues
    refine ⟨hfwd.yields, hrev.yields, fun next hw k w => ?_⟩
    · have hvalue : ∀ x y, Resolves db.vlog db.version.vlogs x y → x ∈ pairs →
          l.getAtSeq db y.1 s = .ok (some y.2) := by
        intro x y hxy hx
        rw [← hxy.1, (hread x.1).1 x.2 ((hmem x.1 x.2).mp hx), resolveRepr_of_resolves hw hxy]
        rfl
      -- the value that the scan resolves is the one the point read resolves
      constructor
      · intro hkw
        obtain ⟨x, hx, hxy⟩ := exists_mem_of_forall₂ hvalues.flip hkw
        exact hvalue x (k, w) hxy hx
      · intro hget
        have hsome : ¬ ∀ r, (k, r) ∉ pairs := by
          simp only [hmem, ← (hread k).2, hget]
          simp
        obtain ⟨r, hr⟩ := not_forall_not.mp hsome
        obtain ⟨y, hy, hxy⟩ := exists_mem_of_forall₂ hvalues hr
        have hget' := hvalue _ _ hxy hr
        rw [← hxy.1, hget] at hget'
        obtain rfl : w = y.2 := Option.some_inj.mp (Except.ok.inj hget')
        rwa [show (k, y.2) = y from Prod.ext hxy.1 rfl]
  · -- `latest` reads at the largest seqno, so nothing is hidden from it
    unfold latest
    rw [getVersioned_eq h]
    have hanswer := h.answers_getVersioned k MAX_SEQNO
    cases hget : db.readView.getVersioned k MAX_SEQNO with
    | none =>
      rw [hget] at hanswer
      exact fun f hf hk => absurd (hseq f hf) (not_le.mpr (hanswer f hf hk))
    | some e =>
      rw [hget] at hanswer
      exact ⟨e, hanswer.1, hanswer.2.1, rfl, rfl, fun f hf hk => hanswer.2.2.2 f hf hk (hseq f hf)⟩

/-- Over a bottom run of three fragments in blocks of 4096 bytes: the snapshot below
the deletion of one key reads its old value, and the other key's from the log. -/
theorem point_read_of_spliced : ∃ e : Engine, (engine smallTables).Reachable e ∧
    e.db.version.levels.map (List.map fun r => r.tables.length) = [[], [3]] ∧
    ∃ pairs : List (Bytes × ReprRef), (pairs.Pairwise fun x y => x.1 < y.1) ∧
      (∀ k, (built 4096).getAtSeq e.db k 2 = .ok none ↔ ∀ r, (k, r) ∉ pairs) ∧
      ∀ values, List.Forall₂ (Resolves e.db.vlog e.db.version.vlogs) pairs values →
        Yields (DbIterator.Pulls e.db.vlog) ((built 4096).iterRaw e.db (some 2) [] none true)
          (values.reverse.map .ok) ∧
        ([byte 107], [byte 1]) ∈ values ∧ ([byte 108], List.replicate 5 (byte 2)) ∈ values := by
  have hrun : ((engine smallTables).run (flushThenSnapshot ++ deleteThenSplice)
      (engine smallTables).init).any
      (fun e => decide (e.db.version.levels.map (List.map fun r => r.tables.length) = [[], [3]] ∧
        (∀ x ∈ e.db.readView.stored, x.seq ≤ MAX_SEQNO) ∧
        (built 4096).getAtSeq e.db [byte 107] 2 = .ok (some [byte 1]) ∧
        (built 4096).getAtSeq e.db [byte 108] 2 =
          .ok (some (List.replicate 5 (byte 2))))) = true := by
    decide +kernel
  obtain ⟨e, hreach, hlevels, hseq, h107, h108⟩ := System.exists_reachable hrun
  have hwf := (inv_of_reachable hreach).consistent.wf
  obtain ⟨⟨pairs, hpairs, -, -, hread, hvalues⟩, -⟩ :=
    point_read_eq_scan (built 4096) e.db hwf.recent hseq 2
  refine ⟨e, hreach, hlevels, pairs, hpairs, hread, fun values h => ?_⟩
  obtain ⟨-, hreverse, hmem⟩ := hvalues values h
  exact ⟨hreverse, (hmem _ hwf.vlog _ _).mpr h107, (hmem _ hwf.vlog _ _).mpr h108⟩

end Layout

end Fluent31
