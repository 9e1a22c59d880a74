/-
What readers of a reachable store see.

* `recent_of_reachable` — the read order of the tree is newest first, runs are
  ordered, and the first-hit search finds the newest stored version;
* `getAtSeq_eq_stateAfter` — a read between the collection floor and the
  visible seqno returns the value the history has there;
* `registered_reads` — a registered seqno keeps its state, whatever runs in
  between, until it is released.
-/
import Fluent31.Steps

namespace Fluent31

open Ordered Mvcc

variable {opts : Options} {db db' : Db} {log : List CommitRec} {floor : ℕ} {e e' : Engine}

/-! ### The tree -/

/-- **Recency.**  In every reachable state an earlier source of the read order
holds newer versions of a key than any later one; the fragments of a run are
key-ordered and disjoint, so that no user key lies in two of them; and the
first hit for a key at a seqno is the newest version at or below it stored
anywhere in the view. -/
theorem recent_of_reachable (h : (engine opts).Reachable e) :
    (e.db.readView.sources.Pairwise fun src src' =>
      ∀ x ∈ src.entries, ∀ y ∈ src'.entries, x.ukey = y.ukey → y.seq < x.seq) ∧
    (∀ r ∈ e.db.version.runsNewestFirst,
      (r.tables.Pairwise fun t t' => t.maxUkey < t'.minUkey) ∧
      ∀ t ∈ r.tables, ∀ t' ∈ r.tables, ∀ x ∈ t.entries, ∀ y ∈ t'.entries,
        x.ukey = y.ukey → t = t') ∧
    ∀ key s, Answers e.db.readView.stored key s (e.db.readView.getVersioned key s) := by
  have hrecent := (inv_of_reachable h).consistent.wf.recent
  refine ⟨hrecent.newer, fun r hr => ⟨hrecent.ordered r hr, fun t ht t' ht' x hx y hy hk => ?_⟩,
    fun key s => hrecent.answers_getVersioned key s⟩
  have ht₁ := (hrecent.ordered r hr).fragmentFor_eq ht hx
  have ht₂ := (hrecent.ordered r hr).fragmentFor_eq ht' hy
  rw [hk, ht₂] at ht₁
  exact (Option.some_inj.mp ht₁).symm

/-- Over a bottom run of three fragments that a splice wrote, under a memtable. -/
theorem recent_of_spliced : ∃ e : Engine, (engine smallTables).Reachable e ∧
    e.db.version.levels.map (List.map fun r => r.tables.length) = [[], [3]] ∧
    e.db.readView.stored.length = 6 ∧
    Answers e.db.readView.stored [byte 107] 2 (e.db.readView.getVersioned [byte 107] 2) := by
  have hrun : ((engine smallTables).run (flushThenSnapshot ++ deleteThenSplice)
      (engine smallTables).init).any
      (fun e => decide (e.db.version.levels.map (List.map fun r => r.tables.length) = [[], [3]] ∧
        e.db.readView.stored.length = 6)) = true := by decide +kernel
  obtain ⟨e, hreach, hlevels, hlen⟩ := System.exists_reachable hrun
  exact ⟨e, hreach, hlevels, hlen, (recent_of_reachable hreach).2.2 _ _⟩

/-! ### Values -/

/-- A stored version resolves to what it stands for. -/
theorem Db.WF.resolveRepr_eq (h : db.WF) {key w : Bytes} {repr : ReprRef}
    (hholds : db.vlog.Holds key repr (some w)) : db.resolveRepr key repr = .ok w := by
  cases repr with
  | empty => exact absurd hholds (by simp [Vlog.Holds])
  | inline v =>
    obtain rfl : w = v := Option.some_inj.mp hholds
    rfl
  | ptr p =>
    obtain ⟨v, hv, hmem⟩ := hholds
    obtain rfl : w = v := Option.some_inj.mp hv
    exact (if_pos (h.vlogs _ hmem)).trans (h.vlog.readValue_eq hmem)

/-- **Reads at a seqno** between the floor and the visible one return the state
of the history there. -/
theorem Consistent.getAtSeq_eq (h : Consistent db log floor) {s : ℕ} (hfloor : floor ≤ s)
    (hvis : s ≤ db.visibleSeqno) (key : Bytes) :
    db.getAtSeq key s = .ok (stateAfter log s key) := by
  have hanswer := h.wf.recent.answers_getVersioned key s
  obtain ⟨r, hr⟩ := exists_answers (historyOf log) key s
  have hgone := h.retains.answers h.distinct hfloor hanswer hr
  unfold Db.getAtSeq
  rw [min_eq_left hvis]
  generalize db.readView.getVersioned key s = found at hanswer hgone ⊢
  rcases hgone with rfl | ⟨rfl, f, rfl, hdead, -⟩
  · cases found with
    | none => rw [stateAfter_of_none h.encodes hr]
    | some f =>
      obtain ⟨op, hkind, hholds, hstate⟩ := stateAfter_of_newest h.encodes h.contiguous hr
      rw [hstate]
      cases op with
      | put k w =>
        simp only [← hkind, BatchOp.kind, h.wf.resolveRepr_eq hholds]
        rfl
      | delete k => simp only [← hkind, BatchOp.kind, BatchOp.value?]
  · -- the newest version is a tombstone that was dropped with all it shadowed
    obtain ⟨op, hkind, -, hstate⟩ := stateAfter_of_newest h.encodes h.contiguous hr
    have hdelete : op.kind = .delete := hkind.trans hdead
    rw [hstate]
    cases op with
    | put k w => exact absurd hdelete (by simp [BatchOp.kind])
    | delete k => rfl

/-! ### The history of a run -/

/-- Later commits do not change the state at a seqno before them. -/
theorem stateAfter_append {recs : List CommitRec} {s : ℕ} (h : ∀ c ∈ recs, s < c.base) :
    stateAfter (log ++ recs) s = stateAfter log s := by
  have hnone : (recs.flatMap CommitRec.numbered).filter (fun p => decide (p.2 ≤ s)) = [] := by
    rw [List.filter_eq_nil_iff]
    rintro ⟨op, n⟩ hp
    obtain ⟨c, hc, hp⟩ := List.mem_flatMap.mp hp
    have hle := (List.mk_mem_zipIdx_iff_le_and_getElem?_sub.mp hp).1
    have := h c hc
    simp only [decide_eq_true_eq]
    omega
  unfold stateAfter replay
  rw [List.flatMap_append, List.filter_append, hnone, List.append_nil]

theorem Contiguous.split_log {recs : List CommitRec} {v m : ℕ}
    (h : Contiguous 1 (log.map CommitRec.batch) (v + 1))
    (h' : Contiguous 1 ((log ++ recs).map CommitRec.batch) m) : ∀ c ∈ recs, v < c.base := by
  intro c hc
  rw [List.map_append, contiguous_append] at h'
  obtain ⟨k, hk, hrest⟩ := h'
  obtain rfl := h.unique hk
  have := (hrest.mem (List.mem_map_of_mem hc)).1
  omega

/-- The log cut at `head` is a prefix that ends there. -/
theorem cutLog_prefix {n m : ℕ} (h : Contiguous n (log.map CommitRec.batch) m) (head : ℕ) :
    ∃ recs, log = cutLog log head ++ recs ∧ ∀ c ∈ recs, head < c.base := by
  induction log generalizing n with
  | nil => exact ⟨[], rfl, fun c hc => absurd hc List.not_mem_nil⟩
  | cons c log ih =>
    obtain ⟨hbase, hne, hrest⟩ := h
    unfold cutLog
    by_cases hc : c.base ≤ head
    · obtain ⟨recs, heq, hrecs⟩ := ih hrest
      refine ⟨recs, ?_, hrecs⟩
      rw [List.filter_cons_of_pos (by simpa using hc), List.cons_append]
      exact congrArg _ heq
    · -- the following batches lie beyond the head as well
      have hlater : ∀ d ∈ log, head < d.base := fun d hd => by
        have := (hrest.mem (List.mem_map_of_mem hd)).1
        have hb : c.base = n := hbase
        omega
      refine ⟨c :: log, ?_, fun d hd => ?_⟩
      · rw [List.filter_cons_of_neg (by simpa using hc), List.filter_eq_nil_iff.mpr,
          List.nil_append]
        intro d hd
        have := hlater d hd
        simp only [decide_eq_true_eq]
        omega
      · rcases List.mem_cons.mp hd with rfl | hd
        · exact not_le.mp hc
        · exact hlater d hd

theorem reopen_log (h : e.Inv) {n orphan : ℕ} (hs : e.reopen opts n orphan = some e') :
    e'.log = cutLog e.log e'.db.visibleSeqno := by
  obtain ⟨db', hdb, rfl⟩ := Option.map_eq_some_iff.mp hs
  obtain ⟨-, next, run?, hre⟩ := h.consistent.reopen hdb
  show e.log.filter _ = cutLog e.log db'.visibleSeqno
  rw [hre.visible]
  rfl

/-- What an action does to the log: it appends commits, or a reopen cuts it at
the recovered head. -/
theorem log_step (h : e.Inv) {a : Action} (hs : e.step opts a = some e') :
    (∃ recs, e'.log = e.log ++ recs) ∨ e'.log = cutLog e.log e'.db.visibleSeqno := by
  cases step_cases h hs with
  | @commits _ recs _ hlog => exact Or.inl ⟨recs, hlog⟩
  | reopen hs => exact Or.inr (reopen_log h hs)
  | enqueue _ _ hlog => exact Or.inl ⟨[], by rw [hlog, List.append_nil]⟩
  | createTrigger _ _ _ _ _ heq => exact Or.inl ⟨[], by rw [heq, List.append_nil]⟩
  | deleteTrigger _ _ heq => exact Or.inl ⟨[], by rw [heq, List.append_nil]⟩
  | deleteDone _ heq => exact Or.inl ⟨[], by rw [heq, List.append_nil]⟩
  | quiet hquiet => exact Or.inl ⟨[], by rw [hquiet.log, List.append_nil]⟩

/-- **One step** leaves the history below a seqno registered before and after
it as it was. -/
theorem stateAfter_step (h : e.Inv) {a : Action} (hs : e.step opts a = some e') {s : ℕ}
    (hreg : s ∈ e.registered) (hreg' : s ∈ e'.registered) :
    stateAfter e'.log s = stateAfter e.log s := by
  have hinv := inv_step h hs
  have hle := (h.retained s (h.snapshots.mem_iff.mpr hreg)).2
  have hle' := (hinv.retained s (hinv.snapshots.mem_iff.mpr hreg')).2
  rcases log_step h hs with ⟨recs, hlog⟩ | hlog
  · rw [hlog]
    refine stateAfter_append fun c hc => ?_
    have := h.consistent.contiguous.split_log (hlog ▸ hinv.consistent.contiguous) c hc
    omega
  · obtain ⟨recs, heq, hrecs⟩ := cutLog_prefix h.consistent.contiguous e'.db.visibleSeqno
    rw [hlog]
    conv_rhs => rw [heq]
    refine (stateAfter_append fun c hc => ?_).symm
    have := hrecs c hc
    omega

/-- A run from `e` during which `s` stays registered. -/
inductive Holding (opts : Options) (s : ℕ) (e : Engine) : Engine → Prop
  | refl : s ∈ e.registered → Holding opts s e e
  | step {e₁ e₂ : Engine} {a : Action} :
      Holding opts s e e₁ → e₁.step opts a = some e₂ → s ∈ e₂.registered → Holding opts s e e₂

theorem Holding.spec {s : ℕ} (h : Holding opts s e e') (hr : (engine opts).Reachable e) :
    (engine opts).Reachable e' ∧ s ∈ e'.registered ∧ stateAfter e'.log s = stateAfter e.log s := by
  induction h with
  | refl hreg => exact ⟨hr, hreg, rfl⟩
  | step _ hs hreg ih =>
    obtain ⟨hreach, hreg₁, hstate⟩ := ih
    exact ⟨.step hreach trivial hs, hreg,
      (stateAfter_step (inv_of_reachable hreach) hs hreg₁ hreg).trans hstate⟩

/-- A replayed run that never drops `s`. -/
theorem Holding.of_replay {s : ℕ} {e₁ : Engine} {as : List Action} (h : Holding opts s e e₁)
    (hr : (engine opts).replay (fun e a => ∃ e' ∈ e.step opts a, s ∈ e'.registered) as e₁ =
      some e') :
    Holding opts s e e' := by
  induction as generalizing e₁ with
  | nil => exact Option.some_inj.mp hr ▸ h
  | cons a as ih =>
    rw [System.replay, Option.ite_none_right_eq_some] at hr
    obtain ⟨⟨e₂, hs, hreg⟩, hr⟩ := hr
    rw [show (engine opts).step e₁ a = some e₂ from hs] at hr
    exact ih (h.step hs hreg) hr

/-- **Snapshot retention.**  A seqno registered in a reachable state reads, in
every later state up to its release, the value the history had after the op
with that seqno; and a registration at an explicit seqno is accepted only where
that holds already. -/
theorem registered_reads (h : (engine opts).Reachable e) :
    (∀ s e', Holding opts s e e' → ∀ key,
      e'.db.getAtSeq key s = .ok (stateAfter e.log s key)) ∧
    ∀ s db', e.db.tryRegisterSnapshotAt s = .ok db' → ∀ key,
      e.db.getAtSeq key s = .ok (stateAfter e.log s key) := by
  refine ⟨fun s e' hold key => ?_, fun s db' hr key => ?_⟩
  · obtain ⟨hreach, hreg, hstate⟩ := hold.spec h
    have hinv := inv_of_reachable hreach
    obtain ⟨hfloor, hvis⟩ := hinv.retained s (hinv.snapshots.mem_iff.mpr hreg)
    rw [hinv.consistent.getAtSeq_eq hfloor hvis, hstate]
  · have hinv := inv_of_reachable h
    obtain ⟨-, hfloor, hvis⟩ := hinv.accepted hr
    exact hinv.consistent.getAtSeq_eq hfloor hvis key

/-- A snapshot keeps reading a value that was overwritten and deleted since, through
two tier merges and a splice; and its seqno can be registered once more. -/
theorem registered_reads_of_spliced : ∃ e e' : Engine, (engine smallTables).Reachable e ∧
    e'.db.visibleSeqno = 6 ∧
    e'.db.version.levels.map (List.map fun r => r.tables.length) = [[], [3]] ∧
    e'.db.getAtSeq [byte 107] 2 = .ok (stateAfter e.log 2 [byte 107]) ∧
    e.db.getAtSeq [byte 107] 2 = .ok (stateAfter e.log 2 [byte 107]) := by
  have hrun : ((engine smallTables).run flushThenSnapshot (engine smallTables).init).any
      (fun e => decide (2 ∈ e.registered ∧ (e.db.tryRegisterSnapshotAt 2).isOk = true ∧
        ∃ e' ∈ (engine smallTables).replay
            (fun e a => ∃ e' ∈ e.step smallTables a, 2 ∈ e'.registered) deleteThenSplice e,
          e'.db.visibleSeqno = 6 ∧
            e'.db.version.levels.map (List.map fun r => r.tables.length) = [[], [3]])) = true := by
    decide +kernel
  obtain ⟨e, hreach, hreg, hok, e', hreplay, hvis, hlevels⟩ := System.exists_reachable hrun
  obtain ⟨hhold, htry⟩ := registered_reads hreach
  refine ⟨e, e', hreach, hvis, hlevels, hhold 2 e' ((Holding.refl hreg).of_replay hreplay) _, ?_⟩
  cases hr : e.db.tryRegisterSnapshotAt 2 with
  | error err =>
    rw [hr] at hok
    exact absurd hok Bool.false_ne_true
  | ok db' => exact htry 2 db' hr _

end Fluent31
