/-
The two commit paths do their walks.

* `latest_iff` — the newest version decides whether a key was written after a
  snapshot;
* `direct_walk` — committing entries one by one answers as `Walk.run` with
  `Path.direct`, and commits the batches the walk lists;
* `group_walk` — so does a group, with `Path.group`.
-/
import Fluent31.Walk

namespace Fluent31

open Mvcc

variable {opts : Options} {db d d' : Db} {log recs : List CommitRec} {floor : ℕ} {w : Walk}
  {q : QueuedEntry} {qs : List QueuedEntry}

/-! ### Validation against the store -/

/-- A key has a version newer than `snap`. -/
def Db.WrittenAfter (db : Db) (snap : ℕ) (key : Bytes) : Prop :=
  ∃ e ∈ db.stored, e.ukey = key ∧ snap < e.seq

theorem latest_iff (h : db.WF) (snap : ℕ) (key : Bytes) :
    (match db.readView.latest key with
      | some e => decide (snap < e.seq)
      | none => false) = true ↔ db.WrittenAfter snap key := by
  have hanswer := h.recent.answers_getVersioned key MAX_SEQNO
  have hmax : ∀ f ∈ db.stored, f.seq ≤ MAX_SEQNO := fun f hf =>
    le_of_lt (lt_of_le_of_lt (h.stored_le hf) h.visible_lt)
  unfold ReadView.latest
  generalize db.readView.getVersioned key MAX_SEQNO = found at hanswer ⊢
  cases found with
  | none =>
    constructor
    · intro hc
      exact absurd hc Bool.false_ne_true
    · rintro ⟨e, he, hk, -⟩
      exact absurd (hmax e he) (not_le_of_gt (hanswer e he hk))
  | some e =>
    obtain ⟨he, hk, -, hnewest⟩ := hanswer
    rw [decide_eq_true_eq]
    constructor
    · exact fun hlt => ⟨e, he, hk, hlt⟩
    · rintro ⟨f, hf, hfk, hlt⟩
      exact lt_of_lt_of_le hlt (hnewest f hf hfk (hmax f hf))

theorem conflicts_iff (h : db.WF) (q : QueuedEntry) (ks : List Bytes) :
    q.conflicts db.readView ks = true ↔ ∃ snap own, q.validate = some (snap, own) ∧
      ∃ key ∈ own, key ∈ ks ∨ db.WrittenAfter snap key := by
  unfold QueuedEntry.conflicts hasConflict
  cases q.validate with
  | none => simp
  | some v =>
    obtain ⟨snap, own⟩ := v
    have hkey : ∀ key, (decide (key ∈ ks) || (match db.readView.latest key with
        | some e => decide (snap < e.seq)
        | none => false)) = true ↔ key ∈ ks ∨ db.WrittenAfter snap key := fun key => by
      rw [Bool.or_eq_true, decide_eq_true_eq, latest_iff h]
    constructor
    · intro hc
      obtain ⟨key, hmem, hk⟩ := List.any_eq_true.mp hc
      exact ⟨snap, own, rfl, key, hmem, (hkey key).mp hk⟩
    · rintro ⟨_, _, hv, key, hmem, hk⟩
      cases hv
      exact List.any_eq_true.mpr ⟨key, hmem, (hkey key).mpr hk⟩

theorem conflicts_congr {view : ReadView} {ks ks' : List Bytes} (h : ∀ k, k ∈ ks ↔ k ∈ ks') :
    q.conflicts view ks = q.conflicts view ks' := by
  unfold QueuedEntry.conflicts hasConflict
  simp only [h]

/-- What was written after a snapshot, after some commits. -/
theorem Extends.writtenAfter_iff (h : Extends db log floor recs d) {snap : ℕ} {key : Bytes} :
    d.WrittenAfter snap key ↔ db.WrittenAfter snap key ∨
      ∃ p ∈ recs.flatMap CommitRec.numbered, p.1.key = key ∧ snap < p.2 := by
  have henc : LogEncodes d.vlog recs := fun c hc =>
    h.consistent.encodes c (List.mem_append_right _ hc)
  have htables : d.tableVersions = db.tableVersions := by
    unfold Db.tableVersions Version.runsNewestFirst
    rw [h.frame.levels]
  have hstored : ∀ e, e ∈ d.stored ↔ e ∈ db.stored ∨ e ∈ historyOf recs := fun e => by
    rw [Db.mem_stored_iff_buffered, Db.mem_stored_iff_buffered, h.buffered, htables, or_right_comm]
  constructor
  · rintro ⟨e, he, hk, hlt⟩
    rcases (hstored e).mp he with he | he
    · exact Or.inl ⟨e, he, hk, hlt⟩
    · obtain ⟨p, hp, hseq, hpk, -⟩ := mem_historyOf henc he
      exact Or.inr ⟨p, hp, hpk.trans hk, hseq ▸ hlt⟩
  · rintro (⟨e, he, hk, hlt⟩ | ⟨p, hp, hk, hlt⟩)
    · exact ⟨e, (hstored e).mpr (Or.inl he), hk, hlt⟩
    · obtain ⟨e, he, hseq, hek⟩ := exists_version_of_numbered henc hp
      exact ⟨e, (hstored e).mpr (Or.inr he), hek.trans hk, hseq ▸ hlt⟩

/-- The commits are numbered above the store they extend. -/
theorem Extends.numbered_gt (h : Extends db log floor recs d) (hdb : Consistent db log floor)
    {p : BatchOp × ℕ} (hp : p ∈ recs.flatMap CommitRec.numbered) : db.visibleSeqno < p.2 := by
  have henc : LogEncodes d.vlog recs := fun c hc =>
    h.consistent.encodes c (List.mem_append_right _ hc)
  obtain ⟨e, he, hseq, -⟩ := exists_version_of_numbered henc hp
  have := ((h.contiguous hdb).seq_mem he).1
  omega

/-- What validation has checked of the entries it includes. -/
theorem included_passes (view : ReadView) (written : List Bytes) (qs : List QueuedEntry) :
    (∀ q ∈ includedEntries (validateGroup view written qs) qs, q.conflicts view written = false) ∧
      (includedEntries (validateGroup view written qs) qs).Pairwise fun a b =>
        b.hits a.keys = false := by
  induction qs generalizing written with
  | nil => exact ⟨fun q hq => absurd hq List.not_mem_nil, .nil⟩
  | cons a qs ih =>
    unfold validateGroup
    cases hc : a.conflicts view written with
    | true => exact ih written
    | false =>
      rw [if_neg Bool.false_ne_true]
      obtain ⟨hpass, hpair⟩ := ih (a.ops.map BatchOp.key ++ written)
      have hlater : ∀ q ∈ includedEntries (validateGroup view
          (a.ops.map BatchOp.key ++ written) qs) qs,
          q.conflicts view written = false ∧ q.hits a.keys = false := fun q hq => by
        have hswap : ∀ k, k ∈ a.ops.map BatchOp.key ++ written ↔ k ∈ written ++ a.keys :=
          fun k => by
          rw [List.mem_append, List.mem_append, or_comm]
          rfl
        have hq' := hpass q hq
        rwa [conflicts_congr hswap, conflicts_append, Bool.or_eq_false_iff] at hq'
      split
      · exact ⟨fun q hq => (hlater q hq).1, hpair⟩
      · refine ⟨fun q hq => ?_, List.pairwise_cons.mpr ⟨fun q hq => (hlater q hq).2, hpair⟩⟩
        rcases List.mem_cons.mp hq with rfl | hq
        · exact hc
        · exact (hlater q hq).1

/-! ### One step of the direct path -/

/-- The commit without its placement. -/
def CommitRec.strip (c : CommitRec) : CommitRec := { c with entries := [] }

/-- Snapshots of transactions are not ahead of the store. -/
def QueuedEntry.SnapVisible (q : QueuedEntry) (db : Db) : Prop :=
  ∀ v ∈ q.validate, v.1 ≤ db.visibleSeqno

instance (q : QueuedEntry) (db : Db) : Decidable (q.SnapVisible db) :=
  inferInstanceAs (Decidable (∀ v ∈ q.validate, v.1 ≤ db.visibleSeqno))

/-- The store `d` is what a walk from `db` has made by the commits `recs`. -/
structure Ahead (db : Db) (log : List CommitRec) (floor : ℕ) (w : Walk)
    (recs : List CommitRec) (d : Db) :
    Prop where
  commits : Extends db log floor recs d
  next : d.visibleSeqno + 1 = w.next
  keys : ∀ key, key ∈ w.ops ++ w.events ↔ ∃ p ∈ recs.flatMap CommitRec.numbered, p.1.key = key

theorem Ahead.start (h : Consistent db log floor) : Ahead db log floor (Walk.start db) [] db :=
  ⟨.refl h, rfl, by simp [Walk.start]⟩

theorem Ahead.conflicts (h : Ahead db log floor w recs d) (hdb : Consistent db log floor)
    (hsnap : q.SnapVisible db) :
    q.conflicts d.readView [] = q.conflicts db.readView (Path.direct.seen w) := by
  have hkey : ∀ snap ≤ db.visibleSeqno, ∀ key,
      d.WrittenAfter snap key ↔ key ∈ w.ops ++ w.events ∨ db.WrittenAfter snap key := by
    intro snap hle key
    rw [h.commits.writtenAfter_iff, h.keys, or_comm]
    refine or_congr_left (exists_congr fun p => and_congr_right fun hp => and_iff_left ?_)
    exact lt_of_le_of_lt hle (h.commits.numbered_gt hdb hp)
  rw [Bool.eq_iff_iff, conflicts_iff h.commits.consistent.wf, conflicts_iff hdb.wf]
  constructor
  · rintro ⟨snap, own, hv, key, hmem, hc⟩
    exact ⟨snap, own, hv, key, hmem, (hkey snap (hsnap _ hv) key).mp
      (hc.resolve_left List.not_mem_nil)⟩
  · rintro ⟨snap, own, hv, key, hmem, hc⟩
    exact ⟨snap, own, hv, key, hmem, Or.inr ((hkey snap (hsnap _ hv) key).mpr hc)⟩

theorem events_congr (h : d.defs = db.defs) (q : QueuedEntry) (base : ℕ) :
    q.events opts d base = q.events opts db base := by
  unfold QueuedEntry.events Db.captureEvents
  rw [h]

theorem applied_congr (h : d.defs = db.defs) (q : QueuedEntry) :
    Walk.applied opts d w q = Walk.applied opts db w q := by
  unfold Walk.applied QueuedEntry.refusedAt QueuedEntry.overlongAt
  rw [events_congr h]

/-- The size of the encoded record is known before the values are placed. -/
theorem overlongAt_iff (hsize : q.SizeDecided opts db) {base : ℕ}
    (h : q.refusedAt opts db base = false) (v : Vlog) :
    q.overlongAt opts db base = true ↔ WAL_RECORD_LIMIT ≤
      (encodeBatch base
        (v.placeOps opts.valueThreshold (q.ops ++ q.events opts db base)).2).length := by
  unfold QueuedEntry.refusedAt at h
  rw [Bool.or_eq_false_iff, decide_eq_false_iff_not, not_le] at h
  obtain ⟨hmin, hmax⟩ :=
    length_encodeBatch opts.valueThreshold base v (q.ops ++ q.events opts db base)
  have hdecided := hsize base h.1
  unfold QueuedEntry.overlongAt
  rw [decide_eq_true_eq]
  omega

/-- The direct path's apply answers as the walk says. -/
theorem applyLocked_verdict (hsize : q.SizeDecided opts d) (hw : w.next = d.visibleSeqno + 1) :
    verdictOf (d.applyLocked opts q.ops q.capture).2 = (Walk.applied opts d w q).verdict := by
  unfold Walk.applied
  rw [hw]
  cases href : q.refusedAt opts d (d.visibleSeqno + 1) with
  | true =>
    rw [if_pos rfl]
    unfold QueuedEntry.refusedAt QueuedEntry.events at href
    rw [Bool.or_eq_true, decide_eq_true_eq, decide_eq_true_eq] at href
    unfold Db.applyLocked
    simp only
    split
    · rfl
    · rename_i hmax
      rw [if_pos (href.resolve_right hmax)]
      rfl
  | false =>
    have hlong := overlongAt_iff hsize href d.vlog
    unfold QueuedEntry.refusedAt QueuedEntry.events at href
    rw [Bool.or_eq_false_iff, decide_eq_false_iff_not, decide_eq_false_iff_not] at href
    unfold Db.applyLocked
    simp only
    rw [if_neg (by exact href.2), if_neg (by exact href.1), if_neg Bool.false_ne_true]
    cases hover : q.overlongAt opts d (d.visibleSeqno + 1) with
    | true =>
      rw [if_pos rfl, if_pos (by exact hlong.mp hover)]
      rfl
    | false =>
      rw [if_neg Bool.false_ne_true, if_neg (by exact fun hc => by simp [hlong.mpr hc] at hover)]
      rfl

theorem exists_numbered_key (c : CommitRec) (key : Bytes) :
    (∃ p ∈ c.numbered, p.1.key = key) ↔ key ∈ c.fullOps.map BatchOp.key := by
  unfold CommitRec.numbered
  rw [List.mem_map]
  constructor
  · rintro ⟨⟨op, n⟩, hp, hk⟩
    have hop := (List.mk_mem_zipIdx_iff_le_and_getElem?_sub.mp hp).2
    exact ⟨op, List.mem_of_getElem? hop, hk⟩
  · rintro ⟨op, hop, hk⟩
    obtain ⟨i, hi, rfl⟩ := List.mem_iff_getElem.mp hop
    exact ⟨(c.fullOps[i], c.base + i),
      List.mk_mem_zipIdx_iff_le_and_getElem?_sub.mpr ⟨Nat.le_add_right _ _, by simp [hi]⟩, hk⟩

/-- A commit of the walk, made by the store. -/
theorem Ahead.committed (h : Ahead db log floor w recs d)
    (hext : Extends d (log ++ recs) floor [recOf opts d q] d') :
    Ahead db log floor
      (w.advance q (.committed ⟨q.ops, q.validate, q.capture, w.next, q.events opts db w.next, []⟩))
      (recs ++ [recOf opts d q]) d' := by
  have hevents : (recOf opts d q).events = q.events opts db w.next := by
    rw [← h.next]
    exact events_congr h.commits.frame.defs q _
  have hfull : (recOf opts d q).fullOps = q.ops ++ q.events opts db w.next := by
    unfold CommitRec.fullOps
    rw [hevents]
    rfl
  refine ⟨h.commits.trans hext, ?_, fun key => ?_⟩
  · obtain ⟨-, -, hlast⟩ := hext.contiguous h.commits.consistent
    have henc := hext.consistent.encodes _ (List.mem_append_right _ (List.mem_singleton_self _))
    have hlen : (recOf opts d q).batch.2.length = _ := henc.length_eq
    have hnext := h.next
    have hlast' : d.visibleSeqno + 1 + (recOf opts d q).batch.2.length = d'.visibleSeqno + 1 :=
      hlast
    show d'.visibleSeqno + 1 = w.next + (q.ops ++ q.events opts db w.next).length
    rw [← hlast', hlen, hfull, hnext]
  · have hone := exists_numbered_key (recOf opts d q) key
    rw [hfull, List.map_append, List.mem_append] at hone
    have hold := h.keys key
    rw [List.mem_append] at hold
    show key ∈ (q.keys ++ w.ops) ++ ((q.events opts db w.next).map BatchOp.key ++ w.events) ↔ _
    simp only [List.flatMap_append, List.mem_append, List.flatMap_cons, List.flatMap_nil,
      List.append_nil, or_and_right, exists_or, ← hold, hone, QueuedEntry.keys]
    tauto

/-- A batch the direct path rejects. -/
theorem Ahead.rejected (h : Ahead db log floor w recs d)
    (hext : Extends d (log ++ recs) floor [] d')
    {w' : Walk} (hnext : w'.next = w.next) (hops : w'.ops = w.ops)
    (hevents : w'.events = w.events) :
    Ahead db log floor w' (recs ++ []) d' := by
  refine ⟨h.commits.trans hext, ?_, ?_⟩
  · have hvis : d.visibleSeqno + 1 = d'.visibleSeqno + 1 := hext.contiguous h.commits.consistent
    rw [hnext, ← hvis, h.next]
  · rw [hops, hevents, List.append_nil]
    exact h.keys

/-- **One entry**, committed directly. -/
theorem Ahead.commitDirect (h : Ahead db log floor w recs d) (hdb : Consistent db log floor)
    (hsnap : q.SnapVisible db) (hsize : q.SizeDecided opts db) :
    ∃ recs', Ahead db log floor (w.advance q (Walk.answer opts db .direct w q)) (recs ++ recs')
        (d.commitDirect opts q).1 ∧
      recs'.map CommitRec.strip = (Walk.answer opts db .direct w q).rec?.toList ∧
      verdictOf (d.commitDirect opts q).2 = (Walk.answer opts db .direct w q).verdict := by
  rcases commitDirect_cases opts d q with ⟨heq, hc⟩ | ⟨heq, hc, hops⟩ | ⟨heq, hc, hops⟩
  all_goals rw [h.conflicts hdb hsnap] at hc; rw [heq]
  · rw [Walk.answer_of_conflicts hc]
    exact ⟨[], by rw [List.append_nil]; exact h, rfl, rfl⟩
  · rw [Walk.answer_of_passes hc, if_pos (by simp [hops])]
    exact ⟨[], by rw [List.append_nil]; exact h, rfl, rfl⟩
  · rw [Walk.answer_of_passes hc, if_neg (by simpa using hops), if_neg Walk.aborts_direct]
    have hdefs := h.commits.frame.defs
    have hsize' : q.SizeDecided opts d := fun base => by
      rw [events_congr hdefs]
      exact hsize base
    have hverdict := applyLocked_verdict hsize' h.next.symm
    rw [applied_congr hdefs] at hverdict
    rcases applyLocked_spec opts h.commits.consistent hops with ⟨err, herr, hext⟩ | ⟨hok, hext⟩
    · refine ⟨[], ?_, ?_, hverdict⟩
      · -- refused on both sides: nothing is added to the log
        rcases Walk.applied_cases opts db w q with ha | ha | ha
        · rw [ha]
          exact h.rejected hext rfl rfl rfl
        · rw [ha]
          exact h.rejected hext rfl rfl rfl
        · rw [ha, herr] at hverdict
          exact absurd hverdict (verdictOf_error_ne err)
      · rcases Walk.applied_cases opts db w q with ha | ha | ha
        · rw [ha]; rfl
        · rw [ha]; rfl
        · rw [ha, herr] at hverdict
          exact absurd hverdict (verdictOf_error_ne err)
    · -- accepted on both sides, with the same record up to its place in the value log
      rcases Walk.applied_cases opts db w q with ha | ha | ha
      · rw [ha, hok] at hverdict
        exact absurd hverdict (by decide)
      · rw [ha, hok] at hverdict
        exact absurd hverdict (by decide)
      · rw [ha] at hverdict ⊢
        refine ⟨[recOf opts d q], h.committed hext, ?_, hverdict⟩
        show [(recOf opts d q).strip] = [_]
        unfold recOf CommitRec.strip
        simp only [h.next]
        rw [← events_congr hdefs]
        rfl

/-! ### The direct path -/

/-- Validate and apply the entries one by one. -/
def Db.runDirect (opts : Options) : Db → List QueuedEntry → Db × List (Except Error Unit)
  | db, [] => (db, [])
  | db, q :: qs =>
    let (db, r) := db.commitDirect opts q
    let (db, rs) := runDirect opts db qs
    (db, r :: rs)

theorem runDirect_cons (opts : Options) (db : Db) (q : QueuedEntry) (qs : List QueuedEntry) :
    db.runDirect opts (q :: qs) = (((db.commitDirect opts q).1.runDirect opts qs).1,
      (db.commitDirect opts q).2 :: ((db.commitDirect opts q).1.runDirect opts qs).2) := rfl

/-- **The direct path** does its walk. -/
theorem direct_walk (hdb : Consistent db log floor) (h : Ahead db log floor w recs d)
    (hsnap : ∀ q ∈ qs, q.SnapVisible db) (hsize : ∀ q ∈ qs, q.SizeDecided opts db) :
    ∃ recs', Extends db log floor (recs ++ recs') (d.runDirect opts qs).1 ∧
      recs'.map CommitRec.strip = (Walk.run opts db .direct w qs).filterMap Answer.rec? ∧
      (d.runDirect opts qs).2.map verdictOf =
        (Walk.run opts db .direct w qs).map Answer.verdict := by
  induction qs generalizing w recs d with
  | nil => exact ⟨[], by rw [List.append_nil]; exact h.commits, rfl, rfl⟩
  | cons q qs ih =>
    obtain ⟨recs₁, hahead, hrecs₁, hverdict⟩ :=
      h.commitDirect hdb (hsnap q List.mem_cons_self) (hsize q List.mem_cons_self)
    obtain ⟨recs₂, hext, hrecs₂, hverdicts⟩ := ih hahead
      (fun q hq => hsnap q (List.mem_cons_of_mem _ hq))
      (fun q hq => hsize q (List.mem_cons_of_mem _ hq))
    refine ⟨recs₁ ++ recs₂, by rw [← List.append_assoc]; exact hext, ?_, ?_⟩
    · rw [List.map_append, hrecs₁, hrecs₂]
      simp only [Walk.run, List.filterMap_cons]
      cases (Walk.answer opts db .direct w q).rec? <;> rfl
    · rw [runDirect_cons, List.map_cons, hverdict, hverdicts]
      rfl

/-! ### The group path -/

theorem rec?_of_rejected {a : Answer} (h : a.verdict = .rejected) : a.rec? = none := by
  cases a <;> first | rfl | exact absurd h (by simp [Answer.verdict])

/-- The decisions on a chunk, its included entries and what the apply made of
them come to these answers. -/
inductive Answered (opts : Options) (db : Db) : List Decision → List QueuedEntry →
    List (Except Error (ℕ × List EncEntry)) → List Answer → Prop
  | nil : Answered opts db [] [] [] []
  | conflict {ds : List Decision} {inc : List QueuedEntry}
      {out : List (Except Error (ℕ × List EncEntry))} {as : List Answer} :
      Answered opts db ds inc out as → Answered opts db (.conflict :: ds) inc out (.conflict :: as)
  | locked {ds : List Decision} {inc : List QueuedEntry}
      {out : List (Except Error (ℕ × List EncEntry))} {as : List Answer} :
      Answered opts db ds inc out as → Answered opts db (.locksOnly :: ds) inc out (.locked :: as)
  | rejected {ds : List Decision} {inc : List QueuedEntry}
      {out : List (Except Error (ℕ × List EncEntry))} {as : List Answer} {q : QueuedEntry}
      {err : Error} {a : Answer} :
      err ≠ .conflict → a.verdict = .rejected → Answered opts db ds inc out as →
      Answered opts db (.included :: ds) (q :: inc) (.error err :: out) (a :: as)
  | committed {ds : List Decision} {inc : List QueuedEntry}
      {out : List (Except Error (ℕ × List EncEntry))} {as : List Answer} {q : QueuedEntry}
      {n : ℕ} {es : List EncEntry} :
      Answered opts db ds inc out as →
      Answered opts db (.included :: ds) (q :: inc) (.ok (n, es) :: out)
        (.committed ⟨q.ops, q.validate, q.capture, n, q.events opts db n, []⟩ :: as)

section Answered

variable {ds : List Decision} {inc : List QueuedEntry}
  {out : List (Except Error (ℕ × List EncEntry))} {as : List Answer}

theorem Answered.results (h : Answered opts db ds inc out as) :
    (mergeResults ds (out.map fun r => r.map fun _ => ())).map verdictOf =
      as.map Answer.verdict := by
  induction h with
  | nil => rfl
  | conflict _ ih => exact congrArg (Verdict.conflict :: ·) ih
  | locked _ ih => exact congrArg (Verdict.accepted :: ·) ih
  | @rejected _ _ _ _ _ err a herr ha _ ih =>
    have hv : verdictOf (.error err) = a.verdict := by
      rw [ha]
      cases err with
      | conflict => exact absurd rfl herr
      | invalidArgument _ | corruption _ | io _ | closed | background _ => rfl
    exact congrArg₂ List.cons hv ih
  | committed _ ih => exact congrArg (Verdict.accepted :: ·) ih

theorem Answered.commits (h : Answered opts db ds inc out as) :
    (groupRecs opts db inc out).map CommitRec.strip = as.filterMap Answer.rec? := by
  induction h with
  | nil => rfl
  | conflict _ ih => exact ih
  | locked _ ih => exact ih
  | rejected _ ha _ ih =>
    rw [List.filterMap_cons_none (rec?_of_rejected ha)]
    exact ih
  | committed _ ih => exact congrArg (_ :: ·) ih

end Answered

/-- The keys the committer has collected so far. -/
def Walk.Collected (w : Walk) (written : List Bytes) : Prop :=
  ∀ k, k ∈ written ↔ k ∈ w.ops ++ w.rejected

variable {written : List Bytes}

theorem Walk.Collected.conflicts (h : w.Collected written) (q : QueuedEntry) (view : ReadView) :
    q.conflicts view written = q.conflicts view (Path.group.seen w) := conflicts_congr h

theorem Walk.Collected.committed (h : w.Collected written) (q : QueuedEntry) (c : CommitRec) :
    (w.advance q (.committed c)).Collected (q.ops.map BatchOp.key ++ written) := by
  intro k
  have hk := h k
  simp only [Walk.advance, QueuedEntry.keys, List.mem_append] at hk ⊢
  tauto

theorem Walk.Collected.rejected (h : w.Collected written) (q : QueuedEntry) {a : Answer}
    (ha : a.verdict = .rejected) :
    (w.advance q a).Collected (q.ops.map BatchOp.key ++ written) := by
  intro k
  have hk := h k
  cases a with
  | refused | overlong =>
    simp only [Walk.advance, QueuedEntry.keys, List.mem_append] at hk ⊢
    tauto
  | conflict | locked | committed c => exact absurd ha (by simp [Answer.verdict])

/-- Past an overlong record the group rejects what it validated. -/
theorem answered_aborted (hw : w.Collected written) (habort : w.aborted = true)
    {out : List (Except Error (ℕ × List EncEntry))}
    (hlen : out.length = (includedEntries (validateGroup db.readView written qs) qs).length)
    (herr : ∀ r ∈ out, ∃ err, r = .error err ∧ err ≠ .conflict) :
    Answered opts db (validateGroup db.readView written qs)
      (includedEntries (validateGroup db.readView written qs) qs) out
      (Walk.run opts db .group w qs) := by
  induction qs generalizing w written out with
  | nil =>
    obtain rfl := List.length_eq_zero_iff.mp hlen
    exact .nil
  | cons q qs ih =>
    unfold validateGroup at hlen ⊢
    unfold Walk.run
    cases hc : q.conflicts db.readView written with
    | true =>
      rw [if_pos hc] at hlen
      rw [Walk.answer_of_conflicts (hw.conflicts q _ ▸ hc)]
      exact .conflict (ih hw habort hlen herr)
    | false =>
      rw [if_neg (by simp [hc])] at hlen
      rw [Walk.answer_of_passes (hw.conflicts q _ ▸ hc), if_neg Bool.false_ne_true]
      by_cases hops : q.ops = []
      · simp only [hops, List.isEmpty_nil, if_pos, List.map_nil, List.nil_append] at hlen ⊢
        exact .locked (ih hw habort hlen herr)
      · have hempty : ¬ q.ops.isEmpty = true := by simpa using hops
        rw [if_neg hempty] at hlen ⊢
        rw [if_neg hempty, if_pos (show Path.group.aborts w = true from habort)]
        obtain ⟨r, out, rfl⟩ := List.exists_cons_of_length_eq_add_one hlen
        obtain ⟨err, rfl, hne⟩ := herr r List.mem_cons_self
        refine .rejected hne rfl
          (ih (hw.rejected q (a := .refused) rfl) habort (Nat.succ_inj.mp hlen) ?_)
        exact fun r hr => herr r (List.mem_cons_of_mem _ hr)

/-- The phases of a group apply, on the entries that passed validation. -/
theorem answered_group (v : Vlog) (hw : w.Collected written) (habort : w.aborted = false)
    (hsize : ∀ q ∈ qs, q.SizeDecided opts db) :
    let inc := includedEntries (validateGroup db.readView written qs) qs
    Answered opts db (validateGroup db.readView written qs) inc
      (Db.groupPhase3 (Db.groupPhase1 opts.valueThreshold v
        (db.groupPhase0 opts w.next (inc.map QueuedEntry.batch))).2)
      (Walk.run opts db .group w qs) := by
  induction qs generalizing v w written with
  | nil => exact .nil
  | cons q qs ih =>
    have hrest : ∀ q ∈ qs, q.SizeDecided opts db := fun q hq => hsize q (List.mem_cons_of_mem _ hq)
    unfold validateGroup Walk.run
    cases hc : q.conflicts db.readView written with
    | true =>
      rw [Walk.answer_of_conflicts (hw.conflicts q _ ▸ hc)]
      exact .conflict (ih v hw habort hrest)
    | false =>
      rw [Walk.answer_of_passes (hw.conflicts q _ ▸ hc), if_neg Bool.false_ne_true]
      by_cases hops : q.ops = []
      · simp only [hops, List.isEmpty_nil, if_pos, List.map_nil, List.nil_append]
        exact .locked (ih v hw habort hrest)
      · have hempty : ¬ q.ops.isEmpty = true := by simpa using hops
        rw [if_neg hempty, if_neg hempty, if_neg (Walk.aborts_group habort)]
        simp only [includedEntries, List.map_cons, QueuedEntry.batch, Db.groupPhase0]
        unfold Walk.applied
        cases href : q.refusedAt opts db w.next with
        | true =>
          rw [if_pos rfl]
          -- refused in phase 0, for its size or for the seqnos
          have hgo := ih v (hw.rejected q (a := .refused) rfl) habort hrest
          unfold QueuedEntry.refusedAt QueuedEntry.events at href
          rw [Bool.or_eq_true, decide_eq_true_eq, decide_eq_true_eq] at href
          by_cases happrox : WAL_RECORD_LIMIT ≤
              approxSize (q.ops ++ db.captureEvents opts q.ops w.next q.capture)
          · rw [if_pos happrox]
            exact .rejected (by simp [oversizeError]) rfl hgo
          · rw [if_neg happrox, if_pos (href.resolve_left happrox)]
            exact .rejected (by simp [exhaustedError]) rfl hgo
        | false =>
          rw [if_neg Bool.false_ne_true]
          have hlong := overlongAt_iff (hsize q List.mem_cons_self) href v
          unfold QueuedEntry.refusedAt at href
          rw [Bool.or_eq_false_iff, decide_eq_false_iff_not, decide_eq_false_iff_not] at href
          rw [if_neg (by exact href.1), if_neg (by exact href.2)]
          simp only [Db.groupPhase1, Db.groupPhase3]
          cases hover : q.overlongAt opts db w.next with
          | true =>
            rw [if_pos rfl, if_pos (by exact hlong.mp hover)]
            -- its record is too long: phase 1 rejects it, and all that come after
            obtain ⟨-, hout⟩ := outcome_placed opts db (v.placeOps opts.valueThreshold
              (q.ops ++ db.captureEvents opts q.ops w.next q.capture)).1
              (w.next + (q.ops ++ db.captureEvents opts q.ops w.next q.capture).length)
              (includedEntries (validateGroup db.readView (q.ops.map BatchOp.key ++ written) qs) qs)
            refine .rejected (by simp [oversizeError]) rfl ?_
            exact answered_aborted (hw.rejected q (a := .overlong) rfl) rfl
              ((List.length_map _).trans hout.length_eq) hout.abort_errors
          | false =>
            rw [if_neg Bool.false_ne_true,
              if_neg (by exact fun hc => by simp [hlong.mpr hc] at hover)]
            have hgo := ih (v.placeOps opts.valueThreshold
              (q.ops ++ db.captureEvents opts q.ops w.next q.capture)).1
              (hw.committed q ⟨q.ops, q.validate, q.capture, w.next, q.events opts db w.next, []⟩)
              habort hrest
            exact .committed hgo

theorem commitGroup_results (opts : Options) (db : Db) (qs : List QueuedEntry) :
    (db.commitGroup opts qs).2 = mergeResults (validateGroup db.readView [] qs)
      ((db.groupOutcome opts ((includedEntries (validateGroup db.readView [] qs) qs).map
        QueuedEntry.batch)).2.map fun r => r.map fun _ => ()) := by
  unfold Db.commitGroup
  simp only
  split
  · rename_i hempty
    rw [List.isEmpty_iff.mp hempty]
    rfl
  · rfl

/-- **The group path** does its walk. -/
theorem group_walk (h : Consistent db log floor) (hsize : ∀ q ∈ qs, q.SizeDecided opts db) :
    ∃ recs, Extends db log floor recs (db.commitGroup opts qs).1 ∧
      recs.map CommitRec.strip =
        (Walk.run opts db .group (Walk.start db) qs).filterMap Answer.rec? ∧
      (db.commitGroup opts qs).2.map verdictOf =
        (Walk.run opts db .group (Walk.start db) qs).map Answer.verdict := by
  have hcollected : (Walk.start db).Collected [] := fun k => by simp [Walk.start]
  have hanswered := answered_group db.vlog hcollected rfl hsize
  refine ⟨_, commitGroup_spec opts h qs, hanswered.commits, ?_⟩
  rw [commitGroup_results]
  exact hanswered.results

end Fluent31
