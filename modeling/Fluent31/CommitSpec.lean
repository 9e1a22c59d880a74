/-
What the write path does to a consistent store.

`Consistent db log floor` says that the store `db` is well formed, that `log`
is the sequence of its commits, that subscribers were offered the commits since
the store was opened, and that what compaction has forgotten was forgotten
under `floor`.

`Extends db log floor recs d` says that `d` is the consistent store `db` after
the commits `recs` and nothing else a reader, a subscriber or the compactor
would notice.

* `applyLocked_spec` — the direct path rejects a batch, or commits it under the
  next seqnos;
* `applyGroupLocked_spec` — the group path commits the accepted batches in
  order, each under the next seqnos;
* `validateGroup_readEntries` — a validation with reads that fail is that of the entries
  whose checks could be read;
* `Engine.commit_spec`, `Engine.group_spec`, `Engine.relocate_spec` — the same
  for the engine's actions.
-/
import Fluent31.Invariant

namespace Fluent31

open Mvcc

structure Consistent (db : Db) (log : List CommitRec) (floor : ℕ) : Prop where
  wf : db.WF
  numbered : ∃ pre, log.map CommitRec.batch = pre ++ db.replayable ∧
    Contiguous 1 pre (db.manifest.lastFlushedSeqno + 1)
  encodes : LogEncodes db.vlog log
  published : ∃ pre, log.map CommitRec.batch = pre ++ db.published
  retains : Retains Entry.IsTombstone floor (historyOf log) db.stored
  floor_le : floor ≤ db.manifest.lastFlushedSeqno

/-- What the write path leaves alone. -/
structure WriteFrame (db db' : Db) : Prop where
  levels : db'.version.levels = db.version.levels
  manifest : db'.manifest = db.manifest
  snapshots : db'.snapshots = db.snapshots
  defs : db'.defs = db.defs
  next_le : db.nextFileId ≤ db'.nextFileId
  visible_le : db.visibleSeqno ≤ db'.visibleSeqno

variable {opts : Options} {db db' : Db} {log : List CommitRec} {floor : ℕ}

theorem WriteFrame.refl (db : Db) : WriteFrame db db := ⟨rfl, rfl, rfl, rfl, le_rfl, le_rfl⟩

theorem WriteFrame.trans {db'' : Db} (h : WriteFrame db db') (h' : WriteFrame db' db'') :
    WriteFrame db db'' :=
  ⟨h'.levels.trans h.levels, h'.manifest.trans h.manifest, h'.snapshots.trans h.snapshots,
    h'.defs.trans h.defs, le_trans h.next_le h'.next_le, le_trans h.visible_le h'.visible_le⟩

namespace Consistent

/-- The whole log is numbered from 1 to the visible seqno. -/
theorem contiguous (h : Consistent db log floor) :
    Contiguous 1 (log.map CommitRec.batch) (db.visibleSeqno + 1) := by
  obtain ⟨pre, hlog, hpre⟩ := h.numbered
  rw [hlog, contiguous_append]
  exact ⟨_, hpre, h.wf.replay⟩

theorem distinct (h : Consistent db log floor) : Distinct (historyOf log) := h.contiguous.distinct

theorem history_le (h : Consistent db log floor) {e : Entry} (he : e ∈ historyOf log) :
    e.seq ≤ db.visibleSeqno := by
  have := (h.contiguous.seq_mem he).2
  omega

theorem growVlog (h : Consistent db log floor) {vlog : Vlog} (hwf : vlog.WF db.nextFileId)
    (hhead : vlog.headId = db.vlog.headId) (hsub : ∀ r ∈ db.vlog.records, r ∈ vlog.records)
    (hfiles : ∀ r ∈ vlog.records, r ∈ db.vlog.records ∨ r.ptr.file = db.vlog.headId) :
    Consistent { db with vlog := vlog } log floor :=
  { h with
    wf := h.wf.growVlog hwf hhead hfiles
    encodes := fun c hc => (h.encodes c hc).mono hsub }

/-- **One more batch.** -/
theorem addBatch (h : Consistent db log floor) {c : CommitRec}
    (hbase : c.base = db.visibleSeqno + 1)
    (hne : c.entries ≠ []) (hmax : db.visibleSeqno + c.entries.length < MAX_SEQNO)
    (henc : db.vlog.Encodes c.fullOps c.entries) :
    Consistent (db.addBatch c.base c.entries) (log ++ [c]) floor := by
  obtain ⟨pre, hlog, hpre⟩ := h.numbered
  -- the history grows by the versions of the batch, all newer than the rest
  have hhist : ∀ e, e ∈ historyOf (log ++ [c]) ↔ e ∈ historyOf log ∨
      e ∈ versionsFrom c.base c.entries := by
    intro e
    unfold historyOf
    rw [List.map_append, batchVersions_append, List.mem_append]
    simp [batchVersions, CommitRec.batch]
  refine ⟨hbase ▸ h.wf.addBatch hne hmax, ⟨pre, ?_, hpre⟩, ?_, ?_, ?_, h.floor_le⟩
  · rw [List.map_append, hlog, List.append_assoc]
    congr 1
    rw [Db.replayable_eq h.wf.floor_le, List.append_assoc]
    exact (show (db.addBatch c.base c.entries).replayable = _ from
      Db.replayable_eq h.wf.floor_le).symm
  · intro d hd
    rcases List.mem_append.mp hd with hd | hd
    · exact h.encodes d hd
    · rw [List.mem_singleton.mp hd]
      exact henc
  · obtain ⟨since, hsince⟩ := h.published
    refine ⟨since, ?_⟩
    rw [List.map_append, hsince, List.append_assoc]
    rfl
  · refine h.retains.append hhist (fun e => ?_) fun e he f hf => ?_
    · rw [hbase]
      exact h.wf.stored_addBatch
    · have h1 := (seq_of_mem_versionsFrom he).1
      have h2 := h.history_le hf
      show f.seq < e.seq
      omega

theorem rotateMemtable (h : Consistent db log floor) :
    Consistent db.rotateMemtableLocked log floor := by
  have hfloor : db.manifest.walFloor ≤ db.nextFileId :=
    le_of_lt (lt_of_le_of_lt h.wf.floor_le h.wf.wal_lt)
  have hreplay : db.rotateMemtableLocked.replayable = db.replayable :=
    (show db.rotateMemtableLocked.replayable = _ from Db.replayable_eq hfloor).trans
      (List.append_nil _)
  exact
    { h with
      wf := h.wf.rotateMemtable
      numbered := by rw [hreplay]; exact h.numbered
      retains := h.retains.congr fun e => Db.stored_rotateMemtable }

theorem rotateVlog (h : Consistent db log floor) : Consistent db.rotateVlogLocked log floor :=
  { h with
    wf := h.wf.rotateVlog
    encodes := fun c hc => (h.encodes c hc).mono fun _ hr => hr }

theorem rotateAfterWrite (h : Consistent db log floor) (opts : Options) :
    Consistent (db.rotateAfterWrite opts) log floor := by
  unfold Db.rotateAfterWrite
  have hmem : Consistent (if opts.memtableSize ≤ db.mem.approximateBytes then
      db.rotateMemtableLocked else db) log floor := by
    split
    · exact h.rotateMemtable
    · exact h
  generalize (if opts.memtableSize ≤ db.mem.approximateBytes then
      db.rotateMemtableLocked else db) = d at hmem
  simp only
  split
  · exact hmem.rotateVlog
  · exact hmem

theorem forceRotate (h : Consistent db log floor) : Consistent db.forceRotate log floor := by
  unfold Db.forceRotate
  split
  · exact h
  · exact h.rotateMemtable

/-- **Flush** moves the numbering's cut, and nothing else. -/
theorem flushOne (h : Consistent db log floor) {did : Bool}
    (hf : db.flushOne opts = some (db', did)) :
    Consistent db' log floor ∧ db'.snapshots = db.snapshots ∧ db'.manifest.pins = db.manifest.pins ∧
      db'.visibleSeqno = db.visibleSeqno ∧ db'.defs = db.defs := by
  obtain ⟨hwf, hflushed⟩ := h.wf.flushOne hf
  have hsame : db'.vlog = db.vlog ∧ db'.snapshots = db.snapshots ∧
      db'.manifest.pins = db.manifest.pins ∧ db'.visibleSeqno = db.visibleSeqno ∧
      db'.defs = db.defs ∧ db.manifest.lastFlushedSeqno ≤ db'.manifest.lastFlushedSeqno ∧
      db'.published = db.published := by
    rcases Db.flushOne_cases hf with ⟨-, rfl⟩ | ⟨imm, -, ⟨-, rfl⟩ | ⟨run, maxSeq, next, -, rfl⟩⟩
    · exact ⟨rfl, rfl, rfl, rfl, rfl, le_rfl, rfl⟩
    · exact ⟨rfl, rfl, rfl, rfl, rfl, le_rfl, rfl⟩
    · exact ⟨rfl, rfl, rfl, rfl, rfl, le_max_left _ _, rfl⟩
  obtain ⟨hvlog, hsnap, hpins, hvis, hdefs, hlast, hpub⟩ := hsame
  refine ⟨⟨hwf, ?_, hvlog ▸ h.encodes, hpub ▸ h.published, ?_, le_trans h.floor_le hlast⟩, hsnap,
    hpins, hvis, hdefs⟩
  · obtain ⟨pre, hlog, hpre⟩ := h.numbered
    obtain ⟨cut, hcut⟩ : ∃ cut, db.replayable = cut ++ db'.replayable := by
      rcases hflushed with rfl | ⟨imm, run?, hfl⟩
      · exact ⟨[], rfl⟩
      · exact hfl.replay
    have hrep := h.wf.replay
    rw [hcut, contiguous_append, ← hvis] at hrep
    obtain ⟨k, hk, hrest⟩ := hrep
    obtain rfl := hrest.start_unique hwf.replay
    refine ⟨pre ++ cut, by rw [hlog, hcut, List.append_assoc], contiguous_append.mpr ⟨_, hpre, hk⟩⟩
  · rcases hflushed with rfl | ⟨imm, run?, hfl⟩
    · exact h.retains
    · exact h.retains.congr fun e => hfl.stored

end Consistent

/-! ### Frames -/

theorem writeFrame_rotateAfterWrite (opts : Options) (db : Db) :
    WriteFrame db (db.rotateAfterWrite opts) := by
  have hmem : WriteFrame db (if opts.memtableSize ≤ db.mem.approximateBytes then
      db.rotateMemtableLocked else db) := by
    split
    · exact ⟨rfl, rfl, rfl, rfl, Nat.le_succ _, le_rfl⟩
    · exact .refl db
  unfold Db.rotateAfterWrite
  refine hmem.trans ?_
  generalize (if opts.memtableSize ≤ db.mem.approximateBytes then
      db.rotateMemtableLocked else db) = d
  simp only
  split
  · exact ⟨rfl, rfl, rfl, rfl, Nat.le_succ _, le_rfl⟩
  · exact .refl d

/-- Placement only adds records of the head file. -/
theorem placeOps_files (threshold : ℕ) (v : Vlog) (ops : List BatchOp) :
    ∀ r ∈ (v.placeOps threshold ops).1.records, r ∈ v.records ∨ r.ptr.file = v.headId := by
  induction ops generalizing v with
  | nil => exact fun r hr => Or.inl hr
  | cons op ops ih =>
    intro r hr
    have hhead := (v.placeOp_spec threshold op).2.1
    rcases ih (v.placeOp threshold op).1 r hr with hr | hr
    · cases op with
      | put key value =>
        by_cases h : threshold ≤ value.length
        · rw [show v.placeOp threshold (.put key value) =
            ((v.append key value).2, ⟨.put, key, .ptr (v.append key value).1⟩) from if_pos h] at hr
          rcases List.mem_append.mp hr with hr | hr
          · exact Or.inl hr
          · exact Or.inr (by rw [List.mem_singleton.mp hr])
        · rw [show v.placeOp threshold (.put key value) = (v, ⟨.put, key, .inline value⟩)
            from if_neg h] at hr
          exact Or.inl hr
      | delete key => exact Or.inl hr
    · exact Or.inr (hr.trans hhead)

/-- The store after a batch's values were placed. -/
theorem Consistent.placed (h : Consistent db log floor) (threshold : ℕ) (ops : List BatchOp) :
    Consistent { db with vlog := (db.vlog.placeOps threshold ops).1 } log floor := by
  obtain ⟨hsub, hhead, hwf, -⟩ := db.vlog.placeOps_spec threshold ops
  exact h.growVlog (hwf _ h.wf.vlog) hhead hsub (placeOps_files threshold db.vlog ops)

/-! ### Commits -/

/-- `d` is the store `db`, of the log `log`, after the commits `recs`. -/
structure Extends (db : Db) (log : List CommitRec) (floor : ℕ) (recs : List CommitRec) (d : Db) :
    Prop where
  consistent : Consistent d (log ++ recs) floor
  frame : WriteFrame db d
  published : d.published = db.published ++ recs.map CommitRec.batch
  buffered : ∀ e, e ∈ d.buffered ↔ e ∈ db.buffered ∨ e ∈ historyOf recs

theorem mem_historyOf_append {recs recs' : List CommitRec} {e : Entry} :
    e ∈ historyOf (recs ++ recs') ↔ e ∈ historyOf recs ∨ e ∈ historyOf recs' := by
  unfold historyOf
  rw [List.map_append, batchVersions_append, List.mem_append]

namespace Extends

variable {recs : List CommitRec} {d : Db}

theorem refl (h : Consistent db log floor) : Extends db log floor [] db :=
  ⟨by simpa using h, .refl db, by simp, fun e => by simp [historyOf]⟩

theorem trans {recs' : List CommitRec} {d' : Db} (h : Extends db log floor recs d)
    (h' : Extends d (log ++ recs) floor recs' d') : Extends db log floor (recs ++ recs') d' := by
  refine ⟨by rw [← List.append_assoc]; exact h'.consistent, h.frame.trans h'.frame, ?_, fun e => ?_⟩
  · rw [h'.published, h.published, List.map_append, List.append_assoc]
  · rw [h'.buffered, h.buffered, mem_historyOf_append, or_assoc]

/-- The store after a batch's values were placed. -/
theorem placed (h : Consistent db log floor) (threshold : ℕ) (ops : List BatchOp) :
    Extends db log floor [] { db with vlog := (db.vlog.placeOps threshold ops).1 } :=
  ⟨by simpa using h.placed threshold ops, ⟨rfl, rfl, rfl, rfl, le_rfl, le_rfl⟩, by simp,
    fun e => (Extends.refl h).buffered e⟩

theorem rotateAfterWrite (h : Extends db log floor recs d) (opts : Options) :
    Extends db log floor recs (d.rotateAfterWrite opts) := by
  have hsame : (d.rotateAfterWrite opts).published = d.published ∧
      ∀ e, e ∈ (d.rotateAfterWrite opts).buffered ↔ e ∈ d.buffered := by
    unfold Db.rotateAfterWrite
    simp only
    split <;> split <;> exact ⟨rfl, fun e => Iff.rfl⟩
  exact ⟨h.consistent.rotateAfterWrite opts, h.frame.trans (writeFrame_rotateAfterWrite opts d),
    hsame.1.trans h.published, fun e => (hsame.2 e).trans (h.buffered e)⟩

theorem addBatch (h : Extends db log floor recs d) {c : CommitRec}
    (hbase : c.base = d.visibleSeqno + 1)
    (hne : c.entries ≠ []) (hmax : d.visibleSeqno + c.entries.length < MAX_SEQNO)
    (henc : d.vlog.Encodes c.fullOps c.entries) :
    Extends db log floor (recs ++ [c]) (d.addBatch c.base c.entries) := by
  refine ⟨?_, h.frame.trans ⟨rfl, rfl, rfl, rfl, le_rfl, ?_⟩, ?_, fun e => ?_⟩
  · rw [← List.append_assoc]
    exact h.consistent.addBatch hbase hne hmax henc
  · show d.visibleSeqno ≤ c.base + c.entries.length - 1
    omega
  · show d.published ++ [c.batch] = _
    rw [h.published, List.map_append, List.append_assoc]
    rfl
  · have hsingle : historyOf [c] = versionsFrom c.base c.entries := by
      simp [historyOf, batchVersions, CommitRec.batch]
    rw [mem_historyOf_append, hsingle, ← or_assoc, ← h.buffered, hbase]
    exact h.consistent.wf.buffered_addBatch

/-- The commits are numbered from the next free seqno on. -/
theorem contiguous (h : Extends db log floor recs d) (hdb : Consistent db log floor) :
    Contiguous (db.visibleSeqno + 1) (recs.map CommitRec.batch) (d.visibleSeqno + 1) := by
  have hall := h.consistent.contiguous
  rw [List.map_append, contiguous_append] at hall
  obtain ⟨k, hk, hrest⟩ := hall
  obtain rfl := hdb.contiguous.unique hk
  exact hrest

end Extends

/-! ### The direct path -/

/-- What one application of a batch can do. -/
theorem applyLocked_cases (opts : Options) (db : Db) (ops : List BatchOp) (capture : Bool) :
    let full := ops ++ db.captureEvents opts ops (db.visibleSeqno + 1) capture
    let placed := db.vlog.placeOps opts.valueThreshold full
    (∃ err, db.applyLocked opts ops capture = (db, .error err)) ∨
    (∃ err, db.applyLocked opts ops capture = ({ db with vlog := placed.1 }, .error err)) ∨
    (db.visibleSeqno + 1 + full.length < MAX_SEQNO ∧
      db.applyLocked opts ops capture =
        ((({ db with vlog := placed.1 } : Db).addBatch
          (db.visibleSeqno + 1) placed.2).rotateAfterWrite opts, .ok ())) := by
  intro full placed
  unfold Db.applyLocked
  simp only
  split
  · exact Or.inl ⟨_, rfl⟩
  · rename_i hmax
    split
    · exact Or.inl ⟨_, rfl⟩
    · split
      · exact Or.inr (Or.inl ⟨_, rfl⟩)
      · exact Or.inr (Or.inr ⟨not_le.mp hmax, rfl⟩)

/-- A placed batch. -/
theorem Extends.applied (opts : Options) (h : Consistent db log floor) {q : QueuedEntry}
    (hne : q.ops ≠ []) (hmax : db.visibleSeqno + 1 +
      (q.ops ++ db.captureEvents opts q.ops (db.visibleSeqno + 1) q.capture).length < MAX_SEQNO) :
    Extends db log floor [recOf opts db q]
      (({ db with vlog := (db.vlog.placeOps opts.valueThreshold
        (q.ops ++ db.captureEvents opts q.ops (db.visibleSeqno + 1) q.capture)).1 } : Db).addBatch
          (db.visibleSeqno + 1) (recOf opts db q).entries) := by
  obtain ⟨-, -, -, henc⟩ := db.vlog.placeOps_spec opts.valueThreshold
    (q.ops ++ db.captureEvents opts q.ops (db.visibleSeqno + 1) q.capture)
  have hlen : (recOf opts db q).entries.length = _ := henc.length_eq
  refine (Extends.placed h opts.valueThreshold _).addBatch (c := recOf opts db q) rfl ?_ ?_ henc
  · refine List.length_pos_iff.mp ?_
    rw [hlen, List.length_append]
    have := List.length_pos_iff.mpr hne
    omega
  · rw [hlen]
    show db.visibleSeqno + _ < _
    omega

/-- **The direct path.** -/
theorem applyLocked_spec (opts : Options) (h : Consistent db log floor) {q : QueuedEntry}
    (hne : q.ops ≠ []) :
    (∃ err, (db.applyLocked opts q.ops q.capture).2 = .error err ∧
        Extends db log floor [] (db.applyLocked opts q.ops q.capture).1) ∨
      ((db.applyLocked opts q.ops q.capture).2 = .ok () ∧
        Extends db log floor [recOf opts db q] (db.applyLocked opts q.ops q.capture).1) := by
  rcases applyLocked_cases opts db q.ops q.capture with ⟨err, heq⟩ | ⟨err, heq⟩ | ⟨hmax, heq⟩
  · rw [heq]
    exact Or.inl ⟨err, rfl, .refl h⟩
  · rw [heq]
    exact Or.inl ⟨err, rfl, .placed h _ _⟩
  · rw [heq]
    exact Or.inr ⟨rfl, (Extends.applied opts h hne hmax).rotateAfterWrite opts⟩

/-! ### The group path -/

/-- How the phases of a group apply answer its entries: in order, from the next
free seqno on, every batch is rejected or encoded under the next seqnos. -/
inductive Outcome (opts : Options) (db : Db) (v : Vlog) :
    ℕ → List QueuedEntry → List (Except Error (ℕ × List EncEntry)) → Prop
  | nil {n : ℕ} : Outcome opts db v n [] []
  | rejected {n : ℕ} {q : QueuedEntry} {qs : List QueuedEntry} {err : Error}
      {rs : List (Except Error (ℕ × List EncEntry))} :
      err ≠ .conflict → Outcome opts db v n qs rs → Outcome opts db v n (q :: qs) (.error err :: rs)
  | accepted {n : ℕ} {q : QueuedEntry} {qs : List QueuedEntry} {es : List EncEntry}
      {rs : List (Except Error (ℕ × List EncEntry))} :
      v.Encodes (q.ops ++ db.captureEvents opts q.ops n q.capture) es → n + es.length < MAX_SEQNO →
      Outcome opts db v (n + es.length) qs rs → Outcome opts db v n (q :: qs) (.ok (n, es) :: rs)

variable {v v' : Vlog} {n : ℕ} {qs : List QueuedEntry}
  {rs : List (Except Error (ℕ × List EncEntry))}

theorem Outcome.mono (h : Outcome opts db v n qs rs) (hsub : ∀ r ∈ v.records, r ∈ v'.records) :
    Outcome opts db v' n qs rs := by
  induction h with
  | nil => exact .nil
  | rejected herr _ ih => exact .rejected herr ih
  | accepted henc hmax _ ih => exact .accepted (henc.mono hsub) hmax ih

theorem Outcome.length_eq (h : Outcome opts db v n qs rs) : rs.length = qs.length := by
  induction h with
  | nil => rfl
  | rejected _ _ ih => simp [ih]
  | accepted _ _ _ ih => simp [ih]

/-- Rejecting the whole rest is always an outcome. -/
theorem Outcome.abort (h : Outcome opts db v n qs rs) {err : Error}
    (herr : err ≠ .conflict) (m : ℕ) :
    Outcome opts db v m qs (rs.map fun r => r.bind fun _ => .error err) := by
  induction h with
  | nil => exact .nil
  | rejected herr' _ ih => exact .rejected herr' ih
  | accepted _ _ _ ih => exact .rejected herr ih

theorem Outcome.abort_errors (h : Outcome opts db v n qs rs) :
    ∀ r ∈ rs.map (fun r => r.bind fun _ =>
      (.error abortedError : Except Error (ℕ × List EncEntry))),
      ∃ err, r = .error err ∧ err ≠ .conflict := by
  induction h with
  | nil => exact fun r hr => absurd hr List.not_mem_nil
  | rejected herr _ ih => exact List.forall_mem_cons.mpr ⟨⟨_, rfl, herr⟩, ih⟩
  | accepted _ _ _ ih => exact List.forall_mem_cons.mpr ⟨⟨_, rfl, by simp [abortedError]⟩, ih⟩

/-- The apply itself never answers with a conflict. -/
theorem Outcome.ne_conflict (h : Outcome opts db v n qs rs) : ∀ r ∈ rs, r ≠ .error .conflict := by
  induction h with
  | nil => exact fun r hr => absurd hr List.not_mem_nil
  | rejected herr _ ih =>
    exact List.forall_mem_cons.mpr ⟨fun heq => herr (by injection heq), ih⟩
  | accepted _ _ _ ih => exact List.forall_mem_cons.mpr ⟨by simp, ih⟩

/-- Phases 0 and 1. -/
theorem outcome_placed (opts : Options) (db : Db) (v : Vlog) (n : ℕ) (qs : List QueuedEntry) :
    let placed := Db.groupPhase1 opts.valueThreshold v
      (db.groupPhase0 opts n (qs.map QueuedEntry.batch))
    ((∀ r ∈ v.records, r ∈ placed.1.records) ∧ placed.1.headId = v.headId ∧
      (∀ next, v.WF next → placed.1.WF next) ∧
      (∀ r ∈ placed.1.records, r ∈ v.records ∨ r.ptr.file = v.headId)) ∧
    Outcome opts db placed.1 n qs placed.2 := by
  induction qs generalizing v n with
  | nil => exact ⟨⟨fun r hr => hr, rfl, fun _ hw => hw, fun r hr => Or.inl hr⟩, .nil⟩
  | cons q qs ih =>
    intro placed
    unfold placed
    simp only [List.map_cons, QueuedEntry.batch, Db.groupPhase0]
    split
    · exact ⟨(ih v n).1, .rejected (by simp [oversizeError]) (ih v n).2⟩
    · split
      · exact ⟨(ih v n).1, .rejected (by simp [exhaustedError]) (ih v n).2⟩
      · -- the batch is placed, and the others behind it
        rename_i hmax
        have hfiles := placeOps_files opts.valueThreshold v
          (q.ops ++ db.captureEvents opts q.ops n q.capture)
        obtain ⟨hsub, hhead, hwf, henc⟩ := v.placeOps_spec opts.valueThreshold
          (q.ops ++ db.captureEvents opts q.ops n q.capture)
        have hlen := henc.length_eq
        simp only [Db.groupPhase1]
        generalize v.placeOps opts.valueThreshold
          (q.ops ++ db.captureEvents opts q.ops n q.capture) =
            p at hfiles hsub hhead hwf henc hlen ⊢
        obtain ⟨v₁, es⟩ := p
        simp only at hfiles hsub hhead hwf henc hlen ⊢
        obtain ⟨⟨hsub', hhead', hwf', hfiles'⟩, hout⟩ :=
          ih v₁ (n + (q.ops ++ db.captureEvents opts q.ops n q.capture).length)
        refine ⟨⟨fun r hr => hsub' r (hsub r hr), hhead'.trans hhead,
          fun next hw => hwf' next (hwf next hw),
            fun r hr => ?_⟩, .accepted (henc.mono hsub') ?_ ?_⟩
        · rcases hfiles' r hr with hr | hr
          · exact hfiles r hr
          · exact Or.inr (hr.trans hhead)
        · rw [hlen]
          exact not_le.mp hmax
        · rw [hlen]
          exact hout

/-- Phase 3 keeps a prefix of what was accepted. -/
theorem Outcome.phase3 (h : Outcome opts db v n qs rs) :
    Outcome opts db v n qs (Db.groupPhase3 rs) := by
  induction h with
  | nil => exact .nil
  | rejected herr _ ih => exact .rejected herr ih
  | @accepted n q qs es rs henc hmax hrest ih =>
    unfold Db.groupPhase3
    split
    · exact .rejected (by simp [oversizeError]) (hrest.abort (by simp [abortedError]) n)
    · exact .accepted henc hmax ih

/-- The three passes over the appended records come to one pass of batches. -/
theorem foldl_addBatch (appended : List (ℕ × List EncEntry)) (db : Db) :
    appended.foldl (fun db r => db.publishStream r.1 r.2)
      (appended.foldl (fun db r => db.insertEntries r.1 r.2)
        (appended.foldl (fun db r => db.appendRecord r.1 r.2) db)) =
      appended.foldl (fun db r => db.addBatch r.1 r.2) db := by
  induction appended generalizing db with
  | nil => rfl
  | cons r rest ih =>
    have happend : ∀ d : Db, rest.foldl (fun db r => db.appendRecord r.1 r.2)
        (d.insertEntries r.1 r.2) =
        (rest.foldl (fun db r => db.appendRecord r.1 r.2) d).insertEntries r.1 r.2 := fun d =>
      List.foldl_hom (fun db : Db => db.insertEntries r.1 r.2) (fun _ _ => rfl)
    have happend' : ∀ d : Db, rest.foldl (fun db r => db.appendRecord r.1 r.2)
        (d.publishStream r.1 r.2) =
        (rest.foldl (fun db r => db.appendRecord r.1 r.2) d).publishStream r.1 r.2 := fun d =>
      List.foldl_hom (fun db : Db => db.publishStream r.1 r.2) (fun _ _ => rfl)
    have hinsert : ∀ d : Db, rest.foldl (fun db r => db.insertEntries r.1 r.2)
        (d.publishStream r.1 r.2) =
        (rest.foldl (fun db r => db.insertEntries r.1 r.2) d).publishStream r.1 r.2 := fun d =>
      List.foldl_hom (fun db : Db => db.publishStream r.1 r.2) (fun _ _ => rfl)
    simp only [List.foldl_cons]
    rw [← ih, ← happend, ← hinsert, ← happend']
    rfl

/-- **A group's batches**, one after the other. -/
theorem Outcome.addBatches {src d : Db} {recs : List CommitRec} (hout : Outcome opts src v n qs rs)
    (hne : ∀ q ∈ qs, q.ops ≠ []) (h : Extends db log floor recs d) (hv : d.vlog = v)
    (hn : n = d.visibleSeqno + 1) :
    Extends db log floor (recs ++ groupRecs opts src qs rs)
      ((rs.filterMap Except.toOption).foldl (fun db r => db.addBatch r.1 r.2) d) := by
  induction hout generalizing d recs with
  | nil => simpa [groupRecs] using h
  | rejected _ _ ih => exact ih (fun q hq => hne q (List.mem_cons_of_mem _ hq)) h hv hn
  | @accepted n q qs es rs henc hmax _ ih =>
    subst hv hn
    have hpos : 0 < es.length := by
      rw [henc.length_eq, List.length_append]
      have := List.length_pos_iff.mpr (hne q List.mem_cons_self)
      omega
    have hlt : d.visibleSeqno + es.length < MAX_SEQNO := by omega
    have hadd := h.addBatch (c := ⟨q.ops, q.validate, q.capture, d.visibleSeqno + 1,
      src.captureEvents opts q.ops (d.visibleSeqno + 1) q.capture, es⟩) rfl
        (List.length_pos_iff.mp hpos) hlt henc
    have hvis : (d.addBatch (d.visibleSeqno + 1) es).visibleSeqno + 1 =
        d.visibleSeqno + 1 + es.length := by
      show d.visibleSeqno + 1 + es.length - 1 + 1 = _
      omega
    have hrest := ih (fun q hq => hne q (List.mem_cons_of_mem _ hq)) hadd rfl hvis.symm
    rw [List.append_assoc] at hrest
    exact hrest

/-- What the phases of a group apply answer and leave. -/
theorem groupOutcome_spec (opts : Options) (db : Db) (qs : List QueuedEntry) :
    let r := db.groupOutcome opts (qs.map QueuedEntry.batch)
    ((∀ rec ∈ db.vlog.records, rec ∈ r.1.records) ∧ r.1.headId = db.vlog.headId ∧
      (∀ next, db.vlog.WF next → r.1.WF next) ∧
      (∀ rec ∈ r.1.records, rec ∈ db.vlog.records ∨ rec.ptr.file = db.vlog.headId)) ∧
    Outcome opts db r.1 (db.visibleSeqno + 1) qs r.2 := by
  obtain ⟨hgrow, hout⟩ := outcome_placed opts db db.vlog (db.visibleSeqno + 1) qs
  exact ⟨hgrow, hout.phase3⟩

/-- **Group apply**: the accepted batches are committed in order. -/
theorem applyGroupLocked_spec (h : Consistent db log floor) (hne : ∀ q ∈ qs, q.ops ≠ []) :
    Extends db log floor (groupRecs opts db qs (db.groupOutcome opts (qs.map QueuedEntry.batch)).2)
      (db.applyGroupLocked opts (qs.map QueuedEntry.batch)).1 := by
  obtain ⟨⟨hsub, hhead, hwf, hfiles⟩, hout⟩ := groupOutcome_spec opts db qs
  unfold Db.applyGroupLocked
  simp only
  generalize db.groupOutcome opts (qs.map QueuedEntry.batch) = r at hsub hhead hwf hfiles hout ⊢
  obtain ⟨vlog, outcome⟩ := r
  simp only at hsub hhead hwf hfiles hout ⊢
  have hstart : Extends db log floor [] { db with vlog := vlog } :=
    ⟨by simpa using h.growVlog (hwf _ h.wf.vlog) hhead hsub hfiles,
      ⟨rfl, rfl, rfl, rfl, le_rfl, le_rfl⟩, by simp, fun e => (Extends.refl h).buffered e⟩
  have hall := hout.addBatches hne hstart rfl rfl
  rw [foldl_addBatch]
  split
  · exact hall
  · exact hall.rotateAfterWrite opts

/-! ### Validated commits -/

theorem mem_includedEntries {q : QueuedEntry} {view : ReadView} {written : List Bytes}
    {entries : List QueuedEntry}
    (hq : q ∈ includedEntries (validateGroup view written entries) entries) :
    q ∈ entries ∧ q.ops ≠ [] := by
  induction entries generalizing written with
  | nil => exact absurd hq List.not_mem_nil
  | cons a entries ih =>
    unfold validateGroup at hq
    split at hq
    · obtain ⟨hmem, hne⟩ := ih hq
      exact ⟨List.mem_cons_of_mem _ hmem, hne⟩
    · by_cases hops : a.ops.isEmpty
      · rw [if_pos hops] at hq
        obtain ⟨hmem, hne⟩ := ih hq
        exact ⟨List.mem_cons_of_mem _ hmem, hne⟩
      · rw [if_neg hops] at hq
        rcases List.mem_cons.mp hq with rfl | hq
        · exact ⟨List.mem_cons_self, fun hnil => hops (by simp [hnil])⟩
        · obtain ⟨hmem, hne⟩ := ih hq
          exact ⟨List.mem_cons_of_mem _ hmem, hne⟩

/-- The entries that are applied are some of the chunk, in order. -/
theorem includedEntries_sublist (ds : List Decision) (qs : List QueuedEntry) :
    (includedEntries ds qs).Sublist qs := by
  induction ds generalizing qs with
  | nil => exact List.nil_sublist qs
  | cons d ds ih =>
    cases qs with
    | nil => cases d <;> exact .slnil
    | cons q qs =>
      cases d with
      | included => exact (ih qs).cons_cons q
      | conflict | failed _ | locksOnly => exact (ih qs).cons q

/-! ### Reads that fail -/

section

variable {view : ReadView} {written : List Bytes}

theorem checkKeys_ok {snap : ℕ} {reads : ℕ → Option Error} {keys : List Bytes} {b : Bool}
    (h : checkKeys view written snap reads keys = .ok b) :
    hasConflict view written snap keys = b := by
  induction keys generalizing reads with
  | nil => exact Except.ok.inj h
  | cons key keys ih =>
    simp only [checkKeys] at h
    show (_ || hasConflict view written snap keys) = b
    beta_reduce
    by_cases hkey : key ∈ written
    · rw [if_pos hkey] at h
      rw [decide_eq_true hkey, Bool.true_or, Bool.true_or, Except.ok.inj h]
    · rw [if_neg hkey] at h
      rw [decide_eq_false hkey, Bool.false_or]
      split at h
      · -- the read fails
        exact absurd h (by simp)
      cases hlatest : view.latest key with
      | none =>
        rw [hlatest] at h
        exact ih h
      | some e =>
        rw [hlatest] at h
        simp only at h ⊢
        by_cases hnewer : snap < e.seq
        · rw [if_pos hnewer] at h
          rw [decide_eq_true hnewer, Bool.true_or, Except.ok.inj h]
        · rw [if_neg hnewer] at h
          rw [decide_eq_false hnewer, Bool.false_or]
          exact ih h

/-- **A check that is read to its end** is the validation. -/
theorem QueuedEntry.conflicts_of_check {q : QueuedEntry} {reads : ℕ → Option Error} {b : Bool}
    (h : q.check view written reads = .ok b) : q.conflicts view written = b := by
  unfold check at h
  unfold conflicts
  split at h
  · exact checkKeys_ok h
  · exact Except.ok.inj h

end

/-- The check could be read. -/
def Decision.read : Decision → Bool
  | failed _ => false
  | _ => true

/-- The entries of a chunk whose checks could be read. -/
def readEntries (ds : List Decision) (qs : List QueuedEntry) : List QueuedEntry :=
  ((ds.zip qs).filter fun p => p.1.read).map Prod.snd

/-- **A validation with reads that fail** is the validation of the entries that could be
read. -/
theorem validateGroup_readEntries (view : ReadView) (reads : ℕ → ℕ → Option Error)
    (written : List Bytes) (qs : List QueuedEntry) :
    let ds := validateGroupIo view reads written qs
    validateGroup view written (readEntries ds qs) = ds.filter Decision.read ∧
      includedEntries (ds.filter Decision.read) (readEntries ds qs) = includedEntries ds qs := by
  induction qs generalizing reads written with
  | nil => exact ⟨rfl, rfl⟩
  | cons q qs ih =>
    cases hc : q.check view written (reads 0) with
    | error err =>
      -- the entry is left out, and its keys are not collected
      rw [validateGroupIo_failed qs hc]
      exact ih _ written
    | ok b =>
      have hconf := QueuedEntry.conflicts_of_check hc
      cases b with
      | true =>
        rw [validateGroupIo_conflict qs hc]
        obtain ⟨hds, hinc⟩ := ih (fun i => reads (i + 1)) written
        exact ⟨(validateGroup_conflict _ hconf).trans (congrArg (.conflict :: ·) hds), hinc⟩
      | false =>
        by_cases hops : q.ops = []
        · rw [validateGroupIo_locks qs hc hops]
          obtain ⟨hds, hinc⟩ := ih (fun i => reads (i + 1)) written
          exact ⟨(validateGroup_locks _ hconf hops).trans (congrArg (.locksOnly :: ·) hds), hinc⟩
        · rw [validateGroupIo_included qs hc hops]
          obtain ⟨hds, hinc⟩ := ih (fun i => reads (i + 1)) (q.ops.map BatchOp.key ++ written)
          exact ⟨(validateGroup_included _ hconf hops).trans (congrArg (.included :: ·) hds),
            congrArg (q :: ·) hinc⟩

/-- What is applied of a chunk has something to apply. -/
theorem ops_ne_nil_of_included {q : QueuedEntry} {view : ReadView}
    {reads : ℕ → ℕ → Option Error} {written : List Bytes} {entries : List QueuedEntry}
    (hq : q ∈ includedEntries (validateGroupIo view reads written entries) entries) :
    q.ops ≠ [] := by
  obtain ⟨hds, hinc⟩ := validateGroup_readEntries view reads written entries
  rw [← hinc, ← hds] at hq
  exact (mem_includedEntries hq).2

theorem commitDirect_cases (opts : Options) (db : Db) (q : QueuedEntry) :
    (db.commitDirect opts q = (db, .error .conflict) ∧ q.conflicts db.readView [] = true) ∨
    (db.commitDirect opts q = (db, .ok ()) ∧ q.conflicts db.readView [] = false ∧ q.ops = []) ∨
    (db.commitDirect opts q = db.applyLocked opts q.ops q.capture ∧
      q.conflicts db.readView [] = false ∧ q.ops ≠ []) := by
  unfold Db.commitDirect
  cases hc : q.conflicts db.readView [] with
  | true => exact Or.inl ⟨rfl, rfl⟩
  | false =>
    by_cases hops : q.ops = []
    · exact Or.inr (Or.inl ⟨by simp [hops], rfl, hops⟩)
    · exact Or.inr (Or.inr ⟨by simp [hops], rfl, hops⟩)

/-- One chunk of the committer, as a store step. -/
theorem commitGroup_spec (opts : Options) (h : Consistent db log floor) (qs : List QueuedEntry) :
    Extends db log floor (groupRecs opts db (includedEntries (validateGroup db.readView [] qs) qs)
        (db.groupOutcome opts ((includedEntries (validateGroup db.readView [] qs) qs).map
          QueuedEntry.batch)).2)
      (db.commitGroup opts qs).1 := by
  have hne : ∀ q ∈ includedEntries (validateGroup db.readView [] qs) qs, q.ops ≠ [] :=
    fun q hq => (mem_includedEntries hq).2
  unfold Db.commitGroup
  simp only
  generalize includedEntries (validateGroup db.readView [] qs) qs = included at hne
  split
  · rename_i hempty
    obtain rfl : included = [] := by simpa using hempty
    exact .refl h
  · exact applyGroupLocked_spec h hne

namespace Engine

variable {e : Engine}

/-- The direct path, as an engine step. -/
theorem commit_spec (opts : Options) (h : Consistent e.db e.log e.floor) (q : QueuedEntry) :
    WriteFrame e.db (e.commit opts q).db ∧
      Consistent (e.commit opts q).db (e.commit opts q).log e.floor := by
  unfold Engine.commit
  rcases commitDirect_cases opts e.db q with ⟨heq, -⟩ | ⟨heq, -, hops⟩ | ⟨heq, -, hops⟩
  · rw [heq]
    exact ⟨.refl _, by simpa [committed] using h⟩
  · rw [heq]
    exact ⟨.refl _, by simpa [committed, hops] using h⟩
  · rw [heq]
    rcases applyLocked_spec opts h hops with ⟨err, herr, hext⟩ | ⟨hok, hext⟩
    · simp only [herr]
      exact ⟨hext.frame, hext.consistent⟩
    · have hempty : q.ops.isEmpty = false := by simpa using hops
      simp only [hok, hempty]
      exact ⟨hext.frame, hext.consistent⟩

theorem group_spec (opts : Options) (h : Consistent e.db e.log e.floor) (m : ℕ) :
    WriteFrame e.db (e.group opts m).db ∧
      Consistent (e.group opts m).db (e.group opts m).log e.floor := by
  have hext := commitGroup_spec opts h (e.queue.take m)
  exact ⟨hext.frame, hext.consistent⟩

theorem relocate_spec (opts : Options) (h : Consistent e.db e.log e.floor)
    (records : List VlogRecord) :
    WriteFrame e.db (e.relocate opts records).db ∧
      Consistent (e.relocate opts records).db (e.relocate opts records).log e.floor := by
  unfold Engine.relocate
  simp only
  split
  · exact ⟨.refl _, h⟩
  · rename_i hempty
    have hops : (⟨relocationOps e.db records, none, false⟩ : QueuedEntry).ops ≠ [] := by
      simpa using hempty
    rcases applyLocked_spec opts h hops with ⟨err, herr, hext⟩ | ⟨hok, hext⟩
    · simp only [herr]
      exact ⟨hext.frame, hext.consistent⟩
    · simp only [hok]
      exact ⟨hext.frame, hext.consistent⟩

end Engine

end Fluent31
