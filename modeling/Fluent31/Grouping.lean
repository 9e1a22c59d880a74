/-
Group commit against one-at-a-time commit.

`Refines` compares what the two paths leave: the verdicts, the visible seqno,
what the subscribers were offered and what the memtables hold, values resolved.
Where values are placed and when memtables rotate may differ.

* `group_refines_iff` — a list of queued entries, in any chunking, is processed
  alike exactly when every chunk is `Aligned` in the state before it;
* `group_not_refines` — a user write and a drain of its trigger event in one
  group are not.
-/
import Fluent31.WalkSpec
import Fluent31.Reads

namespace Fluent31

open Mvcc

variable {opts : Options} {db d d' : Db} {log recs recs' : List CommitRec} {floor : ℕ} {w : Walk}
  {q : QueuedEntry} {qs : List QueuedEntry} {e : Engine}

/-! ### Resolved contents -/

/-- One streamed op, value resolved (`none` for deletes). -/
structure StreamEntry where
  key : Bytes
  seqno : ℕ
  /-- The last seqno of the commit the op belonged to. -/
  commitSeqno : ℕ
  kind : ValueKind
  value : Option Bytes
  deriving DecidableEq

namespace Db

variable (db : Db)

/-- What a stored representation resolves to. -/
def content (key : Bytes) (repr : ReprRef) : Option Bytes := (db.resolveRepr key repr).toOption

/-- A batch as subscribers receive it. -/
def streamBatch (r : ℕ × List EncEntry) : List StreamEntry :=
  (versionsFrom r.1 r.2).map fun e =>
    ⟨e.ukey, e.seq, r.1 + r.2.length - 1, e.kind, db.content e.ukey e.repr⟩

def streamed : List (List StreamEntry) := db.published.map db.streamBatch

/-- The versions in the memtables, resolved. -/
def memContents : List (Bytes × ℕ × ValueKind × Option Bytes) :=
  db.buffered.map fun e => (e.ukey, e.seq, e.kind, db.content e.ukey e.repr)

end Db

theorem content_eq (h : db.WF) {key : Bytes} {repr : ReprRef} {w? : Option Bytes}
    (hholds : db.vlog.Holds key repr w?) : db.content key repr = w? := by
  cases w? with
  | some w => exact congrArg Except.toOption (h.resolveRepr_eq hholds)
  | none =>
    cases repr with
    | empty => rfl
    | inline w => exact absurd hholds (by simp [Vlog.Holds])
    | ptr p =>
      obtain ⟨w, hw, -⟩ := hholds
      exact absurd hw (by simp)

/-- The versions of a placed batch resolve to its ops. -/
theorem map_versionsFrom {α : Type} (h : db.WF) {ops : List BatchOp} {es : List EncEntry}
    (henc : db.vlog.Encodes ops es) (base : ℕ) (f : Bytes → ℕ → ValueKind → Option Bytes → α) :
    (versionsFrom base es).map (fun e => f e.ukey e.seq e.kind (db.content e.ukey e.repr)) =
      (ops.zipIdx base).map fun p => f p.1.key p.2 p.1.kind p.1.value? := by
  induction henc generalizing base with
  | nil => rfl
  | @cons op ops repr es hholds _ ih =>
    have hhead : f op.key base op.kind (db.content op.key repr) =
        f op.key base op.kind op.value? := by rw [content_eq h hholds]
    exact congrArg₂ List.cons hhead (ih (base + 1))

/-- What subscribers receive of a commit. -/
def CommitRec.stream (c : CommitRec) : List StreamEntry :=
  c.numbered.map fun p => ⟨p.1.key, p.2, c.base + c.fullOps.length - 1, p.1.kind, p.1.value?⟩

theorem streamBatch_eq (h : Consistent db log floor) {c : CommitRec} (hc : c ∈ log) :
    db.streamBatch c.batch = c.stream := by
  have henc := h.encodes c hc
  have hlen : c.batch.2.length = c.fullOps.length := henc.length_eq
  unfold Db.streamBatch CommitRec.stream
  rw [hlen]
  exact map_versionsFrom h.wf henc c.base fun k n kind v =>
    (⟨k, n, c.base + c.fullOps.length - 1, kind, v⟩ : StreamEntry)

/-- The subscribers' view of a consistent store is a part of its log. -/
theorem Consistent.streamed_eq (h : Consistent db log floor) :
    db.streamed = (log.drop (log.length - db.published.length)).map CommitRec.stream := by
  obtain ⟨pre, hpre⟩ := h.published
  have hlen : log.length = pre.length + db.published.length := by
    rw [← List.length_append, ← hpre, List.length_map]
  have hdrop : (log.drop (log.length - db.published.length)).map CommitRec.batch =
      db.published := by
    rw [List.map_drop, hpre, hlen, Nat.add_sub_cancel, List.drop_left]
  have hmap := congrArg (List.map db.streamBatch) hdrop
  rw [List.map_map] at hmap
  exact hmap.symm.trans (List.map_congr_left fun c hc => streamBatch_eq h (List.mem_of_mem_drop hc))

/-- A buffered version resolves alike in a store and what extends it. -/
theorem Extends.content_eq (h : Extends db log floor recs d)
    (hdb : Consistent db log floor) {x : Entry}
    (hx : x ∈ db.buffered) : d.content x.ukey x.repr = db.content x.ukey x.repr := by
  have hmem := hdb.retains.sub x (Db.mem_stored_iff_buffered.mpr (Or.inl hx))
  have henc : LogEncodes d.vlog log :=
    fun c hc => h.consistent.encodes c (List.mem_append_left _ hc)
  obtain ⟨p, hp, hseq, -, -, hholds⟩ := mem_historyOf hdb.encodes hmem
  obtain ⟨p', hp', hseq', -, -, hholds'⟩ := mem_historyOf henc hmem
  obtain rfl : p = p' := eq_of_pairwise_lt (f := Prod.snd)
    (pairwise_numbered hdb.encodes hdb.contiguous) hp hp' (hseq.trans hseq'.symm)
  rw [Fluent31.content_eq hdb.wf hholds, Fluent31.content_eq h.consistent.wf hholds']

theorem mem_map_historyOf (h : db.WF) (henc : LogEncodes db.vlog log)
    (x : Bytes × ℕ × ValueKind × Option Bytes) :
    x ∈ (historyOf log).map (fun y => (y.ukey, y.seq, y.kind, db.content y.ukey y.repr)) ↔
      x ∈ (log.flatMap CommitRec.numbered).map fun p => (p.1.key, p.2, p.1.kind, p.1.value?) := by
  unfold historyOf batchVersions
  rw [List.map_flatMap, List.map_flatMap, List.flatMap_map]
  refine iff_of_eq (congrArg (x ∈ ·) (List.flatMap_congr fun c hc => ?_))
  exact map_versionsFrom h (henc c hc) c.base fun k n kind v => (k, n, kind, v)

/-- **The memtables** after some commits. -/
theorem Extends.mem_memContents (h : Extends db log floor recs d) (hdb : Consistent db log floor)
    (x : Bytes × ℕ × ValueKind × Option Bytes) :
    x ∈ d.memContents ↔ x ∈ db.memContents ∨
      x ∈ (recs.flatMap CommitRec.numbered).map fun p => (p.1.key, p.2, p.1.kind, p.1.value?) := by
  have henc : LogEncodes d.vlog recs :=
    fun c hc => h.consistent.encodes c (List.mem_append_right _ hc)
  rw [← mem_map_historyOf h.consistent.wf henc]
  unfold Db.memContents
  simp only [List.mem_map, h.buffered, or_and_right, exists_or]
  refine or_congr_left (exists_congr fun y => and_congr_right fun hy => ?_)
  rw [h.content_eq hdb hy]

/-! ### Twin stores -/

/-- Two stores that extend `db` by the same commits, up to value placement. -/
structure Twins (db : Db) (log : List CommitRec) (floor : ℕ) (recs recs' : List CommitRec)
    (d d' : Db) :
    Prop where
  left : Extends db log floor recs d
  right : Extends db log floor recs' d'
  same : recs.map CommitRec.strip = recs'.map CommitRec.strip

theorem numbered_eq_of_strip (h : recs.map CommitRec.strip = recs'.map CommitRec.strip) :
    recs.flatMap CommitRec.numbered = recs'.flatMap CommitRec.numbered := by
  have hstrip : ∀ l : List CommitRec,
      l.flatMap CommitRec.numbered = (l.map CommitRec.strip).flatMap CommitRec.numbered :=
        fun l => by
    rw [List.flatMap_map]
    rfl
  rw [hstrip, hstrip recs', h]

/-- The end of the numbering is the number of ops. -/
theorem Contiguous.end_eq {n m : ℕ} {v : Vlog} (henc : LogEncodes v recs)
    (h : Contiguous n (recs.map CommitRec.batch) m) :
    m = n + (recs.flatMap CommitRec.numbered).length := by
  induction recs generalizing n with
  | nil => exact h.symm
  | cons c recs ih =>
    obtain ⟨-, -, hrest⟩ := h
    have hlen : c.entries.length = c.fullOps.length := (henc c List.mem_cons_self).length_eq
    have hm : m = n + c.entries.length + _ :=
      ih (fun b hb => henc b (List.mem_cons_of_mem _ hb)) hrest
    rw [List.flatMap_cons, List.length_append, hm, hlen]
    unfold CommitRec.numbered
    rw [List.length_zipIdx]
    omega

namespace Twins

theorem visible_eq (h : Twins db log floor recs recs' d d') (hdb : Consistent db log floor) :
    d.visibleSeqno = d'.visibleSeqno := by
  have h1 := (h.left.contiguous hdb).end_eq fun c hc =>
    h.left.consistent.encodes c (List.mem_append_right _ hc)
  have h2 := (h.right.contiguous hdb).end_eq fun c hc =>
    h.right.consistent.encodes c (List.mem_append_right _ hc)
  rw [numbered_eq_of_strip h.same, ← h2] at h1
  exact Nat.succ_inj.mp h1

theorem defs_eq (h : Twins db log floor recs recs' d d') : d.defs = d'.defs :=
  h.left.frame.defs.trans h.right.frame.defs.symm

theorem conflicts_eq (h : Twins db log floor recs recs' d d') (q : QueuedEntry) (ks : List Bytes) :
    q.conflicts d.readView ks = q.conflicts d'.readView ks := by
  rw [Bool.eq_iff_iff, conflicts_iff h.left.consistent.wf, conflicts_iff h.right.consistent.wf]
  simp only [h.left.writtenAfter_iff, h.right.writtenAfter_iff, numbered_eq_of_strip h.same]

theorem streamed_eq (h : Twins db log floor recs recs' d d') : d.streamed = d'.streamed := by
  have hstream : (log ++ recs).map CommitRec.stream = (log ++ recs').map CommitRec.stream := by
    have hstrip : ∀ l : List CommitRec,
        l.map CommitRec.stream = (l.map CommitRec.strip).map CommitRec.stream := fun l => by
      rw [List.map_map]
      rfl
    rw [List.map_append, List.map_append, hstrip recs, hstrip recs', h.same]
  have hlen : recs.length = recs'.length := by simpa using congrArg List.length h.same
  rw [h.left.consistent.streamed_eq, h.right.consistent.streamed_eq, List.map_drop, List.map_drop,
    hstream, h.left.published, h.right.published]
  simp only [List.length_append, List.length_map, hlen]

theorem memContents_iff (h : Twins db log floor recs recs' d d') (hdb : Consistent db log floor)
    (x : Bytes × ℕ × ValueKind × Option Bytes) : x ∈ d.memContents ↔ x ∈ d'.memContents := by
  rw [h.left.mem_memContents hdb, h.right.mem_memContents hdb, numbered_eq_of_strip h.same]

end Twins

/-! ### The comparison -/

/-- Process chunks of entries as groups. -/
def Db.runGroups (opts : Options) : Db → List (List QueuedEntry) → Db × List (Except Error Unit)
  | db, [] => (db, [])
  | db, qs :: chunks =>
    let (db, rs) := db.commitGroup opts qs
    let (db, rs') := runGroups opts db chunks
    (db, rs ++ rs')

theorem runGroups_cons (opts : Options) (db : Db) (qs : List QueuedEntry)
    (chunks : List (List QueuedEntry)) :
    db.runGroups opts (qs :: chunks) = (((db.commitGroup opts qs).1.runGroups opts chunks).1,
      (db.commitGroup opts qs).2 ++ ((db.commitGroup opts qs).1.runGroups opts chunks).2) := rfl

/-- Every chunk is aligned in the state before it. -/
def AlignedRun (opts : Options) : Db → List (List QueuedEntry) → Prop
  | _, [] => True
  | db, qs :: chunks =>
    Walk.Aligned opts db (Walk.start db) qs ∧ AlignedRun opts (db.commitGroup opts qs).1 chunks

instance decidableAlignedRun (opts : Options) :
    (db : Db) → (chunks : List (List QueuedEntry)) → Decidable (AlignedRun opts db chunks)
  | _, [] => inferInstanceAs (Decidable True)
  | db, qs :: chunks =>
    have := decidableAlignedRun opts (db.commitGroup opts qs).1 chunks
    inferInstanceAs (Decidable (Walk.Aligned opts db (Walk.start db) qs ∧ _))

/-- Both paths tell the callers the same and leave the same data behind. -/
structure Refines (g r : Db × List (Except Error Unit)) : Prop where
  verdicts : g.2.map verdictOf = r.2.map verdictOf
  visible : g.1.visibleSeqno = r.1.visibleSeqno
  streamed : g.1.streamed = r.1.streamed
  contents : ∀ x, x ∈ g.1.memContents ↔ x ∈ r.1.memContents

theorem runDirect_append (opts : Options) (db : Db) (qs qs' : List QueuedEntry) :
    db.runDirect opts (qs ++ qs') =
      (((db.runDirect opts qs).1.runDirect opts qs').1,
        (db.runDirect opts qs).2 ++ ((db.runDirect opts qs).1.runDirect opts qs').2) := by
  induction qs generalizing db with
  | nil => rfl
  | cons q qs ih =>
    rw [List.cons_append, runDirect_cons, runDirect_cons, ih]
    rfl

theorem Walk.length_run (opts : Options) (db : Db) (path : Path) (w : Walk)
    (qs : List QueuedEntry) :
    (run opts db path w qs).length = qs.length := by
  induction qs generalizing w with
  | nil => rfl
  | cons q qs ih => exact congrArg (· + 1) (ih _)

namespace Twins

theorem run_eq (h : Twins db log floor recs recs' d d') (path : Path) (w : Walk)
    (qs : List QueuedEntry) :
    Walk.run opts d path w qs = Walk.run opts d' path w qs := by
  induction qs generalizing w with
  | nil => rfl
  | cons q qs ih =>
    have hanswer : Walk.answer opts d path w q = Walk.answer opts d' path w q := by
      unfold Walk.answer
      rw [h.conflicts_eq, applied_congr h.defs_eq]
    unfold Walk.run
    rw [hanswer, ih]

/-- **One chunk**: the verdicts agree exactly if it is aligned, and then the
stores stay twins. -/
theorem chunk (h : Twins db log floor recs recs' d d') (hdb : Consistent db log floor)
    (hsnap : ∀ q ∈ qs, q.SnapVisible db) (hsize : ∀ q ∈ qs, q.SizeDecided opts db) :
    ((d.commitGroup opts qs).2.map verdictOf = (d'.runDirect opts qs).2.map verdictOf ↔
        Walk.Aligned opts d (Walk.start d) qs) ∧
      (Walk.Aligned opts d (Walk.start d) qs → ∃ r r',
        Twins db log floor (recs ++ r) (recs' ++ r') (d.commitGroup opts qs).1
          (d'.runDirect opts qs).1) ∧
      (d.commitGroup opts qs).2.length = (d'.runDirect opts qs).2.length := by
  have hvis := h.visible_eq hdb
  have hsize₁ : ∀ q ∈ qs, q.SizeDecided opts d := fun q hq base => by
    rw [events_congr h.left.frame.defs]
    exact hsize q hq base
  have hsize₂ : ∀ q ∈ qs, q.SizeDecided opts d' := fun q hq base => by
    rw [events_congr h.right.frame.defs]
    exact hsize q hq base
  have hsnap₂ : ∀ q ∈ qs, q.SnapVisible d' := fun q hq v hv =>
    le_trans (hsnap q hq v hv) h.right.frame.visible_le
  -- both paths are walks from the same start
  obtain ⟨r, hext, hrecs, hverdicts⟩ := group_walk h.left.consistent hsize₁
  obtain ⟨r', hext', hrecs', hverdicts'⟩ :=
    direct_walk h.right.consistent (.start h.right.consistent) hsnap₂ hsize₂
  have hstart : Walk.start d' = Walk.start d := by
    unfold Walk.start
    rw [hvis]
  rw [hstart, ← h.run_eq] at hrecs' hverdicts'
  refine ⟨?_, fun haligned => ⟨r, r', h.left.trans hext, h.right.trans hext', ?_⟩, ?_⟩
  · rw [hverdicts, hverdicts', eq_comm]
    exact Walk.run_agree_iff
  · rw [List.map_append, List.map_append, h.same, hrecs, hrecs', Walk.recs_eq_of_aligned haligned]
  · have hlen := congrArg List.length hverdicts
    have hlen' := congrArg List.length hverdicts'
    simp only [List.length_map, Walk.length_run] at hlen hlen'
    rw [hlen, hlen']

/-- All chunks. -/
theorem chunks_iff {chunks : List (List QueuedEntry)} (h : Twins db log floor recs recs' d d')
    (hdb : Consistent db log floor) (hsnap : ∀ q ∈ chunks.flatten, q.SnapVisible db)
    (hsize : ∀ q ∈ chunks.flatten, q.SizeDecided opts db) :
    ((d.runGroups opts chunks).2.map verdictOf =
      (d'.runDirect opts chunks.flatten).2.map verdictOf ↔
        AlignedRun opts d chunks) ∧
      (AlignedRun opts d chunks → ∃ r r',
        Twins db log floor r r' (d.runGroups opts chunks).1
          (d'.runDirect opts chunks.flatten).1) := by
  induction chunks generalizing recs recs' d d' with
  | nil => exact ⟨iff_of_true rfl trivial, fun _ => ⟨recs, recs', h⟩⟩
  | cons qs chunks ih =>
    have hmem : ∀ q ∈ qs, q ∈ (qs :: chunks).flatten := fun q hq => List.mem_append_left _ hq
    have hmem' : ∀ q ∈ chunks.flatten, q ∈ (qs :: chunks).flatten :=
      fun q hq => List.mem_append_right _ hq
    obtain ⟨hverdicts, htwins, hlen⟩ := h.chunk hdb (fun q hq => hsnap q (hmem q hq))
      fun q hq => hsize q (hmem q hq)
    have hrest : Walk.Aligned opts d (Walk.start d) qs → _ ∧ _ := fun haligned => by
      obtain ⟨r, r', hnext⟩ := htwins haligned
      exact ih hnext (fun q hq => hsnap q (hmem' q hq)) fun q hq => hsize q (hmem' q hq)
    rw [List.flatten_cons, runDirect_append, runGroups_cons, List.map_append, List.map_append]
    refine ⟨⟨fun heq => ?_, fun haligned => ?_⟩, fun haligned => (hrest haligned.1).2 haligned.2⟩
    · obtain ⟨hhead, htail⟩ := List.append_inj heq (by rw [List.length_map, List.length_map, hlen])
      have haligned := hverdicts.mp hhead
      exact ⟨haligned, (hrest haligned).1.mp htail⟩
    · rw [hverdicts.mpr haligned.1]
      exact congrArg _ ((hrest haligned.1).1.mpr haligned.2)

end Twins

/-- **Group commit refines one-at-a-time commit** exactly on aligned runs: for
a reachable store and entries whose snapshots it has seen, in any chunking. -/
theorem group_refines_iff (h : (engine opts).Reachable e) (chunks : List (List QueuedEntry))
    (hsnap : ∀ q ∈ chunks.flatten, q.SnapVisible e.db)
    (hsize : ∀ q ∈ chunks.flatten, q.SizeDecided opts e.db) :
    Refines (e.db.runGroups opts chunks) (e.db.runDirect opts chunks.flatten) ↔
      AlignedRun opts e.db chunks := by
  have hdb := (inv_of_reachable h).consistent
  have htwins : Twins e.db e.log e.floor [] [] e.db e.db := ⟨.refl hdb, .refl hdb, rfl⟩
  obtain ⟨hverdicts, hend⟩ := htwins.chunks_iff hdb hsnap hsize
  refine ⟨fun hrefines => hverdicts.mp hrefines.verdicts, fun haligned => ?_⟩
  obtain ⟨r, r', hlast⟩ := hend haligned
  exact ⟨hverdicts.mpr haligned, hlast.visible_eq hdb, hlast.streamed_eq, hlast.memContents_iff hdb⟩

/-- Chunks of one entry each are aligned. -/
theorem group_refines_singletons : ∃ e : Engine,
    (engine (.default plainFormat)).Reachable e ∧ e.queue.length = 2 ∧
      Refines (e.db.runGroups (.default plainFormat) (e.queue.map fun q => [q]))
        (e.db.runDirect (.default plainFormat) (e.queue.map fun q => [q]).flatten) := by
  have hrun : ((engine (.default plainFormat)).run touchThenDrain
      (engine (.default plainFormat)).init).any (fun e => decide (e.queue.length = 2 ∧
        (∀ q ∈ (e.queue.map fun q => [q]).flatten, q.SnapVisible e.db) ∧
        AlignedRun (.default plainFormat) e.db (e.queue.map fun q => [q]))) = true := by
          decide +kernel
  obtain ⟨e, hreach, hlen, hsnap, haligned⟩ := System.exists_reachable hrun
  refine ⟨e, hreach, hlen, (group_refines_iff hreach _ hsnap fun q _ base => ?_).mpr haligned⟩
  exact recordDecided_of_threshold (by decide) _

/-- A touch and the drain of its event in one group: both are accepted, while
one at a time the drain is refused. -/
theorem group_not_refines : ¬ ∀ (opts : Options) (e : Engine) (chunks : List (List QueuedEntry)),
    (engine opts).Reachable e → (∀ q ∈ chunks.flatten, q.SnapVisible e.db) →
      Refines (e.db.runGroups opts chunks) (e.db.runDirect opts chunks.flatten) := by
  intro hall
  have hrun : ((engine (.default plainFormat)).run touchThenDrain
      (engine (.default plainFormat)).init).any
      (fun e => decide ((∀ q ∈ [e.queue].flatten, q.SnapVisible e.db) ∧
        (e.db.runGroups (.default plainFormat) [e.queue]).2.map verdictOf ≠
          (e.db.runDirect (.default plainFormat) [e.queue].flatten).2.map verdictOf)) = true := by
    decide +kernel
  obtain ⟨e, hreach, hsnap, hne⟩ := System.exists_reachable hrun
  exact hne (hall _ e [e.queue] hreach hsnap).verdicts

end Fluent31
