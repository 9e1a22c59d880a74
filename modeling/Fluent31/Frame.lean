/-
What an action does to the value log, the stream and the registrations.

`Moved a e e' recs` says it for every action but a reopen: the action commits
`recs`, offers exactly them to subscribers, places their values in the head file
it found, and may continue in a fresh one.

* `placeOps_fresh`, `groupOutcome_fresh` — placement points into the head file,
  and appends a record for every pointer it hands out;
* `moved_sched`, `moved_registration` — what the scheduler and the registrations do;
* `moved_step` — every action moves the engine.
-/
import Fluent31.Reads

namespace Fluent31

variable {opts : Options} {db db' : Db} {e e' : Engine}

/-! ### Placement -/

namespace Vlog

/-- The pointers of `es` lie in file `head`, and `v'` is longer than `v` when
there is one. -/
def Fresh (v v' : Vlog) (es : List EncEntry) : Prop :=
  ∀ x ∈ es, ∀ p, x.repr = .ptr p → p.file = v.headId ∧ v.records.length < v'.records.length

theorem placeOp_fresh (threshold : ℕ) (v : Vlog) (op : BatchOp) :
    v.records.length ≤ (v.placeOp threshold op).1.records.length ∧
      v.Fresh (v.placeOp threshold op).1 [(v.placeOp threshold op).2] := by
  cases op with
  | put key value =>
    by_cases h : threshold ≤ value.length
    · have hgrow : (v.append key value).2.records.length = v.records.length + 1 :=
        List.length_append
      rw [show v.placeOp threshold (.put key value) =
        ((v.append key value).2, ⟨.put, key, .ptr (v.append key value).1⟩) from if_pos h]
      refine ⟨hgrow ▸ Nat.le_succ _, fun x hx p hp => ?_⟩
      obtain rfl := List.mem_singleton.mp hx
      obtain rfl := ReprRef.ptr.inj hp
      exact ⟨rfl, hgrow ▸ Nat.lt_succ_self _⟩
    · rw [show v.placeOp threshold (.put key value) = (v, ⟨.put, key, .inline value⟩) from if_neg h]
      refine ⟨le_rfl, fun x hx p hp => ?_⟩
      obtain rfl := List.mem_singleton.mp hx
      exact absurd hp (by simp)
  | delete key =>
    refine ⟨le_rfl, fun x hx p hp => ?_⟩
    obtain rfl := List.mem_singleton.mp hx
    exact absurd hp (by simp [placeOp])

theorem placeOps_fresh (threshold : ℕ) (v : Vlog) (ops : List BatchOp) :
    v.records.length ≤ (v.placeOps threshold ops).1.records.length ∧
      v.Fresh (v.placeOps threshold ops).1 (v.placeOps threshold ops).2 := by
  induction ops generalizing v with
  | nil => exact ⟨le_rfl, fun x hx => absurd hx List.not_mem_nil⟩
  | cons op ops ih =>
    obtain ⟨hop, hhead⟩ := placeOp_fresh threshold v op
    obtain ⟨hlen, hrest⟩ := ih (v.placeOp threshold op).1
    refine ⟨le_trans hop hlen, fun x hx p hp => ?_⟩
    rcases List.mem_cons.mp hx with hx | hx
    · obtain ⟨hfile, hlt⟩ := hhead x (hx ▸ List.mem_cons_self) p hp
      exact ⟨hfile, lt_of_lt_of_le hlt hlen⟩
    · obtain ⟨hfile, hlt⟩ := hrest x hx p hp
      exact ⟨hfile.trans (v.placeOp_spec threshold op).2.1, lt_of_le_of_lt hop hlt⟩

theorem groupPhase1_fresh (threshold : ℕ) (v : Vlog)
    (accepted : List (Except Error (ℕ × List BatchOp))) :
    v.records.length ≤ (Db.groupPhase1 threshold v accepted).1.records.length ∧
      ∀ r, .ok r ∈ (Db.groupPhase1 threshold v accepted).2 →
        v.Fresh (Db.groupPhase1 threshold v accepted).1 r.2 := by
  induction accepted generalizing v with
  | nil => exact ⟨le_rfl, fun r hr => absurd hr List.not_mem_nil⟩
  | cons a accepted ih =>
    cases a with
    | error err =>
      obtain ⟨hlen, hfresh⟩ := ih v
      exact ⟨hlen, fun r hr => hfresh r ((List.mem_cons.mp hr).resolve_left (by simp))⟩
    | ok batch =>
      obtain ⟨base, ops⟩ := batch
      obtain ⟨hlen, hfresh⟩ := ih (v.placeOps threshold ops).1
      obtain ⟨hops, hplaced⟩ := placeOps_fresh threshold v ops
      have hhead := (v.placeOps_spec threshold ops).2.1
      refine ⟨le_trans hops hlen, fun r hr x hx p hp => ?_⟩
      rcases List.mem_cons.mp hr with hr | hr
      · obtain rfl := Except.ok.inj hr
        obtain ⟨hfile, hlt⟩ := hplaced x hx p hp
        exact ⟨hfile, lt_of_lt_of_le hlt hlen⟩
      · obtain ⟨hfile, hlt⟩ := hfresh r hr x hx p hp
        exact ⟨hfile.trans hhead, lt_of_le_of_lt hops hlt⟩

end Vlog

theorem mem_groupPhase3 {placed : List (Except Error (ℕ × List EncEntry))} {r : ℕ × List EncEntry}
    (h : .ok r ∈ Db.groupPhase3 placed) : .ok r ∈ placed := by
  induction placed with
  | nil => exact h
  | cons a placed ih =>
    cases a with
    | error err => exact List.mem_cons_of_mem _ (ih ((List.mem_cons.mp h).resolve_left (by simp)))
    | ok batch =>
      unfold Db.groupPhase3 at h
      split at h
      · rcases List.mem_cons.mp h with h | h
        · exact absurd h (by simp)
        · obtain ⟨q, -, hq⟩ := List.mem_map.mp h
          cases q <;> exact absurd hq (by simp [Except.bind])
      · rcases List.mem_cons.mp h with h | h
        · exact h ▸ List.mem_cons_self
        · exact List.mem_cons_of_mem _ (ih h)

theorem groupOutcome_fresh (opts : Options) (db : Db) (batches : List (List BatchOp × Bool)) :
    ∀ r, .ok r ∈ (db.groupOutcome opts batches).2 →
      db.vlog.Fresh (db.groupOutcome opts batches).1 r.2 :=
  fun r hr => (Vlog.groupPhase1_fresh opts.valueThreshold db.vlog _).2 r (mem_groupPhase3 hr)

/-- The value log after the commits `recs`: their values lie in the head file
that was found, and a rotation continues in a file with a new number. -/
structure Placed (db db' : Db) (recs : List CommitRec) : Prop where
  fresh : ∀ c ∈ recs, db.vlog.Fresh db'.vlog c.entries
  kept : ∀ r ∈ db.vlog.records, r ∈ db'.vlog.records
  grown : ∀ r ∈ db'.vlog.records, r ∈ db.vlog.records ∨ r.ptr.file = db.vlog.headId
  head : db'.vlog.headId = db.vlog.headId ∨ db.nextFileId ≤ db'.vlog.headId

theorem Placed.of_eq (hrecords : db'.vlog = db.vlog) : Placed db db' [] where
  fresh := fun c hc => absurd hc List.not_mem_nil
  kept := fun r hr => hrecords ▸ hr
  grown := fun r hr => Or.inl (hrecords ▸ hr)
  head := Or.inl (by rw [hrecords])

theorem Placed.rotateAfterWrite {recs : List CommitRec} (h : Placed db db' recs)
    (hnext : db.nextFileId ≤ db'.nextFileId) : Placed db (db'.rotateAfterWrite opts) recs := by
  obtain ⟨mid, hmid, hvlog, hle⟩ : ∃ mid,
      (mid = if opts.memtableSize ≤ db'.mem.approximateBytes then
      db'.rotateMemtableLocked else db') ∧ mid.vlog = db'.vlog ∧
        db'.nextFileId ≤ mid.nextFileId := by
    refine ⟨_, rfl, ?_⟩
    split
    · exact ⟨rfl, Nat.le_succ _⟩
    · exact ⟨rfl, le_rfl⟩
  have hsame : ∀ d : Db, d.vlog.records = db'.vlog.records →
      (d.vlog.headId = db.vlog.headId ∨ db.nextFileId ≤ d.vlog.headId) → Placed db d recs := by
    intro d hrecords hhead
    refine ⟨fun c hc x hx p hp => ?_, fun r hr => hrecords ▸ h.kept r hr,
      fun r hr => h.grown r (hrecords ▸ hr), hhead⟩
    rw [hrecords]
    exact h.fresh c hc x hx p hp
  unfold Db.rotateAfterWrite
  rw [← hmid]
  simp only
  split
  · exact hsame mid.rotateVlogLocked (show mid.vlog.records = _ from congrArg Vlog.records hvlog)
      (Or.inr (le_trans hnext hle))
  · exact hsame _ (congrArg Vlog.records hvlog) (hvlog ▸ h.head)

/-- What a commit step adds to a consistent store. -/
structure Adds (e e' : Engine) (recs : List CommitRec) : Prop where
  log : e'.log = e.log ++ recs
  extended : Extends e.db e.log e.floor recs e'.db
  placed : Placed e.db e'.db recs

/-- The direct path. -/
theorem placed_applyLocked (opts : Options) (db : Db) (q : QueuedEntry) :
    (∀ err, (db.applyLocked opts q.ops q.capture).2 = .error err →
        Placed db (db.applyLocked opts q.ops q.capture).1 []) ∧
      ((db.applyLocked opts q.ops q.capture).2 = .ok () →
        Placed db (db.applyLocked opts q.ops q.capture).1 [recOf opts db q]) := by
  have hfresh := (Vlog.placeOps_fresh opts.valueThreshold db.vlog
    (q.ops ++ db.captureEvents opts q.ops (db.visibleSeqno + 1) q.capture)).2
  have hgrown := placeOps_files opts.valueThreshold db.vlog
    (q.ops ++ db.captureEvents opts q.ops (db.visibleSeqno + 1) q.capture)
  obtain ⟨hkept, hhead, -, -⟩ := Vlog.placeOps_spec opts.valueThreshold db.vlog
    (q.ops ++ db.captureEvents opts q.ops (db.visibleSeqno + 1) q.capture)
  rcases applyLocked_cases opts db q.ops q.capture with ⟨err, heq⟩ | ⟨err, heq⟩ | ⟨-, heq⟩
  · rw [heq]
    exact ⟨fun _ _ => .of_eq rfl, fun h => absurd h (by simp)⟩
  · rw [heq]
    refine ⟨fun _ _ => ⟨fun c hc => absurd hc List.not_mem_nil, hkept, hgrown, Or.inl hhead⟩,
      fun h => absurd h (by simp)⟩
  · rw [heq]
    refine ⟨fun err h => absurd h (by simp), fun _ => Placed.rotateAfterWrite ?_ le_rfl⟩
    refine ⟨fun c hc => ?_, hkept, hgrown, Or.inl hhead⟩
    obtain rfl := List.mem_singleton.mp hc
    exact hfresh

theorem adds_applyLocked (opts : Options) (h : Consistent e.db e.log e.floor) {q : QueuedEntry}
    (hne : q.ops ≠ []) :
    (∃ err, (e.db.applyLocked opts q.ops q.capture).2 = .error err ∧
        Adds e (e.committed (e.db.applyLocked opts q.ops q.capture).1 []) []) ∨
      ((e.db.applyLocked opts q.ops q.capture).2 = .ok () ∧
        Adds e (e.committed (e.db.applyLocked opts q.ops q.capture).1 [recOf opts e.db q])
          [recOf opts e.db q]) := by
  obtain ⟨herror, hok⟩ := placed_applyLocked opts e.db q
  rcases applyLocked_spec opts h hne with ⟨err, hres, hext⟩ | ⟨hres, hext⟩
  · exact Or.inl ⟨err, hres, rfl, hext, herror err hres⟩
  · exact Or.inr ⟨hres, rfl, hext, hok hres⟩

theorem adds_nil (h : Consistent e.db e.log e.floor) : Adds e e [] :=
  ⟨(List.append_nil _).symm, .refl h, .of_eq rfl⟩

theorem adds_commit (opts : Options) (h : Consistent e.db e.log e.floor) (q : QueuedEntry) :
    ∃ recs, Adds e (e.commit opts q) recs := by
  unfold Engine.commit
  rcases commitDirect_cases opts e.db q with ⟨heq, -⟩ | ⟨heq, -, hops⟩ | ⟨heq, -, hops⟩
  · rw [heq]
    exact ⟨[], rfl, .refl h, .of_eq rfl⟩
  · rw [heq, hops]
    exact ⟨[], rfl, .refl h, .of_eq rfl⟩
  · rw [heq]
    rcases adds_applyLocked opts h hops with ⟨err, hres, hadds⟩ | ⟨hres, hadds⟩
    · simp only [hres]
      exact ⟨[], hadds⟩
    · have hempty : q.ops.isEmpty = false := by simpa using hops
      simp only [hres, hempty]
      exact ⟨_, hadds⟩

/-- One relocation batch. -/
theorem adds_relocate (opts : Options) (h : Consistent e.db e.log e.floor)
    (records : List VlogRecord) :
    ∃ recs, Adds e (e.relocate opts records) recs := by
  unfold Engine.relocate
  simp only
  split
  · exact ⟨[], adds_nil h⟩
  · rename_i hempty
    have hops : (⟨relocationOps e.db records, none, false⟩ : QueuedEntry).ops ≠ [] := by
      simpa using hempty
    rcases adds_applyLocked opts h hops with ⟨err, hres, hadds⟩ | ⟨hres, hadds⟩
    · simp only [hres]
      exact ⟨[], hadds⟩
    · simp only [hres]
      exact ⟨_, hadds⟩

/-- The group path. -/
theorem placed_commitGroup (opts : Options) (db : Db) (included : List QueuedEntry) :
    Placed db (db.applyGroupLocked opts (included.map QueuedEntry.batch)).1
      (groupRecs opts db included (db.groupOutcome opts (included.map QueuedEntry.batch)).2) := by
  have hfresh := groupOutcome_fresh opts db (included.map QueuedEntry.batch)
  obtain ⟨⟨hkept, hhead, -, hgrown⟩, -⟩ := groupOutcome_spec opts db included
  -- adding the batches touches no file
  have hadd : ∀ (appended : List (ℕ × List EncEntry)) (d : Db),
      (appended.foldl (fun db r => db.addBatch r.1 r.2) d).vlog = d.vlog ∧
        (appended.foldl (fun db r => db.addBatch r.1 r.2) d).nextFileId = d.nextFileId := by
    intro appended
    induction appended with
    | nil => exact fun d => ⟨rfl, rfl⟩
    | cons r rest ih => exact fun d => ih (d.addBatch r.1 r.2)
  unfold Db.applyGroupLocked
  simp only
  generalize db.groupOutcome opts (included.map QueuedEntry.batch) =
    outcome at hfresh hkept hhead hgrown ⊢
  obtain ⟨hvlog, hnext⟩ := hadd (outcome.2.filterMap Except.toOption) { db with vlog := outcome.1 }
  have hplaced : Placed db
      ((outcome.2.filterMap Except.toOption).foldl (fun db r => db.addBatch r.1 r.2)
      { db with vlog := outcome.1 }) (groupRecs opts db included outcome.2) := by
    refine ⟨fun c hc => ?_, hvlog ▸ hkept, hvlog ▸ hgrown, Or.inl (hvlog ▸ hhead)⟩
    obtain ⟨⟨q, r⟩, hmem, hr⟩ := List.mem_filterMap.mp hc
    obtain ⟨x, hx, rfl⟩ := Option.map_eq_some_iff.mp hr
    have hok : (.ok x : Except Error _) ∈ outcome.2 := by
      cases r with
      | error err => exact absurd hx (by simp [Except.toOption])
      | ok y => exact (Option.some_inj.mp hx) ▸ (List.of_mem_zip hmem).2
    rw [hvlog]
    exact hfresh x hok
  rw [foldl_addBatch]
  split
  · exact hplaced
  · exact hplaced.rotateAfterWrite (le_of_eq hnext.symm)

theorem adds_group (opts : Options) (h : Consistent e.db e.log e.floor) (n : ℕ) :
    ∃ recs, Adds e (e.group opts n) recs := by
  refine ⟨_, rfl, commitGroup_spec opts h (e.queue.take n), ?_⟩
  show Placed e.db (e.db.commitGroup opts (e.queue.take n)).1 _
  unfold Db.commitGroup
  simp only
  split
  · rename_i hempty
    have hnil : includedEntries (validateGroup e.db.readView [] (e.queue.take n))
        (e.queue.take n) = [] := by
      simpa using hempty
    rw [hnil]
    exact .of_eq rfl
  · exact placed_commitGroup opts e.db _

/-! ### Every action -/

/-- The registered seqno an action takes from its holder. -/
def Action.consumes : Action → Option ℕ
  | .enqueue sub => sub.snap?
  | .advance pinned _ => some pinned
  | .release seq => some seq
  | _ => none

/-- The scheduler's steps. -/
def Action.schedules : Action → Bool
  | .schedPreempt | .schedSchedule | .schedStart | .schedSlice => true
  | _ => false

/-- Steps that register a seqno, move a registration or give it up. -/
def Action.registers : Action → Bool
  | .snapshot | .snapshotAt _ | .snapshotFlushed | .advance _ _ | .release _ | .pin _
  | .unpin _ => true
  | _ => false

structure Moved (a : Action) (e e' : Engine) (recs : List CommitRec) : Prop where
  log : e'.log = e.log ++ recs
  published : e'.db.published = e.db.published ++ recs.map CommitRec.batch
  placed : Placed e.db e'.db recs
  next_le : e.db.nextFileId ≤ e'.db.nextFileId
  flushed_le : e.db.manifest.lastFlushedSeqno ≤ e'.db.manifest.lastFlushedSeqno
  visible_le : e.db.visibleSeqno ≤ e'.db.visibleSeqno
  /-- No registration below a flushed bound of all the others. -/
  snapshots : ∀ b ≤ e.db.manifest.lastFlushedSeqno, (∀ s ∈ e.db.snapshots, b ≤ s) →
    ∀ s ∈ e'.db.snapshots, b ≤ s
  handles : ∀ s, e.handles.count s ≤ e'.handles.count s + if a.consumes = some s then 1 else 0

/-- A step of the write path. -/
theorem Adds.moved {a : Action} {recs : List CommitRec} (h : Adds e e' recs)
    (hhandles : ∀ s, e.handles.count s ≤ e'.handles.count s) : Moved a e e' recs where
  log := h.log
  published := h.extended.published
  placed := h.placed
  next_le := h.extended.frame.next_le
  flushed_le := by rw [h.extended.frame.manifest]
  visible_le := h.extended.frame.visible_le
  snapshots := fun b _ hs s hmem => hs s (h.extended.frame.snapshots ▸ hmem)
  handles := fun s => le_trans (hhandles s) (Nat.le_add_right _ _)

/-- A step that neither commits nor touches the value log. -/
theorem Moved.quiet {a : Action} (hlog : e'.log = e.log) (hpub : e'.db.published = e.db.published)
    (hvlog : e'.db.vlog = e.db.vlog) (hnext : e.db.nextFileId ≤ e'.db.nextFileId)
    (hflushed : e.db.manifest.lastFlushedSeqno ≤ e'.db.manifest.lastFlushedSeqno)
    (hvis : e'.db.visibleSeqno = e.db.visibleSeqno)
    (hsnap : ∀ s ∈ e'.db.snapshots, s ∈ e.db.snapshots ∨
      ∀ b ≤ e.db.manifest.lastFlushedSeqno, (∀ t ∈ e.db.snapshots, b ≤ t) → b ≤ s)
    (hhandles : ∀ s, e.handles.count s ≤ e'.handles.count s +
      if a.consumes = some s then 1 else 0) :
    Moved a e e' [] where
  log := by rw [hlog, List.append_nil]
  published := by rw [hpub, List.map_nil, List.append_nil]
  placed := .of_eq hvlog
  next_le := hnext
  flushed_le := hflushed
  visible_le := le_of_eq hvis.symm
  snapshots := fun b hb hs s hmem => (hsnap s hmem).elim (hs s) fun hbound => hbound b hb hs
  handles := hhandles

/-- A step of flushes and compactions: files and levels only. -/
theorem Moved.levels {a : Action} (hlog : e'.log = e.log) (hpub : e'.db.published = e.db.published)
    (hvlog : e'.db.vlog = e.db.vlog) (hnext : e.db.nextFileId ≤ e'.db.nextFileId)
    (hflushed : e.db.manifest.lastFlushedSeqno ≤ e'.db.manifest.lastFlushedSeqno)
    (hvis : e'.db.visibleSeqno = e.db.visibleSeqno) (hsnap : e'.db.snapshots = e.db.snapshots)
    (hhandles : e'.handles = e.handles) : Moved a e e' [] :=
  .quiet hlog hpub hvlog hnext hflushed hvis (fun _ hmem => Or.inl (hsnap ▸ hmem)) fun _ =>
    hhandles ▸ Nat.le_add_right _ _

/-- Registrations only. -/
theorem Moved.registered {a : Action} {snapshots handles : List ℕ} {pins : List (Bytes × ℕ)}
    (hsnap : ∀ s ∈ snapshots, s ∈ e.db.snapshots ∨
      ∀ b ≤ e.db.manifest.lastFlushedSeqno, (∀ t ∈ e.db.snapshots, b ≤ t) → b ≤ s)
    (hhandles : ∀ s, e.handles.count s ≤ handles.count s + if a.consumes = some s then 1 else 0) :
    Moved a e { e with
      db := { e.db with snapshots := snapshots, manifest := { e.db.manifest with pins := pins } }
      handles := handles } [] :=
  .quiet rfl rfl rfl le_rfl le_rfl rfl hsnap hhandles

/-- A registration at `seq`, in the hands of its caller or pinned. -/
theorem Moved.register {a : Action} {seq : ℕ} {handles : List ℕ} {pins : List (Bytes × ℕ)}
    (hbound : ∀ b ≤ e.db.manifest.lastFlushedSeqno, (∀ t ∈ e.db.snapshots, b ≤ t) → b ≤ seq)
    (hhandles : e.handles.Sublist handles) :
    Moved a e { e with
      db := { e.db with
        snapshots := seq :: e.db.snapshots
        manifest := { e.db.manifest with pins := pins } }
      handles := handles } [] := by
  refine .registered (fun s hmem => ?_) fun s =>
    le_trans (hhandles.count_le s) (Nat.le_add_right _ _)
  rcases List.mem_cons.mp hmem with rfl | hmem
  · exact Or.inr hbound
  · exact Or.inl hmem

/-- A handle that a step takes is one it names. -/
theorem count_le_erase (handles : List ℕ) (seq s : ℕ) :
    handles.count s ≤ (handles.erase seq).count s + if some seq = some s then 1 else 0 := by
  rw [List.count_erase]
  simp only [Option.some.injEq, beq_iff_eq]
  split <;> omega

/-- An accepted registration is not below a flushed bound of the others. -/
theorem tryRegister_bound (h : db.WF) {seq : ℕ} (hr : db.tryRegisterSnapshotAt seq = .ok db') :
    ∀ b ≤ db.manifest.lastFlushedSeqno, (∀ t ∈ db.snapshots, b ≤ t) → b ≤ seq := by
  intro b hb hall
  have hflushed := h.flushed_le
  unfold Db.tryRegisterSnapshotAt at hr
  split at hr
  · exact absurd hr (by simp)
  · simp only at hr
    split at hr
    · exact absurd hr (by simp)
    · rename_i hwm
      cases hmin : db.snapshots.min? with
      | none =>
        rw [hmin, Option.getD_none] at hwm
        omega
      | some m =>
        rw [hmin, Option.getD_some] at hwm
        have := hall m (List.min?_eq_some_iff.mp hmin).1
        omega

theorem moved_sched (h : e.Inv) {a : Action} (hs : e.step opts a = some e')
    (ha : a.schedules = true) : Moved a e e' [] := by
  cases a with
  | schedPreempt =>
    obtain ⟨s, -, hs⟩ := Option.bind_eq_some_iff.mp hs
    obtain ⟨r, -, rfl⟩ := Option.map_eq_some_iff.mp hs
    exact .levels rfl rfl rfl le_rfl le_rfl rfl rfl rfl
  | schedSchedule =>
    obtain ⟨s, hsched, hs⟩ := Option.bind_eq_some_iff.mp hs
    obtain ⟨⟨s', db'⟩, hp, rfl⟩ := Option.map_eq_some_iff.mp hs
    obtain ⟨-, rfl | rfl⟩ := (h.sched s hsched).schedule h.consistent.tree hp
    · exact .levels rfl rfl rfl le_rfl le_rfl rfl rfl rfl
    · exact .levels rfl rfl rfl (Nat.le_succ _) le_rfl rfl rfl rfl
  | schedStart =>
    obtain ⟨s, -, hs⟩ := Option.bind_eq_some_iff.mp hs
    obtain ⟨⟨s', db'⟩, hstart, rfl⟩ := Option.map_eq_some_iff.mp hs
    obtain ⟨job, -, -, rfl, rfl⟩ | ⟨level, inputs, -, -, rfl, rfl⟩ := Scheduler.start_cases hstart
    · exact .levels rfl rfl rfl (Nat.le_succ _) le_rfl rfl rfl rfl
    · exact .levels rfl rfl rfl le_rfl le_rfl rfl rfl rfl
  | schedSlice =>
    obtain ⟨s, hsched, hs⟩ := Option.bind_eq_some_iff.mp hs
    obtain ⟨⟨s', db'⟩, hslice, rfl⟩ := Option.map_eq_some_iff.mp hs
    obtain ⟨j, j', id, -, -, -, -, hnext, ⟨rfl, rfl, -⟩ | ⟨tables, rfl, rfl, -⟩⟩ :=
      (h.sched s hsched).slice_cases hslice
    · exact .levels rfl rfl rfl hnext le_rfl rfl rfl rfl
    · exact .levels rfl rfl rfl hnext le_rfl rfl rfl rfl
  | _ => exact absurd ha Bool.false_ne_true

theorem moved_registration (h : e.Inv) {a : Action} (hs : e.step opts a = some e')
    (ha : a.registers = true) : Moved a e e' [] := by
  have hflushed := h.consistent.wf.flushed_le
  cases a with
  | snapshot =>
    obtain rfl := Option.some_inj.mp hs
    exact .register (fun b hb _ => le_trans hb hflushed) (List.sublist_cons_self _ _)
  | snapshotAt seq =>
    obtain ⟨db', hdb, rfl⟩ := Option.map_eq_some_iff.mp hs
    have hok : e.db.tryRegisterSnapshotAt seq = .ok db' := by
      cases hr : e.db.tryRegisterSnapshotAt seq with
      | error err => rw [hr] at hdb; exact absurd hdb (by simp [Except.toOption])
      | ok d => rw [hr] at hdb; exact congrArg _ (Option.some_inj.mp hdb)
    have hbound := tryRegister_bound h.consistent.wf hok
    obtain ⟨rfl, -⟩ := h.accepted hok
    exact .register hbound (List.sublist_cons_self _ _)
  | snapshotFlushed =>
    obtain rfl := Option.some_inj.mp hs
    exact .register (fun b hb _ => hb) (List.sublist_cons_self _ _)
  | advance pinned last =>
    obtain ⟨⟨hmem, hle, -⟩, rfl⟩ := Engine.guarded_eq_some hs
    have hpinned : pinned ∈ e.db.snapshots := h.snapshots.mem_iff.mpr (List.mem_append_left _ hmem)
    refine .registered (fun s hs => ?_) fun s =>
      le_trans ((List.sublist_cons_self last e.handles).count_le s) (count_le_erase _ pinned s)
    -- the registration at `last` is not below the one it takes the place of
    rcases List.mem_cons.mp (List.mem_of_mem_erase hs) with rfl | hs
    · exact Or.inr fun b _ hb => le_trans (hb pinned hpinned) hle
    · exact Or.inl hs
  | release seq =>
    obtain ⟨-, rfl⟩ := Engine.guarded_eq_some hs
    exact .registered (fun _ hs => Or.inl (List.mem_of_mem_erase hs)) (count_le_erase _ seq)
  | pin name =>
    obtain ⟨db', hdb, rfl⟩ := Option.map_eq_some_iff.mp hs
    unfold Db.pin at hdb
    split at hdb
    · exact absurd hdb (by simp [Except.toOption])
    · obtain rfl := Option.some_inj.mp hdb
      exact .register (fun b hb _ => le_trans hb hflushed) (.refl _)
  | unpin name =>
    obtain ⟨db', hdb, rfl⟩ := Option.map_eq_some_iff.mp hs
    unfold Db.unpin at hdb
    split at hdb
    · exact absurd hdb (by simp [Except.toOption])
    · obtain rfl := Option.some_inj.mp hdb
      exact .registered (fun _ hs => Or.inl (List.mem_of_mem_erase hs)) fun _ =>
        Nat.le_add_right _ _
  | _ => exact absurd ha Bool.false_ne_true

/-- **Every action but a reopen** moves the engine. -/
theorem moved_step (h : e.Inv) {a : Action} (hs : e.step opts a = some e')
    (hopen : ∀ n orphan, a ≠ .reopen n orphan) : ∃ recs, Moved a e e' recs := by
  cases a with
  | reopen n orphan => exact absurd rfl (hopen n orphan)
  | commit sub =>
    obtain ⟨-, rfl⟩ := Engine.guarded_eq_some hs
    obtain ⟨recs, hadds⟩ := adds_commit opts h.consistent sub.entry
    obtain ⟨clears, heq⟩ := Engine.finishTask_eq (e.commit opts sub.entry) sub
    have hhandles : (e.commit opts sub.entry).handles = e.handles := by
      obtain ⟨recs', hcommit⟩ := Engine.commit_eq opts e sub.entry
      rw [hcommit]
      rfl
    rw [heq]
    exact ⟨recs, (Adds.moved ⟨hadds.log, hadds.extended, hadds.placed⟩ fun s =>
      le_of_eq (congrArg (List.count s) hhandles.symm))⟩
  | group n =>
    -- the transactions of the chunk go back to their clients
    obtain ⟨-, rfl⟩ := Engine.guarded_eq_some hs
    obtain ⟨recs, hadds⟩ := adds_group opts h.consistent n
    exact ⟨recs, hadds.moved fun s => (List.sublist_append_right _ _).count_le s⟩
  | relocate records =>
    obtain ⟨-, rfl⟩ := Engine.guarded_eq_some hs
    obtain ⟨recs, hadds⟩ := adds_relocate opts h.consistent records
    refine ⟨recs, hadds.moved fun s => ?_⟩
    rcases Engine.relocate_eq opts e records with heq | ⟨recs', heq⟩
    · rw [heq]
    · rw [heq]
      exact le_rfl
  | enqueue sub =>
    obtain ⟨-, rfl⟩ := Engine.guarded_eq_some hs
    obtain ⟨clears, heq⟩ := Engine.finishTask_eq _ sub
    rw [heq]
    refine ⟨[], .quiet rfl rfl rfl le_rfl le_rfl rfl (fun s hmem => Or.inl hmem) fun s => ?_⟩
    show _ ≤ List.count s _ + if sub.snap? = some s then 1 else 0
    cases sub.snap? with
    | none => exact Nat.le_add_right _ _
    | some t => exact count_le_erase e.handles t s
  | withdraw i =>
    obtain ⟨q, -, rfl⟩ := Option.map_eq_some_iff.mp hs
    exact ⟨[], .quiet rfl rfl rfl le_rfl le_rfl rfl (fun s hmem => Or.inl hmem) fun s =>
      le_trans ((List.sublist_append_right _ _).count_le s) (Nat.le_add_right _ _)⟩
  | rotate =>
    obtain rfl := Option.some_inj.mp hs
    refine ⟨[], ?_⟩
    show Moved _ e { e with db := e.db.forceRotate } []
    unfold Db.forceRotate
    split
    · exact .levels rfl rfl rfl le_rfl le_rfl rfl rfl rfl
    · exact .levels rfl rfl rfl (Nat.le_succ _) le_rfl rfl rfl rfl
  | flush =>
    obtain ⟨⟨db', did⟩, hf, rfl⟩ := Option.map_eq_some_iff.mp hs
    refine ⟨[], ?_⟩
    rcases Db.flushOne_cases hf with
      ⟨-, rfl⟩ | ⟨imm, -, ⟨-, rfl⟩ | ⟨run, maxSeq, next, hbuild, rfl⟩⟩
    · exact .levels rfl rfl rfl le_rfl le_rfl rfl rfl rfl
    · exact .levels rfl rfl rfl le_rfl le_rfl rfl rfl rfl
    · have hnext := (buildRunFromMem_spec hbuild).2.2.2.1
      exact .levels rfl rfl rfl (le_of_lt hnext) (le_max_left _ _) rfl rfl rfl
  | schedBegin force | clearLook name | clearRead name | createTrigger d | deleteTrigger name
  | deleteDone =>
    obtain ⟨-, rfl⟩ := Engine.guarded_eq_some hs
    exact ⟨[], .levels rfl rfl rfl le_rfl le_rfl rfl rfl rfl⟩
  | schedExit =>
    obtain rfl := Option.some_inj.mp hs
    exact ⟨[], .levels rfl rfl rfl le_rfl le_rfl rfl rfl rfl⟩
  | schedPreempt | schedSchedule | schedStart | schedSlice => exact ⟨[], moved_sched h hs rfl⟩
  | snapshot | snapshotAt seq | snapshotFlushed | advance pinned last | release seq | pin name
  | unpin name => exact ⟨[], moved_registration h hs rfl⟩

end Fluent31
