/-
The invariant of the engine.

`Engine.Inv` holds in the first state and survives every action
(`inv_step`), so it holds in every reachable state (`inv_of_reachable`): the
store is consistent with the log, the scheduler's jobs fit the tree, and every
registered snapshot lies between the collection floor and the visible seqno.
The registered snapshots are exactly those of the live handles, of the pins and
of the queued transactions, so a registration counts until it is released.
-/
import Fluent31.Reopen
import Mathlib.Data.List.Perm.Basic

namespace Fluent31

open Ordered Mvcc

namespace Engine

/-- The seqnos queued transactions hold registered. -/
def queueSnaps (e : Engine) : List ℕ := e.queue.filterMap fun q => q.validate.map Prod.fst

/-- The live registrations. -/
def registered (e : Engine) : List ℕ :=
  e.handles ++ (e.db.manifest.pins.map Prod.snd ++ e.queueSnaps)

structure Inv (e : Engine) : Prop where
  consistent : Consistent e.db e.log e.floor
  sched : ∀ s ∈ e.sched, s.WF e.db e.floor
  snapshots : e.db.snapshots.Perm e.registered
  retained : ∀ s ∈ e.db.snapshots, e.floor ≤ s ∧ s ≤ e.db.visibleSeqno

end Engine

variable {opts : Options} {db db' : Db} {log : List CommitRec} {floor : ℕ} {e e' : Engine}

/-- Snapshots, pins and the registry do not touch the data. -/
theorem Consistent.relabel (h : Consistent db log floor) (snapshots : List ℕ)
    (pins : List (Bytes × ℕ)) (defs : List TriggerDef) :
    Consistent ({ db with
      snapshots := snapshots
      defs := defs
      manifest := { db.manifest with pins := pins } } : Db) log floor :=
  ⟨{ h.wf with recent := h.wf.recent }, h.numbered, h.encodes, h.published, h.retains, h.floor_le⟩

theorem wf_init (opts : Options) : (Db.init opts).WF := by
  have hruns : (Db.init opts).version.runsNewestFirst = [] := by
    show (List.replicate (max opts.maxLevels 1) ([] : List Run)).flatten = []
    simp
  have htables : ∀ e, e ∉ (Db.init opts).tableVersions := fun e he => by
    unfold Db.tableVersions at he
    rw [hruns] at he
    exact absurd he List.not_mem_nil
  have hsources : (Db.init opts).readView.sources = [.mem (Memtable.new 2)] := by
    show [Source.mem (Memtable.new 2)] ++ (Db.init opts).version.runsNewestFirst.map Source.run = _
    rw [hruns]
    rfl
  -- every part is empty but the head file 1 and the WAL 2
  refine
    { recent := ⟨?_, fun r hr => ?_⟩
      tables_le := fun e he => absurd he (htables e)
      flushed_le := le_rfl
      visible_lt := show (0 : ℕ) < 2 ^ 56 - 1 by decide
      replay := rfl
      covers_sealed := .nil
      covers_wal := ⟨rfl, fun e => by simp [Db.init, Wal.versions]⟩
      floor_le := le_rfl
      wals_sorted := List.pairwise_singleton _ _
      wal_lt := show 2 < 3 by decide
      vlog := ⟨.nil, show 1 < 3 by decide, fun r hr => absurd hr List.not_mem_nil,
        fun r hr => absurd hr List.not_mem_nil⟩
      vlogs := fun r hr => absurd hr List.not_mem_nil
      head := List.mem_singleton_self _
      vlogs_lt := fun id hid => by
        rw [List.mem_singleton.mp hid]
        exact show 1 < 3 by decide
      runs_nodup := by
        rw [hruns]
        exact .nil
      runs_lt := fun r hr => ?_
      next_le := le_rfl
      levels := ?_ }
  · rw [hsources]
    exact List.pairwise_singleton _ _
  · rw [show (Db.init opts).readView.version.runsNewestFirst = [] from hruns] at hr
    exact absurd hr List.not_mem_nil
  · rw [hruns] at hr
    exact absurd hr List.not_mem_nil
  · show List.replicate (max opts.maxLevels 1) ([] : List Run) ≠ []
    intro hnil
    have := congrArg List.length hnil
    simp at this

theorem stored_init (opts : Options) (e : Entry) : e ∉ (Db.init opts).stored := fun he => by
  rcases (wf_init opts).mem_stored_iff.mp he with he | he
  · exact absurd he (by simp [Db.init, Db.replayable])
  · have hruns : (Db.init opts).version.runsNewestFirst = [] := by
      show (List.replicate (max opts.maxLevels 1) ([] : List Run)).flatten = []
      simp
    unfold Db.tableVersions at he
    rw [hruns] at he
    exact absurd he List.not_mem_nil

theorem inv_init (opts : Options) : (Engine.init opts).Inv where
  consistent :=
    ⟨wf_init opts, ⟨[], rfl, rfl⟩, fun c hc => absurd hc List.not_mem_nil, ⟨[], rfl⟩,
      ⟨fun e he => absurd he (stored_init opts e), fun e he => absurd he List.not_mem_nil⟩, le_rfl⟩
  sched := fun s hs => absurd hs (by simp [Engine.init])
  snapshots := .nil
  retained := fun s hs => absurd hs List.not_mem_nil

/-! ### Steps of the write path -/

/-- A step of the write path. -/
theorem Engine.Inv.write (h : e.Inv) (hframe : WriteFrame e.db e'.db)
    (hcons : Consistent e'.db e'.log e.floor) (hfloor : e'.floor = e.floor)
    (hsched : e'.sched = e.sched)
    (hreg : e'.db.manifest = e.db.manifest → e.registered.Perm e'.registered) :
    e'.Inv where
  consistent := hfloor ▸ hcons
  sched := fun s hs => (h.sched s (hsched ▸ hs)).frame hframe.levels hframe.next_le
    (le_of_eq hfloor.symm)
  snapshots := by
    rw [hframe.snapshots]
    exact h.snapshots.trans (hreg hframe.manifest)
  retained := fun s hs => by
    obtain ⟨h1, h2⟩ := h.retained s (hframe.snapshots ▸ hs)
    exact ⟨hfloor ▸ h1, le_trans h2 hframe.visible_le⟩

namespace Engine

theorem commit_eq (opts : Options) (e : Engine) (q : QueuedEntry) :
    ∃ recs, e.commit opts q = e.committed (e.db.commitDirect opts q).1 recs := by
  unfold commit
  simp only
  split
  · exact ⟨_, rfl⟩
  · exact ⟨_, rfl⟩

theorem relocate_eq (opts : Options) (e : Engine) (records : List VlogRecord) :
    e.relocate opts records = e ∨
      ∃ recs, e.relocate opts records =
        e.committed (e.db.applyLocked opts (relocationOps e.db records) false).1 recs := by
  unfold relocate
  simp only
  split
  · exact Or.inl rfl
  · split
    · exact Or.inr ⟨_, rfl⟩
    · exact Or.inr ⟨_, rfl⟩

theorem finishTask_eq (e : Engine) (sub : Submission) :
    ∃ clears, e.finishTask sub = { e with clears := clears } := by
  unfold finishTask
  split
  · exact ⟨_, rfl⟩
  · exact ⟨_, rfl⟩

theorem guarded_eq_some {p : Prop} [Decidable p] (h : guarded p e = some e') : p ∧ e = e' := by
  unfold guarded at h
  split at h
  · exact ⟨‹p›, Option.some_inj.mp h⟩
  · exact absurd h (by simp)

/-- Clean-up tasks, the admin lock and the touches do not matter. -/
theorem Inv.aside (h : e.Inv) (clears : List ClearTask) (deleting : Option Bytes)
    (touches : List Touch) :
    ({ e with clears := clears, deleting := deleting, touches := touches } : Engine).Inv :=
  ⟨h.consistent, h.sched, h.snapshots, h.retained⟩

theorem Inv.finishTask (h : e.Inv) (sub : Submission) : (e.finishTask sub).Inv := by
  obtain ⟨clears, heq⟩ := finishTask_eq e sub
  rw [heq]
  exact h.aside clears e.deleting e.touches

theorem Inv.commit (h : e.Inv) (q : QueuedEntry) : (e.commit opts q).Inv := by
  obtain ⟨hframe, hcons⟩ := commit_spec opts h.consistent q
  obtain ⟨recs, heq⟩ := commit_eq opts e q
  rw [heq] at hframe hcons ⊢
  refine h.write hframe hcons rfl rfl fun hm => ?_
  unfold registered
  rw [hm]
  exact .refl _

theorem Inv.relocate (h : e.Inv) (records : List VlogRecord) : (e.relocate opts records).Inv := by
  obtain ⟨hframe, hcons⟩ := relocate_spec opts h.consistent records
  rcases relocate_eq opts e records with heq | ⟨recs, heq⟩
  · rwa [heq]
  · rw [heq] at hframe hcons ⊢
    refine h.write hframe hcons rfl rfl fun hm => ?_
    unfold registered
    rw [hm]
    exact .refl _

theorem Inv.group (h : e.Inv) (n : ℕ) : (e.group opts n).Inv := by
  obtain ⟨hframe, hcons⟩ := group_spec opts h.consistent n
  refine h.write hframe hcons rfl rfl fun hm => ?_
  have hsplit : e.queueSnaps = (e.queue.take n).filterMap (fun q => q.validate.map Prod.fst) ++
      (e.queue.drop n).filterMap fun q => q.validate.map Prod.fst := by
    rw [← List.filterMap_append, List.take_append_drop]
    rfl
  unfold registered
  rw [hm, hsplit]
  refine List.perm_iff_count.mpr fun a => ?_
  show _ = List.count a ((_ ++ e.handles) ++ (_ ++ (e.queue.drop n).filterMap fun q =>
    q.validate.map Prod.fst))
  simp only [List.count_append]
  omega

/-- Queueing an entry moves its transaction's registration to the queue. -/
theorem Inv.enqueue (h : e.Inv) {sub : Submission} (hallowed : sub.Allowed opts e) :
    ({ e with
        queue := e.queue ++ [sub.entry]
        handles := match sub.snap? with
          | some s => e.handles.erase s
          | none => e.handles } : Engine).Inv := by
  have hsnap : sub.entry.validate.map Prod.fst = sub.snap? := by cases sub <;> rfl
  have hmem : ∀ s ∈ sub.snap?, s ∈ e.handles := by
    intro s hs
    cases sub with
    | txn snap writes locks => exact Option.some_inj.mp hs ▸ hallowed.1
    | drain snap consume writes locks => exact Option.some_inj.mp hs ▸ hallowed.1
    | _ => exact absurd hs (by simp [Submission.snap?])
  refine ⟨h.consistent, h.sched, h.snapshots.trans ?_, h.retained⟩
  unfold registered queueSnaps
  simp only [List.filterMap_append, List.filterMap_cons, List.filterMap_nil, hsnap]
  refine List.perm_iff_count.mpr fun a => ?_
  cases hs : sub.snap? with
  | none => simp
  | some s =>
    have := (List.perm_cons_erase (hmem s hs)).count_eq a
    simp only [List.count_append, List.count_cons, List.count_nil] at this ⊢
    omega

theorem Inv.withdraw (h : e.Inv) {i : ℕ} {q : QueuedEntry} (hq : e.queue[i]? = some q) :
    ({ e with
        queue := e.queue.eraseIdx i
        handles := (q.validate.map Prod.fst).toList ++ e.handles } : Engine).Inv := by
  refine ⟨h.consistent, h.sched, h.snapshots.trans ?_, h.retained⟩
  obtain ⟨hlt, rfl⟩ := List.getElem?_eq_some_iff.mp hq
  have hperm := (List.getElem_cons_eraseIdx_perm hlt).filterMap fun q => q.validate.map Prod.fst
  unfold registered queueSnaps
  refine List.perm_iff_count.mpr fun a => ?_
  have := hperm.count_eq a
  rw [List.filterMap_cons] at this
  simp only [List.count_append]
  cases hv : e.queue[i].validate.map Prod.fst with
  | none =>
    simp only [hv] at this
    simp only [Option.toList_none, List.count_nil]
    omega
  | some s =>
    simp only [hv, List.count_cons] at this
    simp only [Option.toList_some, List.count_cons, List.count_nil]
    omega

/-! ### Structural steps -/

theorem Inv.rotate (h : e.Inv) : ({ e with db := e.db.forceRotate } : Engine).Inv := by
  have hcons := h.consistent.forceRotate
  unfold Db.forceRotate at hcons ⊢
  split at hcons
  · rename_i hempty
    rw [if_pos hempty]
    exact h
  · rename_i hempty
    rw [if_neg hempty]
    exact ⟨hcons, fun s hs => (h.sched s hs).frame rfl (Nat.le_succ _) le_rfl,
      h.snapshots, h.retained⟩

theorem Inv.flush (h : e.Inv) {did : Bool} (hf : e.db.flushOne opts = some (db', did)) :
    ({ e with db := db' } : Engine).Inv := by
  obtain ⟨hcons, hsnap, hpins, hvis, -⟩ := h.consistent.flushOne hf
  refine ⟨hcons, fun s hs => (h.sched s hs).flush h.consistent.wf hf, ?_, fun s hs => ?_⟩
  · show db'.snapshots.Perm (e.handles ++ (db'.manifest.pins.map Prod.snd ++ e.queueSnaps))
    rw [hsnap, hpins]
    exact h.snapshots
  · show e.floor ≤ s ∧ s ≤ db'.visibleSeqno
    rw [hvis]
    exact h.retained s (hsnap ▸ hs)

/-- A step of the scheduler. -/
theorem Inv.schedule (h : e.Inv) {s' : Scheduler} {floor' : ℕ} (hcons : Consistent db' e.log floor')
    (hsched : s'.WF db' floor') (hsnap : db'.snapshots = e.db.snapshots)
    (hpins : db'.manifest.pins = e.db.manifest.pins) (hvis : db'.visibleSeqno = e.db.visibleSeqno)
    (hfloor : ∀ s ∈ e.db.snapshots, floor' ≤ s) :
    ({ e with sched := some s', db := db', floor := floor' } : Engine).Inv := by
  refine ⟨hcons, fun s hs => Option.some_inj.mp hs ▸ hsched, ?_, fun s hs => ?_⟩
  · show db'.snapshots.Perm (e.handles ++ (db'.manifest.pins.map Prod.snd ++ e.queueSnaps))
    rw [hsnap, hpins]
    exact h.snapshots
  · have hs' : s ∈ e.db.snapshots := hsnap ▸ hs
    exact ⟨hfloor s hs', hvis ▸ (h.retained s hs').2⟩

theorem watermark_le {s : ℕ} (hs : s ∈ db.snapshots) : db.watermark ≤ s := by
  unfold Db.watermark
  cases hmin : db.snapshots.min? with
  | none =>
    rw [List.min?_eq_none_iff] at hmin
    rw [hmin] at hs
    exact absurd hs List.not_mem_nil
  | some m => exact (List.min?_eq_some_iff.mp hmin).2 s hs

theorem Inv.start (h : e.Inv) (hs : e.schedStart = some e') : e'.Inv := by
  unfold schedStart at hs
  obtain ⟨s, hsched, hs⟩ := Option.bind_eq_some_iff.mp hs
  obtain ⟨⟨s', db'⟩, hstart, rfl⟩ := Option.map_eq_some_iff.mp hs
  have hwf := h.sched s hsched
  obtain ⟨job, hactive, hpending, rfl, rfl⟩ | ⟨level, inputs, -, hpending, rfl, rfl⟩ :=
    Scheduler.start_cases hstart
  · simp only [hpending]
    refine h.schedule (hwf.start_consistent h.consistent hactive hpending)
      (hwf.start_rewrite h.consistent.tree hactive hpending) rfl rfl rfl fun t ht => ?_
    exact max_le (h.retained t ht).1 (le_trans (min_le_left _ _) (watermark_le ht))
  · obtain ⟨-, above, newer, hlevels, hlen⟩ := hwf.deepen level inputs hpending
    simp only [hpending]
    rw [hwf.start_deepen hpending]
    exact h.schedule (h.consistent.installDeepen hlevels hlen) (Scheduler.wf_new _ _ _) rfl rfl rfl
      fun t ht => (h.retained t ht).1

/-- A slice changes levels and ids only. -/
theorem slice_frame {s s' : Scheduler} (hs : s.slice opts db = some (s', db')) :
    db'.snapshots = db.snapshots ∧ db'.manifest.pins = db.manifest.pins ∧
      db'.visibleSeqno = db.visibleSeqno ∧ db'.defs = db.defs := by
  obtain ⟨j, j', id, exhausted, -, -, ⟨-, -, rfl⟩ | ⟨-, tables, -, -, rfl⟩⟩ :=
    Scheduler.slice_eq_some hs
  · exact ⟨rfl, rfl, rfl, rfl⟩
  · exact ⟨rfl, rfl, rfl, rfl⟩

/-! ### Registrations -/

/-- Snapshots and pins change together with the registrations. -/
theorem Inv.register (h : e.Inv) (snapshots handles : List ℕ) (pins : List (Bytes × ℕ))
    (hperm : snapshots.Perm (handles ++ (pins.map Prod.snd ++ e.queueSnaps)))
    (hretained : ∀ s ∈ snapshots, s ∈ e.db.snapshots ∨ e.floor ≤ s ∧ s ≤ e.db.visibleSeqno) :
    ({ e with
        db := { e.db with snapshots := snapshots, manifest := { e.db.manifest with pins := pins } }
        handles := handles } : Engine).Inv :=
  ⟨h.consistent.relabel snapshots pins e.db.defs,
    fun s hs => (h.sched s hs).frame rfl le_rfl le_rfl, hperm, fun s hs =>
      (hretained s hs).elim (h.retained s) id⟩

theorem Inv.floor_le_visible (h : e.Inv) : e.floor ≤ e.db.visibleSeqno :=
  le_trans h.consistent.floor_le h.consistent.wf.flushed_le

/-- An accepted registration at a past seqno is above the floor. -/
theorem Inv.accepted (h : e.Inv) {seq : ℕ} (hr : e.db.tryRegisterSnapshotAt seq = .ok db') :
    db' = e.db.registerSnapshotAt seq ∧ e.floor ≤ seq ∧ seq ≤ e.db.visibleSeqno := by
  unfold Db.tryRegisterSnapshotAt at hr
  split at hr
  · exact absurd hr (by simp)
  · rename_i hvis
    simp only at hr
    split at hr
    · exact absurd hr (by simp)
    · rename_i hwm
      refine ⟨(Except.ok.inj hr).symm, ?_, not_lt.mp hvis⟩
      cases hmin : e.db.snapshots.min? with
      | none =>
        rw [hmin] at hwm
        simp only [Option.getD_none] at hwm
        have := h.floor_le_visible
        omega
      | some m =>
        rw [hmin] at hwm
        simp only [Option.getD_some] at hwm
        have := (h.retained m (List.min?_eq_some_iff.mp hmin).1).1
        have := h.floor_le_visible
        omega

theorem Inv.pinned (h : e.Inv) {name : Bytes} (hp : e.db.pin name = .ok db') :
    ({ e with db := db' } : Engine).Inv := by
  unfold Db.pin at hp
  split at hp
  · exact absurd hp (by simp)
  · obtain rfl := Except.ok.inj hp
    refine h.register (e.db.visibleSeqno :: e.db.snapshots) e.handles _ ?_ fun s hs => ?_
    · refine List.perm_iff_count.mpr fun a => ?_
      have := h.snapshots.count_eq a
      unfold registered at this
      simp only [List.map_append, List.map_cons, List.map_nil, List.count_append, List.count_cons,
        List.count_nil] at this ⊢
      omega
    · rcases List.mem_cons.mp hs with rfl | hs
      · exact Or.inr ⟨h.floor_le_visible, le_rfl⟩
      · exact Or.inl hs

theorem Inv.unpinned (h : e.Inv) {name : Bytes} (hp : e.db.unpin name = .ok db') :
    ({ e with db := db' } : Engine).Inv := by
  unfold Db.unpin at hp
  cases hfind : e.db.manifest.pins.find? fun p => decide (p.1 = name) with
  | none =>
    rw [hfind] at hp
    exact absurd hp (by simp)
  | some p =>
    rw [hfind] at hp
    obtain rfl := Except.ok.inj hp
    have hmem := List.mem_of_find?_eq_some hfind
    refine h.register (e.db.snapshots.erase p.2) e.handles _ ?_ fun s hs =>
      Or.inl (List.mem_of_mem_erase hs)
    refine List.perm_iff_count.mpr fun a => ?_
    have hsnap := h.snapshots.count_eq a
    have hpins := ((List.perm_cons_erase hmem).map Prod.snd).count_eq a
    have hreg : p.2 ∈ e.db.snapshots := h.snapshots.mem_iff.mpr
      (List.mem_append_right _ (List.mem_append_left _ (List.mem_map_of_mem hmem)))
    have herase := (List.perm_cons_erase hreg).count_eq a
    unfold registered at hsnap
    simp only [List.map_cons, List.count_append, List.count_cons] at hsnap hpins herase ⊢
    omega

theorem Inv.reopened (h : e.Inv) {n orphan : ℕ} (hr : e.reopen opts n orphan = some e') :
    e'.Inv := by
  unfold reopen at hr
  obtain ⟨db', hdb, rfl⟩ := Option.map_eq_some_iff.mp hr
  obtain ⟨hcons, next, run?, hre⟩ := h.consistent.reopen hdb
  refine ⟨hcons, fun s hs => absurd hs (by simp), ?_, fun s hs => ?_⟩
  · show db'.snapshots.Perm ([] ++ (db'.manifest.pins.map Prod.snd ++ []))
    rw [hre.snapshots, hre.pins, List.append_nil]
    exact .refl _
  · show e.floor ≤ s ∧ s ≤ db'.visibleSeqno
    have hs' : s ∈ db'.snapshots := hs
    rw [hre.snapshots] at hs'
    obtain ⟨p, hp, rfl⟩ := List.mem_map.mp hs'
    rw [hre.visible]
    refine ⟨(h.retained p.2 (h.snapshots.mem_iff.mpr ?_)).1, hre.pins_le p hp⟩
    exact List.mem_append_right _ (List.mem_append_left _ (List.mem_map_of_mem hp))

end Engine

/-! ### Every action -/

/-- **The invariant survives every action.** -/
theorem inv_step (h : e.Inv) {a : Action} (hs : e.step opts a = some e') : e'.Inv := by
  have hbase := h.snapshots
  have hvis := h.floor_le_visible
  unfold Engine.registered at hbase
  cases a with
  | commit sub =>
    obtain ⟨-, rfl⟩ := Engine.guarded_eq_some hs
    exact (h.commit sub.entry).finishTask sub
  | enqueue sub =>
    obtain ⟨⟨-, hallowed⟩, rfl⟩ := Engine.guarded_eq_some hs
    exact (h.enqueue hallowed).finishTask sub
  | withdraw i =>
    obtain ⟨q, hq, rfl⟩ := Option.map_eq_some_iff.mp hs
    exact h.withdraw hq
  | group n =>
    obtain ⟨-, rfl⟩ := Engine.guarded_eq_some hs
    exact h.group n
  | relocate records =>
    obtain ⟨-, rfl⟩ := Engine.guarded_eq_some hs
    exact h.relocate records
  | rotate =>
    obtain rfl := Option.some_inj.mp hs
    exact h.rotate
  | flush =>
    obtain ⟨⟨db', did⟩, hf, rfl⟩ := Option.map_eq_some_iff.mp hs
    exact h.flush hf
  | schedBegin force =>
    obtain ⟨-, rfl⟩ := Engine.guarded_eq_some hs
    exact h.schedule h.consistent (Scheduler.wf_new _ _ _) rfl rfl rfl fun t ht =>
      (h.retained t ht).1
  | schedPreempt =>
    obtain ⟨s, hsched, hs⟩ := Option.bind_eq_some_iff.mp hs
    obtain ⟨s', hp, rfl⟩ := Option.map_eq_some_iff.mp hs
    exact h.schedule h.consistent ((h.sched s hsched).preempt hp) rfl rfl rfl
      fun t ht => (h.retained t ht).1
  | schedSchedule =>
    obtain ⟨s, hsched, hs⟩ := Option.bind_eq_some_iff.mp hs
    obtain ⟨⟨s', db'⟩, hp, rfl⟩ := Option.map_eq_some_iff.mp hs
    obtain ⟨hwf, rfl | rfl⟩ := (h.sched s hsched).schedule h.consistent.tree hp
    · exact h.schedule h.consistent hwf rfl rfl rfl fun t ht => (h.retained t ht).1
    · exact h.schedule (h.consistent.alloc (Nat.le_succ _)) hwf rfl rfl rfl
        fun t ht => (h.retained t ht).1
  | schedStart => exact h.start hs
  | schedSlice =>
    obtain ⟨s, hsched, hs⟩ := Option.bind_eq_some_iff.mp hs
    obtain ⟨⟨s', db'⟩, hp, rfl⟩ := Option.map_eq_some_iff.mp hs
    have hwf := h.sched s hsched
    obtain ⟨hsnap, hpins, hvis', -⟩ := Engine.slice_frame hp
    exact h.schedule (hwf.slice_consistent h.consistent hp) (hwf.slice h.consistent.tree hp)
      hsnap hpins hvis' fun t ht => (h.retained t ht).1
  | schedExit =>
    obtain rfl := Option.some_inj.mp hs
    exact ⟨h.consistent, fun s hs => absurd hs (by simp), h.snapshots, h.retained⟩
  -- the registrations: the new one lies between the floor and the visible seqno
  | snapshot =>
    obtain rfl := Option.some_inj.mp hs
    refine h.register _ _ e.db.manifest.pins (hbase.cons _) fun s hs => ?_
    rcases List.mem_cons.mp hs with rfl | hs
    · exact Or.inr ⟨hvis, le_rfl⟩
    · exact Or.inl hs
  | snapshotAt seq =>
    obtain ⟨db', hdb, rfl⟩ := Option.map_eq_some_iff.mp hs
    have hok : e.db.tryRegisterSnapshotAt seq = .ok db' := by
      cases hr : e.db.tryRegisterSnapshotAt seq with
      | error err => rw [hr] at hdb; exact absurd hdb (by simp [Except.toOption])
      | ok d => rw [hr] at hdb; exact congrArg _ (Option.some_inj.mp hdb)
    obtain ⟨rfl, hle⟩ := h.accepted hok
    refine h.register _ _ e.db.manifest.pins (hbase.cons _) fun s hs => ?_
    rcases List.mem_cons.mp hs with rfl | hs
    · exact Or.inr hle
    · exact Or.inl hs
  | snapshotFlushed =>
    obtain rfl := Option.some_inj.mp hs
    refine h.register _ _ e.db.manifest.pins (hbase.cons _) fun s hs => ?_
    rcases List.mem_cons.mp hs with rfl | hs
    · exact Or.inr ⟨h.consistent.floor_le, h.consistent.wf.flushed_le⟩
    · exact Or.inl hs
  | advance pinned last =>
    obtain ⟨⟨hmem, hle, hlast⟩, rfl⟩ := Engine.guarded_eq_some hs
    have hpin : pinned ∈ e.db.snapshots := hbase.mem_iff.mpr (List.mem_append_left _ hmem)
    refine h.register ((last :: e.db.snapshots).erase pinned) _ e.db.manifest.pins ?_ fun s hs => ?_
    · rw [← List.erase_append_left _ (List.mem_cons_of_mem _ hmem)]
      exact (hbase.cons last).erase pinned
    · rcases List.mem_cons.mp (List.mem_of_mem_erase hs) with rfl | hs
      · exact Or.inr ⟨le_trans (h.retained pinned hpin).1 hle, hlast⟩
      · exact Or.inl hs
  | release seq =>
    obtain ⟨hmem, rfl⟩ := Engine.guarded_eq_some hs
    refine h.register (e.db.snapshots.erase seq) _ e.db.manifest.pins ?_ fun s hs =>
      Or.inl (List.mem_of_mem_erase hs)
    rw [← List.erase_append_left _ hmem]
    exact hbase.erase seq
  | pin name =>
    obtain ⟨db', hdb, rfl⟩ := Option.map_eq_some_iff.mp hs
    cases hr : e.db.pin name with
    | error err => rw [hr] at hdb; exact absurd hdb (by simp [Except.toOption])
    | ok d =>
      rw [hr] at hdb
      exact h.pinned (Option.some_inj.mp hdb ▸ hr)
  | unpin name =>
    obtain ⟨db', hdb, rfl⟩ := Option.map_eq_some_iff.mp hs
    cases hr : e.db.unpin name with
    | error err => rw [hr] at hdb; exact absurd hdb (by simp [Except.toOption])
    | ok d =>
      rw [hr] at hdb
      exact h.unpinned (Option.some_inj.mp hdb ▸ hr)
  -- what is left touches neither the versions nor the registrations
  | createTrigger d =>
    obtain ⟨-, rfl⟩ := Engine.guarded_eq_some hs
    exact ⟨h.consistent.relabel e.db.snapshots e.db.manifest.pins _,
      fun s hs => (h.sched s hs).frame rfl le_rfl le_rfl, h.snapshots, h.retained⟩
  | deleteTrigger name =>
    obtain ⟨-, rfl⟩ := Engine.guarded_eq_some hs
    exact ⟨h.consistent.relabel e.db.snapshots e.db.manifest.pins _,
      fun s hs => (h.sched s hs).frame rfl le_rfl le_rfl, h.snapshots, h.retained⟩
  | deleteDone =>
    obtain ⟨-, rfl⟩ := Engine.guarded_eq_some hs
    exact h.aside e.clears none e.touches
  | clearLook name =>
    obtain ⟨-, rfl⟩ := Engine.guarded_eq_some hs
    exact h.aside _ e.deleting e.touches
  | clearRead name =>
    obtain ⟨-, rfl⟩ := Engine.guarded_eq_some hs
    exact h.aside _ e.deleting e.touches
  | reopen n orphan => exact h.reopened hs

theorem inv_of_reachable (h : (engine opts).Reachable e) : e.Inv :=
  h.invariant (inv_init opts) fun hi _ hs => inv_step hi hs

end Fluent31
