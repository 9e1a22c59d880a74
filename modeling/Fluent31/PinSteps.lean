/-
What a step of the service leaves behind.

* `Engine.uncommitted_step` — a step that commits no manifest leaves the store
  consistent above every floor it was consistent above: what a compaction drops
  counts from its install;
* `Service.Drift`, `Service.drift_step` — what any step but a release, a
  completion manifest and a crash leaves of versions, files and registrations;
* `Service.log_serve`, `Service.handles_serve` — within a process the log grows,
  and a holder of a registration keeps it, unless the action takes it from its
  holder.
-/
import Fluent31.Pins
import Fluent31.StreamExact

namespace Fluent31

open Mvcc

variable {opts : Options} {e e' : Engine} {s s' : Service} {w w' : PinStore} {x : Entry}
    {a : Action}

theorem ServiceAction.inProcess_of_unsplit {act : ServiceAction} (h : act.unsplit) :
    act.inProcess := by
  cases act with
  | reopen | crashOpening => exact absurd h Bool.false_ne_true
  | _ => rfl

/-! ### Steps without a manifest commit -/

/-- Neither a pin, nor an unpin, nor a reopen. -/
def Action.KeepsPins : Action → Prop
  | .pin _ | .unpin _ | .reopen _ _ => False
  | _ => True

namespace Engine

/-- The floor has no part in a commit. -/
theorem commit_floor (opts : Options) (e : Engine) (b : ℕ) (q : QueuedEntry) :
    ({ e with floor := b } : Engine).commit opts q = { e.commit opts q with floor := b } := by
  unfold commit
  simp only
  split
  · rfl
  · rfl

theorem relocate_floor (opts : Options) (e : Engine) (b : ℕ) (records : List VlogRecord) :
    ({ e with floor := b } : Engine).relocate opts records =
      { e.relocate opts records with floor := b } := by
  unfold relocate
  simp only
  split
  · rfl
  · split
    · rfl
    · rfl

/-- What a step that commits no manifest leaves as it was. -/
structure Uncommitted (e e' : Engine) : Prop where
  pins : e'.db.manifest.pins = e.db.manifest.pins
  flushed : e'.db.manifest.lastFlushedSeqno = e.db.manifest.lastFlushedSeqno
  floor_le : e.floor ≤ e'.floor
  consistent : ∀ b, Consistent e.db e.log b → Consistent e'.db e'.log b

theorem Uncommitted.of_eq (hdb : e'.db = e.db) (hlog : e'.log = e.log)
    (hfloor : e'.floor = e.floor) :
    Uncommitted e e' :=
  ⟨by rw [hdb], by rw [hdb], le_of_eq hfloor.symm, fun b h => by rwa [hdb, hlog]⟩

theorem Uncommitted.relabel (snapshots : List ℕ) (defs : List TriggerDef)
    (hdb : e'.db = { e.db with snapshots := snapshots, defs := defs })
    (hlog : e'.log = e.log) (hfloor : e'.floor = e.floor) : Uncommitted e e' :=
  ⟨by rw [hdb], by rw [hdb], le_of_eq hfloor.symm, fun b h => by
    rw [hdb, hlog]
    exact h.relabel snapshots e.db.manifest.pins defs⟩

theorem Uncommitted.alloc {next : ℕ} (hdb : e'.db = { e.db with nextFileId := next })
    (hlog : e'.log = e.log) (hfloor : e.floor ≤ e'.floor) (hle : e.db.nextFileId ≤ next) :
    Uncommitted e e' :=
  ⟨by rw [hdb], by rw [hdb], hfloor, fun b h => by
    rw [hdb, hlog]
    exact h.alloc hle⟩

/-- **A step that commits no manifest** leaves the store consistent above any
floor it was consistent above: what a compaction drops counts from its install. -/
theorem uncommitted_step (h : e.Inv) (hs : e.step opts a = some e') (ha : a.KeepsPins)
    (hc : e.commits e' a = false) : Uncommitted e e' := by
  cases a with
  | pin _ | unpin _ | reopen _ _ => exact ha.elim
  | commit sub =>
    obtain ⟨-, rfl⟩ := guarded_eq_some hs
    obtain ⟨clears, heq⟩ := finishTask_eq (e.commit opts sub.entry) sub
    obtain ⟨hframe, -⟩ := commit_spec opts h.consistent sub.entry
    obtain ⟨recs, hcommit⟩ := commit_eq opts e sub.entry
    rw [heq]
    refine ⟨congrArg Manifest.pins hframe.manifest,
      congrArg Manifest.lastFlushedSeqno hframe.manifest,
      by rw [hcommit]; exact le_rfl, fun b hb => ?_⟩
    have hspec := (commit_spec (e := { e with floor := b }) opts hb sub.entry).2
    rw [commit_floor] at hspec
    exact hspec
  | group n =>
    obtain ⟨-, rfl⟩ := guarded_eq_some hs
    have hmanifest := (group_spec opts h.consistent n).1.manifest
    refine ⟨congrArg Manifest.pins hmanifest, congrArg Manifest.lastFlushedSeqno hmanifest, le_rfl,
      fun b hb => ?_⟩
    exact (group_spec (e := { e with floor := b }) opts hb n).2
  | relocate records =>
    obtain ⟨-, rfl⟩ := guarded_eq_some hs
    have hmanifest := (relocate_spec opts h.consistent records).1.manifest
    refine ⟨congrArg Manifest.pins hmanifest, congrArg Manifest.lastFlushedSeqno hmanifest, ?_,
      fun b hb => ?_⟩
    · rcases relocate_eq opts e records with heq | ⟨recs, heq⟩
      · rw [heq]
      · rw [heq]
        exact le_rfl
    · have hspec := (relocate_spec (e := { e with floor := b }) opts hb records).2
      rw [relocate_floor] at hspec
      exact hspec
  | enqueue sub =>
    obtain ⟨-, rfl⟩ := guarded_eq_some hs
    obtain ⟨clears, heq⟩ := finishTask_eq _ sub
    rw [heq]
    exact .of_eq rfl rfl rfl
  | withdraw i =>
    obtain ⟨q, -, rfl⟩ := Option.map_eq_some_iff.mp hs
    exact .of_eq rfl rfl rfl
  | rotate =>
    obtain rfl := Option.some_inj.mp hs
    have hmanifest : e.db.forceRotate.manifest = e.db.manifest := by
      unfold Db.forceRotate
      split <;> rfl
    exact ⟨congrArg Manifest.pins hmanifest, congrArg Manifest.lastFlushedSeqno hmanifest, le_rfl,
      fun b hb => hb.forceRotate⟩
  | flush =>
    -- with no memtable to flush nothing happens
    obtain ⟨⟨db', did⟩, hf, rfl⟩ := Option.map_eq_some_iff.mp hs
    have hnil : e.db.imms = [] := by simpa [commits] using hc
    unfold Db.flushOne at hf
    rw [hnil] at hf
    obtain ⟨rfl, -⟩ := Prod.mk.inj (Option.some_inj.mp hf)
    exact .of_eq rfl rfl rfl
  | schedBegin force | clearLook name | clearRead name | deleteDone =>
    obtain ⟨-, rfl⟩ := guarded_eq_some hs
    exact .of_eq rfl rfl rfl
  | schedExit =>
    obtain rfl := Option.some_inj.mp hs
    exact .of_eq rfl rfl rfl
  | schedPreempt =>
    obtain ⟨s, -, hs⟩ := Option.bind_eq_some_iff.mp hs
    obtain ⟨r, -, rfl⟩ := Option.map_eq_some_iff.mp hs
    exact .of_eq rfl rfl rfl
  | schedSchedule =>
    obtain ⟨s, hsched, hs⟩ := Option.bind_eq_some_iff.mp hs
    obtain ⟨⟨s', db'⟩, hp, rfl⟩ := Option.map_eq_some_iff.mp hs
    obtain ⟨-, rfl | rfl⟩ := (h.sched s hsched).schedule h.consistent.tree hp
    · exact .of_eq rfl rfl rfl
    · exact .alloc rfl rfl le_rfl (Nat.le_succ _)
  | schedStart =>
    obtain ⟨s, hsched, hs⟩ := Option.bind_eq_some_iff.mp hs
    obtain ⟨⟨s', db'⟩, hstart, rfl⟩ := Option.map_eq_some_iff.mp hs
    obtain ⟨job, -, hpending, rfl, rfl⟩ | ⟨level, inputs, -, hpending, -, -⟩ :=
      Scheduler.start_cases hstart
    · refine .alloc rfl rfl ?_ (Nat.le_succ _)
      simp only [hpending]
      exact le_max_left _ _
    · exact absurd hc (by simp [commits, hsched, hpending])
  | schedSlice =>
    obtain ⟨s, hsched, hs⟩ := Option.bind_eq_some_iff.mp hs
    obtain ⟨⟨s', db'⟩, hslice, rfl⟩ := Option.map_eq_some_iff.mp hs
    obtain ⟨j, j', id, -, -, -, -, hid, ⟨rfl, rfl, -⟩ | ⟨tables, rfl, -⟩⟩ :=
      (h.sched s hsched).slice_cases hslice
    · exact .alloc rfl rfl le_rfl hid
    · exact absurd hc (by simp [commits])
  | snapshot | snapshotFlushed =>
    obtain rfl := Option.some_inj.mp hs
    exact .relabel _ e.db.defs rfl rfl rfl
  | snapshotAt seq =>
    obtain ⟨db', hdb, rfl⟩ := Option.map_eq_some_iff.mp hs
    unfold Db.tryRegisterSnapshotAt at hdb
    simp only at hdb
    split at hdb
    · exact absurd hdb (by simp [Except.toOption])
    · split at hdb
      · exact absurd hdb (by simp [Except.toOption])
      · rw [← Option.some_inj.mp hdb]
        exact .relabel _ e.db.defs rfl rfl rfl
  | advance pinned last | release seq =>
    obtain ⟨-, rfl⟩ := guarded_eq_some hs
    exact .relabel _ e.db.defs rfl rfl rfl
  | createTrigger d | deleteTrigger name =>
    obtain ⟨-, rfl⟩ := guarded_eq_some hs
    exact .relabel e.db.snapshots _ rfl rfl rfl

/-- A step of its own kind leaves the pins. -/
theorem pins_step (h : e.Inv) (hs : e.step opts a = some e') (ha : a.KeepsPins) :
    e'.db.manifest.pins = e.db.manifest.pins := by
  cases hc : e.commits e' a with
  | false => exact (uncommitted_step h hs ha hc).pins
  | true =>
    cases a with
    | flush =>
      obtain ⟨⟨db', did⟩, hf, rfl⟩ := Option.map_eq_some_iff.mp hs
      exact (h.consistent.flushOne hf).2.2.1
    | schedStart =>
      obtain ⟨s, hsched, hs⟩ := Option.bind_eq_some_iff.mp hs
      obtain ⟨⟨s', db'⟩, hstart, rfl⟩ := Option.map_eq_some_iff.mp hs
      obtain ⟨job, -, -, rfl, rfl⟩ | ⟨level, inputs, -, -, rfl, rfl⟩ := Scheduler.start_cases hstart
      · rfl
      · rfl
    | schedSlice =>
      obtain ⟨s, -, hs⟩ := Option.bind_eq_some_iff.mp hs
      obtain ⟨⟨s', db'⟩, hslice, rfl⟩ := Option.map_eq_some_iff.mp hs
      exact (slice_frame hslice).2.1
    | _ => exact absurd hc Bool.false_ne_true

end Engine

/-! ### What a step leaves of the files -/

/-- What any step but a release, a completion manifest and a crash leaves. -/
structure Service.Drift (s s' : Service) : Prop where
  old : ∀ x ∈ s.history, x ∈ s'.history
  new : ∀ x ∈ s'.history, x ∈ s.history ∨ s.engine.db.visibleSeqno < x.seq ∧
    ∀ p, x.repr = .ptr p → p.file = s.engine.db.vlog.headId
  vlogs : ∀ id ∈ s.vlogs, id ∈ s'.vlogs
  lost : ∀ id ∈ s.lost, id ∈ s'.lost
  fresh : ∀ id ∈ s'.lost, id ∈ s.lost ∨ s.engine.db.nextFileId ≤ id
  disk : ∀ id ∈ s.disk, id ∈ s.obsolete ∨ id ∈ s'.disk
  obsolete : ∀ id ∈ s'.obsolete, id ∈ s.obsolete
  degraded : s.degraded = true → s'.degraded = true
  manifest : s'.manifest.head = s.manifest.head
  flushed_le : s.engine.db.manifest.lastFlushedSeqno ≤ s'.engine.db.manifest.lastFlushedSeqno
  durable : s.durable ≤ s'.durable
  snapshots : ∀ b ≤ s.engine.db.manifest.lastFlushedSeqno, (∀ t ∈ s.engine.db.snapshots, b ≤ t) →
    ∀ t ∈ s'.engine.db.snapshots, b ≤ t
  head : s'.engine.db.vlog.headId = s.engine.db.vlog.headId ∧ s'.vlogHead = s.vlogHead ∨
    s.engine.db.nextFileId ≤ s'.engine.db.vlog.headId ∧ s'.engine.db.vlog.headId ∈ s'.disk ∧
      (s'.engine.db.vlog.headId = s'.vlogHead ∨ s'.degraded = true)
  opening : s'.phase = .opening → s.phase = .opening ∧ s'.degraded = s.degraded

namespace Service

variable {recs : List CommitRec}

theorem Drift.refl (s : Service) : s.Drift s where
  old := fun _ hx => hx
  new := fun _ hx => Or.inl hx
  vlogs := fun _ hid => hid
  lost := fun _ hid => hid
  fresh := fun _ hid => Or.inl hid
  disk := fun _ hid => Or.inr hid
  obsolete := fun _ hid => hid
  degraded := id
  manifest := rfl
  flushed_le := le_rfl
  durable := le_rfl
  snapshots := fun _ _ hb => hb
  head := Or.inl ⟨rfl, rfl⟩
  opening := fun h => ⟨h, rfl⟩

/-- The engine moves, in a running store. -/
theorem drift_moved (h : s.Files) (hphase : s.phase = .running) (hmove : Moved a s.engine e' recs)
    (hinv : e'.Inv) (fault : Bool) : s.Drift (s.moved e' fault) := by
  obtain ⟨hvlogs, hdisk, hlost, hhead⟩ := Files.moved_files s e' fault
  -- what is committed lies above the visible seqno
  have hbase : ∀ c ∈ recs, s.engine.db.visibleSeqno < c.base :=
    h.engine.consistent.contiguous.split_log (hmove.log ▸ hinv.consistent.contiguous)
  exact
    { old := fun x hx => (mem_historyOf_moved hmove).mpr (Or.inl hx)
      new := fun x hx => ((mem_historyOf_moved hmove).mp hx).imp_right fun hnew => by
        refine ⟨?_, fun p hp => (hmove.fresh hnew hp).1⟩
        obtain ⟨r, hr, hx⟩ := List.mem_flatMap.mp hnew
        obtain ⟨c, hc, rfl⟩ := List.mem_map.mp hr
        obtain ⟨i, enc, -, rfl⟩ := mem_versionsFrom.mp hx
        exact lt_of_lt_of_le (hbase c hc) (Nat.le_add_right _ _)
      vlogs := fun id hid => (hvlogs id).mpr (Or.inl hid)
      lost := fun id hid => (hlost id).mpr (Or.inl hid)
      fresh := fun id hid => ((hlost id).mp hid).imp_right fun ⟨heq, hrot, _⟩ =>
        heq ▸ hmove.placed.head.resolve_left hrot
      disk := fun id hid => Or.inr ((hdisk id).mpr (Or.inl hid))
      obsolete := fun _ hid => hid
      degraded := fun hdeg => by
        show (s.degraded || _) = true
        rw [hdeg, Bool.true_or]
      manifest := rfl
      flushed_le := hmove.flushed_le
      durable := le_rfl
      snapshots := hmove.snapshots
      head := by
        -- the head stays, or the fresh one is on disk and is synced unless the sync fails
        by_cases hrot : e'.db.vlog.headId = s.engine.db.vlog.headId
        · refine Or.inl ⟨hrot, ?_⟩
          rw [hhead, if_neg fun hc => hc.1 hrot]
        · refine Or.inr
            ⟨hmove.placed.head.resolve_left hrot, (hdisk _).mpr (Or.inr ⟨rfl, hrot⟩), ?_⟩
          cases fault with
          | false =>
            rw [hhead, if_pos ⟨hrot, rfl⟩]
            exact Or.inl rfl
          | true =>
            right
            show (s.degraded || (decide (e'.db.vlog.headId ≠ s.engine.db.vlog.headId) && true)) =
              true
            rw [decide_eq_true hrot, Bool.and_true, Bool.or_true]
      opening := fun hopen => absurd (hphase.symm.trans hopen) (by simp) }

/-- The registrations change, and nothing else. -/
theorem drift_engine (hlog : e'.log = s.engine.log) (hvlog : e'.db.vlog = s.engine.db.vlog)
    (hmove : Moved a s.engine e' recs) : s.Drift { s with engine := e' } := by
  have hhist : ∀ x, x ∈ historyOf e'.log ↔ x ∈ s.history := fun x => by
    rw [hlog]
    rfl
  exact
    { Drift.refl s with
      old := fun x hx => (hhist x).mpr hx
      new := fun x hx => Or.inl ((hhist x).mp hx)
      flushed_le := hmove.flushed_le
      snapshots := hmove.snapshots
      head := Or.inl ⟨congrArg Vlog.headId hvlog, rfl⟩ }

theorem drift_registers (h : s.Files) (ha : a.Registers) (he : s.engine.step opts a = some e') :
    s.Drift { s with engine := e' } := by
  obtain ⟨hlog, hvlog, -, -, hopen⟩ := ha.frame he
  obtain ⟨recs, hmove⟩ := moved_step h.engine he hopen
  exact drift_engine hlog hvlog hmove

/-- **Every other step of the service** within a process drifts. -/
theorem drift_step (h : s.Files) {act : ServiceAction} (hs : s.step opts act = some s')
    (hplain : act.unsplit)
    (hrelease : act = .release → s.releasing = []) (hopen : act ≠ .completeOpen) : s.Drift s' := by
  cases Service.takes hs with
  | engine headFault hphase hserves hpub hfree he =>
    obtain ⟨recs, hmove⟩ := moved_step h.engine he fun n orphan hreopen => by
      rw [hreopen] at hserves
      exact absurd hserves Bool.false_ne_true
    exact drift_moved h hphase hmove (inv_step h.engine he) headFault
  | @gcChunk p chunk todo e' applied headFault hp htodo hpub he happlied =>
    obtain ⟨recs, hmove⟩ := moved_step h.engine he fun _ _ => by simp
    have hd := drift_moved h (h.phase_of_pass hp) hmove (inv_step h.engine he) headFault
    exact { hd with }
  | gcSync hp htodo hpub => exact { Drift.refl s with durable := h.durable_le }
  | gcPick | gcAbort | gateWatermark | gateFlushed | gates | publish | openView | closeView | check
  | drain | kill => exact { Drift.refl s with }
  | gcRetire hp hsynced => exact { Drift.refl s with }
  | @unlink id hid hviews =>
    exact { Drift.refl s with
      disk := fun i hi => by
        by_cases heq : i = id
        · exact Or.inl (heq ▸ hid)
        · exact Or.inr (List.mem_filter.mpr ⟨hi, decide_eq_true heq⟩)
      obsolete := fun i hi => List.mem_of_mem_filter hi
      head := Or.inl ⟨rfl, rfl⟩ }
  | subscribe start hphase hpub hstart he =>
    have hd := drift_registers h .snapshot he
    exact { hd with }
  | deliver hsub hclosed htaken hout he =>
    have hd := drift_registers h (.advance _ _) he
    exact { hd with }
  | close hsub hclosed hchecked htaken he =>
    have hd := drift_registers h (.release _) he
    exact { hd with }
  | release =>
    exact { Drift.refl s with
      vlogs := fun id hid => List.mem_filter.mpr ⟨hid, by simp [hrelease rfl]⟩
      obsolete := fun id hid => by simpa [hrelease rfl] using hid
      head := Or.inl ⟨rfl, rfl⟩ }
  | completeOpen hphase => exact absurd rfl hopen
  | reopen | crashOpening => exact absurd hplain Bool.false_ne_true

theorem keepsPins_of_serves (hplain : ServiceAction.unsplit (.engine a fault))
    (hserves : a.serves) :
    a.KeepsPins := by
  cases a with
  | pin | unpin => exact absurd hplain Bool.false_ne_true
  | reopen => exact absurd hserves Bool.false_ne_true
  | _ => trivial

/-- A step that commits no manifest. -/
theorem uncommitted_serve (h : s.Files) {act : ServiceAction} (hs : s.step opts act = some s')
    (hplain : act.unsplit) (hc : s.commits s' act = false) :
    Engine.Uncommitted s.engine s'.engine := by
  cases Service.takes hs with
  | engine headFault hphase hserves hpub hfree he =>
    exact Engine.uncommitted_step h.engine he (keepsPins_of_serves hplain hserves) hc
  | gcChunk headFault hp htodo hpub he happlied =>
    exact Engine.uncommitted_step h.engine he trivial rfl
  | subscribe start hphase hpub hstart he => exact Engine.uncommitted_step h.engine he trivial rfl
  | deliver hsub hclosed htaken hout he => exact Engine.uncommitted_step h.engine he trivial rfl
  | close hsub hclosed hchecked htaken he => exact Engine.uncommitted_step h.engine he trivial rfl
  | gcRetire | completeOpen => exact absurd hc (by simp [commits])
  | reopen | crashOpening => exact absurd hplain Bool.false_ne_true
  | _ => exact .of_eq rfl rfl rfl

theorem pins_serve (h : s.Files) {act : ServiceAction} (hs : s.step opts act = some s')
    (hplain : act.unsplit) : s'.engine.db.manifest.pins = s.engine.db.manifest.pins := by
  cases Service.takes hs with
  | engine headFault hphase hserves hpub hfree he =>
    exact Engine.pins_step h.engine he (keepsPins_of_serves hplain hserves)
  | gcChunk headFault hp htodo hpub he happlied => exact Engine.pins_step h.engine he trivial
  | subscribe start hphase hpub hstart he => exact Engine.pins_step h.engine he trivial
  | deliver hsub hclosed htaken hout he => exact Engine.pins_step h.engine he trivial
  | close hsub hclosed hchecked htaken he => exact Engine.pins_step h.engine he trivial
  | reopen | crashOpening => exact absurd hplain Bool.false_ne_true
  | _ => rfl

/-- A step of the service within a process adds commits above the visible
seqno to the log. -/
theorem log_serve (h : s.Files) {act : ServiceAction} (hs : s.step opts act = some s')
    (hin : act.inProcess) :
    ∃ recs, s'.engine.log = s.engine.log ++ recs ∧ s.engine.db.visibleSeqno ≤
      s'.engine.db.visibleSeqno ∧ ∀ c ∈ recs, s.engine.db.visibleSeqno < c.base := by
  -- an action that moves the engine appends what it commits
  have hmoved : ∀ {a : Action} {e' : Engine} {recs : List CommitRec},
      s.engine.step opts a = some e' →
      Moved a s.engine e' recs → ∀ c ∈ recs, s.engine.db.visibleSeqno < c.base := by
    intro a e' recs he hmove
    have hinv := inv_step h.engine he
    exact h.engine.consistent.contiguous.split_log (hmove.log ▸ hinv.consistent.contiguous)
  -- a registration commits nothing
  have hquiet : ∀ {a : Action} {e' : Engine}, a.Registers → s.engine.step opts a = some e' →
      ∃ recs, e'.log = s.engine.log ++ recs ∧ s.engine.db.visibleSeqno ≤ e'.db.visibleSeqno ∧
        ∀ c ∈ recs, s.engine.db.visibleSeqno < c.base := by
    intro a e' ha he
    obtain ⟨hlog, -, -, hvis, -⟩ := ha.frame he
    exact ⟨[], hlog.trans (List.append_nil _).symm, le_of_eq hvis.symm, fun c hc =>
      absurd hc List.not_mem_nil⟩
  cases Service.takes hs with
  | engine headFault hphase hserves hpub hfree he =>
    obtain ⟨recs, hmove⟩ := moved_step h.engine he fun n orphan hreopen => by
      rw [hreopen] at hserves
      exact absurd hserves Bool.false_ne_true
    exact ⟨recs, hmove.log, hmove.visible_le, hmoved he hmove⟩
  | gcChunk headFault hp htodo hpub he happlied =>
    obtain ⟨recs, hmove⟩ := moved_step h.engine he fun _ _ => by simp
    exact ⟨recs, hmove.log, hmove.visible_le, hmoved he hmove⟩
  | subscribe start hphase hpub hstart he => exact hquiet .snapshot he
  | deliver hsub hclosed htaken hout he => exact hquiet (.advance _ _) he
  | close hsub hclosed hchecked htaken he => exact hquiet (.release _) he
  | reopen | crashOpening => exact absurd hin Bool.false_ne_true
  | _ => exact ⟨[], (List.append_nil _).symm, le_rfl, fun c hc => absurd hc List.not_mem_nil⟩

/-- The handles of the service's own holders: a step takes from a holder at most
the seqno it consumes. -/
theorem handles_serve (h : s.Streams) {act : ServiceAction} (hs : s.step opts act = some s')
    (hin : act.inProcess) (t : ℕ) :
    s'.pins.count t + s.engine.handles.count t ≤ s.pins.count t + s'.engine.handles.count t +
      if act.consumes = some t then 1 else 0 := by
  -- a subscription that stays open keeps its pin
  have hset : ∀ {i : ℕ} {sub sub' : Subscription}, s.subs[i]? = some sub →
      sub'.closed = sub.closed →
      sub'.pinned = sub.pinned → (s.setSub i sub').pins.count t = s.pins.count t := by
    intro i sub sub' hi hclosed hpinned
    have hcount := count_pins_set hi sub' t
    rw [hclosed, hpinned] at hcount
    omega
  cases Service.takes hs with
  | @engine a e' headFault hphase hserves hpub hfree he =>
    obtain ⟨recs, hmove⟩ := moved_step h.files.engine he fun n orphan hreopen => by
      rw [hreopen] at hserves
      exact absurd hserves Bool.false_ne_true
    have hhandles := hmove.handles t
    show s.pins.count t + s.engine.handles.count t ≤ s.pins.count t + e'.handles.count t +
      if a.consumes = some t then 1 else 0
    omega
  | @gcChunk p chunk todo e' applied headFault hp htodo hpub he happlied =>
    obtain ⟨recs, hmove⟩ := moved_step h.files.engine he fun _ _ => by simp
    have hhandles := hmove.handles t
    rw [if_neg (by simp [Action.consumes])] at hhandles
    show s.pins.count t + _ ≤ _ + e'.handles.count t + _
    omega
  | @publish r rest hpub =>
    have hsame : ((publishStream s.subs s.subsActive r.1 r.2).1.filter fun u => !u.closed).map
        Subscription.pinned = s.pins := by
      rw [publishStream_eq h.active]
      exact s.pins_publish r.1 r.2
    refine le_trans (le_of_eq ?_) (Nat.le_add_right _ _)
    exact congrArg (fun l => List.count t l + s.engine.handles.count t) hsame
  | @subscribe lo hi maxBytes e' start hphase hpub hstart he =>
    obtain rfl := Option.some_inj.mp he
    show (((s.subs ++ [Subscription.new start hi maxBytes s.engine.db.visibleSeqno]).filter
      fun u => !u.closed).map Subscription.pinned).count t + _ ≤
        _ + (s.engine.db.visibleSeqno :: s.engine.handles).count t + _
    rw [List.filter_append, List.map_append, List.count_append, List.count_cons]
    show s.pins.count t + [s.engine.db.visibleSeqno].count t + _ ≤ _
    rw [List.count_singleton]
    omega
  | @check i sub hsub hclosed hchecked htaken =>
    obtain ⟨-, hclosed', hpinned, -⟩ := check_frame sub s.degraded
    refine le_trans (le_of_eq ?_) (Nat.le_add_right _ _)
    exact congrArg (· + s.engine.handles.count t) (hset hsub hclosed' hpinned)
  | drain hsub hclosed hchecked =>
    refine le_trans (le_of_eq ?_) (Nat.le_add_right _ _)
    exact congrArg (· + s.engine.handles.count t) (hset hsub rfl rfl)
  | kill hsub hclosed htaken hout =>
    refine le_trans (le_of_eq ?_) (Nat.le_add_right _ _)
    exact congrArg (· + s.engine.handles.count t) (hset hsub rfl rfl)
  | @deliver i sub out e' hsub hclosed htaken hout he =>
    obtain ⟨⟨hpin, -, -⟩, rfl⟩ := Engine.guarded_eq_some he
    -- the delivery registers what it took last and releases the pin it had
    have hcount := count_pins_set hsub (sub.deliver out) t
    have hperm := (List.perm_cons_erase (List.mem_cons_of_mem sub.lastTaken hpin)).count_eq t
    rw [List.count_cons, List.count_cons] at hperm
    show (s.setSub i (sub.deliver out)).pins.count t + _ ≤
      _ + ((sub.lastTaken :: s.engine.handles).erase sub.pinned).count t + _
    have hopen : (sub.deliver out).closed = false := hclosed
    have hnext : (sub.deliver out).pinned = sub.lastTaken := rfl
    simp only [hclosed, hopen, hnext, true_and, beq_iff_eq] at hcount hperm
    omega
  | @close i sub e' hsub hclosed hchecked htaken he =>
    obtain ⟨hpin, rfl⟩ := Engine.guarded_eq_some he
    -- the close releases the pin
    have hcount := count_pins_set hsub sub.close t
    have hperm := (List.perm_cons_erase hpin).count_eq t
    rw [List.count_cons] at hperm
    show (s.setSub i sub.close).pins.count t + _ ≤
      _ + (s.engine.handles.erase sub.pinned).count t + _
    have hshut : sub.close.closed = true := rfl
    simp only [hclosed, hshut, true_and, beq_iff_eq, Bool.true_eq_false, false_and,
      if_false] at hcount hperm
    omega
  | reopen | crashOpening => exact absurd hin Bool.false_ne_true
  | _ => exact Nat.le_add_right _ _

/-- A WAL sync outside the collector: what is shadowed at or below the durable
seqno stays so. -/
theorem Files.sync (h : s.Files) :
    ({ s with durable := s.engine.db.visibleSeqno } : Service).Files :=
  { h with
    retired := fun r hr => by
      obtain ⟨hmem, hne, hold⟩ := h.retired r hr
      exact ⟨hmem, hne, fun x hx q hq hfile =>
        (hold x hx q hq hfile).mono (min_le_min_left _ h.durable_le) fun _ hf => hf⟩
    durable_le := le_rfl
    pass := fun p hp => { h.pass p hp with
      synced := fun hsync x hx q hq hfile =>
        ((h.pass p hp).synced hsync x hx q hq hfile).mono h.durable_le fun _ hf => hf } }

end Service

end Fluent31
