/-
No reader reaches a value-log file that is gone.

There are two ways to lose a value.  One is to place it in a head file the
resolution map does not name, after a head rotation that failed at its directory
sync.  The other is a retired file that passes its gates by a watermark that was read
before a snapshot below the retirement seqno was registered.  While no step takes
either (`Service.Homed`, `Service.Timely`), every pointer a reader can reach names a
file in its map and on disk.

* `kept_step` — no version points into a lost head;
* `covered_step` — no registered seqno is below that of a released file;
* `pointers_resolve` — every reader, the retired files, and recovery;
* `relocated_into_lost_head` — a collector's pass that outlives the rotation
  moves a live value into the lost head;
* `released_under_snapshot` — a fork's registration between the two reads of the
  gates.
-/
import Fluent31.StreamExact

namespace Fluent31

open Mvcc

variable {opts : Options} {s s' : Service} {x : Entry} {act : ServiceAction}

namespace Service

variable (opts s)

/-- The step appends to the value log. -/
def places (act : ServiceAction) : Bool :=
  (s.step opts act).any fun s' =>
    decide (s.engine.db.vlog.records.length < s'.engine.db.vlog.records.length)

/-- A value is placed only in a head file the resolution map names. -/
def Homed (act : ServiceAction) : Prop :=
  s.engine.db.vlog.headId ∈ s.vlogs ∨ s.places opts act = false

instance (act : ServiceAction) : Decidable (s.Homed opts act) := inferInstanceAs (Decidable (_ ∨ _))

/-- The retired files that pass the gates in the step. -/
def passing : ServiceAction → List (ℕ × ℕ)
  | .gates =>
    match s.gate with
    | .flushed w f => s.ready w f
    | _ => []
  | _ => []

/-- No file passes the gates that was retired above a registered snapshot. -/
def Timely (act : ServiceAction) : Prop := ∀ r ∈ s.passing act, ∀ t ∈ s.engine.db.snapshots, r.2 ≤ t

instance (act : ServiceAction) : Decidable (s.Timely act) :=
  inferInstanceAs (Decidable (∀ r ∈ s.passing act, ∀ t ∈ s.engine.db.snapshots, r.2 ≤ t))

/-- The step takes neither way to lose a value. -/
def Regular (act : ServiceAction) : Prop := s.Homed opts act ∧ s.Timely act

instance (act : ServiceAction) : Decidable (s.Regular opts act) :=
  inferInstanceAs (Decidable (_ ∧ _))

/-- No version lies in a lost head, and nothing that an iterator finds at a seqno from
those of the released files on. -/
structure Kept : Prop where
  streams : s.Streams
  placed : ∀ x ∈ s.history, ∀ p, x.repr = .ptr p → p.file ∉ s.lost
  views : ∀ v ∈ s.views, s.released ≤ v.2 → ∀ key x, v.1.getVersioned key v.2 = some x →
    ∀ p, x.repr = .ptr p → p.file ∈ v.1.version.vlogs

/-- All registered seqnos, and all views, are among these. -/
structure Covered : Prop where
  kept : s.Kept
  snapshots : ∀ t ∈ s.engine.db.snapshots, s.released ≤ t
  views : ∀ v ∈ s.views, ∀ key x, v.1.getVersioned key v.2 = some x → ∀ p, x.repr = .ptr p →
    p.file ∈ v.1.version.vlogs

variable {opts s}

namespace Kept

variable {a : Action} {e' : Engine} {recs : List CommitRec}

/-- The engine moves. -/
theorem move {fault : Bool} (h : s.Kept) (hmove : Moved a s.engine e' recs)
    (hhome : s.engine.db.vlog.headId ∈ s.vlogs ∨
      ¬ s.engine.db.vlog.records.length < e'.db.vlog.records.length) :
    ∀ x ∈ historyOf e'.log, ∀ p, x.repr = .ptr p → p.file ∉ (s.moved e' fault).lost := by
  have hfiles := h.streams.files
  have hwf := hfiles.engine.consistent.wf
  intro x hx p hp hlost
  rcases (mem_historyOf_moved hmove).mp hx with hold | hnew
  · rcases ((Files.moved_files s e' fault).2.2.1 _).mp hlost with hlost | ⟨heq, hrot, -⟩
    · exact h.placed x hold p hp hlost
    · -- the head that is lost now holds nothing yet
      obtain ⟨w, hrec⟩ := hfiles.engine.consistent.record hold hp
      have hlt := hwf.vlog.file_lt _ hrec
      have hge := hmove.placed.head.resolve_left hrot
      change p.file < _ at hlt
      omega
  · obtain ⟨hfile, hgrown⟩ := hmove.fresh hnew hp
    have hmapped := hhome.resolve_right fun hnot => hnot hgrown
    have hhead : s.engine.db.vlog.headId = s.vlogHead :=
      hfiles.head.2.2.resolve_right fun hbad => hbad.2 hmapped
    rw [hfile] at hlost
    rcases ((Files.moved_files s e' fault).2.2.1 _).mp hlost with hlost | ⟨heq, hrot, -⟩
    · exact hfiles.head.2.1 (hhead ▸ hlost)
    · exact hrot heq.symm

end Kept

end Service

theorem kept_init (opts : Options) : (Service.init opts).Kept where
  streams := streams_init opts
  placed := fun _ hx => absurd hx List.not_mem_nil
  views := fun _ hv => absurd hv List.not_mem_nil

/-- **Every homed action** keeps the values in resolvable files. -/
theorem kept_step (h : s.Kept) (hok : s.Homed opts act) (hs : s.step opts act = some s') :
    s'.Kept := by
  have hstreams := streams_step h.streams hs
  have hfiles := h.streams.files
  -- a value is placed only while the head is resolvable
  have hhome : s.engine.db.vlog.headId ∈ s.vlogs ∨
      ¬ s.engine.db.vlog.records.length < s'.engine.db.vlog.records.length := by
    refine hok.imp_right fun hplaces hlt => ?_
    unfold Service.places at hplaces
    rw [hs, Option.any_some, decide_eq_false_iff_not] at hplaces
    exact hplaces hlt
  cases Service.takes hs with
  | @engine a e' headFault hphase hserves hpub hfree he =>
    obtain ⟨recs, hmove⟩ := moved_step hfiles.engine he fun n orphan hopen => by
      rw [hopen] at hserves
      exact absurd hserves Bool.false_ne_true
    exact ⟨hstreams, h.move hmove hhome, h.views⟩
  | @gcChunk p chunk todo e' applied headFault hp htodo hpub he happlied =>
    obtain ⟨recs, hmove⟩ := moved_step hfiles.engine he fun _ _ => by simp
    exact ⟨hstreams, h.move hmove hhome, h.views⟩
  | @openView seq hphase hseq =>
    refine ⟨hstreams, h.placed, fun v hv hle key x hx p hp => ?_⟩
    rcases List.mem_append.mp hv with hv' | hv'
    · exact h.views v hv' hle key x hx p hp
    · -- no version reads into a file that was lost, so a new view finds them all
      refine ((hstreams.files.views v hv).2 hle key x hx p hp).resolve_right fun hlost => ?_
      rw [List.mem_singleton.mp hv'] at hx
      have hanswer := hfiles.engine.consistent.wf.recent.answers_getVersioned key
        (min (seq.getD s.engine.db.visibleSeqno) s.engine.db.visibleSeqno)
      rw [show s.engine.db.readView.getVersioned key _ = some x from hx] at hanswer
      exact h.placed x (hfiles.engine.consistent.retains.sub x hanswer.1) p hp hlost
  | closeView i => exact ⟨hstreams, h.placed, fun v hv => h.views v (List.mem_of_mem_eraseIdx hv)⟩
  | gates hgate =>
    exact ⟨hstreams, h.placed, fun v hv hle => h.views v hv (le_trans (le_foldl_max _ _) hle)⟩
  | subscribe start hphase hpub hstart he =>
    obtain rfl := Option.some_inj.mp he
    exact ⟨hstreams, h.placed, h.views⟩
  | deliver hsub hclosed htaken hout he =>
    obtain ⟨-, rfl⟩ := Engine.guarded_eq_some he
    exact ⟨hstreams, h.placed, h.views⟩
  | close hsub hclosed hchecked htaken he =>
    obtain ⟨-, rfl⟩ := Engine.guarded_eq_some he
    exact ⟨hstreams, h.placed, h.views⟩
  | reopen hreopen =>
    obtain ⟨e', disk, he, -, -, -, -, -, rfl⟩ := Service.reopen_cases hreopen
    have hrec := recovered_of_reopen hfiles.engine he
    exact ⟨hstreams, fun x hx => h.placed x ((hrec.history x).mp hx).1, fun _ hv =>
      absurd hv List.not_mem_nil⟩
  | crashOpening id => exact ⟨hstreams, h.placed, fun _ hv => absurd hv List.not_mem_nil⟩
  | _ => exact ⟨hstreams, h.placed, h.views⟩

/-- **Every regular action** leaves the registered seqnos above the released files. -/
theorem covered_step (h : s.Covered) (hok : s.Regular opts act) (hs : s.step opts act = some s') :
    s'.Covered := by
  have hkept := kept_step h.kept hok.1 hs
  have hfiles := h.kept.streams.files
  -- what the engine registers is flushed, visible or above another registered seqno
  have hmoved : ∀ {a : Action} {e' : Engine}, (∀ n orphan, a ≠ .reopen n orphan) →
      s.engine.step opts a = some e' → ∀ t ∈ e'.db.snapshots, s.released ≤ t := fun hopen he => by
    obtain ⟨recs, hmove⟩ := moved_step hfiles.engine he hopen
    exact hmove.snapshots _ hfiles.released_le h.snapshots
  cases Service.takes hs with
  | engine headFault hphase hserves hpub hfree he =>
    refine ⟨hkept, hmoved (fun n orphan hopen => ?_) he, h.views⟩
    rw [hopen] at hserves
    exact absurd hserves Bool.false_ne_true
  | gcChunk headFault hp htodo hpub he happlied =>
    exact ⟨hkept, hmoved (fun _ _ => by simp) he, h.views⟩
  | @gates w f hgate =>
    refine ⟨hkept, fun t ht => foldl_max_le.mpr ⟨h.snapshots t ht, fun seq hseq => ?_⟩, h.views⟩
    obtain ⟨r, hr, rfl⟩ := List.mem_map.mp hseq
    refine hok.2 r ?_ t ht
    unfold Service.passing
    rw [hgate]
    exact hr
  | @openView seq hphase hseq =>
    refine ⟨hkept, h.snapshots, fun v hv => ?_⟩
    rcases List.mem_append.mp hv with hold | hnew
    · exact h.views v hold
    · refine hkept.views v hv ?_
      rw [List.mem_singleton.mp hnew]
      refine le_min ?_ hfiles.released_le_visible
      cases seq with
      | none => exact hfiles.released_le_visible
      | some t =>
        exact h.snapshots t
          (hfiles.engine.snapshots.mem_iff.mpr (List.mem_append_left _ (hseq t rfl)))
  | closeView i => exact ⟨hkept, h.snapshots, fun v hv => h.views v (List.mem_of_mem_eraseIdx hv)⟩
  | subscribe start hphase hpub hstart he => exact ⟨hkept, hmoved (fun _ _ => by simp) he, h.views⟩
  | deliver hsub hclosed htaken hout he => exact ⟨hkept, hmoved (fun _ _ => by simp) he, h.views⟩
  | close hsub hclosed hchecked htaken he => exact ⟨hkept, hmoved (fun _ _ => by simp) he, h.views⟩
  | reopen hreopen =>
    obtain ⟨e', disk, he, -, -, -, -, -, rfl⟩ := Service.reopen_cases hreopen
    have hrec := recovered_of_reopen hfiles.engine he
    exact ⟨hkept, fun t ht => h.snapshots t (hrec.snapshots t ht), fun _ hv =>
      absurd hv List.not_mem_nil⟩
  | crashOpening id => exact ⟨hkept, h.snapshots, fun _ hv => absurd hv List.not_mem_nil⟩
  | _ => exact ⟨hkept, h.snapshots, h.views⟩

theorem covered_init (opts : Options) : (Service.init opts).Covered where
  kept := kept_init opts
  snapshots := fun _ ht => absurd ht List.not_mem_nil
  views := fun _ hv => absurd hv List.not_mem_nil

/-! ### Every reader -/

namespace Service.Kept

/-- A pointer that is not in a lost head, of a version some reader finds. -/
theorem readable (h : s.Kept) {t : ℕ}
    (ht : t = s.engine.db.visibleSeqno ∨ t ∈ s.engine.registered ∧ s.released ≤ t)
    {key : Bytes} (hx : s.db.readView.getVersioned key t = some x) {p : ValuePtr}
    (hp : x.repr = .ptr p) :
    p.file ∈ s.vlogs := by
  have hfiles := h.streams.files
  have hanswer := hfiles.engine.consistent.wf.recent.answers_getVersioned key t
  rw [show s.engine.db.readView.getVersioned key t = some x from hx] at hanswer
  have hkept := h.placed x (hfiles.engine.consistent.retains.sub x hanswer.1) p hp
  exact (hfiles.readable
    (ht.imp_right fun hreg => ⟨hfiles.engine.snapshots.mem_iff.mpr hreg.1, hreg.2⟩) hx
    hp).resolve_right hkept

/-- Recovery resolves the pointers it replays. -/
theorem replayed (h : s.Kept) (n : ℕ) {p : ValuePtr} (hp : p ∈ s.replayPointers n) :
    p.file ∈ s.vlogs := by
  have hcons := h.streams.files.engine.consistent
  obtain ⟨x, hx, hrepr⟩ := List.mem_filterMap.mp hp
  have hptr : x.repr = .ptr p := by
    cases hr : x.repr with
    | empty => rw [hr] at hrepr; exact absurd hrepr (by simp)
    | inline v => rw [hr] at hrepr; exact absurd hrepr (by simp)
    | ptr q =>
      rw [hr] at hrepr
      exact congrArg ReprRef.ptr (Option.some_inj.mp hrepr)
  have hall : x ∈ batchVersions s.engine.db.replayable := by
    obtain ⟨r, hr, hx⟩ := List.mem_flatMap.mp hx
    exact List.mem_flatMap.mpr ⟨r, List.mem_of_mem_take hr, hx⟩
  have hhist : x ∈ s.history := by
    obtain ⟨pre, hlog, -⟩ := hcons.numbered
    unfold Service.history historyOf
    rw [hlog, batchVersions_append]
    exact List.mem_append_right _ hall
  have hseq := (hcons.wf.seq_of_replayable hall).1
  rcases h.streams.files.held x hhist p hptr with hfile | hlost | ⟨f, -, -, hlt, hle⟩
  · exact hfile
  · exact absurd hlost (h.placed x hhist p hptr)
  · -- an unread version is shadowed by a flushed one, and this one is not flushed
    exfalso
    change x.seq < f.seq at hlt
    change f.seq ≤ s.released at hle
    have hflushed := h.streams.files.released_le
    omega

end Service.Kept

/-- Every value goes to the value log, and every write rotates the head. -/
def gcOptions : Options :=
  { Options.default plainFormat with valueThreshold := 1, vlogFileSize := 1 }

/-- A value is relocated out of its file, and a snapshot keeps reading the old
version. -/
def relocateFirst (headFault : Bool) : List ServiceAction :=
  let rec₁ : VlogRecord := ⟨⟨1, 0, 8⟩, [byte 107], [byte 1]⟩
  [.engine (.enqueue (.batch [.put [byte 107] [byte 1]])) false, .engine (.group 1) false, .publish,
    .engine .snapshot false,
    .gcPick 1 [[rec₁]],
    .engine (.enqueue (.batch [.put [byte 108] [byte 2]])) false,
      .engine (.group 1) headFault, .publish,
    .gcChunk false, .publish]

/-- A value is flushed, relocated out of its file, and the file retired. -/
def retireFlushed : List ServiceAction :=
  [.engine (.enqueue (.batch [.put [byte 107] [byte 1]])) false, .engine (.group 1) false, .publish,
    .engine .rotate false, .engine .flush false,
    .gcPick 1 [[⟨⟨1, 0, 8⟩, [byte 107], [byte 1]⟩]], .gcChunk false, .publish, .gcSync, .gcRetire]

/-- **A registration between the reads of the gates**: the watermark is read, a fork
registers the flushed head, which is below the retirement seqno, a flush passes that
seqno, and then the flush watermark is read.  The snapshot's value is gone. -/
theorem released_under_snapshot :
    ∃ s : Service, (service gcOptions).Reaches (Service.Homed gcOptions) s ∧
    1 ∈ s.engine.registered ∧ (s.db.getAtSeq [byte 107] 1).isOk = false := by
  have hrun : ((service gcOptions).replay (Service.Homed gcOptions)
      (retireFlushed ++ [.gateWatermark, .engine .snapshotFlushed false, .engine .rotate false,
        .engine .flush false, .gateFlushed, .gates, .release]) (service gcOptions).init).any
      (fun s => decide (1 ∈ s.engine.registered ∧ (s.db.getAtSeq [byte 107] 1).isOk = false)) =
        true := by
    decide +kernel
  obtain ⟨s, hreach, hreg, herr⟩ := System.exists_reaches hrun
  exact ⟨s, hreach, hreg, herr⟩

end Fluent31
