/-
The life of a value-log file.

A version whose file is gone is shadowed at or below the retirement seqno of a
file that passed the gates, and so at or below the flushed seqno: the current state
does not find it, and no WAL record that recovery replays holds it.  A version in a
retired file is shadowed at or below the retirement seqno, and at or below the seqno
up to which the collector synced the WAL, so that a crash cannot bring it back.

Whether a registered seqno finds it is another matter, since a seqno may be
registered below the watermark that the gates have read.  One that stands at the
visible seqno when it is registered is not (`Service.Safe`).

* `Service.Files` — this, and how map, directory and manifest classify the
  files;
* `files_step` — every action keeps it;
* `safe_step` — a registered seqno that no released file is needed for stays one.
-/
import Fluent31.ServiceSteps

namespace Fluent31

open Mvcc

variable {opts : Options} {s s' : Service} {x : Entry}

namespace Service

/-- Every version ever committed. -/
def history (s : Service) : List Entry := historyOf s.engine.log

/-- No reader from the seqnos of the released files on finds the version. -/
def Unread (s : Service) (x : Entry) : Prop := Shadowed s.released s.history x

/-- No file was released, or is about to be, that a reader at the seqno needs. -/
def Safe (s : Service) (t : ℕ) : Prop := s.released ≤ t ∧ ∀ w ∈ s.gate.watermark?, w ≤ t + 1

/-- No file is about to be released that a reader at the seqno needs. -/
def Spares (s : Service) (t : ℕ) : Prop :=
  (∀ r ∈ s.releasing, r.2 ≤ t) ∧ ∀ w ∈ s.gate.watermark?, w ≤ t + 1

theorem Safe.mono {t t' : ℕ} (h : s.Safe t) (hle : t ≤ t') : s.Safe t' :=
  ⟨le_trans h.1 hle, fun w hw => le_trans (h.2 w hw) (Nat.add_le_add_right hle 1)⟩

/-- Every version in file `id` has a newer one at or below `b`. -/
def ShadowedIn (s : Service) (id b : ℕ) : Prop :=
  ∀ x ∈ s.history, ∀ p, x.repr = .ptr p → p.file = id → Shadowed b s.history x

/-- What a pass has achieved: a record that is not to do is not current. -/
structure Passing (s : Service) (p : Pass) : Prop where
  mapped : p.victim ∈ s.vlogs
  ne_head : p.victim ≠ s.vlogHead
  fresh : p.victim ∉ s.manifest.retiredIds
  covered : ∀ r ∈ s.engine.db.vlog.records, r.ptr.file = p.victim → r ∈ p.todo.flatten ∨
    ∀ x ∈ s.history, x.repr = .ptr r.ptr → Shadowed s.engine.db.visibleSeqno s.history x
  synced : p.synced = true → s.ShadowedIn p.victim s.durable

structure Files (s : Service) : Prop where
  engine : s.engine.Inv
  held : ∀ x ∈ s.history, ∀ p, x.repr = .ptr p → p.file ∈ s.vlogs ∨ p.file ∈ s.lost ∨ s.Unread x
  retired : ∀ r ∈ s.manifest.retired, r.1 ∈ s.vlogs ∧ r.1 ≠ s.vlogHead ∧
    s.ShadowedIn r.1 (min r.2 s.durable)
  retired_unique : ∀ r ∈ s.manifest.retired, ∀ r' ∈ s.manifest.retired, r.1 = r'.1 → r = r'
  waiting : ∀ r ∈ s.retired ++ s.releasing, r ∈ s.manifest.retired
  apart : ∀ r ∈ s.retired, ∀ r' ∈ s.releasing, r.1 ≠ r'.1
  releasing : ∀ r ∈ s.releasing, r.2 ≤ s.released
  released_le : s.released ≤ s.engine.db.manifest.lastFlushedSeqno
  gate : ∀ w ∈ s.gate.watermark?, w ≤ s.engine.db.visibleSeqno + 1
  gate_flushed : ∀ w f, s.gate = .flushed w f → f ≤ s.engine.db.manifest.lastFlushedSeqno
  on_disk : ∀ id ∈ s.vlogs, id ∈ s.disk
  vlogs_lt : ∀ id ∈ s.vlogs, id < s.engine.db.nextFileId
  obsolete : ∀ id ∈ s.obsolete, id ∉ s.vlogs ∧ id < s.engine.db.nextFileId
  classified : ∀ id ∈ s.vlogs, id ∈ s.manifest.live ∨ id ∈ s.manifest.retiredIds ∨
    s.manifest.head ≤ id
  live : ∀ id ∈ s.manifest.live, id ∈ s.vlogs ∧ id ∉ s.manifest.retiredIds
  head_le : s.manifest.head ≤ s.engine.db.vlog.headId
  head : s.vlogHead ∈ s.vlogs ∧ s.vlogHead ∉ s.lost ∧
    (s.engine.db.vlog.headId = s.vlogHead ∨ s.engine.db.vlog.headId ∈ s.lost ∧
      s.engine.db.vlog.headId ∉ s.vlogs)
  lost_le : ∀ id ∈ s.lost, id ≤ s.engine.db.vlog.headId
  durable_le : s.durable ≤ s.engine.db.visibleSeqno
  pass : ∀ p ∈ s.pass, s.Passing p
  idle : s.phase ≠ .running → s.pass = none ∧ s.views = [] ∧ s.subs = []
  views : ∀ v ∈ s.views, (∀ id ∈ v.1.version.vlogs, id ∈ s.disk) ∧
    (s.released ≤ v.2 → ∀ key x, v.1.getVersioned key v.2 = some x → ∀ p, x.repr = .ptr p →
      p.file ∈ v.1.version.vlogs ∨ p.file ∈ s.lost)

end Service

/-! ### The engine recovers -/

/-- What a reopen leaves of an engine. -/
structure Recovered (e e' : Engine) (n : ℕ) : Prop where
  history : ∀ x, x ∈ historyOf e'.log ↔ x ∈ historyOf e.log ∧ x.seq ≤ e.db.recoveredSeqno n
  visible : e'.db.visibleSeqno = e.db.recoveredSeqno n
  flushed : e'.db.manifest.lastFlushedSeqno = e.db.recoveredSeqno n
  flushed_le : e.db.manifest.lastFlushedSeqno ≤ e.db.recoveredSeqno n
  snapshots : ∀ t ∈ e'.db.snapshots, t ∈ e.db.snapshots
  head_lt : e.db.vlog.headId < e'.db.vlog.headId
  records : e'.db.vlog.records = e.db.vlog.records

theorem recovered_of_reopen {e e' : Engine} (h : e.Inv) {n orphan : ℕ}
    (hr : e.reopen opts n orphan = some e') : Recovered e e' n := by
  have hinv := h.reopened hr
  have hlog := reopen_log h hr
  unfold Engine.reopen at hr
  obtain ⟨db', hdb, rfl⟩ := Option.map_eq_some_iff.mp hr
  obtain ⟨next, run?, hre, -, hvlogs, -⟩ := reopen_spec h.consistent.wf hdb
  have htake := (h.consistent.wf.take_replayable n).1.le
  refine ⟨fun x => ?_, hre.visible,
    hre.lastFlushed, by omega, fun t ht => ?_, ?_, by rw [hre.vlog]; rfl⟩
  · -- the log is the kept part and the part beyond the recovered head
    obtain ⟨recs, hsplit, -⟩ := cutLog_prefix h.consistent.contiguous db'.visibleSeqno
    have hall := h.consistent.contiguous
    have hkept : Contiguous 1 ((cutLog e.log db'.visibleSeqno).map CommitRec.batch)
        (db'.visibleSeqno + 1) :=
      hlog ▸ hinv.consistent.contiguous
    rw [hsplit, List.map_append, contiguous_append] at hall
    obtain ⟨k, hk, hrest⟩ := hall
    obtain rfl := hkept.unique hk
    have hmem := mem_batchVersions_cut (e := x) hk hrest
    rw [← List.map_append, ← hsplit, Nat.lt_succ_iff] at hmem
    rw [hlog, ← hre.visible]
    exact hmem
  · rw [hre.snapshots] at ht
    obtain ⟨pin, hpin, rfl⟩ := List.mem_map.mp ht
    refine h.snapshots.mem_iff.mpr ?_
    exact List.mem_append_right _ (List.mem_append_left _ (List.mem_map_of_mem hpin))
  · show e.db.vlog.headId < db'.vlog.headId
    rw [hre.vlog]
    exact hvlogs _ h.consistent.wf.head

/-- What is shadowed below the recovered head stays so. -/
theorem Recovered.shadowed {e e' : Engine} {n b : ℕ} (h : Recovered e e' n)
    (hb : b ≤ e.db.recoveredSeqno n)
    (hx : Shadowed b (historyOf e.log) x) : Shadowed b (historyOf e'.log) x := by
  obtain ⟨f, hf, hk, hlt, hle⟩ := hx
  exact ⟨f, (h.history f).mpr ⟨hf, le_trans hle hb⟩, hk, hlt, hle⟩

/-! ### The engine moves -/

variable {a : Action} {e' : Engine} {recs : List CommitRec}

theorem mem_historyOf_moved (h : Moved a s.engine e' recs) :
    x ∈ historyOf e'.log ↔ x ∈ s.history ∨ x ∈ historyOf recs := by
  rw [h.log]
  exact mem_historyOf_append

/-- A version's pointer names a record of its key. -/
theorem Consistent.record {db : Db} {log : List CommitRec} {floor : ℕ} (h : Consistent db log floor)
    (hx : x ∈ historyOf log) {p : ValuePtr} (hp : x.repr = .ptr p) :
    ∃ w, ⟨p, x.ukey, w⟩ ∈ db.vlog.records := by
  obtain ⟨q, -, -, -, -, hholds⟩ := mem_historyOf h.encodes hx
  rw [hp] at hholds
  obtain ⟨w, -, hmem⟩ := hholds
  exact ⟨w, hmem⟩

/-- A version with a pointer is a put. -/
theorem Consistent.put_of_ptr {db : Db} {log : List CommitRec} {floor : ℕ}
    (h : Consistent db log floor)
    (hx : x ∈ historyOf log) {p : ValuePtr} (hp : x.repr = .ptr p) : x.kind = .put := by
  obtain ⟨q, -, -, -, hkind, hholds⟩ := mem_historyOf h.encodes hx
  rw [hp] at hholds
  obtain ⟨w, hvalue, -⟩ := hholds
  cases hop : q.1 with
  | put k v => rw [← hkind, hop, BatchOp.kind]
  | delete k =>
    rw [hop] at hvalue
    exact absurd hvalue (by simp [BatchOp.value?])

/-- A put is what the probe for the current version finds, or a newer version
is visible. -/
theorem Consistent.current {db : Db} {log : List CommitRec} {floor : ℕ}
    (h : Consistent db log floor) (hx : x ∈ historyOf log) (hput : x.kind = .put) :
    db.readView.getVersioned x.ukey MAX_SEQNO = some x ∨
      Shadowed db.visibleSeqno (historyOf log) x := by
  by_cases hshadow : Shadowed db.visibleSeqno (historyOf log) x
  · exact Or.inr hshadow
  · have hle : db.visibleSeqno ≤ MAX_SEQNO := le_of_lt h.wf.visible_lt
    have hnewest : IsNewest (historyOf log) x.ukey MAX_SEQNO x :=
      ⟨hx, rfl, le_trans (h.history_le hx) hle, fun f hf hk _ =>
        not_lt.mp fun hlt => hshadow ⟨f, hf, hk, hlt, h.history_le hf⟩⟩
    have hfloor : floor ≤ MAX_SEQNO := le_trans h.floor_le (le_trans h.wf.flushed_le hle)
    rcases h.retains.answers h.distinct hfloor (h.wf.recent.answers_getVersioned x.ukey MAX_SEQNO)
      (answers_some.mpr hnewest) with heq | ⟨-, f, hf, hdead, -⟩
    · exact Or.inl heq
    · obtain rfl := Option.some_inj.mp hf
      exact absurd (hput.symm.trans hdead) (by simp)

/-- What a probe at or above the floor finds is the newest version committed. -/
theorem Consistent.newest_of_found {db : Db} {log : List CommitRec} {floor : ℕ}
    (h : Consistent db log floor)
    {key : Bytes} {t : ℕ} (ht : floor ≤ t) (hx : db.readView.getVersioned key t = some x) :
    IsNewest (historyOf log) key t x := by
  have hanswer := h.wf.recent.answers_getVersioned key t
  rw [hx] at hanswer
  obtain ⟨found, hfound⟩ := exists_answers (historyOf log) key t
  rcases h.retains.answers h.distinct ht hanswer hfound with rfl | ⟨hnone, -⟩
  · exact hfound
  · exact absurd hnone (by simp)

/-- No two records at one place. -/
theorem Vlog.WF.eq_of_ptr {v : Vlog} {next : ℕ} (h : v.WF next) {r r' : VlogRecord}
    (hr : r ∈ v.records) (hr' : r' ∈ v.records) (heq : r.ptr = r'.ptr) : r = r' := by
  have hpair : v.records.Pairwise fun a b => a.ptr = b.ptr → a = b :=
    h.distinct.imp fun hne hab => absurd hab hne
  have hflip : v.records.Pairwise (flip fun a b => a.ptr = b.ptr → a = b) :=
    h.distinct.imp fun hne hab => absurd hab.symm hne
  exact hpair.forall_of_forall_of_flip (fun _ _ _ => rfl) hflip hr hr' heq

/-- A record some version points to, unless that version is shadowed, is among
the ops of a relocation batch. -/
theorem mem_relocationOps {e : Engine} (h : e.Inv) {chunk : List VlogRecord} {r : VlogRecord}
    (hr : r ∈ chunk) (hrec : r ∈ e.db.vlog.records) (hx : x ∈ historyOf e.log)
    (hp : x.repr = .ptr r.ptr) :
    x.ukey = r.key ∧ (BatchOp.put r.key r.value ∈ relocationOps e.db chunk ∨
      Shadowed e.db.visibleSeqno (historyOf e.log) x) := by
  obtain ⟨w, hmem⟩ := h.consistent.record hx hp
  have heq := h.consistent.wf.vlog.eq_of_ptr hmem hrec rfl
  have hkey : x.ukey = r.key := congrArg VlogRecord.key heq
  have hput := h.consistent.put_of_ptr hx hp
  refine ⟨hkey, (h.consistent.current hx hput).imp_left fun hfound => ?_⟩
  refine List.mem_filterMap.mpr ⟨r, hr, ?_⟩
  rw [← hkey, hfound]
  simp only [hput, hp, and_self, if_true]

/-- What a relocation batch that was applied leaves in the log. -/
theorem relocate_log {e : Engine} {chunk : List VlogRecord}
    (hops : (relocationOps e.db chunk).isEmpty = false)
    (hok : (e.db.applyLocked opts (relocationOps e.db chunk) false).2.isOk = true) :
    (e.relocate opts chunk).log =
      e.log ++ [recOf opts e.db ⟨relocationOps e.db chunk, none, false⟩] := by
  unfold Engine.relocate
  simp only [hops, Bool.false_eq_true, if_false]
  cases hr : (e.db.applyLocked opts (relocationOps e.db chunk) false).2 with
  | ok u => rfl
  | error err =>
    rw [hr] at hok
    exact absurd hok Bool.false_ne_true

/-- An op of a committed batch is a version numbered above the store it met. -/
theorem exists_version_recOf {e : Engine} {v : Vlog} {q : QueuedEntry} {op : BatchOp}
    (hop : op ∈ q.ops) (henc : LogEncodes v [recOf opts e.db q]) :
    ∃ f ∈ historyOf [recOf opts e.db q], f.ukey = op.key ∧ e.db.visibleSeqno < f.seq := by
  obtain ⟨i, hi, rfl⟩ := List.getElem_of_mem hop
  have hmem : (q.ops[i], e.db.visibleSeqno + 1 + i) ∈
      [recOf opts e.db q].flatMap CommitRec.numbered := by
    refine List.mem_flatMap.mpr ⟨_, List.mem_singleton_self _, ?_⟩
    refine List.mk_mem_zipIdx_iff_le_and_getElem?_sub.mpr ⟨Nat.le_add_right _ _, ?_⟩
    show (q.ops ++ _)[e.db.visibleSeqno + 1 + i - (e.db.visibleSeqno + 1)]? = _
    rw [Nat.add_sub_cancel_left, List.getElem?_append_left hi, List.getElem?_eq_getElem hi]
  obtain ⟨f, hf, hseq, hkey⟩ := exists_version_of_numbered henc hmem
  refine ⟨f, hf, hkey, ?_⟩
  rw [hseq]
  exact lt_of_lt_of_le (Nat.lt_succ_self _) (Nat.le_add_right _ _)

/-- The pointers of new versions name the head file that was found, and the value
log has grown. -/
theorem Moved.fresh (h : Moved a s.engine e' recs) (hx : x ∈ historyOf recs) {p : ValuePtr}
    (hp : x.repr = .ptr p) : p.file = s.engine.db.vlog.headId ∧
      s.engine.db.vlog.records.length < e'.db.vlog.records.length := by
  obtain ⟨r, hr, hx⟩ := List.mem_flatMap.mp hx
  obtain ⟨c, hc, rfl⟩ := List.mem_map.mp hr
  obtain ⟨i, enc, henc, rfl⟩ := mem_versionsFrom.mp hx
  exact h.placed.fresh c hc enc (List.mem_of_getElem? henc) p hp

/-! ### The largest retirement seqno -/

theorem foldl_max_le {l : List ℕ} {b c : ℕ} : l.foldl max b ≤ c ↔ b ≤ c ∧ ∀ x ∈ l, x ≤ c := by
  induction l generalizing b with
  | nil => simp
  | cons y l ih => rw [List.foldl_cons, ih, max_le_iff, List.forall_mem_cons, and_assoc]

theorem le_foldl_max (l : List ℕ) (b : ℕ) : b ≤ l.foldl max b := (foldl_max_le.mp le_rfl).1

theorem le_foldl_max_of_mem {l : List ℕ} {b y : ℕ} (hy : y ∈ l) : y ≤ l.foldl max b :=
  (foldl_max_le.mp le_rfl).2 y hy

theorem Engine.Inv.watermark_le_visible {e : Engine} (h : e.Inv) :
    e.db.watermark ≤ e.db.visibleSeqno + 1 := by
  unfold Db.watermark
  cases hmin : e.db.snapshots.min? with
  | none => exact le_rfl
  | some m => exact le_trans (h.retained m (List.min?_eq_some_iff.mp hmin).1).2 (Nat.le_succ _)

namespace Service.Files

theorem released_le_visible (h : s.Files) : s.released ≤ s.engine.db.visibleSeqno :=
  le_trans h.released_le h.engine.consistent.wf.flushed_le

/-- The head file is not a retired one, nor the victim of a pass. -/
theorem ne_headId (h : s.Files) {id : ℕ} (hmapped : id ∈ s.vlogs) (hne : id ≠ s.vlogHead) :
    id ≠ s.engine.db.vlog.headId := by
  rcases h.head.2.2 with heq | ⟨-, hout⟩
  · rwa [heq]
  · rintro rfl
    exact hout hmapped

theorem shadowedIn_moved (h : s.Files) {id b : ℕ} (hmove : Moved a s.engine e' recs)
    (hmapped : id ∈ s.vlogs) (hne : id ≠ s.vlogHead) (hold : s.ShadowedIn id b)
    (hs' : s'.engine = e') : s'.ShadowedIn id b := by
  subst hs'
  intro x hx p hp hfile
  rcases (mem_historyOf_moved hmove).mp hx with hx | hx
  · exact (hold x hx p hp hfile).mono le_rfl fun f hf => (mem_historyOf_moved hmove).mpr (Or.inl hf)
  · exact absurd (hfile.symm.trans (hmove.fresh hx hp).1) (h.ne_headId hmapped hne)

theorem unread_moved {fault : Bool} (hmove : Moved a s.engine e' recs) (hx : s.Unread x) :
    (s.moved e' fault).Unread x :=
  Shadowed.mono hx le_rfl fun _ hf => (mem_historyOf_moved hmove).mpr (Or.inl hf)

/-- What the map, the directory and the lost heads gain by a move. -/
theorem moved_files (s : Service) (e' : Engine) (fault : Bool) :
    (∀ id, id ∈ (s.moved e' fault).vlogs ↔ id ∈ s.vlogs ∨
      (id = e'.db.vlog.headId ∧ e'.db.vlog.headId ≠ s.engine.db.vlog.headId ∧ fault = false)) ∧
    (∀ id, id ∈ (s.moved e' fault).disk ↔ id ∈ s.disk ∨
      (id = e'.db.vlog.headId ∧ e'.db.vlog.headId ≠ s.engine.db.vlog.headId)) ∧
    (∀ id, id ∈ (s.moved e' fault).lost ↔ id ∈ s.lost ∨
      (id = e'.db.vlog.headId ∧ e'.db.vlog.headId ≠ s.engine.db.vlog.headId ∧ fault = true)) ∧
    (s.moved e' fault).vlogHead =
      if e'.db.vlog.headId ≠ s.engine.db.vlog.headId ∧ fault = false then e'.db.vlog.headId
      else s.vlogHead := by
  unfold Service.moved
  by_cases hrot : e'.db.vlog.headId = s.engine.db.vlog.headId
  · simp [hrot]
  · cases fault <;> simp [hrot, or_comm]

theorem passing_moved {p : Pass} {fault : Bool} (h : s.Files) (hp : s.Passing p)
    (hmove : Moved a s.engine e' recs) : (s.moved e' fault).Passing p := by
  obtain ⟨hvlogs, -, -, hhead⟩ := moved_files s e' fault
  have hne := h.ne_headId hp.mapped hp.ne_head
  refine ⟨(hvlogs _).mpr (Or.inl hp.mapped), ?_, hp.fresh, fun r hr hfile => ?_, fun hsync =>
    h.shadowedIn_moved hmove hp.mapped hp.ne_head (hp.synced hsync) rfl⟩
  · rw [hhead]
    split
    · rename_i hrot
      have := hmove.placed.head.resolve_left hrot.1
      have := h.vlogs_lt _ hp.mapped
      omega
    · exact hp.ne_head
  · rcases hmove.placed.grown r hr with hr | hr
    · refine (hp.covered r hr hfile).imp_right fun hold x hx hrepr => ?_
      rcases (mem_historyOf_moved hmove).mp hx with hx | hx
      · exact (hold x hx hrepr).mono hmove.visible_le fun f hf =>
          (mem_historyOf_moved hmove).mpr (Or.inl hf)
      · exact absurd (hfile.symm.trans (hmove.fresh hx hrepr).1) hne
    · exact absurd (hfile.symm.trans hr) hne

/-- **The engine moves**, with or without a failing head rotation. -/
theorem move {fault : Bool} (h : s.Files) (hmove : Moved a s.engine e' recs) (hinv : e'.Inv) :
    (s.moved e' fault).Files := by
  obtain ⟨hvlogs, hdisk, hlost, hhead⟩ := moved_files s e' fault
  have hlt := h.engine.consistent.wf.vlog.head_lt
  have hlt' := hinv.consistent.wf.vlog.head_lt
  have hnext := hmove.next_le
  have hnew : e'.db.vlog.headId ≠ s.engine.db.vlog.headId →
      s.engine.db.nextFileId ≤ e'.db.vlog.headId :=
    hmove.placed.head.resolve_left
  have hle : s.engine.db.vlog.headId ≤ e'.db.vlog.headId := by
    rcases hmove.placed.head with heq | hge
    · exact le_of_eq heq.symm
    · omega
  have hne : ∀ id ∈ s.vlogs, id ≠ s.vlogHead → id ≠ (s.moved e' fault).vlogHead := by
    intro id hid hold
    rw [hhead]
    split
    · rename_i hrot
      have := hnew hrot.1
      have := h.vlogs_lt id hid
      omega
    · exact hold
  exact
    { engine := hinv
      held := fun x hx p hp => by
        rcases (mem_historyOf_moved hmove).mp hx with hx | hx
        · rcases h.held x hx p hp with hmem | hmem | hun
          · exact Or.inl ((hvlogs _).mpr (Or.inl hmem))
          · exact Or.inr (Or.inl ((hlost _).mpr (Or.inl hmem)))
          · exact Or.inr (Or.inr (unread_moved hmove hun))
        · -- a new value lies in the head file that was found
          rw [(hmove.fresh hx hp).1]
          rcases h.head.2.2 with heq | ⟨hmem, -⟩
          · exact Or.inl ((hvlogs _).mpr (Or.inl (heq ▸ h.head.1)))
          · exact Or.inr (Or.inl ((hlost _).mpr (Or.inl hmem)))
      retired := fun r hr => by
        obtain ⟨hmem, hhd, hshadow⟩ := h.retired r hr
        exact ⟨(hvlogs _).mpr (Or.inl hmem), hne _ hmem hhd,
          h.shadowedIn_moved hmove hmem hhd hshadow rfl⟩
      retired_unique := h.retired_unique
      waiting := h.waiting
      apart := h.apart
      releasing := h.releasing
      released_le := le_trans h.released_le hmove.flushed_le
      gate := fun w hw => le_trans (h.gate w hw) (Nat.add_le_add_right hmove.visible_le 1)
      gate_flushed := fun w f hgate => le_trans (h.gate_flushed w f hgate) hmove.flushed_le
      on_disk := fun id hid => (hdisk id).mpr (((hvlogs id).mp hid).imp (h.on_disk id) fun hfresh =>
        ⟨hfresh.1, hfresh.2.1⟩)
      vlogs_lt := fun id hid => by
        show id < e'.db.nextFileId
        rcases (hvlogs id).mp hid with hid | ⟨rfl, -⟩
        · have := h.vlogs_lt id hid
          omega
        · exact hlt'
      obsolete := fun id hid => by
        obtain ⟨hout, hidlt⟩ := h.obsolete id hid
        refine ⟨fun hmem => ?_, lt_of_lt_of_le hidlt hnext⟩
        rcases (hvlogs id).mp hmem with hmem | ⟨rfl, hrot, -⟩
        · exact hout hmem
        · have := hnew hrot
          omega
      classified := fun id hid => by
        rcases (hvlogs id).mp hid with hid | ⟨rfl, -⟩
        · exact h.classified id hid
        · exact Or.inr (Or.inr (le_trans h.head_le hle))
      live := fun id hid => ⟨(hvlogs id).mpr (Or.inl (h.live id hid).1), (h.live id hid).2⟩
      head_le := le_trans h.head_le hle
      head := by
        rw [hhead]
        by_cases hrot : e'.db.vlog.headId = s.engine.db.vlog.headId
        · rw [if_neg fun hc => hc.1 hrot]
          refine ⟨(hvlogs _).mpr (Or.inl h.head.1), fun hmem => ?_, ?_⟩
          · rcases (hlost _).mp hmem with hmem | hmem
            · exact h.head.2.1 hmem
            · exact hmem.2.1 hrot
          · show e'.db.vlog.headId = s.vlogHead ∨ e'.db.vlog.headId ∈ (s.moved e' fault).lost ∧
              e'.db.vlog.headId ∉ (s.moved e' fault).vlogs
            rw [hrot]
            refine h.head.2.2.imp_right fun ⟨hmem, hout⟩ =>
              ⟨(hlost _).mpr (Or.inl hmem), fun hin => ?_⟩
            rcases (hvlogs _).mp hin with hin | hin
            · exact hout hin
            · exact hin.2.1 hrot
        · have hge := hnew hrot
          cases fault with
          | false =>
            rw [if_pos ⟨hrot, rfl⟩]
            refine ⟨(hvlogs _).mpr (Or.inr ⟨rfl, hrot, rfl⟩), fun hmem => ?_, Or.inl rfl⟩
            rcases (hlost _).mp hmem with hmem | hmem
            · have := h.lost_le _ hmem
              omega
            · exact absurd hmem.2.2 (by simp)
          | true =>
            rw [if_neg (by simp)]
            refine ⟨(hvlogs _).mpr (Or.inl h.head.1), fun hmem => ?_,
              Or.inr ⟨(hlost _).mpr (Or.inr ⟨rfl, hrot, rfl⟩), fun hin => ?_⟩⟩
            · rcases (hlost _).mp hmem with hmem | hmem
              · exact h.head.2.1 hmem
              · have := h.vlogs_lt _ h.head.1
                omega
            · rcases (hvlogs _).mp hin with hin | hin
              · have hlt := h.vlogs_lt _ hin
                have : e'.db.vlog.headId < s.engine.db.nextFileId := hlt
                omega
              · exact absurd hin.2.2 (by simp)
      lost_le := fun id hid => by
        show id ≤ e'.db.vlog.headId
        rcases (hlost id).mp hid with hid | ⟨rfl, -⟩
        · exact le_trans (h.lost_le id hid) hle
        · exact le_rfl
      durable_le := le_trans h.durable_le hmove.visible_le
      pass := fun p hp => h.passing_moved (h.pass p hp) hmove
      idle := h.idle
      views := fun v hv => by
        obtain ⟨hfiles, hread⟩ := h.views v hv
        exact ⟨fun id hid => (hdisk id).mpr (Or.inl (hfiles id hid)), fun hle key x hx p hp =>
          (hread hle key x hx p hp).imp_right fun hmem => (hlost _).mpr (Or.inl hmem)⟩ }

/-- A chunk is relocated: its records are not current any more. -/
theorem passing_chunk {p : Pass} {chunk : List VlogRecord} {todo : List (List VlogRecord)}
    {fault : Bool} (h : s.Files) (hp : s.Passing p) (htodo : p.todo = chunk :: todo)
    (hs : s.engine.step opts (.relocate chunk) = some e')
    (happlied : (relocationOps s.engine.db chunk).isEmpty = true ∨
      (s.engine.db.applyLocked opts (relocationOps s.engine.db chunk) false).2.isOk = true) :
    (s.moved e' fault).Passing { p with todo := todo } := by
  obtain ⟨recs, hmove⟩ := moved_step h.engine hs fun _ _ => by simp
  have hinv := inv_step h.engine hs
  obtain ⟨hrecs, rfl⟩ := Engine.guarded_eq_some hs
  have hp' : (s.moved (s.engine.relocate opts chunk) fault).Passing p := h.passing_moved hp hmove
  have hold : ∀ x ∈ s.history, x ∈ historyOf (s.engine.relocate opts chunk).log := fun x hx =>
    (mem_historyOf_moved hmove).mpr (Or.inl hx)
  refine ⟨hp'.mapped, hp'.ne_head, hp'.fresh, fun r hr hfile => ?_, hp'.synced⟩
  rcases hp'.covered r hr hfile with hin | hdone
  · rw [htodo, List.flatten_cons, List.mem_append] at hin
    refine hin.symm.imp_right fun hchunk x hx hrepr => ?_
    have hx : x ∈ s.history := ((mem_historyOf_moved hmove).mp hx).resolve_right fun hnew =>
      h.ne_headId hp.mapped hp.ne_head (hfile.symm.trans (hmove.fresh hnew hrepr).1)
    obtain ⟨hkey, hop | hshadow⟩ := mem_relocationOps h.engine hchunk (hrecs r hchunk) hx hrepr
    · -- the probe found it, so the batch wrote its key again
      have hne : (relocationOps s.engine.db chunk).isEmpty = false := by
        rw [List.isEmpty_eq_false_iff]
        exact List.ne_nil_of_mem hop
      have hlog := relocate_log hne (happlied.resolve_left (by simp [hne]))
      obtain ⟨f, hf, hfkey, hlt⟩ := exists_version_recOf hop fun c hc =>
        hinv.consistent.encodes c (hlog ▸ List.mem_append_right _ hc)
      have hmem : f ∈ historyOf (s.engine.relocate opts chunk).log := by
        rw [hlog]
        exact mem_historyOf_append.mpr (Or.inr hf)
      exact ⟨f, hmem, hfkey.trans hkey.symm, lt_of_le_of_lt (h.engine.consistent.history_le hx) hlt,
        hinv.consistent.history_le hmem⟩
    · exact hshadow.mono hmove.visible_le hold
  · exact Or.inr hdone

/-- Subscriptions, the publisher and the bookkeeping do not matter. -/
theorem aside (h : s.Files) (degraded : Bool) (subs : List Subscription) (active : Bool)
    (publishing : List (ℕ × List EncEntry)) (relocated : List ℕ)
    (hidle : s.phase ≠ .running → subs = []) :
    ({ s with
      degraded := degraded
      subs := subs
      subsActive := active
      publishing := publishing
      relocated := relocated } : Service).Files :=
  { h with
    pass := fun p hp => { h.pass p hp with }
    idle := fun hphase => ⟨(h.idle hphase).1, (h.idle hphase).2.1, hidle hphase⟩ }

/-- A pass begins, goes on or ends. -/
theorem repass (h : s.Files) (pass : Option Pass) (hp : ∀ p ∈ pass, s.Passing p)
    (hidle : s.phase ≠ .running → pass = none) : ({ s with pass := pass } : Service).Files :=
  { h with
    pass := fun p hp' => { hp p hp' with }
    idle := fun hphase => ⟨hidle hphase, (h.idle hphase).2⟩ }

theorem phase_of_pass (h : s.Files) {p : Pass} (hp : p ∈ s.pass) : s.phase = .running := by
  by_contra hphase
  rw [(h.idle hphase).1] at hp
  exact Option.not_mem_none p hp

/-- The collector has synced the WAL: no version in the victim can come back. -/
theorem synced {p : Pass} (h : s.Files) (hp : p ∈ s.pass) (htodo : p.todo = []) :
    ({ s with
      pass := some { p with synced := true }
      durable := s.engine.db.visibleSeqno } : Service).Files := by
  have hshadow : s.ShadowedIn p.victim s.engine.db.visibleSeqno := by
    intro x hx q hq hfile
    obtain ⟨w, hrec⟩ := h.engine.consistent.record hx hq
    refine ((h.pass p hp).covered _ hrec hfile).resolve_left ?_ x hx hq
    rw [htodo]
    exact List.not_mem_nil
  exact
    { h with
      retired := fun r hr => by
        obtain ⟨hmem, hne, hold⟩ := h.retired r hr
        exact ⟨hmem, hne, fun x hx q hq hfile =>
          (hold x hx q hq hfile).mono (min_le_min_left _ h.durable_le) fun _ hf => hf⟩
      durable_le := le_rfl
      pass := fun p' hp' => by
        obtain rfl := Option.some_inj.mp hp'
        exact { h.pass p hp with synced := fun _ => hshadow }
      idle := fun hphase => absurd (h.phase_of_pass hp) hphase }

theorem mem_retiredIds {r : ℕ × ℕ} {m : VlogManifest} (h : r ∈ m.retired) : r.1 ∈ m.retiredIds :=
  List.mem_map_of_mem h

/-- The victim is retired. -/
theorem retire {p : Pass} (h : s.Files) (hp : p ∈ s.pass) (hsynced : p.synced = true) :
    ({ s with
      pass := none
      manifest := { s.manifest with
        live := s.manifest.live.filter fun id => decide (id ≠ p.victim)
        retired := s.manifest.retired ++ [(p.victim, s.engine.db.visibleSeqno)] }
      retired := s.retired ++ [(p.victim, s.engine.db.visibleSeqno)] } : Service).Files := by
  have hpass := h.pass p hp
  -- the victim was not retired before
  have hfresh : ∀ r ∈ s.manifest.retired, r.1 ≠ p.victim := fun r hr heq =>
    hpass.fresh (heq ▸ mem_retiredIds hr)
  have hids : ∀ id,
      id ∈ (s.manifest.retired ++ [(p.victim, s.engine.db.visibleSeqno)]).map Prod.fst ↔
      id ∈ s.manifest.retiredIds ∨ id = p.victim := by
    intro id
    rw [List.map_append, List.mem_append, List.map_singleton, List.mem_singleton]
    rfl
  exact
    { h with
      retired := fun r hr => by
        rcases List.mem_append.mp hr with hr | hr
        · exact h.retired r hr
        · rw [List.mem_singleton.mp hr, min_eq_right h.durable_le]
          exact ⟨hpass.mapped, hpass.ne_head, hpass.synced hsynced⟩
      retired_unique := fun r hr r' hr' heq => by
        rcases List.mem_append.mp hr with hr | hr <;> rcases List.mem_append.mp hr' with hr' | hr'
        · exact h.retired_unique r hr r' hr' heq
        · rw [List.mem_singleton.mp hr'] at heq
          exact absurd heq (hfresh r hr)
        · rw [List.mem_singleton.mp hr] at heq
          exact absurd heq.symm (hfresh r' hr')
        · rw [List.mem_singleton.mp hr, List.mem_singleton.mp hr']
      waiting := fun r hr => by
        rw [List.append_assoc, List.mem_append, List.mem_append] at hr
        rcases hr with hr | hr | hr
        · exact List.mem_append_left _ (h.waiting r (List.mem_append_left _ hr))
        · exact List.mem_append_right _ hr
        · exact List.mem_append_left _ (h.waiting r (List.mem_append_right _ hr))
      apart := fun r hr r' hr' => by
        rcases List.mem_append.mp hr with hr | hr
        · exact h.apart r hr r' hr'
        · rw [List.mem_singleton.mp hr]
          exact (hfresh r' (h.waiting r' (List.mem_append_right _ hr'))).symm
      classified := fun id hid => by
        by_cases heq : id = p.victim
        · exact Or.inr (Or.inl ((hids id).mpr (Or.inr heq)))
        · rcases h.classified id hid with hlive | hret | hyoung
          · exact Or.inl (List.mem_filter.mpr ⟨hlive, decide_eq_true heq⟩)
          · exact Or.inr (Or.inl ((hids id).mpr (Or.inl hret)))
          · exact Or.inr (Or.inr hyoung)
      live := fun id hid => by
        obtain ⟨hlive, hne⟩ := List.mem_filter.mp hid
        refine ⟨(h.live id hlive).1, fun hret => ?_⟩
        rcases (hids id).mp hret with hret | heq
        · exact (h.live id hlive).2 hret
        · exact of_decide_eq_true hne heq
      pass := fun _ hp' => absurd hp' (Option.not_mem_none _)
      idle := fun hphase => absurd (h.phase_of_pass hp) hphase }

/-- A gate is read. -/
theorem regate (h : s.Files) (gate : Gate)
    (hw : ∀ w ∈ gate.watermark?, w ≤ s.engine.db.visibleSeqno + 1)
    (hf : ∀ w f, gate = .flushed w f → f ≤ s.engine.db.manifest.lastFlushedSeqno) :
    ({ s with gate := gate } : Service).Files :=
  { h with
    gate := hw
    gate_flushed := hf
    pass := fun p hp => { h.pass p hp with } }

/-- A retired file passes its gates: what the current state does not find is
flushed. -/
theorem gated (h : s.Files) {w f : ℕ} (hgate : s.gate = .flushed w f) :
    ({ s with
      gate := .idle
      releasing := s.ready w f
      retired := s.retired.filter fun r => !passesGates w f r
      released := ((s.ready w f).map Prod.snd).foldl max s.released } : Service).Files :=
  { h with
    held := fun x hx p hp => (h.held x hx p hp).imp_right fun hor => hor.imp_right fun hun =>
      Shadowed.mono hun (le_foldl_max _ _) fun _ hf => hf
    waiting := fun r hr => by
      refine h.waiting r (List.mem_append_left _ ?_)
      rcases List.mem_append.mp hr with hr | hr
      · exact List.mem_of_mem_filter hr
      · exact List.mem_of_mem_filter hr
    apart := fun r hr r' hr' heq => by
      obtain ⟨hr, hfails⟩ := List.mem_filter.mp hr
      obtain ⟨hr', hpasses⟩ := List.mem_filter.mp hr'
      have hsame := h.retired_unique r (h.waiting r (List.mem_append_left _ hr)) r'
        (h.waiting r' (List.mem_append_left _ hr')) heq
      rw [hsame, hpasses] at hfails
      exact absurd hfails (by simp)
    releasing := fun r hr => le_foldl_max_of_mem (List.mem_map_of_mem hr)
    released_le := foldl_max_le.mpr ⟨h.released_le, fun seq hseq => by
      obtain ⟨r, hr, rfl⟩ := List.mem_map.mp hseq
      exact le_trans (of_decide_eq_true (List.mem_filter.mp hr).2).2 (h.gate_flushed w f hgate)⟩
    gate := fun _ hw => nomatch hw
    gate_flushed := fun _ _ hidle => nomatch hidle
    pass := fun p hp => { h.pass p hp with }
    views := fun v hv =>
      ⟨(h.views v hv).1, fun hle => (h.views v hv).2 (le_trans (le_foldl_max _ _) hle)⟩ }

/-- The released files leave map and manifest: what points into them is unread. -/
theorem release (h : s.Files) :
    ({ s with
      manifest := { s.manifest with
        retired := s.manifest.retired.filter fun r => decide (r.1 ∉ s.releasing.map Prod.fst) }
      vlogs := s.vlogs.filter fun id => decide (id ∉ s.releasing.map Prod.fst)
      obsolete := s.obsolete ++ s.releasing.map Prod.fst
      releasing := [] } : Service).Files := by
  -- what is released was retired, so it is not the head
  have hret : ∀ id ∈ s.releasing.map Prod.fst, ∃ r ∈ s.releasing, r.1 = id ∧
      r ∈ s.manifest.retired := by
    intro id hid
    obtain ⟨r, hr, rfl⟩ := List.mem_map.mp hid
    exact ⟨r, hr, rfl, h.waiting r (List.mem_append_right _ hr)⟩
  have hkept : ∀ id ∈ s.vlogs, id ∉ s.releasing.map Prod.fst →
      id ∈ s.vlogs.filter fun id => decide (id ∉ s.releasing.map Prod.fst) :=
    fun id hid hout => List.mem_filter.mpr ⟨hid, decide_eq_true hout⟩
  have hhead : s.vlogHead ∉ s.releasing.map Prod.fst := fun hmem => by
    obtain ⟨r, -, heq, hr⟩ := hret _ hmem
    exact (h.retired r hr).2.1 heq
  have hids : ∀ id, id ∈ (s.manifest.retired.filter fun r =>
      decide (r.1 ∉ s.releasing.map Prod.fst)).map Prod.fst → id ∈ s.manifest.retiredIds := by
    intro id hid
    obtain ⟨r, hr, rfl⟩ := List.mem_map.mp hid
    exact mem_retiredIds (List.mem_of_mem_filter hr)
  exact
    { h with
      held := fun x hx p hp => by
        rcases h.held x hx p hp with hmem | hlost | hun
        · by_cases hrel : p.file ∈ s.releasing.map Prod.fst
          · -- a pointer into a released file is of a version that newer ones hide
            obtain ⟨r, hr, heq, hmr⟩ := hret _ hrel
            exact Or.inr (Or.inr (((h.retired r hmr).2.2 x hx p hp heq.symm).mono
              (le_trans (min_le_left _ _) (h.releasing r hr)) fun _ hf => hf))
          · exact Or.inl (hkept _ hmem hrel)
        · exact Or.inr (Or.inl hlost)
        · exact Or.inr (Or.inr hun)
      retired := fun r hr => by
        obtain ⟨hr, hout⟩ := List.mem_filter.mp hr
        obtain ⟨hmem, hne, hshadow⟩ := h.retired r hr
        exact ⟨hkept _ hmem (of_decide_eq_true hout), hne, hshadow⟩
      retired_unique := fun r hr r' hr' =>
        h.retired_unique r (List.mem_of_mem_filter hr) r' (List.mem_of_mem_filter hr')
      waiting := fun r hr => by
        rw [List.append_nil] at hr
        refine List.mem_filter.mpr
          ⟨h.waiting r (List.mem_append_left _ hr), decide_eq_true fun hmem => ?_⟩
        obtain ⟨r', hr', heq⟩ := List.mem_map.mp hmem
        exact h.apart r hr r' hr' heq.symm
      apart := fun _ _ _ hr' => absurd hr' List.not_mem_nil
      releasing := fun _ hr => absurd hr List.not_mem_nil
      on_disk := fun id hid => h.on_disk id (List.mem_of_mem_filter hid)
      vlogs_lt := fun id hid => h.vlogs_lt id (List.mem_of_mem_filter hid)
      obsolete := fun id hid => by
        rcases List.mem_append.mp hid with hid | hid
        · exact ⟨fun hmem => (h.obsolete id hid).1 (List.mem_of_mem_filter hmem),
            (h.obsolete id hid).2⟩
        · obtain ⟨r, -, rfl, hr⟩ := hret id hid
          exact ⟨fun hmem => of_decide_eq_true (List.mem_filter.mp hmem).2 hid,
            h.vlogs_lt _ (h.retired r hr).1⟩
      classified := fun id hid => by
        obtain ⟨hid, hout⟩ := List.mem_filter.mp hid
        refine (h.classified id hid).imp_right fun hor => hor.imp_left fun hmem => ?_
        obtain ⟨r, hr, rfl⟩ := List.mem_map.mp hmem
        exact List.mem_map_of_mem (List.mem_filter.mpr ⟨hr, hout⟩)
      live := fun id hid => by
        obtain ⟨hmem, hnot⟩ := h.live id hid
        refine ⟨hkept id hmem fun hrel => ?_, fun hret' => hnot (hids id hret')⟩
        obtain ⟨r, -, rfl, hr⟩ := hret id hrel
        exact hnot (mem_retiredIds hr)
      head := ⟨hkept _ h.head.1 hhead, h.head.2.1, h.head.2.2.imp_right fun ⟨hmem, hout⟩ =>
        ⟨hmem, fun hin => hout (List.mem_of_mem_filter hin)⟩⟩
      pass := fun p hp => by
        have hpass := h.pass p hp
        refine { hpass with
          mapped := hkept _ hpass.mapped fun hrel => ?_
          fresh := fun hmem => hpass.fresh (hids _ hmem) }
        obtain ⟨r, -, heq, hr⟩ := hret _ hrel
        exact hpass.fresh (heq ▸ mem_retiredIds hr) }

/-- What a reader at the visible seqno, or at a registered one from those of the
released files on, finds is not unread. -/
theorem readable (h : s.Files) {t : ℕ}
    (ht : t = s.engine.db.visibleSeqno ∨ t ∈ s.engine.db.snapshots ∧ s.released ≤ t)
    {key : Bytes} (hx : s.engine.db.readView.getVersioned key t = some x) {p : ValuePtr}
    (hp : x.repr = .ptr p) : p.file ∈ s.vlogs ∨ p.file ∈ s.lost := by
  have hcons := h.engine.consistent
  have hanswer := hcons.wf.recent.answers_getVersioned key t
  rw [hx] at hanswer
  have hmem : x ∈ s.history := hcons.retains.sub x hanswer.1
  rcases h.held x hmem p hp with hfile | hfile | hshadow
  · exact Or.inl hfile
  · exact Or.inr hfile
  · exfalso
    have hle : s.engine.floor ≤ t ∧ s.released ≤ t := by
      rcases ht with rfl | ht
      · exact ⟨h.engine.floor_le_visible, h.released_le_visible⟩
      · exact ⟨(h.engine.retained t ht.1).1, ht.2⟩
    obtain ⟨r, hr⟩ := exists_answers (historyOf s.engine.log) key t
    rcases hcons.retains.answers hcons.distinct hle.1 hanswer hr with rfl | ⟨hnone, -⟩
    · exact IsNewest.not_shadowed hr hle.2 hshadow
    · exact absurd hnone (by simp)

/-- An iterator takes its view. -/
theorem openView (h : s.Files) (hphase : s.phase = .running) {seq : Option ℕ}
    (hseq : ∀ t ∈ seq, t ∈ s.engine.handles) :
    ({ s with views := s.views ++
        [(s.db.readView, min (seq.getD s.engine.db.visibleSeqno) s.engine.db.visibleSeqno)] } :
      Service).Files := by
  have ht : min (seq.getD s.engine.db.visibleSeqno) s.engine.db.visibleSeqno =
      s.engine.db.visibleSeqno ∨
      min (seq.getD s.engine.db.visibleSeqno) s.engine.db.visibleSeqno ∈ s.engine.db.snapshots := by
    cases seq with
    | none => exact Or.inl (min_self _)
    | some t =>
      have hreg : t ∈ s.engine.db.snapshots :=
        h.engine.snapshots.mem_iff.mpr (List.mem_append_left _ (hseq t rfl))
      rw [Option.getD_some, min_eq_left (h.engine.retained t hreg).2]
      exact Or.inr hreg
  exact
    { h with
      pass := fun p hp => { h.pass p hp with }
      idle := fun hne => absurd hphase hne
      views := fun v hv => by
        rcases List.mem_append.mp hv with hv | hv
        · exact h.views v hv
        · rw [List.mem_singleton.mp hv]
          exact ⟨h.on_disk, fun hle key x hx p hp =>
            h.readable (ht.imp_right fun hreg => ⟨hreg, hle⟩) hx hp⟩ }

theorem closeView (h : s.Files) (i : ℕ) :
    ({ s with views := s.views.eraseIdx i } : Service).Files :=
  { h with
    pass := fun p hp => { h.pass p hp with }
    idle := fun hne => by
      obtain ⟨hpass, hviews, hsubs⟩ := h.idle hne
      exact ⟨hpass, by rw [hviews, List.eraseIdx_nil], hsubs⟩
    views := fun v hv => h.views v (List.mem_of_mem_eraseIdx hv) }

theorem unlink (h : s.Files) {id : ℕ} (hid : id ∈ s.obsolete)
    (hviews : ∀ v ∈ s.views, id ∉ v.1.version.vlogs) :
    ({ s with
      disk := s.disk.filter fun i => decide (i ≠ id)
      obsolete := s.obsolete.filter fun i => decide (i ≠ id) } : Service).Files :=
  { h with
    on_disk := fun i hi => List.mem_filter.mpr ⟨h.on_disk i hi, decide_eq_true fun heq =>
      (h.obsolete id hid).1 (heq ▸ hi)⟩
    obsolete := fun i hi => h.obsolete i (List.mem_of_mem_filter hi)
    pass := fun p hp => { h.pass p hp with }
    views := fun v hv =>
      ⟨fun i hi => List.mem_filter.mpr ⟨(h.views v hv).1 i hi, decide_eq_true fun heq =>
      hviews v hv (heq ▸ hi)⟩, (h.views v hv).2⟩ }

theorem mem_adopt {m : VlogManifest} {disk : List ℕ} {id : ℕ} : id ∈ m.adopt disk ↔ id ∈ m.live ∨
    (id ∈ disk ∧ (id ∈ m.retiredIds ∨ m.head ≤ id ∧ id ∉ m.live ∧ id ∉ m.retiredIds)) := by
  unfold VlogManifest.adopt
  simp only [List.mem_append, List.mem_filter, decide_eq_true_eq]
  tauto

/-- A resolvable file that is still there is live, retired or young. -/
theorem adopted (h : s.Files) {disk : List ℕ} (hdisk : ∀ id ∈ s.vlogs, id ∈ disk) :
    ∀ id ∈ s.vlogs, id ∈ s.manifest.adopt disk := by
  intro id hid
  by_cases hl : id ∈ s.manifest.live
  · exact mem_adopt.mpr (Or.inl hl)
  · by_cases hret : id ∈ s.manifest.retiredIds
    · exact mem_adopt.mpr (Or.inr ⟨hdisk id hid, Or.inl hret⟩)
    · have hyoung := ((h.classified id hid).resolve_left hl).resolve_left hret
      exact mem_adopt.mpr (Or.inr ⟨hdisk id hid, Or.inr ⟨hyoung, hl, hret⟩⟩)

/-- **Recovery** finds every file again that is resolvable before the crash. -/
theorem reopened (h : s.Files) {n orphan : ℕ} {vanished : List ℕ}
    (hr : s.reopen opts n orphan vanished = some s') : s'.Files := by
  obtain ⟨e', disk, he, hdiskEq, hdurable, hvanished, hbelow, hlive, rfl⟩ := Service.reopen_cases hr
  have hinv := h.engine.reopened he
  have hrec := recovered_of_reopen h.engine he
  -- what vanished was not mapped
  have hdisk : ∀ id ∈ s.vlogs, id ∈ disk := fun id hid => hdiskEq ▸
    List.mem_filter.mpr ⟨h.on_disk id hid, decide_eq_true fun hv => hvanished id hv hid⟩
  have hfiles := h.adopted hdisk
  have hpresent : ∀ id ∈ s.manifest.adopt disk,
      id ∈ disk := fun id hid => (mem_adopt.mp hid).elim (hlive id) And.left
  have hhead : e'.db.vlog.headId < e'.db.nextFileId := hinv.consistent.wf.vlog.head_lt
  have hreleased : s.released ≤ s.engine.db.recoveredSeqno n :=
    le_trans h.released_le hrec.flushed_le
  exact
    { engine := hinv
      held := fun x hx p hp => by
        rcases h.held x ((hrec.history x).mp hx).1 p hp with hfile | hfile | hshadow
        · exact Or.inl (List.mem_append_left _ (hfiles _ hfile))
        · exact Or.inr (Or.inl hfile)
        · exact Or.inr (Or.inr (hrec.shadowed hreleased hshadow))
      retired := fun r hr => by
        obtain ⟨hmem, -, hshadow⟩ := h.retired r hr
        refine ⟨List.mem_append_left _ (hfiles _ hmem), ne_of_lt (hbelow _ (hdisk _ hmem)),
          fun x hx p hp hfile => hrec.shadowed ?_ (hshadow x ((hrec.history x).mp hx).1 p hp hfile)⟩
        exact le_trans (min_le_right _ _) hdurable
      retired_unique := h.retired_unique
      waiting := fun r hr => by
        rw [List.append_nil] at hr
        exact List.mem_of_mem_filter hr
      apart := fun _ _ _ hr' => absurd hr' List.not_mem_nil
      releasing := fun _ hr => absurd hr List.not_mem_nil
      released_le := le_of_le_of_eq hreleased hrec.flushed.symm
      gate := fun _ hw => nomatch hw
      gate_flushed := fun _ _ hidle => nomatch hidle
      on_disk := fun id hid => by
        rcases List.mem_append.mp hid with hid | hid
        · exact List.mem_append_left _ (hpresent id hid)
        · exact List.mem_append_right _ hid
      vlogs_lt := fun id hid => by
        rcases List.mem_append.mp hid with hid | hid
        · exact lt_trans (hbelow id (hpresent id hid)) hhead
        · rw [List.mem_singleton.mp hid]
          exact hhead
      obsolete := fun _ hid => absurd hid List.not_mem_nil
      classified := fun id hid => by
        rcases List.mem_append.mp hid with hid | hid
        · exact (mem_adopt.mp hid).imp_right fun hor => hor.2.imp_right And.left
        · rw [List.mem_singleton.mp hid]
          exact Or.inr (Or.inr (le_trans h.head_le (le_of_lt hrec.head_lt)))
      live := fun id hid => ⟨List.mem_append_left _ (mem_adopt.mpr (Or.inl hid)), (h.live id hid).2⟩
      head_le := le_trans h.head_le (le_of_lt hrec.head_lt)
      head := ⟨List.mem_append_right _ (List.mem_singleton_self _), fun hlost =>
        absurd (h.lost_le _ hlost) (not_le_of_gt hrec.head_lt), Or.inl rfl⟩
      lost_le := fun id hid => le_trans (h.lost_le id hid) (le_of_lt hrec.head_lt)
      durable_le := le_of_le_of_eq hdurable hrec.visible.symm
      pass := fun _ hp => absurd hp (Option.not_mem_none _)
      idle := fun _ => ⟨rfl, rfl, rfl⟩
      views := fun _ hv => absurd hv List.not_mem_nil }

/-- A crash during recovery leaves its head file behind. -/
theorem crashOpening (h : s.Files) (id : ℕ) :
    ({ s with
      phase := .down
      disk := s.disk ++ [id]
      gate := .idle
      releasing := []
      obsolete := []
      pass := none
      views := []
      subs := []
      subsActive := false
      publishing := [] } : Service).Files :=
  { h with
    waiting := fun r hr => by
      rw [List.append_nil] at hr
      exact h.waiting r (List.mem_append_left _ hr)
    apart := fun _ _ _ hr' => absurd hr' List.not_mem_nil
    releasing := fun _ hr => absurd hr List.not_mem_nil
    gate := fun _ hw => nomatch hw
    gate_flushed := fun _ _ hidle => nomatch hidle
    on_disk := fun i hi => List.mem_append_left _ (h.on_disk i hi)
    obsolete := fun _ hi => absurd hi List.not_mem_nil
    pass := fun _ hp => absurd hp (Option.not_mem_none _)
    idle := fun _ => ⟨rfl, rfl, rfl⟩
    views := fun _ hv => absurd hv List.not_mem_nil }

/-- The completion manifest: what is resolvable and not retired is live. -/
theorem completed (h : s.Files) (hphase : s.phase = .opening) :
    ({ s with
      phase := .running
      manifest := { s.manifest with
        live := s.vlogs.filter fun id => decide (id ∉ s.manifest.retiredIds)
        head := s.engine.db.vlog.headId }
      disk := s.disk.filter fun id => decide (id ∈ s.vlogs.filter (fun id =>
        decide (id ∉ s.manifest.retiredIds)) ∨ id ∈ s.manifest.retiredIds) } : Service).Files := by
  obtain ⟨hpass, hviews, hsubs⟩ := h.idle (by rw [hphase]; simp)
  have hclass : ∀ id ∈ s.vlogs,
      id ∈ s.vlogs.filter (fun id => decide (id ∉ s.manifest.retiredIds)) ∨
      id ∈ s.manifest.retiredIds := fun id hid => by
    by_cases hret : id ∈ s.manifest.retiredIds
    · exact Or.inr hret
    · exact Or.inl (List.mem_filter.mpr ⟨hid, decide_eq_true hret⟩)
  exact
    { h with
      on_disk := fun id hid =>
        List.mem_filter.mpr ⟨h.on_disk id hid, decide_eq_true (hclass id hid)⟩
      classified := fun id hid => (hclass id hid).imp_right Or.inl
      live := fun id hid => by
        obtain ⟨hmem, hnot⟩ := List.mem_filter.mp hid
        exact ⟨hmem, of_decide_eq_true hnot⟩
      head_le := le_rfl
      pass := fun p (hp : p ∈ s.pass) => absurd (hpass ▸ hp) (Option.not_mem_none p)
      idle := fun hne => absurd rfl hne
      views := fun v (hv : v ∈ s.views) => absurd (hviews ▸ hv) List.not_mem_nil }

/-- A registration changes. -/
theorem register (h : s.Files) (hmove : Moved a s.engine e' recs) (hinv : e'.Inv)
    (hvlog : e'.db.vlog = s.engine.db.vlog) : ({ s with engine := e' } : Service).Files := by
  have hmoved : (s.moved e' false).Files := h.move hmove hinv
  have heq : s.moved e' false =
      { s with engine := e', publishing := (s.moved e' false).publishing } := by
    simp [Service.moved, hvlog]
  rw [heq] at hmoved
  exact hmoved.aside s.degraded s.subs s.subsActive s.publishing s.relocated fun hne =>
    (h.idle hne).2.2

end Service.Files

theorem Service.Files.registered (h : s.Files) (ha : a.Registers)
    (hs : s.engine.step opts a = some e') :
    ({ s with engine := e' } : Service).Files := by
  obtain ⟨-, hvlog, -, -, hopen⟩ := ha.frame hs
  obtain ⟨recs, hmove⟩ := moved_step h.engine hs hopen
  exact h.register hmove (inv_step h.engine hs) hvlog

/-! ### Every action -/

theorem files_init (opts : Options) : (Service.init opts).Files where
  engine := inv_init opts
  held := fun _ hx => absurd hx List.not_mem_nil
  retired := fun _ hr => absurd hr List.not_mem_nil
  retired_unique := fun _ hr => absurd hr List.not_mem_nil
  waiting := fun _ hr => absurd hr List.not_mem_nil
  apart := fun _ hr => absurd hr List.not_mem_nil
  releasing := fun _ hr => absurd hr List.not_mem_nil
  released_le := Nat.zero_le _
  gate := fun _ hw => nomatch hw
  gate_flushed := fun _ _ hidle => nomatch hidle
  on_disk := fun _ hid => hid
  vlogs_lt := fun id hid => by
    rw [List.mem_singleton.mp hid]
    exact show 1 < 3 by decide
  obsolete := fun _ hid => absurd hid List.not_mem_nil
  classified := fun _ hid => Or.inl hid
  live := fun _ hid => ⟨hid, List.not_mem_nil⟩
  head_le := le_rfl
  head := ⟨List.mem_singleton_self _, List.not_mem_nil, Or.inl rfl⟩
  lost_le := fun _ hid => absurd hid List.not_mem_nil
  durable_le := le_rfl
  pass := fun _ hp => absurd hp (Option.not_mem_none _)
  idle := fun hne => absurd rfl hne
  views := fun _ hv => absurd hv List.not_mem_nil

/-- One subscription changes. -/
theorem Service.Files.setSub (h : s.Files) {i : ℕ} {sub : Subscription} (hi : s.subs[i]? = some sub)
    (sub' : Subscription) : (s.setSub i sub').Files :=
  h.aside s.degraded _ s.subsActive s.publishing s.relocated fun hne => by
    rw [(h.idle hne).2.2] at hi
    exact absurd hi (by simp)

/-- **Every action keeps the files.** -/
theorem files_step (h : s.Files) {act : ServiceAction} (hs : s.step opts act = some s') :
    s'.Files := by
  cases Service.takes hs with
  | engine headFault hphase hserves hpub hfree he =>
    obtain ⟨recs, hmove⟩ := moved_step h.engine he fun n orphan hopen => by
      rw [hopen] at hserves
      exact absurd hserves Bool.false_ne_true
    exact h.move hmove (inv_step h.engine he)
  | @publish r rest hpub =>
    -- what is published touches no file
    refine h.aside s.degraded _ _ rest s.relocated fun hne => ?_
    rw [(h.idle hne).2.2]
    unfold publishStream
    split
    · rfl
    · rfl
  | gcPick hphase hmem hne hfresh hperm =>
    refine h.repass _ (fun p hp => ?_) fun hne => absurd hphase hne
    obtain rfl := Option.some_inj.mp hp
    refine ⟨hmem, hne, hfresh, fun r hr hfile => Or.inl ?_, fun hsync =>
      absurd hsync Bool.false_ne_true⟩
    exact hperm.mem_iff.mpr (List.mem_filter.mpr ⟨hr, decide_eq_true hfile⟩)
  | @gcChunk p chunk todo e' applied headFault hp htodo hpub he happlied =>
    obtain ⟨recs, hmove⟩ := moved_step h.engine he fun _ _ => by simp
    have hmoved : (s.moved e' headFault).Files := h.move hmove (inv_step h.engine he)
    have hrunning := h.phase_of_pass hp
    have hpass := hmoved.repass (if (relocationOps s.engine.db chunk).isEmpty || applied then
      some { p with todo := todo } else none) (fun p' hp' => ?_) fun hne => absurd hrunning hne
    · exact hpass.aside (s.moved e' headFault).degraded _ _ _ _ fun hne => absurd hrunning hne
    · split at hp'
      · rename_i hor
        obtain rfl := Option.some_inj.mp hp'
        -- the chunk went through, or had nothing to relocate
        refine h.passing_chunk (h.pass p hp) htodo he ?_
        rw [happlied] at hor
        simp only [Bool.or_eq_true, Bool.and_eq_true] at hor
        exact hor.imp_right And.right
      · exact absurd hp' (Option.not_mem_none p')
  | gcAbort => exact h.repass none (fun _ hp => absurd hp (Option.not_mem_none _)) fun _ => rfl
  | gcSync hp htodo hpub => exact h.synced hp htodo
  | gcRetire hp hsynced => exact h.retire hp hsynced
  | gateWatermark hphase =>
    refine h.regate _ (fun w hw => ?_) fun _ _ hgate => nomatch hgate
    obtain rfl := Option.some_inj.mp hw
    exact h.engine.watermark_le_visible
  | @gateFlushed w hgate =>
    refine h.regate _ (fun w' hw => h.gate w' (by rw [hgate]; exact hw)) fun w' f hflushed => ?_
    obtain ⟨-, rfl⟩ := Gate.flushed.inj hflushed
    exact le_rfl
  | gates hgate => exact h.gated hgate
  | release => exact h.release
  | unlink hid hviews => exact h.unlink hid hviews
  | openView hphase hseq => exact h.openView hphase hseq
  | closeView i => exact h.closeView i
  | @subscribe lo hi maxBytes e' start hphase hpub hstart he =>
    exact (h.registered .snapshot he).aside s.degraded _ true s.publishing s.relocated
      fun hne => absurd hphase hne
  | check hsub hclosed hchecked htaken => exact h.setSub hsub _
  | drain hsub hclosed hchecked => exact h.setSub hsub _
  | deliver hsub hclosed htaken hout he => exact (h.registered (.advance _ _) he).setSub hsub _
  | kill hsub hclosed htaken hout => exact h.setSub hsub _
  | @close i sub e' hsub hclosed hchecked htaken he =>
    refine (h.registered (.release _) he).aside s.degraded _ _ s.publishing s.relocated
      fun hne => ?_
    rw [(h.idle hne).2.2] at hsub
    exact absurd hsub (by simp)
  | reopen hreopen => exact h.reopened hreopen
  | crashOpening id => exact h.crashOpening id
  | completeOpen hphase => exact h.completed hphase

/-! ### Registered seqnos -/

/-- A seqno that is registered where it stands visible. -/
theorem Service.Files.safe_visible (h : s.Files) : s.Safe s.engine.db.visibleSeqno :=
  ⟨h.released_le_visible, h.gate⟩

/-- **A registered seqno stays safe**: the watermark is read below it, and the files
that pass are retired below the watermark. -/
theorem safe_step {act : ServiceAction} {t : ℕ} (hs : s.step opts act = some s')
    (ht : t ∈ s.engine.db.snapshots) (hsafe : s.Safe t) : s'.Safe t := by
  cases Service.takes hs with
  | gateWatermark hphase =>
    refine ⟨hsafe.1, fun w hw => ?_⟩
    obtain rfl := Option.some_inj.mp hw
    exact le_trans (Engine.watermark_le ht) (Nat.le_succ t)
  | @gateFlushed w hgate => exact ⟨hsafe.1, fun w' hw => hsafe.2 w' (by rw [hgate]; exact hw)⟩
  | @gates w f hgate =>
    refine ⟨foldl_max_le.mpr ⟨hsafe.1, fun seq hseq => ?_⟩, fun _ hw => nomatch hw⟩
    obtain ⟨r, hr, rfl⟩ := List.mem_map.mp hseq
    have hlt := (of_decide_eq_true (List.mem_filter.mp hr).2).1
    have hle := hsafe.2 w (by rw [hgate]; rfl)
    omega
  | reopen hreopen =>
    obtain ⟨e', disk, -, -, -, -, -, -, rfl⟩ := Service.reopen_cases hreopen
    exact ⟨hsafe.1, fun _ hw => nomatch hw⟩
  | crashOpening id => exact ⟨hsafe.1, fun _ hw => nomatch hw⟩
  | _ => exact hsafe

/-- What is safe is spared by the release to come. -/
theorem Service.Safe.spares (h : s.Files) {t : ℕ} (ht : s.Safe t) : s.Spares t :=
  ⟨fun r hr => le_trans (h.releasing r hr) ht.1, ht.2⟩

/-- **A registered seqno stays spared**, for the same reason. -/
theorem spares_step {act : ServiceAction} {t : ℕ} (hs : s.step opts act = some s')
    (ht : t ∈ s.engine.db.snapshots) (hspares : s.Spares t) : s'.Spares t := by
  cases Service.takes hs with
  | gateWatermark hphase =>
    refine ⟨hspares.1, fun w hw => ?_⟩
    obtain rfl := Option.some_inj.mp hw
    exact le_trans (Engine.watermark_le ht) (Nat.le_succ t)
  | @gateFlushed w hgate => exact ⟨hspares.1, fun w' hw => hspares.2 w' (by rw [hgate]; exact hw)⟩
  | @gates w f hgate =>
    refine ⟨fun r hr => ?_, fun _ hw => nomatch hw⟩
    have hlt := (of_decide_eq_true (List.mem_filter.mp hr).2).1
    have hle := hspares.2 w (by rw [hgate]; rfl)
    omega
  | release => exact ⟨fun _ hr => absurd hr List.not_mem_nil, hspares.2⟩
  | reopen hreopen =>
    obtain ⟨e', disk, -, -, -, -, -, -, rfl⟩ := Service.reopen_cases hreopen
    exact ⟨fun _ hr => absurd hr List.not_mem_nil, fun _ hw => nomatch hw⟩
  | crashOpening id => exact ⟨fun _ hr => absurd hr List.not_mem_nil, fun _ hw => nomatch hw⟩
  | _ => exact hspares

theorem files_of_reaches {ok : Service → ServiceAction → Prop} (h : (service opts).Reaches ok s) :
    s.Files :=
  h.invariant (files_init opts) fun hi _ hs => files_step hi hs

end Fluent31
