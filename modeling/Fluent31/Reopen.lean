/-
Reopening a store after a crash or a close.

The process is gone, the WAL has lost a suffix of its records.  `Reopened`
says what the next open makes of it: the surviving records become one run, the
old WAL files go, and everything a reader saw up to the recovered head is
there again.

* `reopen_spec` — the store that opens;
* `Consistent.reopen` — it is consistent with the log cut at the recovered head.
-/
import Fluent31.Scheduling

namespace Fluent31

open Ordered Mvcc

variable {opts : Options} {db db' : Db} {n orphan : ℕ} {e : Entry}

/-- The versions before a cut of the numbering. -/
theorem mem_batchVersions_cut {xs ys : List (ℕ × List EncEntry)} {a k m : ℕ}
    (hx : Contiguous a xs k) (hy : Contiguous k ys m) :
    e ∈ batchVersions xs ↔ e ∈ batchVersions (xs ++ ys) ∧ e.seq < k := by
  rw [batchVersions_append, List.mem_append]
  constructor
  · exact fun he => ⟨Or.inl he, (hx.seq_mem he).2⟩
  · rintro ⟨he | he, hlt⟩
    · exact he
    · exact absurd (hy.seq_mem he).1 (not_le_of_gt hlt)

/-- What the surviving records and the next open leave. -/
structure Reopened (db db' : Db) (n next : ℕ) (run? : Option Run) : Prop where
  mem : db'.mem = Memtable.new (next + 1)
  imms : db'.imms = []
  runs : db'.version.runsNewestFirst = run?.toList ++ db.version.runsNewestFirst
  levels : db'.version.levels ≠ []
  vlogs : db'.version.vlogs = db.version.vlogs ++ [next]
  visible : db'.visibleSeqno = db.recoveredSeqno n
  wal : db'.wal = ⟨next + 1, []⟩
  sealedWals : db'.sealedWals = []
  vlog : db'.vlog = db.vlog.rotate next
  lastFlushed : db'.manifest.lastFlushedSeqno = db.recoveredSeqno n
  walFloor : db'.manifest.walFloor = next + 1
  manifestNext : db'.manifest.nextFileId = db'.nextFileId
  next_lt : next + 1 < db'.nextFileId
  pins : db'.manifest.pins = db.manifest.pins
  pins_le : ∀ p ∈ db.manifest.pins, p.2 ≤ db.recoveredSeqno n
  snapshots : db'.snapshots = db.manifest.pins.map Prod.snd
  published : db'.published = []
  held : ∀ e, e ∈ (db.recovered n).map ↔ ∃ r ∈ run?, e ∈ r.entries
  ordered : ∀ r ∈ run?, r.Ordered
  run_id : ∀ r ∈ run?, next + 1 < r.id ∧ r.id < db'.nextFileId

theorem le_foldr_next {l : List ℕ} {start i : ℕ} (h : i ∈ l) :
    i < l.foldr (fun id next => max (id + 1) next) start := by
  induction l with
  | nil => exact absurd h List.not_mem_nil
  | cons a l ih =>
    rcases List.mem_cons.mp h with rfl | h
    · exact lt_of_lt_of_le (Nat.lt_succ_self _) (le_max_left _ _)
    · exact lt_of_lt_of_le (ih h) (le_max_right _ _)

theorem start_le_foldr_next (l : List ℕ) (start : ℕ) :
    start ≤ l.foldr (fun id next => max (id + 1) next) start := by
  induction l with
  | nil => exact le_rfl
  | cons a l ih => exact le_trans ih (le_max_right _ _)

/-- The next process numbers its files above everything on disk. -/
theorem lt_diskNextFileId (db : Db) (orphan : ℕ) :
    (∀ w ∈ db.sealedWals ++ [db.wal], w.id < db.diskNextFileId orphan) ∧
      (∀ id ∈ db.version.vlogs, id < db.diskNextFileId orphan) ∧
      db.manifest.nextFileId ≤ db.diskNextFileId orphan := by
  unfold Db.diskNextFileId
  refine ⟨fun w hw => le_foldr_next ?_, fun id hid => le_foldr_next ?_,
    le_trans (le_max_right _ _) (start_le_foldr_next _ _)⟩
  · exact List.mem_append_left _ (List.mem_append_left _ (List.mem_map_of_mem hw))
  · exact List.mem_append_left _ (List.mem_append_right _ hid)

theorem foldr_max_start (l : List ℕ) (a : ℕ) : l.foldr max a = max a (l.foldr max 0) := by
  induction l with
  | nil => simp
  | cons b l ih => rw [List.foldr_cons, List.foldr_cons, ih, max_left_comm]

theorem foldr_max_congr {l l' : List Entry} (h : ∀ e, e ∈ l ↔ e ∈ l') :
    (l.map Entry.seq).foldr max 0 = (l'.map Entry.seq).foldr max 0 :=
  le_antisymm (Db.foldr_max_le fun e he => Db.le_foldr_max ((h e).mp he))
    (Db.foldr_max_le fun e he => Db.le_foldr_max ((h e).mpr he))

/-- The surviving records. -/
theorem Db.WF.take_replayable (h : db.WF) (n : ℕ) :
    Contiguous (db.manifest.lastFlushedSeqno + 1) (db.replayable.take n) (db.recoveredSeqno n + 1) ∧
      Contiguous (db.recoveredSeqno n + 1) (db.replayable.drop n) (db.visibleSeqno + 1) := by
  have hrep := h.replay
  rw [← List.take_append_drop n db.replayable, contiguous_append] at hrep
  obtain ⟨k, hk, hrest⟩ := hrep
  have hhead : db.recoveredSeqno n = max db.manifest.lastFlushedSeqno
      (((batchVersions (db.replayable.take n)).map Entry.seq).foldr max 0) := foldr_max_start _ _
  have hle : ((batchVersions (db.replayable.take n)).map Entry.seq).foldr max 0 ≤ k - 1 :=
    Db.foldr_max_le fun e he => by
      have := (hk.seq_mem he).2
      omega
  have hkle := hk.le
  obtain rfl : k = db.recoveredSeqno n + 1 := by
    by_cases hnil : db.replayable.take n = []
    · rw [hnil] at hk hhead
      have hk' : db.manifest.lastFlushedSeqno + 1 = k := hk
      simp only [batchVersions_nil, List.map_nil, List.foldr_nil] at hhead
      omega
    · obtain ⟨e, he, hlast⟩ := hk.exists_last hnil
      have h1 := Db.le_foldr_max he
      have h2 := (hk.seq_mem he).1
      omega
  exact ⟨hk, hrest⟩

/-- The recovered memtable holds the surviving versions. -/
theorem Db.WF.mem_recovered (h : db.WF) :
    e ∈ (db.recovered n).map ↔ e ∈ batchVersions (db.replayable.take n) := by
  have hpair := (h.take_replayable n).1.pairwise_seq
  have hmem : e ∈ ((Memtable.new db.wal.id).insertAll (batchVersions (db.replayable.take n))).map ↔
      e ∈ (Memtable.new db.wal.id).map ∨ e ∈ batchVersions (db.replayable.take n) :=
    Memtable.mem_insertAll (fun f hf => absurd hf List.not_mem_nil)
      (hpair.imp fun hlt => ikey_ne_of_seq_ne (ne_of_lt hlt))
  exact hmem.trans (by simp)

/-- What the recovery flush and the completion of the open do. -/
theorem completeOpen_cases {db₁ db₂ : Db} (h : db₁.completeOpen opts = some db₂) :
    ∃ db₃, (db₁.imms = [] ∧ db₃ = db₁ ∨ db₁.imms ≠ [] ∧ ∃ did, db₁.flushOne opts = some
      (db₃, did)) ∧ db₂ = ({ db₃ with manifest := { db₃.manifest with
        walFloor := db₃.wal.id, nextFileId := db₃.nextFileId } } :
            Db).deleteOldWals db₃.wal.id := by
  unfold Db.completeOpen at h
  obtain ⟨db₃, h₃, rfl⟩ := Option.map_eq_some_iff.mp h
  refine ⟨db₃, ?_, rfl⟩
  split at h₃
  · rename_i hempty
    exact Or.inl ⟨List.isEmpty_iff.mp hempty, (Option.some_inj.mp h₃).symm⟩
  · rename_i hne
    obtain ⟨⟨d, did⟩, hf, rfl⟩ := Option.map_eq_some_iff.mp h₃
    exact Or.inr ⟨fun hnil => hne (by simp [hnil]), did, hf⟩

theorem flatten_pad (levels : List (List Run)) (pad : ℕ) :
    (levels ++ List.replicate pad []).flatten = levels.flatten := by
  rw [List.flatten_append]
  have : (List.replicate pad ([] : List Run)).flatten = [] := by
    simp
  rw [this, List.append_nil]

/-- **The store that opens.** -/
theorem reopen_spec (h : db.WF) (hr : db.reopen opts n orphan = some db') :
    ∃ next run?, Reopened db db' n next run? ∧
      (∀ w ∈ db.sealedWals ++ [db.wal], w.id < next) ∧ (∀ id ∈ db.version.vlogs, id < next) ∧
      db.manifest.nextFileId ≤ next := by
  unfold Db.reopen at hr
  obtain ⟨db₂, hr, hload⟩ := Option.bind_eq_some_iff.mp hr
  obtain ⟨db₁, hrec, hcomplete⟩ := Option.bind_eq_some_iff.mp hr
  clear hr
  obtain ⟨defs, -, rfl⟩ := Option.map_eq_some_iff.mp hload
  obtain ⟨hwals, hvlogs, hnext⟩ := lt_diskNextFileId db orphan
  unfold Db.recover at hrec
  simp only at hrec
  split at hrec
  · rename_i hpins
    have hpins' : ∀ p ∈ db.manifest.pins, p.2 ≤ db.recoveredSeqno n := by simpa using hpins
    obtain rfl := Option.some_inj.mp hrec
    clear hrec
    obtain ⟨db₃, hflush, rfl⟩ := completeOpen_cases hcomplete
    have hdropped : ∀ ws : List Wal, (∀ w ∈ ws, w ∈ db.sealedWals ++ [db.wal]) →
        ws.filter (fun w => decide (db.diskNextFileId orphan + 1 ≤ w.id)) = [] := fun ws hws => by
      rw [List.filter_eq_nil_iff]
      intro w hw
      have := hwals w (hws w hw)
      simp only [decide_eq_true_eq]
      omega
    have hlevels : db.version.levels ++
        List.replicate (opts.maxLevels - db.version.levels.length) [] ≠ [] :=
      fun hnil => h.levels (List.append_eq_nil_iff.mp hnil).1
    have hhead : db.recoveredSeqno n = max db.manifest.lastFlushedSeqno
        (((db.recovered n).map.map Entry.seq).foldr max 0) := by
      rw [foldr_max_congr fun e => h.mem_recovered]
      exact foldr_max_start _ _
    rcases hflush with ⟨hnil, rfl⟩ | ⟨hne, did, hf⟩
    · -- nothing survived beyond the tables
      have hempty : (db.recovered n).map = [] := by
        by_contra hne
        rw [if_neg (by simpa [Memtable.isEmpty] using hne)] at hnil
        exact absurd hnil (by simp)
      have hlast : db.recoveredSeqno n = db.manifest.lastFlushedSeqno := by
        rw [hhead, hempty]
        simp
      exact ⟨_, none,
        { mem := rfl
          imms := hnil
          runs := flatten_pad _ _
          levels := hlevels
          vlogs := rfl
          visible := rfl
          wal := rfl
          sealedWals := hdropped _ fun w hw => hw
          vlog := rfl
          lastFlushed := hlast.symm
          walFloor := rfl
          manifestNext := rfl
          next_lt := Nat.lt_succ_self _
          pins := rfl
          pins_le := hpins'
          snapshots := rfl
          published := rfl
          held := fun e => by simp [hempty]
          ordered := fun r hr => absurd hr (by simp)
          run_id := fun r hr => absurd hr (by simp) }, hwals, hvlogs, hnext⟩
    · rcases Db.flushOne_cases hf with ⟨hnil, -⟩ | ⟨imm, himm, hcases⟩
      · exact absurd hnil hne
      · have hrecovered : (db.recovered n).isEmpty = false ∧ imm = db.recovered n := by
          cases hempty : (db.recovered n).isEmpty with
          | true => exact absurd (by simp [hempty]) hne
          | false =>
            refine ⟨rfl, ?_⟩
            simpa [hempty, eq_comm] using himm
        obtain ⟨hnonempty, rfl⟩ := hrecovered
        rcases hcases with ⟨hnil, -⟩ | ⟨run, maxSeq, next', hbuild, rfl⟩
        · exact absurd hnonempty (by simp [Memtable.isEmpty, hnil])
        · obtain ⟨hentries, hord, hid, hlt, hmax⟩ := buildRunFromMem_spec hbuild
          have hid' : run.id = db.diskNextFileId orphan + 2 := hid
          have hlt' : db.diskNextFileId orphan + 2 < next' := hlt
          exact ⟨_, some run,
            { mem := rfl
              imms := by simp [Db.deleteOldWals, Db.installFlush, hnonempty]
              runs := (Db.flatten_modify_zero hlevels run).trans (by rw [flatten_pad]; rfl)
              levels := fun hnil => hlevels (by
                rw [← List.length_eq_zero_iff, ← List.length_modify (fun l => run :: l) _ 0]
                exact List.length_eq_zero_iff.mpr hnil)
              vlogs := rfl
              visible := rfl
              wal := rfl
              sealedWals := hdropped _ fun w hw => List.mem_of_mem_filter hw
              vlog := rfl
              lastFlushed := by
                rw [hhead, ← hmax]
                rfl
              walFloor := rfl
              manifestNext := rfl
              next_lt := show _ + 1 < next' by omega
              pins := rfl
              pins_le := hpins'
              snapshots := rfl
              published := rfl
              held := fun e => by simp [hentries]
              ordered := fun r hr => by
                rw [← Option.some_inj.mp hr]
                exact hord
              run_id := fun r hr => by
                rw [← Option.some_inj.mp hr]
                exact ⟨by omega, show run.id < next' by omega⟩ }, hwals, hvlogs, hnext⟩
  · exact absurd hrec (by simp)

variable {next : ℕ} {run? : Option Run}

theorem Reopened.tableVersions (hr : Reopened db db' n next run?) (h : db.WF) :
    e ∈ db'.tableVersions ↔ e ∈ batchVersions (db.replayable.take n) ∨ e ∈ db.tableVersions := by
  unfold Db.tableVersions
  rw [hr.runs, List.flatMap_append, List.mem_append, ← h.mem_recovered, hr.held e]
  simp only [List.mem_flatMap, Option.mem_toList, Option.mem_def]

theorem Reopened.replayable (hr : Reopened db db' n next run?) : db'.replayable = [] := by
  unfold Db.replayable
  rw [hr.sealedWals, hr.wal, hr.walFloor]
  simp

/-- The reopened store holds the versions up to the recovered head. -/
theorem Reopened.stored (hr : Reopened db db' n next run?) (h : db.WF) :
    e ∈ db'.stored ↔ e ∈ db.stored ∧ e.seq ≤ db.recoveredSeqno n := by
  obtain ⟨htake, hdrop⟩ := h.take_replayable n
  have hle : db.manifest.lastFlushedSeqno ≤ db.recoveredSeqno n := by
    have := htake.le
    omega
  have hcut := mem_batchVersions_cut htake hdrop (e := e)
  rw [List.take_append_drop, Nat.lt_succ_iff] at hcut
  rw [Db.mem_stored, hr.mem, hr.imms, hr.tableVersions h, h.mem_stored_iff, hcut, or_and_right]
  simp only [Memtable.new_map, List.not_mem_nil, false_and, exists_false, false_or]
  exact or_congr_right ⟨fun he => ⟨he, le_trans (h.tables_le e he) hle⟩, And.left⟩

theorem Reopened.wf (hr : Reopened db db' n next run?) (h : db.WF)
    (hvlogs : ∀ id ∈ db.version.vlogs, id < next) (hnext : db.manifest.nextFileId ≤ next) :
    db'.WF := by
  obtain ⟨htake, hdrop⟩ := h.take_replayable n
  have hsource : db'.readView.sources = [Source.mem (Memtable.new (next + 1))] ++
      run?.toList.map Source.run ++ db.version.runsNewestFirst.map Source.run := by
    show (db'.mem :: db'.imms).map Source.mem ++ db'.version.runsNewestFirst.map Source.run = _
    rw [hr.mem, hr.imms, hr.runs, List.map_append]
    simp
  have hold : (db.version.runsNewestFirst.map Source.run).Pairwise
      fun a b => Newer a.entries b.entries := by
    exact (List.pairwise_append.mp h.recent.newer).2.1
  have hlt := hr.next_lt
  refine
    { recent := ⟨?_, fun r hmem => ?_⟩
      tables_le := fun e he => ?_
      flushed_le := by rw [hr.lastFlushed, hr.visible]
      visible_lt := ?_
      replay := by
        rw [hr.replayable, hr.lastFlushed, hr.visible]
        rfl
      covers_sealed := by
        unfold Db.liveSealed
        rw [hr.sealedWals, hr.imms]
        exact .nil
      covers_wal := by
        rw [hr.wal, hr.mem]
        exact ⟨rfl, fun e => by simp [Wal.versions]⟩
      floor_le := by rw [hr.walFloor, hr.wal]
      wals_sorted := by
        rw [hr.sealedWals]
        exact List.pairwise_singleton _ _
      wal_lt := by
        rw [hr.wal]
        exact hlt
      vlog := ?_
      vlogs := fun r hmem => ?_
      head := by
        rw [hr.vlog, hr.vlogs]
        exact List.mem_append_right _ (List.mem_singleton_self _)
      vlogs_lt := fun id hid => ?_
      runs_nodup := ?_
      runs_lt := fun r hmem => ?_
      next_le := le_of_eq hr.manifestNext
      levels := hr.levels }
  · rw [hsource, List.append_assoc, List.singleton_append]
    refine List.pairwise_cons.mpr ⟨fun _ _ _ hf => absurd hf List.not_mem_nil, ?_⟩
    refine List.pairwise_append.mpr ⟨?_, hold, fun a ha b hb e he f hf _ => ?_⟩
    · cases run? with
      | none => exact .nil
      | some r => exact List.pairwise_singleton _ _
    · -- recovered versions are newer than all tables
      obtain ⟨r, hrun, rfl⟩ := List.mem_map.mp ha
      obtain ⟨r', hr', rfl⟩ := List.mem_map.mp hb
      have he' := h.mem_recovered.mp ((hr.held e).mpr ⟨r, Option.mem_toList.mp hrun, he⟩)
      have h1 := (htake.seq_mem he').1
      have h2 := h.tables_le f (List.mem_flatMap.mpr ⟨r', hr', hf⟩)
      show f.seq < e.seq
      omega
  · have hmem' : r ∈ run?.toList ++ db.version.runsNewestFirst := hr.runs ▸ hmem
    rcases List.mem_append.mp hmem' with hmem | hmem
    · exact hr.ordered r (Option.mem_toList.mp hmem)
    · exact h.recent.ordered r hmem
  · rw [hr.lastFlushed]
    exact ((hr.stored h).mp (Db.mem_stored.mpr (Or.inr (Or.inr he)))).2
  · rw [hr.visible]
    have := hdrop.le
    have := h.visible_lt
    omega
  · rw [hr.vlog]
    have hbase : db.vlog.WF next :=
      ⟨h.vlog.distinct, hvlogs _ h.head, h.vlog.below, fun r hmem => hvlogs _ (h.vlogs r hmem)⟩
    exact hbase.rotate.mono (by omega)
  · rw [hr.vlogs]
    rw [hr.vlog] at hmem
    exact List.mem_append_left _ (h.vlogs r hmem)
  · rw [hr.vlogs] at hid
    rcases List.mem_append.mp hid with hid | hid
    · have := hvlogs id hid
      omega
    · rw [List.mem_singleton.mp hid]
      omega
  · rw [hr.runs, List.map_append, List.nodup_append]
    refine ⟨by cases run? <;> simp, h.runs_nodup, ?_⟩
    rintro _ hid _ hid' rfl
    obtain ⟨r, hmem, hrid⟩ := List.mem_map.mp hid
    obtain ⟨r', hmem', hrid'⟩ := List.mem_map.mp hid'
    have h1 := (hr.run_id r (Option.mem_toList.mp hmem)).1
    have h2 := h.runs_lt r' hmem'
    omega
  · rw [hr.manifestNext]
    have hmem' : r ∈ run?.toList ++ db.version.runsNewestFirst := hr.runs ▸ hmem
    rcases List.mem_append.mp hmem' with hmem | hmem
    · exact (hr.run_id r (Option.mem_toList.mp hmem)).2
    · have := h.runs_lt r hmem
      omega

/-- The commits up to a cut of the numbering. -/
theorem filter_base {xs ys : List (ℕ × List EncEntry)} {a k m : ℕ} (hx : Contiguous a xs k)
    (hy : Contiguous k ys m) : (xs ++ ys).filter (fun r => decide (r.1 < k)) = xs := by
  rw [List.filter_append, List.filter_eq_self.mpr, List.filter_eq_nil_iff.mpr, List.append_nil]
  · rintro ⟨base, es⟩ hr
    have := (hy.mem hr).1
    simp only [decide_eq_true_eq]
    omega
  · rintro ⟨base, es⟩ hr
    obtain ⟨-, hle, hne⟩ := hx.mem hr
    have := List.length_pos_iff.mpr hne
    simp only [decide_eq_true_eq]
    omega

/-- The log cut at `head`. -/
def cutLog (log : List CommitRec) (head : ℕ) : List CommitRec :=
  log.filter fun c => decide (c.base ≤ head)

variable {log : List CommitRec} {floor : ℕ}

theorem map_cutLog (log : List CommitRec) (head : ℕ) :
    (cutLog log head).map CommitRec.batch =
      (log.map CommitRec.batch).filter fun r => decide (r.1 < head + 1) := by
  rw [List.filter_map]
  unfold cutLog
  congr 1
  refine List.filter_congr fun c _ => ?_
  show decide (c.base ≤ head) = decide (c.base < head + 1)
  rw [decide_eq_decide]
  omega

/-- **Reopen**: consistent with the log cut at the recovered head. -/
theorem Consistent.reopen (h : Consistent db log floor) (hr : db.reopen opts n orphan = some db') :
    Consistent db' (cutLog log (db.recoveredSeqno n)) floor ∧
      ∃ next run?, Reopened db db' n next run? := by
  obtain ⟨next, run?, hre, -, hvlogs, hnext⟩ := reopen_spec h.wf hr
  obtain ⟨htake, hdrop⟩ := h.wf.take_replayable n
  obtain ⟨pre, hlog, hpre⟩ := h.numbered
  have hall : Contiguous 1 (pre ++ db.replayable.take n) (db.recoveredSeqno n + 1) :=
    contiguous_append.mpr ⟨_, hpre, htake⟩
  -- the log cut at the recovered head is what was replayed
  have hcut : (cutLog log (db.recoveredSeqno n)).map CommitRec.batch =
      pre ++ db.replayable.take n := by
    rw [map_cutLog, hlog, ← List.take_append_drop n db.replayable, ← List.append_assoc,
      filter_base hall hdrop, List.take_append_drop]
  have hle : db.manifest.lastFlushedSeqno ≤ db.recoveredSeqno n := by
    have := htake.le
    omega
  refine ⟨⟨hre.wf h.wf hvlogs hnext, ⟨pre ++ db.replayable.take n, ?_, ?_⟩, fun c hc => ?_,
    ⟨_, by rw [hre.published, List.append_nil]⟩, ?_, ?_⟩, next, run?, hre⟩
  · rw [hcut, hre.replayable, List.append_nil]
  · rw [hre.lastFlushed]
    exact hall
  · refine (h.encodes c (List.mem_of_mem_filter hc)).mono fun r hmem => ?_
    rw [hre.vlog]
    exact hmem
  · refine h.retains.truncate (le_trans h.floor_le hle) (fun e => ?_) fun e => hre.stored h.wf
    unfold historyOf
    have := mem_batchVersions_cut hall hdrop (e := e)
    rw [List.append_assoc, List.take_append_drop] at this
    rw [hcut, hlog, this, Nat.lt_succ_iff]
    exact Iff.rfl
  · rw [hre.lastFlushed]
    exact le_trans h.floor_le hle

end Fluent31
