/-
What every store state keeps, and the part of it the write path must preserve.

`Db.WF` collects the structural facts: recency of the read order, the split of
seqnos between tables and memtables, file and run ids, and the one-to-one
correspondence of memtables and live WAL files.  The primitive transitions of the
write path, the rotations and the flush preserve it:

* `WF.addBatch` — one more batch in WAL and memtable;
* `WF.flushOne` — a structural step.
-/
import Fluent31.Lib.Retention
import Fluent31.Engine
import Mathlib.Data.List.Forall2

namespace Fluent31

open Mvcc Ordered

/-- The memtable holds exactly what its WAL file replays to. -/
def Wal.Covers (w : Wal) (m : Memtable) : Prop :=
  w.id = m.walId ∧ ∀ e, e ∈ w.versions ↔ e ∈ m.map

namespace Db

variable (db : Db)

/-- The versions held by memtables. -/
def buffered : List Entry := db.mem.map ++ db.imms.flatMap Memtable.map

/-- The versions held by tables. -/
def tableVersions : List Entry := db.version.runsNewestFirst.flatMap Run.entries

/-- Older WAL files at or above the floor, oldest first. -/
def liveSealed : List Wal := db.sealedWals.filter fun w => decide (db.manifest.walFloor ≤ w.id)

structure WF : Prop where
  recent : db.readView.Recent
  tables_le : ∀ e ∈ db.tableVersions, e.seq ≤ db.manifest.lastFlushedSeqno
  flushed_le : db.manifest.lastFlushedSeqno ≤ db.visibleSeqno
  visible_lt : db.visibleSeqno < MAX_SEQNO
  replay : Contiguous (db.manifest.lastFlushedSeqno + 1) db.replayable (db.visibleSeqno + 1)
  covers_sealed : List.Forall₂ Wal.Covers db.liveSealed db.imms.reverse
  covers_wal : db.wal.Covers db.mem
  floor_le : db.manifest.walFloor ≤ db.wal.id
  wals_sorted : (db.sealedWals ++ [db.wal]).Pairwise fun w w' => w.id < w'.id
  wal_lt : db.wal.id < db.nextFileId
  vlog : db.vlog.WF db.nextFileId
  vlogs : ∀ r ∈ db.vlog.records, r.ptr.file ∈ db.version.vlogs
  head : db.vlog.headId ∈ db.version.vlogs
  vlogs_lt : ∀ id ∈ db.version.vlogs, id < db.nextFileId
  runs_nodup : (db.version.runsNewestFirst.map Run.id).Nodup
  runs_lt : ∀ r ∈ db.version.runsNewestFirst, r.id < db.manifest.nextFileId
  next_le : db.manifest.nextFileId ≤ db.nextFileId
  levels : db.version.levels ≠ []

variable {db} {e : Entry}

theorem mem_stored : e ∈ db.stored ↔
    e ∈ db.mem.map ∨ (∃ m ∈ db.imms, e ∈ m.map) ∨ e ∈ db.tableVersions := by
  unfold stored ReadView.stored ReadView.sources tableVersions
  simp only [List.mem_flatMap, List.mem_append, List.mem_map, List.mem_cons]
  constructor
  · rintro ⟨src, ⟨m, rfl | hm, rfl⟩ | ⟨r, hr, rfl⟩, he⟩
    · exact Or.inl he
    · exact Or.inr (Or.inl ⟨m, hm, he⟩)
    · exact Or.inr (Or.inr ⟨r, hr, he⟩)
  · rintro (he | ⟨m, hm, he⟩ | ⟨r, hr, he⟩)
    · exact ⟨.mem _, Or.inl ⟨_, Or.inl rfl, rfl⟩, he⟩
    · exact ⟨.mem m, Or.inl ⟨m, Or.inr hm, rfl⟩, he⟩
    · exact ⟨.run r, Or.inr ⟨r, hr, rfl⟩, he⟩

theorem mem_buffered : e ∈ db.buffered ↔ e ∈ db.mem.map ∨ ∃ m ∈ db.imms, e ∈ m.map := by
  unfold buffered
  rw [List.mem_append, List.mem_flatMap]

theorem mem_stored_iff_buffered : e ∈ db.stored ↔ e ∈ db.buffered ∨ e ∈ db.tableVersions := by
  rw [mem_stored, mem_buffered, or_assoc]

theorem replayable_eq (h : db.manifest.walFloor ≤ db.wal.id) :
    db.replayable = db.liveSealed.flatMap Wal.records ++ db.wal.records := by
  unfold replayable liveSealed
  rw [List.filter_append, List.filter_cons_of_pos (by simpa using h), List.flatMap_append]
  simp

theorem batchVersions_flatMap (ws : List Wal) :
    batchVersions (ws.flatMap Wal.records) = ws.flatMap Wal.versions :=
  List.flatMap_assoc

/-- The frozen memtables hold what the live sealed WALs replay to. -/
theorem mem_imms_iff {ws : List Wal} {ms : List Memtable} (h : List.Forall₂ Wal.Covers ws ms) :
    (∃ m ∈ ms, e ∈ m.map) ↔ e ∈ ws.flatMap Wal.versions := by
  induction h with
  | nil => simp
  | cons hc _ ih => simp [List.flatMap_cons, ← ih, hc.2 e]

/-- The memtables hold what a replay of the live WALs gives. -/
theorem WF.mem_memtables_iff (h : db.WF) :
    (e ∈ db.mem.map ∨ ∃ m ∈ db.imms, e ∈ m.map) ↔ e ∈ batchVersions db.replayable := by
  rw [replayable_eq h.floor_le, batchVersions_append, batchVersions_flatMap, List.mem_append,
    ← mem_imms_iff h.covers_sealed, ← h.covers_wal.2 e]
  simp only [List.mem_reverse]
  exact or_comm

theorem WF.mem_stored_iff (h : db.WF) :
    e ∈ db.stored ↔ e ∈ batchVersions db.replayable ∨ e ∈ db.tableVersions := by
  rw [mem_stored, ← or_assoc, h.mem_memtables_iff]

/-- Memtable versions are numbered above the flushed ones. -/
theorem WF.seq_of_replayable (h : db.WF) (he : e ∈ batchVersions db.replayable) :
    db.manifest.lastFlushedSeqno < e.seq ∧ e.seq ≤ db.visibleSeqno := by
  have := h.replay.seq_mem he
  omega

theorem WF.stored_le (h : db.WF) (he : e ∈ db.stored) : e.seq ≤ db.visibleSeqno := by
  rcases h.mem_stored_iff.mp he with he | he
  · exact (h.seq_of_replayable he).2
  · exact le_trans (h.tables_le e he) h.flushed_le

theorem WF.mem_seq (h : db.WF) (he : e ∈ db.mem.map) : e.seq ≤ db.visibleSeqno :=
  h.stored_le (mem_stored.mpr (Or.inl he))

/-! ### Batches -/

variable (db) in
/-- A placed batch goes to the WAL, the memtable and the subscribers. -/
def addBatch (base : ℕ) (es : List EncEntry) : Db :=
  ((db.appendRecord base es).insertEntries base es).publishStream base es

/-- A memtable that only gained versions newer than everything stored. -/
theorem recent_of_mem {v v' : ReadView} (h : v.Recent) (himms : v'.imms = v.imms)
    (hlevels : v'.version.levels = v.version.levels)
    (hnew : ∀ f ∈ v'.mem.map, f ∈ v.mem.map ∨ ∀ g ∈ v.stored, g.seq < f.seq) : v'.Recent := by
  have hsplit : v.sources = .mem v.mem :: (v.imms.map Source.mem ++
      v.version.runsNewestFirst.map Source.run) := rfl
  have hp := h.newer
  rw [hsplit] at hp
  obtain ⟨hhead, htail⟩ := List.pairwise_cons.mp hp
  have hsplit' : v'.sources = .mem v'.mem :: (v.imms.map Source.mem ++
      v.version.runsNewestFirst.map Source.run) := by
    rw [← himms, Version.runsNewestFirst, ← hlevels]
    rfl
  refine ⟨?_, by simpa only [Version.runsNewestFirst, hlevels] using h.ordered⟩
  rw [hsplit']
  refine List.pairwise_cons.mpr ⟨fun src hsrc f hf g hg hk => ?_, htail⟩
  rcases hnew f hf with hf | hf
  · exact hhead src hsrc f hf g hg hk
  · refine hf g (List.mem_flatMap.mpr ⟨src, ?_, hg⟩)
    rw [hsplit]
    exact List.mem_cons_of_mem _ hsrc

/-- The memtable after a fresh batch. -/
theorem WF.mem_insertAll (h : db.WF) {es : List EncEntry} :
    e ∈ (db.mem.insertAll (versionsFrom (db.visibleSeqno + 1) es)).map ↔
      e ∈ db.mem.map ∨ e ∈ versionsFrom (db.visibleSeqno + 1) es := by
  refine Memtable.mem_insertAll (fun f hf g hg => ikey_ne_of_seq_ne ?_) ?_
  · have h1 := h.mem_seq hf
    have h2 := (seq_of_mem_versionsFrom hg).1
    omega
  · exact (pairwise_versionsFrom _ _).imp fun hlt => ikey_ne_of_seq_ne (ne_of_lt hlt)

theorem WF.addBatch (h : db.WF) {es : List EncEntry} (hne : es ≠ [])
    (hmax : db.visibleSeqno + es.length < MAX_SEQNO) :
    (db.addBatch (db.visibleSeqno + 1) es).WF := by
  have hpos : 0 < es.length := List.length_pos_iff.mpr hne
  have hvis : (db.addBatch (db.visibleSeqno + 1) es).visibleSeqno = db.visibleSeqno +
      es.length := by
    show db.visibleSeqno + 1 + es.length - 1 = _
    omega
  have hreplay : (db.addBatch (db.visibleSeqno + 1) es).replayable =
      db.replayable ++ [(db.visibleSeqno + 1, es)] := by
    rw [replayable_eq h.floor_le, List.append_assoc]
    exact replayable_eq h.floor_le
  refine
    { recent := recent_of_mem h.recent rfl rfl fun f hf => ?_
      tables_le := h.tables_le
      flushed_le := by rw [hvis]; exact le_trans h.flushed_le (Nat.le_add_right _ _)
      visible_lt := by rw [hvis]; exact hmax
      replay := ?_
      covers_sealed := h.covers_sealed
      covers_wal := ⟨h.covers_wal.1.trans Memtable.insertAll_walId.symm, fun e => ?_⟩
      floor_le := h.floor_le
      wals_sorted := ?_
      wal_lt := h.wal_lt
      vlog := h.vlog
      vlogs := h.vlogs
      head := h.head
      vlogs_lt := h.vlogs_lt
      runs_nodup := h.runs_nodup
      runs_lt := h.runs_lt
      next_le := h.next_le
      levels := h.levels }
  · -- a new version is newer than all that are stored
    rcases h.mem_insertAll.mp hf with hf | hf
    · exact Or.inl hf
    · refine Or.inr fun g hg => ?_
      have h1 := h.stored_le hg
      have h2 := (seq_of_mem_versionsFrom hf).1
      omega
  · rw [hreplay, contiguous_append]
    refine ⟨_, h.replay, rfl, hne, ?_⟩
    rw [hvis]
    show db.visibleSeqno + 1 + es.length = _
    omega
  · show e ∈ (db.wal.records ++ [(db.visibleSeqno + 1, es)]).flatMap _ ↔ _
    rw [List.flatMap_append, List.mem_append, List.flatMap_cons, List.flatMap_nil, List.append_nil]
    exact (or_congr_left (h.covers_wal.2 e)).trans h.mem_insertAll.symm
  · -- the active WAL keeps its id, so the order of the ids is the old one
    have := h.wals_sorted
    rw [List.pairwise_append] at this ⊢
    exact ⟨this.1, List.pairwise_singleton _ _, fun w hw w' hw' =>
      (List.mem_singleton.mp hw') ▸ this.2.2 w hw db.wal (List.mem_singleton_self _)⟩

/-- The memtables grow by the batch's versions. -/
theorem WF.buffered_addBatch (h : db.WF) {es : List EncEntry} :
    e ∈ (db.addBatch (db.visibleSeqno + 1) es).buffered ↔
      e ∈ db.buffered ∨ e ∈ versionsFrom (db.visibleSeqno + 1) es := by
  rw [mem_buffered, mem_buffered]
  show e ∈ (db.mem.insertAll _).map ∨ (∃ m ∈ db.imms, e ∈ m.map) ↔ _
  rw [h.mem_insertAll, or_right_comm]

theorem WF.stored_addBatch (h : db.WF) {es : List EncEntry} :
    e ∈ (db.addBatch (db.visibleSeqno + 1) es).stored ↔
      e ∈ db.stored ∨ e ∈ versionsFrom (db.visibleSeqno + 1) es := by
  rw [mem_stored_iff_buffered, mem_stored_iff_buffered, h.buffered_addBatch, or_right_comm]
  rfl

/-- The value log may grow. -/
theorem WF.growVlog (h : db.WF) {vlog : Vlog} (hwf : vlog.WF db.nextFileId)
    (hhead : vlog.headId = db.vlog.headId)
    (hfiles : ∀ r ∈ vlog.records, r ∈ db.vlog.records ∨ r.ptr.file = db.vlog.headId) :
    ({ db with vlog := vlog } : Db).WF :=
  { h with
    vlog := hwf
    vlogs := fun r hr => by
      rcases hfiles r hr with hr | hr
      · exact h.vlogs r hr
      · rw [hr]
        exact h.head
    head := hhead ▸ h.head }

/-! ### Rotations -/

theorem WF.rotateMemtable (h : db.WF) : db.rotateMemtableLocked.WF := by
  refine
    { recent := ⟨List.pairwise_cons.mpr
      ⟨fun _ _ _ hf => absurd hf List.not_mem_nil, h.recent.newer⟩,
        h.recent.ordered⟩
      tables_le := h.tables_le
      flushed_le := h.flushed_le
      visible_lt := h.visible_lt
      replay := ?_
      covers_sealed := ?_
      covers_wal := ⟨rfl, fun e => by simp [rotateMemtableLocked, Wal.versions]⟩
      floor_le := le_of_lt (lt_of_le_of_lt h.floor_le h.wal_lt)
      wals_sorted := ?_
      wal_lt := Nat.lt_succ_self _
      vlog := h.vlog.mono (Nat.le_succ _)
      vlogs := h.vlogs
      head := h.head
      vlogs_lt := fun id hid => Nat.lt_succ_of_lt (h.vlogs_lt id hid)
      runs_nodup := h.runs_nodup
      runs_lt := h.runs_lt
      next_le := Nat.le_succ_of_le h.next_le
      levels := h.levels }
  · -- the new WAL is empty: the same batches are replayed
    have hfloor : db.manifest.walFloor ≤ db.nextFileId :=
      le_of_lt (lt_of_le_of_lt h.floor_le h.wal_lt)
    have hsame : db.rotateMemtableLocked.replayable = db.replayable :=
      (show db.rotateMemtableLocked.replayable = _ from replayable_eq hfloor).trans
        (List.append_nil _)
    rw [hsame]
    exact h.replay
  · -- the sealed WAL is the newest, as is the frozen memtable it covers
    have hlive : db.rotateMemtableLocked.liveSealed = db.liveSealed ++ [db.wal] := by
      show (db.sealedWals ++ [db.wal]).filter (fun w => decide (db.manifest.walFloor ≤ w.id)) = _
      rw [List.filter_append, List.filter_cons_of_pos (by simpa using h.floor_le)]
      rfl
    rw [hlive]
    show List.Forall₂ _ _ (db.mem :: db.imms).reverse
    rw [List.reverse_cons]
    exact List.rel_append h.covers_sealed (.cons h.covers_wal .nil)
  · refine List.pairwise_append.mpr
      ⟨h.wals_sorted, List.pairwise_singleton _ _, fun w hw w' hw' => ?_⟩
    rw [List.mem_singleton.mp hw']
    have hle : w.id ≤ db.wal.id := by
      rcases List.mem_append.mp hw with hw | hw
      · exact le_of_lt
          ((List.pairwise_append.mp h.wals_sorted).2.2 w hw _ (List.mem_singleton_self _))
      · rw [List.mem_singleton.mp hw]
    exact lt_of_le_of_lt hle h.wal_lt

theorem buffered_rotateMemtable : e ∈ db.rotateMemtableLocked.buffered ↔ e ∈ db.buffered := Iff.rfl

theorem stored_rotateMemtable : e ∈ db.rotateMemtableLocked.stored ↔ e ∈ db.stored := by
  rw [mem_stored_iff_buffered, mem_stored_iff_buffered, buffered_rotateMemtable]
  rfl

theorem WF.rotateVlog (h : db.WF) : db.rotateVlogLocked.WF :=
  { h with
    recent := ⟨h.recent.newer, h.recent.ordered⟩
    wal_lt := Nat.lt_succ_of_lt h.wal_lt
    vlog := h.vlog.rotate
    vlogs := fun r hr => List.mem_append_left _ (h.vlogs r hr)
    head := List.mem_append_right _ (List.mem_singleton_self _)
    vlogs_lt := fun id hid => by
      rcases List.mem_append.mp hid with hid | hid
      · exact Nat.lt_succ_of_lt (h.vlogs_lt id hid)
      · rw [List.mem_singleton.mp hid]
        exact Nat.lt_succ_self _
    next_le := Nat.le_succ_of_le h.next_le }

/-! ### Flush -/

theorem foldr_max_le {l : List Entry} {n : ℕ} (h : ∀ e ∈ l, e.seq ≤ n) :
    (l.map Entry.seq).foldr max 0 ≤ n := by
  induction l with
  | nil => exact Nat.zero_le _
  | cons a l ih =>
    exact max_le (h a List.mem_cons_self) (ih fun e he => h e (List.mem_cons_of_mem _ he))

theorem le_foldr_max {l : List Entry} {e : Entry} (h : e ∈ l) :
    e.seq ≤ (l.map Entry.seq).foldr max 0 := by
  induction l with
  | nil => exact absurd h List.not_mem_nil
  | cons a l ih =>
    rcases List.mem_cons.mp h with rfl | h
    · exact le_max_left _ _
    · exact le_trans (ih h) (le_max_right _ _)

/-- Raising the floor past the oldest live sealed WAL drops just that one. -/
theorem filter_floor {ws rest : List Wal} {w : Wal} {floor : ℕ}
    (hsorted : ws.Pairwise fun w w' => w.id < w'.id)
    (h : ws.filter (fun w => decide (floor ≤ w.id)) = w :: rest) :
    ws.filter (fun v => decide (max floor (w.id + 1) ≤ v.id)) = rest := by
  have hsub : (w :: rest).Pairwise fun w w' => w.id < w'.id :=
    h ▸ hsorted.sublist List.filter_sublist
  have hrest := (List.pairwise_cons.mp hsub).1
  calc ws.filter (fun v => decide (max floor (w.id + 1) ≤ v.id))
      = (ws.filter fun v => decide (floor ≤ v.id)).filter fun v => decide (w.id + 1 ≤ v.id) := by
        rw [List.filter_filter]
        refine List.filter_congr fun v _ => ?_
        rw [← Bool.decide_and, decide_eq_decide]
        omega
    _ = rest := by
        rw [h, List.filter_cons_of_neg (by simp)]
        exact List.filter_eq_self.mpr fun v hv => decide_eq_true (hrest v hv)

/-- The oldest frozen memtable and the WAL file it is flushed from. -/
theorem WF.oldest (h : db.WF) {imm : Memtable} (himm : db.imms.getLast? = some imm) :
    ∃ w rest, db.liveSealed = w :: rest ∧ w.Covers imm ∧
      List.Forall₂ Wal.Covers rest db.imms.dropLast.reverse ∧
      db.imms = db.imms.dropLast ++ [imm] := by
  have hsplit : db.imms = db.imms.dropLast ++ [imm] :=
    (List.dropLast_append_getLast? imm himm).symm
  have hcov := h.covers_sealed
  rw [hsplit, List.reverse_append, List.reverse_singleton, List.singleton_append] at hcov
  cases hlive : db.liveSealed with
  | nil => rw [hlive] at hcov; cases hcov
  | cons w rest =>
    rw [hlive] at hcov
    cases hcov with
    | cons hw hrest => exact ⟨w, rest, rfl, hw, hrest, hsplit⟩

/-- The numbering splits at the flushed memtable: its versions end at the new
flushed seqno. -/
theorem WF.flush_numbering (h : db.WF) {imm : Memtable} {w : Wal} {rest : List Wal}
    (hlive : db.liveSealed = w :: rest) (hw : w.Covers imm) :
    Contiguous (db.manifest.lastFlushedSeqno + 1) w.records
        (max db.manifest.lastFlushedSeqno ((imm.map.map Entry.seq).foldr max 0) + 1) ∧
      Contiguous (max db.manifest.lastFlushedSeqno ((imm.map.map Entry.seq).foldr max 0) + 1)
        (rest.flatMap Wal.records ++ db.wal.records) (db.visibleSeqno + 1) := by
  have hrep := h.replay
  rw [replayable_eq h.floor_le, hlive, List.flatMap_cons, List.append_assoc,
    contiguous_append] at hrep
  obtain ⟨k, hk, hrest⟩ := hrep
  have hmap : ∀ e, e ∈ imm.map ↔ e ∈ batchVersions w.records := fun e => (hw.2 e).symm
  have hkeq : k = max db.manifest.lastFlushedSeqno ((imm.map.map Entry.seq).foldr max 0) + 1 := by
    have hle : (imm.map.map Entry.seq).foldr max 0 ≤ k - 1 := foldr_max_le fun e he => by
      have := (hk.seq_mem ((hmap e).mp he)).2
      omega
    have hkle := hk.le
    by_cases hrec : w.records = []
    · rw [hrec] at hk
      have hk' : db.manifest.lastFlushedSeqno + 1 = k := hk
      omega
    · obtain ⟨e, he, hlast⟩ := hk.exists_last hrec
      have h1 := le_foldr_max ((hmap e).mpr he)
      have h2 := (hk.seq_mem he).1
      omega
  exact hkeq ▸ ⟨hk, hrest⟩

theorem flatten_modify_zero {levels : List (List Run)} (h : levels ≠ []) (r : Run) :
    (levels.modify 0 fun l => r :: l).flatten = r :: levels.flatten := by
  cases levels with
  | nil => exact absurd rfl h
  | cons l ls => rfl

/-- What a flush does to the shape of the store: the run stands where the
memtable stood. -/
structure Flushed (db db' : Db) (imm : Memtable) (run? : Option Run) : Prop where
  mem : db'.mem = db.mem
  imms : db.imms = db'.imms ++ [imm]
  runs : db'.version.runsNewestFirst = run?.toList ++ db.version.runsNewestFirst
  held : ∀ e, e ∈ imm.map ↔ ∃ r ∈ run?, e ∈ r.entries
  ordered : ∀ r ∈ run?, r.Ordered
  replay : ∃ cut, db.replayable = cut ++ db'.replayable

theorem Flushed.recent {db' : Db} {imm : Memtable} {run? : Option Run}
    (hf : db.Flushed db' imm run?) (h : db.readView.Recent) : db'.readView.Recent := by
  have hold : db.readView.sources = (db'.mem :: db'.imms).map Source.mem ++ [.mem imm] ++
      db.version.runsNewestFirst.map Source.run := by
    show (db.mem :: db.imms).map Source.mem ++ db.version.runsNewestFirst.map Source.run = _
    rw [hf.imms, hf.mem]
    simp
  have hnew : db'.readView.sources = (db'.mem :: db'.imms).map Source.mem ++
      run?.toList.map Source.run ++ db.version.runsNewestFirst.map Source.run := by
    show _ ++ db'.version.runsNewestFirst.map Source.run = _
    rw [hf.runs, List.map_append, List.append_assoc]
    rfl
  refine ⟨?_, fun r hr => ?_⟩
  · rw [hnew]
    refine pairwise_newer_replace (hold ▸ h.newer) ?_ fun b hb e he => ?_
    · cases run? with
      | none => exact List.Pairwise.nil
      | some r => exact List.pairwise_singleton _ _
    · obtain ⟨r, hr, rfl⟩ := List.mem_map.mp hb
      exact ⟨_, List.mem_singleton_self _,
        (hf.held e).mpr ⟨r, Option.mem_toList.mp hr, he⟩⟩
  · have hr' : r ∈ run?.toList ++ db.version.runsNewestFirst := hf.runs ▸ hr
    rcases List.mem_append.mp hr' with hr | hr
    · exact hf.ordered r (Option.mem_toList.mp hr)
    · exact h.ordered r hr

theorem Flushed.stored {db' : Db} {imm : Memtable} {run? : Option Run}
    (hf : db.Flushed db' imm run?) :
    e ∈ db'.stored ↔ e ∈ db.stored := by
  have htables : e ∈ db'.tableVersions ↔ e ∈ imm.map ∨ e ∈ db.tableVersions := by
    unfold tableVersions
    rw [hf.runs, List.flatMap_append, List.mem_append, hf.held e]
    simp only [List.mem_flatMap, Option.mem_toList, Option.mem_def]
  rw [mem_stored, mem_stored, htables, hf.imms, hf.mem]
  simp only [List.mem_append, List.mem_singleton, or_and_right, exists_or, exists_eq_left]
  rw [or_assoc]

/-- A flush either finds nothing or installs the oldest frozen memtable. -/
theorem flushOne_cases {opts : Options} {db' : Db} {did : Bool}
    (h : db.flushOne opts = some (db', did)) :
    (db.imms = [] ∧ db' = db) ∨ ∃ imm, db.imms.getLast? = some imm ∧
      ((imm.map = [] ∧ db' = db.installFlush imm none) ∨
        ∃ run maxSeq next, buildRunFromMem opts db.nextFileId imm = some (run, maxSeq, next) ∧
          db' = ({ db with nextFileId := next } : Db).installFlush imm (some (run, maxSeq))) := by
  unfold flushOne at h
  cases himm : db.imms.getLast? with
  | none =>
    rw [himm] at h
    exact Or.inl ⟨List.getLast?_eq_none_iff.mp himm, (Prod.mk.inj (Option.some_inj.mp h)).1.symm⟩
  | some imm =>
    rw [himm] at h
    refine Or.inr ⟨imm, rfl, ?_⟩
    simp only at h
    split at h
    · rename_i hempty
      exact Or.inl ⟨List.isEmpty_iff.mp hempty, (Prod.mk.inj (Option.some_inj.mp h)).1.symm⟩
    · obtain ⟨⟨run, maxSeq, next⟩, hbuild, heq⟩ := Option.map_eq_some_iff.mp h
      exact Or.inr ⟨run, maxSeq, next, hbuild, (Prod.mk.inj heq).1.symm⟩

/-- Flushing an empty memtable or one that became `run`. -/
theorem WF.installFlush (h : db.WF) {imm : Memtable} (himm : db.imms.getLast? = some imm)
    {run? : Option (Run × ℕ)} {next : ℕ} (hnext : db.nextFileId ≤ next)
    (hnone : run? = none → imm.map = [])
    (hsome : ∀ r ∈ run?, r.1.entries = imm.map ∧ r.1.Ordered ∧ r.1.id = db.nextFileId ∧
      db.nextFileId < next ∧ r.2 = (imm.map.map Entry.seq).foldr max 0) :
    (({ db with nextFileId := next } : Db).installFlush imm run?).WF ∧
      db.Flushed (({ db with nextFileId := next } : Db).installFlush imm run?) imm
        (run?.map Prod.fst) := by
  obtain ⟨w, rest, hlive, hw, hrest, hsplit⟩ := h.oldest himm
  obtain ⟨-, hafter⟩ := h.flush_numbering hlive hw
  -- the new floor is right behind the WAL of the flushed memtable, the oldest live one
  have hlive' : (({ db with nextFileId := next } : Db).installFlush imm run?).liveSealed =
    rest := by
    show ((db.sealedWals.filter fun v =>
      decide (max db.manifest.walFloor (imm.walId + 1) ≤ v.id)).filter
      fun v => decide (max db.manifest.walFloor (imm.walId + 1) ≤ v.id)) = rest
    rw [List.filter_filter, ← hw.1]
    simp only [Bool.and_self]
    exact filter_floor (List.pairwise_append.mp h.wals_sorted).1 hlive
  have hmem_sealed : w ∈ db.sealedWals := List.mem_of_mem_filter (hlive ▸ List.mem_cons_self)
  have hwlt : w.id < db.wal.id :=
    (List.pairwise_append.mp h.wals_sorted).2.2 w hmem_sealed _ (List.mem_singleton_self _)
  have hfloor : max db.manifest.walFloor (imm.walId + 1) ≤ db.wal.id := by
    rw [← hw.1]
    exact max_le h.floor_le hwlt
  have hflushed : db.Flushed (({ db with nextFileId := next } : Db).installFlush imm run?) imm
      (run?.map Prod.fst) := by
    refine ⟨rfl, hsplit, ?_, fun e => ?_, fun r hr => ?_, w.records, ?_⟩
    · cases run? with
      | none => rfl
      | some r => exact flatten_modify_zero h.levels r.1
    · cases run? with
      | none => simp [hnone rfl]
      | some r => simp [(hsome r rfl).1]
    · obtain ⟨r', hr', rfl⟩ := Option.mem_map.mp hr
      exact (hsome r' hr').2.1
    · rw [replayable_eq h.floor_le, hlive, List.flatMap_cons, List.append_assoc, ← hlive']
      exact congrArg (w.records ++ ·) (replayable_eq hfloor).symm
  -- the flushed seqno rises to the newest version of the memtable, if there is any
  have hlast :
      (({ db with nextFileId := next } : Db).installFlush imm run?).manifest.lastFlushedSeqno =
        max db.manifest.lastFlushedSeqno ((imm.map.map Entry.seq).foldr max 0) := by
    cases run? with
    | none =>
      show db.manifest.lastFlushedSeqno = _
      rw [hnone rfl]
      simp
    | some r =>
      show max db.manifest.lastFlushedSeqno r.2 = _
      rw [(hsome r rfl).2.2.2.2]
  have himm_le : ∀ e ∈ imm.map, e.seq ≤ db.visibleSeqno := fun e he =>
    h.stored_le (mem_stored.mpr (Or.inr (Or.inl ⟨imm, List.mem_of_getLast? himm, he⟩)))
  refine ⟨?_, hflushed⟩
  refine
    { recent := hflushed.recent h.recent
      tables_le := fun e he => ?_
      flushed_le := ?_
      visible_lt := h.visible_lt
      replay := ?_
      covers_sealed := ?_
      covers_wal := h.covers_wal
      floor_le := hfloor
      wals_sorted := ?_
      wal_lt := lt_of_lt_of_le h.wal_lt hnext
      vlog := h.vlog.mono hnext
      vlogs := h.vlogs
      head := h.head
      vlogs_lt := fun id hid => lt_of_lt_of_le (h.vlogs_lt id hid) hnext
      runs_nodup := ?_
      runs_lt := fun r hr => ?_
      next_le := le_rfl
      levels := ?_ }
  · rw [hlast]
    unfold tableVersions at he
    rw [hflushed.runs, List.flatMap_append, List.mem_append] at he
    rcases he with he | he
    · refine le_trans (le_foldr_max ?_) (le_max_right _ _)
      obtain ⟨r, hr, he⟩ := List.mem_flatMap.mp he
      exact (hflushed.held e).mpr ⟨r, Option.mem_toList.mp hr, he⟩
    · exact le_trans (h.tables_le e he) (le_max_left _ _)
  · rw [hlast]
    exact max_le h.flushed_le (foldr_max_le himm_le)
  · rw [replayable_eq hfloor, hlive', hlast]
    exact hafter
  · rw [hlive']
    exact hrest
  · exact h.wals_sorted.sublist (List.filter_sublist.append (List.Sublist.refl _))
  · rw [hflushed.runs, List.map_append]
    cases run? with
    | none => exact h.runs_nodup
    | some r =>
      refine List.nodup_cons.mpr ⟨fun hmem => ?_, h.runs_nodup⟩
      obtain ⟨r', hr', hid⟩ := List.mem_map.mp hmem
      -- the id of the run was allocated for it
      have h1 := h.runs_lt r' hr'
      have h2 := h.next_le
      have h3 := (hsome r rfl).2.2.1
      omega
  · show r.id < next
    rw [hflushed.runs] at hr
    rcases List.mem_append.mp hr with hr | hr
    · obtain ⟨r', hr', rfl⟩ := Option.mem_map.mp (Option.mem_toList.mp hr)
      have := hsome r' hr'
      omega
    · exact lt_of_lt_of_le (h.runs_lt r hr) (le_trans h.next_le hnext)
  · cases run? with
    | none => exact h.levels
    | some r =>
      intro hnil
      have hlen : (db.version.levels.modify 0 fun l => r.1 :: l).length = 0 :=
        List.length_eq_zero_iff.mpr hnil
      rw [List.length_modify] at hlen
      exact h.levels (List.length_eq_zero_iff.mp hlen)

/-- **Flush**: the versions stay, and so does every structural fact. -/
theorem WF.flushOne (h : db.WF) {opts : Options} {db' : Db} {did : Bool}
    (hf : db.flushOne opts = some (db', did)) :
    db'.WF ∧ (db' = db ∨ ∃ imm run?, db.Flushed db' imm run?) := by
  rcases flushOne_cases hf with
    ⟨-, rfl⟩ | ⟨imm, himm, ⟨hempty, rfl⟩ | ⟨run, maxSeq, next, hbuild, rfl⟩⟩
  · exact ⟨h, Or.inl rfl⟩
  · obtain ⟨hwf, hfl⟩ := h.installFlush himm le_rfl (fun _ => hempty)
      fun r (hr : r ∈ none) => absurd hr (Option.not_mem_none r)
    exact ⟨hwf, Or.inr ⟨imm, _, hfl⟩⟩
  · have hspec := buildRunFromMem_spec hbuild
    obtain ⟨hwf, hfl⟩ := h.installFlush himm (le_of_lt hspec.2.2.2.1)
      (fun (hc : some (run, maxSeq) = none) => absurd hc (by simp))
      fun r hr => (Option.some_inj.mp hr) ▸ hspec
    exact ⟨hwf, Or.inr ⟨imm, _, hfl⟩⟩

end Db

end Fluent31
