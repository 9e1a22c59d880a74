/-
A degraded store acknowledges nothing (`db.rs`, `txn.rs`).

After an append or sync of the write path has failed, the WAL may end in a part
of a record, or in a whole one whose batch was not acknowledged; the next apply
would start at the same seqno.

* `degraded_refuses` — in every run in which no other writer is past its check
  when such an operation fails, nothing is acknowledged afterwards, every
  acknowledged batch is flushed or in the WALs that a reopen replays, and no two
  of their records overlap;
* `degraded_acks`, `records_overlap` — a writer that passed the check before the
  failure is acknowledged after it, under seqnos a WAL record already has.
-/
import Fluent31.SealedWals
import Mathlib.Data.List.Flatten
import Mathlib.Data.List.Pairwise

namespace Fluent31

variable {crc : Bytes → Fin (2 ^ 32)} {opts : Options} {db : Db} {s s' : WritePath}

/-- Different seqnos. -/
def Apart (r r' : ℕ × List EncEntry) : Prop := r.1 + r.2.length ≤ r'.1 ∨ r'.1 + r'.2.length ≤ r.1

instance : Std.Symm Apart := ⟨fun _ _ h => h.symm⟩

namespace WritePath

/-- An append or sync of this apply fails. -/
def FailsHard (plan : Faults → Plan) (f : Faults) : Prop := (plan f.hard).failed.isSome

/-- No other writer is past its check when an append or sync fails, the
collector with chunks to come included. -/
def Alone (opts : Options) (s : WritePath) : PathAction → Prop
  | .apply i f => ∀ w ∈ (s.passed[i]?).toList,
    FailsHard (fun f => w.plan opts s.store.db f) f → s.passed.eraseIdx i = []
  | .relocate i records f => FailsHard (s.store.db.relocatePlan opts records) f →
    s.passed.eraseIdx i = [] ∧ (s.store.db.relocatePlan opts records f.unrotated).failed.isSome
  | .sync i fault => fault.isSome → s.passed.eraseIdx i = []
  | _ => True

instance (plan : Faults → Plan) (f : Faults) : Decidable (FailsHard plan f) := by
  unfold FailsHard
  infer_instance

instance (s : WritePath) (a : PathAction) : Decidable (s.Alone opts a) :=
  match a with
  | .apply _ _ => inferInstanceAs (Decidable (∀ w ∈ _, _ → _))
  | .relocate _ _ _ => inferInstanceAs (Decidable (_ → _ ∧ _))
  | .sync _ _ => inferInstanceAs (Decidable (_ → _))
  | .check _ | .leave _ | .forceRotate _ | .flush | .degrade _ | .background .. => .isTrue trivial

end WritePath

/-! ### The invariant -/

/-- Records in rising seqnos. -/
theorem Contiguous.rising {n m : ℕ} {xs : List (ℕ × List EncEntry)} (h : Contiguous n xs m) :
    xs.Pairwise fun r r' => r.1 + r.2.length ≤ r'.1 := by
  induction xs generalizing n with
  | nil => exact List.Pairwise.nil
  | cons r xs ih =>
    obtain ⟨rfl, -, hrest⟩ := h
    exact List.pairwise_cons.mpr ⟨fun r' hr' => (hrest.mem hr').1, ih hrest⟩

namespace WalStore

/-- The WAL files hold the records of the store, in rising seqnos, and maybe a
part of one more; every acknowledged batch is flushed, or in a memtable and its
WAL. -/
structure Holding (crc : Bytes → Fin (2 ^ 32)) (d : WalStore) (acked : List (ℕ × List EncEntry))
    (flushed : List Entry) (failed : Bool) : Prop where
  tidy : d.Tidy
  known : ∀ id f, d.files id = some f → (∃ w ∈ d.wals, w.id = id) ∨ f.bytes = []
  stores : ∀ w ∈ d.wals, ∃ f rest, d.files w.id = some f ∧ Remnant crc rest ∧
    f.bytes = frames crc (w.records.map payload) ++ rest
  target : failed = false → ∃ f, d.files d.db.wal.id = some f ∧
    f.Holds crc (d.db.wal.records.map payload)
  fits : ∀ w ∈ d.wals, ∀ r ∈ w.records, (payload r).length < WAL_RECORD_LIMIT
  rising : (d.wals.flatMap Wal.records).Pairwise fun r r' => r.1 + r.2.length ≤ r'.1
  below : failed = false → ∀ r ∈ d.wals.flatMap Wal.records,
    r.1 + r.2.length ≤ d.db.visibleSeqno + 1
  mem_le : ∀ e ∈ d.db.mem.map, e.seq ≤ d.db.visibleSeqno
  acked : ∀ r ∈ acked, (∀ e ∈ versionsFrom r.1 r.2, e ∈ flushed) ∨
    ∃ m ∈ d.db.mem :: d.db.imms, ∃ w ∈ d.wals, w.id = m.walId ∧ r ∈ w.records ∧
      ∀ e ∈ versionsFrom r.1 r.2, e ∈ m.map

variable {d d' : WalStore} {acked : List (ℕ × List EncEntry)} {flushed : List Entry} {failed : Bool}

theorem Holding.of_same (h : d.Holding crc acked flushed failed) (hs : d.db.SameWal d'.db)
    (hfiles : d'.files = d.files) : d'.Holding crc acked flushed failed := by
  have hwals : d'.wals = d.wals := by rw [wals, hs.wal, hs.sealedWals]; rfl
  exact ⟨h.tidy.of_same hs hfiles, by rw [hfiles, hwals]; exact h.known,
    by rw [hfiles, hwals]; exact h.stores, by rw [hfiles, hs.wal]; exact h.target,
    by rw [hwals]; exact h.fits, by rw [hwals]; exact h.rising,
    by rw [hwals, hs.visible]; exact h.below, by rw [hs.mem, hs.visible]; exact h.mem_le,
    by rw [hs.mem, hs.imms, hwals]; exact h.acked⟩

/-- A file with only its header bytes, next to those of the store. -/
theorem Holding.orphan (h : d.Holding crc acked flushed failed) (hs : d.db.SameWal d'.db)
    (hlt : d.db.nextFileId < d'.db.nextFileId)
    (hfiles : d'.files = Function.update d.files d.db.nextFileId (some ⟨[], 0⟩)) :
    d'.Holding crc acked flushed failed := by
  have hsame : (⟨d'.db, d.files⟩ : WalStore).Holding crc acked flushed failed := h.of_same hs rfl
  -- the id is fresh, so it is no WAL of the store
  have hfresh : ∀ w ∈ d'.wals, d'.files w.id = d.files w.id := by
    intro w hw
    have hle : w.id < d.db.nextFileId := by
      have hw : w ∈ d.wals := by
        unfold wals at hw ⊢
        rwa [hs.wal, hs.sealedWals] at hw
      rcases mem_wals.mp hw with hw | rfl
      · exact lt_trans (h.tidy.sealed_lt hw) h.tidy.wal_lt
      · exact h.tidy.wal_lt
    rw [hfiles, Function.update_of_ne (ne_of_lt hle)]
  refine { hsame with
    tidy := ?_
    known := fun id f hf => ?_
    stores := fun w hw => ?_
    target := fun hok => ?_ }
  · have hr : Rotation True (some (.syncWalDir, "")) d d' := .orphan trivial rfl hs hlt hfiles
    exact hr.tidy h.tidy
  · by_cases heq : id = d.db.nextFileId
    · rw [hfiles, heq, Function.update_self] at hf
      exact Or.inr (by rw [← Option.some_inj.mp hf])
    · rw [hfiles, Function.update_of_ne heq] at hf
      exact hsame.known id f hf
  · rw [hfresh w hw]
    exact hsame.stores w hw
  · rw [hfresh d'.db.wal (mem_wals.mpr (Or.inr rfl))]
    exact hsame.target hok

theorem Holding.frozen (h : d.Holding crc acked flushed failed)
    (hs : d.db.rotateMemtableLocked.SameWal d'.db)
    (hfiles : d'.files = Function.update d.files d.db.nextFileId (some ⟨[], 0⟩)) :
    d'.Holding crc acked flushed failed := by
  have hwals : d'.wals = d.wals ++ [⟨d.db.nextFileId, []⟩] := by
    unfold wals
    rw [hs.wal, hs.sealedWals]
    rfl
  have hrecords : d'.wals.flatMap Wal.records = d.wals.flatMap Wal.records := by
    rw [hwals, List.flatMap_append]
    exact List.append_nil _
  -- the new file has a fresh id, so the files of the older WALs stay
  have hold : ∀ w ∈ d.wals, d'.files w.id = d.files w.id := by
    intro w hw
    have hlt : w.id < d.db.nextFileId := by
      rcases mem_wals.mp hw with hw | rfl
      · exact lt_trans (h.tidy.sealed_lt hw) h.tidy.wal_lt
      · exact h.tidy.wal_lt
    rw [hfiles, Function.update_of_ne (ne_of_lt hlt)]
  have hnew : d'.files d.db.nextFileId = some ⟨[], 0⟩ := by rw [hfiles, Function.update_self]
  refine ⟨tidy_rotate h.tidy hs hfiles, fun id f hf => ?_, fun w hw => ?_,
    fun _ => ?_, fun w hw r hr => ?_, by rw [hrecords]; exact h.rising,
    by rw [hrecords, hs.visible]; exact h.below, fun e he => ?_, fun r hr => ?_⟩
  · by_cases heq : id = d.db.nextFileId
    · rw [heq, hnew] at hf
      exact Or.inr (by rw [← Option.some_inj.mp hf])
    · rw [hfiles, Function.update_of_ne heq] at hf
      refine (h.known id f hf).imp_left fun ⟨w, hw, hid⟩ => ⟨w, ?_, hid⟩
      rw [hwals]
      exact List.mem_append_left _ hw
  · rw [hwals] at hw
    rcases List.mem_append.mp hw with hw | hw
    · rw [hold w hw]
      exact h.stores w hw
    · rw [List.mem_singleton.mp hw]
      exact ⟨_, [], hnew, Or.inl rfl, rfl⟩
  · rw [hs.wal]
    exact ⟨_, hnew, rfl, rfl⟩
  · rw [hwals] at hw
    rcases List.mem_append.mp hw with hw | hw
    · exact h.fits w hw r hr
    · rw [List.mem_singleton.mp hw] at hr
      exact absurd hr List.not_mem_nil
  · -- the new memtable is empty
    rw [hs.mem] at he
    exact absurd he List.not_mem_nil
  · refine (h.acked r hr).imp_right fun ⟨m, hm, w, hw, hrest⟩ => ⟨m, ?_, w, ?_, hrest⟩
    · rw [hs.mem, hs.imms]
      exact List.mem_cons_of_mem _ hm
    · rw [hwals]
      exact List.mem_append_left _ hw

theorem Rotation.holding {full : Prop} {fault : Option (RotateOp × String)}
    (hr : Rotation full fault d d')
    (h : d.Holding crc acked flushed failed) : d'.Holding crc acked flushed failed := by
  cases hr with
  | quiet hs hf => exact h.of_same hs hf
  | orphan _ _ hs hlt hf => exact h.orphan hs hlt hf
  | frozen _ hs hf => exact h.frozen hs hf

/-- An apply, of which maybe an append or the sync fails. -/
theorem Written.holding {written appended : List (ℕ × List EncEntry)}
    {lost : Option (ℕ × List EncEntry × ℕ)}
    (hw : Written crc d d' written appended lost) (h : d.Holding crc acked flushed false)
    (hnumbered : ∃ m, Contiguous (d.db.visibleSeqno + 1) written m)
    (hfits : ∀ r ∈ written, (payload r).length < WAL_RECORD_LIMIT)
    (hlost : ∀ r ∈ lost.toList, (payload (r.1, r.2.1)).length < WAL_RECORD_LIMIT)
    (happ : appended = written ∨ appended = [])
    (hok : failed = false → lost = none ∧ appended = written) :
    d'.Holding crc (acked ++ appended) flushed failed := by
  obtain ⟨m, hm⟩ := hnumbered
  have hid : d'.db.wal.id = d.db.wal.id := by rw [hw.wal]
  have hold : ∀ w ∈ d.db.sealedWals, d'.files w.id = d.files w.id := fun w hsealed => by
    rw [hw.files, write, Function.update_of_ne (ne_of_lt (h.tidy.sealed_lt hsealed))]
  obtain ⟨f, hf, hholds⟩ := h.target rfl
  have hall := hholds.appendAll (written.map payload)
  rw [← List.map_append] at hall
  have htarget : d'.files d'.db.wal.id =
      some (tear crc lost ((written.map payload).foldl (WalFile.append crc) f)) := by
    rw [hid, hw.files, write, Function.update_self, hf]
    rfl
  have hrecords : d'.wals.flatMap Wal.records = d.wals.flatMap Wal.records ++ written := by
    unfold wals
    rw [hw.sealedWals, hw.wal, List.flatMap_append, List.flatMap_append, List.append_assoc]
    simp
  have hvisible : d.db.visibleSeqno ≤ d'.db.visibleSeqno ∧ ∀ r ∈ appended,
      r.1 + r.2.length ≤ d'.db.visibleSeqno + 1 := by
    rw [hw.visible]
    rcases happ with rfl | rfl
    · cases hlast : appended.getLast? with
      | none =>
        rw [List.getLast?_eq_none_iff.mp hlast]
        exact ⟨le_rfl, fun r hr => absurd hr List.not_mem_nil⟩
      | some last =>
        have hend := hm.last hlast
        have hmem := hm.mem (show (last.1, last.2) ∈ appended from List.mem_of_getLast? hlast)
        refine ⟨?_, fun r hr => ?_⟩
        · show d.db.visibleSeqno ≤ last.1 + last.2.length - 1
          have := List.length_pos_iff.mpr hmem.2.2
          omega
        · have := (hm.mem (show (r.1, r.2) ∈ appended from hr)).2.1
          show r.1 + r.2.length ≤ last.1 + last.2.length - 1 + 1
          omega
    · exact ⟨le_rfl, fun r hr => absurd hr List.not_mem_nil⟩
  -- the memtable holds what it held and the acknowledged batches
  have hmem : ∀ e, e ∈ d'.db.mem.map ↔ e ∈ d.db.mem.map ∨ e ∈ batchVersions appended := by
    intro e
    rw [hw.mem]
    rcases happ with rfl | rfl
    · refine Memtable.mem_insertAll (fun f hf g hg => ikey_ne_of_seq_ne ?_)
        (hm.pairwise_seq.imp fun hlt => ikey_ne_of_seq_ne (ne_of_lt hlt))
      have h1 := h.mem_le f hf
      have h2 := (hm.seq_mem hg).1
      omega
    · exact (or_iff_left List.not_mem_nil).symm
  refine ⟨hw.tidy h.tidy, fun id f hfile => ?_, fun w hmemw => ?_, fun hfailed => ?_,
    fun w hmemw r hr => ?_, ?_, fun hfailed r hr => ?_, fun e he => ?_, fun r hr => ?_⟩
  · by_cases heq : id = d.db.wal.id
    · exact Or.inl ⟨d'.db.wal, mem_wals.mpr (Or.inr rfl), hid.trans heq.symm⟩
    · rw [hw.files, write, Function.update_of_ne heq] at hfile
      refine (h.known id f hfile).imp_left fun hwal => ?_
      obtain ⟨w, hmemw, hwid⟩ := hwal
      rcases mem_wals.mp hmemw with hsealed | rfl
      · exact ⟨w, mem_wals.mpr (Or.inl (hw.sealedWals ▸ hsealed)), hwid⟩
      · exact absurd hwid.symm heq
  · rcases mem_wals.mp hmemw with hsealed | rfl
    · rw [hw.sealedWals] at hsealed
      rw [hold w hsealed]
      exact h.stores w (mem_wals.mpr (Or.inl hsealed))
    · rw [htarget, hw.wal]
      cases lost with
      | none => exact ⟨_, [], rfl, Or.inl rfl, by rw [List.append_nil]; exact hall.1⟩
      | some r =>
        obtain ⟨rest, hrest, hbytes⟩ := hall.appendTorn (payload_pos (r.1, r.2.1))
          (hlost r (List.mem_singleton_self r)) r.2.2
        exact ⟨_, rest, rfl, hrest, hbytes⟩
  · obtain ⟨rfl, -⟩ := hok hfailed
    rw [htarget, hw.wal]
    exact ⟨_, rfl, hall⟩
  · rcases mem_wals.mp hmemw with hsealed | rfl
    · rw [hw.sealedWals] at hsealed
      exact h.fits w (mem_wals.mpr (Or.inl hsealed)) r hr
    · rw [hw.wal] at hr
      rcases List.mem_append.mp hr with hr | hr
      · exact h.fits d.db.wal (mem_wals.mpr (Or.inr rfl)) r hr
      · exact hfits r hr
  · rw [hrecords]
    refine List.pairwise_append.mpr ⟨h.rising, hm.rising, fun r hr r' hr' => ?_⟩
    have h1 := h.below rfl r hr
    have h2 := (hm.mem (show (r'.1, r'.2) ∈ written from hr')).1
    omega
  · rw [hrecords] at hr
    rcases List.mem_append.mp hr with hr | hr
    · exact le_trans (h.below rfl r hr) (Nat.succ_le_succ hvisible.1)
    · exact hvisible.2 r ((hok hfailed).2 ▸ hr)
  · rcases (hmem e).mp he with he | he
    · exact le_trans (h.mem_le e he) hvisible.1
    · obtain ⟨r, hr, he⟩ := List.mem_flatMap.mp he
      have h1 := hvisible.2 r hr
      have h2 := (seq_of_mem_versionsFrom he).2
      omega
  · -- an acknowledged batch, of before or of now
    rcases List.mem_append.mp hr with hr | hr
    · refine (h.acked r hr).imp_right fun hstored => ?_
      obtain ⟨m, hm', w, hmemw, hwid, hmemr, hvers⟩ := hstored
      have hw' : ∃ w' ∈ d'.wals, w'.id = w.id ∧ r ∈ w'.records := by
        rcases mem_wals.mp hmemw with hsealed | rfl
        · exact ⟨w, mem_wals.mpr (Or.inl (hw.sealedWals ▸ hsealed)), rfl, hmemr⟩
        · refine ⟨d'.db.wal, mem_wals.mpr (Or.inr rfl), hid, ?_⟩
          rw [hw.wal]
          exact List.mem_append_left _ hmemr
      obtain ⟨w', hw', hid', hmemr'⟩ := hw'
      rcases List.mem_cons.mp hm' with rfl | himm
      · refine ⟨d'.db.mem, List.mem_cons_self, w', hw', ?_, hmemr', fun e he =>
          (hmem e).mpr (Or.inl (hvers e he))⟩
        rw [hid', hwid, hw.mem, Memtable.insertAll_walId]
      · refine ⟨m, List.mem_cons_of_mem _ ?_, w', hw', hid'.trans hwid, hmemr', hvers⟩
        rw [hw.imms]
        exact himm
    · refine Or.inr ⟨d'.db.mem, List.mem_cons_self, d'.db.wal, mem_wals.mpr (Or.inr rfl), ?_, ?_,
        fun e he => ?_⟩
      · exact (hw.tidy h.tidy).mem_wal.symm
      · rw [hw.wal]
        refine List.mem_append_right _ ?_
        rcases happ with rfl | rfl
        · exact hr
        · exact absurd hr List.not_mem_nil
      · exact (hmem e).mpr (Or.inr (List.mem_flatMap.mpr ⟨r, hr, he⟩))

theorem Holding.flush (h : d.Holding crc acked flushed failed) (hf : d.flush opts = some d') :
    d'.Holding crc acked (flushed ++ d.db.imms.getLast?.elim [] Memtable.map) failed := by
  have htidy := tidy_flush h.tidy hf
  rcases flush_spec hf with ⟨himms, hdb, hfiles⟩ | ⟨imm, himm, hfl⟩
  · have hwals : d'.wals = d.wals := by rw [wals, hdb]; rfl
    -- nothing to flush: the floor stays, and so do the WALs above it
    have hkept : ∀ w ∈ d.wals, d'.files w.id = d.files w.id := fun w hw => by
      rw [hfiles]
      exact if_neg (not_lt.mpr (h.tidy.floor_le w hw))
    rw [himms]
    refine ⟨htidy, fun id f hfile => ?_, fun w hw => ?_, fun hok => ?_,
      by rw [hwals]; exact h.fits, by rw [hwals]; exact h.rising,
      by rw [hwals, hdb]; exact h.below, by rw [hdb]; exact h.mem_le, ?_⟩
    · rw [hfiles] at hfile
      simp only at hfile
      split at hfile
      · exact absurd hfile (by simp)
      · rw [hwals]
        exact h.known id f hfile
    · rw [hwals] at hw
      rw [hkept w hw]
      exact h.stores w hw
    · rw [hdb, hkept d.db.wal (mem_wals.mpr (Or.inr rfl))]
      exact h.target hok
    · rw [hdb, hwals]
      simpa using h.acked
  · -- the WALs that stay are those from the new floor on
    have hmem : ∀ w, w ∈ d'.wals ↔ w ∈ d.wals ∧ d'.db.manifest.walFloor ≤ w.id := by
      intro w
      constructor
      · intro hw
        refine ⟨?_, htidy.floor_le w hw⟩
        rcases mem_wals.mp hw with hw | rfl
        · rw [hfl.sealedWals] at hw
          exact mem_wals.mpr (Or.inl (List.mem_filter.mp hw).1)
        · exact mem_wals.mpr (Or.inr hfl.wal)
      · rintro ⟨hw, hle⟩
        rcases mem_wals.mp hw with hw | rfl
        · refine mem_wals.mpr (Or.inl ?_)
          rw [hfl.sealedWals]
          exact List.mem_filter.mpr ⟨hw, decide_eq_true hle⟩
        · exact mem_wals.mpr (Or.inr hfl.wal.symm)
    have hsub : d'.wals.Sublist d.wals := by
      unfold wals
      rw [hfl.sealedWals, hfl.wal]
      exact List.filter_sublist.append (List.Sublist.refl _)
    have hrecords : (d'.wals.flatMap Wal.records).Sublist (d.wals.flatMap Wal.records) :=
      hsub.flatMap _
    have hkept : ∀ w ∈ d'.wals, d'.files w.id = d.files w.id := fun w hw => by
      rw [hfl.files]
      exact if_neg (not_lt.mpr (htidy.floor_le w hw))
    refine ⟨htidy, fun id f hid => ?_, fun w hw => ?_, fun hok => ?_, fun w hw =>
      h.fits w ((hmem w).mp hw).1,
      h.rising.sublist hrecords, fun hok r hr => ?_, ?_, fun r hr => ?_⟩
    · rw [hfl.files] at hid
      simp only at hid
      split at hid
      · exact absurd hid (by simp)
      · rename_i hle
        refine (h.known id f hid).imp_left fun hwal => ?_
        obtain ⟨w, hw, hwid⟩ := hwal
        exact ⟨w, (hmem w).mpr ⟨hw, by rw [hwid]; exact not_lt.mp hle⟩, hwid⟩
    · rw [hkept w hw]
      exact h.stores w ((hmem w).mp hw).1
    · rw [hkept d'.db.wal (mem_wals.mpr (Or.inr rfl)), hfl.wal]
      exact h.target hok
    · rw [hfl.visible]
      exact h.below hok r (hrecords.subset hr)
    · rw [hfl.mem, hfl.visible]
      exact h.mem_le
    · -- what was in the flushed memtable is flushed now
      obtain ⟨older, holder⟩ := List.getLast?_eq_some_iff.mp himm
      rw [himm]
      rcases h.acked r hr with hflushed | ⟨m, hm, w, hw, hid, hmemr, hvers⟩
      · exact Or.inl fun e he => List.mem_append_left _ (hflushed e he)
      · have hcases : m = imm ∨ m ∈ d'.db.mem :: d'.db.imms := by
          rw [hfl.mem, hfl.imms, holder, List.dropLast_concat]
          rcases List.mem_cons.mp hm with rfl | hm
          · exact Or.inr List.mem_cons_self
          · rw [holder] at hm
            rcases List.mem_append.mp hm with hm | hm
            · exact Or.inr (List.mem_cons_of_mem _ hm)
            · exact Or.inl (List.mem_singleton.mp hm)
        rcases hcases with rfl | hstay
        · exact Or.inl fun e he => List.mem_append_right _ (hvers e he)
        · -- a memtable that stays keeps its WAL, which is not below the floor
          refine Or.inr ⟨m, hstay, w, (hmem w).mpr ⟨hw, ?_⟩, hid, hmemr, hvers⟩
          have hlive : ∃ w' ∈ d'.wals, w'.id = m.walId := by
            rcases List.mem_cons.mp hstay with rfl | himm'
            · exact ⟨d'.db.wal, mem_wals.mpr (Or.inr rfl), htidy.mem_wal.symm⟩
            · obtain ⟨w', hw', hid'⟩ := htidy.live m himm'
              exact ⟨w', mem_wals.mpr (Or.inl hw'), hid'⟩
          obtain ⟨w', hw', hid'⟩ := hlive
          have := htidy.floor_le w' hw'
          omega

end WalStore

/-! ### Runs -/

namespace WritePath

/-- What every state keeps. -/
structure Guarded (crc : Bytes → Fin (2 ^ 32)) (s : WritePath) : Prop where
  holding : s.store.Holding crc s.acked s.flushed s.failed
  refused : s.failed = true → s.passed = [] ∧ s.bgError.isSome

/-- An apply of a store that has not failed. -/
theorem carry_holding {plan : Faults → Plan} {f : Faults} (h : s.Guarded crc)
    (hfailed : s.failed = false) (hplan : Planned opts s.store.db plan) :
    (s.carry crc plan f).store.Holding crc (s.carry crc plan f).acked (s.carry crc plan f).flushed
        (s.carry crc plan f).failed ∧
      ((s.carry crc plan f).failed = true → FailsHard plan f ∧
        (s.carry crc plan f).bgError.isSome) := by
  obtain ⟨written, lost, pre, mid, rot, hshape, hwhole⟩ := hplan.shape f
  obtain ⟨d₁, hw, hr⟩ := s.store.apply_spec crc hshape
  have hhard : (s.carry crc plan f).failed = (plan f.hard).failed.isSome := by
    show (s.failed || _) = _
    rw [hfailed, Bool.false_or]
  refine ⟨hr.holding
    (hw.holding (hfailed ▸ h.holding) hshape.numbered hshape.fits hshape.lost_fits hshape.appended
    fun hok => ?_), fun hfail => ?_⟩
  · rw [hhard] at hok
    exact hwhole (hplan.unrotated_of_hard
      (Option.isSome_eq_false_iff.mp hok |> Option.isNone_iff_eq_none.mp))
  · rw [hhard] at hfail
    refine ⟨hfail, ?_⟩
    have hsome := hplan.failed_of_hard (f := f) hfail
    show (s.bgError <|> (plan f).failed).isSome
    cases s.bgError with
    | none => exact hsome
    | some msg => rfl

/-- A batch on the direct path that fails before its answer is answered with an
error. -/
theorem directPlan_error {db : Db} {ops : List BatchOp} {capture : Bool} {f : Faults}
    (h : (db.directPlan opts ops capture f.unrotated).failed.isSome) :
    ((db.directPlan opts ops capture f).outcome.any fun r => !r.isOk) = true := by
  unfold Db.directPlan at h ⊢
  simp only [Faults.unrotated] at h ⊢
  split
  · rfl
  · -- failure by failure: each answers its error, and behind all of them nothing has failed
    rename_i hmax
    rw [if_neg hmax] at h
    split
    · rfl
    · rename_i hsize
      rw [if_neg hsize] at h
      split
      · rfl
      · rename_i hplace
        rw [hplace] at h
        split
        · rfl
        · rename_i hvlog
          simp only at h
          rw [hvlog] at h
          simp only at h
          split
          · rfl
          · rename_i hlimit
            rw [if_neg hlimit] at h
            split
            · rfl
            · rename_i hrecord
              rw [hrecord] at h
              split
              · rfl
              · rename_i hwal
                simp only at h
                rw [hwal] at h
                simp only [(Db.performAll_rotateSteps opts _).2] at h
                exact absurd h (by simp)

/-- A chunk of the collector that fails before its answer ends the pass. -/
theorem relocate_error {db : Db} {records : List VlogRecord} {f : Faults}
    (h : (db.relocatePlan opts records f.unrotated).failed.isSome) :
    ((db.relocatePlan opts records f).outcome.any fun r => !r.isOk) = true := by
  unfold Db.relocatePlan at h ⊢
  by_cases hops : relocationOps db records = []
  · rw [if_pos hops] at h
    exact absurd h (by simp)
  · rw [if_neg hops] at h ⊢
    exact directPlan_error h

theorem step_guarded {a : PathAction} (h : s.Guarded crc) (hok : s.Alone opts a)
    (hs : s.step crc opts a = some s') : s'.Guarded crc := by
  -- a writer past its check means that nothing has failed
  have hfresh : ∀ (i : ℕ) (w : Writer), s.passed[i]? = some w → s.failed = false := by
    intro i w hw
    cases hfailed : s.failed with
    | false => rfl
    | true =>
      rw [(h.refused hfailed).1] at hw
      exact absurd hw (by simp)
  cases a with
  | check w =>
    obtain ⟨⟨hnone, -⟩, rfl⟩ := Option.ite_none_right_eq_some.mp hs |>.imp_right Option.some_inj.mp
    refine ⟨h.holding, fun hfailed => ?_⟩
    have hsome := (h.refused hfailed).2
    rw [hnone] at hsome
    exact absurd hsome (by simp)
  | leave i =>
    obtain ⟨-, rfl⟩ := Option.ite_none_right_eq_some.mp hs |>.imp_right Option.some_inj.mp
    refine ⟨h.holding, fun hfailed => ⟨?_, (h.refused hfailed).2⟩⟩
    show s.passed.eraseIdx i = []
    rw [(h.refused hfailed).1]
    rfl
  | apply i f =>
    obtain ⟨w, hw, hs⟩ := Option.bind_eq_some_iff.mp hs
    obtain ⟨-, rfl⟩ := Option.ite_none_right_eq_some.mp hs |>.imp_right Option.some_inj.mp
    obtain ⟨hholding, hfail⟩ := carry_holding (f := f) h (hfresh i w hw) w.planned
    refine ⟨hholding, fun hfailed => ?_⟩
    obtain ⟨hhard, hbg⟩ := hfail hfailed
    exact ⟨hok w (by rw [hw]; exact List.mem_singleton_self w) hhard, hbg⟩
  | relocate i records f =>
    obtain ⟨hw, rfl⟩ := Option.ite_none_right_eq_some.mp hs |>.imp_right Option.some_inj.mp
    obtain ⟨hholding, hfail⟩ :=
      carry_holding (f := f) h (hfresh i _ hw) (relocatePlan_planned records)
    refine ⟨hholding, fun hfailed => ?_⟩
    obtain ⟨hhard, hbg⟩ := hfail hfailed
    obtain ⟨halone, hearly⟩ := hok hhard
    refine ⟨?_, hbg⟩
    show (if _ then s.passed.eraseIdx i else s.passed) = []
    rw [if_pos (relocate_error hearly)]
    exact halone
  | sync i fault =>
    obtain ⟨hw, rfl⟩ := Option.ite_none_right_eq_some.mp hs |>.imp_right Option.some_inj.mp
    have hnot := hfresh i _ hw
    cases fault with
    | none =>
      refine ⟨?_, fun hfailed => ?_⟩
      · show s.store.Holding crc s.acked s.flushed (s.failed || false)
        rw [Bool.or_false]
        exact h.holding
      · have hfailed : (s.failed || false) = true := hfailed
        rw [hnot] at hfailed
        exact absurd hfailed Bool.false_ne_true
    | some fault =>
      refine ⟨?_, fun _ => ⟨hok rfl, ?_⟩⟩
      · exact { h.holding with
          target := fun hfailed => absurd hfailed (by simp)
          below := fun hfailed => absurd hfailed (by simp) }
      · show (s.bgError <|> some fault.text).isSome
        cases s.bgError <;> rfl
  | forceRotate fault =>
    unfold step at hs
    simp only at hs
    split at hs
    · exact Option.some_inj.mp hs ▸ h
    · obtain rfl := Option.some_inj.mp hs
      have hr : WalStore.Rotation True fault s.store _ :=
        WalStore.memtableSteps_spec crc trivial fault s.store
      exact ⟨hr.holding h.holding, h.refused⟩
  | flush =>
    obtain ⟨d, hd, rfl⟩ := Option.map_eq_some_iff.mp hs
    exact ⟨h.holding.flush hd, h.refused⟩
  | degrade msg =>
    obtain rfl := Option.some_inj.mp hs
    refine ⟨h.holding, fun hfailed => ⟨(h.refused hfailed).1, ?_⟩⟩
    show (s.bgError <|> some msg).isSome
    cases s.bgError <;> rfl
  | background version snapshots defs pins ids =>
    obtain rfl := Option.some_inj.mp hs
    exact ⟨h.holding.of_same ⟨rfl, rfl, rfl, rfl, rfl, rfl, Nat.le_add_right _ _⟩ rfl, h.refused⟩

theorem opened_guarded (h : db.Opened) : (opened db).Guarded crc := by
  have hclean := opened_clean crc h
  have hwals : (opened db).store.wals = [db.wal] := by
    show db.sealedWals ++ [db.wal] = _
    rw [h.sealedWals]
    rfl
  have hempty : (opened db).store.wals.flatMap Wal.records = [] := by
    rw [hwals, List.flatMap_cons, h.records]
    rfl
  refine ⟨⟨hclean.tidy, fun id f hf => Or.inl (hclean.known id f hf), fun w hw => ?_, hclean.target,
    hclean.fits, by rw [hempty]; exact List.Pairwise.nil, fun _ r hr => ?_, fun e he => ?_,
    fun r hr => absurd hr List.not_mem_nil⟩,
    fun hfailed => absurd hfailed Bool.false_ne_true⟩
  · rw [hwals] at hw
    rw [List.mem_singleton.mp hw]
    obtain ⟨f, hf, hholds⟩ := hclean.target rfl
    exact ⟨f, [], hf, Or.inl rfl, by rw [List.append_nil]; exact hholds.1⟩
  · rw [hempty] at hr
    exact absurd hr List.not_mem_nil
  · have he : e ∈ db.mem.map := he
    rw [h.mem] at he
    exact absurd he List.not_mem_nil

end WritePath

/-- **A degraded store acknowledges nothing**: after a run in which no other
writer is past its check when an append or sync of the write path fails, no step
acknowledges a batch once one has failed; every acknowledged batch is flushed or
among the records that a reopen replays (`recs`, file by file), and all of those
have different seqnos. -/
theorem degraded_refuses (hdb : db.Opened)
    (h : (writePath crc opts db).Reaches (WritePath.Alone opts) s) :
    (s.failed = true → ∀ a s', (writePath crc opts db).step s a = some s' → s'.acked = s.acked) ∧
      ∃ recs : ℕ → List (ℕ × List EncEntry),
        (∀ id f, s.store.files id = some f → (readWal crc f.bytes).1 =
          (recs id).map WalStore.payload) ∧
        (∀ r ∈ s.acked, (∀ e ∈ versionsFrom r.1 r.2, e ∈ s.flushed) ∨
          ∃ id, s.store.db.manifest.walFloor ≤ id ∧ (s.store.files id).isSome ∧ r ∈ recs id) ∧
        (∀ id, (recs id).Pairwise Apart) ∧
        ∀ id id', id ≠ id' → ∀ r ∈ recs id, ∀ r' ∈ recs id', Apart r r' := by
  have hguard : s.Guarded crc :=
    h.invariant (WritePath.opened_guarded hdb) fun hi hok hs => WritePath.step_guarded hi hok hs
  refine ⟨fun hfailed a s' hs => ?_, ?_⟩
  · -- nobody is past the check, so no apply is under way
    have hnobody : ∀ i : ℕ, s.passed[i]? = none := by
      rw [(hguard.refused hfailed).1]
      exact fun i => rfl
    have hs : s.step crc opts a = some s' := hs
    cases a with
    | apply i f =>
      simp only [WritePath.step, hnobody i] at hs
      exact absurd hs (by simp)
    | relocate i records f =>
      simp only [WritePath.step, hnobody i] at hs
      exact absurd hs (by simp)
    | sync i fault =>
      simp only [WritePath.step, hnobody i] at hs
      exact absurd hs (by simp)
    | check w =>
      obtain ⟨-, rfl⟩ := Option.ite_none_right_eq_some.mp hs |>.imp_right Option.some_inj.mp
      rfl
    | leave i =>
      obtain ⟨-, rfl⟩ := Option.ite_none_right_eq_some.mp hs |>.imp_right Option.some_inj.mp
      rfl
    | forceRotate fault =>
      unfold WritePath.step at hs
      simp only at hs
      split at hs <;> (obtain rfl := Option.some_inj.mp hs; rfl)
    | flush =>
      obtain ⟨d, -, rfl⟩ := Option.map_eq_some_iff.mp hs
      rfl
    | degrade msg | background version snapshots defs pins ids =>
      obtain rfl := Option.some_inj.mp hs
      rfl
  · have hholding := hguard.holding
    have hunique : ∀ w ∈ s.store.wals, ∀ w' ∈ s.store.wals, w.id = w'.id → w = w' :=
      fun w hw w' hw' =>
      eq_of_pairwise_lt hholding.tidy.rising hw hw'
    obtain ⟨hinside, hacross⟩ := List.pairwise_flatMap.mp hholding.rising
    -- the records of a file are those of the WAL it belongs to
    set recs : ℕ → List (ℕ × List EncEntry) := fun id =>
      (s.store.wals.find? fun w => decide (w.id = id)).elim [] Wal.records with hrecs
    have hof : ∀ w ∈ s.store.wals, recs w.id = w.records := by
      intro w hw
      simp only [hrecs]
      cases hfind : s.store.wals.find? fun w' => decide (w'.id = w.id) with
      | none => exact absurd (List.find?_eq_none.mp hfind w hw) (by simp)
      | some w' =>
        have hid : w'.id = w.id := by simpa using List.find?_some hfind
        rw [hunique w' (List.mem_of_find?_eq_some hfind) w hw hid]
        rfl
    have hmem : ∀ id, ∀ r ∈ recs id, ∃ w ∈ s.store.wals, w.id = id ∧ r ∈ w.records := by
      intro id r hr
      simp only [hrecs] at hr
      cases hfind : s.store.wals.find? fun w' => decide (w'.id = id) with
      | none =>
        rw [hfind] at hr
        exact absurd hr List.not_mem_nil
      | some w' =>
        rw [hfind] at hr
        exact ⟨w', List.mem_of_find?_eq_some hfind, by simpa using List.find?_some hfind, hr⟩
    have hnone : ∀ id, (¬ ∃ w ∈ s.store.wals, w.id = id) → recs id = [] := fun id hw =>
      List.eq_nil_iff_forall_not_mem.mpr fun r hr => by
        obtain ⟨w, hwmem, hid, -⟩ := hmem id r hr
        exact hw ⟨w, hwmem, hid⟩
    refine ⟨recs, fun id f hf => ?_, fun r hr => ?_, fun id => ?_, fun id id' hne r hr r' hr' => ?_⟩
    · by_cases hw : ∃ w ∈ s.store.wals, w.id = id
      · obtain ⟨w, hw, rfl⟩ := hw
        obtain ⟨f', rest, hf', hrest, hbytes⟩ := hholding.stores w hw
        have hread := readWal_frames (WalStore.payloads_fit (hholding.fits w hw)) hrest.stops
        rw [hof w hw, Option.some_inj.mp (hf.symm.trans hf'), hbytes, hread]
      · -- a file no WAL of the store is in: nothing was written to it
        have hbytes := (hholding.known id f hf).resolve_left hw
        rw [hnone id hw, hbytes]
        rfl
    · refine (hholding.acked r hr).imp_right fun ⟨_, _, w, hw, _, hmemr, _⟩ => ?_
      obtain ⟨f, -, hf, -⟩ := hholding.stores w hw
      exact ⟨w.id, hholding.tidy.floor_le w hw, by rw [hf]; rfl, by rw [hof w hw]; exact hmemr⟩
    · by_cases hw : ∃ w ∈ s.store.wals, w.id = id
      · obtain ⟨w, hw, rfl⟩ := hw
        rw [hof w hw]
        exact (hinside w hw).imp Or.inl
      · rw [hnone id hw]
        exact List.Pairwise.nil
    · obtain ⟨w, hw, hid, hr⟩ := hmem id r hr
      obtain ⟨w', hw', hid', hr'⟩ := hmem id' r' hr'
      -- seqnos rise from WAL to WAL, so records of two of them are apart
      let R : Wal → Wal → Prop := fun w w' => ∀ r ∈ w.records, ∀ r' ∈ w'.records, Apart r r'
      have : Std.Symm R := ⟨fun w w' hR r' hr' r hr => (hR r hr r' hr').symm⟩
      have hR : s.store.wals.Pairwise R :=
        hacross.imp fun hlt r hr r' hr' => Or.inl (hlt r hr r' hr')
      refine hR.forall hw hw' (fun heq => hne ?_) r hr r' hr'
      rw [← hid, ← hid', heq]

/-! ### Concrete runs -/

/-- A write, and one whose WAL append fails. -/
def thenTorn : List PathAction :=
  [.check (.direct (smallWrite 1 1)), .apply 0 .none, .check (.direct (smallWrite 2 2)),
    .apply 0 tornFault]

theorem degraded_refuses_of_torn : ∃ s,
    (writePath crc32 relaxedOptions (Db.init relaxedOptions)).Reaches
      (WritePath.Alone relaxedOptions) s ∧ s.failed = true ∧ s.acked.length = 1 ∧
      ∀ a s', (writePath crc32 relaxedOptions (Db.init relaxedOptions)).step s a = some s' →
        s'.acked = s.acked := by
  have hrun : ((writePath crc32 relaxedOptions (Db.init relaxedOptions)).replay
      (WritePath.Alone relaxedOptions) thenTorn (WritePath.opened (Db.init relaxedOptions))).any
        (fun s => decide (s.failed = true ∧ s.acked.length = 1)) = true := by decide +kernel
  obtain ⟨s, hreach, hfailed, hlength⟩ := System.exists_reaches hrun
  exact ⟨s, hreach, hfailed, hlength, (degraded_refuses (opened_init _) hreach).1 hfailed⟩

/-- Two writers pass their checks; the WAL append of the first fails. -/
def twoPassed : List PathAction :=
  [.check (.direct (smallWrite 1 1)), .check (.direct (smallWrite 2 2)), .apply 0 tornFault]

/-- **The second writer is acknowledged** by the degraded store. -/
theorem degraded_acks : ∃ s,
    (writePath crc32 relaxedOptions (Db.init relaxedOptions)).Reachable s ∧ s.failed = true ∧
    s.acked = [] ∧
      ∃ s', (writePath crc32 relaxedOptions (Db.init relaxedOptions)).step s
        (.apply 0 .none) = some s' ∧ s'.acked ≠ [] := by
  have hrun : ((writePath crc32 relaxedOptions (Db.init relaxedOptions)).run twoPassed
      (WritePath.opened (Db.init relaxedOptions))).any
        (fun s => decide (s.failed = true ∧ s.acked = [] ∧
        ∃ s' ∈ (s.step crc32 relaxedOptions (.apply 0 .none)).toList, s'.acked ≠ [])) = true := by
    decide +kernel
  obtain ⟨s, hreach, hfailed, hnone, s', hs', hacked⟩ := System.exists_reachable hrun
  exact ⟨s, hreach, hfailed, hnone, s', Option.mem_toList.mp hs', hacked⟩

/-- Every value goes to the value log, which gets a new head after every write. -/
def vlogOptions : Options :=
  { Options.default plainFormat with valueThreshold := 1, vlogFileSize := 1 }

/-- The committer and the collector pass their checks; the WAL sync of the
committer's chunk fails, and the collector relocates a value. -/
def chunkThenRelocate : List PathAction :=
  [.check (.chunk [smallWrite 1 1]), .apply 0 .none, .check .collector,
    .check (.chunk [smallWrite 2 2]), .apply 1 { Faults.none with syncWal := some "device" },
    .relocate 0 [⟨⟨1, 0, Vlog.recordLen [byte 1] [byte 1]⟩, [byte 1], [byte 1]⟩] .none]

/-- The base seqno a payload starts with. -/
def payloadBase (p : Bytes) : ℕ := readLe (p.take 8)

/-- **Two records with one base seqno**, the second of them acknowledged. -/
theorem records_overlap : ∃ s, (writePath crc32 vlogOptions (Db.init vlogOptions)).Reachable s ∧
    s.failed = true ∧ s.acked.map Prod.fst = [1, 2] ∧
      (s.store.files s.store.db.wal.id).map (fun f => (readWal crc32 f.bytes).1.map payloadBase) =
        some [1, 2, 2] := by
  have hrun : ((writePath crc32 vlogOptions (Db.init vlogOptions)).run chunkThenRelocate
      (WritePath.opened (Db.init vlogOptions))).any (fun s => decide (s.failed = true ∧
        s.acked.map Prod.fst = [1, 2] ∧ (s.store.files s.store.db.wal.id).map (fun f =>
          (readWal crc32 f.bytes).1.map payloadBase) = some [1, 2, 2])) = true := by
    decide +kernel
  exact System.exists_reachable hrun

end Fluent31
