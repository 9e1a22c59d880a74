/-
The WALs of a running store (`db.rs`, `wal.rs`).

`Careful` are the steps that seal no WAL with a failed append, and of which no
rotation fails behind the WAL file it has made.

* `WalStore.Clean` — the sealed WALs are whole, and none is newer than the append
  target;
* `WritePath.step_clean` — careful steps keep that.
-/
import Fluent31.WriteEffect

namespace Fluent31

variable {crc : Bytes → Fin (2 ^ 32)} {opts : Options} {db : Db} {s s' : WritePath}

/-! ### The invariant -/

theorem payload_pos (r : ℕ × List EncEntry) : 0 < (WalStore.payload r).length := by
  unfold WalStore.payload encodeBatch putU64
  rw [List.length_append, length_putLe]
  omega

namespace WalStore

theorem payloads_fit {rs : List (ℕ × List EncEntry)}
    (h : ∀ r ∈ rs, (payload r).length < WAL_RECORD_LIMIT) :
    ∀ p ∈ rs.map payload, 0 < p.length ∧ p.length < WAL_RECORD_LIMIT := by
  intro p hp
  obtain ⟨r, hr, rfl⟩ := List.mem_map.mp hp
  exact ⟨payload_pos r, h r hr⟩

/-- The WAL files on disk are those of the store; the sealed ones are clean, and
so is the append target unless an append to it failed. -/
structure Clean (crc : Bytes → Fin (2 ^ 32)) (d : WalStore) (torn : Bool) : Prop where
  tidy : d.Tidy
  known : ∀ id f, d.files id = some f → ∃ w ∈ d.wals, w.id = id
  sealedWals : ∀ w ∈ d.db.sealedWals, ∃ f, d.files w.id = some f ∧
    f.Holds crc (w.records.map payload)
  target : torn = false → ∃ f, d.files d.db.wal.id = some f ∧
    f.Holds crc (d.db.wal.records.map payload)
  fits : ∀ w ∈ d.wals, ∀ r ∈ w.records, (payload r).length < WAL_RECORD_LIMIT

variable {d d' : WalStore} {torn : Bool}

theorem Clean.of_same (h : d.Clean crc torn) (hs : d.db.SameWal d'.db)
    (hfiles : d'.files = d.files) :
    d'.Clean crc torn := by
  have hwals : d'.wals = d.wals := by rw [wals, hs.wal, hs.sealedWals]; rfl
  exact ⟨h.tidy.of_same hs hfiles, by rw [hfiles, hwals]; exact h.known,
    by rw [hfiles, hs.sealedWals]; exact h.sealedWals, by rw [hfiles, hs.wal]; exact h.target,
    by rw [hwals]; exact h.fits⟩

theorem Written.clean {written appended : List (ℕ × List EncEntry)}
    {lost : Option (ℕ × List EncEntry × ℕ)}
    (hw : Written crc d d' written appended lost) (h : d.Clean crc torn)
    (hfits : ∀ r ∈ written, (payload r).length < WAL_RECORD_LIMIT) :
    d'.Clean crc (torn || lost.isSome) := by
  have hid : d'.db.wal.id = d.db.wal.id := by rw [hw.wal]
  have hmem : ∀ w ∈ d'.wals, w ∈ d.db.sealedWals ∨ w = d'.db.wal := fun w hw' => by
    rw [← hw.sealedWals]
    exact mem_wals.mp hw'
  refine ⟨hw.tidy h.tidy, fun id f hf => ?_, fun w hsealed => ?_,
    fun htorn => ?_, fun w hw' r hr => ?_⟩
  · rw [hw.files] at hf
    by_cases heq : id = d.db.wal.id
    · exact ⟨d'.db.wal, mem_wals.mpr (Or.inr rfl), hid.trans heq.symm⟩
    · rw [write, Function.update_of_ne heq] at hf
      obtain ⟨w, hmemw, hwid⟩ := h.known id f hf
      rcases mem_wals.mp hmemw with hsealed | rfl
      · exact ⟨w, mem_wals.mpr (Or.inl (hw.sealedWals ▸ hsealed)), hwid⟩
      · exact absurd hwid.symm heq
  · rw [hw.sealedWals] at hsealed
    obtain ⟨f, hf, hholds⟩ := h.sealedWals w hsealed
    refine ⟨f, ?_, hholds⟩
    rw [hw.files, write, Function.update_of_ne (ne_of_lt (h.tidy.sealed_lt hsealed))]
    exact hf
  · -- without a torn append the target holds its records
    obtain ⟨htorn, hlost⟩ := Bool.or_eq_false_iff.mp htorn
    obtain ⟨f, hf, hholds⟩ := h.target htorn
    have hnone : lost = none := Option.isSome_eq_false_iff.mp hlost |> Option.isNone_iff_eq_none.mp
    refine ⟨(written.map payload).foldl (WalFile.append crc) f, ?_, ?_⟩
    · rw [hw.files, hid, write, Function.update_self, hf, hnone]
      rfl
    · rw [hw.wal, List.map_append]
      exact hholds.appendAll _
  · rcases hmem w hw' with hsealed | rfl
    · exact h.fits w (mem_wals.mpr (Or.inl hsealed)) r hr
    · rw [hw.wal] at hr
      rcases List.mem_append.mp hr with hr | hr
      · exact h.fits d.db.wal (mem_wals.mpr (Or.inr rfl)) r hr
      · exact hfits r hr

/-- A rotation that seals a clean WAL, and does not fail behind the new file. -/
theorem Rotation.clean {full : Prop} {fault : Option (RotateOp × String)}
    (hr : Rotation full fault d d') (h : d.Clean crc torn) (hclean : full → torn = false)
    (hsync : full → (fault.any fun p => p.1.orphans) = false) : d'.Clean crc torn := by
  have htidy := hr.tidy h.tidy
  cases hr with
  | quiet hs hf => exact h.of_same hs hf
  | orphan hfull hfault _ _ _ => exact absurd (hfault.symm.trans (hsync hfull)) (by decide)
  | frozen hfull hs hf =>
    have hwals : d'.wals = d.wals ++ [⟨d.db.nextFileId, []⟩] := by
      unfold wals
      rw [hs.wal, hs.sealedWals]
      rfl
    -- the new WAL is empty, under a fresh id
    have hfresh : ∀ w ∈ d.wals, w.id ≠ d.db.nextFileId := by
      intro w hw
      have hle : w.id ≤ d.db.wal.id := by
        rcases mem_wals.mp hw with hw | rfl
        · exact le_of_lt (h.tidy.sealed_lt hw)
        · exact le_rfl
      have := h.tidy.wal_lt
      omega
    refine ⟨htidy, fun id f hfile => ?_, fun w hw => ?_, fun _ => ?_, fun w hw r hr => ?_⟩
    · rw [hwals]
      by_cases heq : id = d.db.nextFileId
      · exact ⟨_, List.mem_append_right _ (List.mem_singleton_self _), heq.symm⟩
      · rw [hf, Function.update_of_ne heq] at hfile
        obtain ⟨w, hw, hid⟩ := h.known id f hfile
        exact ⟨w, List.mem_append_left _ hw, hid⟩
    · rw [hs.sealedWals] at hw
      rw [hf, Function.update_of_ne (hfresh w hw)]
      rcases mem_wals.mp hw with hw | rfl
      · exact h.sealedWals w hw
      · exact h.target (hclean hfull)
    · rw [hf, hs.wal]
      exact ⟨⟨[], 0⟩, Function.update_self .., rfl, rfl⟩
    · rw [hwals] at hw
      rcases List.mem_append.mp hw with hw | hw
      · exact h.fits w hw r hr
      · rw [List.mem_singleton.mp hw] at hr
        exact absurd hr List.not_mem_nil

theorem clean_flush (h : d.Clean crc torn) (hf : d.flush opts = some d') : d'.Clean crc torn := by
  have htidy := tidy_flush h.tidy hf
  have hkept : ∀ (files : ℕ → Option WalFile) (floor : ℕ) (w : Wal),
      floor ≤ w.id → (if w.id < floor then none else files w.id) = files w.id :=
    fun files floor w hle => if_neg (by omega)
  rcases flush_spec hf with ⟨-, hdb, hfiles⟩ | ⟨imm, -, hfl⟩
  · -- nothing to flush: only orphans go
    have hwals : d'.wals = d.wals := by rw [wals, hdb]; rfl
    have hfloor : ∀ w ∈ d.wals, d'.files w.id = d.files w.id := fun w hw => by
      rw [hfiles]
      exact hkept _ _ w (h.tidy.floor_le w hw)
    refine ⟨htidy, fun id f hfile => ?_, fun w hw => ?_,
      fun htorn => ?_, by rw [hwals]; exact h.fits⟩
    · rw [hfiles] at hfile
      simp only at hfile
      split at hfile
      · exact absurd hfile (by simp)
      · rw [hwals]
        exact h.known id f hfile
    · rw [hdb] at hw
      rw [hfloor w (mem_wals.mpr (Or.inl hw))]
      exact h.sealedWals w hw
    · rw [hdb, hfloor d.db.wal (mem_wals.mpr (Or.inr rfl))]
      exact h.target htorn
  · -- the WALs below the new floor go, and their files with them
    have hmem : ∀ w, w ∈ d'.wals ↔ w ∈ d.wals ∧ d'.db.manifest.walFloor ≤ w.id := by
      intro w
      constructor
      · intro hw
        refine ⟨?_, htidy.floor_le w hw⟩
        rcases mem_wals.mp hw with hw | rfl
        · rw [hfl.sealedWals] at hw
          exact mem_wals.mpr (Or.inl (List.mem_filter.mp hw).1)
        · exact mem_wals.mpr (Or.inr hfl.wal)
      · rintro ⟨hw, hle⟩
        rcases mem_wals.mp hw with hw | rfl
        · refine mem_wals.mpr (Or.inl ?_)
          rw [hfl.sealedWals]
          exact List.mem_filter.mpr ⟨hw, decide_eq_true hle⟩
        · exact mem_wals.mpr (Or.inr hfl.wal.symm)
    have hfile : ∀ w ∈ d'.wals, d'.files w.id = d.files w.id := fun w hw => by
      rw [hfl.files]
      exact hkept _ _ w (htidy.floor_le w hw)
    refine ⟨htidy, fun id f hid => ?_, fun w hw => ?_, fun htorn => ?_, fun w hw =>
      h.fits w ((hmem w).mp hw).1⟩
    · rw [hfl.files] at hid
      simp only at hid
      split at hid
      · exact absurd hid (by simp)
      · rename_i hle
        obtain ⟨w, hw, rfl⟩ := h.known id f hid
        exact ⟨w, (hmem w).mpr ⟨hw, not_lt.mp hle⟩, rfl⟩
    · rw [hfile w (mem_wals.mpr (Or.inl hw))]
      rw [hfl.sealedWals] at hw
      exact h.sealedWals w (List.mem_filter.mp hw).1
    · have htarget := hfile d'.db.wal (mem_wals.mpr (Or.inr rfl))
      rw [htarget, hfl.wal]
      exact h.target htorn

end WalStore

/-! ### Runs -/

namespace WritePath

/-- The batch takes the memtable to `memtable_size`. -/
def Fills (opts : Options) (s : WritePath) (p : Plan) : Prop :=
  opts.memtableSize ≤ (s.store.db.mem.insertAll (batchVersions p.appended)).approximateBytes

/-- Once a WAL append has failed, and when a rotation fails behind its new WAL
file, there is nothing to rotate. -/
def Careful (opts : Options) (s : WritePath) : PathAction → Prop
  | .apply i f => ∀ w ∈ (s.passed[i]?).toList,
    s.torn = true ∨ (f.rotate.any fun p => p.1.orphans) = true →
    ¬ s.Fills opts (w.plan opts s.store.db f)
  | .relocate _ records f =>
    s.torn = true ∨ (f.rotate.any fun p => p.1.orphans) = true →
      ¬ s.Fills opts (s.store.db.relocatePlan opts records f)
  | .forceRotate fault =>
    s.torn = true ∨ (fault.any fun p => p.1.orphans) = true → s.store.db.mem.isEmpty = true
  | _ => True

instance (s : WritePath) (p : Plan) : Decidable (s.Fills opts p) := by unfold Fills; infer_instance

instance (s : WritePath) (a : PathAction) : Decidable (s.Careful opts a) :=
  match a with
  | .apply _ _ => inferInstanceAs (Decidable (∀ w ∈ _, _ → _))
  | .relocate _ _ _ => inferInstanceAs (Decidable (_ → _))
  | .forceRotate _ => inferInstanceAs (Decidable (_ → _))
  | .check _ | .leave _ | .sync _ _ | .flush | .degrade _ | .background .. => .isTrue trivial

theorem carry_clean {plan : Faults → Plan} {f : Faults} (h : s.store.Clean crc s.torn)
    (hplan : Planned opts s.store.db plan)
    (hok : s.torn = true ∨ (f.rotate.any fun p => p.1.orphans) = true → ¬ s.Fills opts (plan f)) :
    (s.carry crc plan f).store.Clean crc (s.carry crc plan f).torn := by
  obtain ⟨written, lost, pre, mid, rot, hshape, -⟩ := hplan.shape f
  obtain ⟨d₁, hw, hr⟩ := s.store.apply_spec crc hshape
  have hfull : opts.memtableSize ≤ d₁.db.mem.approximateBytes → s.Fills opts (plan f) := by
    rw [hw.mem]
    exact id
  have hclean := hr.clean (hw.clean h hshape.fits)
    (fun ⟨hlost, hsize⟩ => by
      rw [hlost]
      cases htorn : s.torn with
      | true => exact absurd (hfull hsize) (hok (Or.inl htorn))
      | false => rfl)
    fun ⟨_, hsize⟩ => Bool.eq_false_iff.mpr fun hsync => hok (Or.inr hsync) (hfull hsize)
  refine { hclean with target := fun htorn => hclean.target ?_ }
  obtain ⟨htorn, hsteps⟩ := Bool.or_eq_false_iff.mp htorn
  refine Bool.or_eq_false_iff.mpr ⟨htorn, ?_⟩
  cases hlost : lost with
  | none => rfl
  | some r =>
    have hmem : WriteStep.torn r.1 r.2.1 r.2.2 ∈ (plan f).steps := by
      rw [hshape.steps, hlost]
      simp
    exact absurd rfl (List.any_eq_false.mp hsteps _ hmem)

theorem step_clean {a : PathAction} (h : s.store.Clean crc s.torn) (hok : s.Careful opts a)
    (hs : s.step crc opts a = some s') : s'.store.Clean crc s'.torn := by
  cases a with
  | check w =>
    obtain ⟨-, rfl⟩ := Option.ite_none_right_eq_some.mp hs |>.imp_right Option.some_inj.mp
    exact h
  | leave i =>
    obtain ⟨-, rfl⟩ := Option.ite_none_right_eq_some.mp hs |>.imp_right Option.some_inj.mp
    exact h
  | apply i f =>
    obtain ⟨w, hw, hs⟩ := Option.bind_eq_some_iff.mp hs
    obtain ⟨-, rfl⟩ := Option.ite_none_right_eq_some.mp hs |>.imp_right Option.some_inj.mp
    exact carry_clean h w.planned (hok w (by rw [hw]; exact List.mem_singleton_self w))
  | relocate i records f =>
    obtain ⟨-, rfl⟩ := Option.ite_none_right_eq_some.mp hs |>.imp_right Option.some_inj.mp
    exact carry_clean h (relocatePlan_planned records) hok
  | sync i fault =>
    obtain ⟨-, rfl⟩ := Option.ite_none_right_eq_some.mp hs |>.imp_right Option.some_inj.mp
    exact h
  | forceRotate fault =>
    unfold step at hs
    simp only at hs
    split at hs
    · exact Option.some_inj.mp hs ▸ h
    · rename_i hne
      obtain rfl := Option.some_inj.mp hs
      have hr : WalStore.Rotation True fault s.store _ :=
        WalStore.memtableSteps_spec crc trivial fault s.store
      -- a careful rotation seals a WAL that is whole, or does nothing
      refine hr.clean h (fun _ => ?_)
        fun _ => Bool.eq_false_iff.mpr fun hsync => hne (hok (Or.inr hsync))
      cases htorn : s.torn with
      | true => exact absurd (hok (Or.inl htorn)) hne
      | false => rfl
  | flush =>
    obtain ⟨d, hd, rfl⟩ := Option.map_eq_some_iff.mp hs
    exact WalStore.clean_flush h hd
  | degrade msg =>
    obtain rfl := Option.some_inj.mp hs
    exact h
  | background version snapshots defs pins ids =>
    obtain rfl := Option.some_inj.mp hs
    exact h.of_same ⟨rfl, rfl, rfl, rfl, rfl, rfl, Nat.le_add_right _ _⟩ rfl

variable (crc) in
theorem opened_clean (h : db.Opened) : (opened db).store.Clean crc false := by
  have hfile : (opened db).store.files db.wal.id = some ⟨[], 0⟩ := by
    simp only [opened, Function.update_self]
  refine ⟨opened_tidy h, fun id f hf => ⟨db.wal, WalStore.mem_wals.mpr (Or.inr rfl), ?_⟩,
    fun w hw => ?_, fun _ => ?_, fun w hw r hr => ?_⟩
  · by_contra hne
    have hf : Function.update (fun _ => none) db.wal.id (some (⟨[], 0⟩ : WalFile)) id = some f := hf
    rw [Function.update_of_ne (Ne.symm hne)] at hf
    exact absurd hf (by simp)
  · have hw : w ∈ db.sealedWals := hw
    rw [h.sealedWals] at hw
    exact absurd hw List.not_mem_nil
  · refine ⟨_, hfile, ?_⟩
    show WalFile.Holds crc ⟨[], 0⟩ (db.wal.records.map WalStore.payload)
    rw [h.records]
    exact ⟨rfl, rfl⟩
  · have hw : w ∈ db.sealedWals ++ [db.wal] := hw
    rw [h.sealedWals] at hw
    rw [List.mem_singleton.mp hw, h.records] at hr
    exact absurd hr List.not_mem_nil

end WritePath

/-- A file that holds its records ends on a record boundary. -/
theorem WalFile.Holds.clean {f : WalFile} {rs : List (ℕ × List EncEntry)}
    (h : f.Holds crc (rs.map WalStore.payload))
    (hfits : ∀ r ∈ rs, (WalStore.payload r).length < WAL_RECORD_LIMIT) :
    (readWal crc f.bytes).2 = .clean := by
  have hread := readWal_frames (WalStore.payloads_fit hfits) (Stops.nil crc)
  rw [List.append_nil, ← h.1] at hread
  rw [hread]
  rfl

/-! ### Concrete runs -/

def smallWrite (k v : ℕ) : QueuedEntry := ⟨[.put [byte k] [byte v]], none, true⟩

def relaxedOptions : Options := { Options.default plainFormat with sync := .never }

/-- The third byte of the WAL append is the last that is written. -/
def tornFault : Faults := { Faults.none with record := some (0, 3, "device") }

end Fluent31
