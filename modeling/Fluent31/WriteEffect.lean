/-
What applies, rotations and flushes do to the WAL files.

`Written` is the effect of an apply before its rotation, `Rotation` what a
rotation does, whether it succeeds or not.  `Tidy` collects what all of them
keep: every memtable has a WAL file at or above the floor, the ids rise, and the
append target has the largest.

* `apply_spec` — an apply writes its records, then maybe rotates;
* `memtableSteps_spec` — a forced rotation;
* `Written.tidy`, `Rotation.tidy`, `tidy_flush` — `Tidy` is kept.
-/
import Fluent31.WritePath
import Fluent31.Reopen

namespace Fluent31

variable {crc : Bytes → Fin (2 ^ 32)} {opts : Options} {db : Db}

/-- Nothing about WALs, memtables and seqnos changed. -/
structure Db.SameWal (db db' : Db) : Prop where
  wal : db'.wal = db.wal
  sealedWals : db'.sealedWals = db.sealedWals
  mem : db'.mem = db.mem
  imms : db'.imms = db.imms
  visible : db'.visibleSeqno = db.visibleSeqno
  floor : db'.manifest.walFloor = db.manifest.walFloor
  next_le : db.nextFileId ≤ db'.nextFileId

theorem Db.SameWal.trans {db' db'' : Db} (h : db.SameWal db') (h' : db'.SameWal db'') :
    db.SameWal db'' :=
  ⟨h'.wal.trans h.wal, h'.sealedWals.trans h.sealedWals, h'.mem.trans h.mem, h'.imms.trans h.imms,
    h'.visible.trans h.visible, h'.floor.trans h.floor, le_trans h.next_le h'.next_le⟩

namespace WalStore

variable {d d' : WalStore}

theorem performAll_append (steps steps' : List WriteStep) :
    d.performAll crc (steps ++ steps') = (d.performAll crc steps).performAll crc steps' :=
      List.foldl_append ..

@[simp] theorem performAll_db (steps : List WriteStep) :
    (d.performAll crc steps).db = d.db.performAll steps := by
  induction steps generalizing d with
  | nil => rfl
  | cons step steps ih => exact ih

theorem performAll_offWal {steps : List WriteStep} (h : ∀ s ∈ steps, s.offWal = true) :
    ∃ v, d.performAll crc steps = { d with db := { d.db with vlog := v } } := by
  induction steps generalizing d with
  | nil => exact ⟨d.db.vlog, rfl⟩
  | cons step steps ih =>
    have hstep : ∃ v, d.perform crc step = { d with db := { d.db with vlog := v } } := by
      have hoff := h step List.mem_cons_self
      cases step with
      | place key value => exact ⟨_, rfl⟩
      | syncVlog | syncWal => exact ⟨d.db.vlog, rfl⟩
      | _ => exact absurd hoff Bool.false_ne_true
    obtain ⟨v, hv⟩ := hstep
    obtain ⟨v', hv'⟩ := ih (d := d.perform crc step) fun s hs => h s (List.mem_cons_of_mem _ hs)
    refine ⟨v', ?_⟩
    show (d.perform crc step).performAll crc steps = _
    rw [hv', hv]

theorem write_write (f g : WalFile → WalFile) (db' : Db) (hwal : db'.wal.id = d.db.wal.id) :
    (⟨db', d.write f⟩ : WalStore).write g = d.write (g ∘ f) := by
  unfold write
  rw [hwal]
  simp only [Function.update_self, Function.update_idem, Option.map_map]

/-- The payload of a record. -/
def payload (r : ℕ × List EncEntry) : Bytes := encodeBatch r.1 r.2

theorem performAll_records (written : List (ℕ × List EncEntry)) :
    d.performAll crc (written.map fun r => .record r.1 r.2) =
      { db := { d.db with wal := { d.db.wal with records := d.db.wal.records ++ written } }
        files := d.write fun f => (written.map payload).foldl (WalFile.append crc) f } := by
  induction written generalizing d with
  | nil =>
    have hid : d.write (fun f => f) = d.files := by
      unfold write
      rw [Option.map_id', Function.update_eq_self]
    simp only [List.map_nil, List.foldl_nil, List.append_nil, hid]
    rfl
  | cons r written ih =>
    rw [List.map_cons]
    refine (ih (d := d.perform crc (.record r.1 r.2))).trans ?_
    have hfiles := write_write (d := d) (fun f => f.append crc (encodeBatch r.1 r.2))
      (fun f => (written.map payload).foldl (WalFile.append crc) f) (d.db.appendRecord r.1 r.2) rfl
    refine congrArg₂ WalStore.mk ?_ hfiles
    show ({ d.db with wal := _ } : Db) = _
    rw [show (d.perform crc (.record r.1 r.2)).db.wal.records = d.db.wal.records ++ [r] from rfl,
      List.append_assoc]
    rfl

theorem performAll_publish (appended : List (ℕ × List EncEntry)) :
    (d.performAll crc (Db.publishSteps appended)).files = d.files := by
  have hsteps : ∀ s ∈ Db.publishSteps appended, s.silent = false := by
    intro s hs
    unfold Db.publishSteps at hs
    rcases List.mem_append.mp hs with hs | hs
    · rcases List.mem_append.mp hs with hs | hs
      · obtain ⟨e, -, rfl⟩ := List.mem_map.mp hs
        rfl
      · obtain ⟨r, -, rfl⟩ := Option.map_eq_some_iff.mp (Option.mem_toList.mp hs)
        rfl
    · obtain ⟨r, -, rfl⟩ := List.mem_map.mp hs
      rfl
  generalize Db.publishSteps appended = steps at hsteps
  induction steps generalizing d with
  | nil => rfl
  | cons step steps ih =>
    refine (ih (d := d.perform crc step) fun s hs => hsteps s (List.mem_cons_of_mem _ hs)).trans ?_
    have hloud := hsteps step List.mem_cons_self
    cases step with
    | insert e => rfl
    | visible s => rfl
    | publish base entries => rfl
    | _ => exact absurd hloud (by simp [WriteStep.silent])

/-- The part of a record that a failed append leaves. -/
def tear (crc : Bytes → Fin (2 ^ 32)) (lost : Option (ℕ × List EncEntry × ℕ)) (f : WalFile) :
    WalFile :=
  lost.elim f fun r => f.appendTorn crc (payload (r.1, r.2.1)) r.2.2

/-- An apply before its rotation. -/
structure Written (crc : Bytes → Fin (2 ^ 32)) (d d' : WalStore)
    (written appended : List (ℕ × List EncEntry))
    (lost : Option (ℕ × List EncEntry × ℕ)) : Prop where
  wal : d'.db.wal = { d.db.wal with records := d.db.wal.records ++ written }
  sealedWals : d'.db.sealedWals = d.db.sealedWals
  mem : d'.db.mem = d.db.mem.insertAll (batchVersions appended)
  imms : d'.db.imms = d.db.imms
  visible : d'.db.visibleSeqno =
    (appended.getLast?.map fun r => r.1 + r.2.length - 1).getD d.db.visibleSeqno
  floor : d'.db.manifest.walFloor = d.db.manifest.walFloor
  next : d'.db.nextFileId = d.db.nextFileId
  files : d'.files = d.write fun f =>
    tear crc lost ((written.map payload).foldl (WalFile.append crc) f)

theorem write_id : d.write (fun f => f) = d.files := by
  unfold write
  rw [Option.map_id', Function.update_eq_self]

theorem foldl_publishStream (appended : List (ℕ × List EncEntry)) (db : Db) :
    ∃ p, appended.foldl (fun db r => db.publishStream r.1 r.2) db = { db with published := p } := by
  induction appended generalizing db with
  | nil => exact ⟨db.published, rfl⟩
  | cons r rest ih => exact ih _

theorem written_spec {pre mid : List WriteStep} {written appended : List (ℕ × List EncEntry)}
    {lost : Option (ℕ × List EncEntry × ℕ)} (hpre : ∀ s ∈ pre, s.offWal = true)
    (hmid : ∀ s ∈ mid, s.offWal = true) :
    Written crc d (d.performAll crc (pre ++ (written.map fun r => .record r.1 r.2) ++
      (lost.map fun r => WriteStep.torn r.1 r.2.1 r.2.2).toList ++ mid ++ Db.publishSteps appended))
      written appended lost := by
  -- stage by stage: what comes before the records, the records, the torn one, the sync,
  -- the publication
  set d₁ := d.performAll crc pre with hd₁
  obtain ⟨v₁, hv₁⟩ : ∃ v, d₁ = { d with db := { d.db with vlog := v } } := performAll_offWal hpre
  set d₂ := d₁.performAll crc (written.map fun r => .record r.1 r.2) with hd₂
  have hrecords : d₂ = _ := performAll_records written
  set d₃ := d₂.performAll crc (lost.map fun r => WriteStep.torn r.1 r.2.1 r.2.2).toList with hd₃
  have htorn : d₃ = ⟨d₂.db, d₂.write (tear crc lost)⟩ := by
    cases lost with
    | none => exact congrArg (WalStore.mk d₂.db) write_id.symm
    | some r => rfl
  set d₄ := d₃.performAll crc mid with hd₄
  obtain ⟨v₄, hv₄⟩ : ∃ v, d₄ = { d₃ with db := { d₃.db with vlog := v } } := performAll_offWal hmid
  have hall : d.performAll crc (pre ++ (written.map fun r => .record r.1 r.2) ++
      (lost.map fun r => WriteStep.torn r.1 r.2.1 r.2.2).toList ++ mid ++
        Db.publishSteps appended) = d₄.performAll crc (Db.publishSteps appended) := by
    rw [performAll_append, performAll_append, performAll_append, performAll_append]
  have hdb : (d₄.performAll crc (Db.publishSteps appended)).db =
      appended.foldl (fun db r => db.publishStream r.1 r.2)
        (appended.foldl (fun db r => db.insertEntries r.1 r.2) d₄.db) :=
    (performAll_db _).trans (Db.performAll_publishSteps d₄.db appended)
  obtain ⟨p, hp⟩ :=
    foldl_publishStream appended (appended.foldl (fun db r => db.insertEntries r.1 r.2) d₄.db)
  rw [hp, Db.foldl_insertEntries] at hdb
  have hdb₄ : d₄.db = { d.db with
      vlog := v₄
      wal := { d.db.wal with records := d.db.wal.records ++ written } } := by
    rw [hv₄, htorn, hrecords, hv₁]
  have hfiles₄ : d₄.files = d.write fun f =>
      tear crc lost ((written.map payload).foldl (WalFile.append crc) f) := by
    have hwritten :
        d₂ = ⟨d₂.db, d.write fun f => (written.map payload).foldl (WalFile.append crc) f⟩ := by
      rw [hrecords, hv₁]
      rfl
    have htear : d₂.write (tear crc lost) =
        d.write (tear crc lost ∘ fun f => (written.map payload).foldl (WalFile.append crc) f) := by
      rw [hwritten]
      exact write_write _ _ _ (by rw [hrecords, hv₁])
    rw [hv₄, htorn]
    exact htear
  rw [hall]
  refine ⟨?_, ?_, ?_, ?_, ?_, ?_, ?_, ?_⟩
  · rw [hdb, hdb₄]
  · rw [hdb, hdb₄]
  · rw [hdb, hdb₄]
    rfl
  · rw [hdb, hdb₄]
  · rw [hdb, hdb₄]
  · rw [hdb, hdb₄]
  · rw [hdb, hdb₄]
  · rw [performAll_publish, hfiles₄]

/-! ### Rotations -/

/-- What a rotation leaves, by what failed.  `full`: there was reason to seal the
WAL. -/
inductive Rotation (full : Prop) (fault : Option (RotateOp × String)) (d : WalStore) :
    WalStore → Prop
  | quiet {d' : WalStore} : d.db.SameWal d'.db → d'.files = d.files → Rotation full fault d d'
  /-- The new WAL file is there, the append target is the old one. -/
  | orphan {d' : WalStore} : full → (fault.any fun p => p.1.orphans) = true → d.db.SameWal d'.db →
      d.db.nextFileId < d'.db.nextFileId →
      d'.files = Function.update d.files d.db.nextFileId (some ⟨[], 0⟩) → Rotation full fault d d'
  | frozen {d' : WalStore} : full → d.db.rotateMemtableLocked.SameWal d'.db →
      d'.files = Function.update d.files d.db.nextFileId (some ⟨[], 0⟩) → Rotation full fault d d'

theorem Rotation.trans_quiet {full : Prop} {fault : Option (RotateOp × String)} {d'' : WalStore}
    (h : Rotation full fault d d') (hsame : d'.db.SameWal d''.db) (hfiles : d''.files = d'.files) :
    Rotation full fault d d'' := by
  cases h with
  | quiet hs hf => exact .quiet (hs.trans hsame) (hfiles.trans hf)
  | orphan hfull hfault hs hlt hf =>
    exact .orphan hfull hfault (hs.trans hsame) (lt_of_lt_of_le hlt hsame.next_le) (hfiles.trans hf)
  | frozen hfull hs hf => exact .frozen hfull (hs.trans hsame) (hfiles.trans hf)

variable (crc) in
theorem memtableSteps_spec {full : Prop} (hfull : full) (fault : Option (RotateOp × String))
    (d : WalStore) :
    Rotation full fault d (d.performAll crc (Db.memtableSteps d.db.nextFileId fault).1) := by
  unfold Db.memtableSteps
  split
  · exact .quiet ⟨rfl, rfl, rfl, rfl, rfl, rfl, le_rfl⟩ rfl
  · exact .quiet ⟨rfl, rfl, rfl, rfl, rfl, rfl, Nat.le_succ _⟩ rfl
  · exact .orphan hfull rfl ⟨rfl, rfl, rfl, rfl, rfl, rfl, Nat.le_succ _⟩ (Nat.lt_succ_self _) rfl
  · exact .orphan hfull rfl ⟨rfl, rfl, rfl, rfl, rfl, rfl, Nat.le_succ _⟩ (Nat.lt_succ_self _) rfl
  · exact .frozen hfull ⟨rfl, rfl, rfl, rfl, rfl, rfl, le_rfl⟩ rfl

theorem headSteps_spec (fault : Option (RotateOp × String)) (d : WalStore) :
    d.db.SameWal (d.performAll crc (Db.headSteps d.db.nextFileId fault).1).db ∧
      (d.performAll crc (Db.headSteps d.db.nextFileId fault).1).files = d.files := by
  unfold Db.headSteps
  split <;> exact ⟨⟨rfl, rfl, rfl, rfl, rfl, rfl, Nat.le_succ _⟩, rfl⟩

variable (crc) in
theorem rotateSteps_spec (opts : Options) (fault : Option (RotateOp × String)) (d : WalStore) :
    Rotation (opts.memtableSize ≤ d.db.mem.approximateBytes) fault d
      (d.performAll crc (d.db.rotateSteps opts fault).1) := by
  unfold Db.rotateSteps
  generalize hfirst : (if opts.memtableSize ≤ d.db.mem.approximateBytes then
    Db.memtableSteps d.db.nextFileId fault else ([], none)) = first
  have hrotated : Rotation (opts.memtableSize ≤ d.db.mem.approximateBytes) fault d
      (d.performAll crc first.1) := by
    rw [← hfirst]
    split
    · rename_i hfull
      exact memtableSteps_spec crc hfull fault d
    · exact .quiet ⟨rfl, rfl, rfl, rfl, rfl, rfl, le_rfl⟩ rfl
  simp only
  split
  · exact hrotated
  · rw [performAll_append]
    have hhead : ∀ d₁ : WalStore,
        d₁.db.SameWal (d₁.performAll crc (if opts.vlogFileSize ≤ d₁.db.vlog.written then
        Db.headSteps d₁.db.nextFileId fault else ([], none)).1).db ∧
        (d₁.performAll crc (if opts.vlogFileSize ≤ d₁.db.vlog.written then
          Db.headSteps d₁.db.nextFileId fault else ([], none)).1).files = d₁.files := by
      intro d₁
      split
      · exact headSteps_spec fault d₁
      · exact ⟨⟨rfl, rfl, rfl, rfl, rfl, rfl, le_rfl⟩, rfl⟩
    have hsecond := hhead (d.performAll crc first.1)
    rw [performAll_db] at hsecond
    refine hrotated.trans_quiet ?_ hsecond.2
    rw [performAll_db]
    exact hsecond.1

variable (crc d) in
/-- **An apply** writes its records, shows them, and maybe rotates. -/
theorem apply_spec {p : Plan} {rotate : Option (RotateOp × String)}
    {written : List (ℕ × List EncEntry)}
    {lost : Option (ℕ × List EncEntry × ℕ)} {pre mid rot : List WriteStep}
    (h : p.Shape opts d.db rotate written lost pre mid rot) :
    ∃ d₁, Written crc d d₁ written p.appended lost ∧
      Rotation (lost = none ∧ opts.memtableSize ≤ d₁.db.mem.approximateBytes) rotate d₁
        (d.performAll crc p.steps) := by
  obtain ⟨body, hbody⟩ : ∃ body, body = pre ++ (written.map fun r => .record r.1 r.2) ++
    (lost.map fun r => WriteStep.torn r.1 r.2.1 r.2.2).toList ++ mid ++
      Db.publishSteps p.appended := ⟨_, rfl⟩
  have hsteps : p.steps = body ++ rot := by rw [hbody]; exact h.steps
  have hwritten : Written crc d (d.performAll crc body) written p.appended lost := by
    rw [hbody]
    exact written_spec h.pre_off h.mid_off
  refine ⟨_, hwritten, ?_⟩
  rw [hsteps, performAll_append]
  rcases h.rotates with hnil | ⟨hlost, happ, hrot⟩
  · rw [hnil]
    exact .quiet ⟨rfl, rfl, rfl, rfl, rfl, rfl, le_rfl⟩ rfl
  · have hrot' : rot = ((d.performAll crc body).db.rotateSteps opts rotate).1 := by
      rw [performAll_db, hbody, hlost, hrot]
      simp
    rw [hrot']
    cases rotateSteps_spec crc opts rotate (d.performAll crc body) with
    | quiet hs hf => exact .quiet hs hf
    | orphan hfull hfault hs hlt hf => exact .orphan ⟨hlost, hfull⟩ hfault hs hlt hf
    | frozen hfull hs hf => exact .frozen ⟨hlost, hfull⟩ hs hf

/-! ### Flushes -/

structure Flushed (d d' : WalStore) (imm : Memtable) : Prop where
  wal : d'.db.wal = d.db.wal
  sealedWals : d'.db.sealedWals = d.db.sealedWals.filter fun w =>
    decide (d'.db.manifest.walFloor ≤ w.id)
  mem : d'.db.mem = d.db.mem
  imms : d'.db.imms = d.db.imms.dropLast
  visible : d'.db.visibleSeqno = d.db.visibleSeqno
  floor : d'.db.manifest.walFloor = max d.db.manifest.walFloor (imm.walId + 1)
  next_le : d.db.nextFileId ≤ d'.db.nextFileId
  files : d'.files = fun id => if id < d'.db.manifest.walFloor then none else d.files id

theorem flush_spec (h : d.flush opts = some d') :
    (d.db.imms = [] ∧ d'.db = d.db ∧ d'.files = fun id => if id < d.db.manifest.walFloor then
      none else d.files id) ∨ ∃ imm, d.db.imms.getLast? = some imm ∧ Flushed d d' imm := by
  obtain ⟨⟨db', did⟩, hf, rfl⟩ := Option.map_eq_some_iff.mp h
  rcases Db.flushOne_cases hf with
    ⟨himms, rfl⟩ | ⟨imm, himm, ⟨-, rfl⟩ | ⟨run, maxSeq, next, hbuild, rfl⟩⟩
  · exact Or.inl ⟨himms, rfl, rfl⟩
  · exact Or.inr ⟨imm, himm, rfl, rfl, rfl, rfl, rfl, rfl, le_rfl, rfl⟩
  · exact Or.inr ⟨imm, himm, rfl, rfl, rfl, rfl, rfl, rfl,
      le_of_lt (buildRunFromMem_spec hbuild).2.2.2.1, rfl⟩

/-! ### Ids -/

/-- All WALs a reopen may read, oldest first. -/
def wals (d : WalStore) : List Wal := d.db.sealedWals ++ [d.db.wal]

structure Tidy (d : WalStore) : Prop where
  mem_wal : d.db.mem.walId = d.db.wal.id
  newest : (d.db.mem :: d.db.imms).Pairwise fun m m' => m'.walId < m.walId
  live : ∀ m ∈ d.db.imms, ∃ w ∈ d.db.sealedWals, w.id = m.walId
  rising : d.wals.Pairwise fun w w' => w.id < w'.id
  wal_lt : d.db.wal.id < d.db.nextFileId
  floor_le : ∀ w ∈ d.wals, d.db.manifest.walFloor ≤ w.id
  files_lt : ∀ id f, d.files id = some f → id < d.db.nextFileId

theorem mem_wals {w : Wal} : w ∈ d.wals ↔ w ∈ d.db.sealedWals ∨ w = d.db.wal := by
  unfold wals
  rw [List.mem_append, List.mem_singleton]

theorem Tidy.sealed_lt (h : d.Tidy) {w : Wal} (hw : w ∈ d.db.sealedWals) : w.id < d.db.wal.id :=
  (List.pairwise_append.mp h.rising).2.2 w hw d.db.wal (List.mem_singleton_self _)

theorem Tidy.of_same (h : d.Tidy) (hs : d.db.SameWal d'.db) (hfiles : d'.files = d.files) :
    d'.Tidy := by
  have hwals : d'.wals = d.wals := by rw [wals, hs.wal, hs.sealedWals]; rfl
  refine ⟨by rw [hs.mem, hs.wal]; exact h.mem_wal, by rw [hs.mem, hs.imms]; exact h.newest, ?_,
    by rw [hwals]; exact h.rising, ?_, by rw [hwals, hs.floor]; exact h.floor_le, fun id f hf => ?_⟩
  · rw [hs.imms, hs.sealedWals]
    exact h.live
  · rw [hs.wal]
    exact lt_of_lt_of_le h.wal_lt hs.next_le
  · rw [hfiles] at hf
    exact lt_of_lt_of_le (h.files_lt id f hf) hs.next_le

theorem Written.tidy {written appended : List (ℕ × List EncEntry)}
    {lost : Option (ℕ × List EncEntry × ℕ)}
    (hw : Written crc d d' written appended lost) (h : d.Tidy) : d'.Tidy := by
  have hid : d'.db.wal.id = d.db.wal.id := by rw [hw.wal]
  have hmem : d'.db.mem.walId = d.db.mem.walId := by rw [hw.mem, Memtable.insertAll_walId]
  have hnewest := List.pairwise_cons.mp h.newest
  have hrising := List.pairwise_append.mp h.rising
  refine ⟨by rw [hmem, hid]; exact h.mem_wal, ?_,
    by rw [hw.imms, hw.sealedWals]; exact h.live, ?_, ?_, ?_, ?_⟩
  · rw [hw.imms]
    refine List.pairwise_cons.mpr ⟨fun m hm => ?_, hnewest.2⟩
    rw [hmem]
    exact hnewest.1 m hm
  · unfold wals
    rw [hw.sealedWals]
    refine List.pairwise_append.mpr
      ⟨hrising.1, List.pairwise_singleton _ _, fun w hmem w' hw' => ?_⟩
    rw [List.mem_singleton.mp hw', hid]
    exact h.sealed_lt hmem
  · rw [hid, hw.next]
    exact h.wal_lt
  · intro w hmem
    rw [hw.floor]
    rcases mem_wals.mp hmem with hmem | rfl
    · exact h.floor_le w (mem_wals.mpr (Or.inl (hw.sealedWals ▸ hmem)))
    · rw [hid]
      exact h.floor_le _ (mem_wals.mpr (Or.inr rfl))
  · intro id f hf
    rw [hw.next]
    rw [hw.files] at hf
    by_cases heq : id = d.db.wal.id
    · rw [heq]
      exact h.wal_lt
    · exact h.files_lt id f (by rwa [write, Function.update_of_ne heq] at hf)

theorem tidy_rotate (h : d.Tidy) (hs : d.db.rotateMemtableLocked.SameWal d'.db)
    (hfiles : d'.files = Function.update d.files d.db.nextFileId (some ⟨[], 0⟩)) : d'.Tidy := by
  refine Tidy.of_same (d := ⟨d.db.rotateMemtableLocked,
    Function.update d.files d.db.nextFileId (some ⟨[], 0⟩)⟩) ?_ hs hfiles
  refine ⟨rfl, ?_, ?_, ?_, Nat.lt_succ_self _, ?_, ?_⟩
  · refine List.pairwise_cons.mpr ⟨fun m hm => ?_, h.newest⟩
    show m.walId < d.db.nextFileId
    rcases List.mem_cons.mp hm with rfl | hm
    · rw [h.mem_wal]
      exact h.wal_lt
    · obtain ⟨w, hw, hid⟩ := h.live m hm
      have := h.sealed_lt hw
      have := h.wal_lt
      omega
  · intro m hm
    rcases List.mem_cons.mp hm with rfl | hm
    · exact ⟨d.db.wal, List.mem_append_right _ (List.mem_singleton_self _), h.mem_wal.symm⟩
    · obtain ⟨w, hw, hid⟩ := h.live m hm
      exact ⟨w, List.mem_append_left _ hw, hid⟩
  · refine List.pairwise_append.mpr ⟨h.rising, List.pairwise_singleton _ _, fun w hw w' hw' => ?_⟩
    rw [List.mem_singleton.mp hw']
    show w.id < d.db.nextFileId
    rcases mem_wals.mp hw with hw | rfl
    · exact lt_trans (h.sealed_lt hw) h.wal_lt
    · exact h.wal_lt
  · intro w hw
    rcases mem_wals.mp hw with hw | rfl
    · exact h.floor_le w hw
    · exact le_of_lt (lt_of_le_of_lt (h.floor_le d.db.wal (mem_wals.mpr (Or.inr rfl))) h.wal_lt)
  · intro id f hf
    show id < d.db.nextFileId + 1
    by_cases heq : id = d.db.nextFileId
    · omega
    · have hold : d.files id = some f := by
        simpa only [Function.update_of_ne heq] using hf
      exact Nat.lt_succ_of_lt (h.files_lt id f hold)

theorem Rotation.tidy {full : Prop} {fault : Option (RotateOp × String)}
    (hr : Rotation full fault d d') (h : d.Tidy) : d'.Tidy := by
  cases hr with
  | quiet hs hf => exact h.of_same hs hf
  | orphan _ _ hs hlt hf =>
    have hsame : (⟨d'.db, d.files⟩ : WalStore).Tidy := h.of_same hs rfl
    refine { hsame with files_lt := fun id f hfile => ?_ }
    rw [hf] at hfile
    by_cases heq : id = d.db.nextFileId
    · rw [heq]
      exact hlt
    · rw [Function.update_of_ne heq] at hfile
      exact hsame.files_lt id f hfile
  | frozen _ hs hf => exact tidy_rotate h hs hf

theorem tidy_flush (h : d.Tidy) (hf : d.flush opts = some d') : d'.Tidy := by
  rcases flush_spec hf with ⟨-, hdb, hfiles⟩ | ⟨imm, himm, hfl⟩
  · have hsame : (⟨d'.db, d.files⟩ : WalStore).Tidy := by rw [hdb]; exact h
    refine { hsame with files_lt := fun id f hfile => ?_ }
    rw [hfiles] at hfile
    simp only at hfile
    split at hfile
    · exact absurd hfile (by simp)
    · exact hsame.files_lt id f hfile
  · obtain ⟨older, holder⟩ := List.getLast?_eq_some_iff.mp himm
    have hdrop : d.db.imms.dropLast = older := by rw [holder, List.dropLast_concat]
    have hnewest := h.newest
    rw [holder, ← List.cons_append] at hnewest
    obtain ⟨hkept, -, habove⟩ := List.pairwise_append.mp hnewest
    -- the flushed memtable's WAL is older than all that stay
    have hstay : ∀ m ∈ d.db.mem :: older, imm.walId < m.walId := fun m hm =>
      habove m hm imm (List.mem_singleton_self _)
    have hfloor : ∀ w ∈ d.wals, imm.walId < w.id → d'.db.manifest.walFloor ≤ w.id := by
      intro w hw hlt
      rw [hfl.floor]
      exact max_le (h.floor_le w hw) hlt
    have hsub : ∀ w ∈ d'.db.sealedWals, w ∈ d.db.sealedWals := fun w hw => by
      rw [hfl.sealedWals] at hw
      exact (List.mem_filter.mp hw).1
    have hwal : imm.walId < d.db.wal.id := h.mem_wal ▸ hstay d.db.mem List.mem_cons_self
    refine ⟨by rw [hfl.mem, hfl.wal]; exact h.mem_wal,
      by rw [hfl.mem, hfl.imms, hdrop]; exact hkept, ?_, ?_, ?_, ?_, ?_⟩
    · intro m hm
      rw [hfl.imms, hdrop] at hm
      obtain ⟨w, hw, hid⟩ := h.live m (by rw [holder]; exact List.mem_append_left _ hm)
      refine ⟨w, ?_, hid⟩
      rw [hfl.sealedWals]
      have hlt := hstay m (List.mem_cons_of_mem _ hm)
      exact List.mem_filter.mpr
        ⟨hw, decide_eq_true (hfloor w (mem_wals.mpr (Or.inl hw)) (by omega))⟩
    · have hrising := List.pairwise_append.mp h.rising
      unfold wals
      rw [hfl.wal]
      refine List.pairwise_append.mpr ⟨?_, List.pairwise_singleton _ _, fun w hw w' hw' => ?_⟩
      · rw [hfl.sealedWals]
        exact hrising.1.sublist List.filter_sublist
      · exact hrising.2.2 w (hsub w hw) w' hw'
    · rw [hfl.wal]
      exact lt_of_lt_of_le h.wal_lt hfl.next_le
    · intro w hw
      rcases mem_wals.mp hw with hw | rfl
      · rw [hfl.sealedWals] at hw
        exact of_decide_eq_true (List.mem_filter.mp hw).2
      · rw [hfl.wal]
        exact hfloor _ (mem_wals.mpr (Or.inr rfl)) hwal
    · intro id f hfile
      rw [hfl.files] at hfile
      simp only at hfile
      split at hfile
      · exact absurd hfile (by simp)
      · exact lt_of_lt_of_le (h.files_lt id f hfile) hfl.next_le

end WalStore

/-! ### Opened stores -/

/-- A store right after an open: everything is flushed. -/
structure Db.Opened (db : Db) : Prop where
  records : db.wal.records = []
  sealedWals : db.sealedWals = []
  mem : db.mem.map = []
  imms : db.imms = []
  mem_wal : db.mem.walId = db.wal.id
  floor_le : db.manifest.walFloor ≤ db.wal.id
  wal_lt : db.wal.id < db.nextFileId

theorem opened_init (opts : Options) : (Db.init opts).Opened :=
  ⟨rfl, rfl, rfl, rfl, rfl, le_rfl, Nat.lt_succ_self _⟩

theorem opened_reopen {db' : Db} {n orphan : ℕ} (h : db.WF)
    (hr : db.reopen opts n orphan = some db') :
    db'.Opened := by
  obtain ⟨next, run?, hre, -⟩ := reopen_spec h hr
  refine ⟨by rw [hre.wal], hre.sealedWals, by rw [hre.mem]; rfl, hre.imms,
    by rw [hre.mem, hre.wal]; rfl, ?_, ?_⟩
  · rw [hre.walFloor, hre.wal]
  · rw [hre.wal]
    exact hre.next_lt

theorem opened_tidy (h : db.Opened) : (WritePath.opened db).store.Tidy := by
  have hwals : (WritePath.opened db).store.wals = [db.wal] := by
    show db.sealedWals ++ [db.wal] = _
    rw [h.sealedWals]
    rfl
  refine ⟨h.mem_wal, ?_,
    ?_, by rw [hwals]; exact List.pairwise_singleton _ _, h.wal_lt, ?_, fun id f hf => ?_⟩
  · show (db.mem :: db.imms).Pairwise _
    rw [h.imms]
    exact List.pairwise_singleton _ _
  · intro m hm
    have hm : m ∈ db.imms := hm
    rw [h.imms] at hm
    exact absurd hm List.not_mem_nil
  · intro w hw
    rw [hwals] at hw
    rw [List.mem_singleton.mp hw]
    exact h.floor_le
  · show id < db.nextFileId
    have hf : Function.update (fun _ => none) db.wal.id (some (⟨[], 0⟩ : WalFile)) id = some f := hf
    by_cases heq : id = db.wal.id
    · rw [heq]
      exact h.wal_lt
    · rw [Function.update_of_ne heq] at hf
      exact absurd hf (by simp)

end Fluent31
