/-
The two copies of the value-log head (`vlog.rs`, `db.rs`, `fork.rs`).

`Vlog` has the file it appends to, with the lengths written and synced; the version
has the id of the head and the files that resolve.  A rotation swaps the first before
it syncs the directory, and the second after.  A fork decides by both which file of
its view still grows.

A `HeadStore` is a store with the value-log files below it.  The steps of an apply act
on both; the write path is that of `WritePath`, with every writer, rotation and
failure it has.

* `Sound.perform`, `Sound.instants` — what one step and all steps of an apply preserve,
  also within a rotation;
* `Tidy.headSteps` — what each failure of a rotation leaves;
* `head_agreement` — the copies agree in every state of a run, and forks take the right
  files, exactly if no head rotation in it fails at its directory sync;
* `head_disagreement` — one that does fail there.
-/
import Fluent31.SealedWals
import Fluent31.Reachable

namespace Fluent31

/-- A value-log file: where its next append goes, and how much of it is on disk. -/
structure VlogSegment where
  appendOff : ℕ
  durable : ℕ
  deriving DecidableEq

/-- A store with its value-log files; `synced` is that of the append head.  `retired`
are the files that the collector has taken out of the version. -/
structure HeadStore where
  db : Db
  files : ℕ → Option VlogSegment
  synced : ℕ
  retired : List ℕ

/-- Neither creates a head file nor makes one the head. -/
def WriteStep.plain : WriteStep → Bool
  | .createHead _ | .swapHead _ | .adoptHead _ => false
  | _ => true

def WriteStep.swaps : WriteStep → Bool
  | .swapHead _ => true
  | _ => false

theorem WriteStep.swaps_of_plain {step : WriteStep} (h : step.plain = true) :
    step.swaps = false := by
  cases step <;> first | rfl | exact absurd h Bool.false_ne_true

namespace HeadStore

variable (d : HeadStore)

/-- A change of the file that is appended to. -/
def onHead (f : VlogSegment → VlogSegment) : ℕ → Option VlogSegment :=
  Function.update d.files d.db.vlog.headId ((d.files d.db.vlog.headId).map f)

def perform (step : WriteStep) : HeadStore where
  db := d.db.perform step
  files := match step with
    | .place key value =>
      d.onHead fun f => { f with appendOff := f.appendOff + Vlog.recordLen key value }
    | .syncVlog => d.onHead fun f => { f with durable := f.appendOff }
    | .createHead id => Function.update d.files id (some ⟨0, 0⟩)
    | _ => d.files
  synced := match step with
    | .syncVlog => d.db.vlog.written
    | .swapHead _ => 0
    | _ => d.synced
  retired := d.retired

def performAll (steps : List WriteStep) : HeadStore := steps.foldl perform d

variable {d} {d' d'' : HeadStore}

@[simp] theorem performAll_db (steps : List WriteStep) :
    (d.performAll steps).db = d.db.performAll steps := by
  induction steps generalizing d with
  | nil => rfl
  | cons step steps ih => exact ih

theorem performAll_retired {steps : List WriteStep} : (d.performAll steps).retired = d.retired := by
  induction steps generalizing d with
  | nil => rfl
  | cons step steps ih => exact ih

theorem performAll_append (steps steps' : List WriteStep) :
    d.performAll (steps ++ steps') = (d.performAll steps).performAll steps' := List.foldl_append ..

/-! ### Agreement -/

/-- **The copies of the head agree**: one id, of a file that resolves, and with lengths
that are those of the file; and every pointer that was handed out resolves, unless the
collector has retired its file. -/
structure Agrees (d : HeadStore) : Prop where
  head : d.db.vlog.headId = d.db.version.vlogHeadId
  listed : d.db.version.vlogHeadId ∈ d.db.version.vlogs
  described : d.files d.db.vlog.headId = some ⟨d.db.vlog.written, d.synced⟩ ∧
    d.synced ≤ d.db.vlog.written
  resolves : ∀ r ∈ d.db.vlog.records, r.ptr.file ∉ d.retired →
    d.db.resolveRepr r.key (.ptr r.ptr) = .ok r.value

/-- What holds at every instant, also within a rotation. -/
structure Sound (d : HeadStore) : Prop where
  listed : d.db.version.vlogHeadId ∈ d.db.version.vlogs
  newest : ∀ id ∈ d.db.version.vlogs, id ≤ d.db.version.vlogHeadId
  head_le : d.db.version.vlogHeadId ≤ d.db.vlog.headId
  described : d.files d.db.vlog.headId = some ⟨d.db.vlog.written, d.synced⟩ ∧
    d.synced ≤ d.db.vlog.written
  wf : d.db.vlog.WF d.db.nextFileId
  records : ∀ r ∈ d.db.vlog.records, r.ptr.file ∉ d.retired → r.ptr.file ∈ d.db.version.vlogs
  present : ∀ id ∈ d.db.version.vlogs, (d.files id).isSome
  within : ∀ r ∈ d.db.vlog.records, ∀ f, d.files r.ptr.file = some f →
    r.ptr.offset + r.ptr.len ≤ f.appendOff
  /-- All files but the head are on disk in full. -/
  closed : ∀ id f, d.files id = some f → id ≠ d.db.vlog.headId → f.durable = f.appendOff

/-- What the steps of the write path preserve. -/
structure Tidy (d : HeadStore) : Prop extends Sound d where
  head : d.db.vlog.headId = d.db.version.vlogHeadId

theorem Tidy.agrees (h : d.Tidy) : d.Agrees where
  head := h.head
  listed := h.listed
  described := h.described
  resolves r hr hlive := by
    rw [Db.resolveRepr, if_pos (h.records r hr hlive)]
    exact h.wf.readValue_eq hr

/-- Later, the records are still there, and the files before the head are as they were. -/
structure Grows (d d' : HeadStore) : Prop where
  head_le : d.db.vlog.headId ≤ d'.db.vlog.headId
  records : ∀ r ∈ d.db.vlog.records, r ∈ d'.db.vlog.records
  kept : ∀ id < d.db.vlog.headId, d'.files id = d.files id
  present : ∀ id, (d.files id).isSome → (d'.files id).isSome

theorem Grows.refl (d : HeadStore) : d.Grows d :=
  ⟨le_rfl, fun _ hr => hr, fun _ _ => rfl, fun _ hid => hid⟩

theorem Grows.trans (h : d.Grows d') (h' : d'.Grows d'') : d.Grows d'' where
  head_le := le_trans h.head_le h'.head_le
  records r hr := h'.records r (h.records r hr)
  kept id hid := (h'.kept id (lt_of_lt_of_le hid h.head_le)).trans (h.kept id hid)
  present id hid := h'.present id (h.present id hid)

/-- Whatever leaves the value log alone, but for files that are retired. -/
structure Untouched (d d' : HeadStore) : Prop where
  vlog : d'.db.vlog = d.db.vlog
  head : d'.db.version.vlogHeadId = d.db.version.vlogHeadId
  sub : ∀ id ∈ d'.db.version.vlogs, id ∈ d.db.version.vlogs
  kept : ∀ id ∈ d.db.version.vlogs, id = d.db.version.vlogHeadId ∨ id ∉ d'.retired →
    id ∈ d'.db.version.vlogs
  next_le : d.db.nextFileId ≤ d'.db.nextFileId
  files : d'.files = d.files
  synced : d'.synced = d.synced
  retired : ∀ id ∈ d.retired, id ∈ d'.retired

theorem Untouched.of_same (hvlog : d'.db.vlog = d.db.vlog)
    (hvlogs : d'.db.version.vlogs = d.db.version.vlogs)
    (hhead : d'.db.version.vlogHeadId = d.db.version.vlogHeadId)
    (hnext : d.db.nextFileId ≤ d'.db.nextFileId)
    (hfiles : d'.files = d.files) (hsynced : d'.synced = d.synced)
    (hretired : d'.retired = d.retired) :
    d.Untouched d' where
  vlog := hvlog
  head := hhead
  sub _ hid := hvlogs ▸ hid
  kept _ hid _ := hvlogs ▸ hid
  next_le := hnext
  files := hfiles
  synced := hsynced
  retired _ hid := hretired ▸ hid

theorem Sound.same (h : d.Sound) (hsame : d.Untouched d') : d'.Sound ∧ d.Grows d' := by
  refine ⟨⟨?_, fun id hid => ?_, ?_, ?_, ?_, fun r hr hlive => ?_, fun id hid => ?_, ?_, ?_⟩,
    ⟨by rw [hsame.vlog], fun r hr => by rwa [hsame.vlog], fun _ _ => by rw [hsame.files],
      fun _ hid => by rwa [hsame.files]⟩⟩
  · exact hsame.head ▸ hsame.kept _ h.listed (Or.inl rfl)
  · exact hsame.head ▸ h.newest id (hsame.sub id hid)
  · rw [hsame.vlog, hsame.head]
    exact h.head_le
  · rw [hsame.vlog, hsame.files, hsame.synced]
    exact h.described
  · rw [hsame.vlog]
    exact h.wf.mono hsame.next_le
  · rw [hsame.vlog] at hr
    exact hsame.kept _ (h.records r hr fun hid => hlive (hsame.retired _ hid)) (Or.inr hlive)
  · rw [hsame.files]
    exact h.present id (hsame.sub id hid)
  · rw [hsame.vlog, hsame.files]
    exact h.within
  · rw [hsame.vlog, hsame.files]
    exact h.closed

/-! ### Steps -/

/-- When a step is carried out: values go to a head that resolves, a new head is a new
file, and the old one is synced by then. -/
def Guard (d : HeadStore) : WriteStep → Prop
  | .place _ _ => d.db.vlog.headId = d.db.version.vlogHeadId
  | .createHead id => d.db.vlog.WF id ∧ d.db.version.vlogHeadId < id
  | .swapHead id =>
    id + 1 = d.db.nextFileId ∧ d.db.vlog.WF id ∧ d.files id = some ⟨0, 0⟩ ∧
      d.synced = d.db.vlog.written
  | .adoptHead id => id = d.db.vlog.headId
  | _ => True

/-- A value is appended where the head's records end. -/
theorem Sound.place (h : d.Sound) {key value : Bytes} (hguard : d.Guard (.place key value)) :
    (d.perform (.place key value)).Sound ∧ d.Grows (d.perform (.place key value)) := by
  have hhead : (d.perform (.place key value)).files d.db.vlog.headId =
      some ⟨d.db.vlog.written + Vlog.recordLen key value, d.synced⟩ := by
    show d.onHead _ d.db.vlog.headId = _
    rw [onHead, Function.update_self, h.described.1]
    rfl
  have hother : ∀ id, id ≠ d.db.vlog.headId →
      (d.perform (.place key value)).files id = d.files id :=
    fun id hid => Function.update_of_ne hid _ _
  have hpresent : ∀ id, (d.files id).isSome → ((d.perform (.place key value)).files id).isSome :=
    fun id hid => by
    by_cases heq : id = d.db.vlog.headId
    · rw [heq, hhead]
      rfl
    · rwa [hother id heq]
  refine ⟨⟨h.listed, h.newest, h.head_le, ⟨hhead, le_trans h.described.2 (Nat.le_add_right _ _)⟩,
    h.wf.append key value, fun r hr hlive => ?_, fun id hid => hpresent id (h.present id hid),
      fun r hr f hf => ?_,
    fun id f hf hne => h.closed id f ((hother id hne).symm.trans hf) hne⟩,
    ⟨le_rfl, fun r hr => List.mem_append_left _ hr, fun id hid =>
      hother id (ne_of_lt hid), hpresent⟩⟩
  · rcases List.mem_append.mp hr with hr | hr
    · exact h.records r hr hlive
    · rw [List.mem_singleton.mp hr, show d.db.vlog.headId = d.db.version.vlogHeadId from hguard]
      exact h.listed
  · by_cases hfile : r.ptr.file = d.db.vlog.headId
    · -- in the head, where what was written ends
      rw [hfile, hhead] at hf
      rw [← Option.some_inj.mp hf]
      rcases List.mem_append.mp hr with hr | hr
      · exact le_trans (h.wf.below r hr hfile) (Nat.le_add_right _ _)
      · rw [List.mem_singleton.mp hr]
    · rcases List.mem_append.mp hr with hr | hr
      · exact h.within r hr f ((hother _ hfile).symm.trans hf)
      · exact absurd (by rw [List.mem_singleton.mp hr]) hfile

theorem Sound.syncVlog (h : d.Sound) :
    (d.perform .syncVlog).Sound ∧ d.Grows (d.perform .syncVlog) := by
  have hhead : (d.perform .syncVlog).files d.db.vlog.headId =
      some ⟨d.db.vlog.written, d.db.vlog.written⟩ := by
    show d.onHead _ d.db.vlog.headId = _
    rw [onHead, Function.update_self, h.described.1]
    rfl
  have hother : ∀ id, id ≠ d.db.vlog.headId → (d.perform .syncVlog).files id = d.files id :=
    fun id hid => Function.update_of_ne hid _ _
  have hpresent : ∀ id, (d.files id).isSome → ((d.perform .syncVlog).files id).isSome :=
    fun id hid => by
    by_cases heq : id = d.db.vlog.headId
    · rw [heq, hhead]
      rfl
    · rwa [hother id heq]
  refine ⟨⟨h.listed, h.newest, h.head_le, ⟨hhead, le_rfl⟩, h.wf, h.records,
    fun id hid => hpresent id (h.present id hid), fun r hr f hf => ?_,
    fun id f hf hne => h.closed id f ((hother id hne).symm.trans hf) hne⟩,
    ⟨le_rfl, fun _ hr => hr, fun id hid => hother id (ne_of_lt hid), hpresent⟩⟩
  by_cases hfile : r.ptr.file = d.db.vlog.headId
  · rw [hfile, hhead] at hf
    rw [← Option.some_inj.mp hf]
    exact h.wf.below r hr hfile
  · exact h.within r hr f ((hother _ hfile).symm.trans hf)

/-- The file of the next head; no version has it yet, and no record is in it. -/
theorem Sound.createHead (h : d.Sound) {id : ℕ} (hguard : d.Guard (.createHead id)) :
    (d.perform (.createHead id)).Sound ∧ d.Grows (d.perform (.createHead id)) := by
  obtain ⟨hwf, hnew⟩ := hguard
  have hself : (d.perform (.createHead id)).files id = some ⟨0, 0⟩ := Function.update_self _ _ _
  have hother : ∀ id', id' ≠ id → (d.perform (.createHead id)).files id' = d.files id' :=
    fun id' hid => Function.update_of_ne hid _ _
  have hpresent : ∀ id', (d.files id').isSome → ((d.perform (.createHead id)).files id').isSome :=
    fun id' hid => by
    by_cases heq : id' = id
    · rw [heq, hself]
      rfl
    · rwa [hother id' heq]
  refine ⟨⟨h.listed, h.newest, h.head_le,
    ⟨(hother _ (ne_of_lt hwf.head_lt)).trans h.described.1, h.described.2⟩,
    h.wf, h.records, fun id hid => hpresent id (h.present id hid),
      fun r hr f hf => ?_, fun id' f hf hne => ?_⟩,
    ⟨le_rfl, fun _ hr => hr, fun id' hid =>
      hother id' (ne_of_lt (lt_trans hid hwf.head_lt)), hpresent⟩⟩
  · exact h.within r hr f ((hother _ (ne_of_lt (hwf.file_lt r hr))).symm.trans hf)
  · by_cases heq : id' = id
    · rw [heq, hself] at hf
      rw [← Option.some_inj.mp hf]
    · exact h.closed id' f ((hother id' heq).symm.trans hf) hne

/-- The append head is ahead of the version from here on. -/
theorem Sound.swapHead (h : d.Sound) {id : ℕ} (hguard : d.Guard (.swapHead id)) :
    (d.perform (.swapHead id)).Sound ∧ d.Grows (d.perform (.swapHead id)) := by
  obtain ⟨hnext, hwf, hfile, hsynced⟩ := hguard
  refine ⟨⟨h.listed, h.newest, le_trans h.head_le (le_of_lt hwf.head_lt), ⟨hfile, le_rfl⟩, ?_,
    h.records, h.present, h.within, fun id' f hf hne => ?_⟩,
    ⟨le_of_lt hwf.head_lt, fun _ hr => hr, fun _ _ => rfl, fun _ hid => hid⟩⟩
  · show (d.db.vlog.rotate id).WF d.db.nextFileId
    rw [← hnext]
    exact hwf.rotate
  · by_cases hold : id' = d.db.vlog.headId
    · have hf : d.files id' = some f := hf
      rw [hold, h.described.1] at hf
      rw [← Option.some_inj.mp hf]
      exact hsynced
    · exact h.closed id' f hf hold

theorem Sound.adoptHead (h : d.Sound) {id : ℕ} (hguard : d.Guard (.adoptHead id)) :
    (d.perform (.adoptHead id)).Sound ∧ d.Grows (d.perform (.adoptHead id)) := by
  obtain rfl : id = d.db.vlog.headId := hguard
  refine ⟨⟨List.mem_append_right _ (List.mem_singleton_self _), fun id' hid => ?_, le_rfl,
    h.described, h.wf,
    fun r hr hlive => List.mem_append_left _ (h.records r hr hlive),
      fun id' hid => ?_, h.within, h.closed⟩,
    ⟨le_rfl, fun _ hr => hr, fun _ _ => rfl, fun _ hid => hid⟩⟩
  · rcases List.mem_append.mp hid with hid | hid
    · exact le_trans (h.newest id' hid) h.head_le
    · exact le_of_eq (List.mem_singleton.mp hid)
  · rcases List.mem_append.mp hid with hid | hid
    · exact h.present id' hid
    · show (d.files id').isSome
      rw [List.mem_singleton.mp hid, h.described.1]
      rfl

/-- **One step.** -/
theorem Sound.perform (h : d.Sound) {step : WriteStep} (hguard : d.Guard step) :
    (d.perform step).Sound ∧ d.Grows (d.perform step) := by
  cases step with
  | place key value => exact h.place hguard
  | syncVlog => exact h.syncVlog
  | createHead id => exact h.createHead hguard
  | swapHead id => exact h.swapHead hguard
  | adoptHead id => exact h.adoptHead hguard
  | allocId => exact h.same (.of_same rfl rfl rfl (Nat.le_succ _) rfl rfl rfl)
  | _ => exact h.same (.of_same rfl rfl rfl le_rfl rfl rfl rfl)

/-- Each step is carried out as it has to be. -/
def Guarded : HeadStore → List WriteStep → Prop
  | _, [] => True
  | d, step :: steps => d.Guard step ∧ (d.perform step).Guarded steps

theorem guarded_append {steps steps' : List WriteStep} :
    d.Guarded (steps ++ steps') ↔ d.Guarded steps ∧ (d.performAll steps).Guarded steps' := by
  induction steps generalizing d with
  | nil => exact ⟨fun h => ⟨trivial, h⟩, And.right⟩
  | cons step steps ih => exact (and_congr_right fun _ => ih).trans and_assoc.symm

/-- The states that some steps pass through. -/
def instants : HeadStore → List WriteStep → List HeadStore
  | d, [] => [d]
  | d, step :: steps => d :: (d.perform step).instants steps

/-- **All steps**: every instant is sound, and comes after those before it. -/
theorem Sound.instants (h : d.Sound) {steps : List WriteStep} (hguarded : d.Guarded steps) :
    (∀ t ∈ d.instants steps, t.Sound ∧ d.Grows t ∧ t.Grows (d.performAll steps)) ∧
      (d.instants steps).Pairwise Grows ∧ (d.performAll steps).Sound := by
  induction steps generalizing d with
  | nil =>
    refine ⟨fun t ht => ?_, List.pairwise_singleton _ _, h⟩
    rw [List.mem_singleton.mp ht]
    exact ⟨h, .refl d, .refl d⟩
  | cons step steps ih =>
    obtain ⟨hsound, hgrows⟩ := h.perform hguarded.1
    obtain ⟨hall, hpair, hend⟩ := ih hsound hguarded.2
    have hafter : ∀ t ∈ (d.perform step).instants steps, t.Sound ∧ d.Grows t ∧
        t.Grows (d.performAll (step :: steps)) :=
      fun t ht => ⟨(hall t ht).1, hgrows.trans (hall t ht).2.1, (hall t ht).2.2⟩
    have hlast : d.Grows (d.performAll (step :: steps)) := by
      have hmem : d.perform step ∈ (d.perform step).instants steps := by
        cases steps <;> exact List.mem_cons_self
      exact hgrows.trans (hall _ hmem).2.2
    exact ⟨List.forall_mem_cons.mpr ⟨⟨h, .refl d, hlast⟩, hafter⟩,
      List.pairwise_cons.mpr ⟨fun t ht => (hafter t ht).2.1, hpair⟩, hend⟩

/-- Steps that are no part of a head rotation. -/
theorem Tidy.plain (h : d.Tidy) {steps : List WriteStep}
    (hplain : ∀ step ∈ steps, step.plain = true) :
    d.Guarded steps ∧ (d.performAll steps).Tidy := by
  induction steps generalizing d with
  | nil => exact ⟨trivial, h⟩
  | cons step steps ih =>
    obtain ⟨hstep, hplain⟩ := List.forall_mem_cons.mp hplain
    have hguard : d.Guard step := by
      cases step with
      | place key value => exact h.head
      | createHead _ | swapHead _ | adoptHead _ => exact absurd hstep Bool.false_ne_true
      | _ => trivial
    have hhead : (d.perform step).db.vlog.headId = (d.perform step).db.version.vlogHeadId := by
      cases step with
      | createHead _ | swapHead _ | adoptHead _ => exact absurd hstep Bool.false_ne_true
      | _ => exact h.head
    obtain ⟨hguarded, htidy⟩ := ih ⟨(h.toSound.perform hguard).1, hhead⟩ hplain
    exact ⟨⟨hguard, hguarded⟩, htidy⟩

/-! ### Rotations -/

/-- The directory sync of a head rotation is what fails. -/
def headDirFault (fault : Option (RotateOp × String)) : Bool :=
  fault.any fun p => decide (p.1 = .syncHeadDir)

/-- What some steps leave: an agreement, unless a head rotation among them fails at its
directory sync. -/
def Leaves (d : HeadStore) (fault : Option (RotateOp × String)) (steps : List WriteStep) : Prop :=
  d.Guarded steps ∧
    if headDirFault fault = true ∧ steps.any WriteStep.swaps = true then
      (d.performAll steps).db.vlog.headId ≠ (d.performAll steps).db.version.vlogHeadId
    else (d.performAll steps).Tidy

theorem swaps_plain {steps : List WriteStep} (hplain : ∀ step ∈ steps, step.plain = true) :
    steps.any WriteStep.swaps = false :=
  List.any_eq_false.mpr fun step hs => by
    rw [WriteStep.swaps_of_plain (hplain step hs)]
    exact Bool.false_ne_true

theorem Tidy.leaves_plain (h : d.Tidy) (fault : Option (RotateOp × String)) {steps : List WriteStep}
    (hplain : ∀ step ∈ steps, step.plain = true) : d.Leaves fault steps := by
  obtain ⟨hguarded, htidy⟩ := h.plain hplain
  refine ⟨hguarded, ?_⟩
  rwa [if_neg (by simp [swaps_plain hplain])]

/-- Plain steps before others. -/
theorem Tidy.leaves_append (h : d.Tidy) (fault : Option (RotateOp × String))
    {steps steps' : List WriteStep} (hplain : ∀ step ∈ steps, step.plain = true)
    (hleaves : (d.performAll steps).Leaves fault steps') :
    d.Leaves fault (steps ++ steps') := by
  refine ⟨guarded_append.mpr ⟨(h.plain hplain).1, hleaves.1⟩, ?_⟩
  rw [List.any_append, swaps_plain hplain, Bool.false_or, performAll_append]
  exact hleaves.2

/-- A rotation that nothing stops. -/
def rotation (id : ℕ) : List WriteStep :=
  [.allocId, .createHead id, .syncVlog, .swapHead id, .adoptHead id]

theorem Tidy.guarded_rotation (h : d.Tidy) : d.Guarded (rotation d.db.nextFileId) := by
  have hlt := h.wf.head_lt
  refine ⟨trivial, ⟨h.wf, h.head ▸ hlt⟩, trivial, ⟨rfl, h.wf, ?_, rfl⟩, rfl, trivial⟩
  -- the sync was of the old head, the new one is empty
  refine (Function.update_of_ne ?_ _ _).trans (Function.update_self _ _ _)
  exact ne_of_gt hlt

/-- **A head rotation**, and each way for it to fail. -/
theorem Tidy.headSteps (h : d.Tidy) (fault : Option (RotateOp × String)) :
    d.Leaves fault (Db.headSteps d.db.nextFileId fault).1 := by
  have hfull := h.guarded_rotation
  have hinit : ∀ steps steps' : List WriteStep, rotation d.db.nextFileId = steps ++ steps' →
      d.Guarded steps :=
    fun steps steps' heq => (guarded_append.mp (heq ▸ hfull)).1
  -- a file that nothing points to stays behind
  have hbehind : d.Leaves fault [.allocId, .createHead d.db.nextFileId] := by
    have hguarded := hinit [.allocId, .createHead d.db.nextFileId] _ rfl
    refine ⟨hguarded, ?_⟩
    rw [if_neg (by simp [WriteStep.swaps])]
    exact ⟨(h.toSound.instants hguarded).2.2, h.head⟩
  unfold Db.headSteps
  split
  · exact h.leaves_plain _ fun step hs => by
      rw [List.mem_singleton.mp hs]
      rfl
  · exact hbehind
  · exact hbehind
  · refine ⟨hinit
      [.allocId, .createHead d.db.nextFileId, .syncVlog, .swapHead d.db.nextFileId] _ rfl, ?_⟩
    rw [if_pos ⟨rfl, rfl⟩]
    show d.db.nextFileId ≠ d.db.version.vlogHeadId
    rw [← h.head]
    exact ne_of_gt h.wf.head_lt
  · rename_i hno
    have hfault : headDirFault fault = false := by
      cases fault with
      | none => rfl
      | some p =>
        obtain ⟨op, msg⟩ := p
        exact decide_eq_false fun hop => hno msg (by rw [show op = .syncHeadDir from hop])
    refine ⟨hfull, ?_⟩
    rw [if_neg (by simp [hfault])]
    exact ⟨(h.toSound.instants hfull).2.2, rfl⟩

theorem plain_memtableSteps (next : ℕ) (fault : Option (RotateOp × String)) :
    ∀ step ∈ (Db.memtableSteps next fault).1, step.plain = true := by
  unfold Db.memtableSteps
  split <;> simp [WriteStep.plain]

theorem Tidy.rotateSteps (h : d.Tidy) (opts : Options) (fault : Option (RotateOp × String)) :
    d.Leaves fault (d.db.rotateSteps opts fault).1 := by
  have hfirst : ∀ step ∈ (if opts.memtableSize ≤ d.db.mem.approximateBytes then
      Db.memtableSteps d.db.nextFileId fault else ([], none)).1, step.plain = true := by
    split
    · exact plain_memtableSteps _ _
    · simp
  unfold Db.rotateSteps
  generalize (if opts.memtableSize ≤ d.db.mem.approximateBytes then
    Db.memtableSteps d.db.nextFileId fault else ([], none)) = first at hfirst
  simp only
  split
  · exact h.leaves_plain fault hfirst
  · refine h.leaves_append fault hfirst ?_
    have htidy := (h.plain hfirst).2
    rw [← performAll_db]
    split
    · exact htidy.headSteps fault
    · exact htidy.leaves_plain fault (by simp)

/-! ### Applies -/

theorem plain_of_offWal {step : WriteStep} (h : step.offWal = true) : step.plain = true := by
  cases step <;> first | rfl | exact absurd h Bool.false_ne_true

theorem plain_publishSteps (appended : List (ℕ × List EncEntry)) :
    ∀ step ∈ Db.publishSteps appended, step.plain = true := by
  intro step hs
  simp only [Db.publishSteps, List.mem_append, List.mem_map, Option.mem_toList] at hs
  rcases hs with (⟨e, -, rfl⟩ | hs) | ⟨r, -, rfl⟩
  · rfl
  · obtain ⟨r, -, rfl⟩ := Option.map_eq_some_iff.mp hs
    rfl
  · rfl

/-- **An apply**: what comes before its rotations is plain. -/
theorem Tidy.apply {opts : Options} (h : d.Tidy) {plan : Faults → Plan}
    (hplan : Planned opts d.db plan) (f : Faults) :
    d.Leaves f.rotate (plan f).steps := by
  obtain ⟨written, lost, pre, mid, rot, hshape, -⟩ := hplan.shape f
  obtain ⟨body, hbody⟩ : ∃ body, body = pre ++ (written.map fun r => .record r.1 r.2) ++
    (lost.map fun r => WriteStep.torn r.1 r.2.1 r.2.2).toList ++ mid ++ Db.publishSteps
      (plan f).appended := ⟨_, rfl⟩
  have hplain : ∀ step ∈ body, step.plain = true := by
    intro step hs
    simp only [hbody, List.mem_append, List.mem_map, Option.mem_toList] at hs
    rcases hs with (((hs | ⟨r, -, rfl⟩) | hs) | hs) | hs
    · exact plain_of_offWal (hshape.pre_off step hs)
    · rfl
    · obtain ⟨r, -, rfl⟩ := Option.map_eq_some_iff.mp hs
      rfl
    · exact plain_of_offWal (hshape.mid_off step hs)
    · exact plain_publishSteps _ step hs
  rw [hshape.steps, ← hbody]
  rcases hshape.rotates with hnil | ⟨hlost, -, hrot⟩
  · rw [hnil, List.append_nil]
    exact h.leaves_plain _ hplain
  · have hdb : d.db.performAll (pre ++ (written.map fun r => .record r.1 r.2) ++ mid ++
        Db.publishSteps (plan f).appended) = (d.performAll body).db := by
      rw [performAll_db, hbody, hlost]
      simp
    rw [hrot, hdb]
    exact h.leaves_append _ hplain ((h.plain hplain).2.rotateSteps opts f.rotate)

end HeadStore

/-! ### Forks -/

/-- How a fork takes a value-log file of its view. -/
inductive Take
  | link
  /-- A head that was sealed in between: all of the file. -/
  | sealed (len : ℕ)
  /-- The head, as far as it was written. -/
  | growing (len : ℕ)

/-- `create`, for one file; a failed append may have left bytes beyond the append
offset, the `remnant`. -/
def forkFile (view : Version) (now : HeadStore) (remnant : ℕ → ℕ) (id : ℕ) : Take :=
  if id = view.vlogHeadId then
    if id = now.db.vlog.headId then .growing now.db.vlog.written
    else .sealed ((now.files id).elim 0 fun f => f.appendOff + remnant id)
  else .link

/-- How much of the file the fork has. -/
def Take.len (now : HeadStore) (id : ℕ) : Take → ℕ
  | .link => (now.files id).elim 0 VlogSegment.appendOff
  | .sealed len | .growing len => len

/-- **A fork by a view, later**: it takes the file that still grows as such and no other,
the others are on disk in full, and a pointer the view can see resolves in the view and
in what the fork has taken. -/
structure ForkSound (view now : HeadStore) : Prop where
  growing : ∀ remnant, ∀ id ∈ view.db.version.vlogs,
    (∃ len, forkFile view.db.version now remnant id = .growing len) ↔ id = now.db.vlog.headId
  sealed : ∀ id ∈ view.db.version.vlogs, id ≠ now.db.vlog.headId →
    ∃ f, now.files id = some f ∧ f.durable = f.appendOff
  resolves : ∀ r ∈ view.db.vlog.records, r.ptr.file ∉ view.retired →
    r.ptr.file ∈ view.db.version.vlogs ∧ now.db.vlog.readValue r.ptr r.key = .ok r.value
  taken : ∀ remnant, ∀ r ∈ view.db.vlog.records, r.ptr.file ∉ view.retired →
    r.ptr.offset + r.ptr.len ≤ (forkFile view.db.version now remnant r.ptr.file).len now r.ptr.file

theorem HeadStore.Sound.fork {view now : HeadStore} (hview : view.Sound) (hnow : now.Sound)
    (hgrows : view.Grows now) :
    ForkSound view now where
  growing remnant id hid := by
    unfold forkFile
    constructor
    · rintro ⟨len, htake⟩
      split at htake
      · split at htake
        · assumption
        · exact absurd htake (by simp)
      · exact absurd htake (by simp)
    · intro heq
      -- the head can only be the newest file of the view
      have hle := hview.newest id hid
      have hhead := hview.head_le
      have hlater := hgrows.head_le
      rw [if_pos (by omega), if_pos heq]
      exact ⟨_, rfl⟩
  sealed id hid hne := by
    obtain ⟨f, hf⟩ := Option.isSome_iff_exists.mp (hgrows.present id (hview.present id hid))
    exact ⟨f, hf, hnow.closed id f hf hne⟩
  resolves r hr hlive := ⟨hview.records r hr hlive, hnow.wf.readValue_eq (hgrows.records r hr)⟩
  taken remnant r hr hlive := by
    have hid := hview.records r hr hlive
    obtain ⟨f, hf⟩ := Option.isSome_iff_exists.mp (hgrows.present _ (hview.present _ hid))
    have hwithin := hnow.within r (hgrows.records r hr) f hf
    unfold forkFile
    split
    · split
      · rename_i heq
        rw [heq, hnow.described.1] at hf
        rwa [← Option.some_inj.mp hf] at hwithin
      · simp only [Take.len, hf, Option.elim_some]
        omega
    · simpa only [Take.len, hf, Option.elim_some] using hwithin

/-! ### The write path with its value-log files -/

/-- The steps an action carries out on the store and its files. -/
def PathAction.writes (opts : Options) (s : WritePath) : PathAction → List WriteStep
  | .apply i f =>
    (s.passed[i]?).elim [] fun w => if w.once = true then (w.plan opts s.store.db f).steps else []
  | .relocate _ records f => (s.store.db.relocatePlan opts records f).steps
  | .sync _ (some (.vlog _)) => []
  -- a WAL sync that fails comes after the sync of the head
  | .sync _ _ => [.syncVlog]
  | .forceRotate fault =>
    if s.store.db.mem.isEmpty = true then [] else (Db.memtableSteps s.store.db.nextFileId fault).1
  | .check _ | .leave _ | .flush | .degrade _ | .background _ _ _ _ _ => []

/-- The other threads install versions with the value-log files of the one they
replace. -/
def PathAction.keeping (v : Version) : PathAction → PathAction
  | .background version snapshots defs pins ids =>
    .background { version with vlogs := v.vlogs, vlogHeadId := v.vlogHeadId } snapshots
      defs pins ids
  | a => a

inductive HeadAction
  | path (a : PathAction)
  /-- A fork syncs the head. -/
  | syncHead
  /-- The collector takes a file out of the version. -/
  | retire (id : ℕ)

/-- The failure among an action's rotations. -/
def HeadAction.rotateFault : HeadAction → Option (RotateOp × String)
  | .path (.apply _ f) => f.rotate
  | .path (.relocate _ _ f) => f.rotate
  | _ => none

structure VlogPath where
  path : WritePath
  files : ℕ → Option VlogSegment
  synced : ℕ
  retired : List ℕ

/-- Where the records of a file end. -/
def Vlog.fileEnd (v : Vlog) (file : ℕ) : ℕ :=
  ((v.records.filter fun r => decide (r.ptr.file = file)).map fun r =>
    r.ptr.offset + r.ptr.len).foldr max 0

namespace VlogPath

variable (crc : Bytes → Fin (2 ^ 32)) (opts : Options) (s : VlogPath)

def heads : HeadStore := ⟨s.path.store.db, s.files, s.synced, s.retired⟩

/-- A store that was just opened: older files are on disk, the head is new. -/
def opened (db : Db) : VlogPath where
  path := .opened db
  files id :=
    if id = db.vlog.headId then some ⟨0, 0⟩
    else if id ∈ db.version.vlogs then some ⟨db.vlog.fileEnd id, db.vlog.fileEnd id⟩ else none
  synced := 0
  retired := []

def writes : HeadAction → List WriteStep
  | .path a => a.writes opts s.path
  | .syncHead => [.syncVlog]
  | .retire _ => []

def step : HeadAction → Option VlogPath
  | .path a =>
    (s.path.step crc opts (a.keeping s.path.store.db.version)).map fun path =>
      let d := s.heads.performAll (s.writes opts (.path a))
      { s with path := path, files := d.files, synced := d.synced }
  | .syncHead =>
    let d := s.heads.perform .syncVlog
    some { s with files := d.files, synced := d.synced }
  | .retire id =>
    let db := s.path.store.db
    if id ∈ db.version.vlogs ∧ id ≠ db.version.vlogHeadId then
      let version := { db.version with vlogs := db.version.vlogs.filter fun i => decide (i ≠ id) }
      some { s with
        path := { s.path with store := { s.path.store with db := { db with version := version } } }
        retired := id :: s.retired }
    else none

/-- A head rotation of the action gets to its directory sync, and that fails. -/
def FailsHeadDirSync (a : HeadAction) : Prop :=
  HeadStore.headDirFault a.rotateFault = true ∧ (s.writes opts a).any WriteStep.swaps = true

instance (a : HeadAction) : Decidable (s.FailsHeadDirSync opts a) :=
  inferInstanceAs (Decidable (_ ∧ _))

/-- Every state of the store and its value log in a run, also within its applies. -/
def instants : VlogPath → List HeadAction → List HeadStore
  | s, [] => [s.heads]
  | s, a :: as =>
    s.heads.instants (s.writes opts a) ++ (s.step crc opts a).elim [] fun t => instants t as

end VlogPath

def vlogPath (crc : Bytes → Fin (2 ^ 32)) (opts : Options) (db : Db) : System VlogPath HeadAction :=
  ⟨VlogPath.opened db, VlogPath.step crc opts⟩

namespace VlogPath

variable {crc : Bytes → Fin (2 ^ 32)} {opts : Options} {s s' : VlogPath} {a : HeadAction}

theorem leaves_writes (h : s.heads.Tidy) (a : HeadAction) :
    s.heads.Leaves a.rotateFault (s.writes opts a) := by
  have hnil : ∀ fault, s.heads.Leaves fault [] := fun fault =>
    h.leaves_plain fault fun _ hs => absurd hs List.not_mem_nil
  cases a with
  | syncHead =>
    exact h.leaves_plain _ fun step hs => by
      rw [List.mem_singleton.mp hs]
      rfl
  | retire id => exact hnil _
  | path a =>
    cases a with
    | apply i f =>
      simp only [writes, PathAction.writes]
      cases s.path.passed[i]? with
      | none => exact hnil _
      | some w =>
        simp only [Option.elim_some]
        split
        · exact h.apply w.planned f
        · exact hnil _
    | relocate i records f => exact h.apply (relocatePlan_planned records) f
    | sync i fault =>
      rcases fault with _ | msg | msg
      · exact h.leaves_plain _ (by simp [writes, PathAction.writes, WriteStep.plain])
      · exact hnil _
      · exact h.leaves_plain _ (by simp [writes, PathAction.writes, WriteStep.plain])
    | forceRotate fault =>
      simp only [writes, PathAction.writes]
      split
      · exact hnil _
      · exact h.leaves_plain _ (HeadStore.plain_memtableSteps _ _)
    | check _ | leave _ | flush | degrade _ | background _ _ _ _ _ => exact hnil _

theorem flush_untouched {store store' : WalStore} {files : ℕ → Option VlogSegment} {synced : ℕ}
    {retired : List ℕ} (hf : store.flush opts = some store') :
    HeadStore.Untouched ⟨store.db, files, synced, retired⟩ ⟨store'.db, files, synced, retired⟩ := by
  obtain ⟨⟨db', did⟩, hflush, rfl⟩ := Option.map_eq_some_iff.mp hf
  rcases Db.flushOne_cases hflush with
    ⟨-, rfl⟩ | ⟨imm, -, ⟨-, rfl⟩ | ⟨run, maxSeq, next, hbuild, rfl⟩⟩
  · exact .of_same rfl rfl rfl le_rfl rfl rfl rfl
  · exact .of_same rfl rfl rfl le_rfl rfl rfl rfl
  · exact .of_same rfl rfl rfl (le_of_lt (buildRunFromMem_spec hbuild).2.2.2.1) rfl rfl rfl

/-- What an action does to the store and its files. -/
theorem step_heads (hs : s.step crc opts a = some s') :
    s'.heads = s.heads.performAll (s.writes opts a) ∨ s.writes opts a = [] ∧
      s.heads.Untouched s'.heads := by
  cases a with
  | syncHead =>
    obtain rfl := Option.some_inj.mp hs
    exact Or.inl rfl
  | retire id =>
    obtain ⟨⟨-, hid⟩, heq⟩ := Option.ite_none_right_eq_some.mp hs
    obtain rfl := Option.some_inj.mp heq
    refine Or.inr ⟨rfl,
      ⟨rfl, rfl, fun i hi => List.mem_of_mem_filter hi, fun i hi hkept => ?_, le_rfl, rfl, rfl,
      fun i hi => List.mem_cons_of_mem _ hi⟩⟩
    refine List.mem_filter.mpr ⟨hi, decide_eq_true fun heq => ?_⟩
    rcases hkept with hhead | hlive
    · exact hid (heq.symm.trans hhead)
    · exact hlive (heq ▸ List.mem_cons_self)
  | path a =>
    obtain ⟨path, hstep, rfl⟩ := Option.map_eq_some_iff.mp hs
    -- the store of the path takes the same steps as the one with the files
    have hdb : path.store.db = s.path.store.db.performAll (s.writes opts (.path a)) →
        HeadStore.mk path.store.db (s.heads.performAll (s.writes opts (.path a))).files
          (s.heads.performAll (s.writes opts (.path a))).synced s.retired = s.heads.performAll
            (s.writes opts (.path a)) := by
      intro heq
      have hretired : s.retired = (s.heads.performAll (s.writes opts (.path a))).retired :=
        (HeadStore.performAll_retired (d := s.heads)).symm
      rw [heq, hretired, show s.path.store.db = s.heads.db from rfl, ← HeadStore.performAll_db]
    have hsame : s.writes opts (.path a) = [] → path.store.db = s.path.store.db →
        HeadStore.mk path.store.db (s.heads.performAll (s.writes opts (.path a))).files
          (s.heads.performAll (s.writes opts (.path a))).synced s.retired = s.heads.performAll
            (s.writes opts (.path a)) :=
      fun hnil heq => hdb (by rw [hnil]; exact heq)
    cases a with
    | apply i f =>
      obtain ⟨w, hw, hstep⟩ := Option.bind_eq_some_iff.mp hstep
      obtain ⟨honce, heq⟩ := Option.ite_none_right_eq_some.mp hstep
      obtain rfl := Option.some_inj.mp heq
      refine Or.inl (hdb ?_)
      simp only [writes, PathAction.writes, hw, Option.elim_some, if_pos honce]
      exact WalStore.performAll_db _
    | relocate i records f =>
      obtain ⟨-, heq⟩ := Option.ite_none_right_eq_some.mp hstep
      obtain rfl := Option.some_inj.mp heq
      exact Or.inl (hdb (WalStore.performAll_db _))
    | sync i fault =>
      obtain ⟨-, heq⟩ := Option.ite_none_right_eq_some.mp hstep
      obtain rfl := Option.some_inj.mp heq
      refine Or.inl (hdb ?_)
      rcases fault with _ | _ | _ <;> rfl
    | forceRotate fault =>
      unfold WritePath.step at hstep
      simp only [PathAction.keeping] at hstep
      refine Or.inl (hdb ?_)
      simp only [writes, PathAction.writes]
      split at hstep
      · rename_i hempty
        obtain rfl := Option.some_inj.mp hstep
        rw [if_pos hempty]
        rfl
      · rename_i hempty
        obtain rfl := Option.some_inj.mp hstep
        rw [if_neg hempty]
        exact WalStore.performAll_db _
    | flush =>
      obtain ⟨d, hd, rfl⟩ := Option.map_eq_some_iff.mp hstep
      exact Or.inr ⟨rfl, flush_untouched hd⟩
    | check w | leave i =>
      obtain ⟨-, heq⟩ := Option.ite_none_right_eq_some.mp hstep
      obtain rfl := Option.some_inj.mp heq
      exact Or.inl (hsame rfl rfl)
    | degrade msg =>
      obtain rfl := Option.some_inj.mp hstep
      exact Or.inl (hsame rfl rfl)
    | background version snapshots defs pins ids =>
      obtain rfl := Option.some_inj.mp hstep
      exact Or.inr ⟨rfl, .of_same rfl rfl rfl (Nat.le_add_right _ _) rfl rfl rfl⟩

/-- **One step** of the write path: every instant of it is sound, and it leaves an
agreement unless it fails as described. -/
theorem step_spec (htidy : s.heads.Tidy) (hs : s.step crc opts a = some s') :
    ((∀ t ∈ s.heads.instants (s.writes opts a), t.Sound ∧ s.heads.Grows t ∧ t.Grows s'.heads) ∧
      (s.heads.instants (s.writes opts a)).Pairwise HeadStore.Grows) ∧
      if s.FailsHeadDirSync opts a then s'.heads.db.vlog.headId ≠ s'.heads.db.version.vlogHeadId
      else s'.heads.Tidy := by
  obtain ⟨hguarded, hleaves⟩ := leaves_writes htidy a
  obtain ⟨hall, hpair, -⟩ := htidy.toSound.instants hguarded
  rcases step_heads hs with heq | ⟨hnil, hsame⟩
  · rw [heq]
    exact ⟨⟨hall, hpair⟩, hleaves⟩
  · obtain ⟨hsound, hgrows⟩ := htidy.toSound.same hsame
    rw [if_neg (by simp [FailsHeadDirSync, hnil]), hnil]
    refine ⟨⟨fun t ht => ?_, List.pairwise_singleton _ _⟩,
      hsound, by rw [hsame.vlog, hsame.head]; exact htidy.head⟩
    rw [List.mem_singleton.mp ht]
    exact ⟨htidy.toSound, .refl _, hgrows⟩

end VlogPath

/-! ### Opened stores -/

/-- What an open gives: a new store, or one that was opened again. -/
inductive JustOpened (opts : Options) : Db → Prop
  | init : JustOpened opts (Db.init opts)
  | reopen {db db' : Db} {n orphan : ℕ} : db.WF → db.reopen opts n orphan = some db' →
    JustOpened opts db'

variable {opts : Options} {db db' : Db}

/-- Recovery opens a head of its own and shows it at once. -/
theorem reopen_head {n orphan : ℕ} (hr : db.reopen opts n orphan = some db') :
    db'.vlog.headId = db'.version.vlogHeadId ∧ db'.vlog.written = 0 := by
  unfold Db.reopen at hr
  obtain ⟨db₂, hr, hload⟩ := Option.bind_eq_some_iff.mp hr
  obtain ⟨db₁, hrec, hcomplete⟩ := Option.bind_eq_some_iff.mp hr
  obtain ⟨defs, -, rfl⟩ := Option.map_eq_some_iff.mp hload
  unfold Db.recover at hrec
  obtain ⟨-, heq⟩ := Option.ite_none_right_eq_some.mp hrec
  obtain rfl := Option.some_inj.mp heq
  obtain ⟨db₃, hflush, rfl⟩ := completeOpen_cases hcomplete
  rcases hflush with ⟨-, rfl⟩ | ⟨-, did, hf⟩
  · exact ⟨rfl, rfl⟩
  · rcases Db.flushOne_cases hf with ⟨-, rfl⟩ | ⟨imm, -, ⟨-, rfl⟩ | ⟨run, maxSeq, next, -, rfl⟩⟩
    · exact ⟨rfl, rfl⟩
    · exact ⟨rfl, rfl⟩
    · exact ⟨rfl, rfl⟩

theorem Vlog.le_fileEnd {v : Vlog} {r : VlogRecord} (hr : r ∈ v.records) :
    r.ptr.offset + r.ptr.len ≤ v.fileEnd r.ptr.file := by
  have hmem : r.ptr.offset + r.ptr.len ∈
      (v.records.filter fun r' => decide (r'.ptr.file = r.ptr.file)).map fun r =>
        r.ptr.offset + r.ptr.len :=
    List.mem_map_of_mem (List.mem_filter.mpr ⟨hr, decide_eq_true rfl⟩)
  unfold Vlog.fileEnd
  generalize ((v.records.filter fun r' => decide (r'.ptr.file = r.ptr.file)).map
    fun r => r.ptr.offset + r.ptr.len) = ends at hmem
  induction ends with
  | nil => exact absurd hmem List.not_mem_nil
  | cons x ends ih =>
    rcases List.mem_cons.mp hmem with rfl | hmem
    · exact le_max_left _ _
    · exact le_trans (ih hmem) (le_max_right _ _)

/-- What every open gives. -/
theorem JustOpened.head (h : JustOpened opts db) :
    db.WF ∧ db.vlog.headId = db.version.vlogHeadId ∧ db.vlog.written = 0 ∧
      ∀ id ∈ db.version.vlogs, id ≤ db.version.vlogHeadId := by
  cases h with
  | init => exact ⟨wf_init opts, rfl, rfl, fun id hid => le_of_eq (List.mem_singleton.mp hid)⟩
  | reopen hwf hr =>
    obtain ⟨hhead, hwritten⟩ := reopen_head hr
    obtain ⟨next, run?, hre, hwals, hvlogs, hnext⟩ := reopen_spec hwf hr
    refine ⟨hre.wf hwf hvlogs hnext, hhead, hwritten, fun id hid => ?_⟩
    rw [← hhead, hre.vlog]
    rw [hre.vlogs] at hid
    rcases List.mem_append.mp hid with hid | hid
    · exact le_of_lt (hvlogs id hid)
    · exact le_of_eq (List.mem_singleton.mp hid)

theorem JustOpened.tidy (h : JustOpened opts db) : (VlogPath.opened db).heads.Tidy := by
  obtain ⟨hwf, hhead, hwritten, hnewest⟩ := h.head
  have hfiles : ∀ id, (VlogPath.opened db).heads.files id = if id = db.vlog.headId then some ⟨0, 0⟩
      else if id ∈ db.version.vlogs then some ⟨db.vlog.fileEnd id, db.vlog.fileEnd id⟩ else none :=
        fun _ => rfl
  refine ⟨⟨?_, hnewest, le_of_eq hhead.symm, ⟨?_, Nat.zero_le _⟩, hwf.vlog, fun r hr _ =>
    hwf.vlogs r hr, fun id hid => ?_, fun r hr f hf => ?_, fun id f hf hne => ?_⟩, hhead⟩
  · show db.version.vlogHeadId ∈ db.version.vlogs
    rw [← hhead]
    exact hwf.head
  · rw [hfiles]
    show _ = some (VlogSegment.mk db.vlog.written 0)
    rw [hwritten]
    exact if_pos rfl
  · have hid : id ∈ db.version.vlogs := hid
    rw [hfiles, if_pos hid]
    split <;> rfl
  · have hr : r ∈ db.vlog.records := hr
    rw [hfiles] at hf
    split at hf
    · rename_i hfile
      have hbelow := hwf.vlog.below r hr hfile
      rw [← Option.some_inj.mp hf]
      omega
    · obtain ⟨-, hf⟩ := Option.ite_none_right_eq_some.mp hf
      rw [← Option.some_inj.mp hf]
      exact Vlog.le_fileEnd hr
  · have hne : id ≠ db.vlog.headId := hne
    rw [hfiles, if_neg hne] at hf
    obtain ⟨-, hf⟩ := Option.ite_none_right_eq_some.mp hf
    rw [← Option.some_inj.mp hf]

/-! ### Runs -/

/-- **The head is right throughout a run**: the copies agree whenever the write mutex is
free, and a fork at any instant is sound, by a view of that instant or of any before. -/
def HeadsRight (crc : Bytes → Fin (2 ^ 32)) (opts : Options) (db : Db) (as : List HeadAction)
    (s : VlogPath) : Prop :=
  (∀ n t, (vlogPath crc opts db).run (as.take n) s = some t → t.heads.Agrees) ∧
    (s.instants crc opts as).Pairwise ForkSound ∧ ∀ d ∈ s.instants crc opts as, ForkSound d d

variable {crc : Bytes → Fin (2 ^ 32)} {s s' : VlogPath}

namespace VlogPath

theorem instants_spec (htidy : s.heads.Tidy) {as : List HeadAction}
    (hr : (vlogPath crc opts db).replay (fun s a => ¬ s.FailsHeadDirSync opts a) as s = some s') :
    (∀ t ∈ s.instants crc opts as, t.Sound ∧ s.heads.Grows t) ∧
      (s.instants crc opts as).Pairwise HeadStore.Grows := by
  induction as generalizing s with
  | nil =>
    refine ⟨fun t ht => ?_, List.pairwise_singleton _ _⟩
    rw [List.mem_singleton.mp ht]
    exact ⟨htidy.toSound, .refl _⟩
  | cons a as ih =>
    rw [System.replay, Option.ite_none_right_eq_some] at hr
    obtain ⟨hok, hr⟩ := hr
    obtain ⟨t, ht, hr⟩ := Option.bind_eq_some_iff.mp hr
    have hstep : s.step crc opts a = some t := ht
    obtain ⟨⟨hall, hpair⟩, hends⟩ := step_spec htidy hstep
    rw [if_neg hok] at hends
    obtain ⟨hrest, hrestPair⟩ := ih hends hr
    have hnow : s.heads ∈ s.heads.instants (s.writes opts a) := by
      cases s.writes opts a <;> exact List.mem_cons_self
    have hlast := (hall _ hnow).2.2
    rw [instants, hstep, Option.elim_some]
    refine ⟨fun u hu => ?_, List.pairwise_append.mpr ⟨hpair, hrestPair, fun u hu v hv => ?_⟩⟩
    · rcases List.mem_append.mp hu with hu | hu
      · exact ⟨(hall u hu).1, (hall u hu).2.1⟩
      · exact ⟨(hrest u hu).1, hlast.trans (hrest u hu).2⟩
    · exact (hall u hu).2.2.trans (hrest v hv).2

/-- The copies agree throughout a run exactly if no rotation in it fails at its directory
sync. -/
theorem agrees_iff (htidy : s.heads.Tidy) {as : List HeadAction}
    (hr : (vlogPath crc opts db).run as s = some s') :
    (∀ n t, (vlogPath crc opts db).run (as.take n) s = some t → t.heads.Agrees) ↔
      (vlogPath crc opts db).replay (fun s a => ¬ s.FailsHeadDirSync opts a) as s = some s' := by
  induction as generalizing s with
  | nil =>
    refine iff_of_true (fun n t ht => ?_) hr
    rw [List.take_nil] at ht
    rw [← Option.some_inj.mp ht]
    exact htidy.agrees
  | cons a as ih =>
    obtain ⟨t, ht, hr⟩ := Option.bind_eq_some_iff.mp hr
    have hstep : s.step crc opts a = some t := ht
    have hends := (step_spec htidy hstep).2
    have hrun : ∀ n, (vlogPath crc opts db).run ((a :: as).take (n + 1)) s =
        (vlogPath crc opts db).run (as.take n) t :=
      fun n => by
        rw [List.take_succ_cons, System.run, ht]
        rfl
    by_cases hfails : s.FailsHeadDirSync opts a
    · -- the two ids differ right after it
      rw [if_pos hfails] at hends
      refine iff_of_false (fun hagrees => hends (hagrees 1 t ?_).head) ?_
      · rw [hrun, List.take_zero]
        rfl
      · rw [System.replay, if_neg (not_not_intro hfails)]
        exact fun hnone => absurd hnone (by simp)
    · rw [if_neg hfails] at hends
      rw [System.replay, if_pos hfails, ht, Option.bind_some, ← ih hends hr]
      constructor
      · exact fun hagrees n u hu => hagrees (n + 1) u (by rw [hrun]; exact hu)
      · intro hagrees n u hu
        cases n with
        | zero =>
          rw [← Option.some_inj.mp hu]
          exact htidy.agrees
        | succ n => exact hagrees n u (by rw [← hrun]; exact hu)

end VlogPath

/-- **Agreement on the head**: the copies agree in every state of a run, and forks take the
right files, exactly if no head rotation in it fails at its directory sync. -/
theorem head_agreement (h : JustOpened opts db) {as : List HeadAction}
    (hr : (vlogPath crc opts db).run as (vlogPath crc opts db).init = some s) :
    HeadsRight crc opts db as (vlogPath crc opts db).init ↔
      (vlogPath crc opts db).replay (fun s a => ¬ s.FailsHeadDirSync opts a)
        as (vlogPath crc opts db).init = some s := by
  have htidy := h.tidy
  constructor
  · exact fun hright => (VlogPath.agrees_iff htidy hr).mp hright.1
  · intro hreplay
    obtain ⟨hall, hpair⟩ := VlogPath.instants_spec htidy hreplay
    refine ⟨(VlogPath.agrees_iff htidy hr).mpr hreplay, ?_, fun d hd =>
      (hall d hd).1.fork (hall d hd).1 (.refl d)⟩
    exact hpair.imp_of_mem fun hd hd' hgrows => (hall _ hd).1.fork (hall _ hd').1 hgrows

/-! ### Two runs -/

/-- Every value goes to the value log, which gets a new head after every second write. -/
def headOptions : Options := { relaxedOptions with valueThreshold := 1, vlogFileSize := 16 }

/-- Two writes; a rotation follows the second. -/
def writeThenRotate : List HeadAction :=
  [.path (.check (.direct (smallWrite 1 1))), .path (.apply 0 .none),
    .path (.check (.direct (smallWrite 2 2))), .path (.apply 0 .none), .syncHead, .retire 1]

theorem head_agreement_rotated : ∃ s,
    (vlogPath crc32 headOptions (Db.init headOptions)).run writeThenRotate
      (vlogPath crc32 headOptions (Db.init headOptions)).init = some s ∧
    s.heads.db.version.vlogs = [3] ∧ s.heads.db.vlog.records.length = 2 ∧
    HeadsRight crc32 headOptions (Db.init headOptions) writeThenRotate
      (vlogPath crc32 headOptions (Db.init headOptions)).init := by
  have hreplay : ((vlogPath crc32 headOptions (Db.init headOptions)).replay
      (fun s a => ¬ s.FailsHeadDirSync headOptions a) writeThenRotate
      (vlogPath crc32 headOptions (Db.init headOptions)).init).any
        (fun s => decide (s.heads.db.version.vlogs = [3] ∧ s.heads.db.vlog.records.length = 2)) =
          true := by
    decide +kernel
  obtain ⟨s, hs, hend⟩ := (Option.any_eq_true _ _).mp hreplay
  obtain ⟨hvlogs, hrecords⟩ := of_decide_eq_true hend
  have hrun := System.run_of_replay hs
  exact ⟨s, hrun, hvlogs, hrecords, (head_agreement .init hrun).mpr hs⟩

def headDirSyncFault : Faults := { Faults.none with rotate := some (.syncHeadDir, "device") }

/-- Three writers are past their checks; the rotation after the second write fails at its
directory sync. -/
def writeBehindSwap : List HeadAction :=
  [.path (.check (.direct (smallWrite 1 1))), .path (.check (.direct (smallWrite 2 2))),
    .path (.check (.direct (smallWrite 3 3))), .path (.apply 0 .none),
      .path (.apply 0 headDirSyncFault),
    .path (.apply 0 .none)]

/-- Two heads, and a write that was answered `Ok` and cannot be read. -/
def VlogPath.Split (s : VlogPath) : Prop :=
  s.heads.db.vlog.headId ≠ s.heads.db.version.vlogHeadId ∧ s.path.acked.length = 3 ∧
    s.heads.db.getAtSeq [byte 3] s.heads.db.visibleSeqno =
      .error (.corruption "pointer into unknown vlog file")

instance (s : VlogPath) : Decidable s.Split := inferInstanceAs (Decidable (_ ∧ _ ∧ _))

/-- **Two heads**: the failed rotation has swapped the one and not the other. -/
theorem head_disagreement : ∃ s,
    (vlogPath crc32 headOptions (Db.init headOptions)).run writeBehindSwap
      (vlogPath crc32 headOptions (Db.init headOptions)).init = some s ∧ s.Split ∧
    ¬ HeadsRight crc32 headOptions (Db.init headOptions) writeBehindSwap
      (vlogPath crc32 headOptions (Db.init headOptions)).init := by
  have hrun : ((vlogPath crc32 headOptions (Db.init headOptions)).run writeBehindSwap
      (vlogPath crc32 headOptions (Db.init headOptions)).init).any
        (fun s => decide s.Split) = true := by
    decide +kernel
  obtain ⟨s, hs, hsplit⟩ := (Option.any_eq_true _ _).mp hrun
  have hsplit := of_decide_eq_true hsplit
  exact ⟨s, hs, hsplit, fun hright => hsplit.1 (hright.1 6 s hs).head⟩

end Fluent31
