/-
A group apply under failing file operations, batch by batch (`db.rs`).

* `groupPlan_shape` — a group's plan writes, publishes what it has appended and
  rotates only where nothing failed;
* `group_atomic_iff` — a group is failure-atomic per batch, at every failing
  operation, unless a batch in front of another accepted one has a record over
  the WAL limit that phase 0 let pass.

The estimate of phase 0 counts sixteen bytes beside the key of a delete, the
record has nineteen: `group_not_atomic` is the gap, and with a usual value
threshold there is no other (`encodeBatch_long_iff`).  The committer forms no such
group (`GroupChunk.lean`).
-/
import Fluent31.WriteSteps
import Fluent31.RecordSize

namespace Fluent31

/-- A step of a rotation other than the sync that seals a file. -/
def WriteStep.rotates : WriteStep → Bool
  | allocId | createWal _ | freeze _ | createHead _ | swapHead _ | adoptHead _ => true
  | _ => false

/-- Batches one after the other from seqno `n` on, up to before `m`. -/
def Consecutive : ℕ → List (ℕ × List EncEntry) → ℕ → Prop
  | n, [], m => n = m
  | n, r :: rest, m => r.1 = n ∧ Consecutive (n + r.2.length) rest m

theorem Consecutive.last {n m : ℕ} {xs : List (ℕ × List EncEntry)} (h : Consecutive n xs m) :
    m = (xs.getLast?.map fun r => r.1 + r.2.length).getD n := by
  induction xs generalizing n with
  | nil => exact Eq.symm h
  | cons r rest ih =>
    rw [ih h.2, List.getLast?_cons, ← h.1]
    cases rest.getLast? <;> rfl

theorem Consecutive.le {n m : ℕ} {xs : List (ℕ × List EncEntry)} (h : Consecutive n xs m) :
    ∀ r ∈ xs, n ≤ r.1 := by
  induction xs generalizing n with
  | nil => exact fun r hr => absurd hr List.not_mem_nil
  | cons x rest ih =>
    intro r hr
    rcases List.mem_cons.mp hr with rfl | hr
    · exact le_of_eq h.1.symm
    · exact le_trans (Nat.le_add_right _ _) (ih h.2 r hr)

theorem Outcome.consecutive {opts : Options} {db : Db} {v : Vlog} {n : ℕ} {qs : List QueuedEntry}
    {rs : List (Except Error (ℕ × List EncEntry))} (h : Outcome opts db v n qs rs) :
    ∃ m, Consecutive n (rs.filterMap Except.toOption) m := by
  induction h with
  | nil => exact ⟨_, rfl⟩
  | rejected _ _ ih => exact ih
  | accepted _ _ _ ih =>
    obtain ⟨m, hm⟩ := ih
    exact ⟨m, rfl, hm⟩

namespace Db

variable (opts : Options) (db : Db) (batches : List (List BatchOp × Bool)) (f : Faults)

/-- The batches phase 0 accepts. -/
def accepted : List (Except Error (ℕ × List BatchOp)) :=
  db.groupPhase0 opts (db.visibleSeqno + 1) batches

/-- What phases 0 and 1 hand on where nothing fails. -/
def placed : List (Except Error (ℕ × List EncEntry)) :=
  (groupPhase1 opts.valueThreshold db.vlog (db.accepted opts batches)).2

/-- Phase 3 after the value appends of `f`. -/
def recorded : List (Except Error (ℕ × List EncEntry)) × Option (ℕ × List EncEntry) :=
  groupPhase3Io f.record (db.placePhase opts (db.accepted opts batches) f.place).outcome

/-- An append or a sync of the value log or of the WAL is made and fails. -/
def HardFailure : Prop :=
  (∃ p, f.place = some p ∧ p.1 < (largeOf opts (db.accepted opts batches)).length) ∨
  (f.syncVlog.isSome ∧ opts.sync = .always ∧ largeOf opts (db.accepted opts batches) ≠ []) ∨
  (db.recorded opts batches f).2.isSome ∨
  (f.syncWal.isSome ∧ opts.sync = .always ∧
    (db.recorded opts batches f).1.filterMap Except.toOption ≠ [])

/-- The memtable is as it was, or it has been frozen. -/
def Frozen (d : Db) : Prop :=
  d.mem = db.mem ∧ d.imms = db.imms ∨ (∃ id, d.mem = Memtable.new id) ∧ d.imms = db.mem :: db.imms

/-- A group apply is failure-atomic per batch. -/
structure GroupAtomic : Prop where
  /-- Every batch gets a result; an accepted one is encoded under the seqnos it
  was given. -/
  answered : ∃ v, Outcome opts db v (db.visibleSeqno + 1) (batches.map fun b => ⟨b.1, none, b.2⟩)
    (db.groupPlan opts batches f).outcome
  /-- The batches with `Ok` take the next seqnos, without a gap, and the visible
  seqno is the end of them. -/
  consecutive : Consecutive (db.visibleSeqno + 1) (db.groupPlan opts batches f).appended
    ((db.performAll (db.groupPlan opts batches f).steps).visibleSeqno + 1)
  /-- The memtable got the entries of these batches, no others; a rotation may
  have frozen it since. -/
  inserted : Frozen
    { db with
      mem := db.mem.insertAll
        ((db.groupPlan opts batches f).appended.flatMap fun r => versionsFrom r.1 r.2) }
    (db.performAll (db.groupPlan opts batches f).steps)
  /-- Without a hard failure only the size and the seqno check reject a batch. -/
  rejected : ¬ db.HardFailure opts batches f →
    ∀ err, .error err ∈ (db.groupPlan opts batches f).outcome → err = oversizeError ∨
      err = exhaustedError
  /-- A hard failure degrades the store, and there is no rotation. -/
  degraded : db.HardFailure opts batches f → (db.groupPlan opts batches f).failed.isSome = true ∧
    ∀ s ∈ (db.groupPlan opts batches f).steps, s.rotates = false

/-- Of the batches that pass the checks only the last may have a record over the
limit. -/
def LongOnlyLast : List (Except Error (ℕ × List EncEntry)) → Prop
  | [] => True
  | .error _ :: rest => LongOnlyLast rest
  | .ok (base, es) :: rest =>
    (WAL_RECORD_LIMIT ≤ (encodeBatch base es).length → rest.filterMap Except.toOption = []) ∧
      LongOnlyLast rest

variable {opts db batches f}

/-! ### Phases -/

theorem groupPhase0_errors (n : ℕ) (err : Error) (h : .error err ∈ db.groupPhase0 opts n batches) :
    err = oversizeError ∨ err = exhaustedError := by
  induction batches generalizing n with
  | nil => exact absurd h List.not_mem_nil
  | cons b rest ih =>
    obtain ⟨ops, capture⟩ := b
    rw [groupPhase0] at h
    split at h
    · rcases List.mem_cons.mp h with heq | h
      · exact Or.inl (Except.error.inj heq)
      · exact ih _ h
    · split at h
      · rcases List.mem_cons.mp h with heq | h
        · exact Or.inr (Except.error.inj heq)
        · exact ih _ h
      · rcases List.mem_cons.mp h with heq | h
        · exact absurd heq (by simp)
        · exact ih _ h

/-- Placing values rejects no batch. -/
theorem groupPhase1_errors {threshold : ℕ} {v : Vlog}
    {accepted : List (Except Error (ℕ × List BatchOp))}
    {err : Error} (h : .error err ∈ (groupPhase1 threshold v accepted).2) :
    .error err ∈ accepted := by
  induction accepted generalizing v with
  | nil => exact absurd h List.not_mem_nil
  | cons r rest ih =>
    cases r with
    | error e =>
      rcases List.mem_cons.mp h with heq | h
      · exact List.mem_cons.mpr (Or.inl (congrArg Except.error (Except.error.inj heq)))
      · exact List.mem_cons_of_mem _ (ih h)
    | ok r =>
      rcases List.mem_cons.mp h with heq | h
      · exact absurd heq (by simp)
      · exact List.mem_cons_of_mem _ (ih h)

/-- A phase 3 whose appends all succeed. -/
theorem groupPhase3Io_of_none {fault : Option (ℕ × ℕ × String)}
    {rs : List (Except Error (ℕ × List EncEntry))}
    (h : (groupPhase3Io fault rs).2 = none) : (groupPhase3Io fault rs).1 = groupPhase3 rs := by
  induction rs generalizing fault with
  | nil => rfl
  | cons r rest ih =>
    cases r with
    | error e =>
      have hrest : (groupPhase3Io fault rest).2 = none := by
        simpa only [groupPhase3Io] using h
      show (groupPhase3Io fault (.error e :: rest)).1 = .error e :: groupPhase3 rest
      rw [← ih hrest]
      simp only [groupPhase3Io]
    | ok r =>
      obtain ⟨base, es⟩ := r
      unfold groupPhase3Io at h ⊢
      rw [groupPhase3]
      split
      · rfl
      · rename_i hlen
        rw [if_neg hlen] at h
        rcases fault with _ | ⟨_ | done, len, msg⟩
        · exact congrArg (_ :: ·) (ih h)
        · exact absurd h (by simp)
        · exact congrArg (_ :: ·) (ih h)

theorem longOnlyLast_of_nil {rs : List (Except Error (ℕ × List EncEntry))}
    (h : rs.filterMap Except.toOption = []) : LongOnlyLast rs := by
  induction rs with
  | nil => trivial
  | cons r rest ih =>
    cases r with
    | error e => exact ih h
    | ok r => exact absurd h (by simp [Except.toOption])

/-- Phase 3 aborts a batch exactly where one before it has a record too long. -/
theorem groupPhase3_errors_iff {rs : List (Except Error (ℕ × List EncEntry))}
    (hrs : ∀ err, .error err ∈ rs → err = oversizeError ∨ err = exhaustedError) :
    (∀ err, .error err ∈ groupPhase3 rs → err = oversizeError ∨ err = exhaustedError) ↔
      LongOnlyLast rs := by
  induction rs with
  | nil => exact ⟨fun _ => trivial, fun _ err h => absurd h List.not_mem_nil⟩
  | cons r rest ih =>
    have hrest : ∀ err, .error err ∈ rest → err = oversizeError ∨ err = exhaustedError :=
      fun err h =>
      hrs err (List.mem_cons_of_mem _ h)
    cases r with
    | error e =>
      rw [groupPhase3, LongOnlyLast, ← ih hrest]
      refine ⟨fun h err herr => h err (List.mem_cons_of_mem _ herr), fun h err herr => ?_⟩
      rcases List.mem_cons.mp herr with heq | herr
      · exact hrs err (List.mem_cons.mpr (Or.inl heq))
      · exact h err herr
    | ok r =>
      obtain ⟨base, es⟩ := r
      rw [groupPhase3, LongOnlyLast]
      by_cases hlen : WAL_RECORD_LIMIT ≤ (encodeBatch base es).length
      · rw [if_pos hlen]
        constructor
        · intro h
          have hnil : rest.filterMap Except.toOption = [] := by
            rw [List.filterMap_eq_nil_iff]
            intro r hr
            cases r with
            | error e => rfl
            | ok r =>
              -- a batch behind it would be aborted
              have habort := h abortedError
                (List.mem_cons_of_mem _ (List.mem_map.mpr ⟨.ok r, hr, rfl⟩))
              exact absurd habort (by simp [abortedError, oversizeError, exhaustedError])
          exact ⟨fun _ => hnil, longOnlyLast_of_nil hnil⟩
        · rintro ⟨hnil, -⟩ err herr
          rcases List.mem_cons.mp herr with heq | herr
          · exact Or.inl (Except.error.inj heq)
          · obtain ⟨r, hr, heq⟩ := List.mem_map.mp herr
            cases r with
            | error e =>
              obtain rfl : e = err := Except.error.inj heq
              exact hrest e hr
            | ok r => exact absurd (List.filterMap_eq_nil_iff.mp
              (hnil hlen) _ hr) (by simp [Except.toOption])
      · rw [if_neg hlen, ← ih hrest]
        refine ⟨fun h =>
          ⟨fun hle => absurd hle hlen, fun err herr => h err (List.mem_cons_of_mem _ herr)⟩,
          fun h err herr => ?_⟩
        rcases List.mem_cons.mp herr with heq | herr
        · exact absurd heq (by simp)
        · exact h.2 err herr

/-! ### The plan -/

theorem placePhase_failed_iff :
    (db.placePhase opts (db.accepted opts batches) f.place).failed.isSome = true ↔
      ∃ p, f.place = some p ∧ p.1 < (largeOf opts (db.accepted opts batches)).length := by
  unfold placePhase
  cases f.place <;> simp

theorem groupPhase3Io_lost {fault : Option (ℕ × ℕ × String)}
    {rs : List (Except Error (ℕ × List EncEntry))}
    (h : (groupPhase3Io fault rs).2.isSome = true) : fault.isSome = true := by
  cases fault with
  | some _ => rfl
  | none =>
    rw [groupPhase3Io_none] at h
    exact absurd h (by simp)

/-- A phase that records fails when it has failed before or loses a record. -/
theorem recordPhase_failed (p : Plan) (fault : Option (ℕ × ℕ × String)) :
    (recordPhase p fault).failed.isSome = true ↔
      p.failed.isSome = true ∨ (groupPhase3Io fault p.outcome).2.isSome = true := by
  unfold recordPhase
  simp only
  cases hp : p.failed with
  | some msg => simp
  | none =>
    cases hlost : (groupPhase3Io fault p.outcome).2 with
    | none => simp
    | some r =>
      obtain ⟨q, rfl⟩ := Option.isSome_iff_exists.mp (groupPhase3Io_lost (by rw [hlost]; rfl))
      simp

/-- A sync that is made where it would fail. -/
theorem not_failing {fault : Option String} {c : Prop} [Decidable c]
    (h : (fault.filter fun _ => decide c) = none) : ¬ (fault.isSome = true ∧ c) := by
  rintro ⟨hsome, hc⟩
  obtain ⟨msg, hmsg⟩ := Option.isSome_iff_exists.mp hsome
  exact Option.filter_eq_none_iff.mp h msg hmsg (decide_eq_true hc)

/-- Steps that publish nothing and rotate nothing. -/
def Writes (steps : List WriteStep) : Prop := ∀ s ∈ steps, s.silent = true ∧ s.rotates = false

theorem writes_append {steps steps' : List WriteStep} :
    Writes (steps ++ steps') ↔ Writes steps ∧ Writes steps' :=
  List.forall_mem_append

theorem writes_sync (c : Prop) [Decidable c] {s : WriteStep}
    (hs : s.silent = true ∧ s.rotates = false) :
    Writes (if c then [s] else []) := by
  split
  · exact fun x hx => (List.mem_singleton.mp hx) ▸ hs
  · exact fun x hx => absurd hx List.not_mem_nil

theorem writes_placePhase (accepted : List (Except Error (ℕ × List BatchOp)))
    (fault : Option (ℕ × String)) :
    Writes (db.placePhase opts accepted fault).steps := by
  intro s hs
  obtain ⟨p, -, rfl⟩ := List.mem_map.mp hs
  exact ⟨rfl, rfl⟩

theorem writes_recordPhase {p : Plan} (h : Writes p.steps) (fault : Option (ℕ × ℕ × String)) :
    Writes (recordPhase p fault).steps := by
  refine writes_append.mpr ⟨writes_append.mpr ⟨h, fun s hs => ?_⟩, fun s hs => ?_⟩
  · obtain ⟨r, -, rfl⟩ := List.mem_map.mp hs
    exact ⟨rfl, rfl⟩
  · obtain ⟨r, -, hr⟩ := Option.bind_eq_some_iff.mp (Option.mem_toList.mp hs)
    obtain ⟨q, -, rfl⟩ := Option.map_eq_some_iff.mp hr
    exact ⟨rfl, rfl⟩

variable (opts db batches f) in
/-- Writes, then what the plan publishes, then rotations where nothing failed. -/
def Shape (p : Plan) : Prop :=
  ∃ pre post, Writes pre ∧ p.steps = pre ++ publishSteps p.appended ++ post ∧
    (post = [] ∨ post =
      ((db.performAll (pre ++ publishSteps p.appended)).rotateSteps opts f.rotate).1) ∧
    (db.HardFailure opts batches f → post = [] ∧ p.failed.isSome = true) ∧
    (¬ db.HardFailure opts batches f → p.outcome = groupPhase3 (db.placed opts batches))

theorem shape_stop {p : Plan} (what msg : String) (hp : Writes p.steps)
    (hhard : db.HardFailure opts batches f) :
    db.Shape opts batches f (p.stop what msg) := by
  have hnone : (p.stop what msg).appended = [] := failAll_toOption msg p.outcome
  refine ⟨p.steps, [], hp, ?_, Or.inl rfl, fun _ => ⟨rfl, ?_⟩, fun hnone => absurd hhard hnone⟩
  · rw [hnone]
    simp [publishSteps, Plan.stop]
  · show (p.failed <|> some _).isSome = true
    cases p.failed <;> rfl

theorem shape_publishPhase {p : Plan} (hp : Writes p.steps)
    (hhard : db.HardFailure opts batches f → p.failed.isSome = true)
    (hout : ¬ db.HardFailure opts batches f → p.outcome = groupPhase3 (db.placed opts batches)) :
    db.Shape opts batches f (db.publishPhase opts p f.rotate) := by
  unfold publishPhase
  simp only
  split
  · exact ⟨p.steps, [], hp, (List.append_nil _).symm, Or.inl rfl, fun h => ⟨rfl, hhard h⟩, hout⟩
  · rename_i hgo
    refine ⟨p.steps, _, hp, rfl, Or.inr rfl, fun h => absurd (Or.inr (hhard h)) hgo, hout⟩

/-- **A group's plan**: writes, then what it publishes, then rotations where
nothing failed. -/
theorem groupPlan_shape (opts : Options) (db : Db) (batches : List (List BatchOp × Bool))
    (f : Faults) :
    db.Shape opts batches f (db.groupPlan opts batches f) := by
  unfold groupPlan
  simp only
  have hplace := @writes_placePhase opts db (db.accepted opts batches) f.place
  split
  · rename_i msg hsync
    obtain ⟨hmsg, hsyncs⟩ := Option.filter_eq_some_iff.mp hsync
    obtain ⟨halways, hlarge⟩ := of_decide_eq_true hsyncs
    -- the value log did not sync: nothing is published
    exact shape_stop _ _ hplace (Or.inr (Or.inl ⟨by rw [hmsg]; rfl, halways, hlarge⟩))
  · rename_i hvlog
    set synced := (db.placePhase opts (db.accepted opts batches) f.place).add
      (if opts.sync = .always ∧ largeOf opts (db.accepted opts batches) ≠ [] then
        [.syncVlog] else [])
    have hsynced : Writes synced.steps := writes_append.mpr ⟨hplace, writes_sync _ ⟨rfl, rfl⟩⟩
    have hrecord := writes_recordPhase hsynced f.record
    split
    · rename_i msg hsync
      obtain ⟨hmsg, hsyncs⟩ := Option.filter_eq_some_iff.mp hsync
      obtain ⟨halways, happended⟩ := of_decide_eq_true hsyncs
      exact shape_stop _ _ hrecord
        (Or.inr (Or.inr (Or.inr ⟨by rw [hmsg]; rfl, halways, happended⟩)))
    · rename_i hwal
      -- both syncs went through, so a hard failure is one of an append
      refine shape_publishPhase (writes_append.mpr ⟨hrecord, writes_sync _ ⟨rfl, rfl⟩⟩)
        (fun hhard => ?_) fun hhard => ?_
      · refine (recordPhase_failed synced f.record).mpr ?_
        rcases hhard with hplaced | hsync | hlost | hsync
        · exact Or.inl (placePhase_failed_iff.mpr hplaced)
        · exact absurd hsync (not_failing hvlog)
        · exact Or.inr hlost
        · exact absurd hsync (not_failing hwal)
      · -- no append fails, so phases 1 and 3 are those without failures
        have hplaced : (db.placePhase opts (db.accepted opts batches) f.place).outcome =
            db.placed opts batches := by
          have hfilter : (f.place.filter fun p =>
              decide (p.1 < (largeOf opts (db.accepted opts batches)).length)) =
              none := by
            refine Option.filter_eq_none_iff.mpr fun p hp hlt =>
              hhard (Or.inl ⟨p, hp, of_decide_eq_true hlt⟩)
          show groupPhase1Io _ (f.place.filter _) _ _ = _
          rw [hfilter]
          exact (groupPhase1Io_none opts.valueThreshold db.vlog _).1
        have hlost : (groupPhase3Io f.record synced.outcome).2 = none :=
          Option.not_isSome_iff_eq_none.mp fun hlost => hhard (Or.inr (Or.inr (Or.inl hlost)))
        exact (groupPhase3Io_of_none hlost).trans (congrArg groupPhase3 hplaced)

/-! ### What a plan leaves -/

/-- Writes touch neither the memtables nor the visible seqno. -/
theorem writes_performAll (db : Db) {steps : List WriteStep} (h : Writes steps) :
    (db.performAll steps).mem = db.mem ∧ (db.performAll steps).imms = db.imms ∧
      (db.performAll steps).visibleSeqno = db.visibleSeqno := by
  induction steps generalizing db with
  | nil => exact ⟨rfl, rfl, rfl⟩
  | cons step steps ih =>
    obtain ⟨hmem, himms, hvis⟩ := ih (db.perform step) fun s hs => h s (List.mem_cons_of_mem _ hs)
    obtain ⟨hsilent, hstays⟩ := h step List.mem_cons_self
    have hsame : (db.perform step).mem = db.mem ∧ (db.perform step).imms = db.imms ∧
        (db.perform step).visibleSeqno = db.visibleSeqno := by
      cases step with
      | insert _ | visible _ => exact absurd hsilent Bool.false_ne_true
      | freeze _ => exact absurd hstays (by simp [WriteStep.rotates])
      | _ => exact ⟨rfl, rfl, rfl⟩
    exact ⟨hmem.trans hsame.1, himms.trans hsame.2.1, hvis.trans hsame.2.2⟩

theorem frozen_memtableSteps (db : Db) (next : ℕ) (fault : Option (RotateOp × String)) :
    db.Frozen (db.performAll (memtableSteps next fault).1) := by
  unfold memtableSteps
  split
  · exact Or.inl ⟨rfl, rfl⟩
  · exact Or.inl ⟨rfl, rfl⟩
  · exact Or.inl ⟨rfl, rfl⟩
  · exact Or.inl ⟨rfl, rfl⟩
  · exact Or.inr ⟨⟨next, rfl⟩, rfl⟩

theorem headSteps_mem (db : Db) (next : ℕ) (fault : Option (RotateOp × String)) :
    (db.performAll (headSteps next fault).1).mem = db.mem ∧
      (db.performAll (headSteps next fault).1).imms = db.imms := by
  unfold headSteps
  split <;> exact ⟨rfl, rfl⟩

theorem frozen_rotateSteps (opts : Options) (db : Db) (fault : Option (RotateOp × String)) :
    db.Frozen (db.performAll (db.rotateSteps opts fault).1) := by
  have hfirst : db.Frozen (db.performAll (if opts.memtableSize ≤ db.mem.approximateBytes then
      memtableSteps db.nextFileId fault else ([], none)).1) := by
    split
    · exact frozen_memtableSteps db _ fault
    · exact Or.inl ⟨rfl, rfl⟩
  have hsecond : ∀ d : Db, (d.performAll (if opts.vlogFileSize ≤ d.vlog.written then
      headSteps d.nextFileId fault else ([], none)).1).mem = d.mem ∧
      (d.performAll (if opts.vlogFileSize ≤ d.vlog.written then
        headSteps d.nextFileId fault else ([], none)).1).imms = d.imms := by
    intro d
    split
    · exact headSteps_mem d _ fault
    · exact ⟨rfl, rfl⟩
  unfold rotateSteps
  simp only
  split
  · exact hfirst
  · -- the head rotation leaves the memtables as the first rotation left them
    rw [performAll_append]
    obtain ⟨hmem, himms⟩ :=
      hsecond (db.performAll (if opts.memtableSize ≤ db.mem.approximateBytes then
      memtableSteps db.nextFileId fault else ([], none)).1)
    unfold Frozen
    rw [hmem, himms]
    exact hfirst

/-- What publishing leaves. -/
theorem published_performAll (db : Db) (appended : List (ℕ × List EncEntry)) :
    let d := db.performAll (publishSteps appended)
    d.mem = db.mem.insertAll (appended.flatMap fun r => versionsFrom r.1 r.2) ∧ d.imms = db.imms ∧
      d.visibleSeqno =
        (appended.getLast?.map fun r => r.1 + r.2.length - 1).getD db.visibleSeqno := by
  have hstream : ∀ (appended : List (ℕ × List EncEntry)) (d : Db),
      (appended.foldl (fun db r => db.publishStream r.1 r.2) d).mem = d.mem ∧
        (appended.foldl (fun db r => db.publishStream r.1 r.2) d).imms = d.imms ∧
        (appended.foldl (fun db r => db.publishStream r.1 r.2) d).visibleSeqno =
          d.visibleSeqno := by
    intro appended
    induction appended with
    | nil => exact fun d => ⟨rfl, rfl, rfl⟩
    | cons r rest ih => exact fun d => ih (d.publishStream r.1 r.2)
  intro d
  unfold d
  rw [performAll_publishSteps]
  obtain ⟨hmem, himms, hvis⟩ :=
    hstream appended (appended.foldl (fun db r => db.insertEntries r.1 r.2) db)
  rw [hmem, himms, hvis, foldl_insertEntries]
  exact ⟨rfl, rfl, rfl⟩

/-- A rotation shows nothing. -/
theorem rotateSteps_visible (opts : Options) (db : Db) (fault : Option (RotateOp × String)) :
    (db.performAll (db.rotateSteps opts fault).1).visibleSeqno = db.visibleSeqno :=
  (performAll_silent db (rotateSteps_silent opts db fault)).2

/-- The store after a plan. -/
theorem Shape.leaves {p : Plan} (h : db.Shape opts batches f p) :
    Frozen { db with mem := db.mem.insertAll (p.appended.flatMap fun r => versionsFrom r.1 r.2) }
      (db.performAll p.steps) ∧
      (db.performAll p.steps).visibleSeqno =
        (p.appended.getLast?.map fun r => r.1 + r.2.length - 1).getD db.visibleSeqno := by
  obtain ⟨pre, post, hpre, hsteps, hpost, -⟩ := h
  obtain ⟨hmem, himms, hvis⟩ := writes_performAll db hpre
  obtain ⟨hmem', himms', hvis'⟩ := published_performAll (db.performAll pre) p.appended
  rw [hmem] at hmem'
  rw [himms] at himms'
  rw [hvis] at hvis'
  rw [hsteps, performAll_append, performAll_append]
  refine ⟨?_, ?_⟩
  · rcases hpost with rfl | rfl
    · exact Or.inl ⟨hmem', himms'⟩
    · rw [performAll_append]
      have hfrozen :=
        frozen_rotateSteps opts ((db.performAll pre).performAll (publishSteps p.appended)) f.rotate
      unfold Frozen at hfrozen
      rw [hmem', himms'] at hfrozen
      exact hfrozen
  · rcases hpost with rfl | rfl
    · exact hvis'
    · rw [performAll_append, rotateSteps_visible]
      exact hvis'

theorem rotates_publishSteps (appended : List (ℕ × List EncEntry)) :
    ∀ s ∈ publishSteps appended, s.rotates = false := by
  intro s hs
  rcases List.mem_append.mp hs with hs | hs
  · rcases List.mem_append.mp hs with hs | hs
    · obtain ⟨e, -, rfl⟩ := List.mem_map.mp hs
      rfl
    · obtain ⟨r, -, rfl⟩ := Option.map_eq_some_iff.mp (Option.mem_toList.mp hs)
      rfl
  · obtain ⟨r, -, rfl⟩ := List.mem_map.mp hs
    rfl

theorem placed_errors (err : Error) (h : .error err ∈ db.placed opts batches) :
    err = oversizeError ∨ err = exhaustedError :=
  groupPhase0_errors _ err (groupPhase1_errors h)

theorem not_hardFailure_none : ¬ db.HardFailure opts batches Faults.none := by
  rintro (⟨p, hp, -⟩ | ⟨hsync, -⟩ | hlost | ⟨hsync, -⟩)
  · exact absurd hp (by simp [Faults.none])
  · exact absurd hsync (by simp [Faults.none])
  · exact absurd (groupPhase3Io_lost hlost) (by simp [Faults.none])
  · exact absurd hsync (by simp [Faults.none])

variable (opts db batches) in
/-- **Failure atomicity of a group**: it holds at every failing operation when,
of the batches that pass the checks, only the last may have a record over the
limit. -/
theorem group_atomic_iff :
    (∀ f, db.GroupAtomic opts batches f) ↔ LongOnlyLast (db.placed opts batches) := by
  rw [← groupPhase3_errors_iff placed_errors]
  constructor
  · intro h err herr
    -- without a failing operation every error stands for a batch that is not applied
    obtain ⟨-, -, -, -, -, -, hout⟩ := groupPlan_shape opts db batches Faults.none
    refine (h Faults.none).rejected not_hardFailure_none err ?_
    rw [hout not_hardFailure_none]
    exact herr
  · intro hlong f
    have hshape := groupPlan_shape opts db batches f
    obtain ⟨hmem, hvis⟩ := hshape.leaves
    obtain ⟨pre, post, hpre, hsteps, -, hhard, hout⟩ := hshape
    have hspec := (groupPlan_spec opts db (batches.map fun b => ⟨b.1, none, b.2⟩) f).1
    have hbatches : (batches.map fun b => (⟨b.1, none, b.2⟩ : QueuedEntry)).map QueuedEntry.batch =
        batches := by
      rw [List.map_map]
      exact List.map_id' _
    rw [hbatches] at hspec
    obtain ⟨v, hv⟩ := hspec
    refine ⟨⟨v, hv⟩, ?_, ?_, fun hno err herr => ?_, fun hfail => ⟨(hhard hfail).2, fun s hs => ?_⟩⟩
    · -- the appended records are consecutive, up to the visible seqno
      obtain ⟨m, hm⟩ := hv.consecutive
      have hend : (db.performAll (db.groupPlan opts batches f).steps).visibleSeqno + 1 = m := by
        rw [hvis, hm.last]
        cases hlast : (db.groupPlan opts batches f).appended.getLast? with
        | none => exact (congrArg (fun o => (Option.map _ o).getD _) hlast).symm
        | some r =>
          have hle := hm.le r (List.mem_of_getLast? hlast)
          refine Eq.trans ?_ (congrArg (fun o => (Option.map _ o).getD _) hlast).symm
          show r.1 + r.2.length - 1 + 1 = r.1 + r.2.length
          omega
      rw [hend]
      exact hm
    · exact hmem
    · rw [hout hno] at herr
      exact hlong err herr
    · rw [hsteps, (hhard hfail).1, List.append_nil] at hs
      rcases List.mem_append.mp hs with hs | hs
      · exact (hpre s hs).2
      · exact rotates_publishSteps _ s hs

/-- A delete of a key of `2 ^ 30 - 18` bytes passes the estimate, its record does
not pass the limit, and the batch behind it is aborted. -/
theorem not_longOnlyLast (db : Db) (h : db.visibleSeqno = 0) (hopts : 13 ≤ opts.valueThreshold)
    {key : Bytes} (hkey : key.length = 2 ^ 30 - 18) (key' : Bytes) (hkey' : key'.length = 1) :
    ¬ LongOnlyLast (db.placed opts [([.delete key], false), ([.delete key'], false)]) := by
  have hlimit : WAL_RECORD_LIMIT = 1073741824 := rfl
  have hsize : approxSize [.delete key] < WAL_RECORD_LIMIT := by
    simp only [approxSize, BatchOp.approxSize, List.map_cons, List.map_nil, List.sum_cons,
      List.sum_nil]
    omega
  have hsize' : approxSize [.delete key'] < WAL_RECORD_LIMIT := by
    simp only [approxSize, BatchOp.approxSize, List.map_cons, List.map_nil, List.sum_cons,
      List.sum_nil]
    omega
  have haccepted : db.accepted opts [([.delete key], false), ([.delete key'], false)] =
      [.ok (1, [.delete key]), .ok (2, [.delete key'])] := by
    unfold accepted
    rw [h]
    show (if WAL_RECORD_LIMIT ≤ approxSize [.delete key] then _ else if MAX_SEQNO ≤ 0 + 1 + 1 then
      _ else _) = _
    rw [if_neg (not_le.mpr hsize), if_neg (by decide)]
    show Except.ok _ :: (if WAL_RECORD_LIMIT ≤ approxSize [.delete key'] then _ else
      if MAX_SEQNO ≤ 0 + 1 + 1 + 1 then _ else _) = _
    rw [if_neg (not_le.mpr hsize'), if_neg (by decide)]
    rfl
  unfold placed
  rw [haccepted]
  intro hlong
  have hbehind :=
    hlong.1 ((encodeBatch_long_iff (v := db.vlog) hopts hsize).mpr ⟨key, rfl, by omega⟩)
  exact absurd hbehind (by simp [Except.toOption])

/-- **A group is not failure-atomic**: phase 0 lets a delete pass whose record is
too long, and no operation fails. -/
theorem group_not_atomic :
    ¬ ∀ f, (init (Options.default plainFormat)).GroupAtomic (Options.default plainFormat)
      [([.delete (List.replicate (2 ^ 30 - 18) 0)], false), ([.delete [1]], false)] f := by
  rw [group_atomic_iff]
  exact not_longOnlyLast _ rfl (by decide) List.length_replicate [1] rfl

end Db

end Fluent31
