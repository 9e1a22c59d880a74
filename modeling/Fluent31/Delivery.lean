/-
Ownership of the commit queue's waiters.

A waiter is in one place at a time: on the queue, drained and owned by the
committer, or answered (`QueueInv`).  The panic guard covers one chunk, so this
holds in every run in which the committer panics only while its guard covers
everything it has drained (`CommitQueue.Shielded`).

* `aside_frame` — steps of other threads leave the queue alone;
* `commitGroupPlan_published`, `commitGroupPlan_spec` — what a chunk answers and
  publishes, and what stopping midway leaves;
* `commitGroupPlan_sound` — without failing writes it is the chunk of the entries whose
  checks could be read;
* `queueInv_of_reaches` — the ownership invariant.
-/
import Fluent31.CommitQueue
import Fluent31.Reachable

namespace Fluent31

variable {opts : Options} {e e' : Engine}

/-! ### Steps of other threads -/

theorem Db.Grows.of_eq {db d : Db} (hpub : d.published = db.published)
    (hvis : d.visibleSeqno = db.visibleSeqno) : db.Grows d :=
  ⟨hpub ▸ List.prefix_rfl, le_of_eq hvis.symm⟩

theorem rotateAfterWrite_grows (opts : Options) (db : Db) :
    db.Grows (db.rotateAfterWrite opts) := by
  unfold Db.rotateAfterWrite
  simp only
  split <;> split <;> exact .of_eq rfl rfl

theorem applyLocked_grows (opts : Options) (db : Db) (ops : List BatchOp) (capture : Bool) :
    db.Grows (db.applyLocked opts ops capture).1 := by
  rcases applyLocked_cases opts db ops capture with ⟨err, heq⟩ | ⟨err, heq⟩ | ⟨-, heq⟩
  · rw [heq]
    exact .refl db
  · rw [heq]
    exact .of_eq rfl rfl
  · rw [heq]
    refine .trans ⟨List.prefix_append _ _, ?_⟩ (rotateAfterWrite_grows opts _)
    show db.visibleSeqno ≤ db.visibleSeqno + 1 + _ - 1
    omega

theorem flushOne_grows {db db' : Db} {did : Bool} (h : db.flushOne opts = some (db', did)) :
    db.Grows db' := by
  rcases Db.flushOne_cases h with ⟨-, rfl⟩ | ⟨imm, -, ⟨-, rfl⟩ | ⟨run, maxSeq, next, -, rfl⟩⟩
  · exact .refl _
  · exact .of_eq rfl rfl
  · exact .of_eq rfl rfl

theorem scheduler_grows (opts : Options) {db db' : Db} {s s' : Scheduler}
    (h : s.schedule opts db = some (s', db') ∨ s.start db = some (s', db') ∨
      s.slice opts db = some (s', db')) : db.Grows db' := by
  rcases h with h | h | h
  · unfold Scheduler.schedule at h
    split at h
    · split at h
      · obtain ⟨⟨work, d⟩, hpick, heq⟩ := Option.map_eq_some_iff.mp h
        obtain ⟨-, rfl⟩ := Prod.mk.inj heq
        unfold Db.pick at hpick
        simp only at hpick
        split at hpick
        · exact (Prod.mk.inj (Option.some_inj.mp hpick)).2 ▸ .refl db
        · split at hpick
          · exact (Prod.mk.inj (Option.some_inj.mp hpick)).2 ▸ .refl db
          · split at hpick
            · obtain ⟨job, -, heq⟩ := Option.map_eq_some_iff.mp hpick
              exact (Prod.mk.inj heq).2 ▸ .of_eq rfl rfl
            · exact absurd hpick (by simp)
      · split at h <;> exact (Prod.mk.inj (Option.some_inj.mp h)).2 ▸ .refl db
    · exact absurd h (by simp)
  · obtain ⟨job, -, -, -, rfl⟩ | ⟨level, inputs, -, -, -, rfl⟩ := Scheduler.start_cases h
    · exact .of_eq rfl rfl
    · exact .of_eq rfl rfl
  · obtain ⟨j, j', id, exhausted, -, -, ⟨-, -, rfl⟩ | ⟨-, tables, -, -, rfl⟩⟩ :=
      Scheduler.slice_eq_some h
    · exact .of_eq rfl rfl
    · exact .of_eq rfl rfl

/-- Other threads leave the queue alone and take nothing back. -/
theorem aside_frame {a : Action} (ha : a.aside = true) (hs : e.step opts a = some e') :
    e'.queue = e.queue ∧ e.db.Grows e'.db := by
  cases a with
  | commit _ | enqueue _ | withdraw _ | group _ | reopen _ _ => exact absurd ha Bool.false_ne_true
  | relocate records =>
    obtain ⟨-, rfl⟩ := Engine.guarded_eq_some hs
    unfold Engine.relocate
    simp only
    split
    · exact ⟨rfl, .refl _⟩
    · split <;> exact ⟨rfl, applyLocked_grows opts e.db _ false⟩
  | rotate =>
    obtain rfl := Option.some_inj.mp hs
    refine ⟨rfl, ?_⟩
    show e.db.Grows e.db.forceRotate
    unfold Db.forceRotate
    split <;> exact .of_eq rfl rfl
  | flush =>
    obtain ⟨⟨db', did⟩, hflush, rfl⟩ := Option.map_eq_some_iff.mp hs
    exact ⟨rfl, flushOne_grows hflush⟩
  | schedExit | snapshot | snapshotFlushed =>
    obtain rfl := Option.some_inj.mp hs
    exact ⟨rfl, .of_eq rfl rfl⟩
  -- the scheduler: a job writes no batch, and takes none back
  | schedPreempt =>
    obtain ⟨s, -, hs⟩ := Option.bind_eq_some_iff.mp hs
    obtain ⟨r, -, rfl⟩ := Option.map_eq_some_iff.mp hs
    exact ⟨rfl, .refl _⟩
  | schedSchedule =>
    obtain ⟨s, -, hs⟩ := Option.bind_eq_some_iff.mp hs
    obtain ⟨⟨s', db'⟩, hsched, rfl⟩ := Option.map_eq_some_iff.mp hs
    exact ⟨rfl, scheduler_grows opts (Or.inl hsched)⟩
  | schedStart =>
    unfold Engine.step Engine.schedStart at hs
    obtain ⟨s, -, hs⟩ := Option.bind_eq_some_iff.mp hs
    obtain ⟨⟨s', db'⟩, hstart, rfl⟩ := Option.map_eq_some_iff.mp hs
    exact ⟨rfl, scheduler_grows opts (Or.inr (Or.inl hstart))⟩
  | schedSlice =>
    obtain ⟨s, -, hs⟩ := Option.bind_eq_some_iff.mp hs
    obtain ⟨⟨s', db'⟩, hslice, rfl⟩ := Option.map_eq_some_iff.mp hs
    exact ⟨rfl, scheduler_grows opts (Or.inr (Or.inr hslice))⟩
  | snapshotAt seq =>
    obtain ⟨db', hdb, rfl⟩ := Option.map_eq_some_iff.mp hs
    refine ⟨rfl, ?_⟩
    unfold Db.tryRegisterSnapshotAt at hdb
    simp only at hdb
    split at hdb
    · exact absurd hdb (by simp [Except.toOption])
    · split at hdb
      · exact absurd hdb (by simp [Except.toOption])
      · exact Option.some_inj.mp hdb ▸ .of_eq rfl rfl
  | pin name =>
    obtain ⟨db', hdb, rfl⟩ := Option.map_eq_some_iff.mp hs
    refine ⟨rfl, ?_⟩
    unfold Db.pin at hdb
    split at hdb
    · exact absurd hdb (by simp [Except.toOption])
    · exact Option.some_inj.mp hdb ▸ .of_eq rfl rfl
  | unpin name =>
    obtain ⟨db', hdb, rfl⟩ := Option.map_eq_some_iff.mp hs
    refine ⟨rfl, ?_⟩
    unfold Db.unpin at hdb
    split at hdb
    · exact absurd hdb (by simp [Except.toOption])
    · exact Option.some_inj.mp hdb ▸ .of_eq rfl rfl
  | schedBegin _ | advance _ _ | release _ | createTrigger _ | deleteTrigger _ | deleteDone
  | clearLook _
  | clearRead _ =>
    obtain ⟨-, rfl⟩ := Engine.guarded_eq_some hs
    exact ⟨rfl, .of_eq rfl rfl⟩

/-! ### Answers of a chunk -/

/-- The records of the entries answered `Ok`. -/
def answeredRecords (answers : List (Except Error (Option (ℕ × List EncEntry)))) :
    List (ℕ × List EncEntry) :=
  answers.filterMap fun a => a.toOption.join

/-- The answers of a chunk: an entry answered `Ok` either had nothing to apply or was
committed, and the commits are those of the outcome. -/
structure ChunkAnswers (opts : Options) (db : Db) (v : Vlog) (qs : List QueuedEntry)
    (out : List (Except Error (ℕ × List EncEntry)))
    (answers : List (Except Error (Option (ℕ × List EncEntry)))) : Prop where
  length : answers.length = qs.length
  records : answeredRecords answers = out.filterMap Except.toOption
  okay : ∀ p ∈ qs.zip answers, ∀ r?, p.2 = .ok r? → (r? = none → p.1.ops = []) ∧ ∀ r ∈ r?,
    v.Encodes (p.1.ops ++ db.captureEvents opts p.1.ops r.1 p.1.capture) r.2

/-- An entry that is not applied is answered by itself. -/
theorem ChunkAnswers.skip {db : Db} {v : Vlog} {q : QueuedEntry} {qs : List QueuedEntry}
    {out : List (Except Error (ℕ × List EncEntry))} {a : Except Error (Option (ℕ × List EncEntry))}
    {answers : List (Except Error (Option (ℕ × List EncEntry)))}
    (h : ChunkAnswers opts db v qs out answers)
    (ha : (∃ err, a = .error err) ∨ a = .ok none ∧ q.ops = []) :
    ChunkAnswers opts db v (q :: qs) out (a :: answers) := by
  refine ⟨congrArg (· + 1) h.length, ?_, fun p hp r? hr => ?_⟩
  · rcases ha with ⟨err, rfl⟩ | ⟨rfl, -⟩ <;> exact h.records
  · rcases List.mem_cons.mp hp with rfl | hp
    · rcases ha with ⟨err, rfl⟩ | ⟨rfl, hops⟩
      · exact absurd hr (by simp)
      · obtain rfl := Except.ok.inj hr
        exact ⟨fun _ => hops, fun r hr => absurd hr (by simp)⟩
    · exact h.okay p hp r? hr

theorem mergeAnswers_spec {db : Db} {v : Vlog} {n : ℕ} {view : ReadView}
    {reads : ℕ → ℕ → Option Error} {written : List Bytes} {qs : List QueuedEntry}
    {out : List (Except Error (ℕ × List EncEntry))}
    (h : Outcome opts db v n (includedEntries (validateGroupIo view reads written qs) qs) out) :
    ChunkAnswers opts db v qs out (mergeAnswers (validateGroupIo view reads written qs) out) := by
  induction qs generalizing reads written n out with
  | nil =>
    cases h
    exact ⟨rfl, rfl, fun p hp => absurd hp List.not_mem_nil⟩
  | cons q qs ih =>
    match hc : q.check view written (reads 0) with
    | .error err =>
      rw [validateGroupIo_failed qs hc] at h ⊢
      exact (ih h).skip (Or.inl ⟨_, rfl⟩)
    | .ok true =>
      rw [validateGroupIo_conflict qs hc] at h ⊢
      exact (ih h).skip (Or.inl ⟨_, rfl⟩)
    | .ok false =>
      by_cases hops : q.ops = []
      · -- only locks: `Ok`, with nothing to apply
        rw [validateGroupIo_locks qs hc hops] at h ⊢
        exact (ih h).skip (Or.inr ⟨rfl, hops⟩)
      · -- an included entry takes the next of the outcome
        rw [validateGroupIo_included qs hc hops] at h ⊢
        cases h with
        | @rejected _ _ _ err rs _ h =>
          -- its error adds nothing to the records of the outcome
          have hskip := (ih h).skip (q := q) (a := .error err) (Or.inl ⟨_, rfl⟩)
          exact ⟨hskip.length, hskip.records, hskip.okay⟩
        | @accepted _ _ _ es rs henc _ h =>
          obtain ⟨hlen, hrecs, hans⟩ := ih h
          refine ⟨congrArg (· + 1) hlen, congrArg (_ :: ·) hrecs, fun p hp r? hr => ?_⟩
          rcases List.mem_cons.mp hp with rfl | hp
          · obtain rfl := Except.ok.inj hr
            refine ⟨fun hr => absurd hr (by simp), fun r hr => ?_⟩
            obtain rfl := Option.some_inj.mp hr
            exact henc
          · exact hans p hp r? hr

/-- **A chunk publishes what it answers `Ok`**, in the order of its entries, and
nothing else. -/
theorem commitGroupPlan_published (opts : Options) (db : Db) (qs : List QueuedEntry) (f : Faults) :
    let r := db.commitGroupPlan opts qs f
    r.2.length = qs.length ∧ r.1.appended = answeredRecords r.2 ∧
      (db.performAll r.1.steps).published = db.published ++ answeredRecords r.2 ∧
      (∀ b ∈ answeredRecords r.2, b.1 + b.2.length ≤ (db.performAll r.1.steps).visibleSeqno + 1) ∧
      ∀ p ∈ qs.zip r.2, ∀ b?, p.2 = .ok b? → (b? = none → p.1.ops = []) ∧ ∀ b ∈ b?,
        ∃ v : Vlog, v.Encodes (p.1.ops ++ db.captureEvents opts p.1.ops b.1 p.1.capture) b.2 := by
  intro r
  set included := includedEntries (validateGroupIo db.readView f.reads [] qs) qs with hincluded
  have hne : ∀ q ∈ included, q.ops ≠ [] := fun q hq => ops_ne_nil_of_included hq
  by_cases hempty : included = []
  · -- nothing to apply: conflicts and locks only
    have hr : r.1 = ⟨[], [], none⟩ := if_pos (by rw [← hincluded, hempty]; rfl)
    have hout : Outcome opts db db.vlog 0 included r.1.outcome := by
      rw [hr, hempty]
      exact .nil
    obtain ⟨hlen, hrecs, hans⟩ := mergeAnswers_spec hout
    have hnil : answeredRecords r.2 = [] := by
      refine hrecs.trans ?_
      rw [hr]
      rfl
    refine ⟨hlen, hrecs.symm, ?_, ?_, fun p hp b? hb => ⟨(hans p hp b? hb).1, fun b hb' =>
      ⟨_, (hans p hp b? hb).2 b hb'⟩⟩⟩
    · rw [hnil, List.append_nil, hr]
      rfl
    · rw [hnil]
      exact fun b hb => absurd hb List.not_mem_nil
  · have hr : r.1 = db.groupPlan opts (included.map QueuedEntry.batch) f :=
      if_neg (by rw [← hincluded]; simpa using hempty)
    obtain ⟨⟨v, hout⟩, -⟩ := groupPlan_spec opts db included f
    obtain ⟨hpub, hvis⟩ := groupPlan_shown opts db hne f
    rw [← hr] at hout hpub hvis
    obtain ⟨hlen, hrecs, hans⟩ := mergeAnswers_spec hout
    have happended : r.1.appended = answeredRecords r.2 := hrecs.symm
    exact ⟨hlen, happended, happended ▸ hpub, happended ▸ hvis, fun p hp b? hb =>
      ⟨(hans p hp b? hb).1, fun b hb' => ⟨v, (hans p hp b? hb).2 b hb'⟩⟩⟩

theorem mem_answeredRecords {answers : List (Except Error (Option (ℕ × List EncEntry)))}
    {b : ℕ × List EncEntry} (h : .ok (some b) ∈ answers) : b ∈ answeredRecords answers :=
  List.mem_filterMap.mpr ⟨_, h, rfl⟩

/-- **A chunk**: every entry is answered; one that was committed is offered to
subscribers and covered by the visible seqno; stopping midway takes nothing
back. -/
theorem commitGroupPlan_spec (opts : Options) (db : Db) (qs : List QueuedEntry) (f : Faults) :
    let r := db.commitGroupPlan opts qs f
    r.2.length = qs.length ∧
      (∀ p ∈ qs.zip r.2, ∀ b?, p.2 = .ok b? → (b? = none → p.1.ops = []) ∧ ∀ b ∈ b?,
        b ∈ (db.performAll r.1.steps).published ∧
          b.1 + b.2.length ≤ (db.performAll r.1.steps).visibleSeqno + 1 ∧
          ∃ (v : Vlog) (events : List BatchOp), v.Encodes (p.1.ops ++ events) b.2) ∧
      ∀ k, db.Grows (db.performAll (r.1.steps.take k)) := by
  intro r
  obtain ⟨hlen, -, hpub, hvis, hans⟩ := commitGroupPlan_published opts db qs f
  refine ⟨hlen, fun p hp b? hb => ⟨(hans p hp b? hb).1, fun b hb' => ?_⟩, fun k => ?_⟩
  · obtain ⟨v, henc⟩ := (hans p hp b? hb).2 b hb'
    obtain rfl := Option.mem_def.mp hb'
    have hmem : b ∈ answeredRecords r.2 := mem_answeredRecords (hb ▸ (List.of_mem_zip hp).2)
    rw [hpub]
    exact ⟨List.mem_append_right _ hmem, hvis b hmem, v, _, henc⟩
  · by_cases hempty :
        (includedEntries (validateGroupIo db.readView f.reads [] qs) qs).isEmpty = true
    · have hr : r.1 = ⟨[], [], none⟩ := if_pos hempty
      rw [hr, List.take_nil]
      exact .refl db
    · have hr : r.1 = db.groupPlan opts
          ((includedEntries (validateGroupIo db.readView f.reads [] qs) qs).map QueuedEntry.batch)
          f := if_neg hempty
      rw [hr]
      exact groupPlan_grows f k

theorem mergeAnswers_read (ds : List Decision) (rs : List (Except Error (ℕ × List EncEntry))) :
    (((ds.zip (mergeAnswers ds rs)).filter fun p => p.1.read).map fun p => p.2.map fun _ => ()) =
      mergeResults (ds.filter Decision.read) (rs.map fun r => r.map fun _ => ()) := by
  induction ds generalizing rs with
  | nil => rfl
  | cons d ds ih =>
    cases d with
    | failed err => exact ih rs
    | conflict => exact congrArg (Except.error .conflict :: ·) (ih rs)
    | locksOnly => exact congrArg (Except.ok () :: ·) (ih rs)
    | included =>
      cases rs with
      | nil => exact congrArg (Except.error abortedError :: ·) (ih [])
      | cons r rs =>
        refine congrArg₂ (· :: ·) ?_ (ih rs)
        cases r <;> rfl

/-- **A chunk whose writes do not fail** is the chunk of the entries whose checks could be
read; the others are answered their errors. -/
theorem commitGroupPlan_sound (opts : Options) (db : Db) (qs : List QueuedEntry)
    (reads : ℕ → ℕ → Option Error) :
    let ds := validateGroupIo db.readView reads [] qs
    let r := db.commitGroupPlan opts qs { Faults.none with reads := reads }
    (db.performAll r.1.steps,
        ((ds.zip r.2).filter fun p => p.1.read).map fun p => p.2.map fun _ => ()) =
      db.commitGroup opts (readEntries ds qs) := by
  intro ds r
  obtain ⟨hds, hinc⟩ := validateGroup_readEntries db.readView reads [] qs
  have hanswers : ((ds.zip r.2).filter fun p => p.1.read).map (fun p => p.2.map fun _ => ()) = _ :=
    mergeAnswers_read ds r.1.outcome
  unfold Db.commitGroup
  simp only [ds, hds, hinc]
  set included := includedEntries (validateGroupIo db.readView reads [] qs) qs with hincluded
  by_cases hempty : included = []
  · have hr : r.1 = ⟨[], [], none⟩ := if_pos (by simp [← hincluded, hempty])
    rw [if_pos (by simp [hempty])]
    exact Prod.ext (by rw [hr]; rfl) (hanswers.trans (by rw [hr]; rfl))
  · have hr : r.1 = db.groupPlan opts (included.map QueuedEntry.batch) .none :=
      if_neg (by simpa [← hincluded] using hempty)
    rw [if_neg (by simpa using hempty)]
    obtain ⟨happly, -, -⟩ := Db.groupPlan_sound opts db (included.map QueuedEntry.batch)
    rw [← hr] at happly
    obtain ⟨hsteps, hresults⟩ := Prod.ext_iff.mp happly
    exact Prod.ext hsteps (hanswers.trans (congrArg (mergeResults _) hresults))

/-! ### Ownership -/

namespace Committer

/-- Results on their way to their waiters. -/
def todo : Committer → List (ℕ × Except Error Unit)
  | delivering todo _ _ => todo
  | _ => []

theorem unapplied_sublist (c : Committer) : c.unapplied.Sublist c.owned := by
  cases c with
  | delivering todo group rest => exact List.sublist_append_right _ _
  | _ => exact .refl _

end Committer

variable {s s' : CommitQueue}

namespace CommitQueue

/-- Waiters are there. -/
def Valid (s : CommitQueue) (ids : List ℕ) : Prop := ∀ i ∈ ids, ∃ w, s.waiters[i]? = some w

theorem entries_append (s : CommitQueue) (ids ids' : List ℕ) :
    s.entries (ids ++ ids') = s.entries ids ++ s.entries ids' := List.filterMap_append

theorem entries_cons {i : ℕ} {w : Waiter} (hw : s.waiters[i]? = some w) (ids : List ℕ) :
    s.entries (i :: ids) = w.entry :: s.entries ids := by
  unfold entries
  rw [List.filterMap_cons_some (by rw [hw]; rfl)]

theorem length_entries {ids : List ℕ} (h : s.Valid ids) : (s.entries ids).length = ids.length := by
  induction ids with
  | nil => rfl
  | cons i ids ih =>
    obtain ⟨w, hw⟩ := h i List.mem_cons_self
    rw [entries_cons hw, List.length_cons, List.length_cons,
      ih fun j hj => h j (List.mem_cons_of_mem _ hj)]

theorem drop_entries {ids : List ℕ} (h : s.Valid ids) (ids' : List ℕ) :
    (s.entries (ids ++ ids')).drop ids.length = s.entries ids' := by
  rw [entries_append, ← length_entries h, List.drop_left]

theorem entries_eraseIdx {ids : List ℕ} (h : s.Valid ids) (k : ℕ) :
    (s.entries ids).eraseIdx k = s.entries (ids.eraseIdx k) := by
  induction ids generalizing k with
  | nil => rfl
  | cons i ids ih =>
    obtain ⟨w, hw⟩ := h i List.mem_cons_self
    rw [entries_cons hw]
    cases k with
    | zero => rfl
    | succ k =>
      rw [List.eraseIdx_cons_succ, List.eraseIdx_cons_succ, entries_cons hw,
        ih fun j hj => h j (List.mem_cons_of_mem _ hj)]

/-- Entries only depend on the waiters' entries. -/
theorem entries_congr {ids : List ℕ}
    (h : ∀ i ∈ ids, (s'.waiters[i]?).map Waiter.entry = (s.waiters[i]?).map Waiter.entry) :
    s'.entries ids = s.entries ids := List.filterMap_congr h

theorem mem_zip_entries {α : Type} {ids : List ℕ} {as : List α} (h : s.Valid ids) {i : ℕ} {a : α}
    {w : Waiter} (hmem : (i, a) ∈ ids.zip as) (hw : s.waiters[i]? = some w) :
    (w.entry, a) ∈ (s.entries ids).zip as := by
  induction ids generalizing as with
  | nil => exact absurd hmem List.not_mem_nil
  | cons j ids ih =>
    obtain ⟨w', hw'⟩ := h j List.mem_cons_self
    cases as with
    | nil => exact absurd hmem List.not_mem_nil
    | cons b as =>
      rw [entries_cons hw', List.zip_cons_cons]
      rcases List.mem_cons.mp hmem with heq | hmem
      · obtain ⟨rfl, rfl⟩ := Prod.mk.inj heq
        rw [Option.some_inj.mp (hw.symm.trans hw')]
        exact List.mem_cons_self
      · exact List.mem_cons_of_mem _ (ih (fun j hj => h j (List.mem_cons_of_mem _ hj)) hmem)

/-- Waiter `i` has been answered `Ok`, or will be. -/
def Accepted (s : CommitQueue) (i : ℕ) (w : Waiter) : Prop :=
  w.result = some (.ok ()) ∨ w.returned = some (.delivered (.ok ())) ∨
    (i, .ok ()) ∈ s.committer.todo

/-- The committer panics only while its guard covers everything it drained. -/
def Shielded (s : CommitQueue) : QueueAction → Prop
  | .panic _ _ =>
    match s.committer with
    | .grouped _ [] => True
    | .delivering _ _ [] => True
    | _ => False
  | _ => True

instance (s : CommitQueue) (a : QueueAction) : Decidable (s.Shielded a) := by
  unfold Shielded
  split
  · split <;> infer_instance
  · infer_instance

end CommitQueue

/-- **Ownership.**  A waiter without an answer is owned by the committer or on
the queue, once; what the committer began is never on the queue again. -/
structure QueueInv (s : CommitQueue) : Prop where
  nodup : (s.committer.owned ++ s.queue).Nodup
  parked : ∀ i ∈ s.committer.owned ++ s.queue,
    ∃ w, s.waiters[i]? = some w ∧ w.result = none ∧ w.returned = none
  placed : ∀ i w, s.waiters[i]? = some w → w.result = none → w.returned = none →
    i ∈ s.committer.owned ++ s.queue
  pending : s.engine.queue = s.entries (s.committer.unapplied ++ s.queue)
  guarded : ∀ todo group rest, s.committer = .delivering todo group rest →
    (∀ i ∈ todo.map Prod.fst, i ∈ group) ∧ ∀ i ∈ group, i ∈ s.begun
  fresh : ∀ i ∈ s.committer.unapplied ++ s.queue, i ∉ s.begun
  begun_lt : ∀ i ∈ s.begun, i < s.waiters.length
  begun_nodup : s.begun.Nodup
  bailed : ∀ i w err, s.waiters[i]? = some w → w.returned = some (.bailed err) → i ∉ s.begun
  applied_begun : ∀ p ∈ s.applied, p.1 ∈ s.begun
  applied_nodup : (s.applied.map Prod.fst).Nodup
  shown : ∀ p ∈ s.applied, p.2 ∈ s.engine.db.published ∧
    p.2.1 + p.2.2.length ≤ s.engine.db.visibleSeqno + 1
  okay : ∀ i w, s.waiters[i]? = some w → s.Accepted i w → w.entry.ops ≠ [] →
    ∃ b, (i, b) ∈ s.applied ∧ ∃ (v : Vlog) (events : List BatchOp),
      v.Encodes (w.entry.ops ++ events) b.2
  stopped : s.committer = .dead → s.bgError.isSome = true
  exited : s.committer = .exited → s.shutdown = true

theorem queueInv_init (opts : Options) : QueueInv (CommitQueue.init opts) where
  nodup := List.nodup_nil
  parked := fun i hi => absurd hi List.not_mem_nil
  placed := fun i w hw => absurd hw (by simp [CommitQueue.init])
  pending := rfl
  guarded := fun _ _ _ h => by simp [CommitQueue.init] at h
  fresh := fun i hi => absurd hi List.not_mem_nil
  begun_lt := fun i hi => absurd hi List.not_mem_nil
  begun_nodup := List.nodup_nil
  bailed := fun i w err hw => absurd hw (by simp [CommitQueue.init])
  applied_begun := fun p hp => absurd hp List.not_mem_nil
  applied_nodup := List.nodup_nil
  shown := fun p hp => absurd hp List.not_mem_nil
  okay := fun i w hw => absurd hw (by simp [CommitQueue.init])
  stopped := fun h => by simp [CommitQueue.init] at h
  exited := fun h => by simp [CommitQueue.init] at h

namespace QueueInv

theorem valid (h : QueueInv s) {ids : List ℕ} (hsub : ∀ i ∈ ids, i ∈ s.committer.owned ++ s.queue) :
    s.Valid ids := by
  intro i hi
  obtain ⟨w, hw, -⟩ := h.parked i (hsub i hi)
  exact ⟨w, hw⟩

theorem unapplied_valid (h : QueueInv s) : s.Valid (s.committer.unapplied ++ s.queue) := by
  refine h.valid fun i hi => ?_
  exact ((s.committer.unapplied_sublist).append (.refl _)).subset hi

/-- The engine moves on: nothing shown is taken back. -/
theorem shown_mono (h : QueueInv s) {d : Db} (hgrows : s.engine.db.Grows d) :
    ∀ p ∈ s.applied, p.2 ∈ d.published ∧ p.2.1 + p.2.2.length ≤ d.visibleSeqno + 1 := by
  intro p hp
  obtain ⟨hpub, hvis⟩ := h.shown p hp
  exact ⟨hgrows.published.subset hpub, le_trans hvis (Nat.succ_le_succ hgrows.visible)⟩

/-- What a modified waiter list holds. -/
theorem modify_cases {l : List Waiter} {i j : ℕ} {f : Waiter → Waiter} {w' : Waiter}
    (h : (l.modify i f)[j]? = some w') :
    (i ≠ j ∧ l[j]? = some w') ∨ (i = j ∧ ∃ w, l[j]? = some w ∧ w' = f w) := by
  rw [List.getElem?_modify] at h
  by_cases hij : i = j
  · simp only [if_pos hij] at h
    obtain ⟨w, hw, rfl⟩ := Option.map_eq_some_iff.mp h
    exact Or.inr ⟨hij, w, hw, rfl⟩
  · simp only [if_neg hij] at h
    exact Or.inl ⟨hij, by simpa using h⟩

theorem entries_modify (s : CommitQueue) (i : ℕ) (f : Waiter → Waiter)
    (hf : ∀ w, (f w).entry = w.entry)
    (ids : List ℕ) (s' : CommitQueue) (hs' : s'.waiters = s.waiters.modify i f) :
    s'.entries ids = s.entries ids := by
  refine CommitQueue.entries_congr fun j _ => ?_
  rw [hs', List.getElem?_modify]
  cases s.waiters[j]? with
  | none => rfl
  | some w =>
    by_cases hij : i = j
    · simp [hij, hf]
    · simp [hij]

/-- The first waiter the committer owns gets its result. -/
theorem answered (h : QueueInv s) {i : ℕ} {r : Except Error Unit} {c : Committer} {d : Engine}
    (howned : s.committer.owned = i :: c.owned) (htodo : ∀ p ∈ c.todo, p ∈ s.committer.todo)
    (hr : r = .ok () → (i, r) ∈ s.committer.todo)
    (hunapplied : ∀ j ∈ c.unapplied, j ∈ s.committer.unapplied)
    (hguarded : ∀ todo group rest, c = .delivering todo group rest →
      (∀ i ∈ todo.map Prod.fst, i ∈ group) ∧ ∀ i ∈ group, i ∈ s.begun)
    (hrunning : c.running = true) (hdb : d.db = s.engine.db)
    (hqueue : d.queue = s.entries (c.unapplied ++ s.queue)) :
    QueueInv { s.answer i r with engine := d, committer := c } := by
  have hnodup := h.nodup
  rw [howned, List.cons_append, List.nodup_cons] at hnodup
  have hmem : ∀ j ∈ c.owned ++ s.queue, j ∈ s.committer.owned ++ s.queue := by
    intro j hj
    rw [howned]
    exact List.mem_cons_of_mem _ hj
  -- no other waiter changes
  have hsame : ∀ j, i ≠ j → (s.answer i r).waiters[j]? = s.waiters[j]? := by
    intro j hij
    show (s.waiters.modify i _)[j]? = _
    rw [List.getElem?_modify_ne _ _ hij]
  refine
    { nodup := hnodup.2
      parked := fun j hj => ?_
      placed := fun j w hw hres hret => ?_
      pending := ?_
      guarded := hguarded
      fresh := fun j hj => ?_
      begun_lt := fun j hj => by simpa [CommitQueue.answer] using h.begun_lt j hj
      begun_nodup := h.begun_nodup
      bailed := fun j w err hw hret => ?_
      applied_begun := h.applied_begun
      applied_nodup := h.applied_nodup
      shown := hdb ▸ h.shown
      okay := fun j w hw hacc hops => ?_
      stopped := fun hc => by
        rw [show c = .dead from hc] at hrunning; exact absurd hrunning (by decide)
      exited := fun hc => by
        rw [show c = .exited from hc] at hrunning; exact absurd hrunning (by decide) }
  · obtain ⟨w, hw, hrest⟩ := h.parked j (hmem j hj)
    refine ⟨w, ?_, hrest⟩
    rw [hsame j fun hij => hnodup.1 (hij ▸ hj)]
    exact hw
  · rcases modify_cases hw with ⟨hij, hw⟩ | ⟨-, w', -, rfl⟩
    · have hj := h.placed j w hw hres hret
      rw [howned] at hj
      exact (List.mem_cons.mp hj).resolve_left fun hji => hij hji.symm
    · exact absurd hres (by simp)
  · -- entries are read off the waiters, and a result is no part of them
    rw [hqueue]
    exact (entries_modify s i (fun w => { w with result := some r }) (fun _ => rfl) _ _ rfl).symm
  · refine h.fresh j ?_
    rcases List.mem_append.mp hj with hj | hj
    · exact List.mem_append_left _ (hunapplied j hj)
    · exact List.mem_append_right _ hj
  · rcases modify_cases hw with ⟨-, hw'⟩ | ⟨-, w', hw', rfl⟩
    · exact h.bailed j w err hw' hret
    · exact h.bailed j w' err hw' hret
  · rcases modify_cases hw with ⟨-, hw'⟩ | ⟨rfl, w', hw', rfl⟩
    · refine h.okay j w hw' ?_ hops
      rcases hacc with hacc | hacc | hacc
      · exact Or.inl hacc
      · exact Or.inr (Or.inl hacc)
      · exact Or.inr (Or.inr (htodo _ hacc))
    · refine h.okay i w' hw' ?_ hops
      rcases hacc with hacc | hacc | hacc
      · -- an `Ok` that is handed out was on its way before
        have hok : r = .ok () := Option.some_inj.mp hacc
        exact Or.inr (Or.inr (hok ▸ hr hok))
      · exact Or.inr (Or.inl hacc)
      · exact Or.inr (Or.inr (htodo _ hacc))

/-- The committer moves on without touching a waiter. -/
theorem moved (h : QueueInv s) {c : Committer} {queue : List ℕ}
    (howned : c.owned ++ queue = s.committer.owned ++ s.queue) (htodo : c.todo = [])
    (hunapplied : c.unapplied ++ queue = s.committer.unapplied ++ s.queue)
    (hguarded : ∀ todo group rest, c ≠ .delivering todo group rest) (hdead : c ≠ .dead)
    (hexited : c = .exited → s.shutdown = true) :
    QueueInv { s with committer := c, queue := queue } where
  nodup := howned ▸ h.nodup
  parked := fun i hi => h.parked i (howned ▸ hi)
  placed := fun i w hw hres hret => howned ▸ h.placed i w hw hres hret
  pending := h.pending.trans (by
    rw [← hunapplied]
    rfl)
  guarded := fun todo group rest hc => absurd hc (hguarded todo group rest)
  fresh := fun i hi => h.fresh i (hunapplied ▸ hi)
  begun_lt := h.begun_lt
  begun_nodup := h.begun_nodup
  bailed := h.bailed
  applied_begun := h.applied_begun
  applied_nodup := h.applied_nodup
  shown := h.shown
  okay := fun i w hw hacc hops => h.okay i w hw (by
    rcases hacc with hacc | hacc | hacc
    · exact Or.inl hacc
    · exact Or.inr (Or.inl hacc)
    · exact absurd (htodo ▸ hacc : (i, Except.ok ()) ∈ []) List.not_mem_nil) hops
  stopped := fun hc => absurd hc hdead
  exited := hexited

/-- A client joins the queue. -/
theorem submit (h : QueueInv s) {sub : Submission} {bytes : ℕ} {d : Engine}
    (hs : s.engine.step opts (.enqueue sub) = some d) :
    QueueInv { s with
      engine := d
      waiters := s.waiters ++ [⟨sub.entry, bytes, none, none⟩]
      queue := s.queue ++ [s.waiters.length] } := by
  have hd : d.queue = s.engine.queue ++ [sub.entry] ∧ d.db = s.engine.db := by
    obtain ⟨-, rfl⟩ := Engine.guarded_eq_some hs
    refine ⟨?_, ?_⟩
    all_goals
      obtain ⟨clears, heq⟩ := Engine.finishTask_eq _ sub
      rw [heq]
  have hlt : ∀ i w, s.waiters[i]? = some w → i < s.waiters.length :=
    fun i w hw => (List.getElem?_eq_some_iff.mp hw).1
  have hold : ∀ i w, s.waiters[i]? = some w →
      (s.waiters ++ [(⟨sub.entry, bytes, none, none⟩ : Waiter)])[i]? = some w := fun i w hw => by
    rw [List.getElem?_append_left (hlt i w hw)]
    exact hw
  have hnew : ∀ i w, (s.waiters ++ [(⟨sub.entry, bytes, none, none⟩ : Waiter)])[i]? = some w →
      s.waiters[i]? = some w ∨ i = s.waiters.length ∧ w = ⟨sub.entry, bytes, none, none⟩ := by
    intro i w hw
    by_cases hi : i < s.waiters.length
    · rw [List.getElem?_append_left hi] at hw
      exact Or.inl hw
    · rw [List.getElem?_append_right (not_lt.mp hi)] at hw
      obtain ⟨hzero, heq⟩ := List.getElem?_eq_some_iff.mp hw
      have hlen : i - s.waiters.length < 1 := hzero
      have hi' : i - s.waiters.length = 0 := by omega
      simp only [hi', List.getElem_cons_zero] at heq
      exact Or.inr ⟨by omega, heq.symm⟩
  -- its number is new: it is not on the queue, drained or begun
  have hnotin : s.waiters.length ∉ s.committer.owned ++ s.queue := by
    intro hmem
    obtain ⟨w, hw, -⟩ := h.parked _ hmem
    exact absurd (hlt _ w hw) (lt_irrefl _)
  refine
    { nodup := ?_
      parked := fun i hi => ?_
      placed := fun i w hw hres hret => ?_
      pending := ?_
      guarded := h.guarded
      fresh := fun i hi => ?_
      begun_lt := fun i hi => ?_
      begun_nodup := h.begun_nodup
      bailed := fun i w err hw hret => ?_
      applied_begun := h.applied_begun
      applied_nodup := h.applied_nodup
      shown := hd.2 ▸ h.shown
      okay := fun i w hw hacc hops => ?_
      stopped := h.stopped
      exited := h.exited }
  · rw [← List.append_assoc]
    refine List.nodup_append.mpr ⟨h.nodup, List.pairwise_singleton _ _, fun a ha b hb heq => ?_⟩
    rw [List.mem_singleton.mp hb] at heq
    exact hnotin (heq ▸ ha)
  · rw [← List.append_assoc, List.mem_append, List.mem_singleton] at hi
    rcases hi with hi | rfl
    · obtain ⟨w, hw, hrest⟩ := h.parked i hi
      exact ⟨w, hold i w hw, hrest⟩
    · exact ⟨⟨sub.entry, bytes, none, none⟩, by simp, rfl, rfl⟩
  · rw [← List.append_assoc, List.mem_append, List.mem_singleton]
    rcases hnew i w hw with hw | ⟨hi, -⟩
    · exact Or.inl (h.placed i w hw hres hret)
    · exact Or.inr hi
  · -- the entries that were pending, then the new one
    have hvalid := h.unapplied_valid
    rw [hd.1, h.pending, ← List.append_assoc, CommitQueue.entries_append _
      (s.committer.unapplied ++ s.queue)]
    refine congrArg₂ _ (CommitQueue.entries_congr fun i hi => ?_).symm
      (by simp [CommitQueue.entries])
    obtain ⟨w, hw⟩ := hvalid i hi
    rw [hw]
    exact congrArg _ (hold i w hw)
  · rw [← List.append_assoc, List.mem_append, List.mem_singleton] at hi
    rcases hi with hi | rfl
    · exact h.fresh i hi
    · exact fun hmem => absurd (h.begun_lt _ hmem) (lt_irrefl _)
  · have hlen := h.begun_lt i hi
    rw [List.length_append, List.length_singleton]
    omega
  · rcases hnew i w hw with hw | ⟨-, rfl⟩
    · exact h.bailed i w err hw hret
    · exact absurd hret (by simp)
  · rcases hnew i w hw with hw | ⟨rfl, rfl⟩
    · exact h.okay i w hw hacc hops
    · rcases hacc with hacc | hacc | hacc
      · exact absurd hacc (by simp)
      · exact absurd hacc (by simp)
      · -- a result on its way belongs to an older waiter
        refine absurd (List.mem_append_left _ ?_) hnotin
        change (s.waiters.length, Except.ok ()) ∈ s.committer.todo at hacc
        cases hc : s.committer with
        | delivering todo group rest =>
          rw [hc] at hacc
          exact List.mem_append_left _ (List.mem_map_of_mem hacc)
        | _ => rw [hc] at hacc; exact absurd hacc List.not_mem_nil

/-- A client finds its result. -/
theorem take (h : QueueInv s) {i : ℕ} {w : Waiter} {r : Except Error Unit}
    (hw : s.waiters[i]? = some w) (hres : w.result = some r) :
    QueueInv { s with
      waiters := s.waiters.modify i fun w =>
        { w with result := none, returned := some (.delivered r) } } := by
  -- a waiter with a result is neither on the queue nor drained
  have hnotin : i ∉ s.committer.owned ++ s.queue := by
    intro hi
    obtain ⟨w', hw', hnone, -⟩ := h.parked i hi
    rw [Option.some_inj.mp (hw.symm.trans hw'), hnone] at hres
    exact absurd hres (by simp)
  refine
    { nodup := h.nodup
      parked := fun j hj => ?_
      placed := fun j w' hw' hres' hret' => ?_
      pending := h.pending.trans
        (entries_modify s i (fun w => { w with result := none, returned := some (.delivered r) })
          (fun _ => rfl) _ _ rfl).symm
      guarded := h.guarded
      fresh := h.fresh
      begun_lt := fun j hj => by simpa using h.begun_lt j hj
      begun_nodup := h.begun_nodup
      bailed := fun j w' err hw' hret' => ?_
      applied_begun := h.applied_begun
      applied_nodup := h.applied_nodup
      shown := h.shown
      okay := fun j w' hw' hacc hops => ?_
      stopped := h.stopped
      exited := h.exited }
  · obtain ⟨w', hw', hrest⟩ := h.parked j hj
    refine ⟨w', ?_, hrest⟩
    show (s.waiters.modify i _)[j]? = _
    rw [List.getElem?_modify_ne _ _ fun (hij : i = j) => hnotin (hij ▸ hj)]
    exact hw'
  · rcases modify_cases hw' with ⟨-, hw'⟩ | ⟨-, w'', -, rfl⟩
    · exact h.placed j w' hw' hres' hret'
    · exact absurd hret' (by simp)
  · rcases modify_cases hw' with ⟨-, hw'⟩ | ⟨-, w'', -, rfl⟩
    · exact h.bailed j w' err hw' hret'
    · exact absurd hret' (by simp)
  · rcases modify_cases hw' with ⟨-, hw'⟩ | ⟨rfl, w'', hw'', rfl⟩
    · exact h.okay j w' hw' hacc hops
    · refine h.okay i w'' hw'' ?_ hops
      obtain rfl := Option.some_inj.mp (hw.symm.trans hw'')
      rcases hacc with hacc | hacc | hacc
      · exact absurd hacc (by simp)
      · -- what the client returns is the result that was there
        obtain rfl := Return.delivered.inj (Option.some_inj.mp hacc)
        exact Or.inl hres
      · exact Or.inr (Or.inr hacc)

/-- A client pulls its waiter out of the queue. -/
theorem bail (h : QueueInv s) {i : ℕ} {err : Error} {d : Engine} (hi : i ∈ s.queue)
    (hs : s.engine.step opts
      (.withdraw (s.committer.unapplied.length + s.queue.idxOf i)) = some d) :
    QueueInv { s with
      engine := d
      queue := s.queue.erase i
      waiters := s.waiters.modify i fun w => { w with returned := some (.bailed err) } } := by
  have hd : d.queue = s.engine.queue.eraseIdx (s.committer.unapplied.length + s.queue.idxOf i) ∧
      d.db = s.engine.db := by
    obtain ⟨q, -, rfl⟩ := Option.map_eq_some_iff.mp hs
    exact ⟨rfl, rfl⟩
  obtain ⟨howned, hqueue, hdisj⟩ := List.nodup_append.mp h.nodup
  -- the queue holds the waiter once, so it is gone from it
  have herase : ∀ j, j ∈ s.queue.erase i ↔ j ≠ i ∧ j ∈ s.queue := fun j => hqueue.mem_erase_iff
  have hother : ∀ j ∈ s.committer.owned ++ s.queue.erase i, i ≠ j ∧
      j ∈ s.committer.owned ++ s.queue := by
    intro j hj
    rcases List.mem_append.mp hj with hj | hj
    · exact ⟨fun hij => hdisj j hj i hi hij.symm, List.mem_append_left _ hj⟩
    · obtain ⟨hne, hj⟩ := (herase j).mp hj
      exact ⟨fun hij => hne hij.symm, List.mem_append_right _ hj⟩
  refine
    { nodup := h.nodup.sublist ((List.Sublist.refl _).append List.erase_sublist)
      parked := fun j hj => ?_
      placed := fun j w hw hres hret => ?_
      pending := ?_
      guarded := h.guarded
      fresh := fun j hj => ?_
      begun_lt := fun j hj => by simpa using h.begun_lt j hj
      begun_nodup := h.begun_nodup
      bailed := fun j w err' hw hret => ?_
      applied_begun := h.applied_begun
      applied_nodup := h.applied_nodup
      shown := hd.2 ▸ h.shown
      okay := fun j w hw hacc hops => ?_
      stopped := h.stopped
      exited := h.exited }
  · obtain ⟨hij, hmem⟩ := hother j hj
    obtain ⟨w, hw, hrest⟩ := h.parked j hmem
    refine ⟨w, ?_, hrest⟩
    show (s.waiters.modify i _)[j]? = _
    rw [List.getElem?_modify_ne _ _ hij]
    exact hw
  · rcases modify_cases hw with ⟨hij, hw⟩ | ⟨-, w', -, rfl⟩
    · rcases List.mem_append.mp (h.placed j w hw hres hret) with hj | hj
      · exact List.mem_append_left _ hj
      · exact List.mem_append_right _ ((herase j).mpr ⟨fun hji => hij hji.symm, hj⟩)
    · exact absurd hret (by simp)
  · -- the waiter's entry stands where the waiter stands
    rw [hd.1, h.pending, CommitQueue.entries_eraseIdx h.unapplied_valid,
      List.eraseIdx_append_of_length_le (Nat.le_add_right _ _), Nat.add_sub_cancel_left,
      ← List.erase_eq_eraseIdx_of_idxOf rfl]
    exact (entries_modify s i (fun w => { w with returned := some (.bailed err) })
      (fun _ => rfl) _ _ rfl).symm
  · refine h.fresh j ?_
    rcases List.mem_append.mp hj with hj | hj
    · exact List.mem_append_left _ hj
    · exact List.mem_append_right _ ((herase j).mp hj).2
  · rcases modify_cases hw with ⟨-, hw⟩ | ⟨rfl, w', -, rfl⟩
    · exact h.bailed j w err' hw hret
    · -- what is on the queue is not begun
      exact h.fresh i (List.mem_append_right _ hi)
  · rcases modify_cases hw with ⟨-, hw⟩ | ⟨rfl, w', hw', rfl⟩
    · exact h.okay j w hw hacc hops
    · refine h.okay i w' hw' ?_ hops
      rcases hacc with hacc | hacc | hacc
      · exact Or.inl hacc
      · exact absurd hacc (by simp)
      · exact Or.inr (Or.inr hacc)

theorem map_fst_filterMap_sublist {α β γ : Type} (g : α × β → Option (α × γ))
    (hg : ∀ p q, g p = some q → q.1 = p.1) (l : List (α × β)) :
    ((l.filterMap g).map Prod.fst).Sublist (l.map Prod.fst) := by
  induction l with
  | nil => exact .slnil
  | cons p l ih =>
    cases hp : g p with
    | none =>
      rw [List.filterMap_cons_none hp]
      exact ih.cons _
    | some q =>
      rw [List.filterMap_cons_some hp, List.map_cons, List.map_cons, hg p q hp]
      exact ih.cons_cons _

/-- The committer applies a chunk. -/
theorem apply (h : QueueInv s) {group rest : List ℕ} {f : Faults} {plan : Plan}
    {answers : List (Except Error (Option (ℕ × List EncEntry)))} {bg : Option String}
    (hc : s.committer = .grouped group rest)
    (hplan : s.engine.db.commitGroupPlan opts (s.entries group) f = (plan, answers)) :
    QueueInv { s with
      engine := s.engine.applied opts group.length f plan.steps plan.outcome
      committer := .delivering (group.zip (answers.map fun a => a.map fun _ => ())) group rest
      bgError := bg
      begun := s.begun ++ group
      applied := s.applied ++ (group.zip answers).filterMap fun p =>
        (p.2.toOption.join).map fun b => (p.1, b) } := by
  have howned : s.committer.owned = group ++ rest := by rw [hc]; rfl
  have hunapplied : s.committer.unapplied = group ++ rest := by rw [hc]; rfl
  have hsub : ∀ i ∈ group, i ∈ s.committer.owned ++ s.queue := fun i hi => by
    rw [howned]
    exact List.mem_append_left _ (List.mem_append_left _ hi)
  have hvalid := h.valid hsub
  have hspec := commitGroupPlan_spec opts s.engine.db (s.entries group) f
  simp only [hplan] at hspec
  obtain ⟨hlen, hans, hgrows⟩ := hspec
  rw [CommitQueue.length_entries hvalid] at hlen
  have hall : s.engine.db.Grows (s.engine.db.performAll plan.steps) := by
    have := hgrows plan.steps.length
    rwa [List.take_length] at this
  have hfst : (group.zip (answers.map fun a => a.map fun _ => ())).map Prod.fst = group :=
    List.map_fst_zip (by rw [List.length_map, hlen])
  have hnodup := h.nodup
  rw [howned, List.append_assoc] at hnodup
  obtain ⟨hgroup, hrest, hdisj⟩ := List.nodup_append.mp hnodup
  -- a chunk's entry that was answered `Ok` was committed, unless it had nothing to apply
  have hok : ∀ i a w, (i, a) ∈ group.zip answers → s.waiters[i]? = some w → ∀ b?, a = .ok b? →
      (b? = none → w.entry.ops = []) ∧ ∀ b ∈ b?, b ∈ (s.engine.db.performAll plan.steps).published ∧
        b.1 + b.2.length ≤ (s.engine.db.performAll plan.steps).visibleSeqno + 1 ∧
        ∃ (v : Vlog) (events : List BatchOp), v.Encodes (w.entry.ops ++ events) b.2 :=
    fun i a w hmem hw => hans _ (CommitQueue.mem_zip_entries hvalid hmem hw)
  have happlied : ∀ i b,
      (i, b) ∈ ((group.zip answers).filterMap fun p => (p.2.toOption.join).map fun b => (p.1, b)) ↔
      (i, .ok (some b)) ∈ group.zip answers := by
    intro i b
    refine ⟨fun hmem => ?_, fun hmem => List.mem_filterMap.mpr ⟨_, hmem, rfl⟩⟩
    obtain ⟨⟨j, a⟩, hp, heq⟩ := List.mem_filterMap.mp hmem
    obtain ⟨b', hb', heq⟩ := Option.map_eq_some_iff.mp heq
    obtain ⟨rfl, rfl⟩ := Prod.mk.inj heq
    rcases a with _ | _ | b''
    · exact absurd hb' (by simp [Except.toOption])
    · exact absurd hb' (by simp [Except.toOption])
    · obtain rfl : b'' = b' := Option.some_inj.mp hb'
      exact hp
  refine
    { nodup := ?_
      parked := fun i hi => h.parked i ?_
      placed := fun i w hw hres hret => ?_
      pending := ?_
      guarded := fun todo group' rest' heq => ?_
      fresh := fun i hi hmem => ?_
      begun_lt := fun i hi => ?_
      begun_nodup := ?_
      bailed := fun i w err hw hret hmem => ?_
      applied_begun := fun p hp => ?_
      applied_nodup := ?_
      shown := fun p hp => ?_
      okay := fun i w hw hacc hops => ?_
      stopped := fun heq => absurd heq (by simp)
      exited := fun heq => absurd heq (by simp) }
  · show ((group.zip (answers.map fun a => a.map fun _ => ())).map Prod.fst ++ rest ++
      s.queue).Nodup
    rw [hfst, ← howned]
    exact h.nodup
  · change i ∈ (group.zip (answers.map fun a => a.map fun _ => ())).map Prod.fst ++ rest ++
      s.queue at hi
    rwa [hfst, ← howned] at hi
  · show i ∈ (group.zip (answers.map fun a => a.map fun _ => ())).map Prod.fst ++ rest ++ s.queue
    rw [hfst, ← howned]
    exact h.placed i w hw hres hret
  · show s.engine.queue.drop group.length = _
    rw [h.pending, hunapplied, List.append_assoc]
    exact CommitQueue.drop_entries hvalid (rest ++ s.queue)
  · injection heq with h1 h2 h3
    subst h1 h2 h3
    exact ⟨fun i hi => hfst ▸ hi, fun i hi => List.mem_append_right _ hi⟩
  · change i ∈ rest ++ s.queue at hi
    rcases List.mem_append.mp hmem with hmem | hmem
    · refine h.fresh i ?_ hmem
      rw [hunapplied, List.append_assoc]
      exact List.mem_append_right _ hi
    · exact hdisj i hmem i hi rfl
  · rcases List.mem_append.mp hi with hi | hi
    · exact h.begun_lt i hi
    · obtain ⟨w, hw⟩ := hvalid i hi
      exact (List.getElem?_eq_some_iff.mp hw).1
  · refine List.nodup_append.mpr
      ⟨h.begun_nodup, hgroup, fun i hi j hj heq => h.fresh j ?_ (heq ▸ hi)⟩
    rw [hunapplied]
    exact List.mem_append_left _ (List.mem_append_left _ hj)
  · rcases List.mem_append.mp hmem with hmem | hmem
    · exact h.bailed i w err hw hret hmem
    · obtain ⟨w', hw', -, hnone⟩ := h.parked i (hsub i hmem)
      rw [Option.some_inj.mp (hw.symm.trans hw'), hnone] at hret
      exact absurd hret (by simp)
  · rcases List.mem_append.mp hp with hp | hp
    · exact List.mem_append_left _ (h.applied_begun p hp)
    · exact List.mem_append_right _ (List.of_mem_zip ((happlied p.1 p.2).mp hp)).1
  · have hsublist :=
      map_fst_filterMap_sublist (fun p : ℕ × Except Error (Option (ℕ × List EncEntry)) =>
      (p.2.toOption.join).map fun b => (p.1, b)) (fun p q hq => by
        obtain ⟨b, -, rfl⟩ := Option.map_eq_some_iff.mp hq
        rfl) (group.zip answers)
    rw [List.map_fst_zip (le_of_eq hlen.symm)] at hsublist
    rw [List.map_append]
    refine List.nodup_append.mpr ⟨h.applied_nodup, hgroup.sublist hsublist, fun a ha b hb heq => ?_⟩
    obtain ⟨p, hp, rfl⟩ := List.mem_map.mp ha
    refine h.fresh p.1 ?_ (h.applied_begun p hp)
    rw [hunapplied, heq]
    exact List.mem_append_left _ (List.mem_append_left _ (hsublist.subset hb))
  · rcases List.mem_append.mp hp with hp | hp
    · exact h.shown_mono hall p hp
    · have hmem := (happlied p.1 p.2).mp hp
      obtain ⟨w, hw⟩ := hvalid p.1 (List.of_mem_zip hmem).1
      obtain ⟨hpub, hvis, -⟩ := (hok p.1 _ w hmem hw _ rfl).2 p.2 rfl
      exact ⟨hpub, hvis⟩
  · rcases hacc with hacc | hacc | hacc
    · obtain ⟨b, hb, henc⟩ := h.okay i w hw (Or.inl hacc) hops
      exact ⟨b, List.mem_append_left _ hb, henc⟩
    · obtain ⟨b, hb, henc⟩ := h.okay i w hw (Or.inr (Or.inl hacc)) hops
      exact ⟨b, List.mem_append_left _ hb, henc⟩
    · change (i, Except.ok ()) ∈ group.zip (answers.map fun a => a.map fun _ => ()) at hacc
      rw [List.zip_map_right] at hacc
      obtain ⟨⟨j, a⟩, hmem, heq⟩ := List.mem_map.mp hacc
      obtain ⟨rfl, ha⟩ := Prod.mk.inj heq
      rcases a with _ | _ | b
      · exact absurd ha (by simp [Except.map])
      · exact absurd ((hok j _ w hmem hw none rfl).1 rfl) hops
      · exact ⟨b, List.mem_append_right _ ((happlied j b).mpr hmem),
          ((hok j _ w hmem hw _ rfl).2 b rfl).2.2⟩

/-- What the guard leaves of a waiter. -/
theorem guardDrop_cases {group : List ℕ} {i : ℕ} {w' : Waiter}
    (hw' : (s.guardDrop group).waiters[i]? = some w') :
    ∃ w, s.waiters[i]? = some w ∧ w'.entry = w.entry ∧ w'.returned = w.returned ∧
      ((i ∈ group ∧ w.result = none ∧ w'.result = some (.error (.background panicMsg))) ∨
        (w' = w ∧ ¬ (i ∈ group ∧ w.result = none))) := by
  rw [CommitQueue.guardDrop, List.getElem?_mapIdx] at hw'
  obtain ⟨w, hw, rfl⟩ := Option.map_eq_some_iff.mp hw'
  refine ⟨w, hw, ?_⟩
  split
  · rename_i hcond
    exact ⟨rfl, rfl, Or.inl ⟨hcond.1, hcond.2, rfl⟩⟩
  · rename_i hcond
    exact ⟨rfl, rfl, Or.inr ⟨rfl, hcond⟩⟩

/-- A panic under a guard that covers all the committer owns. -/
theorem panicked (h : QueueInv s) {group begun : List ℕ} {d : Engine}
    (howned : ∀ i ∈ s.committer.owned, i ∈ group) (hqueue : ∀ i ∈ group, i ∉ s.queue)
    (hvalid : s.Valid group)
    (hbailed : ∀ i w err, s.waiters[i]? = some w → w.returned = some (.bailed err) → i ∉ group)
    (hbegun : ∀ i, i ∈ begun ↔ i ∈ s.begun ∨ i ∈ group) (hnodup : begun.Nodup)
    (hd : d.queue = s.entries s.queue) (hgrows : s.engine.db.Grows d.db) :
    QueueInv { s.guardDrop group with engine := d, committer := .dead, begun := begun } := by
  obtain ⟨-, hqueued, -⟩ := List.nodup_append.mp h.nodup
  refine
    { nodup := hqueued
      parked := fun i hi => ?_
      placed := fun i w' hw' hres hret => ?_
      pending := ?_
      guarded := fun _ _ _ heq => absurd heq (by simp)
      fresh := fun i hi hmem => ?_
      begun_lt := fun i hi => ?_
      begun_nodup := hnodup
      bailed := fun i w' err hw' hret hmem => ?_
      applied_begun := fun p hp => (hbegun p.1).mpr (Or.inl (h.applied_begun p hp))
      applied_nodup := h.applied_nodup
      shown := h.shown_mono hgrows
      okay := fun i w' hw' hacc hops => ?_
      stopped := fun _ => ?_
      exited := fun heq => absurd heq (by simp) }
  · -- the guard gives no result to a waiter on the queue
    have hi' : i ∈ s.queue := hi
    obtain ⟨w, hw, hrest⟩ := h.parked i (List.mem_append_right _ hi')
    refine ⟨w, ?_, hrest⟩
    show (s.guardDrop group).waiters[i]? = some w
    rw [CommitQueue.guardDrop, List.getElem?_mapIdx, hw]
    exact congrArg some (if_neg fun hcond => hqueue i hcond.1 hi')
  · -- a waiter that still has no result is none of the group's, so the committer did not
    -- own it
    obtain ⟨w, hw, -, hsame, ⟨-, -, hsome⟩ | ⟨rfl, hnot⟩⟩ := guardDrop_cases hw'
    · rw [hsome] at hres
      exact absurd hres (by simp)
    · rcases List.mem_append.mp (h.placed i w' hw hres hret) with hi | hi
      · exact absurd ⟨howned i hi, hres⟩ hnot
      · exact hi
  · rw [hd]
    refine (CommitQueue.entries_congr fun i _ => ?_).symm
    show ((s.guardDrop group).waiters[i]?).map Waiter.entry = _
    rw [CommitQueue.guardDrop, List.getElem?_mapIdx, Option.map_map]
    cases s.waiters[i]? with
    | none => rfl
    | some w =>
      simp only [Option.map_some, Function.comp_apply]
      split <;> rfl
  · have hi' : i ∈ s.queue := hi
    rcases (hbegun i).mp hmem with hmem | hmem
    · exact h.fresh i (List.mem_append_right _ hi') hmem
    · exact hqueue i hmem hi'
  · show i < (s.guardDrop group).waiters.length
    rw [CommitQueue.guardDrop, List.length_mapIdx]
    rcases (hbegun i).mp hi with hi | hi
    · exact h.begun_lt i hi
    · obtain ⟨w, hw⟩ := hvalid i hi
      exact (List.getElem?_eq_some_iff.mp hw).1
  · obtain ⟨w, hw, -, hsame, -⟩ := guardDrop_cases hw'
    rw [hsame] at hret
    rcases (hbegun i).mp hmem with hmem | hmem
    · exact h.bailed i w err hw hret hmem
    · exact hbailed i w err hw hret hmem
  · -- the guard hands out errors only: whatever says `Ok` said so before
    obtain ⟨w, hw, hentry, hsame, hcase⟩ := guardDrop_cases hw'
    rw [hentry] at hops ⊢
    refine h.okay i w hw ?_ hops
    rcases hacc with hacc | hacc | hacc
    · rcases hcase with ⟨-, -, hsome⟩ | ⟨rfl, -⟩
      · rw [hsome] at hacc
        exact absurd hacc (by simp)
      · exact Or.inl hacc
    · exact Or.inr (Or.inl (hsame ▸ hacc))
    · exact absurd hacc List.not_mem_nil
  · show (s.bgError <|> some panicMsg).isSome = true
    cases s.bgError <;> rfl

/-- The head of a refused chunk gets the store's error. -/
theorem refuse (h : QueueInv s) {msg : String} {i : ℕ} {group rest : List ℕ}
    (hc : s.committer = .refusing msg (i :: group) rest) :
    QueueInv { s.answer i (.error (.background msg)) with
      engine := s.engine.dequeue 1
      committer := .refusing msg group rest } := by
  have hvalid : s.Valid [i] := h.valid fun j hj => by
    rw [List.mem_singleton.mp hj, hc]
    exact List.mem_append_left _ List.mem_cons_self
  refine h.answered (c := .refusing msg group rest) (by rw [hc]; rfl)
    (fun p hp => absurd hp List.not_mem_nil) (fun heq => absurd heq (by simp)) (fun j hj => ?_)
    (by simp) rfl rfl ?_
  · rw [hc]
    exact List.mem_cons_of_mem _ hj
  · show s.engine.queue.drop 1 = _
    rw [h.pending, hc]
    exact CommitQueue.drop_entries hvalid (group ++ rest ++ s.queue)

/-- The first of the results on their way is handed out. -/
theorem deliver (h : QueueInv s) {i : ℕ} {r : Except Error Unit}
    {todo : List (ℕ × Except Error Unit)} {group rest : List ℕ}
    (hc : s.committer = .delivering ((i, r) :: todo) group rest) :
    QueueInv { s.answer i r with committer := .delivering todo group rest } := by
  obtain ⟨hsub, hbegun⟩ := h.guarded _ _ _ hc
  refine h.answered (c := .delivering todo group rest) (d := s.engine) (by rw [hc]; rfl)
    (fun p hp => ?_) (fun _ => ?_) (fun j hj => by rw [hc]; exact hj)
    (fun todo' group' rest' heq => ?_) rfl rfl ?_
  · rw [hc]
    exact List.mem_cons_of_mem _ hp
  · rw [hc]
    exact List.mem_cons_self
  · injection heq with h1 h2 h3
    subst h1 h2 h3
    exact ⟨fun j hj => hsub j (List.mem_cons_of_mem _ hj), hbegun⟩
  · rw [h.pending, hc]
    rfl

/-- A panic while the last of the drained chunks is applied: the guard answers all of it. -/
theorem panic_grouped (h : QueueInv s) {group : List ℕ} (hc : s.committer = .grouped group [])
    (f : Faults) (k : ℕ) :
    QueueInv { s.guardDrop group with
      engine := (s.engine.applied opts group.length f
        ((s.engine.db.commitGroupPlan opts (s.entries group) f).1.steps.take k) []).dequeue 0
      committer := .dead
      begun := s.begun ++ group } := by
  have howned : s.committer.owned = group := by rw [hc]; exact List.append_nil group
  have hunapplied : s.committer.unapplied = group := by rw [hc]; exact List.append_nil group
  have hnodup := h.nodup
  rw [howned] at hnodup
  obtain ⟨hgroup, -, hdisj⟩ := List.nodup_append.mp hnodup
  have hvalid : s.Valid group := h.valid fun i hi => List.mem_append_left _ (howned ▸ hi)
  refine h.panicked (fun i hi => howned ▸ hi) (fun i hi hq => hdisj i hi i hq rfl) hvalid
    (fun i w err hw hret hi => ?_) (fun i => List.mem_append) ?_ ?_
    ((commitGroupPlan_spec opts s.engine.db (s.entries group) f).2.2 k)
  · -- a client that bailed is not parked
    obtain ⟨w', hw', -, hnone⟩ := h.parked i (List.mem_append_left _ (howned ▸ hi))
    rw [Option.some_inj.mp (hw.symm.trans hw'), hnone] at hret
    exact absurd hret (by simp)
  · refine List.nodup_append.mpr
      ⟨h.begun_nodup, hgroup, fun i hi j hj heq => h.fresh j ?_ (heq ▸ hi)⟩
    exact List.mem_append_left _ (hunapplied ▸ hj)
  · show (s.engine.queue.drop group.length).drop 0 = _
    rw [h.pending, hunapplied]
    exact CommitQueue.drop_entries hvalid _

/-- A panic while the results of the last of the drained chunks are handed out. -/
theorem panic_delivering (h : QueueInv s) {todo : List (ℕ × Except Error Unit)} {group : List ℕ}
    (hc : s.committer = .delivering todo group []) :
    QueueInv { s.guardDrop group with engine := s.engine.dequeue 0, committer := .dead } := by
  obtain ⟨hsub, hbegun⟩ := h.guarded _ _ _ hc
  refine h.panicked (fun i hi => hsub i ?_)
    (fun i hi hq => h.fresh i (List.mem_append_right _ hq) (hbegun i hi))
    (fun i hi => ⟨_, List.getElem?_eq_getElem (h.begun_lt i (hbegun i hi))⟩)
    (fun i w err hw hret hi => h.bailed i w err hw hret (hbegun i hi))
    (fun i => ⟨Or.inl, fun hi => hi.elim id (hbegun i)⟩) h.begun_nodup ?_ (.refl _)
  · rw [hc] at hi
    exact (List.append_nil (todo.map Prod.fst)) ▸ hi
  · show s.engine.queue.drop 0 = _
    rw [h.pending, hc]
    rfl

end QueueInv

theorem queueInv_step (h : QueueInv s) {a : QueueAction} (hok : s.Shielded a)
    (hs : s.step opts a = some s') : QueueInv s' := by
  cases CommitQueue.step_cases hs with
  | submit hd => exact h.submit hd
  | take hw hres _ => exact h.take hw hres
  | bail _ hi hd => exact h.bail hi hd
  | drain hc _ =>
    have hnil : ∀ l : List ℕ, l ++ [] = [] ++ l := List.append_nil
    exact h.moved (by rw [hc]; exact hnil _) rfl (by rw [hc]; exact hnil _) (by simp) (by simp)
      (by simp)
  | exit hc hshut =>
    exact h.moved (by rw [hc]; rfl) rfl (by rw [hc]; rfl) (by simp) (by simp) fun _ => hshut
  | chunk hc _ _ hcut =>
    -- refused or not, the chunk and what is behind it are what the committer held
    obtain ⟨msg, -, rfl⟩ | ⟨-, rfl⟩ := hcut
    all_goals
      exact h.moved (by rw [hc]; simp [Committer.owned]) rfl
        (by rw [hc]; simp [Committer.unapplied]) (by simp) (by simp) (by simp)
  | refuse hc => exact h.refuse hc
  | apply hc hplan => exact h.apply hc hplan
  | deliver hc => exact h.deliver hc
  | delivered hc | refused hc | emptied hc =>
    exact h.moved (by rw [hc]; rfl) rfl (by rw [hc]; rfl) (by simp) (by simp) (by simp)
  | panicHolding hc | panicRefusing hc =>
    -- no guard is armed here
    simp only [CommitQueue.Shielded, hc] at hok
  | @panicGrouped f k group rest hc =>
    cases rest with
    | nil => exact h.panic_grouped hc f k
    | cons i rest => simp only [CommitQueue.Shielded, hc] at hok
  | @panicDelivering f k todo group rest hc =>
    cases rest with
    | nil => exact h.panic_delivering hc
    | cons i rest => simp only [CommitQueue.Shielded, hc] at hok
  | degrade =>
    exact { h with
      stopped := fun _ => by
        show (s.bgError <|> some _).isSome = true
        cases s.bgError <;> rfl }
  | close => exact { h with exited := fun _ => rfl }
  | other ha hd =>
    obtain ⟨hqueue, hgrows⟩ := aside_frame ha hd
    exact { h with
      pending := hqueue.trans h.pending
      shown := h.shown_mono hgrows }

theorem queueInv_of_reaches (h : (commitQueue opts).Reaches CommitQueue.Shielded s) : QueueInv s :=
  h.invariant (queueInv_init opts) fun hinv hok hs => queueInv_step hinv hok hs

end Fluent31
