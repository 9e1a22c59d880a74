/-
Creating and deleting triggers (`trigger.rs`).

`create_trigger` writes the definition record and then registers the trigger;
`delete_trigger` takes the trigger out of the registry and then deletes its record.
Both hold the admin lock to the end, and the writes of all other threads go on in
between.  The write of the record can be refused or fail, and the store can be closed or
crash at any point.

A write that fails leaves nothing visible; what it leaves in the log can only come back
at an open, which registers the definitions it finds.

* `Inv.step` — what every step preserves;
* `registry_agreement` — in a run the registry lists the visible definitions whenever no
  call is running, exactly if no deletion returns after its write failed;
* `registry_disagreement` — a deletion that does, and an open after it.
-/
import Fluent31.DefRecords

namespace Fluent31

/-- What the holder of the admin lock is doing. -/
inductive AdminCall
  | create (d : TriggerDef)
  | delete (name : Bytes)
  deriving DecidableEq

/-- Where the write of its definition record is. -/
inductive RecordWrite
  | ahead
  | queued
  | answered (r : Except Error Unit)

namespace AdminCall

def name : AdminCall → Bytes
  | create d => d.name
  | delete name => name

def submission : AdminCall → Submission
  | create d => .define d
  | delete name => .undefine name

/-- The op of the record. -/
def op : AdminCall → BatchOp
  | create d => .put (sysTriggerKey d.name) (encodeDef d)
  | delete name => .delete (sysTriggerKey name)

/-- The trigger that the call has taken out of the registry. -/
def deletes : AdminCall → Option Bytes
  | create _ => none
  | delete name => some name

@[simp] theorem ops_entry (c : AdminCall) : c.submission.entry.ops = [c.op] := by cases c <;> rfl

@[simp] theorem op_key (c : AdminCall) : c.op.key = sysTriggerKey c.name := by cases c <;> rfl

theorem defines_entry (c : AdminCall) : c.submission.entry.Defines :=
  ⟨c.op, by simp, by rw [op_key]; exact defPrefix_key _⟩

end AdminCall

namespace RecordWrite

/-- The record is visible. -/
def applied : RecordWrite → Bool
  | answered (.ok _) => true
  | _ => false

/-- The committer may have answered it. -/
def take : RecordWrite → Option (Except Error Unit) → RecordWrite
  | queued, some r => answered r
  | w, _ => w

def isQueued : RecordWrite → Bool
  | queued => true
  | _ => false

end RecordWrite

structure TriggerAdmin where
  engine : Engine
  call : Option (AdminCall × RecordWrite)

inductive AdminAction
  /-- A step of any other thread, or of a clean-up. -/
  | engine (a : Action)
  /-- `create_trigger` with the lock, and past its checks. -/
  | create (d : TriggerDef)
  /-- `delete_trigger` with the lock, up to the swap of the registry. -/
  | delete (name : Bytes)
  /-- The definition record goes to the write path. -/
  | write
  /-- It is refused there, or fails. -/
  | fail (err : Error)
  /-- The call returns: a creation with the answer of its write; a deletion with that, or
  after its clean-up, which may stop at a write that fails. -/
  | ret
  | reopen (n orphan : ℕ)

/-- The entry that an action withdraws is a definition record. -/
def Engine.withdrawsRecord (e : Engine) : Action → Bool
  | .withdraw i => (e.queue[i]?).any fun q => decide q.Defines
  | _ => false

namespace TriggerAdmin

variable (opts : Options) (s : TriggerAdmin)

def init : TriggerAdmin := ⟨Engine.init opts, none⟩

/-- The answer that an action brings to the definition record. -/
def answer : Action → Option (Except Error Unit)
  | .group n => s.engine.recordAnswer opts n
  | _ => none

def step : AdminAction → Option TriggerAdmin
  | .engine a =>
    if a.background = true ∧ s.engine.withdrawsRecord a = false then
      (s.engine.step opts a).map fun e => ⟨e, s.call.map fun p => (p.1, p.2.take (s.answer opts a))⟩
    else none
  | .create d =>
    if s.call.isNone ∧ d.Accepted opts ∧ d.Sized ∧ (s.engine.db.lookup d.name).isNone then
      some { s with call := some (.create d, .ahead) }
    else none
  | .delete name =>
    if s.call.isNone then
      (s.engine.step opts (.deleteTrigger name)).map fun e => ⟨e, some (.delete name, .ahead)⟩
    else none
  | .write =>
    match s.call with
    | some (c, .ahead) =>
      if opts.sync = .always then
        (s.engine.step opts (.enqueue c.submission)).map fun e => ⟨e, some (c, .queued)⟩
      else
        (s.engine.step opts (.commit c.submission)).map fun e =>
          ⟨e, some (c, .answered (s.engine.db.commitDirect opts c.submission.entry).2)⟩
    | _ => none
  | .fail err =>
    match s.call with
    | some (c, .ahead) => some { s with call := some (c, .answered (.error err)) }
    | some (c, .queued) =>
      (s.engine.step opts (.withdraw (s.engine.queue.findIdx fun q => decide q.Defines))).map
        fun e =>
        ⟨e, some (c, .answered (.error err))⟩
    | _ => none
  | .ret =>
    match s.call with
    | some (.create d, .answered (.ok _)) =>
      (s.engine.step opts (.createTrigger d)).map fun e => ⟨e, none⟩
    | some (.create _, .answered (.error _)) => some { s with call := none }
    | some (.delete _, .answered _) => (s.engine.step opts .deleteDone).map fun e => ⟨e, none⟩
    | _ => none
  | .reopen n orphan => (s.engine.step opts (.reopen n orphan)).map fun e => ⟨e, none⟩

/-- **The registry and the store agree**: a trigger is listed exactly if its definition is
visible, and as defined there. -/
def Agrees : Prop :=
  ∀ name, s.engine.db.getAtSeq (sysTriggerKey name) s.engine.db.visibleSeqno =
    .ok ((s.engine.db.lookup name).map encodeDef)

/-- A deletion returns after the write of its record failed. -/
def AbandonsDelete : AdminAction → Prop
  | .ret => match s.call with
    | some (.delete _, .answered (.error _)) => True
    | _ => False
  | _ => False

instance (a : AdminAction) : Decidable (s.AbandonsDelete a) := by
  unfold AbandonsDelete
  split
  · split <;> infer_instance
  · infer_instance

end TriggerAdmin

def triggerAdmin (opts : Options) : System TriggerAdmin AdminAction :=
  ⟨TriggerAdmin.init opts, TriggerAdmin.step opts⟩

namespace TriggerAdmin

variable {opts : Options} {s s' : TriggerAdmin}

/-! ### The invariant -/

/-- What a call that is running has found and done. -/
structure Fits (opts : Options) (e : Engine) (c : AdminCall) (w : RecordWrite) : Prop where
  admitted : ∀ d, c = .create d → d.Accepted opts ∧ d.Sized
  unlisted : e.db.lookup c.name = none
  applied : w.applied = true → e.value (sysTriggerKey c.name) = c.op.value?
  pending : w.applied = false → (e.value (sysTriggerKey c.name)).isSome = c.deletes.isSome

structure Inv (opts : Options) (s : TriggerAdmin) : Prop where
  engine : s.engine.Inv
  events : s.engine.ClearsEvents
  encoded : s.engine.DefsEncoded
  deleting : s.engine.deleting = s.call.bind fun p => p.1.deletes
  records : s.engine.records =
    ((s.call.filter fun p => p.2.isQueued).map fun p => p.1.submission.entry).toList
  /-- All names agree but that of the call. -/
  others : ∀ name, (∀ p ∈ s.call, p.1.name ≠ name) →
    s.engine.value (sysTriggerKey name) = (s.engine.db.lookup name).map encodeDef
  call : ∀ p ∈ s.call, Fits opts s.engine p.1 p.2

theorem inv_init (opts : Options) : Inv opts (init opts) where
  engine := inv_of_reachable .init
  events _ _ ht := absurd ht List.not_mem_nil
  encoded _ _ _ _ hv := absurd hv (by simp [init, Engine.init, stateAfter, replay])
  deleting := rfl
  records := rfl
  others _ _ := rfl
  call _ hp := absurd hp (by simp [init])

theorem Inv.agrees (h : Inv opts s) (hcall : s.call = none) : s.Agrees := fun name =>
  (h.engine.getAtSeq_value _).trans (congrArg Except.ok (h.others name (by simp [hcall])))

/-! ### Steps -/

theorem lookup_congr {db db' : Db} (h : db'.defs = db.defs) (name : Bytes) :
    db'.lookup name = db.lookup name := by
  rw [Db.lookup, Db.lookup, h]

/-- The write of the record gets on, with nothing of the registry or of a definition changed. -/
theorem Inv.answered (h : Inv opts s) {c : AdminCall} {w : RecordWrite}
    (hcall : s.call = some (c, w))
    (w' : RecordWrite) (happlied : w'.applied = w.applied) {e' : Engine} (hinv : e'.Inv)
    (hevents : e'.ClearsEvents)
    (hencoded : e'.DefsEncoded) (hdefs : e'.db.defs = s.engine.db.defs)
    (hdeleting : e'.deleting = s.engine.deleting)
    (hvalue : ∀ name, e'.value (sysTriggerKey name) = s.engine.value (sysTriggerKey name))
    (hrecords : e'.records = if w'.isQueued then [c.submission.entry] else []) :
    Inv opts ⟨e', some (c, w')⟩ := by
  have hfits := h.call (c, w) hcall
  refine ⟨hinv, hevents, hencoded, ?_, ?_, fun name hname => ?_, fun p hp => ?_⟩
  · rw [hdeleting, h.deleting, hcall]
    rfl
  · rw [hrecords]
    cases hq : w'.isQueued <;> simp [Option.filter, hq]
  · rw [hvalue, lookup_congr hdefs]
    refine h.others name fun p hp => ?_
    rw [hcall] at hp
    obtain rfl := Option.some_inj.mp hp
    exact hname (c, w') rfl
  · obtain rfl := Option.some_inj.mp hp
    refine ⟨hfits.admitted, (lookup_congr hdefs _).trans hfits.unlisted,
      fun happ => ?_, fun hpend => ?_⟩
    · exact (hvalue _).trans (hfits.applied (happlied.symm.trans happ))
    · rw [hvalue]
      exact hfits.pending (happlied.symm.trans hpend)

/-- The call waits; nothing of the registry or of a definition has changed. -/
theorem Inv.follow (h : Inv opts s) {e' : Engine} {f : RecordWrite → RecordWrite} (hinv : e'.Inv)
    (hevents : e'.ClearsEvents) (hencoded : e'.DefsEncoded) (hdefs : e'.db.defs = s.engine.db.defs)
    (hdeleting : e'.deleting = s.engine.deleting)
    (hvalue : ∀ name, e'.value (sysTriggerKey name) = s.engine.value (sysTriggerKey name))
    (happlied : ∀ w, (f w).applied = w.applied)
    (hrecords : e'.records =
      ((s.call.filter fun p => (f p.2).isQueued).map fun p => p.1.submission.entry).toList) :
    Inv opts ⟨e', s.call.map fun p => (p.1, f p.2)⟩ := by
  obtain ⟨e, call⟩ := s
  cases call with
  | none =>
    refine ⟨hinv, hevents, hencoded, hdeleting.trans h.deleting, hrecords,
      fun name _ => ?_, fun p hp => absurd hp (by simp)⟩
    rw [hvalue, lookup_congr hdefs]
    exact h.others name (by simp)
  | some p =>
    obtain ⟨c, w⟩ := p
    refine h.answered rfl (f w) (happlied w) hinv hevents hencoded hdefs hdeleting hvalue
      (hrecords.trans ?_)
    cases hq : (f w).isQueued <;> simp [Option.filter, hq]

/-- The record is committed. -/
theorem Inv.record (h : Inv opts s) {c : AdminCall} {w : RecordWrite} (hcall : s.call = some (c, w))
    {e' : Engine} (hinv : e'.Inv) (hevents : e'.ClearsEvents) (hrec : Recorded c.op s.engine e')
    (hvis : s.engine.db.visibleSeqno ≤ e'.db.visibleSeqno) (hdefs : e'.db.defs = s.engine.db.defs)
    (hdeleting : e'.deleting = s.engine.deleting) (hrecords : e'.records = []) :
    Inv opts ⟨e', some (c, .answered (.ok ()))⟩ := by
  have hfits := h.call (c, w) hcall
  have hencoded : e'.DefsEncoded := by
    refine h.encoded.of_recorded hrec fun v hv => ?_
    cases c with
    | create d => exact ⟨d, (hfits.admitted d rfl).2, rfl, (Option.some_inj.mp hv).symm⟩
    | delete name => exact absurd hv (by simp [AdminCall.op, BatchOp.value?])
  refine ⟨hinv, hevents, hencoded, ?_, hrecords, fun name hname => ?_, fun p hp => ?_⟩
  · rw [hdeleting, h.deleting, hcall]
    rfl
  · have hne : name ≠ c.name := fun heq => hname _ rfl heq.symm
    rw [hrec.value_of_ne h.engine hvis (defPrefix_key name)
      (by rwa [AdminCall.op_key, Ne, sysTriggerKey_inj]), lookup_congr hdefs]
    refine h.others name fun p hp => ?_
    rw [hcall] at hp
    obtain rfl := Option.some_inj.mp hp
    exact Ne.symm hne
  · obtain rfl := Option.some_inj.mp hp
    refine ⟨hfits.admitted, (lookup_congr hdefs _).trans hfits.unlisted, fun _ => ?_, fun hpend =>
      absurd hpend (by simp [RecordWrite.applied])⟩
    rw [← c.op_key]
    exact hrec.value

theorem take_none (w : RecordWrite) : w.take none = w := by cases w <;> rfl

theorem applied_take_error (w : RecordWrite) (err : Error) :
    (w.take (some (.error err))).applied = w.applied := by
  cases w <;> rfl

/-- **A step of another thread.** -/
theorem Inv.background (h : Inv opts s) {a : Action} (hback : a.background = true)
    (hkeep : s.engine.withdrawsRecord a = false) {e' : Engine}
    (hs : s.engine.step opts a = some e') :
    Inv opts ⟨e', s.call.map fun p => (p.1, p.2.take (s.answer opts a))⟩ := by
  have hinv := inv_step h.engine hs
  have hevents := clearsEvents_step h.events hs
  obtain ⟨hdefs, hdeleting, hvis⟩ := frame_background h.engine hback hs
  have hleave (hleaves : LeavesDefs s.engine.log e'.log) (happlied : ∀ w : RecordWrite,
      (w.take (s.answer opts a)).applied = w.applied) (hrecords : e'.records =
        ((s.call.filter fun p => (p.2.take (s.answer opts a)).isQueued).map fun p =>
          p.1.submission.entry).toList) :=
    h.follow hinv hevents (h.encoded.of_leaves hleaves) hdefs hdeleting
      (fun name => hleaves.value h.engine hvis (defPrefix_key name)) happlied hrecords
  by_cases hgroup : ∃ n, a = .group n
  · obtain ⟨n, rfl⟩ := hgroup
    have hqueue : e'.queue = s.engine.queue.drop n := by
      obtain ⟨-, rfl⟩ := Engine.guarded_eq_some hs
      rfl
    have hsplit : s.engine.records = ((s.engine.queue.take n).filter fun q => decide q.Defines) ++
        e'.records := by
      rw [Engine.records, Engine.records, hqueue, ← List.filter_append, List.take_append_drop]
    by_cases hnone : ((s.engine.queue.take n).filter fun q => decide q.Defines) = []
    · -- the record is not in the chunk
      have hplain : ∀ q ∈ s.engine.queue.take n, ¬ q.Defines := fun q hq hdef =>
        absurd (List.mem_filter.mpr ⟨hq, decide_eq_true hdef⟩) (hnone ▸ List.not_mem_nil)
      have hanswer : s.answer opts (.group n) = none := recordAnswer_none hplain
      refine hleave (leaves_background h.engine h.events hback hs fun m heq => ?_) (fun w => ?_) ?_
      · obtain rfl := Action.group.inj heq
        exact hplain
      · rw [hanswer, take_none]
      · rw [hnone, List.nil_append] at hsplit
        simp only [hanswer, take_none]
        exact hsplit.symm.trans h.records
    · -- it is, and alone
      obtain ⟨c, w, hcall, hw⟩ : ∃ c w, s.call = some (c, w) ∧ w.isQueued = true := by
        have hne : s.engine.records ≠ [] :=
          fun hnil => hnone (List.append_eq_nil_iff.mp (hsplit ▸ hnil)).1
        rw [h.records] at hne
        cases hcall : s.call with
        | none => exact absurd (by rw [hcall]; rfl) hne
        | some p =>
          obtain ⟨c, w⟩ := p
          refine ⟨c, w, rfl, ?_⟩
          by_contra hw
          exact hne (by simp [hcall, Option.filter, hw])
      have hone : s.engine.records = [c.submission.entry] := by
        rw [h.records, hcall]
        simp [Option.filter, hw]
      obtain ⟨hchunk, hrest⟩ : ((s.engine.queue.take n).filter fun q => decide q.Defines) =
          [c.submission.entry] ∧ e'.records = [] := by
        rw [hone] at hsplit
        rcases List.append_eq_singleton_iff.mp hsplit.symm with ⟨hnil, -⟩ | hboth
        · exact absurd hnil hnone
        · exact hboth
      have hqueued : w = .queued := by cases w <;> first | rfl | exact absurd hw Bool.false_ne_true
      subst hqueued
      rcases group_record h.engine hs hchunk c.ops_entry with ⟨hok, hrec⟩ | ⟨err, herr, hleaves⟩
      · have hanswer : s.answer opts (.group n) = some (.ok ()) := hok
        rw [hanswer, hcall]
        exact h.record hcall hinv hevents hrec hvis hdefs hdeleting hrest
      · have hanswer : s.answer opts (.group n) = some (.error err) := herr
        refine hleave hleaves (fun w => by rw [hanswer, applied_take_error]) ?_
        rw [hrest, hanswer, hcall]
        rfl
  · have hplain : ∀ n, a ≠ .group n := fun n heq => hgroup ⟨n, heq⟩
    have hanswer : s.answer opts a = none := by
      cases a with
      | group n => exact absurd rfl (hplain n)
      | _ => rfl
    refine hleave (leaves_background h.engine h.events hback hs fun n heq => absurd heq (hplain n))
      (fun w => ?_) ?_
    · rw [hanswer, take_none]
    · simp only [hanswer, take_none]
      refine (records_background h.events hback hs hplain fun i heq q hq hdef => ?_).trans h.records
      subst heq
      rw [Engine.withdrawsRecord, hq] at hkeep
      exact absurd (decide_eq_true hdef) (by simpa using hkeep)

theorem Inv.lookup_value (h : Inv opts s) (hcall : s.call = none) (name : Bytes) :
    s.engine.value (sysTriggerKey name) = (s.engine.db.lookup name).map encodeDef :=
  h.others name (by simp [hcall])

theorem Inv.create (h : Inv opts s) (hcall : s.call = none) {d : TriggerDef} (hd : d.Accepted opts)
    (hsized : d.Sized) (hnew : s.engine.db.lookup d.name = none) :
    Inv opts { s with call := some (.create d, .ahead) } where
  engine := h.engine
  events := h.events
  encoded := h.encoded
  deleting := by rw [h.deleting, hcall]; rfl
  records := by rw [h.records, hcall]; rfl
  others name _ := h.lookup_value hcall name
  call p hp := by
    obtain rfl := Option.some_inj.mp hp
    refine ⟨fun d' heq => ?_, hnew, fun happ => absurd happ Bool.false_ne_true, fun _ => ?_⟩
    · obtain rfl := AdminCall.create.inj heq
      exact ⟨hd, hsized⟩
    · show (s.engine.value (sysTriggerKey d.name)).isSome = false
      rw [h.lookup_value hcall, hnew]
      rfl

/-- The registry without the triggers of a name. -/
theorem lookup_filter (db : Db) (name name' : Bytes) :
    ({ db with defs := db.defs.filter fun d => decide (d.name ≠ name) } : Db).lookup name' =
      if name' = name then none else db.lookup name' := by
  show ((db.defs.filter fun d => decide (d.name ≠ name)).find? fun d => decide (d.name = name')) = _
  rw [List.find?_filter]
  split
  · rename_i heq
    subst heq
    rw [List.find?_eq_none]
    intro d _
    simp
  · rename_i hne
    refine congrArg (fun p => db.defs.find? p) (funext fun d => ?_)
    by_cases hd : d.name = name'
    · simp [hd, hne]
    · simp [hd]

theorem Inv.delete (h : Inv opts s) (hcall : s.call = none) {name : Bytes} {e' : Engine}
    (hs : s.engine.step opts (.deleteTrigger name) = some e') :
    Inv opts ⟨e', some (.delete name, .ahead)⟩ := by
  have hinv := inv_step h.engine hs
  have hevents := clearsEvents_step h.events hs
  obtain ⟨⟨-, -, hlisted⟩, rfl⟩ := Engine.guarded_eq_some hs
  refine ⟨hinv, hevents, h.encoded, rfl, ?_, fun name' hname => ?_, fun p hp => ?_⟩
  · refine Eq.trans ?_ (h.records.trans (by rw [hcall]; rfl))
    rfl
  · show s.engine.value (sysTriggerKey name') = _
    have hne : name' ≠ name := fun heq => hname _ rfl heq.symm
    rw [h.lookup_value hcall, lookup_filter, if_neg hne]
  · obtain rfl := Option.some_inj.mp hp
    refine ⟨fun d heq => absurd heq (by simp), ?_, fun happ => absurd happ Bool.false_ne_true,
      fun _ => ?_⟩
    · exact (lookup_filter s.engine.db name name).trans (if_pos rfl)
    · show (s.engine.value (sysTriggerKey name)).isSome = true
      rw [h.lookup_value hcall, Option.isSome_map]
      exact lookup_isSome.mpr hlisted

theorem Inv.records_of_call (h : Inv opts s) {c : AdminCall} {w : RecordWrite}
    (hcall : s.call = some (c, w)) :
    s.engine.records = if w.isQueued then [c.submission.entry] else [] := by
  rw [h.records, hcall]
  cases hq : w.isQueued <;> simp [Option.filter, hq]

theorem Inv.write (h : Inv opts s) (hs : s.step opts .write = some s') : Inv opts s' := by
  unfold step at hs
  simp only at hs
  split at hs
  · rename_i c hcall
    have hnone := h.records_of_call hcall
    split at hs
    · -- through the queue: the definition waits there, and nothing is written
      obtain ⟨e', he, rfl⟩ := Option.map_eq_some_iff.mp hs
      have hinv := inv_step h.engine he
      have hevents := clearsEvents_step h.events he
      obtain ⟨-, rfl⟩ := Engine.guarded_eq_some he
      obtain ⟨clears, heq⟩ := Engine.finishTask_eq _ c.submission
      rw [heq] at hinv hevents ⊢
      refine h.answered hcall .queued rfl hinv hevents h.encoded rfl rfl (fun _ => rfl) ?_
      show (s.engine.queue ++ [c.submission.entry]).filter _ = _
      have hself : ([c.submission.entry].filter fun q => decide q.Defines) =
          [c.submission.entry] := by
        simp [c.defines_entry]
      rw [List.filter_append, hself]
      exact congrArg (· ++ [c.submission.entry]) hnone
    · obtain ⟨e', he, rfl⟩ := Option.map_eq_some_iff.mp hs
      have hinv := inv_step h.engine he
      have hevents := clearsEvents_step h.events he
      -- directly: the definition is written, or the call answers its error
      have hvis : s.engine.db.visibleSeqno ≤ e'.db.visibleSeqno := by
        obtain ⟨recs, hmove⟩ := moved_step h.engine he fun n orphan => by simp
        exact hmove.visible_le
      obtain ⟨hdefs, hdeleting, hrecords⟩ : e'.db.defs = s.engine.db.defs ∧
          e'.deleting = s.engine.deleting ∧ e'.records = s.engine.records := by
        obtain ⟨-, rfl⟩ := Engine.guarded_eq_some he
        obtain ⟨clears, heq⟩ :=
          Engine.finishTask_eq (s.engine.commit opts c.submission.entry) c.submission
        have hframe : (s.engine.commit opts c.submission.entry).deleting = s.engine.deleting ∧
            (s.engine.commit opts c.submission.entry).queue = s.engine.queue := by
          unfold Engine.commit
          simp only
          split <;> exact ⟨rfl, rfl⟩
        rw [heq]
        exact ⟨(Engine.commit_spec opts h.engine.consistent c.submission.entry).1.defs, hframe.1,
          congrArg (List.filter _) hframe.2⟩
      have hdef : DEF_PREFIX <+: c.op.key := c.op_key ▸ defPrefix_key _
      rcases commit_record h.engine he c.ops_entry hdef with ⟨hok, hrec⟩ | ⟨err, herr, hleaves⟩
      · rw [hok]
        exact h.record hcall hinv hevents hrec hvis hdefs hdeleting (hrecords.trans hnone)
      · rw [herr]
        exact h.answered hcall (.answered (.error err)) rfl hinv hevents
          (h.encoded.of_leaves hleaves) hdefs hdeleting
          (fun name => hleaves.value h.engine hvis (defPrefix_key name)) (hrecords.trans hnone)
  · exact absurd hs (by simp)

theorem filter_eraseIdx_findIdx {α : Type} (p : α → Bool) (l : List α) :
    (l.eraseIdx (l.findIdx p)).filter p = (l.filter p).tail := by
  induction l with
  | nil => rfl
  | cons x l ih =>
    by_cases hx : p x = true
    · simp [List.findIdx_cons, hx]
    · simp [List.findIdx_cons, hx, ih]

theorem Inv.fail (h : Inv opts s) {err : Error} (hs : s.step opts (.fail err) = some s') :
    Inv opts s' := by
  unfold step at hs
  simp only at hs
  split at hs
  · rename_i c hcall
    obtain rfl := Option.some_inj.mp hs
    exact h.answered hcall (.answered (.error err)) rfl h.engine h.events h.encoded rfl rfl
      (fun _ => rfl) (h.records_of_call (w := .ahead) hcall)
  · rename_i c hcall
    obtain ⟨e', he, rfl⟩ := Option.map_eq_some_iff.mp hs
    have hinv := inv_step h.engine he
    have hevents := clearsEvents_step h.events he
    obtain ⟨q, -, rfl⟩ := Option.map_eq_some_iff.mp he
    refine h.answered hcall (.answered (.error err)) rfl hinv hevents h.encoded rfl rfl
      (fun _ => rfl) ?_
    refine (filter_eraseIdx_findIdx _ _).trans ?_
    exact congrArg List.tail (h.records_of_call hcall)
  · exact absurd hs (by simp)

/-- A creation that is answered `Ok` registers what it wrote. -/
theorem Inv.created (h : Inv opts s) {d : TriggerDef} {u : Unit}
    (hcall : s.call = some (.create d, .answered (.ok u)))
    {e' : Engine} (hs : s.engine.step opts (.createTrigger d) = some e') : Inv opts ⟨e', none⟩ := by
  have hinv := inv_step h.engine hs
  have hevents := clearsEvents_step h.events hs
  have hfits := h.call _ hcall
  have hnone := h.records_of_call hcall
  obtain ⟨-, rfl⟩ := Engine.guarded_eq_some hs
  refine ⟨hinv, hevents, h.encoded, ?_, hnone, fun name _ => ?_, fun p hp => absurd hp (by simp)⟩
  · show s.engine.deleting = none
    rw [h.deleting, hcall]
    rfl
  · show s.engine.value (sysTriggerKey name) =
      (((s.engine.db.defs ++ [d]).find? fun d' => decide (d'.name = name))).map encodeDef
    rw [List.find?_append]
    by_cases hname : d.name = name
    · subst hname
      have hlookup : (s.engine.db.defs.find? fun d' => decide (d'.name = d.name)) = none :=
        hfits.unlisted
      have hvalue : s.engine.value (sysTriggerKey d.name) = some (encodeDef d) := hfits.applied rfl
      rw [hlookup, hvalue]
      simp
    · have hagrees : s.engine.value (sysTriggerKey name) =
        (s.engine.db.lookup name).map encodeDef := by
        refine h.others name fun p hp => ?_
        rw [hcall] at hp
        obtain rfl := Option.some_inj.mp hp
        exact hname
      rw [hagrees, Db.lookup]
      simp [hname]

/-- The name of the call agrees as the others do. -/
theorem Inv.settled (h : Inv opts s) {c : AdminCall} {w : RecordWrite}
    (hcall : s.call = some (c, w))
    (hvalue : s.engine.value (sysTriggerKey c.name) = none) (name : Bytes) :
    s.engine.value (sysTriggerKey name) = (s.engine.db.lookup name).map encodeDef := by
  by_cases hname : c.name = name
  · subst hname
    rw [hvalue, (h.call _ hcall).unlisted]
    rfl
  · refine h.others name fun p hp => ?_
    rw [hcall] at hp
    obtain rfl := Option.some_inj.mp hp
    exact hname

theorem Inv.ret (h : Inv opts s) (hok : ¬ s.AbandonsDelete .ret) (hs : s.step opts .ret = some s') :
    Inv opts s' := by
  unfold step at hs
  simp only at hs
  split at hs
  · rename_i d u hcall
    obtain ⟨e', he, rfl⟩ := Option.map_eq_some_iff.mp hs
    exact h.created hcall he
  · rename_i d err hcall
    obtain rfl := Option.some_inj.mp hs
    have hvalue : s.engine.value (sysTriggerKey d.name) = none :=
      Option.not_isSome_iff_eq_none.mp (Bool.eq_false_iff.mp ((h.call _ hcall).pending rfl))
    refine ⟨h.engine, h.events, h.encoded, ?_, h.records_of_call hcall, fun name _ =>
      h.settled hcall hvalue name, fun p hp => absurd hp (by simp)⟩
    rw [h.deleting, hcall]
    rfl
  · rename_i name r hcall
    obtain ⟨e', he, rfl⟩ := Option.map_eq_some_iff.mp hs
    have hinv := inv_step h.engine he
    have hevents := clearsEvents_step h.events he
    obtain ⟨-, rfl⟩ := Engine.guarded_eq_some he
    have hvalue : s.engine.value (sysTriggerKey name) = none := by
      cases r with
      | ok u => exact (h.call _ hcall).applied rfl
      | error err => exact absurd (by simp [AbandonsDelete, hcall]) hok
    exact ⟨hinv, hevents, h.encoded, rfl, h.records_of_call hcall, fun name' _ =>
      h.settled hcall hvalue name', fun p hp => absurd hp (by simp)⟩
  · exact absurd hs (by simp)

theorem Inv.reopen (h : Inv opts s) {n orphan : ℕ} {e' : Engine}
    (hs : s.engine.step opts (.reopen n orphan) = some e') :
    Inv opts ⟨e', none⟩ := by
  have hinv := inv_step h.engine hs
  have hevents := clearsEvents_step h.events hs
  have hr : s.engine.reopen opts n orphan = some e' := hs
  refine ⟨hinv, hevents, h.encoded.reopen h.engine hr, ?_, ?_, fun name _ =>
    lookup_reopen h.engine h.encoded hr name, fun p hp => absurd hp (by simp)⟩
  all_goals
    obtain ⟨db', -, rfl⟩ := Option.map_eq_some_iff.mp hr
    rfl

/-- **One step**: unless a deletion is abandoned, every name keeps agreeing but that of a
call that is running. -/
theorem Inv.step (h : Inv opts s) {a : AdminAction} (hok : ¬ s.AbandonsDelete a)
    (hs : s.step opts a = some s') :
    Inv opts s' := by
  cases a with
  | engine a =>
    obtain ⟨⟨hback, hkeep⟩, hs⟩ := Option.ite_none_right_eq_some.mp hs
    obtain ⟨e', he, rfl⟩ := Option.map_eq_some_iff.mp hs
    exact h.background hback hkeep he
  | create d =>
    obtain ⟨⟨hcall, hd, hsized, hnew⟩, hs⟩ := Option.ite_none_right_eq_some.mp hs
    obtain rfl := Option.some_inj.mp hs
    exact h.create (Option.isNone_iff_eq_none.mp hcall) hd hsized
      (Option.isNone_iff_eq_none.mp hnew)
  | delete name =>
    obtain ⟨hcall, hs⟩ := Option.ite_none_right_eq_some.mp hs
    obtain ⟨e', he, rfl⟩ := Option.map_eq_some_iff.mp hs
    exact h.delete (Option.isNone_iff_eq_none.mp hcall) he
  | write => exact h.write hs
  | fail err => exact h.fail hs
  | ret => exact h.ret hok hs
  | reopen n orphan =>
    obtain ⟨e', he, rfl⟩ := Option.map_eq_some_iff.mp hs
    exact h.reopen he

/-- An abandoned deletion leaves a definition that is not listed. -/
theorem Inv.abandoned (h : Inv opts s) {a : AdminAction} (habandons : s.AbandonsDelete a)
    (hs : s.step opts a = some s') : s'.call = none ∧ ¬ s'.Agrees := by
  unfold AbandonsDelete at habandons
  split at habandons
  · split at habandons
    · rename_i name err hcall
      simp only [TriggerAdmin.step, hcall] at hs
      obtain ⟨e', he, rfl⟩ := Option.map_eq_some_iff.mp hs
      obtain ⟨-, rfl⟩ := Engine.guarded_eq_some he
      refine ⟨rfl, fun hagrees => ?_⟩
      have hfits := h.call _ hcall
      have hname := (h.engine.getAtSeq_value (sysTriggerKey name)).symm.trans (hagrees name)
      have hunlisted : s.engine.db.lookup name = none := hfits.unlisted
      have hvalue : s.engine.value (sysTriggerKey name) = (s.engine.db.lookup name).map encodeDef :=
        Except.ok.inj hname
      have hsome : (s.engine.value (sysTriggerKey name)).isSome = true := hfits.pending rfl
      rw [hvalue, hunlisted] at hsome
      exact Bool.false_ne_true hsome
    · exact habandons.elim
  · exact habandons.elim

/-- No call gets stuck: a record can be handed over, and an answered call returns. -/
theorem Inv.write_isSome (h : Inv opts s) {c : AdminCall} (hcall : s.call = some (c, .ahead)) :
    (s.step opts .write).isSome = true := by
  have hidle : s.engine.AdminIdle := adminIdle_iff.mpr (h.records_of_call hcall)
  have hfits := h.call _ hcall
  have hdeleting : s.engine.deleting = c.deletes := by rw [h.deleting, hcall]; rfl
  have hallowed : c.submission.Allowed opts s.engine := by
    cases c with
    | create d =>
      refine ⟨(hfits.admitted d rfl).1, hdeleting, hidle, fun d' hd' hname => ?_⟩
      exact absurd hfits.unlisted
        (Option.isSome_iff_ne_none.mp (lookup_isSome.mpr ⟨d', hd', hname⟩))
    | delete name => exact ⟨hdeleting, hidle⟩
  simp only [TriggerAdmin.step, hcall]
  split
  · rename_i hsync
    rw [Option.isSome_map, Engine.step, Engine.guarded, if_pos ⟨hsync, hallowed⟩]
    rfl
  · rename_i hsync
    rw [Option.isSome_map, Engine.step, Engine.guarded, if_pos ⟨hsync, hallowed⟩]
    rfl

theorem Inv.ret_isSome (h : Inv opts s) {c : AdminCall} {r : Except Error Unit}
    (hcall : s.call = some (c, .answered r)) : (s.step opts .ret).isSome = true := by
  have hidle : s.engine.AdminIdle := adminIdle_iff.mpr (h.records_of_call hcall)
  have hfits := h.call _ hcall
  have hdeleting : s.engine.deleting = c.deletes := by rw [h.deleting, hcall]; rfl
  cases c with
  | create d =>
    cases r with
    | ok u =>
      have hnew : ∀ d' ∈ s.engine.db.defs, d'.name ≠ d.name := fun d' hd' hname =>
        absurd hfits.unlisted (Option.isSome_iff_ne_none.mp (lookup_isSome.mpr ⟨d', hd', hname⟩))
      have hvalue : s.engine.db.getAtSeq (sysTriggerKey d.name) s.engine.db.visibleSeqno =
          .ok (some (encodeDef d)) :=
        (h.engine.getAtSeq_value _).trans (congrArg Except.ok (hfits.applied rfl))
      simp only [TriggerAdmin.step, hcall]
      rw [Option.isSome_map, Engine.step, Engine.guarded,
        if_pos ⟨(hfits.admitted d rfl).1, hdeleting, hidle, hnew, hvalue⟩]
      rfl
    | error err =>
      simp only [TriggerAdmin.step, hcall]
      rfl
  | delete name =>
    simp only [TriggerAdmin.step, hcall]
    rw [Option.isSome_map, Engine.step, Engine.guarded, if_pos hidle]
    rfl

/-! ### Runs -/

/-- Whenever no call is running in a run of `as`, the registry and the store agree. -/
def AgreesAlong (opts : Options) (as : List AdminAction) (s : TriggerAdmin) : Prop :=
  ∀ n s', (triggerAdmin opts).run (as.take n) s = some s' → s'.call = none → s'.Agrees

theorem agreesAlong_iff (h : Inv opts s) {as : List AdminAction}
    (hr : (triggerAdmin opts).run as s = some s') :
    AgreesAlong opts as s ↔ (triggerAdmin opts).replay (fun s a => ¬ s.AbandonsDelete a) as s =
      some s' := by
  induction as generalizing s with
  | nil =>
    refine iff_of_true (fun n t ht hcall => ?_) hr
    rw [List.take_nil] at ht
    obtain rfl := Option.some_inj.mp ht
    exact h.agrees hcall
  | cons a as ih =>
    obtain ⟨t, ht, hr⟩ := Option.bind_eq_some_iff.mp hr
    have hrun : ∀ n, (triggerAdmin opts).run ((a :: as).take (n + 1)) s = (triggerAdmin opts).run
        (as.take n) t := by
      intro n
      rw [List.take_succ_cons, System.run, ht]
      rfl
    constructor
    · intro hagrees
      have hok : ¬ s.AbandonsDelete a := fun habandons => by
        obtain ⟨hcall, hnot⟩ := h.abandoned habandons ht
        exact hnot (hagrees 1 t (hrun 0) hcall)
      rw [System.replay, if_pos hok, ht]
      exact (ih (h.step hok ht) hr).mp fun n u hu => hagrees (n + 1) u ((hrun n).trans hu)
    · intro hreplay
      rw [System.replay, Option.ite_none_right_eq_some] at hreplay
      obtain ⟨hok, hreplay⟩ := hreplay
      rw [ht] at hreplay
      have hrest := (ih (h.step hok ht) hr).mpr hreplay
      intro n u hu hcall
      cases n with
      | zero =>
        obtain rfl := Option.some_inj.mp hu
        exact h.agrees hcall
      | succ n => exact hrest n u ((hrun n).symm.trans hu) hcall

end TriggerAdmin

variable {opts : Options} {s : TriggerAdmin}

/-- **Agreement of registry and store**: in a run they agree whenever no call is running,
exactly if no deletion in it returns after the write of its record failed. -/
theorem registry_agreement {as : List AdminAction}
    (hr : (triggerAdmin opts).run as (triggerAdmin opts).init = some s) :
    TriggerAdmin.AgreesAlong opts as (triggerAdmin opts).init ↔
      (triggerAdmin opts).replay (fun s a => ¬ s.AbandonsDelete a)
        as (triggerAdmin opts).init = some s :=
  TriggerAdmin.agreesAlong_iff (TriggerAdmin.inv_init opts) hr

/-! ### Two runs -/

def touchWrite : Submission := .batch [.put [byte 107] [byte 1]]

/-- A creation whose write is refused and one that succeeds; a user write is captured;
the trigger is deleted. -/
def createThenDelete : List AdminAction :=
  [.create touchTrigger, .fail .closed, .ret, .create touchTrigger, .write,
    .engine (.group 1), .ret,
    .engine (.enqueue touchWrite), .engine (.group 1), .delete touchTrigger.name, .write,
      .engine (.group 1), .ret]

theorem registry_agreement_deleted : ∃ s,
    (triggerAdmin (.default plainFormat)).run createThenDelete
      (triggerAdmin (.default plainFormat)).init = some s ∧
    s.engine.log.length = 3 ∧
    TriggerAdmin.AgreesAlong (.default plainFormat) createThenDelete
      (triggerAdmin (.default plainFormat)).init := by
  have hreplay : ((triggerAdmin (.default plainFormat)).replay (fun s a => ¬ s.AbandonsDelete a)
      createThenDelete (triggerAdmin (.default plainFormat)).init).any
        (fun s => decide (s.engine.log.length = 3)) = true := by
    decide +kernel
  obtain ⟨s, hs, hlen⟩ := (Option.any_eq_true _ _).mp hreplay
  have hrun := System.run_of_replay hs
  exact ⟨s, hrun, of_decide_eq_true hlen, (registry_agreement hrun).mpr hs⟩

/-- The registry is swapped, a user write goes by, and the deletion's own write fails. -/
def deleteThenFail : List AdminAction :=
  [.create touchTrigger, .write, .engine (.group 1), .ret, .delete touchTrigger.name,
    .engine (.enqueue touchWrite), .engine (.group 1), .write, .fail (.io "device"), .ret]

/-- The definition is visible and not listed. -/
def TriggerAdmin.Orphaned (s : TriggerAdmin) : Prop :=
  s.call.isNone ∧ s.engine.db.lookup touchTrigger.name = none ∧
    s.engine.db.getAtSeq (sysTriggerKey touchTrigger.name) s.engine.db.visibleSeqno =
      .ok (some (encodeDef touchTrigger))

/-- The trigger is listed, and a key in its range was written without an event. -/
def TriggerAdmin.Missed (s : TriggerAdmin) : Prop :=
  s.engine.db.lookup touchTrigger.name = some touchTrigger ∧
    s.engine.db.getAtSeq [byte 107] s.engine.db.visibleSeqno = .ok (some [byte 1]) ∧
    s.engine.db.getAtSeq (sysTriggerEventKey touchTrigger.name [byte 107])
      s.engine.db.visibleSeqno = .ok none

instance (s : TriggerAdmin) : Decidable s.Orphaned := inferInstanceAs (Decidable (_ ∧ _ ∧ _))

instance (s : TriggerAdmin) : Decidable s.Missed := inferInstanceAs (Decidable (_ ∧ _ ∧ _))

/-- **A deletion that fails**: capture has stopped for a trigger that still exists, and the
next open brings it back without the touch made in between. -/
theorem registry_disagreement : ∃ s s',
    (triggerAdmin (.default plainFormat)).run deleteThenFail
      (triggerAdmin (.default plainFormat)).init = some s ∧
    s.Orphaned ∧ ¬ s.Agrees ∧
    (triggerAdmin (.default plainFormat)).step s (.reopen 2 0) = some s' ∧ s'.Missed := by
  have hrun : ((triggerAdmin (.default plainFormat)).run deleteThenFail
      (triggerAdmin (.default plainFormat)).init).any (fun s => decide s.Orphaned &&
        ((triggerAdmin (.default plainFormat)).step s (.reopen 2 0)).any fun s' =>
          decide s'.Missed) = true := by
    decide +kernel
  obtain ⟨s, hs, hboth⟩ := (Option.any_eq_true _ _).mp hrun
  obtain ⟨horphaned, hopen⟩ := Bool.and_eq_true_iff.mp hboth
  have horphaned := of_decide_eq_true horphaned
  obtain ⟨s', hs', hmissed⟩ := (Option.any_eq_true _ _).mp hopen
  refine ⟨s, s', hs, horphaned, fun hagrees => ?_, hs', of_decide_eq_true hmissed⟩
  have hname := horphaned.2.2.symm.trans (hagrees touchTrigger.name)
  rw [horphaned.2.1] at hname
  exact absurd (Except.ok.inj hname) (by simp)

end Fluent31
