/-
`execute` and trigger drains (`wasm/mod.rs`, `txn.rs`, `trigger.rs`).

An execution runs the guest on a fresh transaction and commits it, again after a
conflict, up to a number of attempts.  Between its steps other threads do what they
like to the store, as long as they take nothing back that was published; the commit
itself is an apply, alone or in a chunk of the committer, with the file operations
that fail.

Not in the source: `Execution.log`, the published batches with the attempt each is
of; `runs`, what the attempts that reached their commit produced; `logged`, what the
applies that this execution took part in wrote to the WAL.

* `directPlan_published`, `commit_apply_spec` — what an apply with the commit in it
  publishes, answers and writes;
* `attempt_consumes` — whatever the guest does, its transaction deletes the events
  it was given;
* `Execution.execute_atomic` — an execution that returns `Ok` has published one
  batch, that of the run whose output it returns; one that returns an error has
  published nothing and, unless the WAL failed it, written nothing;
* `Execution.execute_recovered_after_error` — a WAL sync that fails leaves a record
  that the next open replays.
-/
import Fluent31.Delivery
import Fluent31.WritePath
import Fluent31.WasmHost

namespace Fluent31

open Ordered

/-! ### What an apply publishes and writes -/

/-- The record a step writes to the WAL, whole or in part. -/
def WriteStep.logs : WriteStep → Option (ℕ × List EncEntry)
  | .record base entries => some (base, entries)
  | .torn base entries _ => some (base, entries)
  | _ => none

/-- What a plan writes to the WAL. -/
def Plan.logged (p : Plan) : List (ℕ × List EncEntry) := p.steps.filterMap WriteStep.logs

section Plans

variable {opts : Options} {db : Db} {f : Faults}

theorem logged_add {p : Plan} {steps : List WriteStep} (h : ∀ s ∈ steps, s.logs = none) :
    (p.add steps).logged = p.logged := by
  unfold Plan.logged Plan.add
  rw [List.filterMap_append, List.filterMap_eq_nil_iff.mpr h, List.append_nil]

theorem logs_ite {c : Prop} [Decidable c] {step : WriteStep} (h : step.logs = none) :
    ∀ s ∈ (if c then [step] else []), s.logs = none := by
  intro s hs
  split at hs
  · exact List.mem_singleton.mp hs ▸ h
  · exact absurd hs List.not_mem_nil

theorem logs_publishSteps (appended : List (ℕ × List EncEntry)) :
    ∀ s ∈ Db.publishSteps appended, s.logs = none := by
  intro s hs
  unfold Db.publishSteps at hs
  rcases List.mem_append.mp hs with hs | hs
  · rcases List.mem_append.mp hs with hs | hs
    · obtain ⟨e, -, rfl⟩ := List.mem_map.mp hs
      rfl
    · obtain ⟨r, -, rfl⟩ := Option.map_eq_some_iff.mp (Option.mem_toList.mp hs)
      rfl
  · obtain ⟨r, -, rfl⟩ := List.mem_map.mp hs
    rfl

theorem logs_rotateSteps (opts : Options) (db : Db) (fault : Option (RotateOp × String)) :
    ∀ s ∈ (db.rotateSteps opts fault).1, s.logs = none := by
  have hmem : ∀ next, ∀ s ∈ (Db.memtableSteps next fault).1, s.logs = none := by
    intro next
    unfold Db.memtableSteps
    split <;> simp [WriteStep.logs]
  have hhead : ∀ next, ∀ s ∈ (Db.headSteps next fault).1, s.logs = none := by
    intro next
    unfold Db.headSteps
    split <;> simp [WriteStep.logs]
  have hfirst : ∀ s ∈ (if opts.memtableSize ≤ db.mem.approximateBytes then
      Db.memtableSteps db.nextFileId fault else ([], none)).1, s.logs = none := by
    split
    · exact hmem _
    · exact fun s hs => absurd hs List.not_mem_nil
  have hsecond : ∀ d : Db, ∀ s ∈ (if opts.vlogFileSize ≤ d.vlog.written then
      Db.headSteps d.nextFileId fault else ([], none)).1, s.logs = none := by
    intro d
    split
    · exact hhead _
    · exact fun s hs => absurd hs List.not_mem_nil
  intro s hs
  unfold Db.rotateSteps at hs
  simp only at hs
  split at hs
  · exact hfirst s hs
  · rcases List.mem_append.mp hs with hs | hs
    · exact hfirst s hs
    · exact hsecond _ s hs

theorem logged_publishPhase (p : Plan) (fault : Option (RotateOp × String)) :
    (db.publishPhase opts p fault).logged = p.logged ∧
      (db.publishPhase opts p fault).appended = p.appended := by
  unfold Db.publishPhase
  simp only
  split
  · exact ⟨logged_add (logs_publishSteps _), rfl⟩
  · refine ⟨?_, rfl⟩
    show ((p.add _).add _).logged = _
    rw [logged_add (logs_rotateSteps _ _ _), logged_add (logs_publishSteps _)]

theorem logged_recordPhase {p : Plan} (h : p.logged = []) :
    (Db.recordPhase p none).logged = (Db.recordPhase p none).appended := by
  unfold Db.recordPhase
  rw [Db.groupPhase3Io_none]
  unfold Plan.logged Plan.appended at *
  simp only [Option.bind_none, Option.toList_none, List.append_nil, List.filterMap_append, h,
    List.nil_append, List.filterMap_map]
  exact List.filterMap_some

/-- **Without WAL failures, what a group writes to the WAL it publishes.** -/
theorem groupPlan_logged (batches : List (List BatchOp × Bool)) (hrecord : f.record = none)
    (hsync : f.syncWal = none) :
    (db.groupPlan opts batches f).logged = (db.groupPlan opts batches f).appended := by
  unfold Db.groupPlan
  simp only [hrecord, hsync, Option.filter_none]
  have hplaced : (db.placePhase opts (db.groupPhase0 opts (db.visibleSeqno + 1) batches)
      f.place).logged = [] := by
    refine List.filterMap_eq_nil_iff.mpr fun s hs => ?_
    obtain ⟨p, -, rfl⟩ := List.mem_map.mp hs
    rfl
  split
  · rw [show (Plan.stop _ _ _).appended = [] from failAll_toOption _ _]
    exact hplaced
  · rw [(logged_publishPhase _ _).1, (logged_publishPhase _ _).2, logged_add (logs_ite rfl)]
    exact logged_recordPhase (by rw [logged_add (logs_ite rfl), hplaced])

theorem published_publishSteps (db : Db) (appended : List (ℕ × List EncEntry)) :
    (db.performAll (Db.publishSteps appended)).published = db.published ++ appended := by
  have hpublish : ∀ (d : Db), (appended.foldl (fun db r => db.publishStream r.1 r.2) d).published =
      d.published ++ appended := by
    induction appended with
    | nil => exact fun d => (List.append_nil _).symm
    | cons r rest ih =>
      exact fun d => (ih (d.publishStream r.1 r.2)).trans (List.append_assoc _ [r] rest)
  rw [Db.performAll_publishSteps, hpublish, Db.foldl_insertEntries]

/-- **The direct path publishes what it answers `Ok`**, and nothing else. -/
theorem directPlan_published (opts : Options) (db : Db) (ops : List BatchOp) (capture : Bool)
    (f : Faults) :
    ∃ r, (db.directPlan opts ops capture f).outcome = [r] ∧
      (db.performAll (db.directPlan opts ops capture f).steps).published = db.published ++
        r.toOption.toList ∧
      (∀ b, r = .ok b → ∃ v : Vlog, v.Encodes (ops ++ db.captureEvents opts ops b.1 capture) b.2) ∧
      (f.record = none → f.syncWal = none →
        (db.directPlan opts ops capture f).logged = r.toOption.toList) := by
  have hfails : ∀ (steps : List WriteStep) (e : Error) (msg : Option String),
      (∀ s ∈ steps, s.silent = true) →
      (f.record = none → f.syncWal = none → ∀ s ∈ steps, s.logs = none) →
      ∃ r, (⟨steps, [.error e], msg⟩ : Plan).outcome = [r] ∧
        (db.performAll steps).published = db.published ++ r.toOption.toList ∧
        (∀ b, r = .ok b → ∃ v : Vlog,
          v.Encodes (ops ++ db.captureEvents opts ops b.1 capture) b.2) ∧
        (f.record = none → f.syncWal = none →
          (⟨steps, [.error e], msg⟩ : Plan).logged = r.toOption.toList) := by
    intro steps e msg hsilent hlogs
    refine ⟨.error e, rfl, ?_, fun b hb => absurd hb (by simp), fun hr hs => ?_⟩
    · rw [(performAll_silent db hsilent).1]
      exact (List.append_nil _).symm
    · exact List.filterMap_eq_nil_iff.mpr (hlogs hr hs)
  set full := ops ++ db.captureEvents opts ops (db.visibleSeqno + 1) capture with hfull
  have hplaces : ∀ n, ∀ s ∈ ((largeOps opts.valueThreshold full).take n).map
      (fun (p : Bytes × Bytes) => WriteStep.place p.1 p.2), s.silent = true ∧ s.logs = none := by
    intro n s hs
    obtain ⟨p, -, rfl⟩ := List.mem_map.mp hs
    exact ⟨rfl, rfl⟩
  have hsyncs : ∀ (c : Prop) [Decidable c] (step : WriteStep), step.silent = true ∧
      step.logs = none → ∀ s ∈ (if c then [step] else []), s.silent = true ∧ s.logs = none := by
    intro c _ step hstep s hs
    split at hs
    · exact List.mem_singleton.mp hs ▸ hstep
    · exact absurd hs List.not_mem_nil
  unfold Db.directPlan
  simp only
  rw [← hfull]
  split
  · exact hfails _ _ _ (by simp) (by simp)
  split
  · exact hfails _ _ _ (by simp) (by simp)
  split
  · exact hfails _ _ _ (fun s hs => (hplaces _ s hs).1) fun _ _ s hs => (hplaces _ s hs).2
  split
  · exact hfails _ _ _ (fun s hs => (hplaces _ s hs).1) fun _ _ s hs => (hplaces _ s hs).2
  -- the steps before the record
  set pre :=
    ((largeOps opts.valueThreshold full).take (largeOps opts.valueThreshold full).length).map
      (fun (p : Bytes × Bytes) => WriteStep.place p.1 p.2) ++
    if opts.sync = .always ∧ largeOps opts.valueThreshold full ≠ [] then [.syncVlog]
    else [] with hpre
  have hpre' : ∀ s ∈ pre, s.silent = true ∧ s.logs = none := by
    intro s hs
    rcases List.mem_append.mp hs with hs | hs
    · exact hplaces _ s hs
    · exact hsyncs _ .syncVlog ⟨rfl, rfl⟩ s hs
  set entries := (db.vlog.placeOps opts.valueThreshold full).2 with hentries
  split
  · exact hfails _ _ _ (fun s hs => (hpre' s hs).1) fun _ _ s hs => (hpre' s hs).2
  split
  · rename_i done len msg hrecord
    refine hfails _ _ _ (fun s hs => ?_) fun hr => absurd (hrecord.symm.trans hr) (by simp)
    rcases List.mem_append.mp hs with hs | hs
    · exact (hpre' s hs).1
    · exact List.mem_singleton.mp hs ▸ rfl
  have hwritten : ∀ s ∈ pre ++ [.record (db.visibleSeqno + 1) entries], s.silent = true := by
    intro s hs
    rcases List.mem_append.mp hs with hs | hs
    · exact (hpre' s hs).1
    · exact List.mem_singleton.mp hs ▸ rfl
  split
  · rename_i msg hsync
    refine hfails _ _ _ hwritten fun _ hs => absurd hsync (by simp [hs])
  · refine ⟨.ok (db.visibleSeqno + 1, entries), rfl, ?_, fun b hb => ?_, fun _ _ => ?_⟩
    · rw [Db.performAll_append, Db.performAll_append,
        (performAll_silent _ (rotateSteps_silent _ _ _)).1,
        published_publishSteps, (performAll_silent db ?_).1]
      · rfl
      · intro s hs
        rcases List.mem_append.mp hs with hs | hs
        · exact hwritten s hs
        · exact (hsyncs _ .syncWal ⟨rfl, rfl⟩ s hs).1
    · obtain rfl := Except.ok.inj hb
      exact ⟨_, (db.vlog.placeOps_spec opts.valueThreshold full).2.2.2⟩
    · unfold Plan.logged
      have hlog (steps : List WriteStep) (h : ∀ s ∈ steps, s.logs = none) :
          steps.filterMap WriteStep.logs = [] :=
        List.filterMap_eq_nil_iff.mpr h
      simp only [List.filterMap_append, hlog _ (logs_rotateSteps _ _ _),
        hlog _ (logs_publishSteps _),
        hlog _ (logs_ite (show WriteStep.syncWal.logs = none from rfl)), hlog pre fun s hs =>
          (hpre' s hs).2]
      rfl

end Plans

/-! ### Committing one transaction -/

/-- How a commit is applied: by its own thread, or in a chunk of the committer
between other entries. -/
inductive CommitAt
  | direct
  | chunk (before after : List QueuedEntry)

/-- An apply with the answer of every entry it had, the commit's own at `index`. -/
structure CommitApply where
  plan : Plan
  answers : List (Except Error (Option (ℕ × List EncEntry)))
  index : ℕ

def CommitAt.isDirect : CommitAt → Bool
  | direct => true
  | chunk _ _ => false

def CommitAt.apply (opts : Options) (db : Db) (q : QueuedEntry) (f : Faults) :
    CommitAt → CommitApply
  | .direct =>
    match q.check db.readView [] (f.reads 0) with
    | .error err => ⟨⟨[], [], none⟩, [.error err], 0⟩
    | .ok true => ⟨⟨[], [], none⟩, [.error .conflict], 0⟩
    | .ok false =>
      if q.ops = [] then ⟨⟨[], [], none⟩, [.ok none], 0⟩
      else
        let p := db.directPlan opts q.ops q.capture f
        ⟨p, p.outcome.map fun r => r.map some, 0⟩
  | .chunk before after =>
    let r := db.commitGroupPlan opts (before ++ q :: after) f
    ⟨r.1, r.2, before.length⟩

/-- What the commit itself is answered. -/
def CommitApply.answer (a : CommitApply) : Except Error (Option (ℕ × List EncEntry)) :=
  a.answers[a.index]?.getD (.error abortedError)

/-- **One commit**: the apply publishes the batches it answers `Ok`; the commit's own
answer says whether its batch is among them; and what is written to the WAL without
a failure is published. -/
structure CommitApply.Spec (a : CommitApply) (opts : Options) (db : Db) (q : QueuedEntry)
    (f : Faults) : Prop where
  answered : a.answers[a.index]? = some a.answer
  published : (db.performAll a.plan.steps).published = db.published ++ answeredRecords a.answers
  empty : a.answer = .ok none → q.ops = []
  encodes : ∀ b, a.answer = .ok (some b) →
    ∃ v : Vlog, v.Encodes (q.ops ++ db.captureEvents opts q.ops b.1 q.capture) b.2
  logged : f.record = none → f.syncWal = none → a.plan.logged = answeredRecords a.answers

theorem commit_apply_spec (opts : Options) (db : Db) (q : QueuedEntry) (f : Faults)
    (at' : CommitAt) :
    (at'.apply opts db q f).Spec opts db q f := by
  -- a check that fails, a conflict and an empty batch touch nothing
  have hidle : ∀ a, (∀ b, a ≠ Except.ok (some b)) → (a = .ok none → q.ops = []) →
      CommitApply.Spec ⟨⟨[], [], none⟩, [a], 0⟩ opts db q f := by
    intro a hnone hempty
    have hrecs : answeredRecords [a] = [] := by
      refine List.filterMap_eq_nil_iff.mpr fun x hx => ?_
      obtain rfl := List.mem_singleton.mp hx
      match x with
      | .error _ => rfl
      | .ok none => rfl
      | .ok (some b) => exact absurd rfl (hnone b)
    exact ⟨rfl, by rw [hrecs, List.append_nil]; rfl, hempty, fun b hb => absurd hb (hnone b),
      fun _ _ => hrecs.symm⟩
  cases at' with
  | direct =>
    simp only [CommitAt.apply]
    split
    · exact hidle (.error _) (by simp) (by simp)
    · exact hidle (.error .conflict) (by simp) (by simp)
    split
    · rename_i hops
      exact hidle (.ok none) (by simp) fun _ => hops
    · -- the direct path has one answer, that of its own batch
      obtain ⟨r, hout, hpub, henc, hlog⟩ := directPlan_published opts db q.ops q.capture f
      have hrecs : answeredRecords
          ((db.directPlan opts q.ops q.capture f).outcome.map fun r => r.map some) =
          r.toOption.toList := by
        rw [hout]
        cases r <;> rfl
      have hanswer : (⟨db.directPlan opts q.ops q.capture f,
          (db.directPlan opts q.ops q.capture f).outcome.map fun r => r.map some, 0⟩ :
          CommitApply).answer =
            r.map some := by
        unfold CommitApply.answer
        rw [hout]
        rfl
      refine ⟨?_, hpub.trans (congrArg _ hrecs.symm), ?_, ?_, fun hr hs =>
        (hlog hr hs).trans hrecs.symm⟩
      · rw [hanswer, hout]
        rfl
      · rw [hanswer]
        cases r <;> simp [Except.map]
      · rw [hanswer]
        intro b hb
        cases r with
        | error e => exact absurd hb (by simp [Except.map])
        | ok b' =>
          obtain rfl : b' = b := by simpa [Except.map] using hb
          exact henc b' rfl
  | chunk before after =>
    obtain ⟨hlen, happended, hpub, -, hans⟩ :=
      commitGroupPlan_published opts db (before ++ q :: after) f
    -- in a chunk the answer of the entry is the one at its place
    have hindex : before.length < (db.commitGroupPlan opts (before ++ q :: after) f).2.length := by
      rw [hlen, List.length_append, List.length_cons]
      omega
    have hanswered : ((CommitAt.chunk before after).apply opts db q f).answers[before.length]? =
        some ((CommitAt.chunk before after).apply opts db q f).answer := by
      show (db.commitGroupPlan opts (before ++ q :: after) f).2[before.length]? = some
        (Option.getD _ _)
      rw [show ((CommitAt.chunk before after).apply opts db q f).index = before.length from rfl,
        show ((CommitAt.chunk before after).apply opts db q f).answers =
          (db.commitGroupPlan opts (before ++ q :: after) f).2 from rfl,
            List.getElem?_eq_getElem hindex]
      rfl
    have hzip : (q, ((CommitAt.chunk before after).apply opts db q f).answer) ∈
        (before ++ q :: after).zip (db.commitGroupPlan opts (before ++ q :: after) f).2 := by
      refine List.mem_of_getElem? (i := before.length) ?_
      rw [List.getElem?_zip_eq_some]
      exact ⟨by rw [List.getElem?_append_right (le_refl _)]; simp, hanswered⟩
    refine ⟨hanswered, hpub, fun h => (hans _ hzip none h).1 rfl, fun b hb => ?_, fun hr hs => ?_⟩
    · exact (hans _ hzip (some b) hb).2 b rfl
    · rw [show ((CommitAt.chunk before after).apply opts db q f).answers =
        (db.commitGroupPlan opts (before ++ q :: after) f).2 from rfl, ← happended]
      show (db.commitGroupPlan opts (before ++ q :: after) f).1.logged = _
      unfold Db.commitGroupPlan
      simp only
      split
      · rfl
      · exact groupPlan_logged _ hr hs

/-! ### One attempt -/

/-- A key of a trigger queue. -/
abbrev EventKey := {key : Bytes // QUEUE_PREFIX <+: key}

/-- The commit of a transaction. -/
def Txn.queued (t : Txn) : QueuedEntry :=
  ⟨t.ops, some (t.snap, t.writes.map Prod.fst ++ t.locks), !t.system⟩

/-- Where an invocation's module bytes come from. -/
inductive ModuleSource
  | installed (name : Bytes)
  /-- One-shot bytes. -/
  | bytes (wasm : Bytes)

/-- A name as messages show it. -/
def quoted (name : Bytes) : String :=
  String.ofList ('"' :: name.map (fun b => Char.ofNat b.val) ++ ['"'])

/-- How error messages name the code being invoked. -/
def ModuleSource.ident : ModuleSource → String
  | .installed name => "module " ++ quoted name
  | .bytes _ => "one-shot wasm"

/-- The rule of trigger names. -/
def validateModuleName (name : Bytes) : Except Error Unit :=
  if ValidTriggerName name then .ok ()
  else .error (.invalidArgument
    ("invalid module name " ++ quoted name ++ " (use [A-Za-z0-9._-], max 64 chars)"))

def sysWasmKey (name : Bytes) : Bytes :=
  [SYS_PREFIX, byte 119, byte 97, byte 115, byte 109, byte 0] ++ name

/-- What is executed: a user's call, or the drain of a trigger with the events it
consumes. -/
structure Invocation where
  source : ModuleSource
  entry : String
  input : Bytes
  consume : List EventKey
  system : Bool

section Attempt

-- `compile` is the wasm runtime's
variable (opts : WasmOptions) (compile : Bytes → Except String WasmModule)

def compileUncached (wasm : Bytes) : Except WasmError WasmModule :=
  (compile wasm).mapError fun text => .wasm ("compile: " ++ text)

def loadModuleAt (env : StoreEnv) (name : Bytes) (seq : ℕ) : Except WasmError WasmModule :=
  match validateModuleName name with
  | .error e => .error (.engine e)
  | .ok _ =>
    match env.get 0 (sysWasmKey name) seq with
    | .error e => .error (.engine e)
    | .ok none => .error (.engine (.invalidArgument ("no module named " ++ quoted name)))
    | .ok (some wasm) => compileUncached compile wasm

/-- The code of an attempt; one-shot bytes compile to the same each time. -/
def ModuleSource.load (env : StoreEnv) (seq : ℕ) : ModuleSource → Except WasmError WasmModule
  | .installed name => loadModuleAt compile env name seq
  | .bytes wasm => compileUncached compile wasm

/-- An attempt up to its commit: the transaction to commit and the output. -/
def Invocation.attempt (job : Invocation) (snap : ℕ) (env : StoreEnv) :
    Except WasmError (Txn × Bytes) :=
  match Txn.consume opts.toOptions
    (job.consume.map Subtype.val) { Txn.new snap with system := job.system } with
  | .error e => .error (.engine e)
  | .ok txn =>
    match job.source.load compile env snap with
    | .error e => .error e
    | .ok m =>
      if exportsFunc m job.entry = false then
        .error (.engine (.invalidArgument
          (job.source.ident ++ " has no `" ++ job.entry ++ "` entry point")))
      else
        match invoke opts env m (.new (.txn txn) job.input) job.entry with
        | .error e => .error e
        | .ok ctx =>
          match ctx.access with
          | .txn t => .ok (t, ctx.output)
          | .readOnly _ => .error (.wasm "unreachable")

end Attempt

/-- The writes are a map that deletes the consumed keys. -/
structure Txn.Consumes (t : Txn) (keys : List EventKey) : Prop where
  sorted : SortedBy Prod.fst t.writes
  deletes : ∀ key ∈ keys, (key.1, none) ∈ t.writes

/-- So does the transaction an invocation works on. -/
def Access.Consumes (keys : List EventKey) : Access → Prop
  | .txn t => t.Consumes keys
  | .readOnly _ => True

section Consumes

variable {opts : WasmOptions} {env : StoreEnv} {n : ℕ} {mem : Option Bytes}
    {ctx : HostCtx} {t : Txn}
  {keys : List EventKey}

theorem Txn.Consumes.of_writes {t' : Txn} (h : t.Consumes keys) (hw : t'.writes = t.writes) :
    t'.Consumes keys :=
  ⟨hw ▸ h.sorted, hw ▸ h.deletes⟩

theorem Txn.Consumes.insert (h : t.Consumes keys) {key : Bytes} {value : Option Bytes}
    (hkey : ∀ k ∈ keys, k.1 = key → value = none) (b : ℕ) :
    Txn.Consumes ({ t with bytes := b }.write key value) keys := by
  refine ⟨sortedBy_insertBy h.sorted, fun k hk => (mem_insertBy h.sorted).mpr ?_⟩
  by_cases heq : k.1 = key
  · exact Or.inl (by rw [hkey k hk heq, heq])
  · exact Or.inr ⟨h.deletes k hk, heq⟩

/-- A guest's key is no queue key. -/
theorem event_ne {key : Bytes} (hkey : ValidUserKey key) (k : EventKey) : k.1 ≠ key :=
  fun h => not_validUserKey_of_queue (h ▸ k.2) hkey

theorem Txn.Consumes.put (h : t.Consumes keys) (key value : Bytes) :
    (t.put opts.toOptions key value).1.Consumes keys := by
  unfold Txn.put
  split
  · exact h
  · rename_i u hkey
    split
    · exact h
    · unfold trackBytes
      split
      · rename_i heq
        obtain ⟨rfl, -⟩ := Prod.mk.inj heq
        exact h.of_writes rfl
      · rename_i heq
        obtain ⟨rfl, -⟩ := Prod.mk.inj heq
        exact h.insert (fun k _ heq => absurd heq (event_ne (validateUserKey_eq_ok.mp hkey) k)) _

theorem Txn.Consumes.delete (h : t.Consumes keys) (key : Bytes) :
    (t.delete opts.toOptions key).1.Consumes keys := by
  unfold Txn.delete
  split
  · exact h
  · rename_i u hkey
    unfold trackBytes
    split
    · rename_i heq
      obtain ⟨rfl, -⟩ := Prod.mk.inj heq
      exact h.of_writes rfl
    · rename_i heq
      obtain ⟨rfl, -⟩ := Prod.mk.inj heq
      exact h.insert (fun k _ heq => absurd heq (event_ne (validateUserKey_eq_ok.mp hkey) k)) _

/-- Seeding a transaction. -/
theorem consumes_consume {t' : Txn} {todo : List EventKey} (h : t.Consumes keys)
    (hc : Txn.consume opts.toOptions (todo.map Subtype.val) t = .ok t') :
    t'.Consumes (keys ++ todo) := by
  induction todo generalizing t keys with
  | nil =>
    obtain rfl := Except.ok.inj hc
    rwa [List.append_nil]
  | cons key todo ih =>
    rw [List.map_cons] at hc
    unfold Txn.consume Txn.sysDelete Txn.trackBytes at hc
    simp only at hc
    split at hc
    · exact absurd hc (by simp)
    · rename_i t₁ u hdel
      split at hdel
      · exact absurd (congrArg Prod.snd hdel) (by simp)
      · rename_i t₂ u' htrack
        obtain rfl := congrArg Prod.fst htrack
        obtain rfl := congrArg Prod.fst hdel
        -- the deletion joins the writes, and takes none of the others away
        have hnext : Txn.Consumes ({ t with bytes := t.bytes + key.1.length }.write key.1 none)
          (keys ++ [key]) := by
          have hkept := @Txn.Consumes.insert _ _ h key.1 none (fun _ _ _ => rfl)
            (t.bytes + key.1.length)
          refine ⟨hkept.sorted, fun k hk => ?_⟩
          obtain hold | hnew := List.mem_append.mp hk
          · exact hkept.deletes k hold
          · obtain rfl := List.mem_singleton.mp hnew
            exact (mem_insertBy h.sorted).mpr (Or.inl rfl)
        have := ih hnext hc
        rwa [List.append_assoc] at this

theorem writeTxn_consumes {op : StoreOp} {write : Txn → Txn × Except Error Unit}
    (hwrite : ∀ t : Txn, t.Consumes keys → (write t).1.Consumes keys)
    (h : ctx.access.Consumes keys) :
    (ctx.writeTxn op write).1.access.Consumes keys := by
  unfold HostCtx.writeTxn
  split
  · exact h
  · rename_i t ht
    rw [ht] at h
    split
    · rename_i t' u heq
      have := hwrite t h
      rw [heq] at this
      exact this
    · rename_i t' e heq
      have := hwrite t h
      rw [heq] at this
      exact this

theorem doGet_consumes (h : ctx.access.Consumes keys) (forUpdate : Bool)
    (kptr klen off vbuf vcap : BitVec 32) :
    (HostCtx.doGet env n mem ctx forUpdate kptr klen off vbuf vcap).1.access.Consumes keys := by
  unfold HostCtx.doGet
  split
  · exact h
  unfold HostCtx.getKey
  split
  · exact h
  simp only
  split
  · split
    · exact h
    · split
      · exact h
      · split <;> exact h
      · exact h
  · rename_i t ht
    rw [ht] at h
    have hlock : ∀ locks, Access.Consumes keys
        (.txn (if forUpdate then { t with locks := locks } else t)) := by
      intro locks
      cases forUpdate with
      | true => exact h.of_writes rfl
      | false => exact h
    split
    · exact hlock _
    · split <;> exact hlock _
    · exact hlock _

theorem dropError_consumes (h : ctx.access.Consumes keys) (i : BitVec 32) (sc : Scan)
    (e : Option Error) :
    (ctx.dropError i sc e).access.Consumes keys := by
  cases e <;> exact h

/-- Whatever a guest calls, the consumed entries stay deleted. -/
theorem call_consumes (h : ctx.access.Consumes keys) (c : HostCall) :
    (ctx.call opts env n mem c).1.access.Consumes keys := by
  cases c with
  | inputLen => exact h
  | inputRead dst cap off =>
    unfold HostCtx.call
    simp only
    split <;> exact h
  | outputWrite ptr len =>
    unfold HostCtx.call
    simp only
    split
    · exact h
    · split <;> exact h
  | log level ptr len =>
    unfold HostCtx.call
    simp only
    split
    · exact h
    · split <;> exact h
  | get kptr klen off vbuf vcap => exact doGet_consumes h _ _ _ _ _ _
  | getForUpdate kptr klen off vbuf vcap => exact doGet_consumes h _ _ _ _ _ _
  | put kptr klen vptr vlen =>
    -- a write adds to the ops, whatever its answer
    unfold HostCtx.call HostCtx.put
    simp only
    split
    · exact h
    · exact h
    · split
      · exact h
      · exact writeTxn_consumes (fun t ht => ht.put _ _) h
  | delete kptr klen =>
    unfold HostCtx.call HostCtx.delete
    simp only
    split
    · exact h
    · split
      · exact h
      · exact writeTxn_consumes (fun t ht => ht.delete _) h
  | scanOpen loPtr loLen hiPtr hiLen flags =>
    unfold HostCtx.call HostCtx.scanOpen
    simp only
    split
    · exact h
    · split
      · exact h
      · exact h
      · split
        · exact h
        · split <;> exact h
  | scanNext i buf cap =>
    -- an iterator only records an error
    unfold HostCtx.call HostCtx.scanNext
    simp only
    split
    · exact h
    · split
      · exact dropError_consumes h _ _ _
      · exact h
      · exact h
  | scanEntryHint i =>
    unfold HostCtx.call HostCtx.scanEntryHint
    simp only
    split
    · exact h
    · split
      · exact dropError_consumes h _ _ _
      · exact h
  | scanSkip i =>
    unfold HostCtx.call HostCtx.scanSkip
    simp only
    split
    · exact h
    · split
      · exact dropError_consumes h _ _ _
      · exact h
  | scanClose i =>
    unfold HostCtx.call HostCtx.scanClose
    simp only
    split <;> exact h

theorem run_consumes (h : ctx.access.Consumes keys) (g : Guest) (fuel : ℕ)
    (replies : List HostReply) :
    (Instance.run opts env g fuel ctx replies).2.ctx.access.Consumes keys := by
  induction fuel generalizing ctx replies with
  | zero => exact h
  | succ fuel ih =>
    unfold Instance.run
    cases g replies with
    | exit code => exact h
    | trap text => exact h
    | call mem c =>
      have hnext := @call_consumes opts env replies.length mem _ _ h c
      simp only
      split
      · rename_i ctx' trap hcall
        rw [hcall] at hnext
        exact hnext
      · rename_i ctx' reply hcall
        rw [hcall] at hnext
        exact ih hnext _

theorem start_consumes (h : ctx.access.Consumes keys) (m : WasmModule)
    {started : Except String ℤ × Instance} (hstarted : started = (match m.start with
      | none => (.ok 0, ⟨ctx, [], opts.wasmFuel⟩)
      | some g =>
        Instance.run opts env g opts.wasmFuel ctx [])) : started.2.ctx.access.Consumes keys := by
  subst hstarted
  split
  · exact h
  · exact run_consumes h _ _ _

theorem runModule_consumes (h : ctx.access.Consumes keys) (m : WasmModule) (entry : String) :
    (runModule opts env m ctx entry).2.access.Consumes keys := by
  unfold runModule
  split
  · exact h
  · simp only
    split
    · rename_i i heq
      exact start_consumes h m heq.symm
    · rename_i i heq
      have hi := start_consumes h m heq.symm
      split
      · exact hi
      · have hrun := @run_consumes opts env _ _ hi
        split
        · rename_i heq'
          exact (congrArg (fun r => r.2.ctx.access.Consumes keys) heq').mp (hrun _ _ _)
        · rename_i heq'
          exact (congrArg (fun r => r.2.ctx.access.Consumes keys) heq').mp (hrun _ _ _)

/-- **What an attempt brings to its commit** deletes the events it consumes. -/
theorem attempt_consumes {compile : Bytes → Except String WasmModule} {job : Invocation} {snap : ℕ}
    {out : Bytes}
    (h : job.attempt opts compile snap env = .ok (t, out)) : t.Consumes job.consume := by
  unfold Invocation.attempt at h
  split at h
  · exact absurd h (by simp)
  rename_i txn hconsume
  -- the transaction is seeded before the guest runs
  have hseed : txn.Consumes job.consume := by
    have := consumes_consume (t := { Txn.new snap with system := job.system })
      ⟨List.Pairwise.nil, fun k hk => absurd hk List.not_mem_nil⟩ hconsume
    rwa [List.nil_append] at this
  split at h
  · exact absurd h (by simp)
  rename_i m _
  split at h
  · exact absurd h (by simp)
  have hrun := @runModule_consumes opts env (.new (.txn txn) job.input) _ hseed m job.entry
  split at h
  · exact absurd h (by simp)
  rename_i ctx hctx
  -- a run that returns leaves the context of the module run
  have hctx' : ctx = (runModule opts env m (.new (.txn txn) job.input) job.entry).2 := by
    unfold invoke runInstance runResult at hctx
    split at hctx
    · exact absurd hctx (by simp [Except.bind])
    · exact absurd hctx (by simp [Except.bind])
    · rename_i code ctx' heq
      rw [heq]
      split at hctx
      · exact absurd hctx (by simp [Except.bind])
      · simp only [Except.bind] at hctx
        split at hctx
        · exact absurd hctx (by simp)
        · exact (Except.ok.inj hctx).symm
  split at h
  · rename_i t' ht
    obtain ⟨rfl, -⟩ := Prod.mk.inj (Except.ok.inj h)
    rw [← hctx', ht] at hrun
    exact hrun
  · exact absurd h (by simp)

theorem Txn.Consumes.mem_ops (h : t.Consumes keys) {key : EventKey} (hkey : key ∈ keys) :
    .delete key.1 ∈ t.ops :=
  List.mem_map.mpr ⟨_, h.deletes key hkey, rfl⟩

end Consumes

/-! ### The attempts -/

inductive ExecPhase
  | ready
  /-- The guest has returned 0. -/
  | committing (t : Txn) (out : Bytes)
  | done (r : Except WasmError Bytes)

def ExecPhase.result? : ExecPhase → Option (Except WasmError Bytes)
  | done r => some r
  | _ => none

theorem ExecPhase.result?_eq {p : ExecPhase} {r : Except WasmError Bytes} :
    p.result? = some r ↔ p = .done r := by
  cases p <;> simp [result?]

structure Execution where
  db : Db
  phase : ExecPhase
  /-- Attempts begun. -/
  attempts : ℕ
  runs : List (Txn × Bytes)
  /-- The published batches; those of this execution with the number of their run. -/
  log : List (Option ℕ × ℕ × List EncEntry)
  /-- What the applies that had a commit of this execution wrote to the WAL. -/
  logged : List (ℕ × List EncEntry)
  /-- One of them failed to write or to sync the WAL. -/
  walFailed : Bool

inductive ExecAction
  /-- Other threads leave the store like that. -/
  | other (db : Db)
  /-- An attempt runs the guest. -/
  | attempt (env : StoreEnv)
  /-- The commit is refused before it is applied: the store is closed or degraded. -/
  | refuse (e : Error)
  | commit (place : CommitAt) (f : Faults)

/-- The records of an apply; the commit's own with the number of its run. -/
def CommitApply.marked (a : CommitApply) (i : ℕ) : List (Option ℕ × ℕ × List EncEntry) :=
  a.answers.zipIdx.filterMap fun p =>
    p.1.toOption.join.map fun b => (if p.2 = a.index then some i else none, b)

namespace Execution

variable (opts : WasmOptions) (compile : Bytes → Except String WasmModule) (job : Invocation)

/-- The start of an execution in a store. -/
def start (db : Db) : Execution where
  db := db
  phase :=
    if opts.maxWasmInput < job.input.length then
      .done (.error (.engine (.invalidArgument "input exceeds max_wasm_input")))
    else
      match job.source with
      | .installed _ => .ready
      | .bytes wasm =>
        match compileUncached compile wasm with
        | .error e => .done (.error e)
        | .ok _ => .ready
  attempts := 0
  runs := []
  log := db.published.map fun b => (none, b)
  logged := []
  walFailed := false

/-- What follows from the commit's answer. -/
def settle (attempts : ℕ) (out : Bytes) : Except Error (Option (ℕ × List EncEntry)) → ExecPhase
  | .ok _ => .done (.ok out)
  | .error .conflict =>
    if attempts < max opts.executeRetries 1 then .ready else .done (.error (.engine .conflict))
  | .error e => .done (.error (.engine e))

def step (s : Execution) : ExecAction → Option Execution
  | .other db =>
    if s.db.published <+: db.published then
      some { s with
        db := db
        log := s.log ++ (db.published.drop s.db.published.length).map fun b => (none, b) }
    else none
  | .attempt env =>
    match s.phase with
    | .ready =>
      match job.attempt opts compile s.db.visibleSeqno env with
      | .error e => some { s with attempts := s.attempts + 1, phase := .done (.error e) }
      | .ok (t, out) =>
        some { s with
          db := s.db.registerSnapshotAt t.snap
          attempts := s.attempts + 1
          runs := s.runs ++ [(t, out)]
          phase := if t.writes = [] ∧ t.locks = [] then .done (.ok out) else .committing t out }
    | _ => none
  | .refuse e =>
    match s.phase with
    | .committing t _ =>
      if e ≠ .conflict then
        some { s with db := s.db.deregisterSnapshot t.snap, phase := .done (.error (.engine e)) }
      else none
    | _ => none
  | .commit place f =>
    match s.phase with
    | .committing t out =>
      if place.isDirect = decide (opts.sync ≠ .always) then
        let a := place.apply opts.toOptions s.db t.queued f
        some { s with
          db := (s.db.performAll a.plan.steps).deregisterSnapshot t.snap
          phase := settle opts s.attempts out a.answer
          log := s.log ++ a.marked (s.runs.length - 1)
          logged := s.logged ++ a.plan.logged
          walFailed := s.walFailed || f.record.isSome || f.syncWal.isSome }
      else none
    | _ => none

end Execution

def execution (opts : WasmOptions) (compile : Bytes → Except String WasmModule)
    (job : Invocation) (db : Db) :
    System Execution ExecAction where
  init := Execution.start opts compile job db
  step := Execution.step opts compile job

namespace Execution

/-- The published batches of this execution, with the numbers of their runs. -/
def own (s : Execution) : List (ℕ × ℕ × List EncEntry) :=
  s.log.filterMap fun p => p.1.map fun i => (i, p.2)

/-- The run `i` of the guest has committed, by itself and as a whole: its transaction
was empty, or one batch carries all its writes. -/
structure Committed (opts : WasmOptions) (compile : Bytes → Except String WasmModule)
    (job : Invocation) (s : Execution) (i : ℕ) (t : Txn) (out : Bytes) : Prop where
  run : s.runs[i]? = some (t, out)
  /-- One run of the guest gave the writes and the output. -/
  ran : ∃ snap env, job.attempt opts compile snap env = .ok (t, out)
  consumed : ∀ key ∈ job.consume, .delete key.1 ∈ t.ops
  whole : t.ops = [] ∧ s.own = [] ∨ ∃ (db : Db) (b : ℕ × List EncEntry) (v : Vlog),
    s.own = [(i, b)] ∧
    v.Encodes (t.ops ++ db.captureEvents opts.toOptions t.ops b.1 (!t.system)) b.2

/-! ### What one step keeps -/

variable {opts : WasmOptions} {compile : Bytes → Except String WasmModule}
    {job : Invocation} {d : Db}
  {s s' : Execution} {x : ExecAction}

theorem marked_published (a : CommitApply) (i : ℕ) :
    (a.marked i).map Prod.snd = answeredRecords a.answers := by
  unfold CommitApply.marked answeredRecords
  rw [List.map_filterMap, ← List.zipIdx_map_fst 0 a.answers, List.filterMap_map,
    List.zipIdx_map_fst]
  refine List.filterMap_congr fun p _ => ?_
  show _ = p.1.toOption.join
  cases p.1.toOption.join <;> rfl

/-- Of the records of an apply, the commit's own is the one at its index. -/
theorem marked_own (a : CommitApply) (i : ℕ) :
    (a.marked i).filterMap (fun p => p.1.map fun i => (i, p.2)) =
      ((a.answers[a.index]?.bind fun r => r.toOption.join).map fun b => (i, b)).toList := by
  -- counted from `n` on, so that the induction can go down the answers
  have hfrom : ∀ (answers : List (Except Error (Option (ℕ × List EncEntry)))) (n : ℕ),
      ((answers.zipIdx n).filterMap fun p => p.1.toOption.join.map fun b =>
        (if p.2 = a.index then some i else none, b)).filterMap
          (fun p : Option ℕ × ℕ × List EncEntry => p.1.map fun i => (i, p.2)) =
        if n ≤ a.index then
          ((answers[a.index - n]?.bind fun r => r.toOption.join).map fun b => (i, b)).toList
          else [] := by
    intro answers
    induction answers with
    | nil => intro n; simp
    | cons r rest ih =>
      intro n
      rw [List.zipIdx_cons, List.filterMap_cons]
      have hrest := ih (n + 1)
      by_cases hn : n = a.index
      · subst hn
        rw [if_neg (by omega)] at hrest
        cases hr : r.toOption.join with
        | none => simp [hr, hrest]
        | some b => simp [hr, hrest]
      · have hsplit : (if n + 1 ≤ a.index then
            ((rest[a.index - (n + 1)]?.bind fun r => r.toOption.join).map fun b => (i, b)).toList
            else []) =
            if n ≤ a.index then
              (((r :: rest)[a.index - n]?.bind fun r => r.toOption.join).map fun b => (i, b)).toList
              else [] := by
          by_cases hle : n + 1 ≤ a.index
          · rw [if_pos hle, if_pos (by omega), show a.index - n = a.index - (n + 1) + 1 by omega,
              List.getElem?_cons_succ]
          · rw [if_neg hle, if_neg (by omega)]
        cases hr : r.toOption.join with
        | none => simpa [hr, hn] using hrest.trans hsplit
        | some b => simpa [hr, hn] using hrest.trans hsplit
  exact (hfrom a.answers 0).trans (if_pos (Nat.zero_le _))

/-- **The bookkeeping**: every published batch is in the log, and one of this
execution has ended it. -/
structure Inv (opts : WasmOptions) (compile : Bytes → Except String WasmModule) (job : Invocation)
    (s : Execution) : Prop where
  published : s.log.map Prod.snd = s.db.published
  runs_ran : ∀ r ∈ s.runs, ∃ snap env, job.attempt opts compile snap env = .ok r
  running : ∀ t out, s.phase = .committing t out → s.runs.getLast? = some (t, out)
  uncommitted : (∀ out, s.phase ≠ .done (.ok out)) → s.own = []
  committed : ∀ out, s.phase = .done (.ok out) → ∃ i t, s.Committed opts compile job i t out
  written : s.walFailed = false → ∀ r ∈ s.logged, ∃ p ∈ s.log, p.2 = r

theorem own_append (log log' : List (Option ℕ × ℕ × List EncEntry)) :
    (log ++ log').filterMap (fun p => p.1.map fun i => (i, p.2)) =
      log.filterMap (fun p => p.1.map fun i => (i, p.2)) ++
        log'.filterMap (fun p => p.1.map fun i => (i, p.2)) := List.filterMap_append

theorem own_others (bs : List (ℕ × List EncEntry)) :
    (bs.map fun b => ((none : Option ℕ), b)).filterMap
      (fun p => p.1.map fun i => (i, p.2)) = [] := by
  rw [List.filterMap_map]
  exact List.filterMap_eq_nil_iff.mpr fun b _ => rfl

theorem map_others (bs : List (ℕ × List EncEntry)) :
    (bs.map fun b => ((none : Option ℕ), b)).map Prod.snd = bs := by
  rw [List.map_map]
  exact List.map_id' bs

theorem own_start : (start opts compile job d).own = [] := own_others _

theorem Inv.start : (Execution.start opts compile job d).Inv opts compile job where
  published := map_others _
  runs_ran := fun r hr => absurd hr List.not_mem_nil
  running := fun t out h => by
    unfold Execution.start at h
    simp only at h
    split at h
    · exact absurd h (by simp)
    · split at h
      · exact absurd h (by simp)
      · split at h <;> exact absurd h (by simp)
  uncommitted := fun _ => own_start
  committed := fun out h => by
    unfold Execution.start at h
    simp only at h
    split at h
    · exact absurd h (by simp)
    · split at h
      · exact absurd h (by simp)
      · split at h <;> exact absurd h (by simp)
  written := fun _ r hr => absurd hr List.not_mem_nil

/-- The rest of a longer list. -/
theorem append_drop_of_prefix {α : Type*} {l l' : List α} (h : l <+: l') :
    l ++ l'.drop l.length = l' := by
  obtain ⟨rest, rfl⟩ := h
  rw [List.drop_left]

theorem Inv.other (h : s.Inv opts compile job) {db : Db} (hpub : s.db.published <+: db.published) :
    Inv opts compile job { s with
      db := db
      log := s.log ++ (db.published.drop s.db.published.length).map fun b => (none, b) } := by
  have hown : ({ s with
      db := db
      log := s.log ++ (db.published.drop s.db.published.length).map fun b => (none, b) } :
          Execution).own = s.own := by
    unfold own
    rw [own_append, own_others, List.append_nil]
  exact
    { published := by rw [List.map_append, map_others, h.published, append_drop_of_prefix hpub]
      runs_ran := h.runs_ran
      running := h.running
      uncommitted := fun hphase => hown.trans (h.uncommitted hphase)
      committed := fun out hout => by
        obtain ⟨i, t, hc⟩ := h.committed out hout
        exact ⟨i, t, hc.run, hc.ran, hc.consumed, by rw [hown]; exact hc.whole⟩
      written := fun hw r hr => by
        obtain ⟨p, hp, hpr⟩ := h.written hw r hr
        exact ⟨p, List.mem_append_left _ hp, hpr⟩ }

/-- An execution that ends otherwise than in success. -/
theorem Inv.fail (h : s.Inv opts compile job) {db : Db} {n : ℕ} {e : WasmError}
    (hdb : db.published = s.db.published) (hactive : ∀ out, s.phase ≠ .done (.ok out)) :
    Inv opts compile job { s with db := db, attempts := n, phase := .done (.error e) } where
  published := h.published.trans hdb.symm
  runs_ran := h.runs_ran
  running := fun t out ht => absurd ht (by simp)
  uncommitted := fun _ => h.uncommitted hactive
  committed := fun out hout => absurd hout (by simp)
  written := h.written

theorem Inv.attempt (h : s.Inv opts compile job) (hready : s.phase = .ready)
    {env : StoreEnv} {t : Txn}
    {out : Bytes} (hrun : job.attempt opts compile s.db.visibleSeqno env = .ok (t, out)) :
    Inv opts compile job { s with
      db := s.db.registerSnapshotAt t.snap
      attempts := s.attempts + 1
      runs := s.runs ++ [(t, out)]
      phase := if t.writes = [] ∧ t.locks = [] then .done (.ok out) else .committing t out } := by
  have hown : s.own = [] := h.uncommitted fun out => by simp [hready]
  exact
    { published := h.published
      runs_ran := fun r hr => by
        obtain hr | hr := List.mem_append.mp hr
        · exact h.runs_ran r hr
        · exact ⟨_, env, (List.mem_singleton.mp hr).symm ▸ hrun⟩
      running := fun t' out' ht' => by
        simp only at ht'
        split at ht'
        · exact absurd ht' (by simp)
        · obtain ⟨rfl, rfl⟩ := ExecPhase.committing.inj ht'
          exact List.getLast?_concat
      uncommitted := fun _ => hown
      committed := fun out' hout' => by
        simp only at hout'
        split at hout'
        · -- with nothing to commit the execution is done at once
          rename_i hempty
          obtain rfl : out = out' := by simpa using hout'
          refine ⟨s.runs.length, t, by simp, ⟨_, env, hrun⟩, fun key hkey => ?_, Or.inl ⟨?_, hown⟩⟩
          · exact (attempt_consumes hrun).mem_ops hkey
          · unfold Txn.ops
            rw [hempty.1]
            rfl
        · exact absurd hout' (by simp)
      written := h.written }

theorem settle_ok {n : ℕ} {out out' : Bytes} {answer : Except Error (Option (ℕ × List EncEntry))}
    (h : settle opts n out answer = .done (.ok out')) : out = out' ∧ ∃ b?, answer = .ok b? := by
  unfold settle at h
  split at h
  · rename_i b?
    exact ⟨by simpa using h, b?, rfl⟩
  · split at h <;> exact absurd h (by simp)
  · exact absurd h (by simp)

theorem settle_committing {n : ℕ} {out : Bytes} {answer : Except Error (Option (ℕ × List EncEntry))}
    (t : Txn) (out' : Bytes) : settle opts n out answer ≠ .committing t out' := by
  unfold settle
  split
  · simp
  · split <;> simp
  · simp

theorem settle_answer_ok {n : ℕ} {out : Bytes} {b? : Option (ℕ × List EncEntry)} :
    settle opts n out (.ok b?) = .done (.ok out) := rfl

/-- **The commit**: its own batch is published exactly if its answer is `Ok`, and
then the execution returns that run's output. -/
theorem Inv.commit (h : s.Inv opts compile job) {t : Txn} {out : Bytes}
    (hphase : s.phase = .committing t out) (place : CommitAt) (f : Faults) :
    let a := place.apply opts.toOptions s.db t.queued f
    Inv opts compile job { s with
      db := (s.db.performAll a.plan.steps).deregisterSnapshot t.snap
      phase := settle opts s.attempts out a.answer
      log := s.log ++ a.marked (s.runs.length - 1)
      logged := s.logged ++ a.plan.logged
      walFailed := s.walFailed || f.record.isSome || f.syncWal.isSome } := by
  intro a
  have hspec : a.Spec opts.toOptions s.db t.queued f := commit_apply_spec _ _ _ _ _
  have hlast := h.running t out hphase
  have hrun : s.runs[s.runs.length - 1]? = some (t, out) := by
    rw [← List.getLast?_eq_getElem?, hlast]
  have hran := h.runs_ran (t, out) (List.mem_of_getLast? hlast)
  -- nothing of this execution is in the log before its commit
  have hown : s.own = [] := h.uncommitted fun out' => by simp [hphase]
  have hnow : ∀ phase db logged failed, Execution.own
      ⟨db, phase, s.attempts, s.runs, s.log ++ a.marked (s.runs.length - 1), logged, failed⟩ =
        ((a.answer.toOption.join).map fun b => (s.runs.length - 1, b)).toList := by
    intro phase db logged failed
    unfold own at hown ⊢
    rw [own_append, hown, List.nil_append, marked_own, hspec.answered]
    rfl
  refine
    { published := ?_
      runs_ran := h.runs_ran
      running := fun t' out' ht' => absurd ht' (settle_committing t' out')
      uncommitted := fun hno => ?_
      committed := fun out' hout' => ?_
      written := fun hw r hr => ?_ }
  · rw [List.map_append, h.published, marked_published]
    exact hspec.published.symm
  · rw [hnow]
    cases hanswer : a.answer with
    | error e => rfl
    | ok b? =>
      refine absurd ?_ (hno out)
      show settle opts s.attempts out a.answer = _
      rw [hanswer, settle_answer_ok]
  · obtain ⟨rfl, b?, hanswer⟩ := settle_ok hout'
    -- an execution that is done answered `Ok`, and its run stands behind the batch
    obtain ⟨snap, env, hattempt⟩ := hran
    refine ⟨s.runs.length - 1, t, hrun, ⟨snap, env, hattempt⟩,
      fun key hkey => (attempt_consumes hattempt).mem_ops hkey, ?_⟩
    rw [hnow, hanswer]
    cases b? with
    | none => exact Or.inl ⟨hspec.empty hanswer, rfl⟩
    | some b =>
      obtain ⟨v, henc⟩ := hspec.encodes b hanswer
      exact Or.inr ⟨s.db, b, v, rfl, henc⟩
  · -- without a WAL failure the apply publishes what it writes
    simp only [Bool.or_eq_false_iff, Option.isSome_eq_false_iff, Option.isNone_iff_eq_none] at hw
    obtain hold | hnew := List.mem_append.mp hr
    · obtain ⟨p, hp, hpr⟩ := h.written hw.1.1 r hold
      exact ⟨p, List.mem_append_left _ hp, hpr⟩
    · rw [hspec.logged hw.1.2 hw.2, ← marked_published a (s.runs.length - 1)] at hnew
      obtain ⟨p, hp, hpr⟩ := List.mem_map.mp hnew
      exact ⟨p, List.mem_append_right _ hp, hpr⟩

theorem inv_step (h : s.Inv opts compile job) (hs : s.step opts compile job x = some s') :
    s'.Inv opts compile job := by
  cases x with
  | other db =>
    simp only [step, Option.ite_none_right_eq_some, Option.some.injEq] at hs
    obtain ⟨hpub, rfl⟩ := hs
    exact h.other hpub
  | attempt env =>
    unfold step at hs
    simp only at hs
    split at hs
    · rename_i hready
      have hactive : ∀ out, s.phase ≠ .done (.ok out) := fun out => by simp [hready]
      split at hs
      · obtain rfl := Option.some.inj hs
        exact h.fail rfl hactive
      · rename_i t out hrun
        obtain rfl := Option.some.inj hs
        exact h.attempt hready hrun
    · exact absurd hs (by simp)
  | refuse e =>
    unfold step at hs
    simp only at hs
    split at hs
    · rename_i t out hphase
      simp only [Option.ite_none_right_eq_some, Option.some.injEq] at hs
      obtain ⟨-, rfl⟩ := hs
      exact h.fail rfl fun out => by simp [hphase]
    · exact absurd hs (by simp)
  | commit place f =>
    unfold step at hs
    simp only at hs
    split at hs
    · rename_i t out hphase
      simp only [Option.ite_none_right_eq_some, Option.some.injEq] at hs
      obtain ⟨-, rfl⟩ := hs
      exact h.commit hphase place f
    · exact absurd hs (by simp)

/-- **An execution is atomic.**  When it returns `Ok`, one of its runs of the guest
has committed as a whole, with the events it consumed, and the output is that run's.
When it returns an error, it has published nothing and, unless the WAL failed one of
its applies, it has written nothing either.  Either way the log has every published
batch, each with the attempt it is of. -/
theorem execute_atomic (h : (execution opts compile job d).Reachable s) {r : Except WasmError Bytes}
    (hdone : s.phase = .done r) :
    s.log.map Prod.snd = s.db.published ∧
      match r with
      | .ok out => ∃ i t, s.Committed opts compile job i t out
      | .error _ => s.own = [] ∧ (s.walFailed = false → ∀ b ∈ s.logged, (none, b) ∈ s.log) := by
  have hinv : s.Inv opts compile job :=
    System.Reaches.invariant h Inv.start fun h _ hs => inv_step h hs
  refine ⟨hinv.published, ?_⟩
  match r, hdone with
  | .ok out, hdone => exact hinv.committed out hdone
  | .error e, hdone =>
    have hown : s.own = [] := hinv.uncommitted fun out => by simp [hdone]
    refine ⟨hown, fun hw b hb => ?_⟩
    obtain ⟨p, hp, rfl⟩ := hinv.written hw b hb
    have hnone : p.1 = none := by
      unfold own at hown
      have := List.filterMap_eq_nil_iff.mp hown p hp
      simpa using this
    obtain ⟨i, b⟩ := p
    obtain rfl : i = none := hnone
    exact hp

/-- An executor that writes a value under a key, and returns 0. -/
def writingGuest : WasmModule where
  entry _ := some fun
    | [] => .call (some [byte 107, byte 118]) (.put 0 1 1 1)
    | _ => .exit 0

/-- A store in which the module `m` is installed. -/
def installedEnv : StoreEnv where
  get _ _ _ := .ok (some [])
  iter _ _ _ _ _ := .ok []

/-- An event of the trigger `t`. -/
def pendingEvent : EventKey := ⟨sysTriggerEventKey [byte 116] [byte 120], List.prefix_append _ _⟩

def drain : Invocation := ⟨.installed [byte 109], "on_touch", [], [pendingEvent], true⟩

def alwaysOptions : WasmOptions := { WasmOptions.default plainFormat with sync := .always }

/-- The store with the event. -/
def pendingStore : Db := ((Db.init alwaysOptions.toOptions).applyLocked alwaysOptions.toOptions
  [.put pendingEvent.1 []] false).1

/-- The attempt conflicts with a write of its key and is retried. -/
theorem execute_atomic_of_retry :
    ∃ s, ((execution alwaysOptions (fun _ => .ok writingGuest) drain pendingStore).Reachable s ∧
      s.phase = .done (.ok [])) ∧ s.attempts = 2 ∧ s.log.map Prod.snd = s.db.published ∧
        ∃ i t, s.Committed alwaysOptions (fun _ => .ok writingGuest) drain i t [] := by
  have hrun : ((execution alwaysOptions (fun _ => .ok writingGuest) drain pendingStore).run
      [.attempt installedEnv,
        .other (pendingStore.applyLocked alwaysOptions.toOptions [.put [byte 107] []] false).1,
        .commit (.chunk [] []) .none, .attempt installedEnv, .commit (.chunk [] []) .none]
      (execution alwaysOptions (fun _ => .ok writingGuest) drain pendingStore).init).any
        (fun s => decide (s.phase.result? = some (.ok []) ∧ s.attempts = 2)) = true := by
    decide +kernel
  obtain ⟨s, hreach, hphase, hattempts⟩ := System.exists_reachable hrun
  have hdone := ExecPhase.result?_eq.mp hphase
  exact ⟨s, ⟨hreach, hdone⟩, hattempts, execute_atomic hreach hdone⟩

/-- **The gray zone.**  The record of a drain is in the WAL when its sync fails.  The
drain returns the error; the next open replays the record, and with it come the
guest's write and the consumption of the event. -/
theorem execute_recovered_after_error :
    ∃ s, (execution alwaysOptions (fun _ => .ok writingGuest) drain pendingStore).Reachable s ∧
      s.phase = .done (.error (.engine (.io "sync failed"))) ∧
        pendingStore.getAtSeq pendingEvent.1 pendingStore.visibleSeqno = .ok (some []) ∧
          ∃ db, s.db.reopen alwaysOptions.toOptions 2 0 = some db ∧
            db.getAtSeq [byte 107] db.visibleSeqno = .ok (some [byte 118]) ∧
              db.getAtSeq pendingEvent.1 db.visibleSeqno = .ok none := by
  have hrun : ((execution alwaysOptions (fun _ => .ok writingGuest) drain pendingStore).run
      [.attempt installedEnv,
        .commit (.chunk [] []) { Faults.none with syncWal := some "sync failed" }]
      (execution alwaysOptions (fun _ => .ok writingGuest) drain pendingStore).init).any
        (fun s => decide (s.phase.result? = some (.error (.engine (.io "sync failed"))) ∧
          (s.db.reopen alwaysOptions.toOptions 2 0).any fun db =>
            decide (db.getAtSeq [byte 107] db.visibleSeqno = .ok (some [byte 118]) ∧
              db.getAtSeq pendingEvent.1 db.visibleSeqno = .ok none))) = true := by
    decide +kernel
  obtain ⟨s, hreach, hphase, hopen⟩ := System.exists_reachable hrun
  obtain ⟨db, hdb, hreads⟩ := Option.any_eq_true _ _ |>.mp hopen
  have hreads := of_decide_eq_true hreads
  exact ⟨s, hreach, ExecPhase.result?_eq.mp hphase, by decide +kernel, db, hdb, hreads⟩

end Execution

end Fluent31
