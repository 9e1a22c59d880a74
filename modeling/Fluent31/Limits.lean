/-
The limits on user keys and values, over all write paths (`db.rs`, `txn.rs`,
`wasm/abi.rs`).

A plain batch, a transaction and a guest's host calls check keys and values each on
their own.  What the store keeps, streams, journals and queues for triggers is not
checked again.  The deletes of a transaction and of a guest are not checked for the
length of the key.

* `accepted_alike_iff` — an op is accepted alike on all three paths exactly if it is
  no delete of a user key over the limit;
* `Engine.withinLimits` — without such deletes everything the store holds and hands on
  is within the limits;
* `one_admission_rule` — both.
-/
import Fluent31.WasmHost
import Fluent31.TxnCap
import Fluent31.TriggerQueue
import Fluent31.VlogFiles

namespace Fluent31

open Ordered

/-! ### One op -/

/-- What `validate_batch` asks of an op. -/
def BatchOp.WithinLimits (opts : Options) (op : BatchOp) : Prop :=
  ValidUserKey op.key ∧ op.key.length ≤ opts.maxKeySize ∧
    (op.value?.getD []).length ≤ opts.maxValueSize

/-- A delete of a user key over the limit. -/
def BatchOp.Overlong (opts : Options) (op : BatchOp) : Prop :=
  op.value? = none ∧ ValidUserKey op.key ∧ opts.maxKeySize < op.key.length

instance (opts : Options) (op : BatchOp) : Decidable (op.Overlong opts) :=
  inferInstanceAs (Decidable (_ ∧ _ ∧ _))

/-- The op as a call on a transaction. -/
def BatchOp.call : BatchOp → Txn.Call
  | put key value => .put key value
  | delete key => .delete key

/-- The op as a guest's host call: its arguments point to the key and the value. -/
def HostCall.Writes (mem : Option Bytes) : HostCall → BatchOp → Prop
  | .put kptr klen vptr vlen, .put key value =>
    readGuest mem kptr klen = .ok key ∧ readGuest mem vptr vlen = .ok value
  | .delete kptr klen, .delete key => readGuest mem kptr klen = .ok key
  | _, _ => False

section

variable {opts : Options} {op : BatchOp}

theorem validateBatch_singleton : validateBatch opts [op] = .ok () ↔ op.WithinLimits opts := by
  rw [validateBatch_eq_ok]
  simp [BatchOp.WithinLimits]

/-- A call on a transaction that has room for it. -/
theorem attempt_eq_ok {t : Txn} (hroom : t.bytes + op.call.size ≤ opts.maxTxnWriteBytes) :
    (t.attempt opts op.call).2 = .ok () ↔ op.call.Checked opts := by
  by_cases hc : op.call.Checked opts
  · rw [Txn.attempt_checked hc, if_neg (by omega)]
    exact iff_of_true rfl hc
  · obtain ⟨err, -, hattempt⟩ := Txn.attempt_unchecked (t := t) hc
    rw [hattempt]
    exact iff_of_false (fun h => nomatch h) hc

/-- The checks of a transaction are those of a batch, but for the deletes over the
limit. -/
theorem checked_iff : op.call.Checked opts ↔ op.WithinLimits opts ∨ op.Overlong opts := by
  cases op with
  | put key value =>
    show _ ↔ _ ∨ some value = none ∧ _
    simp [BatchOp.call, Txn.Call.Checked, BatchOp.WithinLimits, BatchOp.key, BatchOp.value?]
  | delete key =>
    have htotal : key.length ≤ opts.maxKeySize ∨ opts.maxKeySize < key.length := le_or_gt _ _
    simp only [BatchOp.call, Txn.Call.Checked, BatchOp.WithinLimits, BatchOp.Overlong, BatchOp.key,
      BatchOp.value?, Option.getD_none, List.length_nil, Nat.zero_le, and_true, true_and]
    tauto

/-- A host call on the write set says whether the transaction took it. -/
theorem writeTxn_iff {ctx : HostCtx} {sop : StoreOp}
    {write : Txn → Txn × Except Error Unit} {t : Txn} (haccess : ctx.access = .txn t) :
    (ctx.writeTxn sop write).2.toOption.map HostReply.value = some 0 ↔ (write t).2 = .ok () := by
  unfold HostCtx.writeTxn
  rw [haccess]
  simp only
  split
  · rename_i heq
    exact iff_of_true rfl (congrArg Prod.snd heq)
  · rename_i heq
    rw [heq]
    exact iff_of_false (by simp [Except.toOption, ENOSPC]) (fun h => nomatch h)

theorem validateUserKey_isOk {key : Bytes} :
    (validateUserKey key).isOk = false ↔ ¬ ValidUserKey key := by
  rw [← validateUserKey_eq_ok]
  cases validateUserKey key <;> simp [Except.isOk, Except.toBool]

/-- The host's reply to a guest's write says whether the transaction took the op. -/
theorem hostWrite_iff {wopts : WasmOptions} {env : StoreEnv} {n : ℕ} {mem : Option Bytes}
    {ctx : HostCtx}
    {c : HostCall} {t : Txn} (haccess : ctx.access = .txn t) (hc : c.Writes mem op) :
    (ctx.call wopts env n mem c).2.toOption.map HostReply.value = some 0 ↔
      (t.attempt wopts.toOptions op.call).2 = .ok () := by
  -- what the host refuses, the transaction does
  have hrefused : ¬ op.call.Checked wopts.toOptions →
      ((Except.ok { value := EINVAL } : WResult).toOption.map HostReply.value = some 0 ↔
        (t.attempt wopts.toOptions op.call).2 = .ok ()) := by
    intro hno
    obtain ⟨err, -, hattempt⟩ := Txn.attempt_unchecked (t := t) hno
    rw [hattempt]
    exact iff_of_false (by simp [Except.toOption, EINVAL]) (by simp)
  cases c <;> cases op <;> try exact hc.elim
  case put.put kptr klen vptr vlen key value =>
    obtain ⟨hkey, hvalue⟩ := hc
    simp only [HostCtx.call, HostCtx.put, hkey, hvalue]
    split_ifs with hbad
    · refine hrefused fun hok => ?_
      rw [validateUserKey_isOk] at hbad
      obtain ⟨hvalid, hk, hv⟩ : ValidUserKey key ∧ key.length ≤ wopts.maxKeySize ∧
          value.length ≤ wopts.maxValueSize := hok
      rcases hbad with hbad | hbad | hbad
      · exact hbad hvalid
      · omega
      · omega
    · exact writeTxn_iff haccess
  case delete.delete kptr klen key =>
    simp only [HostCtx.call, HostCtx.delete, show readGuest mem kptr klen = .ok key from hc]
    split_ifs with hbad
    · exact hrefused fun hok => validateUserKey_isOk.mp hbad hok
    · exact writeTxn_iff haccess

/-- **One op** is accepted alike by a batch, by a transaction with room for it and by a
guest's host call exactly if it is no delete of a user key over the limit. -/
theorem accepted_alike_iff {wopts : WasmOptions} {env : StoreEnv} {n : ℕ} {mem : Option Bytes}
    {ctx : HostCtx}
    {c : HostCall} {t : Txn} (hroom : t.bytes + op.call.size ≤ wopts.maxTxnWriteBytes)
    (haccess : ctx.access = .txn t) (hc : c.Writes mem op) :
    (((t.attempt wopts.toOptions op.call).2 = .ok () ↔
      validateBatch wopts.toOptions [op] = .ok ()) ∧
        ((ctx.call wopts env n mem c).2.toOption.map HostReply.value = some 0 ↔
          validateBatch wopts.toOptions [op] = .ok ())) ↔
      ¬ op.Overlong wopts.toOptions := by
  rw [hostWrite_iff haccess hc, and_self, attempt_eq_ok hroom, checked_iff, validateBatch_singleton]
  have hdisjoint : op.Overlong wopts.toOptions → ¬ op.WithinLimits wopts.toOptions :=
    fun h hin => absurd hin.2.1 (not_le.mpr h.2.2)
  tauto

end

/-! ### A run -/

/-- A transaction's user writes are what its calls have left. -/
def Submission.Called (opts : Options) : Submission → Prop
  | txn snap writes _ => ∃ calls, ((Txn.new snap).runs opts calls).ops = writes
  | drain snap _ writes _ => ∃ calls, ((Txn.new snap).runs opts calls).ops = writes
  | _ => True

/-- A submission as the callers make it, without a delete over the limit. -/
def Submission.Limited (opts : Options) (sub : Submission) : Prop :=
  sub.Called opts ∧ ∀ op ∈ sub.entry.ops, ¬ op.Overlong opts

def Action.Limited (opts : Options) : Action → Prop
  | .commit sub => sub.Limited opts
  | .enqueue sub => sub.Limited opts
  | _ => True

/-- The op of a stream entry, as a rebuild from a journal makes it again. -/
def StreamEntry.op (x : StreamEntry) : BatchOp :=
  match x.value with
  | some value => .put x.key value
  | none => .delete x.key

/-- **Everything is within the limits** that `validate_batch` sets for user keys. -/
structure Engine.WithinLimits (opts : Options) (e : Engine) : Prop where
  /-- A stored version stands for an op that is. -/
  stored : ∀ x ∈ e.db.stored, isSysKey x.ukey = false →
    ∃ op : BatchOp, op.WithinLimits opts ∧ op.key = x.ukey ∧ op.kind = x.kind ∧
      e.db.vlog.Holds x.ukey x.repr op.value?
  /-- A rebuild's `put` and `delete` accept what is streamed, and journaled. -/
  streamed : ∀ c ∈ e.log, ∀ x ∈ c.stream, isSysKey x.key = false →
    validateBatch opts [x.op] = .ok ()
  /-- They accept what the base of a journal reads. -/
  read : ∀ s key value, isSysKey key = false → stateAfter e.log s key = some value →
    validateBatch opts [.put key value] = .ok ()
  /-- A trigger event is that of an op within the limits. -/
  captured : ∀ c ∈ e.log, ∀ ev ∈ c.events, ∃ d, ∃ p ∈ c.ops.zipIdx c.base,
    p.1.WithinLimits opts ∧ ev = eventOf opts d p.1 p.2

variable {opts : Options} {e e' : Engine}

/-- Ops of user keys are within the limits. -/
def OpsWithin (opts : Options) (ops : List BatchOp) : Prop :=
  ∀ op ∈ ops, isSysKey op.key = false → op.WithinLimits opts

/-- What the steps preserve. -/
structure Engine.Limited (opts : Options) (e : Engine) : Prop where
  queue : ∀ q ∈ e.queue, OpsWithin opts q.ops
  log : ∀ c ∈ e.log, OpsWithin opts c.ops
  events : ∀ c ∈ e.log, ∀ ev ∈ c.events, ∃ d, ∃ p ∈ c.ops.zipIdx c.base,
    isSysKey p.1.key = false ∧ ev = eventOf opts d p.1 p.2
  /-- Clean-ups delete queue keys only. -/
  clears : ∀ name keys, .batch name keys ∈ e.clears → ∀ key ∈ keys, isSysKey key = true

theorem isSysKey_of_prefix {p key : Bytes} (hp : isSysKey p = true) (h : p <+: key) :
    isSysKey key = true := by
  obtain ⟨rest, rfl⟩ := h
  cases p with
  | nil => exact absurd hp (by decide)
  | cons b p => exact hp

theorem isSysKey_queue {key : Bytes} (h : QUEUE_PREFIX <+: key) : isSysKey key = true :=
  isSysKey_of_prefix (by decide) h

/-- The writes of a transaction. -/
theorem opsWithin_of_called {snap : ℕ} {calls : List Txn.Call}
    (hlong : ∀ op ∈ ((Txn.new snap).runs opts calls).ops, ¬ op.Overlong opts) :
    OpsWithin opts ((Txn.new snap).runs opts calls).ops := by
  intro op hop _
  obtain ⟨hkey, hput⟩ := (Txn.admitted_runs (Txn.admitted_new snap) calls).of_mem_ops hop
  cases hvalue : op.value? with
  | none =>
    refine ⟨hkey, ?_, ?_⟩
    · by_contra hlen
      exact hlong op hop ⟨hvalue, hkey, not_le.mp hlen⟩
    · rw [hvalue]
      exact Nat.zero_le _
  | some value =>
    obtain ⟨hlen, hval⟩ := hput value hvalue
    exact ⟨hkey, hlen, by rwa [hvalue]⟩

/-- What is submitted. -/
theorem Submission.Limited.within {sub : Submission} (h : sub.Limited opts)
    (hallowed : sub.Allowed opts e)
    (hclears : ∀ name keys, .batch name keys ∈ e.clears → ∀ key ∈ keys, isSysKey key = true) :
    OpsWithin opts sub.entry.ops := by
  obtain ⟨hcalled, hlong⟩ := h
  cases sub with
  | batch ops => exact fun op hop _ => hallowed.2 op hop
  | txn snap writes locks =>
    obtain ⟨calls, rfl⟩ := hcalled
    exact opsWithin_of_called hlong
  | drain snap consume writes locks =>
    obtain ⟨calls, rfl⟩ := hcalled
    intro op hop huser
    rcases List.mem_append.mp hop with hop' | hop'
    · obtain ⟨key, hkey, rfl⟩ := List.mem_map.mp hop'
      exact absurd ((isSysKey_queue (hallowed.2.1 key hkey)).symm.trans huser) (by decide)
    · exact opsWithin_of_called (fun op hop => hlong op (List.mem_append_right _ hop)) op hop' huser
  | system ops =>
    intro op hop huser
    exact absurd ((hallowed.2 op hop).1.symm.trans huser) (by decide)
  | define d =>
    intro op hop huser
    obtain rfl := List.mem_singleton.mp hop
    have hsys := isSysKey_of_prefix (by decide) (List.prefix_append DEF_PREFIX d.name)
    exact absurd (hsys.symm.trans huser) (by decide)
  | undefine name =>
    intro op hop huser
    obtain rfl := List.mem_singleton.mp hop
    have hsys := isSysKey_of_prefix (by decide) (List.prefix_append DEF_PREFIX name)
    exact absurd (hsys.symm.trans huser) (by decide)
  | clear name keys =>
    intro op hop huser
    obtain ⟨key, hkey, rfl⟩ := List.mem_map.mp hop
    exact absurd ((hclears name keys hallowed.2 key hkey).symm.trans huser) (by decide)

/-- A committed op of a user key is within the limits. -/
theorem Engine.Limited.of_mem_fullOps (h : e.Limited opts) {c : CommitRec} (hc : c ∈ e.log)
    {op : BatchOp}
    (hop : op ∈ c.fullOps) (huser : isSysKey op.key = false) : op.WithinLimits opts := by
  rcases List.mem_append.mp hop with hop | hev
  · exact h.log c hc op hop huser
  · obtain ⟨d, p, -, -, rfl⟩ := h.events c hc op hev
    have hqueue : QUEUE_PREFIX <+: (eventOf opts d p.1 p.2).key := by
      unfold eventOf
      split
      · exact queuePrefix_eventKey _ _
      · exact List.prefix_append _ _
    exact absurd ((isSysKey_queue hqueue).symm.trans huser) (by decide)

/-- And so is that of a version. -/
theorem Engine.Limited.version (h : e.Limited opts) (hinv : e.Inv) {x : Entry}
    (hx : x ∈ historyOf e.log) (huser : isSysKey x.ukey = false) :
    ∃ op : BatchOp, op.WithinLimits opts ∧ op.key = x.ukey ∧ op.kind = x.kind ∧
      e.db.vlog.Holds x.ukey x.repr op.value? := by
  obtain ⟨p, hp, -, hkey, hkind, hholds⟩ := mem_historyOf hinv.consistent.encodes hx
  obtain ⟨c, hc, hp⟩ := List.mem_flatMap.mp hp
  exact ⟨p.1, h.of_mem_fullOps hc (List.fst_mem_of_mem_zipIdx hp) (hkey ▸ huser), hkey,
    hkind, hholds⟩

/-- A live record holds the value of a committed op. -/
theorem Engine.Limited.relocated (h : e.Limited opts) (hinv : e.Inv) {records : List VlogRecord}
    (hrecords : ∀ r ∈ records, r ∈ e.db.vlog.records) :
    OpsWithin opts (relocationOps e.db records) := by
  have hcons := hinv.consistent
  intro op hop huser
  obtain ⟨r, hr, hop⟩ := List.mem_filterMap.mp hop
  split at hop
  · rename_i x hfound
    obtain ⟨⟨hput, hptr⟩, rfl⟩ : (x.kind = .put ∧ x.repr = .ptr r.ptr) ∧
        BatchOp.put r.key r.value = op := by
      simpa using hop
    have hfloor : e.floor ≤ MAX_SEQNO :=
      le_trans hinv.floor_le_visible (le_of_lt hcons.wf.visible_lt)
    obtain ⟨hx, hkey, -, -⟩ := hcons.newest_of_found hfloor hfound
    obtain ⟨op, ⟨hvalid, hlen, hval⟩, hopkey, -, hholds⟩ :=
      h.version hinv hx (by rwa [show x.ukey = r.key from hkey])
    rw [hptr] at hholds
    obtain ⟨w, hvalue, hmem⟩ := hholds
    -- one record at one place
    have heq := hcons.wf.vlog.eq_of_ptr hmem (hrecords r hr) rfl
    obtain rfl : w = r.value := congrArg VlogRecord.value heq
    rw [show op.key = r.key from hopkey.trans hkey] at hvalid hlen
    rw [hvalue] at hval
    exact ⟨hvalid, hlen, hval⟩
  · exact absurd hop (by simp)

/-- What a step does to the log, the commit queue and the clean-ups. -/
inductive Engine.Handed (opts : Options) (e e' : Engine) : Action → Prop
  | commit {sub : Submission} : sub.Allowed opts e →
      (∀ c ∈ e'.log, c ∈ e.log ∨ c = recOf opts e.db sub.entry) → e'.queue = e.queue →
      (∀ t ∈ e'.clears, t ∈ e.clears) → Handed opts e e' (.commit sub)
  | enqueue {sub : Submission} : sub.Allowed opts e → e'.log = e.log →
    e'.queue = e.queue ++ [sub.entry] →
      (∀ t ∈ e'.clears, t ∈ e.clears) → Handed opts e e' (.enqueue sub)
  | group {n : ℕ} : e' = e.group opts n → Handed opts e e' (.group n)
  | relocate {records : List VlogRecord} : (∀ r ∈ records, r ∈ e.db.vlog.records) →
      (∀ c ∈ e'.log, c ∈ e.log ∨ c = recOf opts e.db ⟨relocationOps e.db records, none, false⟩) →
      e'.queue = e.queue → e'.clears = e.clears → Handed opts e e' (.relocate records)
  | other {a : Action} : e'.log ⊆ e.log → e'.queue.Sublist e.queue →
      (∀ t ∈ e'.clears, t ∈ e.clears ∨ (∃ name, t = .looked name) ∨
        ∃ name, t = .batch name ((e.db.liveKeys (sysTriggerEventKey name [])).take 512)) →
      Handed opts e e' a

theorem mem_finishTask {sub : Submission} {t : ClearTask} (ht : t ∈ (e.finishTask sub).clears) :
    t ∈ e.clears := by
  unfold Engine.finishTask at ht
  split at ht
  · exact List.mem_of_mem_erase ht
  · exact ht

theorem mem_log_commit {q : QueuedEntry} {c : CommitRec} (hc : c ∈ (e.commit opts q).log) :
    c ∈ e.log ∨ c = recOf opts e.db q := by
  unfold Engine.commit at hc
  simp only at hc
  split at hc
  · rcases List.mem_append.mp hc with hc | hc
    · exact Or.inl hc
    · split at hc
      · exact absurd hc List.not_mem_nil
      · exact Or.inr (List.mem_singleton.mp hc)
  · exact Or.inl (by simpa [Engine.committed] using hc)

theorem mem_log_relocate {records : List VlogRecord} {c : CommitRec}
    (hc : c ∈ (e.relocate opts records).log) :
    c ∈ e.log ∨ c = recOf opts e.db ⟨relocationOps e.db records, none, false⟩ := by
  unfold Engine.relocate at hc
  simp only at hc
  split at hc
  · exact Or.inl hc
  · split at hc
    · exact (List.mem_append.mp hc).imp_right List.mem_singleton.mp
    · exact Or.inl (by simpa [Engine.committed] using hc)

theorem step_handed {a : Action} (hs : e.step opts a = some e') : e.Handed opts e' a := by
  cases a with
  | commit sub =>
    obtain ⟨⟨-, hallowed⟩, rfl⟩ := Engine.guarded_eq_some hs
    obtain ⟨clears, hfinish⟩ := Engine.finishTask_eq (e.commit opts sub.entry) sub
    have hframe : (e.commit opts sub.entry).queue = e.queue ∧
        (e.commit opts sub.entry).clears = e.clears := by
      unfold Engine.commit
      simp only
      split <;> exact ⟨rfl, rfl⟩
    refine .commit hallowed (fun c hc => mem_log_commit ?_) ?_ fun t ht =>
      hframe.2 ▸ mem_finishTask ht
    · rwa [hfinish] at hc
    · rw [hfinish]
      exact hframe.1
  | group n =>
    obtain ⟨-, rfl⟩ := Engine.guarded_eq_some hs
    exact .group rfl
  | relocate records =>
    obtain ⟨hrecords, rfl⟩ := Engine.guarded_eq_some hs
    have hframe : (e.relocate opts records).queue = e.queue ∧
        (e.relocate opts records).clears = e.clears := by
      unfold Engine.relocate
      simp only
      split
      · exact ⟨rfl, rfl⟩
      · split <;> exact ⟨rfl, rfl⟩
    exact .relocate hrecords (fun c hc => mem_log_relocate hc) hframe.1 hframe.2
  | enqueue sub =>
    obtain ⟨⟨-, hallowed⟩, rfl⟩ := Engine.guarded_eq_some hs
    refine .enqueue hallowed ?_ ?_ fun t ht => ?_
    · obtain ⟨clears, heq⟩ := Engine.finishTask_eq _ sub
      rw [heq]
    · obtain ⟨clears, heq⟩ := Engine.finishTask_eq _ sub
      rw [heq]
    · have hmem := mem_finishTask ht
      exact hmem
  | reopen n orphan =>
    obtain ⟨db', -, rfl⟩ := Option.map_eq_some_iff.mp hs
    exact .other (fun c hc => List.mem_of_mem_filter hc) (List.nil_sublist _)
      fun t ht => absurd ht List.not_mem_nil
  | withdraw i =>
    obtain ⟨q, -, rfl⟩ := Option.map_eq_some_iff.mp hs
    exact .other (fun _ h => h) (List.eraseIdx_sublist _ _) fun _ h => Or.inl h
  | clearLook name =>
    obtain ⟨-, rfl⟩ := Engine.guarded_eq_some hs
    refine .other (fun _ h => h) (.refl _) fun t ht => ?_
    rcases List.mem_cons.mp ht with rfl | ht
    · exact Or.inr (Or.inl ⟨name, rfl⟩)
    · exact Or.inl ht
  | clearRead name =>
    obtain ⟨-, rfl⟩ := Engine.guarded_eq_some hs
    refine .other (fun _ h => h) (.refl _) fun t ht => ?_
    rcases List.mem_cons.mp ht with rfl | ht
    · exact Or.inr (Or.inr ⟨name, rfl⟩)
    · exact Or.inl (List.mem_of_mem_erase ht)
  -- everything else leaves the log and the queue
  | createTrigger _ | deleteTrigger _ | deleteDone | schedBegin _ | advance _ _ | release _ =>
    obtain ⟨-, rfl⟩ := Engine.guarded_eq_some hs
    exact .other (fun _ h => h) (.refl _) fun _ h => Or.inl h
  | rotate | schedExit | snapshot | snapshotFlushed =>
    obtain rfl := Option.some_inj.mp hs
    exact .other (fun _ h => h) (.refl _) fun _ h => Or.inl h
  | flush | snapshotAt _ | pin _ | unpin _ =>
    obtain ⟨r, -, rfl⟩ := Option.map_eq_some_iff.mp hs
    exact .other (fun _ h => h) (.refl _) fun _ h => Or.inl h
  | schedStart | schedPreempt | schedSchedule | schedSlice =>
    obtain ⟨s, -, hs⟩ := Option.bind_eq_some_iff.mp hs
    obtain ⟨r, -, rfl⟩ := Option.map_eq_some_iff.mp hs
    exact .other (fun _ h => h) (.refl _) fun _ h => Or.inl h

/-- A committed entry of user keys within the limits. -/
theorem Engine.Limited.commits {log : List CommitRec} (h : e.Limited opts)
    (hlog : ∀ c ∈ log, c ∈ e.log ∨ ∃ q : QueuedEntry, OpsWithin opts q.ops ∧ c.ops = q.ops ∧
      c.events = e.db.captureEvents opts q.ops c.base q.capture) :
    (∀ c ∈ log, OpsWithin opts c.ops) ∧ ∀ c ∈ log, ∀ ev ∈ c.events, ∃ d, ∃ p ∈ c.ops.zipIdx c.base,
      isSysKey p.1.key = false ∧ ev = eventOf opts d p.1 p.2 := by
  refine ⟨fun c hc => ?_, fun c hc ev hev => ?_⟩
  · rcases hlog c hc with hc | ⟨q, hq, hops, -⟩
    · exact h.log c hc
    · rwa [hops]
  · rcases hlog c hc with hc | ⟨q, -, hops, hevents⟩
    · exact h.events c hc ev hev
    · rw [hevents] at hev
      unfold Db.captureEvents at hev
      split at hev
      · obtain ⟨p, hp, huser, d, -, -, heq⟩ := mem_captureOps.mp hev
        exact ⟨d, p, by rwa [hops], huser, heq⟩
      · exact absurd hev List.not_mem_nil

/-- **One step** keeps the ops of user keys within the limits. -/
theorem limited_step (hinv : e.Inv) (h : e.Limited opts) {a : Action} (hok : a.Limited opts)
    (hs : e.step opts a = some e') : e'.Limited opts := by
  cases step_handed hs with
  | @commit sub hallowed hlog hqueue hclears =>
    have hops := Submission.Limited.within hok hallowed h.clears
    obtain ⟨h₁, h₂⟩ := h.commits fun c hc => (hlog c hc).imp_right fun heq =>
      ⟨sub.entry, hops, by rw [heq]; rfl, by rw [heq]; rfl⟩
    exact ⟨fun q hq => h.queue q (hqueue ▸ hq), h₁, h₂, fun name keys ht =>
      h.clears name keys (hclears _ ht)⟩
  | @enqueue sub hallowed hlog hqueue hclears =>
    refine ⟨fun q hq => ?_, hlog ▸ h.log, hlog ▸ h.events, fun name keys ht =>
      h.clears name keys (hclears _ ht)⟩
    rw [hqueue] at hq
    rcases List.mem_append.mp hq with hq | hq
    · exact h.queue q hq
    · rw [List.mem_singleton.mp hq]
      exact Submission.Limited.within hok hallowed h.clears
  | @group n heq =>
    subst heq
    have hlog : ∀ c ∈ (e.group opts n).log, c ∈ e.log ∨ ∃ q : QueuedEntry, OpsWithin opts q.ops ∧
        c.ops = q.ops ∧ c.events = e.db.captureEvents opts q.ops c.base q.capture := by
      intro c hc
      refine (List.mem_append.mp hc).imp_right fun hc => ?_
      obtain ⟨q, hq, hops, -, -, hevents⟩ := mem_groupRecs hc
      exact ⟨q, h.queue q (List.mem_of_mem_take (mem_includedEntries hq).1), hops, hevents⟩
    obtain ⟨h₁, h₂⟩ := h.commits hlog
    exact ⟨fun q hq => h.queue q (List.mem_of_mem_drop hq), h₁, h₂, h.clears⟩
  | @relocate records hrecords hlog hqueue hclears =>
    obtain ⟨h₁, h₂⟩ := h.commits fun c hc => (hlog c hc).imp_right fun heq =>
      ⟨⟨relocationOps e.db records, none, false⟩,
        h.relocated hinv hrecords, by rw [heq]; rfl, by rw [heq]; rfl⟩
    exact ⟨hqueue ▸ h.queue, h₁, h₂, hclears ▸ h.clears⟩
  | other hlog hqueue hclears =>
    refine ⟨fun q hq => h.queue q (hqueue.subset hq), fun c hc => h.log c (hlog hc), fun c hc =>
      h.events c (hlog hc), fun name keys ht key hkey => ?_⟩
    rcases hclears _ ht with ht | ⟨name', heq⟩ | ⟨name', heq⟩
    · exact h.clears name keys ht key hkey
    · exact absurd heq (by simp)
    · obtain ⟨rfl, rfl⟩ : name = name' ∧ keys = _ := ClearTask.batch.inj heq
      -- the keys of a clearing batch were found under the queue prefix
      have hlive := List.mem_of_mem_take hkey
      have hpre := (List.mem_filter.mp (mem_sortDedup.mp (List.mem_of_mem_filter hlive))).2
      exact isSysKey_queue ((queuePrefix_eventKey name []).trans (of_decide_eq_true hpre))

theorem limited_of_reaches (h : (engine opts).Reaches (fun _ a => a.Limited opts) e) :
    e.Limited opts :=
  h.invariant_of_reachable
    ⟨fun _ hq => absurd hq List.not_mem_nil, fun _ hc => absurd hc List.not_mem_nil,
      fun _ hc => absurd hc List.not_mem_nil, fun _ _ ht => absurd ht List.not_mem_nil⟩
    fun hreach hl hok hs => limited_step (inv_of_reachable hreach) hl hok hs

/-- What a replay leaves under a key, one of its ops has put there. -/
theorem exists_of_replay {ops : List (BatchOp × ℕ)} {s : ℕ} {key value : Bytes}
    (h : replay ops s key = some value) : ∃ p ∈ ops, p.1.key = key ∧ p.1.value? = some value := by
  induction ops using List.reverseRecOn with
  | nil => exact absurd h (by simp [replay])
  | append_singleton ops p ih =>
    rw [replay_concat] at h
    by_cases hp : p.2 ≤ s ∧ key = p.1.key
    · rw [if_pos hp.1, applyOp, if_pos hp.2] at h
      exact ⟨p, by simp, hp.2.symm, h⟩
    · have hrest : replay ops s key = some value := by
        split at h
        · rename_i hle
          rwa [applyOp, if_neg fun heq => hp ⟨hle, heq⟩] at h
        · exact h
      obtain ⟨q, hq, hkey, hvalue⟩ := ih hrest
      exact ⟨q, List.mem_append_left _ hq, hkey, hvalue⟩

/-- **Everything the store holds and hands on is within the limits**, in every run
whose transactions are filled by calls and delete no user key over the limit. -/
theorem Engine.withinLimits (h : (engine opts).Reaches (fun _ a => a.Limited opts) e) :
    e.WithinLimits opts := by
  have hl := limited_of_reaches h
  have hinv := inv_of_reachable h.reachable
  refine ⟨fun x hx huser => hl.version hinv (hinv.consistent.retains.sub x hx) huser,
    fun c hc x hx huser => ?_, fun s key value huser hread => ?_, fun c hc ev hev => ?_⟩
  · obtain ⟨p, hp, rfl⟩ := List.mem_map.mp hx
    have hop : (StreamEntry.op
        ⟨p.1.key, p.2, c.base + c.fullOps.length - 1, p.1.kind, p.1.value?⟩) = p.1 := by
      cases hp1 : p.1 <;> rfl
    rw [hop]
    exact validateBatch_singleton.mpr (hl.of_mem_fullOps hc (List.fst_mem_of_mem_zipIdx hp) huser)
  · obtain ⟨p, hp, hkey, hvalue⟩ := exists_of_replay hread
    obtain ⟨c, hc, hp⟩ := List.mem_flatMap.mp hp
    obtain ⟨hvalid, hlen, hval⟩ :=
      hl.of_mem_fullOps hc (List.fst_mem_of_mem_zipIdx hp) (hkey ▸ huser)
    rw [hkey] at hvalid hlen
    rw [hvalue] at hval
    exact validateBatch_singleton.mpr ⟨hvalid, hlen, hval⟩
  · obtain ⟨d, p, hp, huser, heq⟩ := hl.events c hc ev hev
    exact ⟨d, p, hp, hl.log c hc p.1 (List.fst_mem_of_mem_zipIdx hp) huser, heq⟩

/-- **One admission rule for all write paths**, but for the deletes over the limit: a
batch, a transaction and a guest accept the same ops, and what the store keeps, streams,
reads and captures is within the limits of a batch. -/
theorem one_admission_rule (wopts : WasmOptions) :
    (∀ (op : BatchOp) (t : Txn) (ctx : HostCtx) (env : StoreEnv) (n : ℕ) (mem :
        Option Bytes) (c : HostCall),
      t.bytes + op.call.size ≤ wopts.maxTxnWriteBytes → ctx.access = .txn t → c.Writes mem op →
      ((((t.attempt wopts.toOptions op.call).2 = .ok () ↔
        validateBatch wopts.toOptions [op] = .ok ()) ∧
          ((ctx.call wopts env n mem c).2.toOption.map HostReply.value = some 0 ↔
            validateBatch wopts.toOptions [op] = .ok ())) ↔
        ¬ op.Overlong wopts.toOptions)) ∧
    ∀ e, (engine wopts.toOptions).Reaches (fun _ a => a.Limited wopts.toOptions) e →
      e.WithinLimits wopts.toOptions :=
  ⟨fun _ _ _ _ _ _ _ hroom haccess hc => accepted_alike_iff hroom haccess hc, fun _ h =>
    Engine.withinLimits h⟩

/-- The default options of a store and of the runtime. -/
def plainWasm : WasmOptions := { Options.default plainFormat with }

/-- A transaction of a put and a delete. -/
def smallTxn : List Action :=
  [.snapshot, .enqueue (.txn 0 [.delete [byte 106], .put [byte 107] [byte 1]] []), .group 1]

theorem limited_smallTxn : ∀ a ∈ smallTxn, a.Limited plainWasm.toOptions := by
  intro a ha
  simp only [smallTxn, List.mem_cons, List.not_mem_nil, or_false] at ha
  obtain rfl | rfl | rfl := ha
  · trivial
  · exact ⟨⟨[.put [byte 107] [byte 1], .delete [byte 106]], by decide +kernel⟩, by decide +kernel⟩
  · trivial

/-- A put through all three paths, and a transaction in the log. -/
theorem one_admission_rule_small :
    (validateBatch plainWasm.toOptions [.put [byte 107] [byte 1]] = .ok () ↔
      ((HostCtx.new (.txn (Txn.new 0)) []).call plainWasm
        ⟨fun _ _ _ => .ok none, fun _ _ _ _ _ => .ok []⟩ 0
        (some [byte 107, byte 1]) (.put 0 1 1 1)).2.toOption.map HostReply.value = some 0) ∧
    ∃ e : Engine, e.log.length = 1 ∧ e.WithinLimits plainWasm.toOptions := by
  have hrule := one_admission_rule plainWasm
  constructor
  · exact ((hrule.1 (.put [byte 107] [byte 1]) (Txn.new 0) (HostCtx.new (.txn (Txn.new 0)) [])
      ⟨fun _ _ _ => .ok none, fun _ _ _ _ _ => .ok []⟩ 0 (some [byte 107, byte 1]) (.put 0 1 1 1)
      (by decide) rfl ⟨rfl, rfl⟩).mpr (by decide)).2.symm
  · have hrun : (((engine plainWasm.toOptions).run smallTxn (engine plainWasm.toOptions).init).any
        fun e => decide (e.log.length = 1)) = true := by
      decide +kernel
    obtain ⟨e, hreach, hlen⟩ := System.exists_reaches_of (fun a ha _ => limited_smallTxn a ha) hrun
    exact ⟨e, hlen, hrule.2 e hreach⟩

/-- A delete one byte over the default limit: a batch refuses it, a transaction and a
guest take it. -/
theorem overlong_delete : ∃ key : Bytes, ValidUserKey key ∧
    validateBatch plainWasm.toOptions [.delete key] ≠ .ok () ∧
    ((Txn.new 0).delete plainWasm.toOptions key).2 = .ok () ∧
    ((HostCtx.new (.txn (Txn.new 0)) []).call plainWasm
      ⟨fun _ _ _ => .ok none, fun _ _ _ _ _ => .ok []⟩ 0
      (some key) (.delete 0 (BitVec.ofNat 32 key.length))).2.toOption.map HostReply.value =
        some 0 := by
  obtain ⟨key, hkey, hlen⟩ := exists_userKey (show 0 < 16 * 2 ^ 10 + 1 by omega)
  have hlimit : plainWasm.maxKeySize = 16 * 2 ^ 10 := rfl
  have hroom : (Txn.new 0).bytes + (BatchOp.delete key).call.size ≤ plainWasm.maxTxnWriteBytes := by
    show 0 + (key.length + 0) ≤ 256 * 2 ^ 20
    omega
  have htaken : ((Txn.new 0).attempt plainWasm.toOptions (BatchOp.delete key).call).2 = .ok () :=
    (attempt_eq_ok hroom).mpr hkey
  have hreads : (HostCall.delete 0 (BitVec.ofNat 32 key.length)).Writes (some key)
      (.delete key) := by
    have hlen32 : (BitVec.ofNat 32 key.length).toNat = key.length := by
      rw [BitVec.toNat_ofNat]
      omega
    show readGuest (some key) 0 (BitVec.ofNat 32 key.length) = .ok key
    simp only [readGuest, hlen32]
    rw [if_neg (by omega), if_neg (by simp)]
    simp
  refine ⟨key, hkey, fun hok => ?_, htaken, (hostWrite_iff rfl hreads).mpr htaken⟩
  have hin := (validateBatch_singleton.mp hok).2.1
  rw [show (BatchOp.delete key).key.length = key.length from rfl] at hin
  omega

end Fluent31
