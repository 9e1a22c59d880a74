/-
Change events in the store (`trigger.rs`, `db.rs`).

A changes-mode event is a record under a key with the commit seqno of its op.  The commit
of the op writes it; from then on a relocation may write it again as it is, and a drain or
a clean-up deletes it.

* `Traces` — what the ops of a log say of queue keys and of definition records;
* `Engine.Traced` — the same of a state, with what its queue and its clean-ups hold;
* `traced_step` — every step keeps it;
* `Traced.value_iff` — the record of a change is visible exactly if the change was
  captured and no commit has deleted it.
-/
import Fluent31.DefRecords
import Fluent31.Streams
import Fluent31.TriggerInput

namespace Fluent31

variable {opts : Options} {e e' : Engine} {log recs : List CommitRec}

/-! ### Change keys -/

/-- The key of the change that was committed at `n`, for a trigger of that name. -/
structure IsChangeKey (name : Bytes) (n : ℕ) (key : Bytes) : Prop where
  plain : byte 0 ∉ name
  seq_le : n ≤ MAX_SEQNO
  eq : key = sysTriggerChangeKey name n

theorem isChangeKey_self {name : Bytes} {n : ℕ} (hname : byte 0 ∉ name) (hn : n ≤ MAX_SEQNO) :
    IsChangeKey name n (sysTriggerChangeKey name n) := ⟨hname, hn, rfl⟩

theorem IsChangeKey.queue {name key : Bytes} {n : ℕ} (h : IsChangeKey name n key) :
    QUEUE_PREFIX <+: key :=
  h.eq ▸ List.prefix_append _ _

/-- A change key tells its trigger and its seqno. -/
theorem IsChangeKey.unique {name name' key : Bytes} {n n' : ℕ} (h : IsChangeKey name n key)
    (h' : IsChangeKey name' n' key) : name = name' ∧ n = n' := by
  have hmax : MAX_SEQNO < 256 ^ 8 := by unfold MAX_SEQNO; omega
  obtain ⟨hname, hbe⟩ :=
    name_split h.plain h'.plain (List.append_cancel_left (h.eq.symm.trans h'.eq))
  exact ⟨hname, putLe_injective (lt_of_le_of_lt h.seq_le hmax) (lt_of_le_of_lt h'.seq_le hmax)
    (List.reverse_injective hbe)⟩

/-- Seqnos stay below 2⁵⁶, so that the first of their bytes is zero. -/
theorem head_putBe {n : ℕ} (hn : n ≤ MAX_SEQNO) : (putBe 8 n).head? = some (byte 0) := by
  have hhigh : n / 256 / 256 / 256 / 256 / 256 / 256 / 256 = 0 := by
    unfold MAX_SEQNO at hn
    omega
  have hsplit : putBe 8 n = byte (n / 256 / 256 / 256 / 256 / 256 / 256 / 256) ::
      [byte (n / 256 / 256 / 256 / 256 / 256 / 256), byte (n / 256 / 256 / 256 / 256 / 256),
        byte (n / 256 / 256 / 256 / 256), byte (n / 256 / 256 / 256), byte (n / 256 / 256),
          byte (n / 256), byte n] := rfl
  rw [hsplit, hhigh]
  rfl

/-- The key of a touched user key is no change key. -/
theorem IsChangeKey.ne_eventKey {name name' ukey : Bytes} {n : ℕ} (hname' : byte 0 ∉ name')
    (huser : isSysKey ukey = false) (h : IsChangeKey name n (sysTriggerEventKey name' ukey)) :
    False := by
  obtain ⟨-, hukey⟩ := name_split hname' h.plain (List.append_cancel_left h.eq)
  rw [hukey] at huser
  exact absurd (head_putBe h.seq_le) (of_decide_eq_false huser)

/-- The events a commit captures for a trigger that is named as its key says. -/
theorem eventOf_change {d : TriggerDef} {op : BatchOp} {n m : ℕ} {name key value : Bytes}
    (hd : byte 0 ∉ d.name) (hn : n ≤ MAX_SEQNO) (huser : isSysKey op.key = false)
    (hev : .put key value = eventOf opts d op n) (hkey : IsChangeKey name m key) :
    d.mode = .changes ∧ name = d.name ∧ m = n ∧
      value = encodeChangeRecord op (inlineCapOf opts) := by
  unfold eventOf at hev
  cases hmode : d.mode with
  | keys =>
    rw [hmode] at hev
    obtain ⟨rfl, -⟩ := BatchOp.put.inj hev
    exact (hkey.ne_eventKey hd huser).elim
  | changes =>
    rw [hmode] at hev
    obtain ⟨rfl, rfl⟩ := BatchOp.put.inj hev
    obtain ⟨rfl, rfl⟩ := hkey.unique (isChangeKey_self hd hn)
    exact ⟨rfl, rfl, rfl, rfl⟩

/-! ### The last op on a key -/

/-- A value was put by the last op on the key. -/
theorem replay_eq_some {ops : List (BatchOp × ℕ)} (hpair : ops.Pairwise fun a b => a.2 < b.2)
    {k v : Bytes} {s : ℕ} (h : replay ops s k = some v) :
    ∃ p ∈ ops, p.1 = .put k v ∧ ∀ q ∈ ops, q.1.key = k → q.2 ≤ s → q.2 ≤ p.2 := by
  induction ops using List.reverseRecOn with
  | nil => exact absurd h (by simp [replay])
  | append_singleton ops p ih =>
    obtain ⟨hops, -, hlast⟩ := List.pairwise_append.mp hpair
    rw [replay_concat] at h
    by_cases hp : p.2 ≤ s ∧ k = p.1.key
    · rw [if_pos hp.1, applyOp, if_pos hp.2] at h
      refine ⟨p, List.mem_append_right _ (List.mem_singleton_self p), ?_, fun q hq _ _ => ?_⟩
      · cases hop : p.1 with
        | put key value =>
          rw [hop] at h
          rw [hp.2, hop]
          exact congrArg _ (Option.some_inj.mp h)
        | delete key =>
          rw [hop] at h
          exact absurd h (by simp [BatchOp.value?])
      · rcases List.mem_append.mp hq with hq | hq
        · exact le_of_lt (hlast q hq p (List.mem_singleton_self p))
        · exact (List.mem_singleton.mp hq) ▸ le_rfl
    · -- it is not an op on the key
      have hrest : replay ops s k = some v := by
        split at h
        · rename_i hle
          rwa [applyOp, if_neg fun hk => hp ⟨hle, hk⟩] at h
        · exact h
      obtain ⟨r, hr, hput, hmax⟩ := ih hops hrest
      refine ⟨r, List.mem_append_left _ hr, hput, fun q hq hk hqs => ?_⟩
      rcases List.mem_append.mp hq with hq | hq
      · exact hmax q hq hk hqs
      · obtain rfl := List.mem_singleton.mp hq
        exact absurd ⟨hqs, hk.symm⟩ hp

/-- Without a delete a key that was written is there. -/
theorem replay_isSome {ops : List (BatchOp × ℕ)} {p : BatchOp × ℕ} {s : ℕ} (hp : p ∈ ops)
    (hs : p.2 ≤ s)
    (hnone : ∀ q ∈ ops, q.1 ≠ .delete p.1.key) : ∃ v, replay ops s p.1.key = some v := by
  rcases foldl_applyOp_cases (ops.filter fun q => decide (q.2 ≤ s)) (fun _ => none) p.1.key with
    ⟨-, hfree⟩ | ⟨q, hq, hkey, hvalue⟩
  · exact absurd rfl (hfree p (List.mem_filter.mpr ⟨hp, decide_eq_true hs⟩))
  · cases hop : q.1 with
    | put key value => exact ⟨value, hvalue.trans (congrArg BatchOp.value? hop)⟩
    | delete key =>
      refine absurd ?_ (hnone q (List.mem_of_mem_filter hq))
      rw [← hkey, hop]
      rfl

/-! ### The log -/

/-- A definition record. -/
def DefRecord (value : Bytes) : Prop :=
  ∃ d : TriggerDef, byte 0 ∉ d.name ∧ d.name.length < 2 ^ 64 ∧ value = encodeDef d

/-- The change of an op was captured for a trigger of that name. -/
def Captured (opts : Options) (log : List CommitRec) (name : Bytes) (p : BatchOp × ℕ) : Prop :=
  ∃ c ∈ log, p ∈ c.ops.zipIdx c.base ∧
    .put (sysTriggerChangeKey name p.2) (encodeChangeRecord p.1 (inlineCapOf opts)) ∈ c.events

/-- A commit deleted the key. -/
def Deleted (log : List CommitRec) (key : Bytes) : Prop := ∃ c ∈ log, .delete key ∈ c.fullOps

/-- What the ops of the commits say of queue keys and of definition records. -/
structure Traces (opts : Options) (log : List CommitRec) : Prop where
  records : ∀ c ∈ log, ∀ key value, .put key value ∈ c.fullOps → DEF_PREFIX <+: key →
    DefRecord value
  events : ∀ c ∈ log, ∀ ev ∈ c.events, ∃ d : TriggerDef, byte 0 ∉ d.name ∧
    ∃ p ∈ c.ops.zipIdx c.base, isSysKey p.1.key = false ∧ ev = eventOf opts d p.1 p.2
  /-- What is under a queue key was captured at or before. -/
  puts : ∀ c ∈ log, ∀ key value, .put key value ∈ c.fullOps → QUEUE_PREFIX <+: key →
    ∃ c' ∈ log, c'.base ≤ c.base ∧ .put key value ∈ c'.events
  /-- A change is deleted after its commit, -/
  deletes : ∀ c ∈ log, ∀ name n key, IsChangeKey name n key → .delete key ∈ c.fullOps → n < c.base
  /-- and not written again. -/
  once : ∀ p ∈ log.flatMap CommitRec.numbered, ∀ q ∈ log.flatMap CommitRec.numbered,
    ∀ name n key value,
    IsChangeKey name n key → p.1 = .put key value → q.1 = .delete key → p.2 < q.2

theorem mem_numbered_of_ops {c : CommitRec} {p : BatchOp × ℕ} (h : p ∈ c.ops.zipIdx c.base) :
    p ∈ c.numbered := by
  unfold CommitRec.numbered CommitRec.fullOps
  rw [List.zipIdx_append]
  exact List.mem_append_left _ h

theorem exists_numbered {c : CommitRec} {op : BatchOp} (h : op ∈ c.fullOps) :
    ∃ n, (op, n) ∈ c.numbered := by
  obtain ⟨i, hi⟩ := List.getElem?_of_mem h
  exact ⟨c.base + i, List.mk_mem_zipIdx_iff_le_and_getElem?_sub.mpr
    ⟨Nat.le_add_right _ _, by simpa using hi⟩⟩

theorem Captured.mono {log' : List CommitRec} {name : Bytes} {p : BatchOp × ℕ}
    (h : Captured opts log name p)
    (hsub : ∀ c ∈ log, p ∈ c.ops.zipIdx c.base → c ∈ log') : Captured opts log' name p := by
  obtain ⟨c, hc, hp, hev⟩ := h
  exact ⟨c, hsub c hc hp, hp, hev⟩

theorem Captured.append {name : Bytes} {p : BatchOp × ℕ} (h : Captured opts log name p)
    (recs : List CommitRec) :
    Captured opts (log ++ recs) name p := h.mono fun _ hc _ => List.mem_append_left _ hc

theorem Deleted.append {key : Bytes} (h : Deleted log key) (recs : List CommitRec) :
    Deleted (log ++ recs) key := by
  obtain ⟨c, hc, hdel⟩ := h
  exact ⟨c, List.mem_append_left _ hc, hdel⟩

namespace Engine.Inv

/-- Seqnos stay below the largest. -/
theorem numbered_le_max (h : e.Inv) {p : BatchOp × ℕ} (hp : p ∈ e.log.flatMap CommitRec.numbered) :
    p.2 ≤ MAX_SEQNO := by
  obtain ⟨c, hc, hp⟩ := List.mem_flatMap.mp hp
  exact le_trans (h.numbered_le hc hp) (le_of_lt h.consistent.wf.visible_lt)

/-- A seqno is that of one op. -/
theorem op_unique (h : e.Inv) {p q : BatchOp × ℕ} (hp : p ∈ e.log.flatMap CommitRec.numbered)
    (hq : q ∈ e.log.flatMap CommitRec.numbered) (heq : p.2 = q.2) : p = q :=
  eq_of_pairwise_lt (pairwise_numbered h.consistent.encodes h.consistent.contiguous) hp hq heq

theorem captured_le (h : e.Inv) {name : Bytes} {p : BatchOp × ℕ} (hp : Captured opts e.log name p) :
    p.2 ≤ e.db.visibleSeqno := by
  obtain ⟨c, hc, hmem, -⟩ := hp
  exact h.numbered_le hc (mem_numbered_of_ops hmem)

theorem captured_unique (h : e.Inv) {name name' : Bytes} {p q : BatchOp × ℕ}
    (hp : Captured opts e.log name p)
    (hq : Captured opts e.log name' q) (heq : p.2 = q.2) : p = q := by
  obtain ⟨c, hc, hmem, -⟩ := hp
  obtain ⟨c', hc', hmem', -⟩ := hq
  exact h.op_unique (List.mem_flatMap.mpr ⟨c, hc, mem_numbered_of_ops hmem⟩)
    (List.mem_flatMap.mpr ⟨c', hc', mem_numbered_of_ops hmem'⟩) heq

/-- A visible value was put by a commit. -/
theorem put_of_value (h : e.Inv) {k v : Bytes} (hv : e.value k = some v) :
    ∃ c ∈ e.log, .put k v ∈ c.fullOps := by
  obtain ⟨p, hp, hput, -⟩ :=
    replay_eq_some (pairwise_numbered h.consistent.encodes h.consistent.contiguous) hv
  obtain ⟨c, hc, hp⟩ := List.mem_flatMap.mp hp
  exact ⟨c, hc, hput ▸ List.fst_mem_of_mem_zipIdx hp⟩

end Engine.Inv

section Value

variable {name key value : Bytes} {n : ℕ}

/-- What a commit put under a change key is the record of a captured change. -/
theorem Traces.captured (h : Traces opts e.log) (hinv : e.Inv) (hkey : IsChangeKey name n key)
    {c : CommitRec} (hc : c ∈ e.log) (hput : .put key value ∈ c.fullOps) :
    ∃ op, Captured opts e.log name (op, n) ∧ value = encodeChangeRecord op (inlineCapOf opts) := by
  obtain ⟨c', hc', -, hev⟩ := h.puts c hc key value hput hkey.queue
  obtain ⟨d, hd, p, hp, huser, heq⟩ := h.events c' hc' _ hev
  have hp' : p ∈ e.log.flatMap CommitRec.numbered :=
    List.mem_flatMap.mpr ⟨c', hc', mem_numbered_of_ops hp⟩
  obtain ⟨-, rfl, rfl, rfl⟩ := eventOf_change hd (hinv.numbered_le_max hp') huser heq hkey
  rw [hkey.eq] at hev
  exact ⟨p.1, ⟨c', hc', hp, hev⟩, rfl⟩

/-- **The record of a change** is visible exactly if the change was captured and no commit
has deleted it. -/
theorem Traces.value_iff (h : Traces opts e.log) (hinv : e.Inv) (hkey : IsChangeKey name n key) :
    e.value key = some value ↔
      (∃ op, Captured opts e.log name (op, n) ∧ value = encodeChangeRecord op (inlineCapOf opts)) ∧
        ¬ Deleted e.log key := by
  constructor
  · intro hv
    obtain ⟨c, hc, hput⟩ := hinv.put_of_value hv
    refine ⟨h.captured hinv hkey hc hput, fun hdel => ?_⟩
    -- the last op on the key is no delete
    obtain ⟨p, hp, hp', hmax⟩ :=
      replay_eq_some (pairwise_numbered hinv.consistent.encodes hinv.consistent.contiguous) hv
    obtain ⟨c', hc', hdel⟩ := hdel
    obtain ⟨m, hm⟩ := exists_numbered hdel
    have hq := List.mem_flatMap.mpr ⟨c', hc', hm⟩
    have hlt : p.2 < m := h.once p hp _ hq name n key value hkey hp' rfl
    have hle : m ≤ p.2 := hmax _ hq rfl (hinv.numbered_le hc' hm)
    omega
  · rintro ⟨⟨op, hop, rfl⟩, hdel⟩
    have hop' := hop
    obtain ⟨c, hc, hp, hev⟩ := hop
    rw [← hkey.eq] at hev
    obtain ⟨m, hm⟩ := exists_numbered (List.mem_append_right c.ops hev)
    obtain ⟨v, hv⟩ :=
      replay_isSome (List.mem_flatMap.mpr ⟨c, hc, hm⟩) (hinv.numbered_le hc hm) fun q hq hqdel => by
      obtain ⟨c', hc', hq⟩ := List.mem_flatMap.mp hq
      exact hdel ⟨c', hc', hqdel ▸ List.fst_mem_of_mem_zipIdx hq⟩
    have hvalue : e.value key = some v := hv
    -- one op has the seqno
    obtain ⟨c', hc', hput⟩ := hinv.put_of_value hvalue
    obtain ⟨op', hcap', rfl⟩ := h.captured hinv hkey hc' hput
    obtain ⟨rfl, -⟩ := Prod.mk.inj (hinv.captured_unique hcap' hop' rfl)
    exact hvalue

end Value

/-! ### What is handed to the write path -/

/-- A definition record holds a definition; a queue key is deleted only, and that of a
change not before its commit. -/
structure BatchOp.Tame (visible : ℕ) (op : BatchOp) : Prop where
  record : ∀ value, op.value? = some value → DEF_PREFIX <+: op.key → DefRecord value
  event : QUEUE_PREFIX <+: op.key → op.value? = none
  change : ∀ name n, IsChangeKey name n op.key → n ≤ visible

theorem BatchOp.Tame.mono {op : BatchOp} {visible visible' : ℕ} (h : op.Tame visible)
    (hle : visible ≤ visible') :
    op.Tame visible' := ⟨h.record, h.event, fun name n hkey => le_trans (h.change name n hkey) hle⟩

theorem tame_of_plain {op : BatchOp} {visible : ℕ} (hdef : ¬ DEF_PREFIX <+: op.key)
    (hqueue : ¬ QUEUE_PREFIX <+: op.key) :
    op.Tame visible :=
  ⟨fun _ _ h => absurd h hdef, fun h => absurd h hqueue, fun _ _ h => absurd h.queue hqueue⟩

theorem not_queuePrefix_of_def {key : Bytes} (h : DEF_PREFIX <+: key) : ¬ QUEUE_PREFIX <+: key :=
  fun hqueue =>
  not_defPrefix_of_queue hqueue h

/-- Drains consume changes that are there. -/
def Submission.Consumes (visible : ℕ) : Submission → Prop
  | drain _ consume _ _ => ∀ key ∈ consume, ∀ name n, IsChangeKey name n key → n ≤ visible
  | _ => True

def Action.Consumes (visible : ℕ) : Action → Prop
  | .commit sub => sub.Consumes visible
  | .enqueue sub => sub.Consumes visible
  | _ => True

/-- What the commit queue, the clean-ups and the registry hold, beside the log. -/
structure Engine.Traced (opts : Options) (e : Engine) : Prop where
  log : Traces opts e.log
  names : ∀ d ∈ e.db.defs, byte 0 ∉ d.name
  queue : ∀ q ∈ e.queue, ∀ op ∈ q.ops, op.Tame e.db.visibleSeqno
  clears : ∀ name keys, .batch name keys ∈ e.clears → ∀ key ∈ keys,
    QUEUE_PREFIX <+: key ∧ ∀ name n, IsChangeKey name n key → n ≤ e.db.visibleSeqno

/-- What is submitted is tame. -/
theorem Submission.tame {sub : Submission} (hallowed : sub.Allowed opts e) (h : e.Traced opts)
    (hconsumes : sub.Consumes e.db.visibleSeqno) : ∀ op ∈ sub.entry.ops,
      op.Tame e.db.visibleSeqno := by
  -- a user key is neither in the queue nor a definition
  have huser : ∀ {op : BatchOp}, ValidUserKey op.key → op.Tame e.db.visibleSeqno := fun hvalid =>
    tame_of_plain (not_defPrefix_of_valid hvalid) fun hqueue =>
      not_validUserKey_of_queue hqueue hvalid
  have hdelete : ∀ {key : Bytes}, QUEUE_PREFIX <+: key →
      (∀ name n, IsChangeKey name n key → n ≤ e.db.visibleSeqno) →
      (BatchOp.delete key).Tame e.db.visibleSeqno :=
    fun _ hle => ⟨fun _ hvalue => absurd hvalue (by simp [BatchOp.value?]), fun _ => rfl, hle⟩
  intro op hop
  cases sub with
  | batch ops => exact huser (hallowed.2 op hop).1
  | txn snap writes locks => exact huser (hallowed.2 op hop)
  | drain snap consume writes locks =>
    rcases List.mem_append.mp hop with hop | hop
    · obtain ⟨key, hkey, rfl⟩ := List.mem_map.mp hop
      exact hdelete (hallowed.2.1 key hkey) (hconsumes key hkey)
    · exact huser (hallowed.2.2 op hop)
  | system ops => exact tame_of_plain (hallowed.2 op hop).2.2 (hallowed.2 op hop).2.1
  | define d =>
    obtain rfl := List.mem_singleton.mp hop
    have hdef : DEF_PREFIX <+: sysTriggerKey d.name := defPrefix_key d.name
    have hname := hallowed.1.2.1
    refine ⟨fun value hvalue _ => ⟨d, hname.zero_notMem, ?_, (Option.some_inj.mp hvalue).symm⟩,
      fun hqueue => absurd hqueue (not_queuePrefix_of_def hdef),
      fun _ _ hkey => absurd hkey.queue (not_queuePrefix_of_def hdef)⟩
    have := hname.2.1
    omega
  | undefine name =>
    obtain rfl := List.mem_singleton.mp hop
    have hdef : DEF_PREFIX <+: sysTriggerKey name := defPrefix_key name
    exact ⟨fun _ hvalue => absurd hvalue (by simp [BatchOp.value?]), fun _ => rfl,
      fun _ _ hkey => absurd hkey.queue (not_queuePrefix_of_def hdef)⟩
  | clear name keys =>
    obtain ⟨key, hkey, rfl⟩ := List.mem_map.mp hop
    obtain ⟨hqueue, hle⟩ := h.clears name keys hallowed.2 key hkey
    exact hdelete hqueue hle

/-! ### Steps -/

/-- What a step commits: tame ops, or values that are there. -/
inductive Grows (e : Engine) (recs : List CommitRec) : Prop
  | tame : (∀ c ∈ recs, ∀ op ∈ c.ops, op.Tame e.db.visibleSeqno) → Grows e recs
  | same : (∀ c ∈ recs, ∀ op ∈ c.ops, ∃ key value, op = .put key value ∧ e.value key = some value) →
    Grows e recs

/-- A step's commits, with the events of the registered triggers. -/
structure Commits (opts : Options) (e e' : Engine) (recs : List CommitRec) : Prop where
  log : e'.log = e.log ++ recs
  grows : Grows e recs
  events : ∀ c ∈ recs, c.events = e.db.captureEvents opts c.ops c.base c.capture
  above : ∀ c ∈ recs, e.db.visibleSeqno < c.base
  visible_le : e.db.visibleSeqno ≤ e'.db.visibleSeqno

theorem commits_of_step (h : e.Inv) (ht : e.Traced opts) {a : Action} (hs : e.step opts a = some e')
    (hconsumes : a.Consumes e.db.visibleSeqno) (hopen : ∀ n orphan, a ≠ .reopen n orphan) :
    ∃ recs, Commits opts e e' recs := by
  obtain ⟨recs, hmove⟩ := moved_step h hs hopen
  have hinv' := inv_step h hs
  have hfresh : ∀ c ∈ recs, c ∉ e.log := fun c hc => notMem_log h hinv' hmove.log hc
  have hmem : ∀ c ∈ recs, c ∈ e'.log := fun c hc => hmove.log ▸ List.mem_append_right _ hc
  have hboth : Grows e recs ∧ ∀ c ∈ recs, c.events =
      e.db.captureEvents opts c.ops c.base c.capture := by
    cases step_handed hs with
    | @commit sub hallowed hlog =>
      -- what is new in the log is the record of the submitted batch
      have hrec : ∀ c ∈ recs, c = recOf opts e.db sub.entry := fun c hc =>
        (hlog c (hmem c hc)).resolve_left (hfresh c hc)
      refine ⟨.tame fun c hc op hop => ?_, fun c hc => by rw [hrec c hc]; rfl⟩
      rw [hrec c hc] at hop
      exact Submission.tame hallowed ht hconsumes op hop
    | enqueue _ hlog =>
      have hnone : ∀ c ∈ recs, False := fun c hc => hfresh c hc (hlog ▸ hmem c hc)
      exact ⟨.tame fun c hc => (hnone c hc).elim, fun c hc => (hnone c hc).elim⟩
    | @group n heq =>
      -- every new record comes from an entry of the chunk, events included
      have hrec : ∀ c ∈ recs, ∃ q ∈ e.queue, c.ops = q.ops ∧ c.capture = q.capture ∧
          c.events = e.db.captureEvents opts q.ops c.base q.capture := by
        intro c hc
        have hin := hmem c hc
        rw [heq] at hin
        obtain ⟨q, hq, hops, -, hcapture, hevents⟩ :=
          mem_groupRecs ((List.mem_append.mp hin).resolve_left (hfresh c hc))
        exact ⟨q, List.mem_of_mem_take (mem_includedEntries hq).1, hops, hcapture, hevents⟩
      refine ⟨.tame fun c hc op hop => ?_, fun c hc => ?_⟩
      · obtain ⟨q, hq, hops, -, -⟩ := hrec c hc
        exact ht.queue q hq op (hops ▸ hop)
      · obtain ⟨q, -, hops, hcapture, hevents⟩ := hrec c hc
        rw [hevents, hops, hcapture]
    | @relocate records hrecords hlog =>
      have hrec : ∀ c ∈ recs, c = recOf opts e.db ⟨relocationOps e.db records, none, false⟩ :=
        fun c hc =>
        (hlog c (hmem c hc)).resolve_left (hfresh c hc)
      refine ⟨.same fun c hc op hop => ?_, fun c hc => by rw [hrec c hc]; rfl⟩
      rw [hrec c hc] at hop
      -- a relocation puts back the value that is there
      obtain ⟨hput, hvalue⟩ := relocationOps_same h hrecords hop le_rfl
      cases op with
      | put key value => exact ⟨key, value, rfl, hvalue.symm⟩
      | delete key => exact absurd hput (by simp [BatchOp.kind])
    | other hlog =>
      have hnone : ∀ c ∈ recs, False := fun c hc => hfresh c hc (hlog (hmem c hc))
      exact ⟨.tame fun c hc => (hnone c hc).elim, fun c hc => (hnone c hc).elim⟩
  exact ⟨recs, hmove.log, hboth.1, hboth.2,
    h.consistent.contiguous.split_log (hmove.log ▸ hinv'.consistent.contiguous), hmove.visible_le⟩

/-- An event of a new commit is that of one of its user ops and a registered trigger. -/
theorem Commits.event (hnew : Commits opts e e' recs) {c : CommitRec} (hc : c ∈ recs) {ev : BatchOp}
    (hev : ev ∈ c.events) : ∃ p ∈ c.ops.zipIdx c.base, isSysKey p.1.key = false ∧
      ∃ d ∈ e.db.defs, d.Matches p.1.key ∧ ev = eventOf opts d p.1 p.2 := by
  rw [hnew.events c hc] at hev
  unfold Db.captureEvents at hev
  split at hev
  · exact mem_captureOps.mp hev
  · exact absurd hev List.not_mem_nil

theorem Commits.event_queue (hnew : Commits opts e e' recs) {c : CommitRec} (hc : c ∈ recs)
    {ev : BatchOp} (hev : ev ∈ c.events) : QUEUE_PREFIX <+: ev.key ∧ ev.kind = .put := by
  rw [hnew.events c hc] at hev
  unfold Db.captureEvents at hev
  split at hev
  · exact queue_of_mem_captureOps hev
  · exact absurd hev List.not_mem_nil

/-- What a new commit puts under a change key is there, or it is a change of its own. -/
theorem Commits.put_change (hnew : Commits opts e e' recs) (ht : e.Traced opts) (hinv' : e'.Inv)
    {c : CommitRec} (hc : c ∈ recs) {name key value : Bytes} {n : ℕ} (hkey : IsChangeKey name n key)
    (hput : .put key value ∈ c.fullOps) :
    e.value key = some value ∧ .put key value ∈ c.ops ∨ e.db.visibleSeqno < n := by
  rcases List.mem_append.mp hput with hput | hev
  · refine Or.inl ⟨?_, hput⟩
    rcases hnew.grows with htame | hsame
    · exact absurd ((htame c hc _ hput).event hkey.queue) (by simp [BatchOp.value?])
    · obtain ⟨k, v, heq, hv⟩ := hsame c hc _ hput
      obtain ⟨rfl, rfl⟩ := BatchOp.put.inj heq
      exact hv
  · obtain ⟨p, hp, huser, d, hd, -, heq⟩ := hnew.event hc hev
    have hlog : c ∈ e'.log := hnew.log ▸ List.mem_append_right _ hc
    have hmax := hinv'.numbered_le_max (List.mem_flatMap.mpr ⟨c, hlog, mem_numbered_of_ops hp⟩)
    obtain ⟨-, -, rfl, -⟩ := eventOf_change (ht.names d hd) hmax huser heq hkey
    exact Or.inr (lt_of_lt_of_le (hnew.above c hc)
      (List.mk_mem_zipIdx_iff_le_and_getElem?_sub.mp hp).1)

/-- What a new commit deletes is a change that was there before it. -/
theorem Commits.delete_change (hnew : Commits opts e e' recs) {c : CommitRec} (hc : c ∈ recs)
    {name key : Bytes} {n : ℕ} (hkey : IsChangeKey name n key) (hdel : .delete key ∈ c.fullOps) :
    n ≤ e.db.visibleSeqno ∧ ∀ c ∈ recs, ∀ op ∈ c.ops, op.Tame e.db.visibleSeqno := by
  rcases List.mem_append.mp hdel with hdel | hev
  · rcases hnew.grows with htame | hsame
    · exact ⟨(htame c hc _ hdel).change name n hkey, htame⟩
    · obtain ⟨k, v, heq, -⟩ := hsame c hc _ hdel
      exact absurd heq (by simp)
  · exact absurd (hnew.event_queue hc hev).2 (by simp [BatchOp.kind])

theorem Commits.once (hnew : Commits opts e e' recs) (h : e.Inv) (ht : e.Traced opts)
    (hinv' : e'.Inv) {p q : BatchOp × ℕ} (hp : p ∈ e'.log.flatMap CommitRec.numbered)
    (hq : q ∈ e'.log.flatMap CommitRec.numbered)
    {name key value : Bytes} {n : ℕ} (hkey : IsChangeKey name n key) (hput : p.1 = .put key value)
    (hdel : q.1 = .delete key) : p.2 < q.2 := by
  obtain ⟨c, hc, hpc⟩ := List.mem_flatMap.mp hp
  obtain ⟨c', hc', hqc⟩ := List.mem_flatMap.mp hq
  have hpop : .put key value ∈ c.fullOps := hput ▸ List.fst_mem_of_mem_zipIdx hpc
  have hqop : .delete key ∈ c'.fullOps := hdel ▸ List.fst_mem_of_mem_zipIdx hqc
  rw [hnew.log] at hc hc'
  rcases List.mem_append.mp hc' with hc' | hc'
  · rcases List.mem_append.mp hc with hc | hc
    · exact ht.log.once p (List.mem_flatMap.mpr ⟨c, hc, hpc⟩) q
        (List.mem_flatMap.mpr ⟨c', hc', hqc⟩) name n key value hkey hput hdel
    · -- a change that is deleted is not written again
      rcases hnew.put_change ht hinv' hc hkey hpop with ⟨hvalue, -⟩ | hlt
      · exact absurd ⟨c', hc', hqop⟩ ((ht.log.value_iff h hkey).mp hvalue).2
      · have hbefore := ht.log.deletes c' hc' name n key hkey hqop
        have hle := h.consistent.base_le hc'
        omega
  · obtain ⟨hn, htame⟩ := hnew.delete_change hc' hkey hqop
    have habove := hnew.above c' hc'
    have hqle := (List.mk_mem_zipIdx_iff_le_and_getElem?_sub.mp hqc).1
    rcases List.mem_append.mp hc with hc | hc
    · have hple := h.numbered_le hc hpc
      omega
    · rcases hnew.put_change ht hinv' hc hkey hpop with ⟨-, hop⟩ | hlt
      · exact absurd ((htame c hc _ hop).event hkey.queue) (by simp [BatchOp.value?])
      · omega

/-- The log of a step that commits. -/
theorem Commits.traces (hnew : Commits opts e e' recs) (h : e.Inv) (ht : e.Traced opts)
    (hinv' : e'.Inv) :
    Traces opts e'.log where
  records c hc key value hput hdef := by
    rw [hnew.log] at hc
    rcases List.mem_append.mp hc with hc | hc
    · exact ht.log.records c hc key value hput hdef
    · rcases List.mem_append.mp hput with hput | hev
      · rcases hnew.grows with htame | hsame
        · exact (htame c hc _ hput).record value rfl hdef
        · obtain ⟨k, v, heq, hv⟩ := hsame c hc _ hput
          obtain ⟨rfl, rfl⟩ := BatchOp.put.inj heq
          -- a relocated definition was put before, with the same value
          obtain ⟨c', hc', hput'⟩ := h.put_of_value hv
          exact ht.log.records c' hc' key value hput' hdef
      · exact absurd hdef (not_defPrefix_of_queue (hnew.event_queue hc hev).1)
  events c hc ev hev := by
    rw [hnew.log] at hc
    rcases List.mem_append.mp hc with hc | hc
    · exact ht.log.events c hc ev hev
    · obtain ⟨p, hp, huser, d, hd, -, heq⟩ := hnew.event hc hev
      exact ⟨d, ht.names d hd, p, hp, huser, heq⟩
  puts c hc key value hput hqueue := by
    rw [hnew.log] at hc ⊢
    rcases List.mem_append.mp hc with hc | hc
    · obtain ⟨c', hc', hle, hev⟩ := ht.log.puts c hc key value hput hqueue
      exact ⟨c', List.mem_append_left _ hc', hle, hev⟩
    · rcases List.mem_append.mp hput with hput | hev
      · rcases hnew.grows with htame | hsame
        · exact absurd ((htame c hc _ hput).event hqueue) (by simp [BatchOp.value?])
        · -- a relocation writes what was captured before
          obtain ⟨k, v, heq, hv⟩ := hsame c hc _ hput
          obtain ⟨rfl, rfl⟩ := BatchOp.put.inj heq
          obtain ⟨b, hb, hput'⟩ := h.put_of_value hv
          obtain ⟨c', hc', hle, hev⟩ := ht.log.puts b hb key value hput' hqueue
          have habove := hnew.above c hc
          have hvis := h.consistent.base_le hb
          exact ⟨c', List.mem_append_left _ hc', by omega, hev⟩
      · -- the event was captured by this very commit
        exact ⟨c, List.mem_append_right _ hc, le_rfl, hev⟩
  deletes c hc name n key hkey hdel := by
    rw [hnew.log] at hc
    rcases List.mem_append.mp hc with hc | hc
    · exact ht.log.deletes c hc name n key hkey hdel
    · exact lt_of_le_of_lt (hnew.delete_change hc hkey hdel).1 (hnew.above c hc)
  once _ hp _ hq _ _ _ _ hkey hput hdel := hnew.once h ht hinv' hp hq hkey hput hdel

/-- A scan comes by the keys that are visible, and by no others. -/
theorem mem_liveKeys_iff (h : e.Inv) {pre k : Bytes} :
    k ∈ e.db.liveKeys pre ↔ pre <+: k ∧ ∃ v, e.value k = some v := by
  constructor
  · intro hk
    obtain ⟨hmem, hfound⟩ := List.mem_filter.mp hk
    refine ⟨of_decide_eq_true (List.mem_filter.mp (mem_sortDedup.mp hmem)).2, ?_⟩
    -- the newest version of the key is a put, so the key has a value
    have hget := h.getAtSeq_value k
    unfold Db.getAtSeq at hget
    rw [min_self] at hget
    cases hx : e.db.readView.getVersioned k e.db.visibleSeqno with
    | none =>
      rw [hx] at hfound
      exact absurd hfound Bool.false_ne_true
    | some x =>
      rw [hx] at hget hfound
      have hkind : x.kind = .put := of_decide_eq_true hfound
      simp only [hkind] at hget
      cases hvalue : e.value k with
      | some v => exact ⟨v, rfl⟩
      | none =>
        rw [hvalue] at hget
        cases hres : e.db.resolveRepr k x.repr with
        | ok v =>
          rw [hres] at hget
          exact absurd (Except.ok.inj hget) (by simp)
        | error err =>
          rw [hres] at hget
          exact absurd hget (by simp [Except.map])
  · rintro ⟨hpre, v, hv⟩
    exact mem_liveKeys h hpre hv

/-- The names of an open's registry come from definition records. -/
theorem names_reopen (h : e.Inv) (ht : Traces opts e.log) {n orphan : ℕ}
    (hr : e.reopen opts n orphan = some e') :
    ∀ d ∈ e'.db.defs, byte 0 ∉ d.name := by
  intro d hd
  obtain ⟨k, hk, hdec⟩ := (mem_defs_reopen h hr d).mp hd
  obtain ⟨v, hv, hdec⟩ := Option.bind_eq_some_iff.mp hdec
  have hinv' := h.reopened hr
  obtain ⟨c, hc, hput⟩ := hinv'.put_of_value hv
  rw [reopen_log h hr] at hc
  obtain ⟨d', hplain, hlen, rfl⟩ :=
    ht.records c (List.mem_of_mem_filter hc) k v hput ((mem_liveKeys_iff hinv').mp hk).1
  exact (name_of_decodeDef hlen hdec) ▸ hplain

/-- An open cuts the log at a commit. -/
theorem Traces.reopen (ht : Traces opts e.log) (h : e.Inv) {n orphan : ℕ}
    (hr : e.reopen opts n orphan = some e') :
    Traces opts e'.log := by
  have hlog := reopen_log h hr
  have hold : ∀ {c}, c ∈ e'.log → c ∈ e.log ∧ c.base ≤ e'.db.visibleSeqno := fun hc => by
    obtain ⟨hc, hle⟩ := List.mem_filter.mp (hlog ▸ hc)
    exact ⟨hc, of_decide_eq_true hle⟩
  have hnum : ∀ {p}, p ∈ e'.log.flatMap CommitRec.numbered → p ∈ e.log.flatMap CommitRec.numbered :=
    fun hp => by
    obtain ⟨c, hc, hp⟩ := List.mem_flatMap.mp hp
    exact List.mem_flatMap.mpr ⟨c, (hold hc).1, hp⟩
  refine ⟨fun c hc => ht.records c (hold hc).1, fun c hc => ht.events c (hold hc).1,
    fun c hc key value hput hqueue => ?_,
    fun c hc => ht.deletes c (hold hc).1, fun p hp q hq => ht.once p (hnum hp) q (hnum hq)⟩
  obtain ⟨c', hc', hle, hev⟩ := ht.puts c (hold hc).1 key value hput hqueue
  have hhead := (hold hc).2
  exact ⟨c', hlog ▸ List.mem_filter.mpr ⟨hc', decide_eq_true (by omega)⟩, hle, hev⟩

/-- **Every step** of a run whose drains consume what is there keeps it. -/
theorem traced_step (h : e.Inv) (ht : e.Traced opts) {a : Action} (hs : e.step opts a = some e')
    (hconsumes : a.Consumes e.db.visibleSeqno) : e'.Traced opts := by
  have hinv' := inv_step h hs
  by_cases hopen : ∃ n orphan, a = .reopen n orphan
  · obtain ⟨n, orphan, rfl⟩ := hopen
    have hr : e.reopen opts n orphan = some e' := hs
    -- a reopened store has nothing queued and no clean-up under way
    have hframe : e'.queue = [] ∧ e'.clears = [] := by
      obtain ⟨db', -, rfl⟩ := Option.map_eq_some_iff.mp hr
      exact ⟨rfl, rfl⟩
    refine ⟨ht.log.reopen h hr, names_reopen h ht.log hr, fun q hq => ?_, fun name keys hc => ?_⟩
    · exact absurd (hframe.1 ▸ hq) List.not_mem_nil
    · exact absurd (hframe.2 ▸ hc) List.not_mem_nil
  have hno : ∀ n orphan, a ≠ .reopen n orphan := fun n orphan heq => hopen ⟨n, orphan, heq⟩
  obtain ⟨recs, hnew⟩ := commits_of_step h ht hs hconsumes hno
  have hvis := hnew.visible_le
  have hold : ∀ q ∈ e.queue, ∀ op ∈ q.ops, op.Tame e'.db.visibleSeqno := fun q hq op hop =>
    (ht.queue q hq op hop).mono hvis
  have hkeep : ∀ name keys, .batch name keys ∈ e.clears → ∀ key ∈ keys,
      QUEUE_PREFIX <+: key ∧ ∀ name n, IsChangeKey name n key → n ≤ e'.db.visibleSeqno :=
        fun name keys hc key hkey =>
    ⟨(ht.clears name keys hc key hkey).1, fun name' n hk =>
      le_trans ((ht.clears name keys hc key hkey).2 name' n hk) hvis⟩
  refine ⟨hnew.traces h ht hinv', ?_, ?_, ?_⟩
  · -- only the registry's own steps change the names
    cases step_cases h hs with
    | commits _ _ _ hdefs => exact hdefs ▸ ht.names
    | enqueue _ _ _ hdb => exact hdb ▸ ht.names
    | quiet hquiet => exact hquiet.defs ▸ ht.names
    | reopen => exact absurd rfl (hno _ _)
    | createTrigger hd _ _ _ _ heq =>
      subst heq
      intro d' hd'
      rcases List.mem_append.mp hd' with hd' | hd'
      · exact ht.names d' hd'
      · exact (List.mem_singleton.mp hd') ▸ hd.2.1.zero_notMem
    | deleteTrigger _ _ heq =>
      subst heq
      exact fun d' hd' => ht.names d' (List.mem_of_mem_filter hd')
    | deleteDone _ heq =>
      subst heq
      exact ht.names
  · -- a new entry is tame when it is put on the queue, and stays so
    cases step_handed hs with
    | commit _ _ hqueue => exact hqueue ▸ hold
    | @enqueue sub hallowed _ hqueue =>
      rw [hqueue]
      intro q hq
      rcases List.mem_append.mp hq with hq | hq
      · exact hold q hq
      · rw [List.mem_singleton.mp hq]
        exact fun op hop => (Submission.tame hallowed ht hconsumes op hop).mono hvis
    | group heq =>
      subst heq
      exact fun q hq => hold q (List.mem_of_mem_drop hq)
    | relocate _ _ hqueue => exact hqueue ▸ hold
    | other _ hsub => exact fun q hq => hold q (hsub.subset hq)
  · intro name keys hc key hkey
    cases step_handed hs with
    | commit _ _ _ hclears => exact hkeep name keys (hclears _ hc) key hkey
    | enqueue _ _ _ hclears => exact hkeep name keys (hclears _ hc) key hkey
    | group heq =>
      subst heq
      exact hkeep name keys hc key hkey
    | relocate _ _ _ hclears => exact hkeep name keys (hclears ▸ hc) key hkey
    | other _ _ hclears =>
      rcases hclears _ hc with hc | ⟨name', heq⟩ | ⟨name', heq⟩
      · exact hkeep name keys hc key hkey
      · exact absurd heq (by simp)
      · -- a clean-up reads what is there
        obtain ⟨rfl, rfl⟩ := ClearTask.batch.inj heq
        obtain ⟨hpre, v, hv⟩ := (mem_liveKeys_iff h).mp (List.mem_of_mem_take hkey)
        refine ⟨(queuePrefix_eventKey _ _).trans hpre, fun name' n hk => ?_⟩
        obtain ⟨⟨op, hop, -⟩, -⟩ := (ht.log.value_iff h hk).mp hv
        exact le_trans (h.captured_le hop) hvis

theorem traced_init (opts : Options) : (Engine.init opts).Traced opts where
  log := ⟨fun _ hc => absurd hc List.not_mem_nil, fun _ hc => absurd hc List.not_mem_nil,
    fun _ hc => absurd hc List.not_mem_nil, fun _ hc => absurd hc List.not_mem_nil, fun _ hp =>
      absurd hp List.not_mem_nil⟩
  names := fun _ hd => absurd hd List.not_mem_nil
  queue := fun _ hq => absurd hq List.not_mem_nil
  clears := fun _ _ hc => absurd hc List.not_mem_nil

end Fluent31
