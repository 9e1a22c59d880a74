/-
Trigger definitions as stored keys (`trigger.rs`, `db.rs`).

A definition is a record under a key of its own prefix, written by the write path like
any other key.  The value of such a key is decided by the log, and only the record of
the holder of the admin lock changes it: what else the engine commits goes to other
keys, or writes again what is there.

* `decodeDef_encodeDef` — definition records round trip;
* `leaves_background` — steps of all other threads leave every definition;
* `commit_record`, `group_record` — a record that is answered `Ok` is the value from
  then on, one that is answered with an error has changed nothing;
* `lookup_reopen` — an open registers the definitions it finds.
-/
import Fluent31.Limits
import Fluent31.VlogGc

namespace Fluent31

variable {opts : Options} {e e' : Engine} {log recs : List CommitRec}

/-! ### Keys and records -/

theorem sysTriggerKey_inj {n n' : Bytes} : sysTriggerKey n = sysTriggerKey n' ↔ n = n' :=
  List.append_right_inj DEF_PREFIX

theorem defPrefix_key (name : Bytes) : DEF_PREFIX <+: sysTriggerKey name := List.prefix_append _ _

theorem not_defPrefix_of_queue {key : Bytes} (h : QUEUE_PREFIX <+: key) : ¬ DEF_PREFIX <+: key := by
  obtain ⟨rest, rfl⟩ := h
  rintro ⟨rest', heq⟩
  have hfifth : some (byte 0) = some (byte 113) := congrArg (fun k : Bytes => k[4]?) heq
  exact absurd hfifth (by decide)

/-- and so do user keys. -/
theorem not_defPrefix_of_valid {key : Bytes} (h : ValidUserKey key) : ¬ DEF_PREFIX <+: key := by
  rintro ⟨rest, rfl⟩
  exact h.2 rfl

/-- The definition is made of Rust strings, whose lengths are `usize`. -/
structure TriggerDef.Sized (d : TriggerDef) : Prop where
  name : d.name.length < 2 ^ 64
  module : d.module.length < 2 ^ 64
  lo : d.lo.length < 2 ^ 64
  hi : d.hi.length < 2 ^ 64

instance (d : TriggerDef) : Decidable d.Sized :=
  decidable_of_iff (d.name.length < 2 ^ 64 ∧ d.module.length < 2 ^ 64 ∧ d.lo.length < 2 ^ 64 ∧
    d.hi.length < 2 ^ 64)
    ⟨fun ⟨h₁, h₂, h₃, h₄⟩ => ⟨h₁, h₂, h₃, h₄⟩, fun ⟨h₁, h₂, h₃, h₄⟩ => ⟨h₁, h₂, h₃, h₄⟩⟩

/-- **Definition records round trip.** -/
theorem decodeDef_encodeDef {d : TriggerDef} (h : d.Sized) : decodeDef (encodeDef d) = some d := by
  obtain ⟨name, module, lo, hi, mode⟩ := d
  obtain ⟨hname, hmodule, hlo, hhi⟩ := h
  have hfields (ver : Byte) (hver : ver = byte 1 ∨ ver = byte 2) (tail : Bytes) :
      decodeDef (ver :: (putLenPrefixed name ++ putLenPrefixed module ++ putLenPrefixed lo ++
        putLenPrefixed hi ++ tail)) =
      if ver = byte 1 then some ⟨name, module, lo, hi, .keys⟩
      else if tail.head? = some (byte 0) then some ⟨name, module, lo, hi, .keys⟩
      else if tail.head? = some (byte 1) then some ⟨name, module, lo, hi, .changes⟩
      else none := by
    simp only [decodeDef, if_pos hver, List.append_assoc, Option.bind_eq_bind,
      readLenPrefixed_putLenPrefixed hname, readLenPrefixed_putLenPrefixed hmodule,
      readLenPrefixed_putLenPrefixed hlo, readLenPrefixed_putLenPrefixed hhi, Option.bind_some]
  cases mode with
  | keys =>
    have := hfields (byte 1) (Or.inl rfl) []
    rwa [List.append_nil, if_pos rfl] at this
  | changes =>
    have := hfields (byte 2) (Or.inr rfl) [byte 1]
    rw [if_neg (by decide), if_neg (by decide),
      if_pos (show [byte 1].head? = some (byte 1) from rfl)] at this
    rw [← this]
    rfl

/-- The name is the first field of a record. -/
theorem name_of_decodeDef {d d' : TriggerDef} (hlen : d'.name.length < 2 ^ 64)
    (hdec : decodeDef (encodeDef d') = some d) : d.name = d'.name := by
  obtain ⟨name, module, lo, hi, mode⟩ := d'
  obtain ⟨ver, hver, tail, henc⟩ : ∃ ver, (ver = byte 1 ∨ ver = byte 2) ∧ ∃ tail,
      encodeDef ⟨name, module, lo, hi, mode⟩ = ver :: (putLenPrefixed name ++ tail) := by
    cases mode with
    | keys =>
      exact ⟨byte 1, Or.inl rfl, putLenPrefixed module ++ putLenPrefixed lo ++ putLenPrefixed hi,
        by simp [encodeDef]⟩
    | changes =>
      exact ⟨byte 2, Or.inr rfl,
        putLenPrefixed module ++ putLenPrefixed lo ++ putLenPrefixed hi ++ [byte 1],
        by simp [encodeDef]⟩
  rw [henc] at hdec
  simp only [decodeDef, if_pos hver, Option.bind_eq_bind, readLenPrefixed_putLenPrefixed hlen,
    Option.bind_some] at hdec
  obtain ⟨m, -, hdec⟩ := Option.bind_eq_some_iff.mp hdec
  obtain ⟨l, -, hdec⟩ := Option.bind_eq_some_iff.mp hdec
  obtain ⟨r, -, hdec⟩ := Option.bind_eq_some_iff.mp hdec
  split at hdec
  · exact (congrArg TriggerDef.name (Option.some_inj.mp hdec)).symm
  split at hdec
  · exact (congrArg TriggerDef.name (Option.some_inj.mp hdec)).symm
  split at hdec
  · exact (congrArg TriggerDef.name (Option.some_inj.mp hdec)).symm
  · exact absurd hdec (by simp)

theorem encodeDef_inj {d d' : TriggerDef} (h : d.Sized) (h' : d'.Sized)
    (heq : encodeDef d = encodeDef d') :
    d = d' := by
  have hd := decodeDef_encodeDef h
  rw [heq, decodeDef_encodeDef h'] at hd
  exact (Option.some_inj.mp hd).symm

/-! ### The value of a key -/

/-- The last of the ops on a key decides, or there is none. -/
theorem foldl_applyOp_cases (ops : List (BatchOp × ℕ)) (m : Bytes → Option Bytes) (k : Bytes) :
    (ops.foldl (fun m p => applyOp m p.1) m k = m k ∧ ∀ p ∈ ops, p.1.key ≠ k) ∨
      ∃ p ∈ ops, p.1.key = k ∧ ops.foldl (fun m p => applyOp m p.1) m k = p.1.value? := by
  induction ops generalizing m with
  | nil => exact Or.inl ⟨rfl, fun _ hp => absurd hp List.not_mem_nil⟩
  | cons p ops ih =>
    rw [List.foldl_cons]
    rcases ih (applyOp m p.1) with ⟨heq, hnone⟩ | ⟨q, hq, hkey, hvalue⟩
    · by_cases hk : k = p.1.key
      · exact Or.inr ⟨p, List.mem_cons_self, hk.symm, heq.trans (if_pos hk)⟩
      · exact Or.inl ⟨heq.trans (if_neg hk), List.forall_mem_cons.mpr ⟨Ne.symm hk, hnone⟩⟩
    · exact Or.inr ⟨q, List.mem_cons_of_mem _ hq, hkey, hvalue⟩

/-- Commits that have no op on the key leave it, or one of their ops decides it. -/
theorem stateAfter_append_cases (log recs : List CommitRec) (t : ℕ) (k : Bytes) :
    stateAfter (log ++ recs) t k = stateAfter log t k ∨
      ∃ c ∈ recs, ∃ op ∈ c.fullOps, op.key = k ∧ stateAfter (log ++ recs) t k = op.value? := by
  rw [stateAfter_append_eq]
  refine (foldl_applyOp_cases _ _ k).imp And.left ?_
  rintro ⟨p, hp, hkey, hvalue⟩
  obtain ⟨c, hc, hpc⟩ := List.mem_flatMap.mp (List.mem_of_mem_filter hp)
  exact ⟨c, hc, p.1, List.fst_mem_of_mem_zipIdx hpc, hkey, hvalue⟩

/-- Commits that all write one value to a key leave that value. -/
theorem stateAfter_append_of_op {c : CommitRec} {op : BatchOp} {t : ℕ} (hc : c ∈ recs)
    (hop : op ∈ c.fullOps) (hle : ∀ c ∈ recs, ∀ p ∈ c.numbered, p.2 ≤ t)
    (hsame : ∀ c ∈ recs, ∀ op' ∈ c.fullOps, op'.key = op.key → op'.value? = op.value?) :
    stateAfter (log ++ recs) t op.key = op.value? := by
  rw [stateAfter_append_eq]
  rcases foldl_applyOp_cases ((recs.flatMap CommitRec.numbered).filter fun p => decide (p.2 ≤ t))
    (stateAfter log t) op.key with ⟨-, hnone⟩ | ⟨p, hp, hkey, hvalue⟩
  · obtain ⟨n, hn⟩ : ∃ n, (op, n) ∈ c.numbered := by
      obtain ⟨i, hi⟩ := List.getElem?_of_mem hop
      exact ⟨c.base + i, List.mk_mem_zipIdx_iff_le_and_getElem?_sub.mpr
        ⟨Nat.le_add_right _ _, by simpa using hi⟩⟩
    exact absurd rfl (hnone (op, n) (List.mem_filter.mpr
      ⟨List.mem_flatMap.mpr ⟨c, hc, hn⟩, decide_eq_true (hle c hc _ hn)⟩))
  · obtain ⟨c', hc', hpc⟩ := List.mem_flatMap.mp (List.mem_of_mem_filter hp)
    exact hvalue.trans (hsame c' hc' p.1 (List.fst_mem_of_mem_zipIdx hpc) hkey)

namespace Engine

/-- The visible value of a key. -/
def value (e : Engine) (k : Bytes) : Option Bytes := stateAfter e.log e.db.visibleSeqno k

theorem Inv.numbered_le (h : e.Inv) {c : CommitRec} (hc : c ∈ e.log) {p : BatchOp × ℕ}
    (hp : p ∈ c.numbered) :
    p.2 ≤ e.db.visibleSeqno := by
  obtain ⟨x, hx, hseq, -⟩ :=
    exists_version_of_numbered h.consistent.encodes (List.mem_flatMap.mpr ⟨c, hc, hp⟩)
  exact hseq ▸ h.consistent.history_le hx

/-- Nothing is numbered beyond the visible seqno. -/
theorem Inv.stateAfter_eq_value (h : e.Inv) {t : ℕ} (ht : e.db.visibleSeqno ≤ t) (k : Bytes) :
    stateAfter e.log t k = e.value k := by
  have hall : (e.log.filter fun c => decide (c.base ≤ e.db.visibleSeqno)) = e.log :=
    List.filter_eq_self.mpr fun c hc => decide_eq_true (h.consistent.base_le hc)
  have hcut := stateAfter_cut (fun c hc _ p hp => h.numbered_le hc hp) t
  rw [hall, min_eq_right ht] at hcut
  exact congrFun hcut k

/-- A read at the visible seqno returns it. -/
theorem Inv.getAtSeq_value (h : e.Inv) (k : Bytes) :
    e.db.getAtSeq k e.db.visibleSeqno = .ok (e.value k) :=
  h.consistent.getAtSeq_eq h.floor_le_visible le_rfl k

end Engine

/-! ### Who writes definitions -/

/-- The entry writes a definition record. -/
def QueuedEntry.Defines (q : QueuedEntry) : Prop := ∃ op ∈ q.ops, DEF_PREFIX <+: op.key

instance (q : QueuedEntry) : Decidable q.Defines :=
  inferInstanceAs (Decidable (∃ op ∈ q.ops, DEF_PREFIX <+: op.key))

/-- Neither a step of `create_trigger` or `delete_trigger` nor an open. -/
def Action.background : Action → Bool
  | .commit (.define _) | .commit (.undefine _) | .enqueue (.define _)
  | .enqueue (.undefine _) => false
  | .createTrigger _ | .deleteTrigger _ | .deleteDone | .reopen _ _ => false
  | _ => true

/-- Clean-ups delete events only. -/
def Engine.ClearsEvents (e : Engine) : Prop :=
  ∀ name keys, .batch name keys ∈ e.clears → ∀ key ∈ keys, QUEUE_PREFIX <+: key

theorem clearsEvents_step (h : e.ClearsEvents) {a : Action} (hs : e.step opts a = some e') :
    e'.ClearsEvents := by
  intro name keys ht key hkey
  cases step_handed hs with
  | commit _ _ _ hclears => exact h name keys (hclears _ ht) key hkey
  | enqueue _ _ _ hclears => exact h name keys (hclears _ ht) key hkey
  | group heq =>
    subst heq
    exact h name keys ht key hkey
  | relocate _ _ _ hclears => exact h name keys (hclears ▸ ht) key hkey
  | other _ _ hclears =>
    rcases hclears _ ht with ht | ⟨name', heq⟩ | ⟨name', heq⟩
    · exact h name keys ht key hkey
    · exact absurd heq (by simp)
    · obtain ⟨rfl, rfl⟩ : name = name' ∧ keys = _ := ClearTask.batch.inj heq
      have hlive := List.mem_of_mem_take hkey
      have hpre := (List.mem_filter.mp (mem_sortDedup.mp (List.mem_of_mem_filter hlive))).2
      exact (queuePrefix_eventKey name []).trans (of_decide_eq_true hpre)

theorem not_defines {sub : Submission} {a : Action} (ha : a = .commit sub ∨ a = .enqueue sub)
    (hback : a.background = true) (hallowed : sub.Allowed opts e) (hclears : e.ClearsEvents) :
    ¬ sub.entry.Defines := by
  rintro ⟨op, hop, hdef⟩
  cases sub with
  | batch ops => exact not_defPrefix_of_valid (hallowed.2 op hop).1 hdef
  | txn snap writes locks => exact not_defPrefix_of_valid (hallowed.2 op hop) hdef
  | drain snap consume writes locks =>
    rcases List.mem_append.mp hop with hop | hop
    · obtain ⟨key, hkey, rfl⟩ := List.mem_map.mp hop
      exact not_defPrefix_of_queue (hallowed.2.1 key hkey) hdef
    · exact not_defPrefix_of_valid (hallowed.2.2 op hop) hdef
  | system ops => exact (hallowed.2 op hop).2.2 hdef
  | define d =>
    rcases ha with rfl | rfl <;> exact absurd hback Bool.false_ne_true
  | undefine name =>
    rcases ha with rfl | rfl <;> exact absurd hback Bool.false_ne_true
  | clear name keys =>
    obtain ⟨key, hkey, rfl⟩ := List.mem_map.mp hop
    exact not_defPrefix_of_queue (hclears name keys hallowed.2 key hkey) hdef

/-- An op on a definition record is one that was submitted. -/
theorem mem_ops_of_def {c : CommitRec} {q : QueuedEntry} {db : Db} (hops : c.ops = q.ops)
    (hevents : c.events = db.captureEvents opts q.ops c.base q.capture) {op : BatchOp}
    (hop : op ∈ c.fullOps)
    (hdef : DEF_PREFIX <+: op.key) : op ∈ q.ops := by
  rcases List.mem_append.mp hop with hop | hop
  · exact hops ▸ hop
  · rw [hevents] at hop
    unfold Db.captureEvents at hop
    split at hop
    · exact absurd hdef (not_defPrefix_of_queue (queue_of_mem_captureOps hop).1)
    · exact absurd hop List.not_mem_nil

/-! ### What a step does to them -/

/-- Every definition is as it was, at every seqno. -/
def LeavesDefs (log log' : List CommitRec) : Prop :=
  ∀ t k, DEF_PREFIX <+: k → stateAfter log' t k = stateAfter log t k

theorem LeavesDefs.refl (log : List CommitRec) : LeavesDefs log log := fun _ _ _ => rfl

theorem leavesDefs_append (h : ∀ c ∈ recs, ∀ op ∈ c.fullOps, ¬ DEF_PREFIX <+: op.key) :
    LeavesDefs log (log ++ recs) := by
  intro t k hk
  rcases stateAfter_append_cases log recs t k with heq | ⟨c, hc, op, hop, rfl, -⟩
  · exact heq
  · exact absurd hk (h c hc op hop)

theorem LeavesDefs.value (h : LeavesDefs e.log e'.log) (hinv : e.Inv)
    (hvis : e.db.visibleSeqno ≤ e'.db.visibleSeqno) {k : Bytes} (hk : DEF_PREFIX <+: k) :
    e'.value k = e.value k :=
  (h _ k hk).trans (hinv.stateAfter_eq_value hvis k)

/-- The op of a definition record has been applied. -/
structure Recorded (op : BatchOp) (e e' : Engine) : Prop where
  others : ∀ t k, DEF_PREFIX <+: k → k ≠ op.key → stateAfter e'.log t k = stateAfter e.log t k
  own : ∀ t, stateAfter e'.log t op.key = stateAfter e.log t op.key ∨
    stateAfter e'.log t op.key = op.value?
  value : e'.value op.key = op.value?

theorem recorded_append (hinv' : e'.Inv) {op : BatchOp} (hlog : e'.log = e.log ++ recs)
    (hdef : DEF_PREFIX <+: op.key)
    (honly : ∀ c ∈ recs, ∀ op' ∈ c.fullOps, DEF_PREFIX <+: op'.key → op' = op)
    {c : CommitRec} (hc : c ∈ recs) (hop : op ∈ c.fullOps) : Recorded op e e' where
  others t k hk hne := by
    rw [hlog]
    rcases stateAfter_append_cases e.log recs t k with heq | ⟨c, hc, op', hop', rfl, -⟩
    · exact heq
    · exact absurd (congrArg BatchOp.key (honly c hc op' hop' hk)) hne
  own t := by
    rw [hlog]
    refine (stateAfter_append_cases e.log recs t op.key).imp_right ?_
    rintro ⟨c, hc, op', hop', hkey, hvalue⟩
    rwa [honly c hc op' hop' (hkey ▸ hdef)] at hvalue
  value := by
    unfold Engine.value
    rw [hlog]
    refine stateAfter_append_of_op hc hop
      (fun c hc p hp => hinv'.numbered_le (hlog ▸ List.mem_append_right _ hc) hp)
      fun c hc op' hop' hkey => ?_
    rw [honly c hc op' hop' (hkey ▸ hdef)]

theorem Recorded.value_of_ne {op : BatchOp} (h : Recorded op e e') (hinv : e.Inv)
    (hvis : e.db.visibleSeqno ≤ e'.db.visibleSeqno) {k : Bytes} (hk : DEF_PREFIX <+: k)
    (hne : k ≠ op.key) :
    e'.value k = e.value k :=
  (h.others _ k hk hne).trans (hinv.stateAfter_eq_value hvis k)

/-! ### The answer to a record -/

/-- In a list where one member passes, what is paired with it is unique. -/
theorem eq_of_mem_zip {α β : Type} {p : α → Bool} {l : List α} {rs : List β} {x : α} {r r' : β}
    (h : l.filter p = [x]) (hr : (x, r) ∈ l.zip rs) (hr' : (x, r') ∈ l.zip rs) : r = r' := by
  have hx : p x = true := (List.mem_filter.mp (h ▸ List.mem_singleton_self x)).2
  induction l generalizing rs with
  | nil => exact absurd hr List.not_mem_nil
  | cons y l ih =>
    cases rs with
    | nil => exact absurd hr List.not_mem_nil
    | cons s rs =>
      rw [List.zip_cons_cons] at hr hr'
      by_cases hy : p y = true
      · rw [List.filter_cons_of_pos hy] at h
        obtain ⟨rfl, hrest⟩ := List.cons.inj h
        have hnot : ∀ r, (y, r) ∉ l.zip rs := fun r hmem =>
          absurd (List.mem_filter.mpr ⟨(List.of_mem_zip hmem).1, hx⟩) (hrest ▸ List.not_mem_nil)
        rcases List.mem_cons.mp hr with heq | hmem
        · rcases List.mem_cons.mp hr' with heq' | hmem'
          · exact (Prod.mk.inj heq).2.trans (Prod.mk.inj heq').2.symm
          · exact absurd hmem' (hnot r')
        · exact absurd hmem (hnot r)
      · rw [List.filter_cons_of_neg hy] at h
        have hne : ∀ r, (x, r) ≠ (y, s) := fun r heq => hy ((Prod.mk.inj heq).1 ▸ hx)
        exact ih h ((List.mem_cons.mp hr).resolve_left (hne r))
          ((List.mem_cons.mp hr').resolve_left (hne r'))

/-- An applied entry finds its own outcome among the results, -/
theorem mem_zip_results {view : ReadView} {written : List Bytes} {qs : List QueuedEntry} {α : Type}
    {rs : List (Except Error α)} {q : QueuedEntry} {r : Except Error α}
    (h : (q, r) ∈ (includedEntries (validateGroup view written qs) qs).zip rs) :
    (q, r.map fun _ => ()) ∈ qs.zip
      (mergeResults (validateGroup view written qs) (rs.map fun r => r.map fun _ => ())) := by
  induction qs generalizing written rs with
  | nil => exact absurd h List.not_mem_nil
  | cons x qs ih =>
    cases hx : x.conflicts view written with
    | true =>
      rw [validateGroup_conflict qs hx] at h ⊢
      exact List.mem_cons_of_mem _ (ih h)
    | false =>
      by_cases hops : x.ops = []
      · rw [validateGroup_locks qs hx hops] at h ⊢
        exact List.mem_cons_of_mem _ (ih h)
      · rw [validateGroup_included qs hx hops] at h ⊢
        cases rs with
        | nil => exact absurd h List.not_mem_nil
        | cons s rs =>
          rw [includedEntries, List.zip_cons_cons] at h
          rcases List.mem_cons.mp h with heq | h
          · obtain ⟨rfl, rfl⟩ := Prod.mk.inj heq
            exact List.mem_cons_self
          · exact List.mem_cons_of_mem _ (ih h)

/-- and one that is answered `Ok` with something to apply has been applied. -/
theorem applied_of_ok {view : ReadView} {written : List Bytes} {qs : List QueuedEntry} {α : Type}
    {rs : List (Except Error α)} {q : QueuedEntry} (hops : q.ops ≠ [])
    (h : (q, .ok ()) ∈
      qs.zip (mergeResults (validateGroup view written qs) (rs.map fun r => r.map fun _ => ()))) :
    ∃ x, (q, .ok x) ∈ (includedEntries (validateGroup view written qs) qs).zip rs := by
  induction qs generalizing written rs with
  | nil => exact absurd h List.not_mem_nil
  | cons y qs ih =>
    cases hy : y.conflicts view written with
    | true =>
      rw [validateGroup_conflict qs hy] at h ⊢
      rcases List.mem_cons.mp h with heq | h
      · exact absurd (Prod.mk.inj heq).2 (by simp)
      · exact ih h
    | false =>
      by_cases hy' : y.ops = []
      · rw [validateGroup_locks qs hy hy'] at h ⊢
        rcases List.mem_cons.mp h with heq | h
        · exact absurd ((Prod.mk.inj heq).1 ▸ hy') hops
        · exact ih h
      · -- the entry takes the next result, so the two lists go on together
        rw [validateGroup_included qs hy hy'] at h ⊢
        cases rs with
        | nil =>
          rcases List.mem_cons.mp h with heq | h
          · exact absurd (Prod.mk.inj heq).2 (by simp)
          · obtain ⟨x, hx⟩ := @ih _ [] h
            rw [List.zip_nil_right] at hx
            exact absurd hx List.not_mem_nil
        | cons s rs =>
          rw [includedEntries, List.zip_cons_cons]
          rcases List.mem_cons.mp h with heq | h
          · obtain ⟨rfl, hs⟩ := Prod.mk.inj heq
            cases s with
            | error err => exact absurd hs (by simp [Except.map])
            | ok x => exact ⟨x, List.mem_cons_self⟩
          · obtain ⟨x, hx⟩ := ih h
            exact ⟨x, List.mem_cons_of_mem _ hx⟩

theorem length_mergeResults (view : ReadView) (written : List Bytes) (qs : List QueuedEntry)
    (rs : List (Except Error Unit)) :
    (mergeResults (validateGroup view written qs) rs).length = qs.length := by
  induction qs generalizing written rs with
  | nil => rfl
  | cons q qs ih =>
    cases hq : q.conflicts view written with
    | true =>
      rw [validateGroup_conflict qs hq]
      exact congrArg Nat.succ (ih _ _)
    | false =>
      by_cases hops : q.ops = []
      · rw [validateGroup_locks qs hq hops]
        exact congrArg Nat.succ (ih _ _)
      · rw [validateGroup_included qs hq hops]
        cases rs <;> exact congrArg Nat.succ (ih _ _)

/-- The result of the definition record among the first `n` entries of the queue, once
they are committed. -/
def Engine.recordAnswer (opts : Options) (e : Engine) (n : ℕ) : Option (Except Error Unit) :=
  (((e.queue.take n).zip (e.db.commitGroup opts (e.queue.take n)).2).find? fun p =>
    decide p.1.Defines).map Prod.snd

theorem recordAnswer_none {n : ℕ} (h : ∀ q ∈ e.queue.take n, ¬ q.Defines) :
    e.recordAnswer opts n = none := by
  rw [Engine.recordAnswer, Option.map_eq_none_iff, List.find?_eq_none]
  rintro ⟨q, r⟩ hmem
  simpa using h q (List.of_mem_zip hmem).1

theorem mem_zip_recordAnswer {n : ℕ} {q : QueuedEntry}
    (h : ((e.queue.take n).filter fun q => decide q.Defines) = [q]) :
    ∃ r, e.recordAnswer opts n = some r ∧
      (q, r) ∈ (e.queue.take n).zip (e.db.commitGroup opts (e.queue.take n)).2 := by
  have hq := List.mem_filter.mp (h ▸ List.mem_singleton_self q)
  have hlen : (e.db.commitGroup opts (e.queue.take n)).2.length = (e.queue.take n).length := by
    rw [commitGroup_results]
    exact length_mergeResults ..
  cases hfind : ((e.queue.take n).zip (e.db.commitGroup opts (e.queue.take n)).2).find?
      fun p => decide p.1.Defines with
  | none =>
    obtain ⟨i, hi, rfl⟩ := List.getElem_of_mem hq.1
    have hi' : i < (e.db.commitGroup opts (e.queue.take n)).2.length := hlen ▸ hi
    have hmem : ((e.queue.take n)[i], (e.db.commitGroup opts (e.queue.take n)).2[i]) ∈
        (e.queue.take n).zip (e.db.commitGroup opts (e.queue.take n)).2 := by
      rw [← List.getElem_zip]
      exact List.getElem_mem (by rwa [List.length_zip, hlen, min_self])
    exact absurd hq.2 (by simpa using List.find?_eq_none.mp hfind _ hmem)
  | some p =>
    obtain ⟨q', r⟩ := p
    have hmem := List.mem_of_find?_eq_some hfind
    have hdef := List.find?_some hfind
    have hq' : q' ∈ (e.queue.take n).filter fun q => decide q.Defines :=
      List.mem_filter.mpr ⟨(List.of_mem_zip hmem).1, hdef⟩
    rw [h] at hq'
    obtain rfl := List.mem_singleton.mp hq'
    exact ⟨r, by rw [Engine.recordAnswer, hfind]; rfl, hmem⟩

/-! ### Steps -/

/-- New commits are above the old ones. -/
theorem notMem_log (h : e.Inv) (h' : e'.Inv) (hlog : e'.log = e.log ++ recs) {c : CommitRec}
    (hc : c ∈ recs) :
    c ∉ e.log := fun hmem => by
  have hlt := h.consistent.contiguous.split_log (hlog ▸ h'.consistent.contiguous) c hc
  have hle := h.consistent.base_le hmem
  omega

/-- A relocation writes what is there. -/
theorem leaves_relocate (h : e.Inv) {records : List VlogRecord}
    (hs : e.step opts (.relocate records) = some e') :
    LeavesDefs e.log e'.log := by
  obtain ⟨hrecords, rfl⟩ := Engine.guarded_eq_some hs
  intro t k _
  cases happ : (!(relocationOps e.db records).isEmpty &&
      (e.db.applyLocked opts (relocationOps e.db records) false).2.isOk) with
  | false => rw [relocate_log_of_not happ]
  | true =>
    have hboth : (relocationOps e.db records).isEmpty = false ∧
        (e.db.applyLocked opts (relocationOps e.db records) false).2.isOk = true := by
          simpa using happ
    rw [relocate_log hboth.1 hboth.2, stateAfter_relocation h hrecords t]

/-- **A background step** leaves every definition, but for a chunk of the committer with
a definition record in it. -/
theorem leaves_background (h : e.Inv) (hclears : e.ClearsEvents) {a : Action}
    (hback : a.background = true) (hs : e.step opts a = some e')
    (hgroup : ∀ n, a = .group n → ∀ q ∈ e.queue.take n, ¬ q.Defines) :
    LeavesDefs e.log e'.log := by
  obtain ⟨recs, hmove⟩ := moved_step h hs fun n orphan heq => by
    rw [heq] at hback
    exact Bool.false_ne_true hback
  have hfresh : ∀ c ∈ recs, c ∉ e.log := fun c hc => notMem_log h (inv_step h hs) hmove.log hc
  have hmem : ∀ c ∈ recs, c ∈ e'.log := fun c hc => hmove.log ▸ List.mem_append_right _ hc
  cases step_handed hs with
  | @commit sub hallowed hlog =>
    have hplain := not_defines (Or.inl rfl) hback hallowed hclears
    rw [hmove.log]
    refine leavesDefs_append fun c hc op hop hdef => hplain ⟨op, ?_, hdef⟩
    have heq := (hlog c (hmem c hc)).resolve_left (hfresh c hc)
    exact mem_ops_of_def (by rw [heq]; rfl) (by rw [heq]; rfl) hop hdef
  | enqueue _ hlog => exact hlog ▸ .refl _
  | @group n heq =>
    subst heq
    refine leavesDefs_append fun c hc op hop hdef => ?_
    obtain ⟨q, hq, hops, -, -, hevents⟩ := mem_groupRecs hc
    exact hgroup n rfl q (mem_includedEntries hq).1 ⟨op, mem_ops_of_def hops hevents hop hdef, hdef⟩
  | relocate => exact leaves_relocate h hs
  | other hlog =>
    rw [hmove.log]
    exact leavesDefs_append fun c hc => absurd (hlog (hmem c hc)) (hfresh c hc)

/-- It leaves the registry as well. -/
theorem frame_background (h : e.Inv) {a : Action} (hback : a.background = true)
    (hs : e.step opts a = some e') :
    e'.db.defs = e.db.defs ∧ e'.deleting = e.deleting ∧ e.db.visibleSeqno ≤ e'.db.visibleSeqno := by
  obtain ⟨recs, hmove⟩ := moved_step h hs fun n orphan heq => by
    rw [heq] at hback
    exact Bool.false_ne_true hback
  cases step_cases h hs with
  | commits _ _ _ hdefs hdeleting => exact ⟨hdefs, hdeleting, hmove.visible_le⟩
  | enqueue _ _ _ hdb hdeleting => exact ⟨by rw [hdb], hdeleting, hmove.visible_le⟩
  | quiet hquiet => exact ⟨hquiet.defs, hquiet.deleting, hmove.visible_le⟩
  | reopen | createTrigger | deleteTrigger | deleteDone => exact absurd hback Bool.false_ne_true

/-- The definition records that are queued. -/
def Engine.records (e : Engine) : List QueuedEntry := e.queue.filter fun q => decide q.Defines

theorem adminIdle_iff : e.AdminIdle ↔ e.records = [] := by
  rw [Engine.records, List.filter_eq_nil_iff]
  refine forall₂_congr fun q _ => ?_
  rw [decide_eq_true_eq, QueuedEntry.Defines]
  push Not
  rfl

theorem filter_eraseIdx {α : Type} {p : α → Bool} {l : List α} {i : ℕ} {x : α} (hi : l[i]? = some x)
    (hx : p x = false) : (l.eraseIdx i).filter p = l.filter p := by
  induction l generalizing i with
  | nil => rfl
  | cons y l ih =>
    cases i with
    | zero =>
      obtain rfl := Option.some_inj.mp hi
      rw [List.eraseIdx_cons_zero, List.filter_cons_of_neg (by simp [hx])]
    | succ i =>
      rw [List.eraseIdx_cons_succ, List.filter_cons, List.filter_cons, ih hi]

/-- Only the committer takes a definition record from the queue. -/
theorem records_background (hclears : e.ClearsEvents) {a : Action} (hback : a.background = true)
    (hs : e.step opts a = some e') (hgroup : ∀ n, a ≠ .group n)
    (hkeep : ∀ i, a = .withdraw i → ∀ q, e.queue[i]? = some q → ¬ q.Defines) :
    e'.records = e.records := by
  cases a with
  | commit sub =>
    obtain ⟨-, rfl⟩ := Engine.guarded_eq_some hs
    obtain ⟨clears, heq⟩ := Engine.finishTask_eq (e.commit opts sub.entry) sub
    refine congrArg (List.filter _) ?_
    rw [heq]
    show (e.commit opts sub.entry).queue = e.queue
    unfold Engine.commit
    simp only
    split <;> rfl
  | enqueue sub =>
    obtain ⟨⟨-, hallowed⟩, rfl⟩ := Engine.guarded_eq_some hs
    -- a background submission defines nothing
    have hplain := not_defines (Or.inr rfl) hback hallowed hclears
    obtain ⟨clears, heq⟩ := Engine.finishTask_eq _ sub
    unfold Engine.records
    rw [heq, List.filter_append, List.filter_cons_of_neg (by simpa using hplain), List.filter_nil,
      List.append_nil]
  | group n => exact absurd rfl (hgroup n)
  | withdraw i =>
    obtain ⟨q, hq, rfl⟩ := Option.map_eq_some_iff.mp hs
    -- what is pulled out was no definition
    exact filter_eraseIdx hq (decide_eq_false (hkeep i rfl q hq))
  | relocate records =>
    obtain ⟨-, rfl⟩ := Engine.guarded_eq_some hs
    refine congrArg (List.filter _) ?_
    unfold Engine.relocate
    simp only
    split
    · rfl
    · split <;> rfl
  | createTrigger _ | deleteTrigger _ | deleteDone | reopen _ _ =>
    exact absurd hback Bool.false_ne_true
  | clearLook _ | clearRead _ | schedBegin _ | advance _ _ | release _ =>
    obtain ⟨-, rfl⟩ := Engine.guarded_eq_some hs
    rfl
  | rotate | schedExit | snapshot | snapshotFlushed =>
    obtain rfl := Option.some_inj.mp hs
    rfl
  | flush | snapshotAt _ | pin _ | unpin _ =>
    obtain ⟨r, -, rfl⟩ := Option.map_eq_some_iff.mp hs
    rfl
  | schedStart | schedPreempt | schedSchedule | schedSlice =>
    obtain ⟨s, -, hs⟩ := Option.bind_eq_some_iff.mp hs
    obtain ⟨r, -, rfl⟩ := Option.map_eq_some_iff.mp hs
    rfl

/-- **The record in a chunk**: answered `Ok` it is applied, otherwise nothing has changed. -/
theorem group_record (h : e.Inv) {n : ℕ} (hs : e.step opts (.group n) = some e')
    {q : QueuedEntry} {op : BatchOp}
    (hq : ((e.queue.take n).filter fun q => decide q.Defines) = [q])
    (hops : q.ops = [op]) :
    (e.recordAnswer opts n = some (.ok ()) ∧ Recorded op e e') ∨
      ∃ err, e.recordAnswer opts n = some (.error err) ∧ LeavesDefs e.log e'.log := by
  have hinv' := inv_step h hs
  obtain ⟨-, rfl⟩ := Engine.guarded_eq_some hs
  obtain ⟨r, hr, hmem⟩ := mem_zip_recordAnswer hq
  have hdef : DEF_PREFIX <+: op.key := by
    have hself : q ∈ (e.queue.take n).filter fun q => decide q.Defines :=
      hq ▸ List.mem_singleton_self q
    obtain ⟨op', hop', hdef⟩ := of_decide_eq_true (List.mem_filter.mp hself).2
    rw [hops] at hop'
    rwa [← List.mem_singleton.mp hop']
  have hresults := hmem
  rw [commitGroup_results] at hresults
  -- an op on a definition in the new commits is that of the record
  have hfrom : ∀ c ∈ groupRecs opts e.db (includedEntries
      (validateGroup e.db.readView [] (e.queue.take n))
      (e.queue.take n)) (e.db.groupOutcome opts ((includedEntries (validateGroup e.db.readView []
        (e.queue.take n)) (e.queue.take n)).map QueuedEntry.batch)).2,
      ∀ op' ∈ c.fullOps, DEF_PREFIX <+: op'.key → op' = op ∧
        ∃ x, (q, .ok x) ∈ (includedEntries (validateGroup e.db.readView [] (e.queue.take n))
        (e.queue.take n)).zip
          (e.db.groupOutcome opts ((includedEntries (validateGroup e.db.readView []
          (e.queue.take n)) (e.queue.take n)).map QueuedEntry.batch)).2 := by
    intro c hc op' hop' hdef'
    obtain ⟨⟨q', r'⟩, hmem', hr'⟩ := List.mem_filterMap.mp hc
    obtain ⟨x, hx, rfl⟩ := Option.map_eq_some_iff.mp hr'
    have hin := mem_ops_of_def (q := q') rfl rfl hop' hdef'
    have hq' : q' ∈ (e.queue.take n).filter fun q => decide q.Defines :=
      List.mem_filter.mpr
        ⟨(mem_includedEntries (List.of_mem_zip hmem').1).1, decide_eq_true ⟨op', hin, hdef'⟩⟩
    rw [hq] at hq'
    obtain rfl := List.mem_singleton.mp hq'
    rw [hops] at hin
    refine ⟨List.mem_singleton.mp hin, x, ?_⟩
    cases r' with
    | error err => exact absurd hx (by simp [Except.toOption])
    | ok y =>
      obtain rfl : y = x := Option.some_inj.mp hx
      exact hmem'
  cases r with
  | ok u =>
    obtain ⟨x, hx⟩ := applied_of_ok (by simp [hops]) hresults
    refine Or.inl ⟨hr, recorded_append hinv' rfl hdef
      (fun c hc op' hop' hdef' => (hfrom c hc op' hop' hdef').1)
      (List.mem_filterMap.mpr ⟨_, hx, rfl⟩) (List.mem_append_left _ (by simp [hops]))⟩
  | error err =>
    refine Or.inr ⟨err, hr, leavesDefs_append fun c hc op' hop' hdef' => ?_⟩
    obtain ⟨-, x, hx⟩ := hfrom c hc op' hop' hdef'
    exact absurd (eq_of_mem_zip hq hresults (mem_zip_results hx)) (by simp [Except.map])

/-- **The record on the direct path.** -/
theorem commit_record (h : e.Inv) {sub : Submission} (hs : e.step opts (.commit sub) = some e')
    {op : BatchOp} (hops : sub.entry.ops = [op]) (hdef : DEF_PREFIX <+: op.key) :
    ((e.db.commitDirect opts sub.entry).2 = .ok () ∧ Recorded op e e') ∨
      ∃ err, (e.db.commitDirect opts sub.entry).2 = .error err ∧ LeavesDefs e.log e'.log := by
  have hinv' := inv_step h hs
  obtain ⟨-, rfl⟩ := Engine.guarded_eq_some hs
  obtain ⟨clears, heq⟩ := Engine.finishTask_eq (e.commit opts sub.entry) sub
  have hlog : ((e.commit opts sub.entry).finishTask sub).log = (e.commit opts sub.entry).log := by
    rw [heq]
  cases hr : (e.db.commitDirect opts sub.entry).2 with
  | ok u =>
    -- one record, and its only write of a definition is `op`
    have hnew : (e.commit opts sub.entry).log = e.log ++ [recOf opts e.db sub.entry] := by
      unfold Engine.commit
      simp only [hr]
      rw [hops]
      rfl
    refine Or.inl ⟨rfl, recorded_append hinv' (hlog.trans hnew) hdef (fun c hc op' hop' hdef' => ?_)
      (List.mem_singleton_self _) (List.mem_append_left _ ?_)⟩
    · rw [List.mem_singleton.mp hc] at hop'
      have hin := mem_ops_of_def (q := sub.entry) rfl rfl hop' hdef'
      rw [hops] at hin
      exact List.mem_singleton.mp hin
    · show op ∈ sub.entry.ops
      rw [hops]
      exact List.mem_singleton_self op
  | error err =>
    -- what fails leaves the log
    have hold : (e.commit opts sub.entry).log = e.log := by
      unfold Engine.commit
      simp only [hr]
      exact List.append_nil _
    exact Or.inr ⟨err, rfl, (hlog.trans hold) ▸ .refl _⟩

/-! ### The registry -/

/-- `TriggerRegistry::lookup`. -/
def Db.lookup (db : Db) (name : Bytes) : Option TriggerDef :=
  db.defs.find? fun d => decide (d.name = name)

theorem find?_eq_some_of_unique {α : Type} {p : α → Bool} {l : List α} {x : α} (hx : x ∈ l)
    (hp : p x = true) (hunique : ∀ y ∈ l, p y = true → y = x) : l.find? p = some x := by
  cases hfind : l.find? p with
  | none => exact absurd hp (List.find?_eq_none.mp hfind x hx)
  | some y => exact congrArg some (hunique y (List.mem_of_find?_eq_some hfind)
    (List.find?_some hfind))

theorem lookup_isSome {db : Db} {name : Bytes} :
    (db.lookup name).isSome ↔ ∃ d ∈ db.defs, d.name = name := by
  rw [Db.lookup, List.find?_isSome]
  simp only [decide_eq_true_eq]

/-- Definition records hold encoded definitions, at every seqno. -/
def Engine.DefsEncoded (e : Engine) : Prop :=
  ∀ t k v, DEF_PREFIX <+: k → stateAfter e.log t k = some v →
    ∃ d : TriggerDef, d.Sized ∧ k = sysTriggerKey d.name ∧ v = encodeDef d

theorem Engine.DefsEncoded.of_leaves (h : e.DefsEncoded) (hleaves : LeavesDefs e.log e'.log) :
    e'.DefsEncoded :=
  fun t k v hk hv => h t k v hk (hleaves t k hk ▸ hv)

theorem Engine.DefsEncoded.of_recorded (h : e.DefsEncoded) {op : BatchOp} (hrec : Recorded op e e')
    (hop : ∀ v, op.value? = some v → ∃ d : TriggerDef, d.Sized ∧ op.key = sysTriggerKey d.name ∧
      v = encodeDef d) :
    e'.DefsEncoded := by
  intro t k v hk hv
  by_cases hkey : k = op.key
  · subst hkey
    rcases hrec.own t with heq | heq
    · exact h t _ v hk (heq ▸ hv)
    · exact hop v (heq ▸ hv)
  · exact h t k v hk (hrec.others t k hk hkey ▸ hv)

/-- An open cuts the log. -/
theorem stateAfter_reopen (h : e.Inv) {n orphan : ℕ}
    (hr : e.reopen opts n orphan = some e') (t : ℕ) :
    stateAfter e'.log t = stateAfter e.log (min t e'.db.visibleSeqno) := by
  have hlog := reopen_log h hr
  have hinv' := h.reopened hr
  have hends : ∀ c ∈ e.log, c.base ≤ e'.db.visibleSeqno → ∀ p ∈ c.numbered,
      p.2 ≤ e'.db.visibleSeqno :=
    fun c hc hbase p hp =>
      hinv'.numbered_le (hlog ▸ List.mem_filter.mpr ⟨hc, decide_eq_true hbase⟩) hp
  rw [hlog]
  exact stateAfter_cut hends t

theorem Engine.DefsEncoded.reopen (h : e.DefsEncoded) (hinv : e.Inv) {n orphan : ℕ}
    (hr : e.reopen opts n orphan = some e') : e'.DefsEncoded := by
  intro t k v hk hv
  rw [stateAfter_reopen hinv hr] at hv
  exact h _ k v hk hv

theorem mem_mapM {α β : Type} {f : α → Option β} {l : List α} {ys : List β}
    (h : l.mapM f = some ys) {y : β} :
    y ∈ ys ↔ ∃ x ∈ l, f x = some y := by
  induction l generalizing ys with
  | nil =>
    obtain rfl : [] = ys := Option.some_inj.mp h
    simp
  | cons x l ih =>
    rw [List.mapM_cons] at h
    obtain ⟨y', hy', h⟩ := Option.bind_eq_some_iff.mp h
    obtain ⟨ys', hys', h⟩ := Option.bind_eq_some_iff.mp h
    obtain rfl := Option.some_inj.mp h
    rw [List.mem_cons, ih hys']
    constructor
    · rintro (rfl | ⟨x', hx', hf⟩)
      · exact ⟨x, List.mem_cons_self, hy'⟩
      · exact ⟨x', List.mem_cons_of_mem _ hx', hf⟩
    · rintro ⟨x', hx', hf⟩
      rcases List.mem_cons.mp hx' with rfl | hx'
      · exact Or.inl (Option.some_inj.mp (hf.symm.trans hy'))
      · exact Or.inr ⟨x', hx', hf⟩

/-- A scan of the definitions comes by every one of them. -/
theorem mem_liveKeys (h : e.Inv) {pre k : Bytes} (hpre : pre <+: k) {v : Bytes}
    (hv : e.value k = some v) :
    k ∈ e.db.liveKeys pre := by
  have hget := h.getAtSeq_value k
  rw [hv] at hget
  unfold Db.getAtSeq at hget
  rw [min_self] at hget
  have hanswer := h.consistent.wf.recent.answers_getVersioned k e.db.visibleSeqno
  unfold Db.liveKeys
  cases hfound : e.db.readView.getVersioned k e.db.visibleSeqno with
  | none =>
    rw [hfound] at hget
    exact absurd hget (by simp)
  | some x =>
    rw [hfound] at hget hanswer
    obtain ⟨hmem, hkey, -, -⟩ := hanswer
    refine List.mem_filter.mpr ⟨mem_sortDedup.mpr (List.mem_filter.mpr
      ⟨List.mem_map.mpr ⟨x, hmem, hkey⟩, decide_eq_true hpre⟩), ?_⟩
    rw [hfound]
    cases hkind : x.kind with
    | put => exact decide_eq_true hkind
    | delete =>
      simp only [hkind] at hget
      exact absurd hget (by simp)

theorem mem_defs_reopen (h : e.Inv) {n orphan : ℕ} (hr : e.reopen opts n orphan = some e')
    (d : TriggerDef) :
    d ∈ e'.db.defs ↔ ∃ k ∈ e'.db.liveKeys DEF_PREFIX, (e'.value k).bind decodeDef = some d := by
  have hget := (h.reopened hr).getAtSeq_value
  obtain ⟨db', hdb, rfl⟩ := Option.map_eq_some_iff.mp hr
  obtain ⟨db₁, -, hload⟩ := Option.bind_eq_some_iff.mp hdb
  obtain ⟨defs, hmap, rfl⟩ := Option.map_eq_some_iff.mp hload
  refine (mem_mapM hmap).trans (exists_congr fun k => and_congr_right fun _ => ?_)
  rw [show db₁.getAtSeq k db₁.visibleSeqno = .ok (Engine.value _ k) from hget k]
  cases Engine.value _ k <;> rfl

/-- **An open registers the definitions it finds**, and no others. -/
theorem lookup_reopen (h : e.Inv) (hdefs : e.DefsEncoded) {n orphan : ℕ}
    (hr : e.reopen opts n orphan = some e')
    (name : Bytes) : e'.value (sysTriggerKey name) = (e'.db.lookup name).map encodeDef := by
  have hinv' := h.reopened hr
  have hdefs' := hdefs.reopen h hr
  -- what is registered has its record
  have hvalue : ∀ d ∈ e'.db.defs, d.Sized ∧ e'.value (sysTriggerKey d.name) = some
      (encodeDef d) := by
    intro d hd
    obtain ⟨k, hk, hdec⟩ := (mem_defs_reopen h hr d).mp hd
    obtain ⟨v, hv, hdec⟩ := Option.bind_eq_some_iff.mp hdec
    have hpre := (List.mem_filter.mp (mem_sortDedup.mp (List.mem_of_mem_filter hk))).2
    obtain ⟨d', hsized, rfl, rfl⟩ := hdefs' _ k v (of_decide_eq_true hpre) hv
    obtain rfl : d' = d := Option.some_inj.mp ((decodeDef_encodeDef hsized).symm.trans hdec)
    exact ⟨hsized, hv⟩
  cases hv : e'.value (sysTriggerKey name) with
  | none =>
    have hnone : e'.db.lookup name = none := by
      rw [Db.lookup, List.find?_eq_none]
      intro d hd hname
      obtain rfl := of_decide_eq_true hname
      exact absurd ((hvalue d hd).2.symm.trans hv) (by simp)
    rw [hnone]
    rfl
  | some v =>
    obtain ⟨d, hsized, hkey, rfl⟩ := hdefs' _ _ v (defPrefix_key name) hv
    obtain rfl := sysTriggerKey_inj.mp hkey
    have hd : d ∈ e'.db.defs :=
      (mem_defs_reopen h hr d).mpr ⟨_, mem_liveKeys hinv' (defPrefix_key _) hv, by
      rw [hv, Option.bind_some, decodeDef_encodeDef hsized]⟩
    have hlookup : e'.db.lookup d.name = some d := by
      refine find?_eq_some_of_unique hd (decide_eq_true rfl) fun d' hd' hname => ?_
      obtain ⟨hsized', hv'⟩ := hvalue d' hd'
      rw [of_decide_eq_true hname, hv] at hv'
      exact encodeDef_inj hsized' hsized (Option.some_inj.mp hv').symm
    rw [hlookup]
    rfl

end Fluent31
