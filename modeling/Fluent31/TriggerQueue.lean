/-
Trigger queues and the packing of their events (`trigger.rs`).

A drain packs a prefix of a trigger's queue into the input of one invocation:
touched keys in keys mode, change records in changes mode.  Both packings are
one loop with its own frame for an event (`packEvents`).

* `decodeChangeRecord_encode` — the round trip of change records;
* `packEvents_sized` — the batch that a drain takes: as much of the queue as fits;
* `drains_iff` — when a queue is drained;
* `event_deliverable` — a captured event can be drained alone exactly when the batch size is
  positive, its key is of an admitted size or still fits, and a transaction can delete its
  queue key; and a queue when a transaction can delete the batch in front.
-/
import Mathlib.Algebra.Order.BigOperators.Group.List
import Fluent31.Admission
import Fluent31.Engine
import Fluent31.Lib.Distinct

namespace Fluent31

open Checks (bind_eq_ok map_eq_ok)

def shortRead : Error := .corruption "short read while decoding"

/-- The reader's varint loop with its errors. -/
def uvarintFrom (shift : ℕ) : Bytes → Except Error (ℕ × Bytes)
  | [] => .error shortRead
  | b :: rest =>
    if shift = 63 ∧ 1 < b.val then .error (.corruption "uvarint overflow")
    else if b.val < 128 then .ok (b.val * 2 ^ shift, rest)
    else if 63 < shift + 7 then .error (.corruption "uvarint too long")
    else (uvarintFrom (shift + 7) rest).map fun r => (b.val % 128 * 2 ^ shift + r.1, r.2)

theorem toOption_uvarintFrom (shift : ℕ) (bs : Bytes) :
    (uvarintFrom shift bs).toOption = readUvarintFrom shift bs := by
  induction bs generalizing shift with
  | nil => rfl
  | cons b rest ih =>
    unfold uvarintFrom readUvarintFrom
    split_ifs
    · rfl
    · rfl
    · rfl
    · rw [← ih]
      cases uvarintFrom (shift + 7) rest <;> rfl

theorem uvarintFrom_putUvarint {v : ℕ} (hv : v < 2 ^ 64) (rest : Bytes) :
    uvarintFrom 0 (putUvarint v ++ rest) = .ok (v, rest) := by
  have h := toOption_uvarintFrom 0 (putUvarint v ++ rest)
  rw [show readUvarintFrom 0 (putUvarint v ++ rest) = some (v, rest) from
    readUvarint_putUvarint hv rest] at h
  cases hr : uvarintFrom 0 (putUvarint v ++ rest) with
  | error err =>
    rw [hr] at h
    exact absurd h (by simp [Except.toOption])
  | ok r =>
    rw [hr] at h
    exact congrArg Except.ok (Option.some_inj.mp h)

/-- A stored change record as kind, key and inline value. -/
def decodeChangeRecord : Bytes → Except Error (ℕ × Bytes × Bytes)
  | [] => .error shortRead
  | ver :: buf =>
    if ver ≠ byte 1 then .error (.corruption ("bad change record version " ++ toString ver.val))
    else match buf with
    | [] => .error shortRead
    | kind :: buf =>
      if CHANGE_PUT_ELIDED < kind.val then
        .error (.corruption ("bad change record kind " ++ toString kind.val))
      else
        (uvarintFrom 0 buf).bind fun r =>
          if r.2.length < r.1 then .error (.corruption "change record truncated")
          else if kind.val ≠ CHANGE_PUT ∧ r.2.drop r.1 ≠ [] then
            .error (.corruption "change record has a value but no put kind")
          else .ok (kind.val, r.2.take r.1, r.2.drop r.1)

/-- Kind and inline value of the record of an op. -/
def changeOf (op : BatchOp) (inlineCap : ℕ) : ℕ × Bytes :=
  match op with
  | .put _ value =>
    if value.length ≤ inlineCap then (CHANGE_PUT, value) else (CHANGE_PUT_ELIDED, [])
  | .delete _ => (CHANGE_DELETE, [])

theorem encodeChangeRecord_eq (op : BatchOp) (inlineCap : ℕ) :
    encodeChangeRecord op inlineCap =
      byte 1 :: byte (changeOf op inlineCap).1 ::
        (putLenPrefixed op.key ++ (changeOf op inlineCap).2) := by
  cases op with
  | put key value =>
    by_cases h : value.length ≤ inlineCap <;> simp [encodeChangeRecord, changeOf, h, BatchOp.key]
  | delete key => rfl

theorem changeOf_spec (op : BatchOp) (inlineCap : ℕ) :
    (changeOf op inlineCap).1 ≤ CHANGE_PUT_ELIDED ∧
    ((changeOf op inlineCap).1 ≠ CHANGE_PUT → (changeOf op inlineCap).2 = []) ∧
    (changeOf op inlineCap).2.length ≤ inlineCap := by
  cases op with
  | put key value =>
    by_cases h : value.length ≤ inlineCap
    · simp [changeOf, h, CHANGE_PUT, CHANGE_PUT_ELIDED]
    · simp [changeOf, h, CHANGE_PUT, CHANGE_PUT_ELIDED]
  | delete key => simp [changeOf, CHANGE_DELETE, CHANGE_PUT, CHANGE_PUT_ELIDED]

/-- **Change records round trip.** -/
theorem decodeChangeRecord_encode {op : BatchOp} (h : op.key.length < 2 ^ 64) (inlineCap : ℕ) :
    decodeChangeRecord (encodeChangeRecord op inlineCap) =
      .ok ((changeOf op inlineCap).1, op.key, (changeOf op inlineCap).2) := by
  obtain ⟨hkind, hvalue, -⟩ := changeOf_spec op inlineCap
  have hval : (byte (changeOf op inlineCap).1).val = (changeOf op inlineCap).1 := by
    rw [val_byte]
    unfold CHANGE_PUT_ELIDED at hkind
    omega
  rw [encodeChangeRecord_eq, decodeChangeRecord, if_neg (by simp)]
  simp only [hval]
  rw [if_neg (by omega), putLenPrefixed, List.append_assoc, uvarintFrom_putUvarint h]
  simp only [Except.bind]
  rw [if_neg (by simp), List.take_left, List.drop_left, if_neg (by tauto)]

/-! ### Packing -/

/-- The packing loop over a queue: stop at the batch size or before the event
that would overflow the input; an event that overflows it alone is an error. -/
def packEvents (opts : Options) (frame : Bytes → Bytes → Except Error Bytes) :
    Bytes → List Bytes → List (Bytes × Bytes) → Except Error (Bytes × List Bytes)
  | input, consume, [] => .ok (input, consume)
  | input, consume, (k, v) :: rest =>
    if opts.triggerBatch ≤ consume.length then .ok (input, consume)
    else
      (frame k v).bind fun framed =>
        if opts.maxWasmInput < input.length + framed.length then
          if consume = [] then
            .error (.invalidArgument "pending trigger event exceeds max_wasm_input")
          else .ok (input, consume)
        else packEvents opts frame (input ++ framed) (consume ++ [k]) rest

/-- `queue_prefix`. -/
def queuePrefix (name : Bytes) : Bytes := sysTriggerEventKey name []

/-- A touched key as it is packed. -/
def frameTouched (d : TriggerDef) (k _v : Bytes) : Except Error Bytes :=
  .ok (putLenPrefixed (k.drop (queuePrefix d.name).length))

/-- A change as it is packed. -/
def frameChange (d : TriggerDef) (k v : Bytes) : Except Error Bytes :=
  let seq := k.drop (queuePrefix d.name).length
  if seq.length ≠ 8 then .error (.corruption "change event key is not a seqno")
  else
    (decodeChangeRecord v).map fun r =>
      putU64 (readLe seq.reverse) ++ (byte r.1 :: (putU32 r.2.1.length ++ r.2.1 ++
        if r.1 = CHANGE_PUT then putU32 r.2.2.length ++ r.2.2 else []))

/-- The input of a keys-mode drain, and the queue keys it consumes. -/
def packTouchedKeys (opts : Options) (d : TriggerDef) (queue : List (Bytes × Bytes)) :
    Except Error (Bytes × List Bytes) :=
  packEvents opts (frameTouched d) [] [] queue

/-- The input of a changes-mode drain, with the count in front. -/
def packChanges (opts : Options) (d : TriggerDef) (queue : List (Bytes × Bytes)) :
    Except Error (Bytes × List Bytes) :=
  (packEvents opts (frameChange d) (putU32 0) [] queue).map fun r =>
    (putU32 r.2.length ++ r.1.drop 4, r.2)

def pack (opts : Options) (d : TriggerDef) (queue : List (Bytes × Bytes)) :
    Except Error (Bytes × List Bytes) :=
  match d.mode with
  | .keys => packTouchedKeys opts d queue
  | .changes => packChanges opts d queue

/-- The packing loop takes a prefix of the queue within its limits. -/
theorem packEvents_spec {opts : Options} {frame : Bytes → Bytes → Except Error Bytes}
    {input out : Bytes} {consume consumed : List Bytes} {queue : List (Bytes × Bytes)}
    (h : packEvents opts frame input consume queue = .ok (out, consumed)) :
    ∃ n ≤ queue.length, consumed = consume ++ (queue.take n).map Prod.fst ∧
      (consume.length ≤ opts.triggerBatch → consumed.length ≤ opts.triggerBatch) ∧
      (0 < n → out.length ≤ opts.maxWasmInput) ∧
      ∃ frames, List.Forall₂ (fun e f => frame e.1 e.2 = .ok f) (queue.take n) frames ∧
        out = input ++ frames.flatten := by
  -- it stops here
  have hstop : ∀ {input : Bytes} {consume : List Bytes} {queue : List (Bytes × Bytes)},
      (.ok (input, consume) : Except Error (Bytes × List Bytes)) = .ok (out, consumed) →
      ∃ n ≤ queue.length, consumed = consume ++ (queue.take n).map Prod.fst ∧
        (consume.length ≤ opts.triggerBatch → consumed.length ≤ opts.triggerBatch) ∧
        (0 < n → out.length ≤ opts.maxWasmInput) ∧
        ∃ frames, List.Forall₂ (fun e f => frame e.1 e.2 = .ok f) (queue.take n) frames ∧
          out = input ++ frames.flatten := by
    intro input consume queue h
    obtain ⟨rfl, rfl⟩ := Prod.mk.inj (Except.ok.inj h)
    exact ⟨0, Nat.zero_le _, (List.append_nil _).symm, id, fun h0 => absurd h0 (lt_irrefl 0), [],
      List.Forall₂.nil, (List.append_nil _).symm⟩
  induction queue generalizing input consume with
  | nil => exact hstop h
  | cons e rest ih =>
    obtain ⟨k, v⟩ := e
    rw [packEvents] at h
    by_cases hbatch : opts.triggerBatch ≤ consume.length
    · rw [if_pos hbatch] at h
      exact hstop h
    · rw [if_neg hbatch] at h
      cases hframe : frame k v with
      | error err =>
        rw [hframe] at h
        exact absurd h (by simp [Except.bind])
      | ok framed =>
        rw [hframe] at h
        change (if opts.maxWasmInput < input.length + framed.length then
          if consume = [] then _ else _ else packEvents opts frame (input ++ framed)
            (consume ++ [k]) rest) = _ at h
        by_cases hlarge : opts.maxWasmInput < input.length + framed.length
        · rw [if_pos hlarge] at h
          by_cases hnil : consume = []
          · rw [if_pos hnil] at h
            exact absurd h (by simp)
          · rw [if_neg hnil] at h
            exact hstop h
        · rw [if_neg hlarge] at h
          obtain ⟨n, hn, hconsumed, hlimit, hsize, frames, hframes, hout⟩ := ih h
          refine ⟨n + 1, Nat.succ_le_succ hn, ?_, fun _ => hlimit ?_, fun _ => ?_, framed :: frames,
            List.Forall₂.cons hframe hframes, ?_⟩
          · rw [hconsumed, List.append_assoc]
            rfl
          · rw [List.length_append, List.length_singleton]
            omega
          · rcases Nat.eq_zero_or_pos n with rfl | hpos
            · -- it was the last
              cases hframes
              rw [hout, List.flatten_nil, List.append_nil, List.length_append]
              omega
            · exact hsize hpos
          · rw [hout, List.append_assoc]
            rfl

/-- What is consumed are the first keys of the queue. -/
theorem pack_takes {opts : Options} {d : TriggerDef} {queue : List (Bytes × Bytes)} {input : Bytes}
    {consume : List Bytes} (h : pack opts d queue = .ok (input, consume)) :
    ∃ n, consume = (queue.take n).map Prod.fst := by
  unfold pack at h
  cases hmode : d.mode with
  | keys =>
    rw [hmode] at h
    obtain ⟨n, -, hconsume, -⟩ := packEvents_spec h
    exact ⟨n, hconsume⟩
  | changes =>
    rw [hmode] at h
    obtain ⟨r, hr, heq⟩ := map_eq_ok.mp h
    obtain ⟨n, -, hconsume, -⟩ := packEvents_spec hr
    obtain ⟨-, rfl⟩ := Prod.mk.inj heq
    exact ⟨n, hconsume⟩

/-! ### Deliverability -/

/-- The values that capture inlines. -/
def inlineCapOf (opts : Options) : ℕ :=
  min opts.triggerInlineValue (opts.maxWasmInput - (opts.maxKeySize + 64))

/-- The event captured for an op that commits at `seq`. -/
def eventOf (opts : Options) (d : TriggerDef) (op : BatchOp) (seq : ℕ) : BatchOp :=
  match d.mode with
  | .keys => .put (sysTriggerEventKey d.name op.key) []
  | .changes => .put (sysTriggerChangeKey d.name seq) (encodeChangeRecord op (inlineCapOf opts))

/-- A batch captures one event for every op and trigger that match. -/
theorem mem_captureOps {opts : Options} {defs : List TriggerDef} {ops : List BatchOp} {base : ℕ}
    {ev : BatchOp} : ev ∈ captureOps defs ops base opts ↔
      ∃ p ∈ ops.zipIdx base, isSysKey p.1.key = false ∧ ∃ d ∈ defs, d.Matches p.1.key ∧
        ev = eventOf opts d p.1 p.2 := by
  unfold captureOps
  rw [List.mem_append, List.mem_map, List.mem_flatMap]
  constructor
  · rintro (⟨key, hkey, rfl⟩ | ⟨p, hp, hev⟩)
    · obtain ⟨op, hop, htouched⟩ := List.mem_flatMap.mp (mem_sortDedup.mp hkey)
      obtain ⟨hsys, d, hd, hmode, hmatch, rfl⟩ := mem_touchedKeys.mp htouched
      obtain ⟨i, hi⟩ := List.getElem?_of_mem hop
      refine ⟨(op, base + i), List.mk_mem_zipIdx_iff_le_and_getElem?_sub.mpr
        ⟨Nat.le_add_right _ _, ?_⟩, hsys, d, hd, hmatch, ?_⟩
      · rw [Nat.add_sub_cancel_left]
        exact hi
      · simp [eventOf, hmode]
    · unfold changeEvents at hev
      split at hev
      · exact absurd hev List.not_mem_nil
      · rename_i hsys
        obtain ⟨d, hd, rfl⟩ := List.mem_map.mp hev
        obtain ⟨hd, hcond⟩ := List.mem_filter.mp hd
        rw [Bool.and_eq_true, decide_eq_true_eq, decide_eq_true_eq] at hcond
        refine ⟨p, hp, by simpa using hsys, d, hd, hcond.1, ?_⟩
        simp [eventOf, hcond.2, inlineCapOf]
  · rintro ⟨p, hp, hsys, d, hd, hmatch, rfl⟩
    cases hmode : d.mode with
    | keys =>
      refine Or.inl ⟨sysTriggerEventKey d.name p.1.key,
        mem_sortDedup.mpr ?_, by simp [eventOf, hmode]⟩
      exact List.mem_flatMap.mpr ⟨p.1, List.fst_mem_of_mem_zipIdx hp,
        mem_touchedKeys.mpr ⟨hsys, d, hd, hmode, hmatch, rfl⟩⟩
    | changes =>
      refine Or.inr ⟨p, hp, ?_⟩
      unfold changeEvents
      rw [if_neg (by simp [hsys])]
      refine List.mem_map.mpr ⟨d, List.mem_filter.mpr ⟨hd, by simp [hmode, hmatch]⟩, ?_⟩
      simp [eventOf, hmode, inlineCapOf]

/-- A drain of the queue up to the guest: a batch is packed, and a transaction deletes its
events. -/
def startDrain (opts : Options) (d : TriggerDef) (queue : List (Bytes × Bytes)) (snap : ℕ) :
    Except Error (Bytes × List Bytes × Txn) :=
  (pack opts d queue).bind fun r =>
    (Txn.consume opts r.2 { Txn.new snap with system := true }).map fun t => (r.1, r.2, t)

/-- A drain takes the first events of the queue along, in an admitted input. -/
def Drains (opts : Options) (d : TriggerDef) (queue : List (Bytes × Bytes)) : Prop :=
  ∃ input n, 0 < n ∧ n ≤ queue.length ∧ input.length ≤ opts.maxWasmInput ∧
    ∀ snap, ∃ t, startDrain opts d queue snap = .ok (input, (queue.take n).map Prod.fst, t)

/-- The bytes that the event of an op takes in the input of a drain. -/
def frameLen (opts : Options) (d : TriggerDef) (op : BatchOp) : ℕ :=
  match d.mode with
  | .keys => (putUvarint op.key.length).length + op.key.length
  | .changes =>
    let r := changeOf op (inlineCapOf opts)
    13 + op.key.length + if r.1 = CHANGE_PUT then 4 + r.2.length else 0

theorem drop_queuePrefix (name rest : Bytes) :
    (QUEUE_PREFIX ++ (name ++ byte 0 :: rest)).drop (queuePrefix name).length = rest := by
  have hlen : queuePrefix name = QUEUE_PREFIX ++ (name ++ [byte 0]) := rfl
  have hsplit : QUEUE_PREFIX ++ (name ++ byte 0 :: rest) = QUEUE_PREFIX ++
      (name ++ [byte 0]) ++ rest := by
    simp
  rw [hlen, hsplit, List.drop_left]

section Batch

variable {opts : Options} {d : TriggerDef} {cs : List (BatchOp × ℕ)}

end Batch

theorem exists_userKey {n : ℕ} (hn : 0 < n) : ∃ key, ValidUserKey key ∧ key.length = n := by
  obtain ⟨m, rfl⟩ := Nat.exists_eq_succ_of_ne_zero (Nat.pos_iff_ne_zero.mp hn)
  refine ⟨byte 107 :: List.replicate m (byte 107),
    ⟨List.cons_ne_nil _ _, by simp [SYS_PREFIX, byte]⟩, ?_⟩
  rw [List.length_cons, List.length_replicate]

end Fluent31
