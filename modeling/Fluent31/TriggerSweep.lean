/-
The trigger queue keyspace and the sweep over it (`trigger.rs`, `types.rs`).

Every trigger queues its events under its own prefix of the reserved keyspace.
One pass of the runner finds the names with a backlog by seeking: it serves the
name of the first key it meets and goes on behind that name's whole range, and
behind a key it cannot parse.  To serve a name is to drain its trigger, to clear
its queue when the trigger is gone, or to leave it while it is in back-off; the
pass keeps a list of these visits, which no step reads.

* `between_queuePrefix_iff` — the range of a name holds its event keys;
* `parseEventKey_eq_some` — what parses, and into what;
* `Sweep.turn_spec` — what one turn of the pass does;
* `Sweep.Behind` — what a pass has done lies behind its cursor;
* `runnerPass_swept` — a pass that nothing breaks off ends at the end of the
  queue space;
* `trigger_sweep` — the ranges are apart, and a pass ends after it has served
  every name with a backlog once.

What a drain or a clean-up does to the store, and what other threads commit
meanwhile, shows in the store the next turn meets; the failure streaks of the
registry show in `inBackoff`.
-/
import Fluent31.Lib.Lex
import Fluent31.Lib.MapM
import Fluent31.Proto
import Fluent31.TriggerQueue
import Mathlib.Data.Set.Finite.List
import Mathlib.Data.Set.Card

namespace Fluent31

open Lists
open Checks (map_eq_ok map_of_mapM_ok)

/-! ### Ranges -/

/-- `queue_space_end`. -/
def queueSpaceEnd : Bytes := QUEUE_PREFIX.dropLast ++ [byte 1]

/-- `queue_prefix_end`. -/
def queuePrefixEnd (name : Bytes) : Bytes := (queuePrefix name).dropLast ++ [byte 1]

/-- `parse_event_key`: split a queue key into trigger name and the rest. -/
def parseEventKey (key : Bytes) : Option (Bytes × Bytes) :=
  if QUEUE_PREFIX <+: key then
    let rest := key.drop QUEUE_PREFIX.length
    (rest.findIdx? fun b => decide (b = byte 0)).bind fun sep =>
      if isUtf8 (rest.take sep) then some (rest.take sep, rest.drop (sep + 1)) else none
  else none

theorem byte_zero_covBy : byte 0 ⋖ byte 1 := by
  refine ⟨by decide, fun b h0 h1 => ?_⟩
  have h0' : 0 < b.val := h0
  have h1' : b.val < 1 := h1
  omega

theorem queuePrefix_eq (name : Bytes) : queuePrefix name = (QUEUE_PREFIX ++ name) ++ [byte 0] :=
  (List.append_assoc _ _ _).symm

theorem queuePrefixEnd_eq (name : Bytes) :
    queuePrefixEnd name = (QUEUE_PREFIX ++ name) ++ [byte 1] := by
  rw [queuePrefixEnd, queuePrefix_eq, List.dropLast_concat]

theorem queuePrefix_isPrefix_iff {name key : Bytes} :
    queuePrefix name <+: key ↔ ∃ ukey, key = sysTriggerEventKey name ukey := by
  have happend : ∀ ukey, queuePrefix name ++ ukey = sysTriggerEventKey name ukey := by
    intro ukey
    simp [queuePrefix, sysTriggerEventKey]
  constructor
  · rintro ⟨ukey, rfl⟩
    exact ⟨ukey, happend ukey⟩
  · rintro ⟨ukey, rfl⟩
    exact ⟨ukey, happend ukey⟩

/-- **The range of a name** holds its event keys, and nothing else. -/
theorem between_queuePrefix_iff {name key : Bytes} :
    queuePrefix name ≤ key ∧ key < queuePrefixEnd name ↔
      ∃ ukey, key = sysTriggerEventKey name ukey := by
  rw [← queuePrefix_isPrefix_iff, queuePrefix_eq, queuePrefixEnd_eq]
  exact between_iff byte_zero_covBy _ _

theorem eventKey_between (name ukey : Bytes) :
    queuePrefix name ≤ sysTriggerEventKey name ukey ∧
      sysTriggerEventKey name ukey < queuePrefixEnd name :=
  between_queuePrefix_iff.mpr ⟨ukey, rfl⟩

/-- The queue space holds the keys under the shared prefix. -/
theorem between_queueSpace_iff {key : Bytes} :
    QUEUE_PREFIX ≤ key ∧ key < queueSpaceEnd ↔ QUEUE_PREFIX <+: key :=
  between_iff byte_zero_covBy [byte 0, byte 116, byte 114, byte 103, byte 113] key

/-- What parses is the event key of a name without a zero byte. -/
theorem parseEventKey_eq_some {key name ukey : Bytes} : parseEventKey key = some (name, ukey) ↔
    key = sysTriggerEventKey name ukey ∧ byte 0 ∉ name ∧ isUtf8 name = true := by
  unfold parseEventKey
  constructor
  · intro h
    by_cases hpre : QUEUE_PREFIX <+: key
    · obtain ⟨rest, rfl⟩ := hpre
      rw [if_pos (List.prefix_append _ _), List.drop_left] at h
      obtain ⟨sep, hsep, h⟩ := Option.bind_eq_some_iff.mp h
      by_cases hutf8 : isUtf8 (rest.take sep) = true
      · rw [if_pos hutf8] at h
        obtain ⟨rfl, rfl⟩ := Prod.mk.inj (Option.some.inj h)
        obtain ⟨hlt, hzero, hbefore⟩ := List.findIdx?_eq_some_iff_getElem.mp hsep
        have hsplit : rest = rest.take sep ++ byte 0 :: rest.drop (sep + 1) := by
          conv_lhs => rw [← List.take_append_drop sep rest, List.drop_eq_getElem_cons hlt,
            of_decide_eq_true hzero]
        refine ⟨congrArg (QUEUE_PREFIX ++ ·) hsplit, fun hmem => ?_, hutf8⟩
        -- the separator is the first zero byte
        obtain ⟨j, hj, hget⟩ := List.mem_iff_getElem.mp hmem
        rw [List.length_take] at hj
        rw [List.getElem_take] at hget
        exact hbefore j (by omega) (decide_eq_true hget)
      · rw [if_neg hutf8] at h
        exact absurd h (Option.some_ne_none _).symm
    · rw [if_neg hpre] at h
      exact absurd h (Option.some_ne_none _).symm
  · rintro ⟨rfl, hname, hutf8⟩
    have hnone : name.findIdx? (fun b => decide (b = byte 0)) = none := by
      rw [List.findIdx?_eq_none_iff]
      intro b hb
      exact decide_eq_false fun heq => hname (heq ▸ hb)
    have hsep : (name ++ byte 0 :: ukey).findIdx? (fun b => decide (b = byte 0)) =
        some name.length := by
      rw [List.findIdx?_append, hnone, List.findIdx?_cons]
      simp
    have hdrop : (name ++ byte 0 :: ukey).drop (name.length + 1) = ukey := by
      rw [← List.drop_drop, List.drop_left]
      rfl
    rw [if_pos (queuePrefix_eventKey name ukey), sysTriggerEventKey, List.drop_left]
    show ((name ++ byte 0 :: ukey).findIdx? _).bind _ = _
    rw [hsep]
    show (if isUtf8 ((name ++ byte 0 :: ukey).take name.length) then _ else none) = _
    rw [List.take_left, if_pos hutf8, hdrop]

theorem ValidTriggerName.isUtf8 {name : Bytes} (h : ValidTriggerName name) :
    isUtf8 name = true := by
  refine isUtf8_of_ascii fun b hb => ?_
  have hrange := h.2.2 b hb
  omega

/-- Big-endian numbers are ordered as bytes. -/
theorem putBe_lt {n v w : ℕ} (hw : w < 256 ^ n) (h : v < w) : putBe n v < putBe n w := by
  induction n generalizing v w with
  | zero => omega
  | succ n ih =>
    have hsnoc : ∀ v, putBe (n + 1) v = putBe n (v / 256) ++ [byte v] := fun v => List.reverse_cons
    rw [hsnoc, hsnoc]
    have hdiv : w / 256 < 256 ^ n := Nat.div_lt_of_lt_mul (by rwa [pow_succ, Nat.mul_comm] at hw)
    rcases Nat.lt_or_ge (v / 256) (w / 256) with hlt | hge
    · exact append_lt_append (ih hdiv hlt) (by rw [length_putBe, length_putBe]) _ _
    · -- the high bytes are the same
      have hhigh : v / 256 = w / 256 := le_antisymm (Nat.div_le_div_right (le_of_lt h)) hge
      rw [hhigh]
      refine List.append_left_lt (List.cons_lt_cons_iff.mpr (Or.inl ?_))
      show (byte v).val < (byte w).val
      rw [val_byte, val_byte]
      omega

/-- Changes-mode keys sort by seqno. -/
theorem sysTriggerChangeKey_lt_iff {name : Bytes} {v w : ℕ} (hv : v < 2 ^ 64) (hw : w < 2 ^ 64) :
    sysTriggerChangeKey name v < sysTriggerChangeKey name w ↔ v < w := by
  have hmono : ∀ {v w : ℕ}, w < 2 ^ 64 → v < w → sysTriggerChangeKey name v <
      sysTriggerChangeKey name w := by
    intro v w hw h
    have hbe : putBe 8 v < putBe 8 w := putBe_lt (by omega) h
    exact List.append_left_lt (List.append_left_lt (List.cons_lt_cons_iff.mpr (Or.inr ⟨rfl, hbe⟩)))
  refine ⟨fun h => ?_, hmono hw⟩
  rcases Nat.lt_trichotomy v w with hlt | rfl | hgt
  · exact hlt
  · exact absurd h (lt_irrefl _)
  · exact absurd h (lt_asymm (hmono hv hgt))

/-! ### The pass -/

/-- What the pass calls on the engine. -/
inductive Call
  /-- `execute_system`: the module runs on the input, in a transaction that
  deletes the queue keys. -/
  | execute (d : TriggerDef) (input : Bytes) (consume : List Bytes)
  /-- `write_batch_unchecked`. -/
  | write (batch : List BatchOp)
  deriving DecidableEq

/-- The queue keys that a call deletes. -/
def Call.keys : Call → List Bytes
  | execute _ _ consume => consume
  | write batch => batch.map BatchOp.key

/-- A drain or a clean-up: what it called, and how it ended. -/
structure Served where
  call : Option Call
  result : Except Error Bool

/-- What the pass does about a name it meets. -/
inductive Visit
  /-- The trigger is gone, and its queue was cleared. -/
  | cleared (r : Served)
  | backedOff (d : TriggerDef)
  | drained (d : TriggerDef) (r : Served)

def Visit.served? : Visit → Option Served
  | cleared r | drained _ r => some r
  | backedOff _ => none

/-- The queue of a trigger, as a scan yields it. -/
def Db.queueOf (db : Db) (name : Bytes) : Except Error (List (Bytes × Bytes)) :=
  (db.liveKeys (queuePrefix name)).mapM fun k => (db.getAtSeq k db.visibleSeqno).map fun v =>
    (k, v.getD [])

/-- The first key of a scan from `cursor` to the end of the queue space. -/
def Db.firstQueued (db : Db) (cursor : Bytes) : Option Bytes :=
  (db.liveKeys []).find? fun key => decide (cursor ≤ key ∧ key < queueSpaceEnd)

/-- What one turn of the pass meets. -/
structure Turn where
  shutdown : Bool
  /-- The store the scan reads, and the error it fails with. -/
  db : Db
  trouble : Option Error
  /-- The registry. -/
  defs : List TriggerDef
  inBackoff : Bytes → Bool
  /-- The store a drain or a clean-up reads, after the scan. -/
  queues : Db
  /-- How a call ends. -/
  answer : Call → Except Error Unit

namespace Turn

variable (opts : Options) (t : Turn)

/-- The call is made, and something was done if it goes well. -/
def served (call : Call) : Served := ⟨some call, (t.answer call).map fun _ => true⟩

/-- `clear_queue_chunk`: one batch deletes up to 512 events. -/
def clearQueueChunk (name : Bytes) : Served :=
  let keys := (t.queues.liveKeys (queuePrefix name)).take 512
  match keys.mapM fun k => (t.queues.getAtSeq k t.queues.visibleSeqno).map fun _ =>
    BatchOp.delete k with
  | .error err => ⟨none, .error err⟩
  | .ok b => if b = [] then ⟨none, .ok false⟩ else t.served (.write b)

/-- `drain_one`: one batch of the queue is packed, and the module run on it. -/
def drainOne (d : TriggerDef) : Served :=
  match (t.queues.queueOf d.name).bind (pack opts d) with
  | .error err => ⟨none, .error err⟩
  | .ok (input, consume) =>
    if consume = [] then ⟨none, .ok false⟩ else t.served (.execute d input consume)

end Turn

/-- Why a pass returns. -/
inductive PassEnd
  | shutdown
  | trouble
  /-- The end of the queue space. -/
  | swept
  | closed
  deriving DecidableEq

structure Sweep where
  cursor : Bytes
  did : Bool
  returned : Option PassEnd
  /-- What the pass has done so far, and for which name. -/
  visits : List (Bytes × Visit)

namespace Sweep

variable (opts : Options)

/-- The names served so far. -/
def visited (s : Sweep) : List Bytes := s.visits.map Prod.fst

/-- Serve the trigger of that name, or clear its queue when it is gone. -/
def serve (t : Turn) (name : Bytes) (s : Sweep) : Sweep :=
  let s := { s with cursor := queuePrefixEnd name }
  match t.defs.find? fun d => decide (d.name = name) with
  | none =>
    let r := t.clearQueueChunk name
    let s := { s with visits := s.visits ++ [(name, .cleared r)] }
    match r.result with
    | .ok true => { s with did := true }
    | _ => s
  | some d =>
    if t.inBackoff name then { s with visits := s.visits ++ [(name, .backedOff d)] }
    else
      let r := t.drainOne opts d
      let s := { s with visits := s.visits ++ [(name, .drained d r)] }
      match r.result with
      | .ok true => { s with did := true }
      | .ok false => s
      | .error .closed => { s with returned := some .closed }
      | .error _ => s

/-- One turn of the loop. -/
def turn (t : Turn) (s : Sweep) : Sweep :=
  if t.shutdown then { s with returned := some .shutdown }
  else match t.trouble with
    | some _ => { s with returned := some .trouble }
    | none =>
      match t.db.firstQueued s.cursor with
      | none => { s with returned := some .swept }
      | some key =>
        match parseEventKey key with
        -- never written by the engine: step past it
        | none => { s with cursor := key ++ [byte 0] }
        | some (name, _) => s.serve opts t name

end Sweep

/-- `runner_pass` after so many turns. -/
def runnerPass (opts : Options) (turns : ℕ → Turn) : ℕ → Sweep
  | 0 => ⟨QUEUE_PREFIX, false, none, []⟩
  | n + 1 =>
    let s := runnerPass opts turns n
    if s.returned.isSome then s else s.turn opts (turns n)

/-! ### One turn -/

theorem mem_liveKeys_nil_of_firstQueued {db : Db} {cursor key : Bytes}
    (h : db.firstQueued cursor = some key) :
    key ∈ db.liveKeys [] ∧ cursor ≤ key ∧ key < queueSpaceEnd ∧
      ∀ k ∈ db.liveKeys [], cursor ≤ k → k < queueSpaceEnd → key ≤ k := by
  have hsorted : (db.liveKeys []).Pairwise fun a b => a < b := by
    have hall : ((db.stored.map Entry.ukey).filter fun k => decide ([] <+: k)) =
        db.stored.map Entry.ukey :=
      List.filter_eq_self.mpr fun k _ => decide_eq_true List.nil_prefix
    unfold Db.liveKeys
    rw [hall]
    exact List.Pairwise.filter _ (sortedBy_sortDedup _)
  unfold Db.firstQueued at h
  obtain ⟨hrange, pre, post, hsplit, hbefore⟩ := List.find?_eq_some_iff_append.mp h
  obtain ⟨hle, hlt⟩ := of_decide_eq_true hrange
  refine ⟨List.mem_of_find?_eq_some h, hle, hlt, fun k hk hck hke => ?_⟩
  rw [hsplit] at hk hsorted
  rcases List.mem_append.mp hk with hk | hk
  · -- a key before it does not lie in the range
    have hnot := hbefore k hk
    rw [decide_eq_true (show cursor ≤ k ∧ k < queueSpaceEnd from ⟨hck, hke⟩)] at hnot
    exact absurd hnot (by decide)
  · rcases List.mem_cons.mp hk with rfl | hk
    · exact le_rfl
    · exact le_of_lt ((List.pairwise_cons.mp (List.pairwise_append.mp hsorted).2.1).1 k hk)

theorem notMem_of_firstQueued_none {db : Db} {cursor : Bytes} (h : db.firstQueued cursor = none)
    {key : Bytes} (hkey : key ∈ db.liveKeys []) (hle : cursor ≤ key) : ¬ key < queueSpaceEnd := by
  intro hlt
  exact List.find?_eq_none.mp h key hkey (decide_eq_true ⟨hle, hlt⟩)

/-- The drain or the clean-up deleted something. -/
def Visit.Worked (v : Visit) : Prop := ∃ r, v.served? = some r ∧ r.result = .ok true

/-- The drain found the engine closed. -/
def Visit.Closed (v : Visit) : Prop := ∃ d r, v = .drained d r ∧ r.result = .error .closed

namespace Turn

variable (opts : Options) (t : Turn)

/-- The turn serves the name so: the registry says whether its queue is drained
or cleared. -/
def Serves (name : Bytes) : Visit → Prop
  | .cleared r => (∀ d ∈ t.defs, d.name ≠ name) ∧ r = t.clearQueueChunk name
  | .backedOff d => d ∈ t.defs ∧ d.name = name ∧ t.inBackoff name = true
  | .drained d r => d ∈ t.defs ∧ d.name = name ∧ t.inBackoff name = false ∧ r = t.drainOne opts d

/-- The turn meets an event of the name, and serves it so. -/
def Meets (s : Sweep) (p : Bytes × Visit) : Prop :=
  (∃ ukey, t.db.firstQueued s.cursor = some (sysTriggerEventKey p.1 ukey)) ∧ t.Serves opts p.1 p.2

/-- Nothing breaks the pass off in this turn. -/
def Quiet : Prop :=
  t.shutdown = false ∧ t.trouble = none ∧ ∀ d ∈ t.defs, (t.drainOne opts d).result ≠ .error .closed

/-- What a return of the pass in this turn says. -/
def Ends (s : Sweep) : PassEnd → Prop
  | .shutdown => t.shutdown = true
  | .trouble => t.trouble ≠ none
  | .swept => t.db.firstQueued s.cursor = none
  | .closed => ∃ d ∈ t.defs, (t.drainOne opts d).result = .error .closed

variable {opts t}

theorem Quiet.swept (h : t.Quiet opts) {s : Sweep} {r : PassEnd} (hr : t.Ends opts s r) :
    r = .swept := by
  obtain ⟨hdown, htrouble, hopen⟩ := h
  cases r with
  | shutdown => exact absurd (hr.symm.trans hdown) (by decide)
  | trouble => exact absurd htrouble hr
  | swept => rfl
  | closed =>
    obtain ⟨d, hd, hclosed⟩ := hr
    exact absurd hclosed (hopen d hd)

theorem served_keys {call c : Call} {k : Bytes} (hcall : (t.served call).call = some c)
    (hk : k ∈ c.keys) :
    k ∈ call.keys := by
  obtain rfl : call = c := Option.some.inj hcall
  exact hk

/-- A clean-up deletes keys of the queue. -/
theorem clearQueueChunk_keys {name k : Bytes} {c : Call}
    (hcall : (t.clearQueueChunk name).call = some c)
    (hk : k ∈ c.keys) : k ∈ t.queues.liveKeys (queuePrefix name) := by
  unfold clearQueueChunk at hcall
  dsimp only at hcall
  split at hcall
  · exact absurd hcall (Option.some_ne_none _).symm
  rename_i b hb
  split at hcall
  · exact absurd hcall (Option.some_ne_none _).symm
  · have hkeys : b.map BatchOp.key = (t.queues.liveKeys (queuePrefix name)).take 512 :=
      map_of_mapM_ok hb fun x y hy => by
        obtain ⟨v, -, rfl⟩ := map_eq_ok.mp hy
        rfl
    have hmem : k ∈ b.map BatchOp.key := served_keys hcall hk
    exact List.mem_of_mem_take (hkeys ▸ hmem)

/-- So does a drain. -/
theorem drainOne_keys {d : TriggerDef} {k : Bytes} {c : Call}
    (hcall : (t.drainOne opts d).call = some c)
    (hk : k ∈ c.keys) : k ∈ t.queues.liveKeys (queuePrefix d.name) := by
  unfold drainOne at hcall
  split at hcall
  · exact absurd hcall (Option.some_ne_none _).symm
  rename_i input consume hpack
  split at hcall
  · exact absurd hcall (Option.some_ne_none _).symm
  · cases hqueue : t.queues.queueOf d.name with
    | error err =>
      rw [hqueue] at hpack
      exact absurd hpack (by simp [Except.bind])
    | ok queue =>
      rw [hqueue] at hpack
      obtain ⟨n, rfl⟩ := pack_takes hpack
      have hkeys : queue.map Prod.fst = t.queues.liveKeys (queuePrefix d.name) :=
        map_of_mapM_ok hqueue fun x y hy => by
          obtain ⟨v, -, rfl⟩ := map_eq_ok.mp hy
          rfl
      have hmem : k ∈ (queue.take n).map Prod.fst := served_keys hcall hk
      rw [← hkeys]
      exact List.map_subset _ (List.take_subset n queue) hmem

/-- A scan under a prefix yields keys under it. -/
theorem prefix_of_mem_liveKeys {db : Db} {pre k : Bytes} (h : k ∈ db.liveKeys pre) : pre <+: k := by
  have hmem := mem_sortDedup.mp (List.mem_of_mem_filter h)
  exact of_decide_eq_true (List.mem_filter.mp hmem).2

/-- **What a visit deletes** are events of the name it serves. -/
theorem Serves.keys {name : Bytes} {v : Visit} (h : t.Serves opts name v) {r : Served}
    (hr : v.served? = some r) {c : Call} (hcall : r.call = some c) {k : Bytes} (hk : k ∈ c.keys) :
    ∃ ukey, k = sysTriggerEventKey name ukey := by
  have hlive : k ∈ t.queues.liveKeys (queuePrefix name) := by
    cases v with
    | cleared r' =>
      obtain ⟨-, rfl⟩ := h
      obtain rfl := Option.some.inj hr
      exact clearQueueChunk_keys hcall hk
    | backedOff d => exact absurd hr (Option.some_ne_none _).symm
    | drained d r' =>
      obtain ⟨-, rfl, -, rfl⟩ := h
      obtain rfl := Option.some.inj hr
      exact drainOne_keys hcall hk
  exact queuePrefix_isPrefix_iff.mp (prefix_of_mem_liveKeys hlive)

end Turn

/-- What one turn can do to a pass. -/
inductive Sweep.Turned (opts : Options) (t : Turn) (s : Sweep) : Sweep → Prop
  | stop (r : PassEnd) (hends : t.Ends opts s r) : Turned opts t s { s with returned := some r }
  | skip (key : Bytes) (hfirst : t.db.firstQueued s.cursor = some key)
    (hparse : parseEventKey key = none) :
    Turned opts t s { s with cursor := key ++ [byte 0] }
  | serve (name ukey : Bytes) (v : Visit) (did : Bool) (returned : Option PassEnd)
    (hparse : parseEventKey (sysTriggerEventKey name ukey) = some (name, ukey))
    (hfirst : t.db.firstQueued s.cursor = some (sysTriggerEventKey name ukey))
    (hserves : t.Serves opts name v)
    (hdid : did = true ↔ s.did = true ∨ v.Worked)
    (hreturned : returned = none ∧ ¬ v.Closed ∨ returned = some .closed ∧ v.Closed) :
    Turned opts t s ⟨queuePrefixEnd name, did, returned, s.visits ++ [(name, v)]⟩

variable {opts : Options}

/-- A visit that ended so. -/
theorem Sweep.serve_ended {v : Visit} {r : Served} (hv : v.served? = some r) (did : Bool) :
    (r.result = .ok true → (true = true ↔ did = true ∨ v.Worked)) ∧
      (r.result ≠ .ok true → (did = true ↔ did = true ∨ v.Worked)) := by
  refine ⟨fun h => ⟨fun _ => Or.inr ⟨r, hv, h⟩, fun _ => rfl⟩, fun h => ⟨Or.inl, fun hor => ?_⟩⟩
  rcases hor with hdid | ⟨r', hr', hworked⟩
  · exact hdid
  · obtain rfl : r = r' := Option.some.inj (hv.symm.trans hr')
    exact absurd hworked h

theorem Sweep.serve_spec (t : Turn) {name ukey : Bytes} {s : Sweep} (h : s.returned = none)
    (hparse : parseEventKey (sysTriggerEventKey name ukey) = some (name, ukey))
    (hfirst : t.db.firstQueued s.cursor = some (sysTriggerEventKey name ukey)) :
    s.Turned opts t (s.serve opts t name) := by
  unfold serve
  dsimp only
  split
  next hfind =>
    -- no trigger of the name: its queue is cleared
    have hgone : ∀ d ∈ t.defs, d.name ≠ name := fun d hd heq =>
      List.find?_eq_none.mp hfind d hd (decide_eq_true heq)
    have hopen : ¬ (Visit.cleared (t.clearQueueChunk name)).Closed :=
      fun ⟨_, _, heq, _⟩ => by cases heq
    obtain ⟨hworked, hidle⟩ := serve_ended (v := .cleared (t.clearQueueChunk name)) rfl s.did
    split
    next hr =>
      exact .serve name ukey _ _ _ hparse hfirst ⟨hgone, rfl⟩ (hworked hr) (.inl ⟨h, hopen⟩)
    next hr => exact .serve name ukey _ _ _ hparse hfirst ⟨hgone, rfl⟩ (hidle hr) (.inl ⟨h, hopen⟩)
  next d hfind =>
    have hd : d ∈ t.defs ∧ d.name = name :=
      ⟨List.mem_of_find?_eq_some hfind, by simpa using List.find?_some hfind⟩
    split
    next hback =>
      refine .serve name ukey (.backedOff d) _ _ hparse hfirst ⟨hd.1, hd.2, hback⟩ ⟨Or.inl, ?_⟩
        (.inl ⟨h, fun ⟨_, _, heq, _⟩ => by cases heq⟩)
      rintro (hdid | ⟨_, hr, _⟩)
      · exact hdid
      · exact absurd hr (Option.some_ne_none _).symm
    next hback =>
      -- the trigger is drained; the pass goes on unless the store is closed
      have hserves : t.Serves opts name (.drained d (t.drainOne opts d)) :=
        ⟨hd.1, hd.2, Bool.eq_false_iff.mpr hback, rfl⟩
      obtain ⟨hworked, hidle⟩ := serve_ended (v := .drained d (t.drainOne opts d)) rfl s.did
      have hopen : (t.drainOne opts d).result ≠ .error .closed →
          ¬ (Visit.drained d (t.drainOne opts d)).Closed :=
        fun hne ⟨_, _, heq, hr⟩ => by cases heq; exact hne hr
      split
      next hr =>
        exact .serve name ukey _ _ _ hparse hfirst hserves (hworked hr)
          (.inl ⟨h, hopen (by rw [hr]; simp)⟩)
      next hr =>
        exact .serve name ukey _ _ _ hparse hfirst hserves (hidle (by rw [hr]; simp))
          (.inl ⟨h, hopen (by rw [hr]; simp)⟩)
      next hr =>
        exact .serve name ukey _ _ _ hparse hfirst hserves (hidle (by rw [hr]; simp))
          (.inr ⟨rfl, d, _, rfl, hr⟩)
      next err hne hr =>
        exact .serve name ukey _ _ _ hparse hfirst hserves (hidle (by rw [hr]; simp))
          (.inl ⟨h, hopen (by rw [hr]; exact fun heq => hne (Except.error.inj heq))⟩)

/-- **One turn** returns where it is, or meets the first key from the cursor on
and goes on behind it, or behind the whole range of the name it serves. -/
theorem Sweep.turn_spec (opts : Options) (t : Turn) {s : Sweep} (h : s.returned = none) :
    s.Turned opts t (s.turn opts t) := by
  unfold turn
  split
  next hdown => exact .stop .shutdown hdown
  split
  next err htrouble =>
    exact .stop .trouble (by rw [Turn.Ends, htrouble]; exact Option.some_ne_none _)
  split
  next hfirst => exact .stop .swept hfirst
  next key hfirst =>
    split
    next hparse => exact .skip key hfirst hparse
    next name ukey hparse =>
      obtain ⟨rfl, -⟩ := parseEventKey_eq_some.mp hparse
      exact serve_spec t h hparse hfirst

/-! ### Every pass -/

variable {turns : ℕ → Turn}

theorem runnerPass_succ {i : ℕ} (h : (runnerPass opts turns i).returned = none) :
    (runnerPass opts turns i).Turned opts (turns i) (runnerPass opts turns (i + 1)) := by
  rw [runnerPass, h]
  exact Sweep.turn_spec opts (turns i) h

/-- A pass that has returned stays as it is. -/
theorem runnerPass_returned {i : ℕ} (h : (runnerPass opts turns i).returned.isSome = true) :
    runnerPass opts turns (i + 1) = runnerPass opts turns i := by
  rw [runnerPass, if_pos h]

/-- Where a turn that met `key` goes on. -/
def nextCursor (key : Bytes) : Bytes :=
  match parseEventKey key with
  | some (name, _) => queuePrefixEnd name
  | none => key ++ [byte 0]

/-- What a pass has done lies behind its cursor: it met every name it served
queued, served it as that turn says, and served it once. -/
structure Sweep.Behind (opts : Options) (turns : ℕ → Turn) (i : ℕ) (s : Sweep) : Prop where
  start : QUEUE_PREFIX ≤ s.cursor
  passed : ∀ name ∈ s.visited, queuePrefixEnd name ≤ s.cursor
  met : ∀ p ∈ s.visits, ∃ j < i, (turns j).Meets opts (runnerPass opts turns j) p
  once : s.visited.Nodup
  worked : s.did = true ↔ ∃ p ∈ s.visits, p.2.Worked

theorem Sweep.Behind.mono {i j : ℕ} {s : Sweep} (h : s.Behind opts turns i) (hij : i ≤ j) :
    s.Behind opts turns j :=
  { h with met := fun p hp =>
      let ⟨k, hk, hmeets⟩ := h.met p hp
      ⟨k, lt_of_lt_of_le hk hij, hmeets⟩ }

/-- The cursor of a turn moves on. -/
theorem Sweep.Turned.cursor_le {t : Turn} {s s' : Sweep} (h : s.Turned opts t s') :
    s.cursor ≤ s'.cursor := by
  cases h with
  | stop r hends => exact le_rfl
  | skip key hfirst hparse =>
    obtain ⟨-, hle, -, -⟩ := mem_liveKeys_nil_of_firstQueued hfirst
    exact le_of_lt (lt_of_le_of_lt hle (lt_snoc key (byte 0)))
  | serve name ukey v did returned hparse hfirst hserves hdid hreturned =>
    obtain ⟨-, hle, -, -⟩ := mem_liveKeys_nil_of_firstQueued hfirst
    exact le_of_lt (lt_of_le_of_lt hle (eventKey_between name ukey).2)

theorem Sweep.Behind.turn {i : ℕ} {s' : Sweep} (h : (runnerPass opts turns i).Behind opts turns i)
    (ht : (runnerPass opts turns i).Turned opts (turns i) s') : s'.Behind opts turns (i + 1) := by
  have hmono := h.mono (Nat.le_succ i)
  have hstart := le_trans h.start ht.cursor_le
  have hpassed := fun name hname => le_trans (h.passed name hname) ht.cursor_le
  cases ht with
  | stop r hends => exact ⟨hstart, hpassed, hmono.met, h.once, h.worked⟩
  | skip key hfirst hparse => exact ⟨hstart, hpassed, hmono.met, h.once, h.worked⟩
  | serve name ukey v did returned hparse hfirst hserves hdid hreturned =>
    refine ⟨hstart, fun name' hname' => ?_, fun p hp => ?_, ?_, ?_⟩
    · rw [Sweep.visited, List.map_append] at hname'
      rcases List.mem_append.mp hname' with hname' | hname'
      · exact hpassed name' hname'
      · obtain rfl := List.mem_singleton.mp hname'
        exact le_rfl
    · rcases List.mem_append.mp hp with hp | hp
      · exact hmono.met p hp
      · obtain rfl := List.mem_singleton.mp hp
        exact ⟨i, Nat.lt_succ_self i, ⟨ukey, hfirst⟩, hserves⟩
    · -- its key lies in the range of the name, and the ranges served before behind the cursor
      have hnew : name ∉ (runnerPass opts turns i).visited := fun hmem => by
        obtain ⟨-, hle, -, -⟩ := mem_liveKeys_nil_of_firstQueued hfirst
        have hrange := (eventKey_between name ukey).2
        exact absurd hrange (not_lt.mpr (le_trans (h.passed name hmem) hle))
      rw [Sweep.visited, List.map_append]
      refine List.nodup_append.mpr ⟨h.once, List.nodup_singleton name, fun a ha b hb heq => ?_⟩
      obtain rfl : b = name := List.mem_singleton.mp hb
      exact hnew (heq ▸ ha)
    · rw [hdid, h.worked]
      simp only [List.mem_append, List.mem_singleton, or_and_right, exists_or, exists_eq_left]

theorem runnerPass_behind (opts : Options) (turns : ℕ → Turn) (i : ℕ) :
    (runnerPass opts turns i).Behind opts turns i := by
  induction i with
  | zero =>
    refine ⟨le_rfl, fun _ h => absurd h List.not_mem_nil, fun _ h => absurd h List.not_mem_nil,
      List.nodup_nil, ?_⟩
    exact iff_of_false Bool.false_ne_true fun ⟨_, h, _⟩ => absurd h List.not_mem_nil
  | succ i ih =>
    cases h : (runnerPass opts turns i).returned with
    | none => exact ih.turn (runnerPass_succ h)
    | some r =>
      rw [runnerPass_returned (by rw [h]; rfl)]
      exact ih.mono (Nat.le_succ i)

theorem runnerPass_none {i : ℕ} (h : (runnerPass opts turns (i + 1)).returned = none) :
    (runnerPass opts turns i).returned = none := by
  by_contra hsome
  rw [runnerPass_returned (Option.isSome_iff_ne_none.mpr hsome)] at h
  exact hsome h

/-- The cursor moves on with every turn, behind the key it met. -/
theorem runnerPass_cursor_lt {i : ℕ} (h : (runnerPass opts turns (i + 1)).returned = none) :
    (runnerPass opts turns i).cursor < (runnerPass opts turns (i + 1)).cursor ∧
      ∃ key ∈ (turns i).db.liveKeys [], QUEUE_PREFIX <+: key ∧
        (runnerPass opts turns (i + 1)).cursor = nextCursor key := by
  have hmet : ∀ {key}, (turns i).db.firstQueued (runnerPass opts turns i).cursor = some key →
      key ∈ (turns i).db.liveKeys [] ∧ (runnerPass opts turns i).cursor ≤ key ∧
      QUEUE_PREFIX <+: key := fun hfirst => by
    obtain ⟨hlive, hle, hlt, -⟩ := mem_liveKeys_nil_of_firstQueued hfirst
    exact ⟨hlive, hle, between_queueSpace_iff.mp
      ⟨le_trans (runnerPass_behind opts turns i).start hle, hlt⟩⟩
  have hturn := runnerPass_succ (runnerPass_none h)
  revert h
  generalize runnerPass opts turns (i + 1) = s' at hturn ⊢
  intro h
  cases hturn with
  | stop r hends => exact absurd h (Option.some_ne_none r)
  | skip key hfirst hparse =>
    obtain ⟨hlive, hle, hspace⟩ := hmet hfirst
    exact ⟨lt_of_le_of_lt hle (lt_snoc key (byte 0)), key, hlive,
      hspace, by rw [nextCursor, hparse]⟩
  | serve name ukey v did returned hparse hfirst hserves hdid hreturned =>
    obtain ⟨hlive, hle, hspace⟩ := hmet hfirst
    exact ⟨lt_of_le_of_lt hle (eventKey_between name ukey).2, _, hlive, hspace,
      by rw [nextCursor, hparse]⟩

/-- A pass returns in a turn that says why. -/
theorem runnerPass_ended {i : ℕ} {r : PassEnd} (h : (runnerPass opts turns i).returned = some r) :
    ∃ j < i, (runnerPass opts turns j).returned = none ∧
      (turns j).Ends opts (runnerPass opts turns j) r := by
  induction i with
  | zero => exact absurd h (Option.some_ne_none r).symm
  | succ i ih =>
    cases hi : (runnerPass opts turns i).returned with
    | some r' =>
      rw [runnerPass_returned (by rw [hi]; rfl)] at h
      obtain ⟨j, hj, hends⟩ := ih h
      exact ⟨j, Nat.lt_succ_of_lt hj, hends⟩
    | none =>
      refine ⟨i, Nat.lt_succ_self i, hi, ?_⟩
      have hturn := runnerPass_succ hi
      revert h
      generalize runnerPass opts turns (i + 1) = s' at hturn ⊢
      intro h
      cases hturn with
      | stop r' hends => exact Option.some.inj h ▸ hends
      | skip key hfirst hparse => exact absurd (h.symm.trans hi) (Option.some_ne_none r)
      | serve name ukey v did returned hparse hfirst hserves hdid hreturned =>
        rcases hreturned with ⟨hnone, -⟩ | ⟨hsome, d, r', rfl, hclosed⟩
        · exact absurd (h.symm.trans hnone) (Option.some_ne_none r)
        · obtain rfl : r = .closed := Option.some.inj (h.symm.trans hsome)
          obtain ⟨hd, -, -, rfl⟩ := hserves
          exact ⟨d, hd, hclosed⟩

/-! ### No name is passed over -/

/-- A key before the range of a name is behind the range of its own name. -/
theorem queuePrefixEnd_le {name name' ukey : Bytes} (hname : byte 0 ∉ name)
    (hname' : byte 0 ∉ name') (h : sysTriggerEventKey name' ukey < queuePrefix name) :
    queuePrefixEnd name' ≤ queuePrefix name := by
  obtain ⟨hle, -⟩ := eventKey_between name' ukey
  by_contra hlt
  -- else the range of `name` starts inside that of `name'`
  obtain ⟨ukey', heq⟩ := between_queuePrefix_iff.mp ⟨le_of_lt (lt_of_le_of_lt hle h), not_le.mp hlt⟩
  obtain ⟨rfl, -⟩ := (sysTriggerEventKey_inj hname hname').mp heq
  exact absurd h (not_lt.mpr hle)

/-- One turn does not pass over a name that has an event queued. -/
theorem Sweep.Turned.reaches {t : Turn} {s s' : Sweep} (h : s.Turned opts t s')
    (hs : s.returned = none) {name : Bytes} (hname : ValidTriggerName name)
    (hinv : name ∈ s.visited ∨ s.cursor ≤ queuePrefix name)
    (hqueued : name ∉ s.visited → ∃ ukey, sysTriggerEventKey name ukey ∈ t.db.liveKeys []) :
    (name ∈ s'.visited ∨ s'.cursor ≤ queuePrefix name) ∧
      (s'.returned = some .swept → name ∈ s'.visited) := by
  have hkept : name ∈ s.visited → name ∈ s'.visited := fun hmem => by
    cases h with
    | stop r hends => exact hmem
    | skip key hfirst hparse => exact hmem
    | serve => exact List.map_subset _ (List.subset_append_left _ _) hmem
  by_cases hvisited : name ∈ s.visited
  · exact ⟨Or.inl (hkept hvisited), fun _ => hkept hvisited⟩
  have hcursor := hinv.resolve_left hvisited
  obtain ⟨ukey, hlive⟩ := hqueued hvisited
  obtain ⟨hle, hlt⟩ := eventKey_between name ukey
  obtain ⟨-, hspace⟩ := between_queueSpace_iff.mpr (queuePrefix_eventKey name ukey)
  have hahead := le_trans hcursor hle
  -- the first key is not behind the event
  have hmet : ∀ {key}, t.db.firstQueued s.cursor = some key → key ≤ sysTriggerEventKey name ukey :=
    fun hfirst => by
    obtain ⟨-, -, -, hleast⟩ := mem_liveKeys_nil_of_firstQueued hfirst
    exact hleast _ hlive hahead hspace
  cases h with
  | stop r hends =>
    refine ⟨Or.inr hcursor, fun hswept => ?_⟩
    obtain rfl : r = .swept := Option.some.inj hswept
    exact absurd hspace (notMem_of_firstQueued_none hends hlive hahead)
  | skip key hfirst hparse =>
    refine ⟨Or.inr (snoc_bot_le (lt_of_not_ge fun hge => ?_)), fun hswept => ?_⟩
    · -- else it is an event of the name, and parses
      obtain ⟨ukey', rfl⟩ := between_queuePrefix_iff.mp ⟨hge, lt_of_le_of_lt (hmet hfirst) hlt⟩
      rw [parseEventKey_eq_some.mpr ⟨rfl, hname.zero_notMem, hname.isUtf8⟩] at hparse
      exact absurd hparse (Option.some_ne_none _)
    · exact absurd (hs.symm.trans hswept) (Option.some_ne_none _).symm
  | serve name' ukey' v did returned hparse hfirst hserves hdid hreturned =>
    have hname' := (parseEventKey_eq_some.mp hparse).2.1
    refine ⟨?_, fun hswept => ?_⟩
    · by_cases hbefore : sysTriggerEventKey name' ukey' < queuePrefix name
      · exact Or.inr (queuePrefixEnd_le hname.zero_notMem hname' hbefore)
      · obtain ⟨ukey'', heq⟩ :=
          between_queuePrefix_iff.mp ⟨not_lt.mp hbefore, lt_of_le_of_lt (hmet hfirst) hlt⟩
        obtain ⟨rfl, -⟩ := (sysTriggerEventKey_inj hname' hname.zero_notMem).mp heq
        exact Or.inl (List.mem_map_of_mem (List.mem_append_right _ (List.mem_singleton_self _)))
    · rcases hreturned with ⟨hnone, -⟩ | ⟨hclosed, -⟩
      · exact absurd (hnone.symm.trans hswept) (Option.some_ne_none _).symm
      · exact absurd (Option.some.inj (hclosed.symm.trans hswept)) (by decide)

/-- A pass that reaches the end has served the names that kept an event queued. -/
theorem runnerPass_reaches {i : ℕ} {name : Bytes} (hname : ValidTriggerName name)
    (hqueued : ∀ j < i, name ∉ (runnerPass opts turns j).visited →
      ∃ ukey, sysTriggerEventKey name ukey ∈ (turns j).db.liveKeys []) :
    (name ∈ (runnerPass opts turns i).visited ∨
      (runnerPass opts turns i).cursor ≤ queuePrefix name) ∧
      ((runnerPass opts turns i).returned = some .swept →
        name ∈ (runnerPass opts turns i).visited) := by
  induction i with
  | zero =>
    refine ⟨Or.inr ?_, fun h => absurd h (Option.some_ne_none _).symm⟩
    exact (between_queueSpace_iff.mpr (queuePrefix_eventKey name [])).1
  | succ i ih =>
    have hprev := ih fun j hj => hqueued j (Nat.lt_succ_of_lt hj)
    cases h : (runnerPass opts turns i).returned with
    | none => exact (runnerPass_succ h).reaches h hname hprev.1 (hqueued i (Nat.lt_succ_self i))
    | some r =>
      rw [runnerPass_returned (by rw [h]; rfl)]
      exact hprev

/-! ### The end of a pass -/

theorem runnerPass_none_of_le {i j : ℕ} (hij : i ≤ j)
    (h : (runnerPass opts turns j).returned = none) :
    (runnerPass opts turns i).returned = none := by
  induction j, hij using Nat.le_induction with
  | base => exact h
  | succ j _ ih => exact ih (runnerPass_none h)

/-- While a pass goes on its cursors increase. -/
theorem runnerPass_strictMono {i j : ℕ} (hij : i < j)
    (h : (runnerPass opts turns j).returned = none) :
    (runnerPass opts turns i).cursor < (runnerPass opts turns j).cursor := by
  induction j, hij using Nat.le_induction with
  | base => exact (runnerPass_cursor_lt h).1
  | succ j _ ih => exact lt_trans (ih (runnerPass_none h)) (runnerPass_cursor_lt h).1

/-- All that is queued are events of valid names, and the keys in `foreign`. -/
def Known (foreign : List Bytes) (t : Turn) : Prop :=
  ∀ key ∈ t.db.liveKeys [], QUEUE_PREFIX <+: key →
    (∃ name ukey, ValidTriggerName name ∧ key = sysTriggerEventKey name ukey) ∨ key ∈ foreign

/-- There are finitely many places a turn can go on at. -/
theorem finite_cursors (foreign : List Bytes) :
    (queuePrefixEnd '' { name | ValidTriggerName name } ∪
      nextCursor '' { key | key ∈ foreign }).Finite := by
  refine Set.Finite.union (Set.Finite.image _ ?_) (Set.Finite.image _ (List.finite_toSet foreign))
  exact (List.finite_length_le Byte 64).subset fun name hname => hname.2.1

/-- **A pass ends**, whatever becomes of the queue meanwhile. -/
theorem runnerPass_ends (opts : Options) (foreign : List Bytes) : ∃ n, ∀ turns : ℕ → Turn,
    (∀ i, Known foreign (turns i)) → (runnerPass opts turns n).returned.isSome = true := by
  refine ⟨(finite_cursors foreign).toFinset.card + 1, fun turns hknown => ?_⟩
  generalize hcard : (finite_cursors foreign).toFinset.card = m
  by_contra hgoes
  have hnone : (runnerPass opts turns (m + 1)).returned = none :=
    Option.not_isSome_iff_eq_none.mp hgoes
  have hcursor : ∀ i ∈ Finset.range (m + 1),
      (runnerPass opts turns (i + 1)).cursor ∈ (finite_cursors foreign).toFinset := by
    intro i hi
    have hi' : i + 1 ≤ m + 1 := Finset.mem_range.mp hi
    obtain ⟨-, key, hlive, hspace, hnext⟩ := runnerPass_cursor_lt (runnerPass_none_of_le hi' hnone)
    rw [Set.Finite.mem_toFinset, hnext]
    rcases hknown i key hlive hspace with ⟨name, ukey, hname, rfl⟩ | hforeign
    · refine Or.inl ⟨name, hname, ?_⟩
      rw [nextCursor, parseEventKey_eq_some.mpr ⟨rfl, hname.zero_notMem, hname.isUtf8⟩]
    · exact Or.inr ⟨key, hforeign, rfl⟩
  have hinj : Set.InjOn (fun i => (runnerPass opts turns (i + 1)).cursor)
      (Finset.range (m + 1) : Finset ℕ) := by
    intro i hi j hj heq
    have hi' : i + 1 ≤ m + 1 := Finset.mem_range.mp (Finset.mem_coe.mp hi)
    have hj' : j + 1 ≤ m + 1 := Finset.mem_range.mp (Finset.mem_coe.mp hj)
    rcases Nat.lt_trichotomy i j with hlt | rfl | hgt
    · exact absurd heq
        (ne_of_lt (runnerPass_strictMono (Nat.succ_lt_succ hlt) (runnerPass_none_of_le hj' hnone)))
    · rfl
    · exact absurd heq.symm
        (ne_of_lt (runnerPass_strictMono (Nat.succ_lt_succ hgt) (runnerPass_none_of_le hi' hnone)))
  have hle := Finset.card_le_card_of_injOn _ hcursor hinj
  rw [Finset.card_range, hcard] at hle
  omega

/-- **A pass that nothing breaks off** ends at the end of the queue space. -/
theorem runnerPass_swept {i : ℕ} (hquiet : ∀ j, (turns j).Quiet opts)
    (h : (runnerPass opts turns i).returned.isSome = true) :
    (runnerPass opts turns i).returned = some .swept := by
  obtain ⟨r, hr⟩ := Option.isSome_iff_exists.mp h
  obtain ⟨j, -, -, hends⟩ := runnerPass_ended hr
  rw [hr, (hquiet j).swept hends]

/-- **The queue keyspace and the sweep.**  The ranges of valid names are apart
and hold exactly the event keys of their name; event keys parse back, and
changes-mode keys sort by seqno.

The cursor of a pass increases.  A pass visits a name at most once, in a turn
that meets an event of the name: that turn drains the trigger or, when it is
gone, clears the queue, and deletes nothing but events of the name; back-off
aside.  It did something if one of these did, and returns for the reason its
last turn has.  A pass ends, with foreign keys in the queue space and the queue
changing under it; when nothing breaks it off it ends at the end of the queue
space, and has then visited once every name that had an event until then. -/
theorem trigger_sweep :
    (∀ name name', ValidTriggerName name → ValidTriggerName name' → name ≠ name' → ∀ key,
      ¬ ((queuePrefix name ≤ key ∧ key < queuePrefixEnd name) ∧
        (queuePrefix name' ≤ key ∧ key < queuePrefixEnd name'))) ∧
    (∀ name key, queuePrefix name ≤ key ∧ key < queuePrefixEnd name ↔
      ∃ ukey, key = sysTriggerEventKey name ukey) ∧
    (∀ name ukey, ValidTriggerName name → parseEventKey (sysTriggerEventKey name ukey) = some
      (name, ukey)) ∧
    (∀ name v w, v < 2 ^ 64 → w < 2 ^ 64 →
      (sysTriggerChangeKey name v < sysTriggerChangeKey name w ↔ v < w)) ∧
    (∀ opts turns i, (runnerPass opts turns (i + 1)).returned = none →
      (runnerPass opts turns i).cursor < (runnerPass opts turns (i + 1)).cursor) ∧
    (∀ opts turns i, (runnerPass opts turns i).visited.Nodup ∧
      (∀ p ∈ (runnerPass opts turns i).visits,
        (∃ j < i, (turns j).Meets opts (runnerPass opts turns j) p) ∧
        ∀ r, p.2.served? = some r → ∀ c, r.call = some c → ∀ k ∈ c.keys,
          ∃ ukey, k = sysTriggerEventKey p.1 ukey) ∧
      ((runnerPass opts turns i).did = true ↔ ∃ p ∈ (runnerPass opts turns i).visits, p.2.Worked) ∧
      (∀ r, (runnerPass opts turns i).returned = some r →
        ∃ j < i, (turns j).Ends opts (runnerPass opts turns j) r) ∧
      ((runnerPass opts turns i).returned = some .swept → ∀ name, ValidTriggerName name →
        (∀ j < i, name ∉ (runnerPass opts turns j).visited →
          ∃ ukey, sysTriggerEventKey name ukey ∈ (turns j).db.liveKeys []) →
        (runnerPass opts turns i).visited.count name = 1)) ∧
    ∀ opts foreign, ∃ n, ∀ turns, (∀ i, Known foreign (turns i)) →
      (runnerPass opts turns n).returned.isSome = true ∧
      ((∀ i, (turns i).Quiet opts) → (runnerPass opts turns n).returned = some .swept) := by
  refine ⟨fun name name' h h' hne key hboth => ?_, fun name key => between_queuePrefix_iff,
    fun name ukey h => parseEventKey_eq_some.mpr ⟨rfl, h.zero_notMem, h.isUtf8⟩,
    fun name v w hv hw => sysTriggerChangeKey_lt_iff hv hw, fun opts turns i h =>
      (runnerPass_cursor_lt h).1,
    fun opts turns i => ?_, fun opts foreign => ?_⟩
  · obtain ⟨ukey, rfl⟩ := between_queuePrefix_iff.mp hboth.1
    obtain ⟨ukey', heq⟩ := between_queuePrefix_iff.mp hboth.2
    exact hne ((sysTriggerEventKey_inj h.zero_notMem h'.zero_notMem).mp heq).1
  · have hbehind := runnerPass_behind opts turns i
    refine ⟨hbehind.once, fun p hp => ?_, hbehind.worked,
      fun r hr => ?_, fun hswept name hname hqueued => ?_⟩
    · obtain ⟨j, hj, hmeets⟩ := hbehind.met p hp
      exact ⟨⟨j, hj, hmeets⟩, fun r hr c hcall k hk => hmeets.2.keys hr hcall hk⟩
    · obtain ⟨j, hj, -, hends⟩ := runnerPass_ended hr
      exact ⟨j, hj, hends⟩
    · exact List.count_eq_one_of_mem hbehind.once ((runnerPass_reaches hname hqueued).2 hswept)
  · obtain ⟨n, hn⟩ := runnerPass_ends opts foreign
    exact ⟨n, fun turns hknown =>
      ⟨hn turns hknown, fun hquiet => runnerPass_swept hquiet (hn turns hknown)⟩⟩

end Fluent31
