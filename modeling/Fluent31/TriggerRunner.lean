/-
The trigger runner over the engine (`trigger.rs`, `wasm/mod.rs`).

The runner is one thread.  It looks a trigger up, packs the front of its queue, runs the
module in a transaction that deletes what was packed, and commits; after a conflict it
takes a new snapshot and runs again with the same input.  All other threads go on
meanwhile, the engine may fail or be reopened at any point, and a trigger can be deleted
and created again under the same name.

Beside the engine and the runner's place, a state carries two records of the past that no
step reads: the changes of the commits in the range of a registered changes-mode trigger,
and the drains that were committed.

* `TriggerRunner.Ready`, `TriggerRunner.Settled` — what holds of a packed drain and of a
  committed one;
* `Inv.step` — every step keeps both;
* `changes_exactly_once` — a change waits in the queue until one drain or a clean-up has
  deleted it, and drains take the changes of a trigger in order.
-/
import Fluent31.ChangeLog
import Fluent31.TriggerAdmin

namespace Fluent31

open Checks (mapM_eq_ok)

/-- What a module is run on, and the queue keys its transaction deletes. -/
structure Drain where
  d : TriggerDef
  input : Bytes
  consume : List Bytes
  deriving DecidableEq

/-- A drain and the seqno its commit starts at. -/
structure DrainCommit where
  drain : Drain
  base : ℕ
  deriving DecidableEq

/-- A committed op, and a trigger that is to hear of it. -/
structure ChangeRec where
  name : Bytes
  op : BatchOp
  seq : ℕ
  deriving DecidableEq

namespace ChangeRec

/-- Its queue key, its record, and what the guest gets. -/
def key (ch : ChangeRec) : Bytes := sysTriggerChangeKey ch.name ch.seq

def record (opts : Options) (ch : ChangeRec) : Bytes := encodeChangeRecord ch.op (inlineCapOf opts)

def change (opts : Options) (ch : ChangeRec) : Change := changeOfOp ch.op ch.seq (inlineCapOf opts)

end ChangeRec

/-- The changes of a commit in the ranges of the registered changes-mode triggers. -/
def changesOf (opts : Options) (defs : List TriggerDef) (c : CommitRec) : List ChangeRec :=
  if c.capture && opts.wasmEnabled then
    (c.ops.zipIdx c.base).flatMap fun p =>
      if isSysKey p.1.key then []
      else (defs.filter fun d => decide (d.mode = .changes) && decide (d.Matches p.1.key)).map
        fun d =>
        ⟨d.name, p.1, p.2⟩
  else []

/-- The entry is a transaction that deletes queue keys. -/
def QueuedEntry.Drains (q : QueuedEntry) : Prop :=
  q.validate.isSome ∧ ∃ op ∈ q.ops, QUEUE_PREFIX <+: op.key

instance (q : QueuedEntry) : Decidable q.Drains :=
  inferInstanceAs (Decidable (q.validate.isSome ∧ ∃ op ∈ q.ops, QUEUE_PREFIX <+: op.key))

def CommitRec.Drains (c : CommitRec) : Prop :=
  c.validate.isSome ∧ ∃ op ∈ c.ops, QUEUE_PREFIX <+: op.key

instance (c : CommitRec) : Decidable c.Drains :=
  inferInstanceAs (Decidable (c.validate.isSome ∧ ∃ op ∈ c.ops, QUEUE_PREFIX <+: op.key))

/-- The result of the drain among the first `n` entries of the queue, once they are
committed. -/
def Engine.drainAnswer (opts : Options) (e : Engine) (n : ℕ) : Option (Except Error Unit) :=
  (((e.queue.take n).zip (e.db.commitGroup opts (e.queue.take n)).2).find? fun p =>
    decide p.1.Drains).map Prod.snd

inductive RunnerPhase
  | idle
  /-- `drain_one` was called with the definition. -/
  | found (d : TriggerDef)
  /-- `execute_system`, after so many attempts. -/
  | packed (dr : Drain) (attempts : ℕ)
  /-- The transaction of an attempt, at its snapshot. -/
  | begun (dr : Drain) (attempts snap : ℕ)
  /-- Its commit waits in the queue. -/
  | queued (dr : Drain) (attempts : ℕ) (entry : QueuedEntry)

namespace RunnerPhase

def drain? : RunnerPhase → Option Drain
  | idle | found _ => none
  | packed dr _ | begun dr _ _ | queued dr _ _ => some dr

def pending : RunnerPhase → Option QueuedEntry
  | queued _ _ q => some q
  | _ => none

/-- What follows from the commit's answer. -/
def answered (opts : WasmOptions) : RunnerPhase → Except Error Unit → RunnerPhase
  | begun dr attempts _, .error .conflict | queued dr attempts _, .error .conflict =>
    if attempts < max opts.executeRetries 1 then packed dr attempts else idle
  | _, _ => idle

end RunnerPhase

structure TriggerRunner where
  engine : Engine
  phase : RunnerPhase
  drained : List DrainCommit
  changes : List ChangeRec

inductive RunnerAction
  /-- A step of any other thread. -/
  | engine (a : Action)
  /-- The pass meets the name of a registered trigger. -/
  | lookup (name : Bytes)
  | pack
  /-- An attempt takes its snapshot. -/
  | begin
  /-- The module has returned; these are its writes, and the keys it locked. -/
  | commit (writes : List BatchOp) (locks : List Bytes)
  /-- The module is missing, traps or reports a failure, or the commit is refused or given up. -/
  | fail
  | reopen (n orphan : ℕ)

/-- A step of another thread than the runner. -/
def Action.foreign : Action → Bool
  | .commit (.drain _ _ _ _) | .enqueue (.drain _ _ _ _) | .reopen _ _ => false
  | _ => true

/-- The entry that an action withdraws is a drain. -/
def Engine.withdrawsDrain (e : Engine) : Action → Bool
  | .withdraw i => (e.queue[i]?).any fun q => decide q.Drains
  | _ => false

namespace TriggerRunner

variable (opts : WasmOptions) (s : TriggerRunner)

def init : TriggerRunner := ⟨Engine.init opts.toOptions, .idle, [], []⟩

/-- The answer that an action brings to the drain in the queue. -/
def answer : Action → Option (Except Error Unit)
  | .group n => s.engine.drainAnswer opts.toOptions n
  | _ => none

/-- The drains among the commits of a step. -/
def drainsOf (e' : Engine) : List DrainCommit :=
  match s.phase.drain? with
  | some dr => ((e'.log.drop s.engine.log.length).filter fun c =>
    decide c.Drains).map fun c => ⟨dr, c.base⟩
  | none => []

/-- The engine has taken a step, which may have answered the commit. -/
def follow (e' : Engine) (r : Option (Except Error Unit)) : TriggerRunner where
  engine := e'
  phase := match r with
    | some r => s.phase.answered opts r
    | none => s.phase
  drained := s.drained ++ s.drainsOf e'
  changes := s.changes ++
    (e'.log.drop s.engine.log.length).flatMap (changesOf opts.toOptions s.engine.db.defs)

def step : RunnerAction → Option TriggerRunner
  | .engine a =>
    if a.foreign = true ∧ s.engine.withdrawsDrain a = false then
      (s.engine.step opts.toOptions a).map fun e => s.follow opts e (s.answer opts a)
    else none
  | .lookup name =>
    match s.phase with
    | .idle => (s.engine.db.lookup name).map fun d => { s with phase := .found d }
    | _ => none
  | .pack =>
    match s.phase with
    | .found d =>
      match (s.engine.db.queueOf d.name).bind (Fluent31.pack opts.toOptions d) with
      | .ok (input, consume) =>
        some { s with phase := if consume = [] then .idle else .packed ⟨d, input, consume⟩ 0 }
      | .error _ => some { s with phase := .idle }
    | _ => none
  | .begin =>
    match s.phase with
    | .packed dr attempts =>
      if opts.maxWasmInput < dr.input.length then some { s with phase := .idle }
      else
        (s.engine.step opts.toOptions .snapshot).map fun e =>
          { s with engine := e, phase := .begun dr (attempts + 1) s.engine.db.visibleSeqno }
    | _ => none
  | .commit writes locks =>
    match s.phase with
    | .begun dr attempts snap =>
      let sub := .drain snap dr.consume writes locks
      if opts.sync = .always then
        (s.engine.step opts.toOptions (.enqueue sub)).map fun e =>
          { s with engine := e, phase := .queued dr attempts sub.entry }
      else
        (s.engine.step opts.toOptions (.commit sub)).map fun e =>
          s.follow opts e (some (s.engine.db.commitDirect opts.toOptions sub.entry).2)
    | _ => none
  | .fail =>
    match s.phase with
    | .idle => none
    | .found _ | .packed _ _ | .begun _ _ _ => some { s with phase := .idle }
    | .queued _ _ _ =>
      (s.engine.step opts.toOptions
        (.withdraw (s.engine.queue.findIdx fun q => decide q.Drains))).map fun e =>
        { s with engine := e, phase := .idle }
  | .reopen n orphan =>
    (s.engine.step opts.toOptions (.reopen n orphan)).map fun e =>
      { engine := e
        phase := .idle
        drained := s.drained.filter fun dc => decide (dc.base ≤ e.db.visibleSeqno)
        changes := s.changes.filter fun ch => decide (ch.seq ≤ e.db.visibleSeqno) }

end TriggerRunner

/-- The runner and the engine as a transition system. -/
def triggerRunner (opts : WasmOptions) : System TriggerRunner RunnerAction :=
  ⟨TriggerRunner.init opts, TriggerRunner.step opts⟩

variable {opts : WasmOptions} {e e' : Engine} {log recs : List CommitRec} {dr : Drain}
    {dc : DrainCommit}

/-! ### Packing -/

/-- The scan of a queue yields what is visible under it, in order. -/
theorem queueOf_eq (h : e.Inv) (name : Bytes) :
    e.db.queueOf name =
      .ok ((e.db.liveKeys (queuePrefix name)).map fun k => (k, (e.value k).getD [])) := by
  unfold Db.queueOf
  exact mapM_eq_ok fun k _ => by rw [h.getAtSeq_value k]; rfl

theorem sorted_liveKeys (db : Db) (pre : Bytes) : (db.liveKeys pre).Pairwise (· < ·) :=
  List.Pairwise.filter _ (sortedBy_sortDedup _)

/-- A key of the queue before one that is taken is taken. -/
theorem mem_take_of_lt {keys : List Bytes} (hsorted : keys.Pairwise (· < ·)) {n : ℕ} {k k' : Bytes}
    (hk : k ∈ keys) (hk' : k' ∈ keys.take n) (hlt : k < k') : k ∈ keys.take n := by
  rw [← List.take_append_drop n keys] at hk hsorted
  rcases List.mem_append.mp hk with hk | hk
  · exact hk
  · exact absurd ((List.pairwise_append.mp hsorted).2.2 k' hk' k hk) (lt_asymm hlt)

/-- The guest is given the changes that are consumed. -/
def Carries (opts : WasmOptions) (log : List CommitRec) (dr : Drain) : Prop :=
  ∃ cs : List (BatchOp × ℕ), (∀ p ∈ cs, Captured opts.toOptions log dr.d.name p) ∧
    dr.consume = cs.map (fun p => sysTriggerChangeKey dr.d.name p.2) ∧
    ∀ bits, 32 ≤ bits → dr.input.length < 2 ^ 32 → (∀ p ∈ cs, p.1.key.length < 2 ^ 64) →
      (parseChanges bits dr.input).run =
        .ok (some (cs.map fun p => changeOfOp p.1 p.2 (inlineCapOf opts.toOptions)))

/-- An entry that changes mode packs is the record of a captured change. -/
theorem captured_of_event (h : e.Inv) (ht : e.Traced opts.toOptions) {d : TriggerDef}
    (hd : byte 0 ∉ d.name)
    {k v : Bytes} (hpre : queuePrefix d.name <+: k) (hv : e.value k = some v) {c : Change}
    (hevent : changeOfEvent d k v = .ok c) :
    ∃ p, Captured opts.toOptions e.log d.name p ∧ k = sysTriggerChangeKey d.name p.2 ∧
      v = encodeChangeRecord p.1 (inlineCapOf opts.toOptions) := by
  obtain ⟨b, hb, hput⟩ := h.put_of_value hv
  have hqueue : QUEUE_PREFIX <+: k := (queuePrefix_eventKey d.name []).trans hpre
  obtain ⟨b', hb', -, hev⟩ := ht.log.puts b hb k v hput hqueue
  obtain ⟨d', hd', p, hp, huser, heq⟩ := ht.log.events b' hb' _ hev
  obtain ⟨ukey, hk⟩ := queuePrefix_isPrefix_iff.mp hpre
  unfold eventOf at heq
  cases hmode : d'.mode with
  | keys =>
    -- a touched key has no record
    rw [hmode] at heq
    obtain ⟨-, rfl⟩ := BatchOp.put.inj heq
    unfold changeOfEvent at hevent
    split at hevent
    · exact absurd hevent (by simp)
    · exact absurd hevent (by simp [decodeChangeRecord, Except.map])
  | changes =>
    rw [hmode] at heq
    obtain ⟨hkey, hvalue⟩ := BatchOp.put.inj heq
    obtain ⟨hname, -⟩ := name_split hd' hd (List.append_cancel_left (hkey.symm.trans hk))
    rw [hname] at hkey
    subst hkey hvalue
    exact ⟨p, ⟨b', hb', hp, hev⟩, rfl, rfl⟩

theorem exists_captured (h : e.Inv) (ht : e.Traced opts.toOptions) {d : TriggerDef}
    (hd : byte 0 ∉ d.name)
    {keys : List Bytes} (hkeys : ∀ k ∈ keys, queuePrefix d.name <+: k ∧ ∃ v, e.value k = some v)
    {changes : List Change}
    (hevents : List.Forall₂ (fun k c => changeOfEvent d k ((e.value k).getD []) = .ok c)
      keys changes) :
    ∃ cs : List (BatchOp × ℕ), (∀ p ∈ cs, Captured opts.toOptions e.log d.name p) ∧
      keys = cs.map (fun p => sysTriggerChangeKey d.name p.2) ∧
      ((∀ p ∈ cs, p.1.key.length < 2 ^ 64) →
        changes = cs.map fun p => changeOfOp p.1 p.2 (inlineCapOf opts.toOptions)) := by
  induction hevents with
  | nil => exact ⟨[], fun _ hp => absurd hp List.not_mem_nil, rfl, fun _ => rfl⟩
  | @cons k c keys changes hevent _ ih =>
    obtain ⟨hpre, v, hv⟩ := hkeys k List.mem_cons_self
    obtain ⟨cs, hcs, hmap, hchanges⟩ := ih fun k' hk' => hkeys k' (List.mem_cons_of_mem _ hk')
    rw [hv] at hevent
    obtain ⟨p, hp, rfl, rfl⟩ := captured_of_event h ht hd hpre hv hevent
    refine ⟨p :: cs, List.forall_mem_cons.mpr ⟨hp, hcs⟩, by rw [hmap]; rfl, fun hlen => ?_⟩
    obtain ⟨hhead, hrest⟩ := List.forall_mem_cons.mp hlen
    have hmax : MAX_SEQNO < 2 ^ 64 := by unfold MAX_SEQNO; omega
    have hseq : p.2 < 2 ^ 64 :=
      lt_of_le_of_lt (le_trans (h.captured_le hp) (le_of_lt h.consistent.wf.visible_lt)) hmax
    obtain rfl : changeOfOp p.1 p.2 (inlineCapOf opts.toOptions) = c :=
      Except.ok.inj ((changeOfEvent_capture hhead hseq _).symm.trans hevent)
    rw [List.map_cons, ← hchanges hrest]

/-- The input of a changes-mode drain. -/
theorem carries_of_pack (h : e.Inv) (ht : e.Traced opts.toOptions) {d : TriggerDef}
    (hd : byte 0 ∉ d.name) (hmode : d.mode = .changes) {input : Bytes} {consume : List Bytes}
    (hpack : pack opts.toOptions d
      ((e.db.liveKeys (queuePrefix d.name)).map fun k => (k, (e.value k).getD [])) =
      .ok (input, consume)) : Carries opts e.log ⟨d, input, consume⟩ := by
  unfold pack at hpack
  rw [hmode] at hpack
  obtain ⟨n, -, hconsume, -, -, changes, hevents, hparse⟩ := packChanges_parse hpack
  rw [← List.map_take, List.map_map] at hconsume
  rw [← List.map_take, List.forall₂_map_left_iff] at hevents
  have hkeys : consume = (e.db.liveKeys (queuePrefix d.name)).take n := by
    rw [hconsume]; exact List.map_id _
  obtain ⟨cs, hcs, hmap, hchanges⟩ := exists_captured h ht hd
    (fun k hk => (mem_liveKeys_iff h).mp (List.mem_of_mem_take hk)) hevents
  refine ⟨cs, hcs, hkeys.trans hmap, fun bits hbits hinput hlen => ?_⟩
  have hpow : 2 ^ 32 ≤ 2 ^ bits := Nat.pow_le_pow_right (by decide) hbits
  rw [← hchanges hlen]
  exact hparse (lt_of_lt_of_le hinput hpow) hinput

namespace TriggerRunner

variable {s s' : TriggerRunner}

/-! ### Packed and committed drains -/

/-- The drains of a trigger take its changes in order. -/
def Before (a b : Drain) : Prop :=
  a.d.name = b.d.name → ∀ n n' key key', IsChangeKey a.d.name n key → IsChangeKey b.d.name n' key' →
    key ∈ a.consume → key' ∈ b.consume → n < n'

/-- A packed drain: what it consumes is the front of the queue as it was when it was
packed. -/
structure Ready (opts : WasmOptions) (log : List CommitRec) (drained : List DrainCommit)
    (dr : Drain) : Prop where
  plain : byte 0 ∉ dr.d.name
  nonempty : dr.consume ≠ []
  own : ∀ key ∈ dr.consume, queuePrefix dr.d.name <+: key
  sorted : dr.consume.Pairwise (· < ·)
  captured : ∀ n key, IsChangeKey dr.d.name n key → key ∈ dr.consume →
    ∃ op, Captured opts.toOptions log dr.d.name (op, n)
  fresh : ∀ dc ∈ drained, Before dc.drain dr
  /-- Changes before a consumed one are consumed as well, or have been deleted. -/
  whole : ∀ n n' key key' op, IsChangeKey dr.d.name n key → IsChangeKey dr.d.name n' key' →
    key' ∈ dr.consume →
    n < n' → Captured opts.toOptions log dr.d.name (op, n) → key ∈ dr.consume ∨ Deleted log key
  carries : dr.d.mode = .changes → Carries opts log dr

/-- A committed drain. -/
structure Settled (opts : WasmOptions) (log : List CommitRec) (dc : DrainCommit) : Prop where
  plain : byte 0 ∉ dc.drain.d.name
  own : ∀ key ∈ dc.drain.consume, queuePrefix dc.drain.d.name <+: key
  sorted : dc.drain.consume.Pairwise (· < ·)
  /-- One commit deletes what it consumed, and holds the module's writes. -/
  recorded : ∃ c ∈ log, c.base = dc.base ∧ c.validate.isSome ∧ c.events = [] ∧
    ∃ writes, c.ops = dc.drain.consume.map BatchOp.delete ++ writes ∧ ∀ op ∈ writes,
      ValidUserKey op.key
  below : ∀ n key, IsChangeKey dc.drain.d.name n key → key ∈ dc.drain.consume →
    n < dc.base ∧ ∃ op, Captured opts.toOptions log dc.drain.d.name (op, n)
  whole : ∀ n n' key key' op, IsChangeKey dc.drain.d.name n key →
    IsChangeKey dc.drain.d.name n' key' →
    key' ∈ dc.drain.consume → n < n' → Captured opts.toOptions log dc.drain.d.name (op, n) →
      ∃ c ∈ log, c.base ≤ dc.base ∧ .delete key ∈ c.fullOps
  carries : dc.drain.d.mode = .changes → Carries opts log dc.drain

/-- Every seqno captured by a step's commits is new. -/
theorem captured_old (hnew : Commits opts.toOptions e e' recs) {name : Bytes} {p : BatchOp × ℕ}
    (hp : Captured opts.toOptions e'.log name p) (hle : p.2 ≤ e.db.visibleSeqno) :
    Captured opts.toOptions e.log name p := by
  obtain ⟨c, hc, hmem, hev⟩ := hp
  rw [hnew.log] at hc
  rcases List.mem_append.mp hc with hc | hc
  · exact ⟨c, hc, hmem, hev⟩
  · have habove := hnew.above c hc
    have hbase := (List.mk_mem_zipIdx_iff_le_and_getElem?_sub.mp hmem).1
    omega

theorem carries_append (h : Carries opts log dr) (recs : List CommitRec) :
    Carries opts (log ++ recs) dr := by
  obtain ⟨cs, hcs, hrest⟩ := h
  exact ⟨cs, fun p hp => (hcs p hp).append recs, hrest⟩

/-- **A packed drain** stays so while other threads commit. -/
theorem Ready.commits {drained : List DrainCommit} (h : Ready opts e.log drained dr) (hinv : e.Inv)
    (hnew : Commits opts.toOptions e e' recs) : Ready opts e'.log drained dr where
  plain := h.plain
  nonempty := h.nonempty
  own := h.own
  sorted := h.sorted
  captured n key hkey hmem := by
    obtain ⟨op, hop⟩ := h.captured n key hkey hmem
    exact ⟨op, hnew.log ▸ hop.append recs⟩
  fresh := h.fresh
  whole n n' key key' op hkey hkey' hmem hlt hcap := by
    obtain ⟨op', hop'⟩ := h.captured n' key' hkey' hmem
    have hvis := hinv.captured_le hop'
    have hold := captured_old hnew hcap (le_trans (le_of_lt hlt) hvis)
    rcases h.whole n n' key key' op hkey hkey' hmem hlt hold with hin | hdel
    · exact Or.inl hin
    · exact Or.inr (hnew.log ▸ hdel.append recs)
  carries hmode := hnew.log ▸ carries_append (h.carries hmode) recs

theorem Settled.commits (h : Settled opts e.log dc) (hinv : e.Inv)
    (hnew : Commits opts.toOptions e e' recs) :
    Settled opts e'.log dc where
  plain := h.plain
  own := h.own
  sorted := h.sorted
  recorded := by
    obtain ⟨c, hc, hrest⟩ := h.recorded
    exact ⟨c, hnew.log ▸ List.mem_append_left _ hc, hrest⟩
  below n key hkey hmem := by
    obtain ⟨hn, op, hop⟩ := h.below n key hkey hmem
    exact ⟨hn, op, hnew.log ▸ hop.append recs⟩
  whole n n' key key' op hkey hkey' hmem hlt hcap := by
    obtain ⟨-, op', hop'⟩ := h.below n' key' hkey' hmem
    have hvis := hinv.captured_le hop'
    have hold := captured_old hnew hcap (le_trans (le_of_lt hlt) hvis)
    obtain ⟨c, hc, hrest⟩ := h.whole n n' key key' op hkey hkey' hmem hlt hold
    exact ⟨c, hnew.log ▸ List.mem_append_left _ hc, hrest⟩
  carries hmode := hnew.log ▸ carries_append (h.carries hmode) recs

/-- **The commit of a packed drain** settles it. -/
theorem Ready.settle {drained : List DrainCommit} (h : Ready opts e.log drained dr) (hinv : e.Inv)
    (hnew : Commits opts.toOptions e e' recs) {c : CommitRec} (hc : c ∈ recs)
    (hvalidate : c.validate.isSome)
    (hevents : c.events = []) {writes : List BatchOp}
    (hops : c.ops = dr.consume.map BatchOp.delete ++ writes)
    (hwrites : ∀ op ∈ writes, ValidUserKey op.key) : Settled opts e'.log ⟨dr, c.base⟩ where
  plain := h.plain
  own := h.own
  sorted := h.sorted
  recorded := ⟨c, hnew.log ▸ List.mem_append_right _ hc, rfl, hvalidate, hevents, writes,
    hops, hwrites⟩
  below n key hkey hmem := by
    obtain ⟨op, hop⟩ := h.captured n key hkey hmem
    exact ⟨lt_of_le_of_lt (hinv.captured_le hop) (hnew.above c hc), op, hnew.log ▸ hop.append recs⟩
  whole n n' key key' op hkey hkey' hmem hlt hcap := by
    obtain ⟨op', hop'⟩ := h.captured n' key' hkey' hmem
    have hold := captured_old hnew hcap (le_trans (le_of_lt hlt) (hinv.captured_le hop'))
    rcases h.whole n n' key key' op hkey hkey' hmem hlt hold with hin | ⟨b, hb, hdel⟩
    · refine ⟨c, hnew.log ▸ List.mem_append_right _ hc, le_rfl, List.mem_append_left _ ?_⟩
      rw [hops]
      exact List.mem_append_left _ (List.mem_map_of_mem hin)
    · -- it had been deleted before
      have hle := hinv.consistent.base_le hb
      have habove := hnew.above c hc
      exact ⟨b, hnew.log ▸ List.mem_append_left _ hb, by show b.base ≤ c.base; omega, hdel⟩
  carries hmode := hnew.log ▸ carries_append (h.carries hmode) recs

/-- An open that keeps the commit of a drain keeps what was before it. -/
theorem Settled.reopen (h : Settled opts e.log dc) (hinv : e.Inv) {n orphan : ℕ}
    (hr : e.reopen opts.toOptions n orphan = some e') (hbase : dc.base ≤ e'.db.visibleSeqno) :
    Settled opts e'.log dc := by
  have hlog := reopen_log hinv hr
  have hkeep : ∀ {c}, c ∈ e.log → c.base ≤ dc.base → c ∈ e'.log := fun hc hle =>
    hlog ▸ List.mem_filter.mpr ⟨hc, decide_eq_true (le_trans hle hbase)⟩
  have hcap : ∀ {p}, Captured opts.toOptions e.log dc.drain.d.name p → p.2 < dc.base →
      Captured opts.toOptions e'.log dc.drain.d.name p := fun hp hlt => hp.mono fun c hc hmem => by
    have hle := (List.mk_mem_zipIdx_iff_le_and_getElem?_sub.mp hmem).1
    exact hkeep hc (by omega)
  refine ⟨h.plain, h.own, h.sorted, ?_,
    fun m key hkey hmem => ?_, fun m m' key key' op hkey hkey' hmem hlt hold => ?_, fun hmode => ?_⟩
  · obtain ⟨c, hc, hcbase, hrest⟩ := h.recorded
    exact ⟨c, hkeep hc (le_of_eq hcbase), hcbase, hrest⟩
  · obtain ⟨hm, op, hop⟩ := h.below m key hkey hmem
    exact ⟨hm, op, hcap hop hm⟩
  · obtain ⟨c, hc, hle, hdel⟩ := h.whole m m' key key' op hkey hkey' hmem hlt
      (hold.mono fun c hc _ => List.mem_of_mem_filter (hlog ▸ hc))
    exact ⟨c, hkeep hc hle, hle, hdel⟩
  · obtain ⟨cs, hcs, hconsume, hparse⟩ := h.carries hmode
    refine ⟨cs, fun p hp => hcap (hcs p hp) ?_, hconsume, hparse⟩
    have hseq : p.2 ≤ MAX_SEQNO :=
      le_trans (hinv.captured_le (hcs p hp)) (le_of_lt hinv.consistent.wf.visible_lt)
    exact (h.below p.2 _ (isChangeKey_self h.plain hseq) (hconsume ▸ List.mem_map_of_mem hp)).1

/-- **Packing** takes the front of the queue as it is. -/
theorem ready_of_pack (h : e.Inv) (ht : e.Traced opts.toOptions) {drained : List DrainCommit}
    (hsettled : ∀ dc ∈ drained, Settled opts e.log dc) {d : TriggerDef}
    (hd : byte 0 ∉ d.name) {input : Bytes}
    {consume : List Bytes} (hne : consume ≠ [])
    (hpack : (e.db.queueOf d.name).bind (pack opts.toOptions d) = .ok (input, consume)) :
    Ready opts e.log drained ⟨d, input, consume⟩ := by
  rw [queueOf_eq h] at hpack
  change pack opts.toOptions d _ = _ at hpack
  obtain ⟨m, hconsume⟩ := pack_takes hpack
  rw [← List.map_take, List.map_map] at hconsume
  have hkeys : consume = (e.db.liveKeys (queuePrefix d.name)).take m := by
    rw [hconsume]; exact List.map_id _
  have hlive : ∀ k ∈ consume, queuePrefix d.name <+: k ∧ ∃ v, e.value k = some v := fun k hk =>
    (mem_liveKeys_iff h).mp (List.mem_of_mem_take (hkeys ▸ hk))
  -- a change that is consumed was there
  have hthere : ∀ n key, IsChangeKey d.name n key → key ∈ consume →
      (∃ op, Captured opts.toOptions e.log d.name (op, n)) ∧ ¬ Deleted e.log key := by
    intro n key hkey hk
    obtain ⟨-, v, hv⟩ := hlive key hk
    obtain ⟨⟨op, hop, -⟩, hdel⟩ := (ht.log.value_iff h hkey).mp hv
    exact ⟨⟨op, hop⟩, hdel⟩
  refine ⟨hd, hne, fun k hk => (hlive k hk).1, ?_, fun n key hkey hk =>
    (hthere n key hkey hk).1, ?_, ?_, ?_⟩
  · show consume.Pairwise (· < ·)
    rw [hkeys]
    exact (sorted_liveKeys e.db _).sublist (List.take_sublist _ _)
  · intro dc hdc hname n n' key key' hkey hkey' hmem hmem'
    change key' ∈ consume at hmem'
    have hset := hsettled dc hdc
    obtain ⟨⟨op, hop⟩, hdel⟩ := hthere n' key' hkey' hmem'
    -- the drain before would have consumed it
    rcases lt_trichotomy n n' with hlt | rfl | hgt
    · exact hlt
    · obtain ⟨c, hc, -, -, -, writes, hops, -⟩ := hset.recorded
      have hsame : key = key' :=
        hkey.eq.trans ((congrArg (sysTriggerChangeKey · n) hname).trans hkey'.eq.symm)
      refine absurd ⟨c, hc, List.mem_append_left _ ?_⟩ hdel
      rw [hops, ← hsame]
      exact List.mem_append_left _ (List.mem_map_of_mem hmem)
    · obtain ⟨c, hc, -, hdel'⟩ :=
        hset.whole n' n key' key op (hname.symm ▸ hkey') hkey hmem hgt (hname.symm ▸ hop)
      exact absurd ⟨c, hc, hdel'⟩ hdel
  · intro n n' key key' op hkey hkey' hmem hlt hcap
    change key' ∈ consume at hmem
    by_cases hdel : Deleted e.log key
    · exact Or.inr hdel
    refine Or.inl ?_
    show key ∈ consume
    have hv := (ht.log.value_iff h hkey).mpr ⟨⟨op, hcap, rfl⟩, hdel⟩
    have hpre : queuePrefix d.name <+: key := queuePrefix_isPrefix_iff.mpr ⟨_, hkey.eq⟩
    have hmax : MAX_SEQNO < 2 ^ 64 := by unfold MAX_SEQNO; omega
    have hless : key < key' := by
      rw [hkey.eq, hkey'.eq]
      exact (sysTriggerChangeKey_lt_iff (lt_of_le_of_lt hkey.seq_le hmax)
        (lt_of_le_of_lt hkey'.seq_le hmax)).mpr hlt
    rw [hkeys] at hmem ⊢
    exact mem_take_of_lt (sorted_liveKeys e.db _)
      ((mem_liveKeys_iff h).mpr ⟨hpre, _, hv⟩) hmem hless
  · exact fun hmode => carries_of_pack h ht hd hmode hpack

end TriggerRunner

/-! ### The commit queue -/

/-- What a step does to the commit queue. -/
theorem queue_step {opts : Options} {a : Action} (hs : e.step opts a = some e')
    (hgroup : ∀ n, a ≠ .group n) (hopen : ∀ n orphan, a ≠ .reopen n orphan) :
    e'.queue = e.queue ∨
      (∃ sub, a = .enqueue sub ∧ sub.Allowed opts e ∧ e'.queue = e.queue ++ [sub.entry]) ∨
      ∃ i q, a = .withdraw i ∧ e.queue[i]? = some q ∧ e'.queue = e.queue.eraseIdx i := by
  cases a with
  | group n => exact absurd rfl (hgroup n)
  | reopen n orphan => exact absurd rfl (hopen n orphan)
  | commit sub =>
    obtain ⟨-, rfl⟩ := Engine.guarded_eq_some hs
    obtain ⟨clears, heq⟩ := Engine.finishTask_eq (e.commit opts sub.entry) sub
    refine Or.inl ?_
    rw [heq]
    show (e.commit opts sub.entry).queue = e.queue
    unfold Engine.commit
    simp only
    split <;> rfl
  | enqueue sub =>
    obtain ⟨⟨-, hallowed⟩, rfl⟩ := Engine.guarded_eq_some hs
    obtain ⟨clears, heq⟩ := Engine.finishTask_eq _ sub
    exact Or.inr (Or.inl ⟨sub, rfl, hallowed, by rw [heq]⟩)
  | withdraw i =>
    obtain ⟨q, hq, rfl⟩ := Option.map_eq_some_iff.mp hs
    exact Or.inr (Or.inr ⟨i, q, rfl, hq, rfl⟩)
  | relocate records =>
    obtain ⟨-, rfl⟩ := Engine.guarded_eq_some hs
    refine Or.inl ?_
    unfold Engine.relocate
    simp only
    split
    · rfl
    · split <;> rfl
  -- no other action looks at the queue
  | createTrigger _ | deleteTrigger _ | deleteDone | clearLook _ | clearRead _ | schedBegin _
  | advance _ _ | release _ =>
    obtain ⟨-, rfl⟩ := Engine.guarded_eq_some hs
    exact Or.inl rfl
  | rotate | schedExit | snapshot | snapshotFlushed =>
    obtain rfl := Option.some_inj.mp hs
    exact Or.inl rfl
  | flush | snapshotAt _ | pin _ | unpin _ =>
    obtain ⟨r, -, rfl⟩ := Option.map_eq_some_iff.mp hs
    exact Or.inl rfl
  | schedStart | schedPreempt | schedSchedule | schedSlice =>
    obtain ⟨s, -, hs⟩ := Option.bind_eq_some_iff.mp hs
    obtain ⟨r, -, rfl⟩ := Option.map_eq_some_iff.mp hs
    exact Or.inl rfl

/-- Nobody else submits a drain. -/
theorem not_drains_of_foreign {opts : Options} {sub : Submission} {a : Action}
    (ha : a = .commit sub ∨ a = .enqueue sub)
    (hforeign : a.foreign = true) (hallowed : sub.Allowed opts e) : ¬ sub.entry.Drains := by
  rintro ⟨hvalidate, op, hop, hqueue⟩
  cases sub with
  | txn snap writes locks => exact not_validUserKey_of_queue hqueue (hallowed.2 op hop)
  | drain snap consume writes locks =>
    rcases ha with rfl | rfl <;> exact absurd hforeign Bool.false_ne_true
  | batch _ | system _ | define _ | undefine _ | clear _ _ =>
    exact absurd hvalidate Bool.false_ne_true

theorem consumes_of_foreign {a : Action} (hforeign : a.foreign = true) (visible : ℕ) :
    a.Consumes visible := by
  cases a with
  | commit sub =>
    cases sub with
    | drain snap consume writes locks => exact absurd hforeign Bool.false_ne_true
    | _ => trivial
  | enqueue sub =>
    cases sub with
    | drain snap consume writes locks => exact absurd hforeign Bool.false_ne_true
    | _ => trivial
  | _ => trivial

/-- The drains of the queue. -/
def Engine.drains (e : Engine) : List QueuedEntry := e.queue.filter fun q => decide q.Drains

/-- Other threads leave a drain in the queue, but for the committer. -/
theorem drains_foreign {opts : Options} {a : Action} (hforeign : a.foreign = true)
    (hkeep : e.withdrawsDrain a = false)
    (hs : e.step opts a = some e') (hgroup : ∀ n, a ≠ .group n) : e'.drains = e.drains := by
  have hopen : ∀ n orphan, a ≠ .reopen n orphan := fun n orphan heq => by
    rw [heq] at hforeign
    exact Bool.false_ne_true hforeign
  unfold Engine.drains
  rcases queue_step hs hgroup hopen with
    hqueue | ⟨sub, rfl, hallowed, hqueue⟩ | ⟨i, q, rfl, hq, hqueue⟩
  · rw [hqueue]
  · have hnot := not_drains_of_foreign (Or.inr rfl) hforeign hallowed
    rw [hqueue, List.filter_append, List.filter_cons_of_neg (by simpa using hnot), List.filter_nil,
      List.append_nil]
  · rw [hqueue]
    refine filter_eraseIdx hq (decide_eq_false fun hdrains => ?_)
    rw [Engine.withdrawsDrain, hq] at hkeep
    exact absurd (decide_eq_true hdrains) (by simpa using hkeep)

/-- Nor do they commit one. -/
theorem commits_foreign {opts : Options} (h : e.Inv) {a : Action} (hforeign : a.foreign = true)
    (hs : e.step opts a = some e') (hgroup : ∀ n, a ≠ .group n) (hlog : e'.log = e.log ++ recs) :
    ∀ c ∈ recs, ¬ c.Drains := by
  intro c hc hdrains
  have hfresh := notMem_log h (inv_step h hs) hlog hc
  have hmem : c ∈ e'.log := hlog ▸ List.mem_append_right _ hc
  cases step_handed hs with
  | @commit sub hallowed hcommit =>
    rw [(hcommit c hmem).resolve_left hfresh] at hdrains
    exact not_drains_of_foreign (Or.inl rfl) hforeign hallowed hdrains
  | enqueue _ heq => exact hfresh (heq ▸ hmem)
  | group => exact hgroup _ rfl
  | relocate _ hcommit =>
    rw [(hcommit c hmem).resolve_left hfresh] at hdrains
    exact absurd hdrains.1 Bool.false_ne_true
  | other hsub => exact hfresh (hsub hmem)

theorem groupRecs_drains (opts : Options) (db : Db) (inc : List QueuedEntry)
    (rs : List (Except Error (ℕ × List EncEntry))) :
    ((groupRecs opts db inc rs).filter fun c => decide c.Drains).length ≤
      (inc.filter fun q => decide q.Drains).length := by
  induction inc generalizing rs with
  | nil => exact le_rfl
  | cons q inc ih =>
    cases rs with
    | nil => exact Nat.zero_le _
    | cons r rs =>
      cases r with
      | error err => exact le_trans (ih rs) ((List.sublist_cons_self q inc).filter _).length_le
      | ok x =>
        have hcons : groupRecs opts db (q :: inc) (.ok x :: rs) =
            ⟨q.ops, q.validate, q.capture, x.1, db.captureEvents opts q.ops x.1 q.capture, x.2⟩ ::
              groupRecs opts db inc rs := rfl
        rw [hcons]
        by_cases hq : q.Drains
        · rw [List.filter_cons_of_pos (by exact decide_eq_true hq), List.filter_cons_of_pos
            (by exact decide_eq_true hq)]
          exact Nat.succ_le_succ (ih rs)
        · rw [List.filter_cons_of_neg (by rw [decide_eq_true_eq]; exact hq),
            List.filter_cons_of_neg (by rw [decide_eq_true_eq]; exact hq)]
          exact ih rs

/-- The answer of the one entry that passes. -/
theorem find?_zip {α β : Type} {p : α → Bool} {l : List α} {rs : List β} {x : α}
    (h : l.filter p = [x]) (hlen : rs.length = l.length) :
    ∃ r, ((l.zip rs).find? fun y => p y.1).map Prod.snd = some r ∧ (x, r) ∈ l.zip rs := by
  have hx := List.mem_filter.mp (h ▸ List.mem_singleton_self x)
  cases hfind : (l.zip rs).find? fun y => p y.1 with
  | none =>
    obtain ⟨i, hi, rfl⟩ := List.getElem_of_mem hx.1
    have hi' : i < rs.length := hlen ▸ hi
    have hmem : (l[i], rs[i]) ∈ l.zip rs := by
      rw [← List.getElem_zip]
      exact List.getElem_mem (by rwa [List.length_zip, hlen, min_self])
    exact absurd hx.2 (List.find?_eq_none.mp hfind _ hmem)
  | some y =>
    obtain ⟨x', r⟩ := y
    have hmem := List.mem_of_find?_eq_some hfind
    have hpass := @List.find?_some _ (fun y : α × β => p y.1) _ _ hfind
    have hx' : x' ∈ l.filter p := List.mem_filter.mpr ⟨(List.of_mem_zip hmem).1, hpass⟩
    rw [h] at hx'
    obtain rfl := List.mem_singleton.mp hx'
    exact ⟨r, rfl, hmem⟩

/-- **The drain in a chunk** is answered; a commit of it is the only one, and answered
`Ok`. -/
theorem group_drain {opts : Options} {n : ℕ} {q : QueuedEntry}
    (hq : ((e.queue.take n).filter fun q => decide q.Drains) = [q])
    (hlog : (e.group opts n).log = e.log ++ recs) :
    ∃ r, e.drainAnswer opts n = some r ∧ ((recs.filter fun c => decide c.Drains) = [] ∨
      r = .ok () ∧ ∃ c, (recs.filter fun c => decide c.Drains) = [c] ∧ c.ops = q.ops ∧
      c.validate = q.validate ∧
        c.capture = q.capture) := by
  have hrecs : recs = groupRecs opts e.db
      (includedEntries (validateGroup e.db.readView [] (e.queue.take n))
      (e.queue.take n)) (e.db.groupOutcome opts ((includedEntries (validateGroup e.db.readView []
        (e.queue.take n)) (e.queue.take n)).map QueuedEntry.batch)).2 :=
          (List.append_cancel_left hlog).symm
  have hlen : (e.db.commitGroup opts (e.queue.take n)).2.length = (e.queue.take n).length := by
    rw [commitGroup_results]
    exact length_mergeResults ..
  obtain ⟨r, hr, hmem⟩ := find?_zip hq hlen
  refine ⟨r, hr, ?_⟩
  -- at most one drain is among the commits, as at most one was among the entries
  have hle : (recs.filter fun c => decide c.Drains).length ≤ 1 := by
    have hsub := (includedEntries_sublist (validateGroup e.db.readView [] (e.queue.take n))
      (e.queue.take n)).filter fun q => decide q.Drains
    have hcount := groupRecs_drains opts e.db
      (includedEntries (validateGroup e.db.readView [] (e.queue.take n))
      (e.queue.take n)) (e.db.groupOutcome opts ((includedEntries (validateGroup e.db.readView []
        (e.queue.take n)) (e.queue.take n)).map QueuedEntry.batch)).2
    rw [← hrecs] at hcount
    have hbound := hsub.length_le
    rw [hq] at hbound
    exact le_trans hcount hbound
  cases hdrains : recs.filter fun c => decide c.Drains with
  | nil => exact Or.inl rfl
  | cons c rest =>
    rw [hdrains] at hle
    obtain rfl : rest = [] :=
      List.eq_nil_of_length_eq_zero (Nat.le_zero.mp (Nat.le_of_succ_le_succ hle))
    -- the commit is of the drain that was queued, so its answer is the one of that drain
    obtain ⟨hc, hcd⟩ := List.mem_filter.mp (hdrains ▸ List.mem_singleton_self c)
    rw [hrecs] at hc
    obtain ⟨⟨q', r'⟩, hmem', hr'⟩ := List.mem_filterMap.mp hc
    obtain ⟨x, hx, rfl⟩ := Option.map_eq_some_iff.mp hr'
    have hq' : q' ∈ (e.queue.take n).filter fun q => decide q.Drains :=
      List.mem_filter.mpr ⟨(mem_includedEntries (List.of_mem_zip hmem').1).1, hcd⟩
    rw [hq] at hq'
    obtain rfl := List.mem_singleton.mp hq'
    refine Or.inr ⟨?_, _, rfl, rfl, rfl, rfl⟩
    rw [commitGroup_results] at hmem
    have heq := eq_of_mem_zip hq hmem (mem_zip_results hmem')
    cases r' with
    | error err => exact absurd hx (by simp [Except.toOption])
    | ok y => exact heq

/-- Without a drain in the chunk none is answered or committed. -/
theorem group_no_drain {opts : Options} {n : ℕ} (hnone : ∀ q ∈ e.queue.take n, ¬ q.Drains)
    (hlog : (e.group opts n).log = e.log ++ recs) : e.drainAnswer opts n = none ∧ ∀ c ∈ recs,
      ¬ c.Drains := by
  refine ⟨?_, fun c hc hdrains => ?_⟩
  · rw [Engine.drainAnswer, Option.map_eq_none_iff, List.find?_eq_none]
    rintro ⟨q, r⟩ hmem
    simpa using hnone q (List.of_mem_zip hmem).1
  · rw [← List.append_cancel_left hlog] at hc
    obtain ⟨q, hq, hops, hvalidate, -, -⟩ := mem_groupRecs hc
    refine hnone q (mem_includedEntries hq).1 ⟨hvalidate ▸ hdrains.1, ?_⟩
    rw [← hops]
    exact hdrains.2

/-! ### The changes of a run -/

theorem mem_changesOf {opts : Options} {defs : List TriggerDef} {c : CommitRec} {ch : ChangeRec} :
    ch ∈ changesOf opts defs c ↔ (c.capture && opts.wasmEnabled) = true ∧
      (ch.op, ch.seq) ∈ c.ops.zipIdx c.base ∧
      isSysKey ch.op.key = false ∧ ∃ d ∈ defs, d.mode = .changes ∧ d.Matches ch.op.key ∧
      ch.name = d.name := by
  unfold changesOf
  constructor
  · intro h
    split at h
    · rename_i hcap
      obtain ⟨p, hp, h⟩ := List.mem_flatMap.mp h
      split at h
      · exact absurd h List.not_mem_nil
      · rename_i huser
        obtain ⟨d, hd, rfl⟩ := List.mem_map.mp h
        obtain ⟨hd, hcond⟩ := List.mem_filter.mp hd
        rw [Bool.and_eq_true, decide_eq_true_eq, decide_eq_true_eq] at hcond
        exact ⟨hcap, hp, by simpa using huser, d, hd, hcond.1, hcond.2, rfl⟩
    · exact absurd h List.not_mem_nil
  · rintro ⟨hcap, hp, huser, d, hd, hmode, hmatch, hname⟩
    rw [if_pos hcap]
    refine List.mem_flatMap.mpr ⟨_, hp, ?_⟩
    rw [if_neg (by simp [huser])]
    refine List.mem_map.mpr ⟨d, List.mem_filter.mpr ⟨hd, by simp [hmode, hmatch]⟩, ?_⟩
    rw [← hname]

/-- **Capture is complete, and captures nothing else**: what the recorded changes say of a
log, they say of it with a step's commits. -/
theorem changes_commits {opts : Options} {changes : List ChangeRec} (ht : e.Traced opts)
    (hinv' : e'.Inv) (hnew : Commits opts e e' recs)
    (hold : ∀ ch, ch ∈ changes ↔ byte 0 ∉ ch.name ∧ Captured opts e.log ch.name (ch.op, ch.seq))
    (ch : ChangeRec) :
    ch ∈ changes ++ recs.flatMap (changesOf opts e.db.defs) ↔
      byte 0 ∉ ch.name ∧ Captured opts e'.log ch.name (ch.op, ch.seq) := by
  rw [List.mem_append, hold, hnew.log]
  constructor
  · rintro (⟨hplain, hcap⟩ | hch)
    · exact ⟨hplain, hcap.append recs⟩
    · obtain ⟨c, hc, hch⟩ := List.mem_flatMap.mp hch
      obtain ⟨hcap, hp, huser, d, hd, hmode, hmatch, hname⟩ := mem_changesOf.mp hch
      refine ⟨hname ▸ ht.names d hd, c, List.mem_append_right _ hc, hp, ?_⟩
      rw [hnew.events c hc]
      unfold Db.captureEvents
      rw [if_pos hcap]
      refine mem_captureOps.mpr ⟨_, hp, huser, d, hd, hmatch, ?_⟩
      rw [eventOf, hmode, hname]
  · rintro ⟨hplain, c, hc, hp, hev⟩
    rcases List.mem_append.mp hc with hc | hc
    · exact Or.inl ⟨hplain, c, hc, hp, hev⟩
    · refine Or.inr (List.mem_flatMap.mpr ⟨c, hc, mem_changesOf.mpr ?_⟩)
      have hlog : c ∈ e'.log := hnew.log ▸ List.mem_append_right _ hc
      have hcap : (c.capture && opts.wasmEnabled) = true := by
        by_contra hno
        rw [hnew.events c hc, Db.captureEvents, if_neg hno] at hev
        exact List.not_mem_nil hev
      obtain ⟨p, hp', huser, d, hd, hmatch, heq⟩ := hnew.event hc hev
      have hnum := List.mem_flatMap.mpr ⟨c, hlog, mem_numbered_of_ops hp⟩
      have hnum' := List.mem_flatMap.mpr ⟨c, hlog, mem_numbered_of_ops hp'⟩
      obtain ⟨hmode, hname, hseq, -⟩ :=
        eventOf_change (ht.names d hd) (hinv'.numbered_le_max hnum') huser heq
        (isChangeKey_self hplain (hinv'.numbered_le_max hnum))
      -- the event is that of the op with its seqno
      obtain rfl := hinv'.op_unique hnum hnum' hseq
      exact ⟨hcap, hp, huser, d, hd, hmode, hmatch, hname⟩

namespace TriggerRunner

variable {s s' : TriggerRunner}

/-! ### The invariant -/

/-- The entry is the transaction of a drain. -/
def Submits (dr : Drain) (q : QueuedEntry) : Prop :=
  q.validate.isSome ∧ q.capture = false ∧
    ∃ writes, q.ops = dr.consume.map BatchOp.delete ++ writes ∧ ∀ op ∈ writes, ValidUserKey op.key

structure Inv (opts : WasmOptions) (s : TriggerRunner) : Prop where
  engine : s.engine.Inv
  traced : s.engine.Traced opts.toOptions
  found : ∀ d, s.phase = .found d → byte 0 ∉ d.name
  ready : ∀ dr ∈ s.phase.drain?, Ready opts s.engine.log s.drained dr
  drains : s.engine.drains = s.phase.pending.toList
  entry : ∀ dr attempts q, s.phase = .queued dr attempts q → Submits dr q
  settled : ∀ dc ∈ s.drained, Settled opts s.engine.log dc
  ordered : s.drained.Pairwise fun a b => a.base < b.base ∧ Before a.drain b.drain
  /-- No other transaction deletes queue keys. -/
  complete : ∀ c ∈ s.engine.log, c.Drains → ∃ dc ∈ s.drained, dc.base = c.base ∧
    ∀ key, QUEUE_PREFIX <+: key → .delete key ∈ c.ops → key ∈ dc.drain.consume
  changes : ∀ ch, ch ∈ s.changes ↔ byte 0 ∉ ch.name ∧ Captured opts.toOptions s.engine.log ch.name
    (ch.op, ch.seq)

/-- A step after which no drain more is committed. -/
theorem Inv.quiet (h : Inv opts s) {e' : Engine} (hinv' : e'.Inv) (ht' : e'.Traced opts.toOptions)
    (hnew : Commits opts.toOptions s.engine e' recs) (hnone : ∀ c ∈ recs, ¬ c.Drains)
    {phase : RunnerPhase}
    (hfound : ∀ d, phase = .found d → s.phase = .found d)
    (hready : ∀ dr ∈ phase.drain?, dr ∈ s.phase.drain?)
    (hdrains : e'.drains = phase.pending.toList)
    (hentry : ∀ dr attempts q, phase = .queued dr attempts q → Submits dr q) :
    Inv opts ⟨e', phase, s.drained, s.changes ++ recs.flatMap
      (changesOf opts.toOptions s.engine.db.defs)⟩ where
  engine := hinv'
  traced := ht'
  found d hd := h.found d (hfound d hd)
  ready dr hdr := (h.ready dr (hready dr hdr)).commits h.engine hnew
  drains := hdrains
  entry := hentry
  settled dc hdc := (h.settled dc hdc).commits h.engine hnew
  ordered := h.ordered
  complete c hc hcd := by
    change c ∈ e'.log at hc
    rw [hnew.log] at hc
    rcases List.mem_append.mp hc with hc | hc
    · exact h.complete c hc hcd
    · exact absurd hcd (hnone c hc)
  changes := changes_commits h.traced hinv' hnew h.changes

/-- A step that commits nothing. -/
theorem Inv.still (h : Inv opts s) {e' : Engine} (hinv' : e'.Inv) (ht' : e'.Traced opts.toOptions)
    (hnew : Commits opts.toOptions s.engine e' []) {phase : RunnerPhase}
    (hfound : ∀ d, phase = .found d → s.phase = .found d)
    (hready : ∀ dr ∈ phase.drain?, dr ∈ s.phase.drain?) (hdrains : e'.drains = phase.pending.toList)
    (hentry : ∀ dr attempts q, phase = .queued dr attempts q → Submits dr q) :
    Inv opts { s with engine := e', phase := phase } := by
  have hnone : ∀ c ∈ ([] : List CommitRec), ¬ c.Drains := fun _ hc => absurd hc List.not_mem_nil
  have hquiet := h.quiet hinv' ht' hnew hnone hfound hready hdrains hentry
  rwa [List.flatMap_nil, List.append_nil] at hquiet

/-- A step that commits the drain of the runner. -/
theorem Inv.drained (h : Inv opts s) {e' : Engine} (hinv' : e'.Inv) (ht' : e'.Traced opts.toOptions)
    (hnew : Commits opts.toOptions s.engine e' recs) {dr : Drain}
    (hdr : dr ∈ s.phase.drain?) {c : CommitRec}
    (hone : (recs.filter fun c => decide c.Drains) = [c]) {q : QueuedEntry} (hq : Submits dr q)
    (hops : c.ops = q.ops)
    (hvalidate : c.validate = q.validate) (hcapture : c.capture = q.capture)
    (hdrains : e'.drains = []) :
    Inv opts ⟨e', .idle, s.drained ++ [⟨dr, c.base⟩],
      s.changes ++ recs.flatMap (changesOf opts.toOptions s.engine.db.defs)⟩ := by
  have hready := h.ready dr hdr
  have hc : c ∈ recs := List.mem_of_mem_filter (hone ▸ List.mem_singleton_self c)
  obtain ⟨hsome, hsystem, writes, hwrites, hvalid⟩ := hq
  -- a drain is no user commit, so it captures no event
  have hevents : c.events = [] := by
    rw [hnew.events c hc, hcapture, hsystem]
    rfl
  refine ⟨hinv', ht', fun d hd => absurd hd (by simp), fun dr hdr =>
    absurd hdr (by simp [RunnerPhase.drain?]), hdrains,
    fun _ _ _ heq => absurd heq (by simp), fun dc hdc => ?_, ?_, fun b hb hbd => ?_,
    changes_commits h.traced hinv' hnew h.changes⟩
  · rcases List.mem_append.mp hdc with hdc | hdc
    · exact (h.settled dc hdc).commits h.engine hnew
    · rw [List.mem_singleton.mp hdc]
      exact hready.settle h.engine hnew hc (hvalidate ▸ hsome) hevents (hops.trans hwrites) hvalid
  · refine List.pairwise_append.mpr ⟨h.ordered, List.pairwise_singleton _ _, fun a ha b hb => ?_⟩
    rw [List.mem_singleton.mp hb]
    obtain ⟨b', hb', hbase, -⟩ := (h.settled a ha).recorded
    have hle := h.engine.consistent.base_le hb'
    have habove := hnew.above c hc
    exact ⟨by show a.base < c.base; omega, hready.fresh a ha⟩
  · change b ∈ e'.log at hb
    rw [hnew.log] at hb
    rcases List.mem_append.mp hb with hb | hb
    · -- a drain of the log before is settled already
      obtain ⟨dc, hdc, hrest⟩ := h.complete b hb hbd
      exact ⟨dc, List.mem_append_left _ hdc, hrest⟩
    · have hb' : b ∈ recs.filter fun c => decide c.Drains :=
        List.mem_filter.mpr ⟨hb, decide_eq_true hbd⟩
      rw [hone] at hb'
      obtain rfl := List.mem_singleton.mp hb'
      refine ⟨_, List.mem_append_right _ (List.mem_singleton_self _), rfl,
        fun key hqueue hdel => ?_⟩
      rw [hops, hwrites] at hdel
      rcases List.mem_append.mp hdel with hdel | hdel
      · obtain ⟨key', hkey', heq⟩ := List.mem_map.mp hdel
        obtain rfl := BatchOp.delete.inj heq
        exact hkey'
      · exact absurd (hvalid _ hdel) (not_validUserKey_of_queue hqueue)

/-! ### Steps -/

theorem inv_init (opts : WasmOptions) : Inv opts (init opts) where
  engine := inv_of_reachable .init
  traced := traced_init opts.toOptions
  found _ hd := absurd hd (by simp [init])
  ready _ hdr := absurd hdr (by simp [init, RunnerPhase.drain?])
  drains := rfl
  entry _ _ _ heq := absurd heq (by simp [init])
  settled _ hdc := absurd hdc List.not_mem_nil
  ordered := List.Pairwise.nil
  complete _ hc := absurd hc List.not_mem_nil
  changes ch := by
    refine iff_of_false List.not_mem_nil ?_
    rintro ⟨-, c, hc, -⟩
    exact absurd hc List.not_mem_nil

/-- The runner itself changes nothing. -/
theorem Inv.turn (h : Inv opts s) {phase : RunnerPhase}
    (hfound : ∀ d, phase = .found d → byte 0 ∉ d.name)
    (hready : ∀ dr ∈ phase.drain?, Ready opts s.engine.log s.drained dr)
    (hentry : phase.pending = none) (hbefore : s.phase.pending = none) :
    Inv opts { s with phase := phase } where
  engine := h.engine
  traced := h.traced
  found := hfound
  ready := hready
  drains := by rw [hentry, ← hbefore]; exact h.drains
  entry _ _ q heq :=
    absurd (show some q = none from (congrArg RunnerPhase.pending heq).symm.trans hentry) (by simp)
  settled := h.settled
  ordered := h.ordered
  complete := h.complete
  changes := h.changes

/-- What the step says of the drains and changes, from the commits it made. -/
theorem follow_eq {e' : Engine} (hlog : e'.log = s.engine.log ++ recs)
    (r : Option (Except Error Unit)) :
    s.follow opts e' r = ⟨e', (s.follow opts e' r).phase,
      s.drained ++ (s.phase.drain?.toList.flatMap fun dr =>
        (recs.filter fun c => decide c.Drains).map fun c => ⟨dr, c.base⟩),
      s.changes ++ recs.flatMap (changesOf opts.toOptions s.engine.db.defs)⟩ := by
  have hdrop : e'.log.drop s.engine.log.length = recs := by rw [hlog, List.drop_left]
  unfold follow drainsOf
  rw [hdrop]
  cases s.phase.drain? with
  | none => rfl
  | some dr => simp

theorem follow_none {e' : Engine} (hlog : e'.log = s.engine.log ++ recs)
    (r : Option (Except Error Unit)) (hnone : ∀ c ∈ recs, ¬ c.Drains) :
    s.follow opts e' r = ⟨e', (s.follow opts e' r).phase, s.drained,
      s.changes ++ recs.flatMap (changesOf opts.toOptions s.engine.db.defs)⟩ := by
  have hnil : (recs.filter fun c => decide c.Drains) = [] :=
    List.filter_eq_nil_iff.mpr fun c hc => by simpa using hnone c hc
  rw [follow_eq hlog, hnil]
  simp

theorem follow_one {e' : Engine} (hlog : e'.log = s.engine.log ++ recs)
    (r : Option (Except Error Unit)) {dr : Drain} (hdr : s.phase.drain? = some dr) {c : CommitRec}
    (hone : (recs.filter fun c => decide c.Drains) = [c]) :
    s.follow opts e' r = ⟨e', (s.follow opts e' r).phase, s.drained ++ [⟨dr, c.base⟩],
      s.changes ++ recs.flatMap (changesOf opts.toOptions s.engine.db.defs)⟩ := by
  rw [follow_eq hlog, hone, hdr]
  simp

/-- An answer other than `Ok` leaves at most the packed drain. -/
theorem answered_drain? (phase : RunnerPhase) (r : Except Error Unit) :
    (phase.answered opts r).pending = none ∧ (∀ d, phase.answered opts r ≠ .found d) ∧
      ∀ dr ∈ (phase.answered opts r).drain?, dr ∈ phase.drain? := by
  unfold RunnerPhase.answered
  split
  · split
    · exact ⟨rfl, fun _ => by simp, fun _ hdr => hdr⟩
    · exact ⟨rfl, fun _ => by simp, fun _ hdr => absurd hdr (by simp [RunnerPhase.drain?])⟩
  · split
    · exact ⟨rfl, fun _ => by simp, fun _ hdr => hdr⟩
    · exact ⟨rfl, fun _ => by simp, fun _ hdr => absurd hdr (by simp [RunnerPhase.drain?])⟩
  · exact ⟨rfl, fun _ => by simp, fun _ hdr => absurd hdr (by simp [RunnerPhase.drain?])⟩

theorem answered_ok (phase : RunnerPhase) (u : Unit) : phase.answered opts (.ok u) = .idle := by
  cases phase <;> rfl

/-- The runner is answered, and its drain has not been committed. -/
theorem Inv.refused (h : Inv opts s) {e' : Engine} (hinv' : e'.Inv) (ht' : e'.Traced opts.toOptions)
    (hnew : Commits opts.toOptions s.engine e' recs) (hnone : ∀ c ∈ recs, ¬ c.Drains)
    (hdrains : e'.drains = [])
    (r : Except Error Unit) : Inv opts (s.follow opts e' (some r)) := by
  obtain ⟨hentry, hfound, hready⟩ := @answered_drain? opts s.phase r
  have hphase : (s.follow opts e' (some r)).phase = s.phase.answered opts r := rfl
  rw [follow_none hnew.log _ hnone, hphase]
  refine h.quiet hinv' ht' hnew hnone (fun d hd => absurd hd (hfound d)) hready ?_
    fun _ _ q heq => ?_
  · rw [hdrains, hentry]
    rfl
  · exact absurd (show some q = none from (congrArg RunnerPhase.pending heq).symm.trans hentry)
      (by simp)

/-- It is answered `Ok`, and it has been. -/
theorem Inv.accepted (h : Inv opts s) {e' : Engine} (hinv' : e'.Inv)
    (ht' : e'.Traced opts.toOptions)
    (hnew : Commits opts.toOptions s.engine e' recs) {dr : Drain} (hdr : s.phase.drain? = some dr)
    {c : CommitRec}
    (hone : (recs.filter fun c => decide c.Drains) = [c]) {q : QueuedEntry} (hq : Submits dr q)
    (hops : c.ops = q.ops)
    (hvalidate : c.validate = q.validate) (hcapture : c.capture = q.capture)
    (hdrains : e'.drains = []) :
    Inv opts (s.follow opts e' (some (.ok ()))) := by
  have hphase : (s.follow opts e' (some (.ok ()))).phase = .idle := answered_ok _ _
  rw [follow_one hnew.log _ hdr hone, hphase]
  exact h.drained hinv' ht' hnew hdr hone hq hops hvalidate hcapture hdrains

/-- **The committer takes a chunk.** -/
theorem Inv.group (h : Inv opts s) {n : ℕ} {e' : Engine}
    (hs : s.engine.step opts.toOptions (.group n) = some e') :
    Inv opts (s.follow opts e' (s.answer opts (.group n))) := by
  have hinv' := inv_step h.engine hs
  have ht' := traced_step h.engine h.traced hs trivial
  obtain ⟨recs, hnew⟩ := commits_of_step h.engine h.traced hs trivial fun n orphan => by simp
  obtain rfl : s.engine.group opts.toOptions n = e' := (Engine.guarded_eq_some hs).2
  have hsplit : s.engine.drains = ((s.engine.queue.take n).filter fun q => decide q.Drains) ++
      (s.engine.group opts.toOptions n).drains := by
    show _ = _ ++ (s.engine.queue.drop n).filter _
    rw [Engine.drains, ← List.filter_append, List.take_append_drop]
  by_cases hnil : ((s.engine.queue.take n).filter fun q => decide q.Drains) = []
  · -- the drain is not in the chunk
    obtain ⟨hanswer, hnone⟩ := group_no_drain (fun q hq hqd =>
      absurd (List.mem_filter.mpr ⟨hq, decide_eq_true hqd⟩) (hnil ▸ List.not_mem_nil)) hnew.log
    rw [hnil, List.nil_append] at hsplit
    rw [answer, hanswer, follow_none hnew.log none hnone]
    exact h.quiet hinv' ht' hnew hnone (fun _ hd => hd) (fun _ hdr => hdr)
      (hsplit.symm.trans h.drains) h.entry
  · -- it is, and alone
    obtain ⟨dr, attempts, q, hphase⟩ : ∃ dr attempts q, s.phase = .queued dr attempts q := by
      have hne : s.engine.drains ≠ [] :=
        fun heq => hnil (List.append_eq_nil_iff.mp (hsplit ▸ heq)).1
      rw [h.drains] at hne
      cases hphase : s.phase with
      | queued dr attempts q => exact ⟨dr, attempts, q, rfl⟩
      | _ => exact absurd (by rw [hphase]; rfl) hne
    have hdrains : s.engine.drains = [q] := by rw [h.drains, hphase]; rfl
    obtain ⟨hchunk, hrest⟩ : ((s.engine.queue.take n).filter fun q => decide q.Drains) = [q] ∧
        (s.engine.group opts.toOptions n).drains = [] := by
      rw [hdrains] at hsplit
      rcases List.append_eq_singleton_iff.mp hsplit.symm with ⟨hno, -⟩ | hboth
      · exact absurd hno hnil
      · exact hboth
    have hdr : s.phase.drain? = some dr := by rw [hphase]; rfl
    obtain ⟨r, hr, hnone | ⟨rfl, c, hone, hops, hvalidate, hcapture⟩⟩ := group_drain hchunk hnew.log
    · -- it has not been applied
      have hnot : ∀ c ∈ recs, ¬ c.Drains := fun c hc hcd => by
        have hmem : c ∈ recs.filter fun c => decide c.Drains :=
          List.mem_filter.mpr ⟨hc, decide_eq_true hcd⟩
        rw [hnone] at hmem
        exact absurd hmem List.not_mem_nil
      rw [answer, hr]
      exact h.refused hinv' ht' hnew hnot hrest r
    · rw [answer, hr]
      exact h.accepted hinv' ht' hnew hdr hone (h.entry dr attempts q hphase) hops hvalidate
        hcapture hrest

/-- **A step of another thread.** -/
theorem Inv.other (h : Inv opts s) {a : Action} (hforeign : a.foreign = true)
    (hkeep : s.engine.withdrawsDrain a = false)
    {e' : Engine} (hs : s.engine.step opts.toOptions a = some e') :
    Inv opts (s.follow opts e' (s.answer opts a)) := by
  by_cases hgroup : ∃ n, a = .group n
  · obtain ⟨n, rfl⟩ := hgroup
    exact h.group hs
  · have hplain : ∀ n, a ≠ .group n := fun n heq => hgroup ⟨n, heq⟩
    have hanswer : s.answer opts a = none := by
      cases a with
      | group n => exact absurd rfl (hplain n)
      | _ => rfl
    have hconsumes := consumes_of_foreign hforeign s.engine.db.visibleSeqno
    obtain ⟨recs, hnew⟩ := commits_of_step h.engine h.traced hs hconsumes fun n orphan heq => by
      rw [heq] at hforeign
      exact Bool.false_ne_true hforeign
    have hnone := commits_foreign h.engine hforeign hs hplain hnew.log
    rw [hanswer, follow_none hnew.log none hnone]
    exact h.quiet (inv_step h.engine hs) (traced_step h.engine h.traced hs hconsumes) hnew hnone
      (fun _ hd => hd)
      (fun _ hdr => hdr) ((drains_foreign hforeign hkeep hs hplain).trans h.drains) h.entry

/-- On the direct path the entry is committed and answered `Ok`, or nothing is. -/
theorem direct_drain {opts : Options} {q : QueuedEntry} (hne : q.ops ≠ [])
    (hlog : (e.commit opts q).log = e.log ++ recs) :
    (e.db.commitDirect opts q).2 = .ok () ∧ recs = [recOf opts e.db q] ∨
      (∃ err, (e.db.commitDirect opts q).2 = .error err) ∧ recs = [] := by
  unfold Engine.commit at hlog
  simp only at hlog
  split at hlog
  · rename_i u hr
    rw [if_neg (by simpa using hne)] at hlog
    exact Or.inl ⟨hr, (List.append_cancel_left hlog).symm⟩
  · rename_i err hr
    exact Or.inr ⟨⟨err, hr⟩, (List.append_cancel_left hlog).symm⟩

/-- What a packed drain consumes was there, whatever the trigger of the key. -/
theorem Ready.consumes {drained : List DrainCommit} (h : Ready opts e.log drained dr)
    (hinv : e.Inv) :
    ∀ key ∈ dr.consume, ∀ name n, IsChangeKey name n key → n ≤ e.db.visibleSeqno := by
  intro key hmem name n hkey
  obtain ⟨ukey, heq⟩ := queuePrefix_isPrefix_iff.mp (h.own key hmem)
  obtain ⟨hname, -⟩ :=
    name_split hkey.plain h.plain (List.append_cancel_left (hkey.eq.symm.trans heq))
  subst hname
  obtain ⟨op, hop⟩ := h.captured n key hkey hmem
  exact hinv.captured_le hop

/-- The transaction of a packed drain. -/
theorem Ready.submits {drained : List DrainCommit} (h : Ready opts log drained dr) {snap : ℕ}
    {writes : List BatchOp} {locks : List Bytes}
    (hallowed : (Submission.drain snap dr.consume writes locks).Allowed opts.toOptions e) :
    Submits dr (Submission.drain snap dr.consume writes locks).entry ∧
      (Submission.drain snap dr.consume writes locks).entry.Drains := by
  refine ⟨⟨rfl, rfl, writes, rfl, hallowed.2.2⟩, rfl, ?_⟩
  obtain ⟨key, rest, hconsume⟩ := List.exists_cons_of_ne_nil h.nonempty
  have hkey : key ∈ dr.consume := hconsume ▸ List.mem_cons_self
  exact ⟨.delete key, List.mem_append_left _ (List.mem_map_of_mem hkey), hallowed.2.1 key hkey⟩

/-- An attempt's commit, put in the queue. -/
theorem Inv.enqueue (h : Inv opts s) {attempts snap : ℕ}
    (hphase : s.phase = .begun dr attempts snap)
    {writes : List BatchOp} {locks : List Bytes} {e' : Engine}
    (hs : s.engine.step opts.toOptions (.enqueue (.drain snap dr.consume writes locks)) = some e') :
    Inv opts { s with
      engine := e'
      phase := .queued dr attempts (Submission.drain snap dr.consume writes locks).entry } := by
  have hready : Ready opts s.engine.log s.drained dr := h.ready dr (by rw [hphase]; rfl)
  have hconsumes := hready.consumes h.engine
  obtain ⟨recs, hnew⟩ := commits_of_step h.engine h.traced hs hconsumes fun n orphan => by simp
  have hinv' := inv_step h.engine hs
  have ht' := traced_step h.engine h.traced hs hconsumes
  obtain ⟨⟨-, hallowed⟩, rfl⟩ := Engine.guarded_eq_some hs
  obtain rfl : recs = [] := List.append_cancel_left (hnew.log.symm.trans (List.append_nil _).symm)
  obtain ⟨hsubmits, hq⟩ := hready.submits hallowed
  have hdrains : s.engine.drains = [] := by rw [h.drains, hphase]; rfl
  refine h.still hinv' ht' hnew (fun d hd => absurd hd (by simp))
    (fun dr' hdr' => by rw [hphase]; exact hdr') ?_ fun dr' attempts' q' heq => ?_
  · show (s.engine.queue ++ [_]).filter _ = _
    rw [List.filter_append, List.filter_cons_of_pos (by exact decide_eq_true hq)]
    exact congrArg (· ++ [_]) hdrains
  · obtain ⟨rfl, -, rfl⟩ := RunnerPhase.queued.inj heq
    exact hsubmits

/-- An attempt's commit on the direct path. -/
theorem Inv.direct (h : Inv opts s) {attempts snap : ℕ} (hphase : s.phase = .begun dr attempts snap)
    {writes : List BatchOp} {locks : List Bytes} {e' : Engine}
    (hs : s.engine.step opts.toOptions (.commit (.drain snap dr.consume writes locks)) = some e') :
    Inv opts (s.follow opts e' (some (s.engine.db.commitDirect opts.toOptions
      (Submission.drain snap dr.consume writes locks).entry).2)) := by
  have hready : Ready opts s.engine.log s.drained dr := h.ready dr (by rw [hphase]; rfl)
  have hconsumes := hready.consumes h.engine
  obtain ⟨recs, hnew⟩ := commits_of_step h.engine h.traced hs hconsumes fun n orphan => by simp
  have hinv' := inv_step h.engine hs
  have ht' := traced_step h.engine h.traced hs hconsumes
  have hdrains : e'.drains = [] := by
    have hnone : s.engine.drains = [] := by rw [h.drains, hphase]; rfl
    rcases queue_step hs (fun n => by simp) (fun n orphan => by simp) with
      hqueue | ⟨sub, heq, -⟩ | ⟨i, q, heq, -⟩
    · rw [← hnone]
      exact congrArg (List.filter _) hqueue
    · exact absurd heq (by simp)
    · exact absurd heq (by simp)
  obtain ⟨⟨-, hallowed⟩, rfl⟩ := Engine.guarded_eq_some hs
  obtain ⟨hsubmits, hq⟩ := hready.submits hallowed
  have hne : (Submission.drain snap dr.consume writes locks).entry.ops ≠ [] := by
    obtain ⟨-, op, hop, -⟩ := hq
    exact List.ne_nil_of_mem hop
  rcases direct_drain hne hnew.log with ⟨hok, rfl⟩ | ⟨⟨err, herr⟩, rfl⟩
  · rw [hok]
    refine h.accepted hinv' ht' hnew (by rw [hphase]; rfl) (List.filter_cons_of_pos ?_) hsubmits rfl
      rfl rfl hdrains
    exact decide_eq_true hq
  · rw [herr]
    exact h.refused hinv' ht' hnew (fun _ hc => absurd hc List.not_mem_nil) hdrains _

/-- **The commit of an attempt.** -/
theorem Inv.commit (h : Inv opts s) {writes : List BatchOp} {locks : List Bytes}
    (hs : s.step opts (.commit writes locks) = some s') : Inv opts s' := by
  unfold step at hs
  simp only at hs
  split at hs
  · rename_i dr attempts snap hphase
    split at hs
    · obtain ⟨e', he, rfl⟩ := Option.map_eq_some_iff.mp hs
      exact h.enqueue hphase he
    · obtain ⟨e', he, rfl⟩ := Option.map_eq_some_iff.mp hs
      exact h.direct hphase he
  · exact absurd hs (by simp)

theorem Inv.lookup (h : Inv opts s) {name : Bytes} (hs : s.step opts (.lookup name) = some s') :
    Inv opts s' := by
  unfold step at hs
  simp only at hs
  split at hs
  · rename_i hphase
    obtain ⟨d, hd, rfl⟩ := Option.map_eq_some_iff.mp hs
    have hplain : byte 0 ∉ d.name := h.traced.names d (List.mem_of_find?_eq_some hd)
    refine h.turn (fun d' heq => ?_) (fun dr hdr => absurd hdr (by simp [RunnerPhase.drain?])) rfl
      (by rw [hphase]; rfl)
    obtain rfl := RunnerPhase.found.inj heq
    exact hplain
  · exact absurd hs (by simp)

/-- The runner gives the drain up, or has none. -/
theorem Inv.idle (h : Inv opts s) (hbefore : s.phase.pending = none) :
    Inv opts { s with phase := .idle } :=
  h.turn (fun _ heq => absurd heq (by simp))
    (fun _ hdr => absurd hdr (by simp [RunnerPhase.drain?])) rfl hbefore

theorem Inv.pack (h : Inv opts s) (hs : s.step opts .pack = some s') : Inv opts s' := by
  unfold step at hs
  simp only at hs
  split at hs
  · rename_i d hphase
    have hbefore : s.phase.pending = none := by rw [hphase]; rfl
    split at hs
    · rename_i input consume hpack
      obtain rfl := Option.some_inj.mp hs
      split
      · exact h.idle hbefore
      · rename_i hne
        refine h.turn (fun _ heq => absurd heq (by simp)) (fun dr hdr => ?_) rfl hbefore
        obtain rfl := Option.some_inj.mp hdr
        exact ready_of_pack h.engine h.traced h.settled (h.found d hphase) hne hpack
    · obtain rfl := Option.some_inj.mp hs
      exact h.idle hbefore
  · exact absurd hs (by simp)

theorem Inv.begin (h : Inv opts s) (hs : s.step opts .begin = some s') : Inv opts s' := by
  unfold step at hs
  simp only at hs
  split at hs
  · rename_i dr attempts hphase
    have hbefore : s.phase.pending = none := by rw [hphase]; rfl
    split at hs
    · obtain rfl := Option.some_inj.mp hs
      exact h.idle hbefore
    · obtain ⟨e', he, rfl⟩ := Option.map_eq_some_iff.mp hs
      obtain ⟨recs, hnew⟩ := commits_of_step h.engine h.traced he trivial fun n orphan => by simp
      have hinv' := inv_step h.engine he
      have ht' := traced_step h.engine h.traced he trivial
      obtain rfl := Option.some_inj.mp he
      obtain rfl : recs = [] :=
        List.append_cancel_left (hnew.log.symm.trans (List.append_nil _).symm)
      exact h.still hinv' ht' hnew (fun _ heq => absurd heq (by simp))
        (fun dr' hdr' => by rw [hphase]; exact hdr')
        (h.drains.trans (by rw [hbefore]; rfl)) fun _ _ _ heq => absurd heq (by simp)
  · exact absurd hs (by simp)

/-- A commit that is given up is withdrawn. -/
theorem Inv.withdraw (h : Inv opts s) {attempts : ℕ} {q : QueuedEntry}
    (hphase : s.phase = .queued dr attempts q) {e' : Engine}
    (hs : s.engine.step opts.toOptions
      (.withdraw (s.engine.queue.findIdx fun q => decide q.Drains)) = some e') :
    Inv opts { s with engine := e', phase := .idle } := by
  obtain ⟨recs, hnew⟩ := commits_of_step h.engine h.traced hs trivial fun n orphan => by simp
  have hinv' := inv_step h.engine hs
  have ht' := traced_step h.engine h.traced hs trivial
  obtain ⟨q', -, rfl⟩ := Option.map_eq_some_iff.mp hs
  obtain rfl : recs = [] := List.append_cancel_left (hnew.log.symm.trans (List.append_nil _).symm)
  refine h.still hinv' ht' hnew (fun _ heq => absurd heq (by simp))
    (fun _ hdr => absurd hdr (by simp [RunnerPhase.drain?])) ?_
    fun _ _ _ heq => absurd heq (by simp)
  refine (TriggerAdmin.filter_eraseIdx_findIdx _ _).trans ?_
  have hdrains : s.engine.drains = [q] := by rw [h.drains, hphase]; rfl
  exact congrArg List.tail hdrains

theorem Inv.fail (h : Inv opts s) (hs : s.step opts .fail = some s') : Inv opts s' := by
  unfold step at hs
  simp only at hs
  split at hs
  · exact absurd hs (by simp)
  · rename_i hphase
    obtain rfl := Option.some_inj.mp hs
    exact h.idle (by rw [hphase]; rfl)
  · rename_i hphase
    obtain rfl := Option.some_inj.mp hs
    exact h.idle (by rw [hphase]; rfl)
  · rename_i hphase
    obtain rfl := Option.some_inj.mp hs
    exact h.idle (by rw [hphase]; rfl)
  · rename_i hphase
    obtain ⟨e', he, rfl⟩ := Option.map_eq_some_iff.mp hs
    exact h.withdraw hphase he

/-- **An open** forgets what was not recovered, and nothing else. -/
theorem Inv.reopen (h : Inv opts s) {n orphan : ℕ} (hs : s.step opts (.reopen n orphan) = some s') :
    Inv opts s' := by
  obtain ⟨e', he, rfl⟩ := Option.map_eq_some_iff.mp hs
  have hr : s.engine.reopen opts.toOptions n orphan = some e' := he
  have hinv' := inv_step h.engine he
  have hlog := reopen_log h.engine hr
  have hqueue : e'.queue = [] := by
    obtain ⟨db', -, rfl⟩ := Option.map_eq_some_iff.mp hr
    rfl
  refine ⟨hinv', traced_step h.engine h.traced he trivial, fun _ heq => absurd heq (by simp),
    fun _ hdr => absurd hdr (by simp [RunnerPhase.drain?]), congrArg (List.filter _) hqueue,
    fun _ _ _ heq => absurd heq (by simp), fun dc hdc => ?_, h.ordered.filter _,
      fun c hc hcd => ?_, fun ch => ?_⟩
  · obtain ⟨hdc, hle⟩ := List.mem_filter.mp hdc
    exact (h.settled dc hdc).reopen h.engine hr (of_decide_eq_true hle)
  · obtain ⟨hc, hle⟩ := List.mem_filter.mp (hlog ▸ hc)
    obtain ⟨dc, hdc, hbase, hdel⟩ := h.complete c hc hcd
    refine ⟨dc, List.mem_filter.mpr ⟨hdc, ?_⟩, hbase, hdel⟩
    rw [hbase]
    exact hle
  · show ch ∈ s.changes.filter _ ↔ byte 0 ∉ ch.name ∧ Captured opts.toOptions e'.log ch.name
      (ch.op, ch.seq)
    rw [List.mem_filter, decide_eq_true_iff, h.changes]
    constructor
    · rintro ⟨⟨hplain, hcap⟩, hle⟩
      refine ⟨hplain, hcap.mono fun c hc hmem => hlog ▸ List.mem_filter.mpr ⟨hc, decide_eq_true ?_⟩⟩
      exact le_trans (List.mk_mem_zipIdx_iff_le_and_getElem?_sub.mp hmem).1 hle
    · rintro ⟨hplain, hcap⟩
      exact ⟨⟨hplain, hcap.mono fun c hc _ => List.mem_of_mem_filter (hlog ▸ hc)⟩,
        hinv'.captured_le hcap⟩

/-- **One step** keeps it. -/
theorem Inv.step (h : Inv opts s) {a : RunnerAction} (hs : s.step opts a = some s') :
    Inv opts s' := by
  cases a with
  | engine a =>
    obtain ⟨⟨hforeign, hkeep⟩, hs⟩ := Option.ite_none_right_eq_some.mp hs
    obtain ⟨e', he, rfl⟩ := Option.map_eq_some_iff.mp hs
    exact h.other hforeign hkeep he
  | lookup name => exact h.lookup hs
  | pack => exact h.pack hs
  | begin => exact h.begin hs
  | commit writes locks => exact h.commit hs
  | fail => exact h.fail hs
  | reopen n orphan => exact h.reopen hs

theorem inv_of_reachable (h : (triggerRunner opts).Reachable s) : Inv opts s :=
  h.invariant (inv_init opts) fun hi _ hs => hi.step hs

/-! ### Exactly once -/

/-- A committed drain took the change. -/
def Drained (s : TriggerRunner) (ch : ChangeRec) : Prop :=
  ∃ dc ∈ s.drained, ch.key ∈ dc.drain.consume

/-- A clean-up deleted its record. -/
def Cleared (s : TriggerRunner) (ch : ChangeRec) : Prop :=
  ∃ c ∈ s.engine.log, c.validate = none ∧ .delete ch.key ∈ c.ops

/-- The changes that a drain consumed, in the order of its input. -/
structure Given (opts : WasmOptions) (s : TriggerRunner) (dr : Drain) (chs : List ChangeRec) :
    Prop where
  recorded : ∀ ch ∈ chs, ch ∈ s.changes ∧ ch.name = dr.d.name
  consumed : dr.consume = chs.map ChangeRec.key
  ascending : chs.Pairwise fun a b => a.seq < b.seq
  /-- What the guest parses; a count, a key and a value fit their length fields. -/
  parsed : ∀ bits, 32 ≤ bits → dr.input.length < 2 ^ 32 → (∀ ch ∈ chs, ch.op.key.length < 2 ^ 64) →
    (parseChanges bits dr.input).run = .ok (some (chs.map (ChangeRec.change opts.toOptions)))

/-- **What holds of the changes** that were committed, and of the drains that were. -/
structure ExactlyOnce (opts : WasmOptions) (s : TriggerRunner) : Prop where
  /-- A change is in the queue, with its record, until a drain or a clean-up takes it. -/
  kept : ∀ ch ∈ s.changes,
    s.engine.db.getAtSeq ch.key s.engine.db.visibleSeqno = .ok (some (ch.record opts.toOptions)) ∧
        ¬ s.Drained ch ∧ ¬ s.Cleared ch ∨
      s.engine.db.getAtSeq ch.key s.engine.db.visibleSeqno = .ok none ∧
      (s.Drained ch ∨ s.Cleared ch)
  /-- No two drains take it. -/
  once : ∀ ch ∈ s.changes, ∀ a ∈ s.drained, ∀ b ∈ s.drained, ch.key ∈ a.drain.consume →
    ch.key ∈ b.drain.consume → a = b
  /-- The drains of a trigger take its changes in commit order, -/
  ordered : s.drained.Pairwise fun a b => a.base < b.base ∧ ∀ ch ∈ s.changes, ∀ ch' ∈ s.changes,
    ch.name = ch'.name → ch.key ∈ a.drain.consume → ch'.key ∈ b.drain.consume → ch.seq < ch'.seq
  /-- and leave none out that a clean-up has not taken. -/
  whole : ∀ dc ∈ s.drained, ∀ ch ∈ s.changes, ∀ ch' ∈ s.changes, ch.name = ch'.name →
    ch.seq < ch'.seq → ch'.key ∈ dc.drain.consume →
    (∃ dc' ∈ s.drained, dc'.base ≤ dc.base ∧ ch.key ∈ dc'.drain.consume) ∨ s.Cleared ch
  /-- The guest got what was taken. -/
  given : ∀ dc ∈ s.drained, dc.drain.d.mode = .changes → ∃ chs, Given opts s dc.drain chs
  /-- One commit deletes what was taken and has the module's writes, and raises no event. -/
  atomic : ∀ dc ∈ s.drained, ∃ c ∈ s.engine.log, c.base = dc.base ∧ c.events = [] ∧
    ∃ writes, c.ops = dc.drain.consume.map BatchOp.delete ++ writes ∧ ∀ op ∈ writes,
      ValidUserKey op.key

namespace Inv

/-- A recorded change has a change key. -/
theorem isChangeKey (h : Inv opts s) {ch : ChangeRec} (hch : ch ∈ s.changes) :
    IsChangeKey ch.name ch.seq ch.key := by
  obtain ⟨hplain, hcap⟩ := (h.changes ch).mp hch
  exact isChangeKey_self hplain
    (le_trans (h.engine.captured_le hcap) (le_of_lt h.engine.consistent.wf.visible_lt))

/-- It is taken by drains of its own trigger. -/
theorem name_of_mem (h : Inv opts s) {ch : ChangeRec} (hch : ch ∈ s.changes) {dc : DrainCommit}
    (hdc : dc ∈ s.drained) (hmem : ch.key ∈ dc.drain.consume) : dc.drain.d.name = ch.name := by
  have hset := h.settled dc hdc
  obtain ⟨ukey, heq⟩ := queuePrefix_isPrefix_iff.mp (hset.own _ hmem)
  exact (name_split hset.plain (h.isChangeKey hch).plain (List.append_cancel_left heq.symm)).1

/-- What is deleted under a change key is deleted by a drain or by a clean-up. -/
theorem taken (h : Inv opts s) {ch : ChangeRec} (hch : ch ∈ s.changes) {c : CommitRec}
    (hc : c ∈ s.engine.log) (hdel : .delete ch.key ∈ c.fullOps) :
    (∃ dc ∈ s.drained, dc.base = c.base ∧ ch.key ∈ dc.drain.consume) ∨ c.validate = none ∧
      .delete ch.key ∈ c.ops := by
  have hqueue := (h.isChangeKey hch).queue
  rcases List.mem_append.mp hdel with hdel | hev
  · cases hvalidate : c.validate with
    | none => exact Or.inr ⟨rfl, hdel⟩
    | some v =>
      obtain ⟨dc, hdc, hbase, hmem⟩ := h.complete c hc ⟨by rw [hvalidate]; rfl, _, hdel, hqueue⟩
      exact Or.inl ⟨dc, hdc, hbase, hmem _ hqueue hdel⟩
  · -- events are put
    obtain ⟨d, -, p, -, -, heq⟩ := h.traced.log.events c hc _ hev
    unfold eventOf at heq
    split at heq <;> exact absurd heq (by simp)

theorem deleted_iff (h : Inv opts s) {ch : ChangeRec} (hch : ch ∈ s.changes) :
    Deleted s.engine.log ch.key ↔ s.Drained ch ∨ s.Cleared ch := by
  constructor
  · rintro ⟨c, hc, hdel⟩
    rcases h.taken hch hc hdel with ⟨dc, hdc, -, hmem⟩ | hclear
    · exact Or.inl ⟨dc, hdc, hmem⟩
    · exact Or.inr ⟨c, hc, hclear⟩
  · rintro (⟨dc, hdc, hmem⟩ | ⟨c, hc, -, hdel⟩)
    · obtain ⟨c, hc, -, -, -, writes, hops, -⟩ := (h.settled dc hdc).recorded
      refine ⟨c, hc, List.mem_append_left _ ?_⟩
      rw [hops]
      exact List.mem_append_left _ (List.mem_map_of_mem hmem)
    · exact ⟨c, hc, List.mem_append_left _ hdel⟩

theorem kept (h : Inv opts s) {ch : ChangeRec} (hch : ch ∈ s.changes) :
    s.engine.db.getAtSeq ch.key s.engine.db.visibleSeqno = .ok (some (ch.record opts.toOptions)) ∧
        ¬ s.Drained ch ∧ ¬ s.Cleared ch ∨
      s.engine.db.getAtSeq ch.key s.engine.db.visibleSeqno = .ok none ∧
      (s.Drained ch ∨ s.Cleared ch) := by
  obtain ⟨-, hcap⟩ := (h.changes ch).mp hch
  have hkey := h.isChangeKey hch
  rw [h.engine.getAtSeq_value, ← not_or, ← h.deleted_iff hch]
  by_cases hdel : Deleted s.engine.log ch.key
  · refine Or.inr ⟨?_, hdel⟩
    cases hvalue : s.engine.value ch.key with
    | none => rfl
    | some v => exact absurd hdel ((h.traced.log.value_iff h.engine hkey).mp hvalue).2
  · refine Or.inl ⟨?_, hdel⟩
    rw [(h.traced.log.value_iff h.engine hkey).mpr ⟨⟨ch.op, hcap, rfl⟩, hdel⟩]
    rfl

theorem ascending (h : Inv opts s) :
    s.drained.Pairwise fun a b => a.base < b.base ∧ ∀ ch ∈ s.changes, ∀ ch' ∈ s.changes,
    ch.name = ch'.name → ch.key ∈ a.drain.consume → ch'.key ∈ b.drain.consume →
    ch.seq < ch'.seq := by
  refine h.ordered.imp_of_mem fun {a b} ha hb hab =>
    ⟨hab.1, fun ch hch ch' hch' hname hmem hmem' => ?_⟩
  have hname₁ := h.name_of_mem hch ha hmem
  have hname₂ := h.name_of_mem hch' hb hmem'
  have hkey := h.isChangeKey hch
  have hkey' := h.isChangeKey hch'
  rw [← hname₁] at hkey
  rw [← hname₂] at hkey'
  exact hab.2 (hname₁.trans (hname.trans hname₂.symm)) _ _ _ _ hkey hkey' hmem hmem'

theorem once (h : Inv opts s) {ch : ChangeRec} (hch : ch ∈ s.changes) {a b : DrainCommit}
    (ha : a ∈ s.drained)
    (hb : b ∈ s.drained) (hmem : ch.key ∈ a.drain.consume) (hmem' : ch.key ∈ b.drain.consume) :
    a = b := by
  refine List.Pairwise.forall_of_forall_of_flip
    (R := fun x y => ch.key ∈ x.drain.consume → ch.key ∈ y.drain.consume → x = y)
    (fun _ _ _ _ => rfl) ?_ ?_ ha hb hmem hmem'
  · exact h.ascending.imp fun hxy hx hy => absurd (hxy.2 ch hch ch hch rfl hx hy) (lt_irrefl _)
  · exact h.ascending.imp fun hxy hy hx => absurd (hxy.2 ch hch ch hch rfl hx hy) (lt_irrefl _)

theorem whole (h : Inv opts s) {dc : DrainCommit} (hdc : dc ∈ s.drained) {ch ch' : ChangeRec}
    (hch : ch ∈ s.changes)
    (hch' : ch' ∈ s.changes) (hname : ch.name = ch'.name) (hlt : ch.seq < ch'.seq)
    (hmem : ch'.key ∈ dc.drain.consume) :
    (∃ dc' ∈ s.drained, dc'.base ≤ dc.base ∧ ch.key ∈ dc'.drain.consume) ∨ s.Cleared ch := by
  have hown := h.name_of_mem hch' hdc hmem
  have hkey := h.isChangeKey hch
  have hkey' := h.isChangeKey hch'
  obtain ⟨-, hcap⟩ := (h.changes ch).mp hch
  rw [hname, ← hown] at hkey hcap
  rw [← hown] at hkey'
  obtain ⟨c, hc, hle, hdel⟩ := (h.settled dc hdc).whole _ _ _ _ _ hkey hkey' hmem hlt hcap
  rcases h.taken hch hc hdel with ⟨dc', hdc', hbase, hmem'⟩ | hclear
  · exact Or.inl ⟨dc', hdc', by omega, hmem'⟩
  · exact Or.inr ⟨c, hc, hclear⟩

theorem given (h : Inv opts s) {dc : DrainCommit} (hdc : dc ∈ s.drained)
    (hmode : dc.drain.d.mode = .changes) :
    ∃ chs, Given opts s dc.drain chs := by
  have hset := h.settled dc hdc
  obtain ⟨cs, hcs, hconsume, hparse⟩ := hset.carries hmode
  have hmap : (cs.map fun p => (⟨dc.drain.d.name, p.1, p.2⟩ : ChangeRec)).map ChangeRec.key =
      dc.drain.consume := by
    rw [List.map_map]
    exact hconsume.symm
  refine ⟨cs.map fun p => ⟨dc.drain.d.name, p.1, p.2⟩, fun ch hch => ?_, hmap.symm, ?_,
    fun bits hbits hinput hlen => ?_⟩
  · obtain ⟨p, hp, rfl⟩ := List.mem_map.mp hch
    exact ⟨(h.changes _).mpr ⟨hset.plain, hcs p hp⟩, rfl⟩
  · -- the keys are sorted as the seqnos are
    have hsorted := hset.sorted
    rw [hconsume, List.pairwise_map] at hsorted
    rw [List.pairwise_map]
    refine hsorted.imp_of_mem fun {p q} hp hq hlt => ?_
    have hmax : MAX_SEQNO < 2 ^ 64 := by unfold MAX_SEQNO; omega
    have hseq : ∀ p ∈ cs, p.2 < 2 ^ 64 := fun p hp => lt_of_le_of_lt
      (le_trans (h.engine.captured_le (hcs p hp)) (le_of_lt h.engine.consistent.wf.visible_lt)) hmax
    exact (sysTriggerChangeKey_lt_iff (hseq p hp) (hseq q hq)).mp hlt
  · rw [List.map_map]
    exact hparse bits hbits hinput fun p hp => hlen _ (List.mem_map_of_mem hp)

end Inv

/-- **Changes are delivered exactly once, and in order**: whatever the other threads, the
committer and a trigger's administration do between the runner's steps, and wherever the
engine is reopened. -/
theorem changes_exactly_once (h : (triggerRunner opts).Reachable s) : s.ExactlyOnce opts := by
  have hinv := inv_of_reachable h
  refine ⟨fun ch hch => hinv.kept hch, fun ch hch a ha b hb => hinv.once hch ha hb, hinv.ascending,
    fun dc hdc ch hch ch' hch' => hinv.whole hdc hch hch', fun dc hdc => hinv.given hdc,
      fun dc hdc => ?_⟩
  obtain ⟨c, hc, hbase, -, hevents, hops⟩ := (hinv.settled dc hdc).recorded
  exact ⟨c, hc, hbase, hevents, hops⟩

/-! ### A drain and a new change -/

/-- A changes-mode trigger on all user keys. -/
def changeTrigger : TriggerDef := ⟨[byte 116], [byte 109], [], [], .changes⟩

def queuedOptions : WasmOptions := { WasmOptions.default plainFormat with sync := .always }

/-- A write before the drain takes its snapshot, and one in the group of its commit. -/
def drainRun : List RunnerAction :=
  let write (v : ℕ) : Submission := .batch [.put [byte 107] [byte v]]
  [.engine (.enqueue (.define changeTrigger)), .engine (.group 1),
    .engine (.createTrigger changeTrigger),
    .engine (.enqueue (write 1)), .engine (.group 1), .lookup changeTrigger.name, .pack, .begin,
    .engine (.enqueue (write 2)), .commit [.put [byte 108] [byte 1]] [], .engine (.group 2)]

theorem changes_exactly_once_drainRun :
    ∃ s : TriggerRunner, s.drained.length = 1 ∧ s.changes.length = 2 ∧
    s.ExactlyOnce queuedOptions := by
  have hrun : (((triggerRunner queuedOptions).run drainRun (triggerRunner queuedOptions).init).any
      fun s =>
      decide (s.drained.length = 1 ∧ s.changes.length = 2)) = true := by decide +kernel
  obtain ⟨s, hreach, hdrained, hchanges⟩ := System.exists_reachable hrun
  exact ⟨s, hdrained, hchanges, changes_exactly_once hreach⟩

end TriggerRunner

end Fluent31
