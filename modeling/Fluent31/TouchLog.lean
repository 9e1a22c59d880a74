/-
Touched keys over runs (`trigger.rs`, `db.rs`).

A touch in the range of a registered keys-mode trigger writes the trigger's event under
the key.  Later touches of the key write it again, so a drain that deletes it answers for
all touches up to its snapshot, and for no other.  Whether it does rests on validation,
which for a group sees the ops of earlier entries but not their events: `Engine.Unraced`
of `FirstCommitter.lean`.

* `Engine.Touched` — every touch has its event in the log;
* `touched_step` — every step keeps it;
* `touches_kept` — the event of a touch is in the queue until a commit deletes it, and a
  transaction that does has seen the touch.
-/
import Fluent31.ChangeLog
import Fluent31.FirstCommitter

namespace Fluent31

open Mvcc

variable {opts : Options} {e e' : Engine}

/-- The queue key of a touch. -/
def Touch.eventKey (t : Touch) : Bytes := sysTriggerEventKey t.name t.key

/-! ### The order of the log -/

/-- A key that was written and is not there was deleted at or after the write. -/
theorem replay_eq_none {ops : List (BatchOp × ℕ)} (hpair : ops.Pairwise fun a b => a.2 < b.2)
    {p : BatchOp × ℕ} {s : ℕ} (hp : p ∈ ops) (hs : p.2 ≤ s) (h : replay ops s p.1.key = none) :
    ∃ q ∈ ops, q.1 = .delete p.1.key ∧ p.2 ≤ q.2 := by
  induction ops using List.reverseRecOn with
  | nil => exact absurd hp List.not_mem_nil
  | append_singleton ops x ih =>
    obtain ⟨hops, -, hlast⟩ := List.pairwise_append.mp hpair
    have hmem : x ∈ ops ++ [x] := List.mem_append_right _ (List.mem_singleton_self x)
    rw [replay_concat] at h
    by_cases hx : x.2 ≤ s ∧ p.1.key = x.1.key
    · -- the last op on the key
      rw [if_pos hx.1, applyOp, if_pos hx.2] at h
      refine ⟨x, hmem, ?_, ?_⟩
      · cases hop : x.1 with
        | put key value =>
          rw [hop] at h
          exact absurd h (by simp [BatchOp.value?])
        | delete key => rw [hx.2, hop]; rfl
      · rcases List.mem_append.mp hp with hp | hp
        · exact le_of_lt (hlast p hp x (List.mem_singleton_self x))
        · exact (List.mem_singleton.mp hp) ▸ le_rfl
    · have hrest : replay ops s p.1.key = none := by
        split at h
        · rename_i hle
          rwa [applyOp, if_neg fun hk => hx ⟨hle, hk⟩] at h
        · exact h
      rcases List.mem_append.mp hp with hp | hp
      · obtain ⟨q, hq, hdel, hle⟩ := ih hops hp hrest
        exact ⟨q, List.mem_append_left _ hq, hdel, hle⟩
      · obtain rfl := List.mem_singleton.mp hp
        exact absurd ⟨hs, rfl⟩ hx

theorem Contiguous.pairwise_end {n m : ℕ} {xs : List (ℕ × List EncEntry)} (h : Contiguous n xs m) :
    xs.Pairwise fun a b => a.1 + a.2.length ≤ b.1 := by
  induction xs generalizing n with
  | nil => exact List.Pairwise.nil
  | cons r xs ih =>
    obtain ⟨base, es⟩ := r
    obtain ⟨rfl, -, hrest⟩ := h
    refine List.pairwise_cons.mpr ⟨fun b hb => ?_, ih hrest⟩
    obtain ⟨base', es'⟩ := b
    exact (hrest.mem hb).1

/-- The ops of a commit come before or after those of another. -/
theorem Engine.Inv.commits_apart (h : e.Inv) {c c' : CommitRec} (hc : c ∈ e.log)
    (hc' : c' ∈ e.log) :
    c = c' ∨ (∀ p ∈ c.numbered, p.2 < c'.base) ∨ ∀ p ∈ c'.numbered, p.2 < c.base := by
  have hend : ∀ {c}, c ∈ e.log → ∀ p ∈ c.numbered, p.2 < c.base + c.entries.length := by
    intro c hc p hp
    obtain ⟨op, n⟩ := p
    obtain ⟨hle, hop⟩ := List.mk_mem_zipIdx_iff_le_and_getElem?_sub.mp hp
    have hlen := (h.consistent.encodes c hc).length_eq
    have hlt := (List.getElem?_eq_some_iff.mp hop).1
    show n < _
    omega
  have hpair := List.pairwise_map.mp h.consistent.contiguous.pairwise_end
  refine List.Pairwise.forall_of_forall_of_flip (R := fun c c' => c ∈ e.log → c' ∈ e.log → c = c' ∨
    (∀ p ∈ c.numbered, p.2 < c'.base) ∨ ∀ p ∈ c'.numbered,
      p.2 < c.base) (fun _ _ _ _ => Or.inl rfl) ?_ ?_ hc hc' hc hc'
  · exact hpair.imp fun hle hc _ => Or.inr (Or.inl fun p hp => lt_of_lt_of_le (hend hc p hp) hle)
  · exact hpair.imp fun hle _ hc => Or.inr (Or.inr fun p hp => lt_of_lt_of_le (hend hc p hp) hle)

/-! ### Touches and their events -/

/-- Every touch has its event in the log; where definitions are, triggers are on. -/
structure Engine.Touched (opts : Options) (e : Engine) : Prop where
  defs : ∀ d ∈ e.db.defs, opts.wasmEnabled = true
  records : ∀ c ∈ e.log, ∀ key value, .put key value ∈ c.fullOps → DEF_PREFIX <+: key →
    opts.wasmEnabled = true
  queue : ∀ q ∈ e.queue, ∀ key value, .put key value ∈ q.ops → DEF_PREFIX <+: key →
    opts.wasmEnabled = true
  events : ∀ c ∈ e.log, ∀ ev ∈ c.events, ev.kind = .put
  touches : ∀ t ∈ e.touches, ∃ c ∈ e.log,
    (∃ op, (op, t.seq) ∈ c.ops.zipIdx c.base ∧ op.key = t.key) ∧ .put t.eventKey [] ∈ c.events

/-- Only a creation puts a definition record. -/
theorem Submission.enabled {sub : Submission} (h : sub.Allowed opts e) {key value : Bytes}
    (hput : .put key value ∈ sub.entry.ops) (hdef : DEF_PREFIX <+: key) :
    opts.wasmEnabled = true := by
  have hvalid : ¬ ValidUserKey key := fun hvalid => not_defPrefix_of_valid hvalid hdef
  cases sub with
  | batch ops => exact absurd (h.2 _ hput).1 hvalid
  | txn snap writes locks => exact absurd (h.2 _ hput) hvalid
  | drain snap consume writes locks =>
    rcases List.mem_append.mp hput with hput | hput
    · obtain ⟨k, -, heq⟩ := List.mem_map.mp hput
      exact absurd heq (by simp)
    · exact absurd (h.2.2 _ hput) hvalid
  | system ops => exact absurd hdef (h.2 _ hput).2.2
  | define d => exact h.1.1
  | undefine name => exact absurd (List.mem_singleton.mp hput) (by simp)
  | clear name keys =>
    obtain ⟨k, -, heq⟩ := List.mem_map.mp hput
    exact absurd heq (by simp)

theorem Supplied.enabled {q : QueuedEntry} (h : Supplied opts e q) (hinv : e.Inv)
    (ht : e.Touched opts) {key value : Bytes}
    (hput : .put key value ∈ q.ops) (hdef : DEF_PREFIX <+: key) : opts.wasmEnabled = true := by
  cases h with
  | queued hq => exact ht.queue q hq key value hput hdef
  | submitted hallowed => exact Submission.enabled hallowed hput hdef
  | @relocated records hrecords =>
    -- a relocation puts what is there
    obtain ⟨-, hvalue⟩ := relocationOps_same hinv hrecords hput le_rfl
    obtain ⟨c, hc, hput'⟩ := hinv.put_of_value hvalue.symm
    exact ht.records c hc key value hput' hdef

/-- A recorded touch is an op of its commit, for a registered trigger. -/
theorem mem_touchesOf {defs : List TriggerDef} {c : CommitRec} {t : Touch}
    (h : t ∈ touchesOf defs c) :
    c.capture = true ∧ ∃ op, (op, t.seq) ∈ c.ops.zipIdx c.base ∧ isSysKey op.key = false ∧
      op.key = t.key ∧ ∃ d ∈ defs, d.mode = .keys ∧ d.Matches op.key ∧ d.name = t.name := by
  unfold touchesOf at h
  split at h
  · rename_i hcapture
    obtain ⟨p, hp, h⟩ := List.mem_flatMap.mp h
    split at h
    · exact absurd h List.not_mem_nil
    · rename_i huser
      obtain ⟨d, hd, rfl⟩ := List.mem_map.mp h
      obtain ⟨hd, hcond⟩ := List.mem_filter.mp hd
      rw [Bool.and_eq_true, decide_eq_true_eq, decide_eq_true_eq] at hcond
      exact ⟨hcapture, p.1, hp, by simpa using huser, rfl, d, hd, hcond.1, hcond.2, rfl⟩
  · exact absurd h List.not_mem_nil

/-- **A step's commits** write the events of their touches. -/
theorem Engine.Touched.commits (ht : e.Touched opts) (hinv : e.Inv) {a : Action}
    {recs : List CommitRec} (hnew : NewCommits opts e a recs) (hlog : e'.log = e.log ++ recs)
    (hqueue : e'.queue.Sublist e.queue)
    (hdefs : e'.db.defs = e.db.defs)
    (htouches : e'.touches = e.touches ++ recs.flatMap (touchesOf e.db.defs)) :
    e'.Touched opts where
  defs := hdefs ▸ ht.defs
  records c hc key value hput hdef := by
    rw [hlog] at hc
    rcases List.mem_append.mp hc with hc | hc
    · exact ht.records c hc key value hput hdef
    · obtain ⟨q, hq, -, hops, -, -, hevents⟩ := hnew.origin c hc
      rcases List.mem_append.mp hput with hput | hev
      · exact hq.enabled hinv ht (hops ▸ hput) hdef
      · rw [hevents, Db.captureEvents] at hev
        split at hev
        · exact absurd hdef (not_defPrefix_of_queue (queue_of_mem_captureOps hev).1)
        · exact absurd hev List.not_mem_nil
  queue q hq := ht.queue q (hqueue.subset hq)
  events c hc ev hev := by
    rw [hlog] at hc
    rcases List.mem_append.mp hc with hc | hc
    · exact ht.events c hc ev hev
    · obtain ⟨q, -, -, -, -, -, hevents⟩ := hnew.origin c hc
      rw [hevents, Db.captureEvents] at hev
      split at hev
      · exact (queue_of_mem_captureOps hev).2
      · exact absurd hev List.not_mem_nil
  touches t hmem := by
    rw [htouches] at hmem
    rw [hlog]
    rcases List.mem_append.mp hmem with hmem | hmem
    · obtain ⟨c, hc, hrest⟩ := ht.touches t hmem
      exact ⟨c, List.mem_append_left _ hc, hrest⟩
    · obtain ⟨c, hc, hmem⟩ := List.mem_flatMap.mp hmem
      obtain ⟨hcapture, op, hop, huser, hkey, d, hd, hmode, hmatch, hname⟩ := mem_touchesOf hmem
      obtain ⟨q, -, -, hops, -, hcap, hevents⟩ := hnew.origin c hc
      refine ⟨c, List.mem_append_right _ hc, ⟨op, hop, hkey⟩, ?_⟩
      rw [hevents, Db.captureEvents, ← hcap, hcapture, ht.defs d hd, ← hops, Touch.eventKey,
        ← hname, ← hkey]
      exact mem_captureOps_keys (List.fst_mem_of_mem_zipIdx hop) huser hd hmode hmatch

/-- **Every step** keeps it. -/
theorem touched_step (hinv : e.Inv) (ht : e.Touched opts) {a : Action}
    (hs : e.step opts a = some e') : e'.Touched opts := by
  cases step_cases hinv hs with
  | commits hnew hlog hqueue hdefs _ htouches =>
    exact ht.commits hinv hnew hlog hqueue hdefs htouches
  | @reopen n orphan hr =>
    have hlog := reopen_log hinv hr
    have hinv' := hinv.reopened hr
    have hold : ∀ c ∈ e'.log, c ∈ e.log := fun c hc => List.mem_of_mem_filter (hlog ▸ hc)
    have hframe : e'.queue = [] ∧ e'.touches = e.touches.filter fun t =>
        decide (t.seq ≤ e'.db.visibleSeqno) := by
      obtain ⟨db', hdb, rfl⟩ := Option.map_eq_some_iff.mp hr
      obtain ⟨-, next, run?, hre⟩ := hinv.consistent.reopen hdb
      refine ⟨rfl, ?_⟩
      show e.touches.filter _ = e.touches.filter fun t => decide (t.seq ≤ db'.visibleSeqno)
      rw [hre.visible]
    refine ⟨fun d hd => ?_, fun c hc => ht.records c (hold c hc), fun q hq => ?_, fun c hc =>
      ht.events c (hold c hc), fun t hmem => ?_⟩
    · -- the registry is read from the records
      obtain ⟨k, hk, hdec⟩ := (mem_defs_reopen hinv hr d).mp hd
      obtain ⟨v, hv, -⟩ := Option.bind_eq_some_iff.mp hdec
      obtain ⟨c, hc, hput⟩ := hinv'.put_of_value hv
      exact ht.records c (hold c hc) k v hput ((mem_liveKeys_iff hinv').mp hk).1
    · exact absurd (hframe.1 ▸ hq) List.not_mem_nil
    · rw [hframe.2] at hmem
      obtain ⟨hmem, hle⟩ := List.mem_filter.mp hmem
      obtain ⟨c, hc, ⟨op, hop, hkey⟩, hev⟩ := ht.touches t hmem
      have hbase := (List.mk_mem_zipIdx_iff_le_and_getElem?_sub.mp hop).1
      refine ⟨c, hlog ▸ List.mem_filter.mpr ⟨hc, decide_eq_true ?_⟩, ⟨op, hop, hkey⟩, hev⟩
      exact le_trans hbase (of_decide_eq_true hle)
  | @enqueue sub hallowed hqueue hlog hdb _ htouches =>
    refine ⟨hdb ▸ ht.defs, hlog ▸ ht.records,
      fun q hq key value hput hdef => ?_, hlog ▸ ht.events, ?_⟩
    · rw [hqueue] at hq
      rcases List.mem_append.mp hq with hq | hq
      · exact ht.queue q hq key value hput hdef
      · rw [List.mem_singleton.mp hq] at hput
        exact Submission.enabled hallowed hput hdef
    · rw [hlog, htouches]
      exact ht.touches
  | @createTrigger d haccepted _ _ _ _ heq =>
    subst heq
    exact ⟨fun _ _ => haccepted.1, ht.records, ht.queue, ht.events, ht.touches⟩
  | deleteTrigger _ _ heq =>
    subst heq
    exact ⟨fun d hd => ht.defs d (List.mem_of_mem_filter hd), ht.records, ht.queue, ht.events,
      fun t hmem => ht.touches t (List.mem_of_mem_filter hmem)⟩
  | deleteDone _ heq =>
    subst heq
    exact ⟨ht.defs, ht.records, ht.queue, ht.events, ht.touches⟩
  | quiet hq =>
    refine ⟨hq.defs ▸ ht.defs, hq.log ▸ ht.records, fun q hmem => ht.queue q (hq.queue.subset hmem),
      hq.log ▸ ht.events, ?_⟩
    rw [hq.log, hq.touches]
    exact ht.touches

theorem touched_of_reachable (h : (engine opts).Reachable e) : e.Touched opts :=
  h.invariant_of_reachable
    ⟨fun _ hd => absurd hd List.not_mem_nil, fun _ hc => absurd hc List.not_mem_nil,
    fun _ hq => absurd hq List.not_mem_nil, fun _ hc => absurd hc List.not_mem_nil,
    fun _ ht => absurd ht List.not_mem_nil⟩ fun hreach ht _ hs =>
      touched_step (inv_of_reachable hreach) ht hs

/-! ### Who deletes an event -/

/-- The events of a commit follow its ops. -/
theorem mem_numbered_of_events {c : CommitRec} {ev : BatchOp} (h : ev ∈ c.events) :
    ∃ m, c.base + c.ops.length ≤ m ∧ (ev, m) ∈ c.numbered := by
  obtain ⟨i, hi⟩ := List.getElem?_of_mem h
  refine ⟨c.base + (c.ops.length + i), by omega,
    List.mk_mem_zipIdx_iff_le_and_getElem?_sub.mpr ⟨Nat.le_add_right _ _, ?_⟩⟩
  rw [Nat.add_sub_cancel_left, CommitRec.fullOps, List.getElem?_append_right (Nat.le_add_right _ _),
    Nat.add_sub_cancel_left]
  exact hi

theorem mem_events_of_numbered {c : CommitRec} {op : BatchOp} {n : ℕ} (h : (op, n) ∈ c.numbered)
    (hn : c.base + c.ops.length ≤ n) : op ∈ c.events := by
  obtain ⟨-, hget⟩ := List.mk_mem_zipIdx_iff_le_and_getElem?_sub.mp h
  rw [CommitRec.fullOps, List.getElem?_append_right (by omega)] at hget
  exact List.mem_of_getElem? hget

/-- A touch and its event, in their commit. -/
theorem Engine.Touched.event (h : e.Touched opts) {t : Touch} (ht : t ∈ e.touches) :
    ∃ c ∈ e.log, c.base ≤ t.seq ∧ t.seq < c.base + c.ops.length ∧
      ∃ m, c.base + c.ops.length ≤ m ∧ (.put t.eventKey [], m) ∈ c.numbered := by
  obtain ⟨c, hc, ⟨op, hop, -⟩, hev⟩ := h.touches t ht
  obtain ⟨hle, hget⟩ := List.mk_mem_zipIdx_iff_le_and_getElem?_sub.mp hop
  have hlt := (List.getElem?_eq_some_iff.mp hget).1
  exact ⟨c, hc, hle, by omega, mem_numbered_of_events hev⟩

/-- **The event of a touch** is there, or a later commit has deleted it. -/
theorem Engine.Touched.kept (h : e.Touched opts) (hinv : e.Inv) {t : Touch} (ht : t ∈ e.touches) :
    (∃ v, e.value t.eventKey = some v) ∨ ∃ c ∈ e.log, t.seq < c.base ∧
      .delete t.eventKey ∈ c.ops := by
  obtain ⟨c, hc, hbase, hlt, m, hm, hmem⟩ := h.event ht
  cases hvalue : e.value t.eventKey with
  | some v => exact Or.inl ⟨v, rfl⟩
  | none =>
    obtain ⟨q, hq, hdel, hle⟩ :=
      replay_eq_none (pairwise_numbered hinv.consistent.encodes hinv.consistent.contiguous)
      (List.mem_flatMap.mpr ⟨c, hc, hmem⟩) (hinv.numbered_le hc hmem) hvalue
    obtain ⟨c', hc', hq⟩ := List.mem_flatMap.mp hq
    obtain ⟨op, n⟩ := q
    obtain rfl : op = .delete t.eventKey := hdel
    change m ≤ n at hle
    -- events are put
    have hput : ∀ {c}, c ∈ e.log → .delete t.eventKey ∉ c.events := fun hc hev =>
      absurd (h.events _ hc _ hev) (by simp [BatchOp.kind])
    refine Or.inr ⟨c', hc', ?_,
      (List.mem_append.mp (List.fst_mem_of_mem_zipIdx hq)).resolve_right (hput hc')⟩
    rcases hinv.commits_apart hc hc' with rfl | hbefore | hafter
    · exact absurd (mem_events_of_numbered hq (le_trans hm hle)) (hput hc)
    · have := hbefore _ hmem
      dsimp only at this
      omega
    · have := hafter _ hq
      dsimp only at this
      omega

/-- **A transaction that deletes it** has seen the touch. -/
theorem Engine.Touched.seen (h : e.Touched opts) (hinv : e.Inv) (hl : e.Lawful) {t : Touch}
    (ht : t ∈ e.touches)
    {c : CommitRec} (hc : c ∈ e.log) (hafter : t.seq < c.base) (hdel : .delete t.eventKey ∈ c.ops)
    {v : ℕ × List Bytes}
    (hv : c.validate = some v) : t.seq ≤ v.1 := by
  by_contra hlt
  obtain ⟨c', hc', hbase, hend, m, hm, hmem⟩ := h.event ht
  -- else the transaction starts inside the commit of the touch
  have hlocked : t.eventKey ∈ v.2 := hl.locks c hc v hv _ hdel
  have hle : c.base ≤ m :=
    hl.law c hc v hv _ (List.mem_flatMap.mpr ⟨c', hc', hmem⟩) hlocked (by show v.1 < m; omega)
  rcases hinv.commits_apart hc' hc with rfl | hbefore | hbehind
  · omega
  · have := hbefore _ hmem
    dsimp only at this
    omega
  · obtain ⟨n, hn⟩ := exists_numbered (List.mem_append_left c.events hdel)
    have := hbehind _ hn
    have hge := (CommitRec.le_of_numbered hn).1
    dsimp only at this hge
    omega

/-- **No touch is lost**, in every run whose groups are unraced: its event is in the queue
until a later commit deletes it, and a transaction that does holds a snapshot at or above
the touch. -/
theorem touches_kept (h : (engine opts).Reaches (fun e a => e.Unraced opts a) e) {t : Touch}
    (ht : t ∈ e.touches) :
    ((∃ v, e.db.getAtSeq t.eventKey e.db.visibleSeqno = .ok (some v)) ∨
      ∃ c ∈ e.log, t.seq < c.base ∧ .delete t.eventKey ∈ c.ops) ∧
    ∀ c ∈ e.log, t.seq < c.base → .delete t.eventKey ∈ c.ops → ∀ v ∈ c.validate, t.seq ≤ v.1 := by
  have hinv := inv_of_reachable h.reachable
  have htouched := touched_of_reachable h.reachable
  refine ⟨?_, fun c hc hafter hdel v hv =>
    htouched.seen hinv (lawful_of_reaches h) ht hc hafter hdel hv⟩
  rcases htouched.kept hinv ht with ⟨v, hv⟩ | hdeleted
  · exact Or.inl ⟨v, by rw [hinv.getAtSeq_value, hv]⟩
  · exact Or.inr hdeleted

/-- A drain commits, and then the key is touched again. -/
theorem touches_kept_drained : ∃ e : Engine, ∃ t ∈ e.touches,
    (∃ c ∈ e.log, t.seq < c.base ∧ .delete t.eventKey ∈ c.ops) ∧
    ∀ c ∈ e.log, t.seq < c.base → .delete t.eventKey ∈ c.ops → ∀ v ∈ c.validate, t.seq ≤ v.1 := by
  have hrun : ((engine (.default plainFormat)).replay
      (fun e a => e.Unraced (.default plainFormat) a) (touchThenDrain ++
        [.withdraw 0, .group 1, .enqueue (.batch [.put [byte 107] [byte 3]]), .group 1])
      (engine (.default plainFormat)).init).any (fun e => decide (∃ t ∈ e.touches,
        ∃ c ∈ e.log, t.seq < c.base ∧ .delete t.eventKey ∈ c.ops)) = true := by decide +kernel
  obtain ⟨e, hreach, t, ht, hdeleted⟩ := System.exists_reaches hrun
  exact ⟨e, t, ht, hdeleted, (touches_kept hreach ht).2⟩

end Fluent31
