/-
First committer wins.

`FirstCommitter log` says that between the snapshot of a committed transaction
and its base seqno nobody else wrote a key of its write set or its
`get_for_update` set.  Validation reads the newest stored version of each key;
compaction may have dropped older ones, but never the newest above a registered
snapshot (`written_of_log`).  Inside a group the committer relies on the op keys
of earlier entries and does not see the trigger events the store adds to them:
`Db.Unraced` says that no accepted entry of a chunk holds one.

* `first_committer_wins` — the law holds in every run whose groups are unraced,
  and an entry that is answered with a conflict leaves no trace;
* `first_committer_loses` — a touch and the drain of its event in one group.
-/
import Fluent31.WalkSpec
import Fluent31.Reads

namespace Fluent31

open Mvcc

variable {opts : Options} {db : Db} {log recs : List CommitRec} {floor : ℕ} {e e' : Engine}
  {q : QueuedEntry} {qs : List QueuedEntry}

/-- A version of a transaction's conflict keys above its snapshot comes from
the transaction itself or from a later commit. -/
def FirstCommitter (log : List CommitRec) : Prop :=
  ∀ c ∈ log, ∀ v ∈ c.validate, ∀ p ∈ log.flatMap CommitRec.numbered,
    p.1.key ∈ v.2 → v.1 < p.2 → c.base ≤ p.2

instance (log : List CommitRec) : Decidable (FirstCommitter log) :=
  inferInstanceAs (Decidable (∀ c ∈ log, ∀ v ∈ c.validate, ∀ p ∈ log.flatMap CommitRec.numbered,
    p.1.key ∈ v.2 → v.1 < p.2 → c.base ≤ p.2))

/-- The conflict keys of a transaction include its write set. -/
def LocksWrites (c : CommitRec) : Prop := ∀ v ∈ c.validate, ∀ op ∈ c.ops, op.key ∈ v.2

theorem CommitRec.le_of_numbered {c : CommitRec} {p : BatchOp × ℕ} (hp : p ∈ c.numbered) :
    c.base ≤ p.2 ∧ p.1 ∈ c.fullOps := by
  obtain ⟨op, n⟩ := p
  obtain ⟨hle, hop⟩ := List.mk_mem_zipIdx_iff_le_and_getElem?_sub.mp hp
  exact ⟨hle, List.mem_of_getElem? hop⟩

theorem FirstCommitter.prefix (h : FirstCommitter (log ++ recs)) : FirstCommitter log := by
  intro c hc v hv p hp
  refine h c (List.mem_append_left _ hc) v hv p ?_
  rw [List.flatMap_append]
  exact List.mem_append_left _ hp

/-- One more commit: old versions above its snapshot hold none of its keys. -/
theorem FirstCommitter.concat (h : FirstCommitter log) {c : CommitRec}
    (hbase : ∀ b ∈ log, b.base ≤ c.base)
    (hold : ∀ v ∈ c.validate, ∀ p ∈ log.flatMap CommitRec.numbered, p.1.key ∈ v.2 → p.2 ≤ v.1) :
    FirstCommitter (log ++ [c]) := by
  intro b hb v hv p hp hk hlt
  rw [List.flatMap_append, List.mem_append, List.flatMap_cons, List.flatMap_nil,
    List.append_nil] at hp
  rcases List.mem_append.mp hb with hb | hb <;> rcases hp with hp | hp
  · exact h b hb v hv p hp hk hlt
  · exact le_trans (hbase b hb) (CommitRec.le_of_numbered hp).1
  · rw [List.mem_singleton.mp hb] at hv
    exact absurd hlt (not_lt_of_ge (hold v hv p hp hk))
  · rw [List.mem_singleton.mp hb]
    exact (CommitRec.le_of_numbered hp).1

/-- **A group's commits**: none holds a key of an old version above its
snapshot, nor a key of one before it in the group. -/
theorem FirstCommitter.append {n m : ℕ} (h : FirstCommitter log)
    (hc : Contiguous n ((log ++ recs).map CommitRec.batch) m)
    (hold : ∀ c ∈ recs, ∀ v ∈ c.validate, ∀ p ∈ log.flatMap CommitRec.numbered,
      p.1.key ∈ v.2 → p.2 ≤ v.1)
    (hnew : recs.Pairwise fun a b => ∀ v ∈ b.validate, ∀ op ∈ a.fullOps, op.key ∉ v.2) :
    FirstCommitter (log ++ recs) := by
  induction recs generalizing log with
  | nil => rwa [List.append_nil]
  | cons c recs ih =>
    obtain ⟨hhead, htail⟩ := List.pairwise_cons.mp hnew
    have hsplit : log ++ c :: recs = (log ++ [c]) ++ recs := by simp
    have hbase : ∀ b ∈ log, b.base ≤ c.base := fun b hb => by
      rw [List.map_append, contiguous_append] at hc
      obtain ⟨k, hk, hrest⟩ := hc
      have hb' : b.base + b.entries.length ≤ k := (hk.mem (List.mem_map_of_mem hb)).2.1
      have hcb : c.base = k := hrest.1
      omega
    rw [hsplit] at hc ⊢
    refine ih (h.concat hbase (hold c List.mem_cons_self)) hc (fun b hb v hv p hp hk => ?_) htail
    rw [List.flatMap_append, List.mem_append, List.flatMap_cons, List.flatMap_nil,
      List.append_nil] at hp
    rcases hp with hp | hp
    · exact hold b (List.mem_cons_of_mem _ hb) v hv p hp hk
    · exact absurd hk (hhead b hb v hv p.1 (CommitRec.le_of_numbered hp).2)

/-! ### Validation over a collected store -/

/-- Compaction keeps the evidence: what the history has above a snapshot at or
above the floor, the store shows. -/
theorem Consistent.written_of_log (h : Consistent db log floor) {snap : ℕ} (hfloor : floor ≤ snap)
    {p : BatchOp × ℕ} (hp : p ∈ log.flatMap CommitRec.numbered) (hlt : snap < p.2) :
    db.WrittenAfter snap p.1.key := by
  obtain ⟨f, hf, hseq, hk⟩ := exists_version_of_numbered h.encodes hp
  by_cases hmem : f ∈ db.stored
  · exact ⟨f, hmem, hk, hseq ▸ hlt⟩
  · rcases h.retains.gone f hf hmem with ⟨g, -, -, hfg, hg⟩ | ⟨-, hle, -⟩
    · have hfg' : f.seq < g.seq := hfg
      have hg' : g.seq ≤ floor := hg
      omega
    · have hle' : f.seq ≤ floor := hle
      omega

theorem Engine.Inv.old_of_passes (h : e.Inv) (hq : q.conflicts e.db.readView [] = false)
    (hreg : ∀ v ∈ q.validate, v.1 ∈ e.registered) :
    ∀ v ∈ q.validate, ∀ p ∈ e.log.flatMap CommitRec.numbered, p.1.key ∈ v.2 → p.2 ≤ v.1 := by
  intro v hv p hp hk
  by_contra hlt
  have hfloor := (h.retained v.1 (h.snapshots.mem_iff.mpr (hreg v hv))).1
  have hwritten := h.consistent.written_of_log hfloor hp (not_le.mp hlt)
  have hconflict := (conflicts_iff h.consistent.wf q []).mpr
    ⟨v.1, v.2, hv, p.1.key, hk, Or.inr hwritten⟩
  rw [hq] at hconflict
  exact absurd hconflict Bool.false_ne_true

/-! ### Groups -/

/-- The entries that the size checks of a group accept, each with its base
seqno. -/
def Db.numberGroup (opts : Options) (db : Db) : ℕ → List QueuedEntry → List (QueuedEntry × ℕ)
  | _, [] => []
  | n, q :: qs =>
    if q.refusedAt opts db n then numberGroup opts db n qs
    else (q, n) :: numberGroup opts db (n + (q.ops ++ q.events opts db n).length) qs

/-- The commit of an accepted entry. -/
def recAt (opts : Options) (db : Db) (p : QueuedEntry × ℕ) : CommitRec :=
  ⟨p.1.ops, p.1.validate, p.1.capture, p.2, p.1.events opts db p.2, []⟩

/-- No accepted entry of the chunk holds a trigger event that is captured for
an earlier one. -/
def Db.Unraced (opts : Options) (db : Db) (qs : List QueuedEntry) : Prop :=
  (db.numberGroup opts (db.visibleSeqno + 1)
    (includedEntries (validateGroup db.readView [] qs) qs)).Pairwise fun a b =>
      b.1.hits ((a.1.events opts db a.2).map BatchOp.key) = false

instance (opts : Options) (db : Db) (qs : List QueuedEntry) : Decidable (db.Unraced opts qs) :=
  inferInstanceAs (Decidable (List.Pairwise _ _))

/-- The step's group, if it is one, is unraced. -/
def Engine.Unraced (opts : Options) (e : Engine) : Action → Prop
  | .group n => e.db.Unraced opts (e.queue.take n)
  | _ => True

instance (opts : Options) (e : Engine) (a : Action) : Decidable (e.Unraced opts a) := by
  unfold Engine.Unraced
  split <;> infer_instance

theorem groupRecs_errors (inc : List QueuedEntry) (rs : List (Except Error (ℕ × List EncEntry))) :
    groupRecs opts db inc (rs.map fun r => r.bind fun _ => .error abortedError) = [] := by
  unfold groupRecs
  rw [List.filterMap_eq_nil_iff]
  intro p hp
  obtain ⟨r, -, hr⟩ := List.mem_map.mp (List.of_mem_zip hp).2
  rw [← hr]
  cases r <;> rfl

/-- The commits of a group are accepted entries, from the first on. -/
theorem groupRecs_prefix (opts : Options) (db : Db) (v : Vlog) (n : ℕ) (inc : List QueuedEntry) :
    (groupRecs opts db inc (Db.groupPhase3 (Db.groupPhase1 opts.valueThreshold v
      (db.groupPhase0 opts n (inc.map QueuedEntry.batch))).2)).map CommitRec.strip <+:
        (db.numberGroup opts n inc).map (recAt opts db) := by
  induction inc generalizing v n with
  | nil => exact List.prefix_rfl
  | cons q inc ih =>
    simp only [List.map_cons, QueuedEntry.batch, Db.groupPhase0, Db.numberGroup]
    cases href : q.refusedAt opts db n with
    | true =>
      rw [if_pos rfl]
      unfold QueuedEntry.refusedAt QueuedEntry.events at href
      rw [Bool.or_eq_true, decide_eq_true_eq, decide_eq_true_eq] at href
      by_cases happrox : WAL_RECORD_LIMIT ≤ approxSize
        (q.ops ++ db.captureEvents opts q.ops n q.capture)
      · rw [if_pos happrox]
        exact ih v n
      · rw [if_neg happrox, if_pos (href.resolve_left happrox)]
        exact ih v n
    | false =>
      rw [if_neg Bool.false_ne_true]
      unfold QueuedEntry.refusedAt at href
      rw [Bool.or_eq_false_iff, decide_eq_false_iff_not, decide_eq_false_iff_not] at href
      rw [if_neg (by exact href.1), if_neg (by exact href.2)]
      simp only [Db.groupPhase1, Db.groupPhase3]
      split
      · -- an overlong record ends the group
        rw [show groupRecs opts db (q :: inc) (.error oversizeError :: List.map _ _) = [] from
          groupRecs_errors inc _]
        exact List.nil_prefix
      · exact (List.prefix_cons_inj _).mpr (ih _ _)

theorem numberGroup_sublist (opts : Options) (db : Db) (n : ℕ) (inc : List QueuedEntry) :
    ((db.numberGroup opts n inc).map Prod.fst).Sublist inc := by
  induction inc generalizing n with
  | nil => exact .slnil
  | cons q inc ih =>
    unfold Db.numberGroup
    split
    · exact (ih n).cons _
    · exact (ih _).cons_cons _

theorem hits_eq_false_iff (q : QueuedEntry) (keys : List Bytes) :
    q.hits keys = false ↔ ∀ v ∈ q.validate, ∀ key ∈ keys, key ∉ v.2 := by
  unfold QueuedEntry.hits
  cases q.validate with
  | none => simp
  | some v =>
    obtain ⟨snap, own⟩ := v
    simp only [List.any_eq_false, decide_eq_true_eq, Option.mem_def, Option.some.injEq, forall_eq']
    exact ⟨fun h key hk hown => h key hown hk, fun h key hown hk => h key hk hown⟩

/-- The commits of a chunk: each comes from an entry that passed validation,
and none holds a key of one before it. -/
theorem Db.Unraced.commits (h : db.Unraced opts qs) :
    let recs := groupRecs opts db (includedEntries (validateGroup db.readView [] qs) qs)
      (db.groupOutcome opts ((includedEntries (validateGroup db.readView [] qs) qs).map
        QueuedEntry.batch)).2
    recs.Pairwise fun a b => ∀ v ∈ b.validate, ∀ op ∈ a.fullOps, op.key ∉ v.2 := by
  intro recs
  obtain ⟨-, hpair⟩ := included_passes db.readView [] qs
  have hinit := groupRecs_prefix opts db db.vlog (db.visibleSeqno + 1)
    (includedEntries (validateGroup db.readView [] qs) qs)
  have hops := List.pairwise_map.mp
    (hpair.sublist (numberGroup_sublist opts db (db.visibleSeqno + 1) _))
  have hall : ((db.numberGroup opts (db.visibleSeqno + 1)
      (includedEntries (validateGroup db.readView [] qs) qs)).map (recAt opts db)).Pairwise
        fun a b => ∀ v ∈ b.validate, ∀ op ∈ a.fullOps, op.key ∉ v.2 := by
    refine List.pairwise_map.mpr ((hops.and h).imp fun {a b} hab v hv op hop => ?_)
    rcases List.mem_append.mp hop with hop | hop
    · exact (hits_eq_false_iff b.1 _).mp hab.1 v hv op.key (List.mem_map_of_mem hop)
    · exact (hits_eq_false_iff b.1 _).mp hab.2 v hv op.key (List.mem_map_of_mem hop)
  exact List.pairwise_map.mp (hall.sublist hinit.sublist)

/-! ### Conflicts leave no trace -/

/-- The entries that were not answered with a conflict. -/
def unconflicted (qs : List QueuedEntry) (rs : List (Except Error Unit)) : List QueuedEntry :=
  ((qs.zip rs).filter fun p => decide (verdictOf p.2 ≠ .conflict)).map Prod.fst

theorem unconflicted_cons (q : QueuedEntry) (qs : List QueuedEntry) (r : Except Error Unit)
    (rs : List (Except Error Unit)) : unconflicted (q :: qs) (r :: rs) =
      if verdictOf r = .conflict then unconflicted qs rs else q :: unconflicted qs rs := by
  unfold unconflicted
  rw [List.zip_cons_cons, List.filter_cons]
  by_cases h : verdictOf r = .conflict <;> simp [h]

/-- Validation without the entries that conflict. -/
theorem validateGroup_unconflicted (view : ReadView) (written : List Bytes) (qs : List QueuedEntry)
    {out : List (Except Error Unit)} (hout : ∀ r ∈ out, verdictOf r ≠ .conflict)
    (hlen : out.length = (includedEntries (validateGroup view written qs) qs).length) :
    let kept := unconflicted qs (mergeResults (validateGroup view written qs) out)
    includedEntries (validateGroup view written kept) kept =
        includedEntries (validateGroup view written qs) qs ∧
      mergeResults (validateGroup view written kept) out =
        (mergeResults (validateGroup view written qs) out).filter
          fun r => decide (verdictOf r ≠ .conflict) := by
  induction qs generalizing written out with
  | nil => exact ⟨rfl, rfl⟩
  | cons q qs ih =>
    cases hc : q.conflicts view written with
    | true =>
      rw [validateGroup_conflict qs hc] at hlen ⊢
      exact ih written hout hlen
    | false =>
      by_cases hops : q.ops = []
      · rw [validateGroup_locks qs hc hops] at hlen ⊢
        obtain ⟨hinc, hres⟩ := ih written hout hlen
        simp only [mergeResults]
        rw [unconflicted_cons, if_neg (by decide), validateGroup_locks _ hc hops]
        exact ⟨hinc, congrArg (Except.ok () :: ·) hres⟩
      · rw [validateGroup_included qs hc hops] at hlen ⊢
        -- the entry takes the first result, which is no conflict
        obtain ⟨r, out, rfl⟩ := List.exists_cons_of_length_eq_add_one hlen
        have hr := hout r List.mem_cons_self
        obtain ⟨hinc, hres⟩ := ih (q.ops.map BatchOp.key ++ written)
          (fun r hr => hout r (List.mem_cons_of_mem _ hr)) (Nat.succ_inj.mp hlen)
        simp only [mergeResults]
        rw [unconflicted_cons, if_neg hr, validateGroup_included _ hc hops,
          List.filter_cons_of_pos (by simpa using hr)]
        exact ⟨congrArg (q :: ·) hinc, congrArg (r :: ·) hres⟩

/-- A group is processed as if the conflicting entries were not in it. -/
theorem commitGroup_unconflicted (opts : Options) (db : Db) (qs : List QueuedEntry) :
    db.commitGroup opts (unconflicted qs (db.commitGroup opts qs).2) =
      ((db.commitGroup opts qs).1,
        (db.commitGroup opts qs).2.filter fun r => decide (verdictOf r ≠ .conflict)) := by
  obtain ⟨-, hout⟩ :=
    groupOutcome_spec opts db (includedEntries (validateGroup db.readView [] qs) qs)
  have hverdict :
      ∀ r ∈ (db.groupOutcome opts ((includedEntries (validateGroup db.readView [] qs) qs).map
      QueuedEntry.batch)).2.map (fun r => r.map fun _ => ()), verdictOf r ≠ .conflict := by
    intro r hr
    obtain ⟨x, hx, rfl⟩ := List.mem_map.mp hr
    have hne := hout.ne_conflict x hx
    cases x with
    | ok x => simp [Except.map, verdictOf]
    | error err => cases err <;> simp_all [Except.map, verdictOf]
  obtain ⟨hinc, hres⟩ := validateGroup_unconflicted db.readView [] qs hverdict
    ((List.length_map _).trans hout.length_eq)
  rw [← commitGroup_results] at hinc hres
  have hsame : (db.commitGroup opts (unconflicted qs (db.commitGroup opts qs).2)).1 =
      (db.commitGroup opts qs).1 := by
    generalize hkept : unconflicted qs (db.commitGroup opts qs).2 = kept at hinc hres ⊢
    unfold Db.commitGroup
    simp only [hinc]
    split <;> rfl
  refine Prod.ext hsame ?_
  rw [commitGroup_results]
  simp only [hinc]
  exact hres

theorem applyLocked_ne_conflict (opts : Options) (db : Db) (ops : List BatchOp) (capture : Bool) :
    (db.applyLocked opts ops capture).2 ≠ .error .conflict := by
  unfold Db.applyLocked
  simp only
  split
  · simp [exhaustedError]
  · split
    · simp [oversizeError]
    · split <;> simp [oversizeError]

/-- A direct commit that conflicts changes nothing. -/
theorem commitDirect_conflict (h : (db.commitDirect opts q).2 = .error .conflict) :
    (db.commitDirect opts q).1 = db := by
  rcases commitDirect_cases opts db q with ⟨heq, -⟩ | ⟨heq, -, -⟩ | ⟨heq, -, -⟩
  · rw [heq]
  · rw [heq]
  · rw [heq] at h
    exact absurd h (applyLocked_ne_conflict opts db q.ops q.capture)

/-! ### Runs -/

/-- The conflict keys of an entry include its write set. -/
def QueuedEntry.LocksWrites (q : QueuedEntry) : Prop := ∀ v ∈ q.validate, ∀ op ∈ q.ops, op.key ∈ v.2

theorem Submission.locksWrites (sub : Submission) : sub.entry.LocksWrites := by
  intro v hv op hop
  cases sub with
  | txn snap writes locks =>
    rw [← Option.some_inj.mp hv]
    exact List.mem_append_left _ (List.mem_map_of_mem hop)
  | drain snap consume writes locks =>
    rw [← Option.some_inj.mp hv]
    exact List.mem_append_left _ (List.mem_map_of_mem hop)
  | batch _ | system _ | define _ | undefine _ | clear _ _ =>
    exact absurd hv (by simp [Submission.entry])

theorem Supplied.locksWrites (h : Supplied opts e q) (hqueue : ∀ q ∈ e.queue, q.LocksWrites) :
    q.LocksWrites := by
  cases h with
  | queued hq => exact hqueue q hq
  | submitted _ => exact Submission.locksWrites _
  | relocated _ => exact fun v hv => absurd hv (by simp)

/-- Who validates holds its snapshot registered. -/
theorem Supplied.registered (h : Supplied opts e q) : ∀ v ∈ q.validate, v.1 ∈ e.registered := by
  intro v hv
  cases h with
  | queued hq =>
    refine List.mem_append_right _ (List.mem_append_right _ (List.mem_filterMap.mpr ⟨q, hq, ?_⟩))
    rw [Option.mem_def.mp hv]
    rfl
  | @submitted sub hallowed =>
    refine List.mem_append_left _ ?_
    cases sub with
    | txn snap writes locks => exact Option.some_inj.mp hv ▸ hallowed.1
    | drain snap consume writes locks => exact Option.some_inj.mp hv ▸ hallowed.1
    | batch _ | system _ | define _ | undefine _ | clear _ _ =>
      exact absurd hv (by simp [Submission.entry])
  | relocated _ => exact absurd hv (by simp)

/-- The law and what it is about. -/
structure Engine.Lawful (e : Engine) : Prop where
  queue : ∀ q ∈ e.queue, q.LocksWrites
  locks : ∀ c ∈ e.log, LocksWrites c
  law : FirstCommitter e.log

/-- **New commits** keep the law if their group is unraced. -/
theorem NewCommits.firstCommitter {a : Action} (hnew : NewCommits opts e a recs) (h : e.Inv)
    (h' : e'.Inv)
    (hlog : e'.log = e.log ++ recs) (hlaw : FirstCommitter e.log) (hok : e.Unraced opts a) :
    FirstCommitter e'.log := by
  have hc := h'.consistent.contiguous
  rw [hlog] at hc ⊢
  refine hlaw.append hc (fun c hc => ?_) ?_
  · obtain ⟨q, hsupplied, hpass, -, hvalidate, -⟩ := hnew.origin c hc
    rw [hvalidate]
    exact h.old_of_passes hpass hsupplied.registered
  · rcases hnew.chunk with ⟨n, rfl, rfl⟩ | hlen
    · exact Db.Unraced.commits hok
    · match recs, hlen with
      | [], _ => exact .nil
      | [c], _ => exact List.pairwise_singleton _ _

theorem lawful_step (hreach : (engine opts).Reachable e) (hl : e.Lawful) {a : Action}
    (hok : e.Unraced opts a) (hs : e.step opts a = some e') : e'.Lawful := by
  have h := inv_of_reachable hreach
  have h' := inv_step h hs
  cases step_cases h hs with
  | @commits _ recs hnew hlog hqueue _ _ _ =>
    refine ⟨fun q hq => hl.queue q (hqueue.subset hq), fun c hc => ?_,
      hnew.firstCommitter h h' hlog hl.law hok⟩
    rw [hlog] at hc
    rcases List.mem_append.mp hc with hc | hc
    · exact hl.locks c hc
    · obtain ⟨q, hsupplied, -, hops, hvalidate, -⟩ := hnew.origin c hc
      unfold LocksWrites
      rw [hops, hvalidate]
      exact hsupplied.locksWrites hl.queue
  | reopen hs =>
    -- a reopen keeps a prefix of the log
    obtain ⟨rest, hcut, -⟩ := cutLog_prefix h.consistent.contiguous e'.db.visibleSeqno
    have hlog := reopen_log h hs
    refine ⟨fun q hq => ?_, fun c hc => ?_, ?_⟩
    · obtain ⟨db', -, rfl⟩ := Option.map_eq_some_iff.mp hs
      exact absurd hq List.not_mem_nil
    · rw [hlog] at hc
      exact hl.locks c (List.mem_of_mem_filter hc)
    · rw [hlog]
      have hlaw := hl.law
      rw [hcut] at hlaw
      exact hlaw.prefix
  | @enqueue sub _ hqueue hlog _ _ _ =>
    refine ⟨fun q hq => ?_, hlog ▸ hl.locks, hlog ▸ hl.law⟩
    rw [hqueue] at hq
    rcases List.mem_append.mp hq with hq | hq
    · exact hl.queue q hq
    · rw [List.mem_singleton.mp hq]
      exact sub.locksWrites
  | createTrigger _ _ _ _ _ heq => rw [heq]; exact ⟨hl.queue, hl.locks, hl.law⟩
  | deleteTrigger _ _ heq => rw [heq]; exact ⟨hl.queue, hl.locks, hl.law⟩
  | deleteDone _ heq => rw [heq]; exact ⟨hl.queue, hl.locks, hl.law⟩
  | quiet hq => exact ⟨fun q hmem => hl.queue q (hq.queue.subset hmem), hq.log ▸ hl.locks,
    hq.log ▸ hl.law⟩

theorem lawful_of_reaches (h : (engine opts).Reaches (fun e a => e.Unraced opts a) e) : e.Lawful :=
  h.invariant_of_reachable
    ⟨fun _ hq => absurd hq List.not_mem_nil, fun _ hc => absurd hc List.not_mem_nil,
    fun _ hc => absurd hc List.not_mem_nil⟩ fun hreach hl hok hs => lawful_step hreach hl hok hs

/-- **First committer wins**, in every run whose groups are unraced: between
the snapshot and the base seqno of a committed transaction no other commit
wrote a key of its write set or its `get_for_update` set; and an entry that is
answered with a conflict, directly or in a group, leaves no trace. -/
theorem first_committer_wins (h : (engine opts).Reaches (fun e a => e.Unraced opts a) e) :
    (∀ c ∈ e.log, ∀ snap keys, c.validate = some (snap, keys) →
      (∀ op ∈ c.ops, op.key ∈ keys) ∧
      ∀ c' ∈ e.log, c' ≠ c → ∀ p ∈ c'.numbered, p.1.key ∈ keys → ¬ (snap < p.2 ∧ p.2 < c.base)) ∧
    (∀ q, (e.db.commitDirect opts q).2 = .error .conflict → (e.db.commitDirect opts q).1 = e.db) ∧
    ∀ qs, e.db.commitGroup opts (unconflicted qs (e.db.commitGroup opts qs).2) =
      ((e.db.commitGroup opts qs).1,
        (e.db.commitGroup opts qs).2.filter fun r => decide (verdictOf r ≠ .conflict)) := by
  have hl := lawful_of_reaches h
  refine ⟨fun c hc snap keys hv =>
    ⟨hl.locks c hc (snap, keys) hv, fun c' hc' _ p hp hk hbetween => ?_⟩,
    fun q => commitDirect_conflict, commitGroup_unconflicted opts e.db⟩
  have hle := hl.law c hc (snap, keys) hv p (List.mem_flatMap.mpr ⟨c', hc', hp⟩) hk hbetween.1
  omega

/-- A drain commits alone; asked to consume the same event again it conflicts. -/
theorem first_committer_wins_of_drained : ∃ e : Engine, (∃ c ∈ e.log,
      c.validate = some (3, [sysTriggerEventKey touchTrigger.name [byte 107]]) ∧
      ∀ c' ∈ e.log, c' ≠ c → ∀ p ∈ c'.numbered,
        p.1.key ∈ [sysTriggerEventKey touchTrigger.name [byte 107]] → ¬ (3 < p.2 ∧ p.2 < c.base)) ∧
    (e.db.commitDirect (.default plainFormat)
      (Submission.entry (.drain 3 [sysTriggerEventKey touchTrigger.name [byte 107]] [] []))).1 =
        e.db := by
  have hrun : ((engine (.default plainFormat)).replay
      (fun e a => e.Unraced (.default plainFormat) a)
      (touchThenDrain ++ [.withdraw 0, .group 1]) (engine (.default plainFormat)).init).any
      (fun e => decide ((∃ c ∈ e.log,
          c.validate = some (3, [sysTriggerEventKey touchTrigger.name [byte 107]])) ∧
        verdictOf (e.db.commitDirect (.default plainFormat) (Submission.entry
          (.drain 3 [sysTriggerEventKey touchTrigger.name [byte 107]] [] []))).2 =
            .conflict)) = true := by
    decide +kernel
  obtain ⟨e, hreach, ⟨c, hc, hv⟩, hconflict⟩ := System.exists_reaches hrun
  obtain ⟨hwins, hdirect, -⟩ := first_committer_wins hreach
  refine ⟨e, ⟨c, hc, hv, (hwins c hc _ _ hv).2⟩, hdirect _ (verdictOf_eq_conflict.mp hconflict)⟩

/-- A touch and the drain of its event in one group: the drain commits over
the event written after its snapshot. -/
theorem first_committer_loses : ¬ ∀ (opts : Options) (e : Engine), (engine opts).Reachable e →
    ∀ c ∈ e.log, ∀ snap keys, c.validate = some (snap, keys) →
      ∀ c' ∈ e.log, c' ≠ c → ∀ p ∈ c'.numbered, p.1.key ∈ keys → ¬ (snap < p.2 ∧ p.2 < c.base) := by
  intro hall
  have hrun : ((engine (.default plainFormat)).run (touchThenDrain ++ [.group 2])
      (engine (.default plainFormat)).init).any
        (fun e => decide (¬ FirstCommitter e.log)) = true := by
    decide +kernel
  obtain ⟨e, hreach, hlaw⟩ := System.exists_reachable hrun
  refine hlaw fun c hc v hv p hp hk hlt => ?_
  obtain ⟨c', hc', hp⟩ := List.mem_flatMap.mp hp
  by_cases hsame : c' = c
  · exact (CommitRec.le_of_numbered (hsame ▸ hp)).1
  · have hbetween := hall _ e hreach c hc v.1 v.2 hv c' hc' hsame p hp hk
    omega

end Fluent31
