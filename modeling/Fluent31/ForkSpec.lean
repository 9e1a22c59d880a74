/-
What a fork reads (`fork.rs`, `db.rs`).

The cut is registered and the view taken in one critical section.  Then the archive is
built while the parent moves on: it commits, flushes, compacts, collects and unlinks
value-log files.  The view keeps the files it names on disk, and what the builder copies
of them has only grown since.

* `Service.Pinned.reaches` — the critical section is two steps of the service;
* `ForkCut.Building.held` — what stays while the parent moves on;
* `ForkCut.Held.build` — the build ends, and what it leaves is fit to be opened;
* `ForkCut.Built.getVersioned_opened` — the tables of the archive answer as the view did;
* `fork_reads` — the fork opens, and reads at its head what the parent read at the cut;
* `released_le_of_regular` — when no released file is in its way.
-/
import Fluent31.ChangeLog
import Fluent31.Fork
import Fluent31.PinSteps

namespace Fluent31

open Mvcc

variable {opts : Options} {e e' : Engine} {s s' s₁ s₂ : Service}

/-! ### Definitions are readable -/

/-- A definition that is written is made of Rust strings. -/
def Action.Sized : Action → Prop
  | .commit (.define d) => d.Sized
  | .enqueue (.define d) => d.Sized
  | _ => True

instance (a : Action) : Decidable a.Sized := by
  unfold Action.Sized
  split <;> infer_instance

/-- The definition records of the log and of the queue decode. -/
structure Engine.Readable (e : Engine) : Prop where
  log : ∀ c ∈ e.log, ∀ key value, .put key value ∈ c.fullOps → DEF_PREFIX <+: key →
    (decodeDef value).isSome
  queue : ∀ q ∈ e.queue, ∀ key value, .put key value ∈ q.ops → DEF_PREFIX <+: key →
    (decodeDef value).isSome

theorem Submission.readable {sub : Submission} (hallowed : sub.Allowed opts e)
    (hsized : ∀ d, sub = .define d → d.Sized)
    {key value : Bytes} (hput : .put key value ∈ sub.entry.ops) (hdef : DEF_PREFIX <+: key) :
    (decodeDef value).isSome := by
  have huser : ¬ ValidUserKey key := fun hvalid => not_defPrefix_of_valid hvalid hdef
  cases sub with
  | batch ops => exact absurd (hallowed.2 _ hput).1 huser
  | txn snap writes locks => exact absurd (hallowed.2 _ hput) huser
  | drain snap consume writes locks =>
    rcases List.mem_append.mp hput with hput | hput
    · obtain ⟨k, -, heq⟩ := List.mem_map.mp hput
      exact absurd heq (by simp)
    · exact absurd (hallowed.2.2 _ hput) huser
  | system ops => exact absurd hdef (hallowed.2 _ hput).2.2
  | define d =>
    obtain ⟨-, rfl⟩ := BatchOp.put.inj (List.mem_singleton.mp hput)
    rw [decodeDef_encodeDef (hsized d rfl)]
    rfl
  | undefine name => exact absurd (List.mem_singleton.mp hput) (by simp)
  | clear name keys =>
    obtain ⟨k, -, heq⟩ := List.mem_map.mp hput
    exact absurd heq (by simp)

theorem readable_step (hinv : e.Inv) (h : e.Readable) {a : Action} (hok : a.Sized)
    (hs : e.step opts a = some e') :
    e'.Readable := by
  cases step_handed hs with
  | @commit sub hallowed hlog hqueue hclears =>
    refine ⟨fun c hc key value hput hdef => ?_, hqueue ▸ h.queue⟩
    rcases hlog c hc with hc | rfl
    · exact h.log c hc key value hput hdef
    · refine Submission.readable hallowed ?_
        (mem_ops_of_def (q := sub.entry) rfl rfl hput hdef) hdef
      rintro d rfl
      exact hok
  | @enqueue sub hallowed hlog hqueue hclears =>
    refine ⟨hlog ▸ h.log, fun q hq key value hput hdef => ?_⟩
    rw [hqueue] at hq
    rcases List.mem_append.mp hq with hq | hq
    · exact h.queue q hq key value hput hdef
    · rw [List.mem_singleton.mp hq] at hput
      refine Submission.readable hallowed ?_ hput hdef
      rintro d rfl
      exact hok
  | @group n heq =>
    subst heq
    refine ⟨fun c hc key value hput hdef => ?_, fun q hq => h.queue q (List.mem_of_mem_drop hq)⟩
    rcases List.mem_append.mp hc with hc | hc
    · exact h.log c hc key value hput hdef
    · obtain ⟨q, hq, hops, -, -, hevents⟩ := mem_groupRecs hc
      exact h.queue q (List.mem_of_mem_take (mem_includedEntries hq).1) key value
        (mem_ops_of_def hops hevents hput hdef) hdef
  | @relocate records hrecords hlog hqueue hclears =>
    refine ⟨fun c hc key value hput hdef => ?_, hqueue ▸ h.queue⟩
    rcases hlog c hc with hc | rfl
    · exact h.log c hc key value hput hdef
    · -- a relocation puts what is there
      have hop : .put key value ∈ relocationOps e.db records :=
        @mem_ops_of_def opts _ ⟨relocationOps e.db records, none, false⟩ e.db rfl rfl _ hput hdef
      obtain ⟨-, hvalue⟩ := relocationOps_same hinv hrecords hop le_rfl
      obtain ⟨c, hc, hput'⟩ := hinv.put_of_value hvalue.symm
      exact h.log c hc key value hput' hdef
  | other hlog hqueue hclears =>
    exact ⟨fun c hc => h.log c (hlog hc), fun q hq => h.queue q (hqueue.subset hq)⟩

/-- A definition that is read, at any seqno, decodes. -/
theorem Engine.Readable.decodes (h : e.Readable) (hinv : e.Inv) {t : ℕ} {k v : Bytes}
    (hk : DEF_PREFIX <+: k) (hv : stateAfter e.log t k = some v) : (decodeDef v).isSome := by
  obtain ⟨p, hp, hput, -⟩ :=
    replay_eq_some (pairwise_numbered hinv.consistent.encodes hinv.consistent.contiguous) hv
  obtain ⟨c, hc, hp⟩ := List.mem_flatMap.mp hp
  exact h.log c hc k v (hput ▸ List.fst_mem_of_mem_zipIdx hp) hk

/-! ### Runs of the service -/

/-- The engine's part of an action. -/
def ServiceAction.engine? : ServiceAction → Option Action
  | .engine a _ => some a
  | _ => none

/-- Definitions are made of Rust strings, and values are placed in heads that the map names. -/
def Service.Sound (opts : Options) (s : Service) (act : ServiceAction) : Prop :=
  s.Homed opts act ∧ ∀ a ∈ act.engine?, a.Sized

instance Service.decidableSound (s : Service) (act : ServiceAction) :
    Decidable (s.Sound opts act) :=
  inferInstanceAs (Decidable (_ ∧ _))

/-- Value-log records stay: the engine never forgets one. -/
theorem records_step (h : s.Files) {act : ServiceAction} (hs : s.step opts act = some s') :
    ∀ r ∈ s.engine.db.vlog.records, r ∈ s'.engine.db.vlog.records := by
  cases Service.takes hs with
  | @engine a e' headFault hphase hserves hpub hfree he =>
    obtain ⟨recs, hmove⟩ := moved_step h.engine he fun n orphan hopen => by
      rw [hopen] at hserves
      exact absurd hserves Bool.false_ne_true
    exact hmove.placed.kept
  | gcChunk headFault hp htodo hpub he happlied =>
    obtain ⟨recs, hmove⟩ := moved_step h.engine he fun _ _ => by simp
    exact hmove.placed.kept
  | subscribe start hphase hpub hstart he =>
    obtain rfl := Option.some_inj.mp he
    exact fun _ hr => hr
  | deliver hsub hclosed htaken hout he =>
    obtain ⟨-, rfl⟩ := Engine.guarded_eq_some he
    exact fun _ hr => hr
  | close hsub hclosed hchecked htaken he =>
    obtain ⟨-, rfl⟩ := Engine.guarded_eq_some he
    exact fun _ hr => hr
  | reopen hreopen =>
    obtain ⟨e', disk, he, -, -, -, -, -, rfl⟩ := Service.reopen_cases hreopen
    exact fun r hr => (recovered_of_reopen h.engine he).records ▸ hr
  | _ => exact fun _ hr => hr

/-- They stay over a whole run, through reopens as well. -/
theorem records_run (h : s.Files) {acts : List ServiceAction}
    (hr : (service opts).run acts s = some s') :
    s'.Files ∧ ∀ r ∈ s.engine.db.vlog.records, r ∈ s'.engine.db.vlog.records := by
  refine System.run_invariant
    (I := fun t => t.Files ∧ ∀ r ∈ s.engine.db.vlog.records, r ∈ t.engine.db.vlog.records)
    ⟨h, fun _ hr => hr⟩ ?_ hr
  rintro t t' act ⟨hfiles, hkept⟩ hs
  exact ⟨files_step hfiles hs, fun r hr => records_step hfiles hs r (hkept r hr)⟩

/-- The definition records of the engine stay readable. -/
theorem readable_service (h : s.Files) (hread : s.engine.Readable) {act : ServiceAction}
    (hok : s.Sound opts act) (hs : s.step opts act = some s') : s'.engine.Readable := by
  cases Service.takes hs with
  | @engine a e' headFault hphase hserves hpub hfree he =>
    exact readable_step h.engine hread (hok.2 a rfl) he
  | gcChunk headFault hp htodo hpub he happlied =>
    exact readable_step h.engine hread (show Action.Sized (.relocate _) from trivial) he
  | subscribe start hphase hpub hstart he =>
    exact readable_step h.engine hread (show Action.Sized .snapshot from trivial) he
  | deliver hsub hclosed htaken hout he =>
    exact readable_step h.engine hread (show Action.Sized (.advance _ _) from trivial) he
  | close hsub hclosed hchecked htaken he =>
    exact readable_step h.engine hread (show Action.Sized (.release _) from trivial) he
  | @reopen n orphan vanished s' hreopen =>
    obtain ⟨e', disk, he, -, -, -, -, -, rfl⟩ := Service.reopen_cases hreopen
    exact readable_step (a := .reopen n orphan) h.engine hread trivial he
  | _ => exact hread

/-- What holds in every state that is reached. -/
structure Service.Forkable (s : Service) : Prop where
  kept : s.Kept
  readable : s.engine.Readable

theorem Service.Forkable.consistent (h : s.Forkable) :
    Consistent s.engine.db s.engine.log s.engine.floor :=
  h.kept.streams.files.engine.consistent

theorem forkable_of_reaches (h : (service opts).Reaches (Service.Sound opts) s) : s.Forkable := by
  refine h.invariant ⟨kept_init opts, fun _ hc => absurd hc List.not_mem_nil, fun _ hq =>
    absurd hq List.not_mem_nil⟩ ?_
  exact fun hf hok hs =>
    ⟨kept_step hf.kept hok.1 hs, readable_service hf.kept.streams.files hf.readable hok hs⟩

/-! ### The cut -/

/-- A cut is registered if it is flushed, and at the flushed head or retained. -/
theorem registerCut_ok {db db' : Db} {cut? : Option ℕ} {cut : ℕ}
    (h : db.registerCut cut? = .ok (cut, db')) :
    db' = db.registerSnapshotAt cut ∧ cut = cut?.getD db.manifest.lastFlushedSeqno ∧
      cut ≤ db.manifest.lastFlushedSeqno ∧
      (cut < db.manifest.lastFlushedSeqno → db.tryRegisterSnapshotAt cut = .ok db') := by
  unfold Db.registerCut at h
  simp only at h
  split at h
  · exact absurd h (by simp)
  · rename_i hhead
    split at h
    · cases htry : db.tryRegisterSnapshotAt (cut?.getD db.manifest.lastFlushedSeqno) with
      | error err =>
        rw [htry] at h
        exact absurd h (by simp [Except.map])
      | ok db₁ =>
        rw [htry] at h
        obtain ⟨rfl, rfl⟩ := Prod.mk.inj (Except.ok.inj h)
        refine ⟨?_, rfl, not_lt.mp hhead, fun _ => htry⟩
        unfold Db.tryRegisterSnapshotAt at htry
        simp only at htry
        split at htry
        · exact absurd htry (by simp)
        · split at htry
          · exact absurd htry (by simp)
          · exact (Except.ok.inj htry).symm
    · obtain ⟨rfl, rfl⟩ := Prod.mk.inj (Except.ok.inj h)
      exact ⟨rfl, rfl, not_lt.mp hhead, fun hlt => absurd hlt ‹_›⟩

/-- What the critical section of a fork leaves and takes along. -/
structure Service.Pinned (s : Service) (c : ForkCut) (s₁ : Service) : Prop where
  cut : c = ⟨c.seq, s.engine.db.manifest.lastFlushedSeqno, s.db.readView, s.vlogHead,
    s.engine.db.manifest⟩
  le : c.seq ≤ s.engine.db.manifest.lastFlushedSeqno
  retained : c.seq < s.engine.db.manifest.lastFlushedSeqno →
    s.engine.db.tryRegisterSnapshotAt c.seq = .ok (s.engine.db.registerSnapshotAt c.seq)
  state : s₁ = { s with
    engine :=
      { s.engine with
        db := s.engine.db.registerSnapshotAt c.seq
        handles := c.seq :: s.engine.handles }
    views := s.views ++ [(c.view, c.seq)] }

theorem pinned_of_pinCut {cut? : Option ℕ} {c : ForkCut} (h : s.pinCut cut? = .ok (c, s₁)) :
    s.Pinned c s₁ ∧ c.seq = cut?.getD s.engine.db.manifest.lastFlushedSeqno := by
  unfold Service.pinCut at h
  cases hcut : s.engine.db.registerCut cut? with
  | error err =>
    rw [hcut] at h
    exact absurd h (by simp [Except.map])
  | ok r =>
    obtain ⟨cut, db'⟩ := r
    rw [hcut] at h
    obtain ⟨rfl, rfl⟩ := Prod.mk.inj (Except.ok.inj h)
    obtain ⟨rfl, hseq, hle, htry⟩ := registerCut_ok hcut
    exact ⟨⟨rfl, hle, htry, rfl⟩, hseq⟩

/-- A registration places no value. -/
theorem sound_of_registers {a : Action} (hsized : a.Sized)
    (hvlog : ∀ e', s.engine.step opts a = some e' →
    e'.db.vlog = s.engine.db.vlog) : s.Sound opts (.engine a false) := by
  refine ⟨Or.inr ?_, fun b hb => Option.some_inj.mp hb ▸ hsized⟩
  unfold Service.places
  cases hs : s.step opts (.engine a false) with
  | none => rfl
  | some s' =>
    cases Service.takes hs with
    | engine headFault hphase hserves hpub hfree he =>
      refine decide_eq_false fun hlt => ?_
      have hlen : (s.moved _ false).engine.db.vlog = s.engine.db.vlog := hvlog _ he
      rw [hlen] at hlt
      exact lt_irrefl _ hlt

/-- **The critical section** of a fork is two steps of the service. -/
theorem Service.Pinned.reaches {c : ForkCut} (h : s.Pinned c s₁)
    (hs : (service opts).Reaches (Service.Sound opts) s)
    (hphase : s.phase = .running) : (service opts).Reaches (Service.Sound opts) s₁ := by
  have hvis : c.seq ≤ s.engine.db.visibleSeqno :=
    le_trans h.le (forkable_of_reaches hs).consistent.wf.flushed_le
  -- the registration
  obtain ⟨a, hserves, hwrites, hconsumes, hsized, hstep⟩ : ∃ a : Action, a.serves = true ∧
      a.writes = false ∧ a.consumes = none ∧ a.Sized ∧ s.engine.step opts a = some { s.engine with
        db := s.engine.db.registerSnapshotAt c.seq, handles := c.seq :: s.engine.handles } := by
    rcases Nat.lt_or_ge c.seq s.engine.db.manifest.lastFlushedSeqno with hlt | hge
    · refine ⟨.snapshotAt c.seq, rfl, rfl, rfl, trivial, ?_⟩
      show (s.engine.db.tryRegisterSnapshotAt c.seq).toOption.map _ = _
      rw [h.retained hlt]
      rfl
    · refine ⟨.snapshotFlushed, rfl, rfl, rfl, trivial, ?_⟩
      rw [le_antisymm h.le hge]
      rfl
  have hmoved : s.step opts (.engine a false) = some { s with
      engine :=
        { s.engine with
          db := s.engine.db.registerSnapshotAt c.seq
          handles := c.seq :: s.engine.handles } } := by
    show (if s.phase = .running ∧ a.serves ∧ (a.writes → s.publishing = []) ∧ ∀ seq ∈ a.consumes,
      s.Free seq then
      (s.engine.step opts a).map fun e' => s.moved e' false else none) = _
    rw [if_pos ⟨hphase, hserves, fun hw => absurd hw (by simp [hwrites]),
      fun seq hseq => absurd hseq (by simp [hconsumes])⟩, hstep, Option.map_some]
    unfold Service.moved
    simp only [Db.registerSnapshotAt, ne_eq, not_true_eq_false, decide_false, Bool.false_and,
      Bool.or_false, Bool.false_eq_true, if_false, List.drop_length, List.append_nil]
  have hview := System.Reaches.step hs (sound_of_registers hsized fun e' he => by
    obtain rfl := Option.some_inj.mp (hstep.symm.trans he)
    rfl) hmoved
  have hsized : ∀ b ∈ ServiceAction.engine? (.openView (some c.seq)), b.Sized := fun _ hb =>
    absurd hb (by simp [ServiceAction.engine?])
  refine .step (a := .openView (some c.seq)) hview ⟨Or.inr ?_, hsized⟩ ?_
  · unfold Service.places
    show Option.any _ (Service.guarded _ _) = false
    unfold Service.guarded
    split
    · exact decide_eq_false (lt_irrefl _)
    · rfl
  · rw [h.state]
    show Service.guarded _ _ = _
    unfold Service.guarded
    rw [if_pos ⟨hphase, fun t ht => (Option.some_inj.mp ht) ▸ List.mem_cons_self⟩]
    have hmin : min c.seq s.engine.db.visibleSeqno = c.seq := min_eq_left hvis
    have hcut : c.view = s.db.readView := by rw [h.cut]
    simp only [Option.getD_some, hcut, Db.registerSnapshotAt, hmin]
    rfl

/-- The cut is registered in the state, and its view is the state's. -/
structure Service.Cut (s : Service) (c : ForkCut) : Prop where
  eq : c = ⟨c.seq, s.engine.db.manifest.lastFlushedSeqno, s.db.readView, s.vlogHead,
    s.engine.db.manifest⟩
  le : c.seq ≤ s.engine.db.manifest.lastFlushedSeqno
  handle : c.seq ∈ s.engine.handles
  view : (c.view, c.seq) ∈ s.views

theorem Service.Cut.registered {c : ForkCut} (h : s.Cut c) : c.seq ∈ s.engine.registered :=
  List.mem_append_left _ h.handle

theorem Service.Pinned.taken {c : ForkCut} (h : s.Pinned c s₁) : s₁.Cut c := by
  have hcut := h.cut
  have hle := h.le
  rw [h.state]
  exact ⟨hcut, hle, List.mem_cons_self, List.mem_append_right _ (List.mem_singleton_self _)⟩

/-! ### While the archive is built -/

/-- The parent moves on, while the registration and the view of the cut are held. -/
inductive ForkCut.Building (opts : Options) (c : ForkCut) (s : Service) : Service → Prop
  | start : Building opts c s s
  | step {s₁ s₂ : Service} {act : ServiceAction} : Building opts c s s₁ → s₁.Sound opts act →
      s₁.step opts act = some s₂ → c.seq ∈ s₂.engine.handles → (c.view, c.seq) ∈ s₂.views →
      Building opts c s s₂

/-- No process outlives its views. -/
theorem Service.inProcess_of_view {act : ServiceAction} {v : ReadView × ℕ}
    (hs : s.step opts act = some s') (hv : v ∈ s'.views) : act.inProcess := by
  cases Service.takes hs with
  | reopen hreopen =>
    obtain ⟨e', disk, -, -, -, -, -, -, rfl⟩ := Service.reopen_cases hreopen
    exact absurd hv List.not_mem_nil
  | crashOpening id => exact absurd hv List.not_mem_nil
  | _ => rfl

/-- What the builder finds. -/
structure ForkCut.Held (opts : Options) (c : ForkCut) (s s' : Service) : Prop where
  reaches : (service opts).Reaches (Service.Sound opts) s'
  handle : c.seq ∈ s'.engine.handles
  view : (c.view, c.seq) ∈ s'.views
  records : ∀ r ∈ s.engine.db.vlog.records, r ∈ s'.engine.db.vlog.records
  state : stateAfter s'.engine.log c.seq = stateAfter s.engine.log c.seq

/-- **What stays** while the archive is built. -/
theorem ForkCut.Building.held {c : ForkCut} (h : c.Building opts s s')
    (hs : (service opts).Reaches (Service.Sound opts) s) (hcut : s.Cut c) : c.Held opts s s' := by
  induction h with
  | start => exact ⟨hs, hcut.handle, hcut.view, fun _ hr => hr, rfl⟩
  | step _ hok hstep hhandle hview ih =>
    have hfiles := (forkable_of_reaches ih.reaches).kept.streams.files
    have hvis := (hfiles.engine.retained _
      (hfiles.engine.snapshots.mem_iff.mpr (List.mem_append_left _ ih.handle))).2
    -- the process goes on, so the log only grows, and above the cut
    obtain ⟨recs, hlog, -, hlater⟩ :=
      Service.log_serve hfiles hstep (Service.inProcess_of_view hstep hview)
    refine ⟨.step ih.reaches hok hstep, hhandle, hview, fun r hr =>
      records_step hfiles hstep r (ih.records r hr), ?_⟩
    rw [hlog, stateAfter_append fun r hr => lt_of_le_of_lt hvis (hlater r hr), ih.state]

/-! ### The tables of the archive -/

/-- The levels hold of the versions `held` what a read at `cut` asks for, and nothing above. -/
structure SnapshotOf (held : List Entry) (cut next : ℕ) (levels : List (List Run)) : Prop where
  newer : levels.flatten.Pairwise fun r r' => Newer r.entries r'.entries
  ordered : ∀ r ∈ levels.flatten, r.Ordered
  runs_nodup : (levels.flatten.map Run.id).Nodup
  runs_lt : ∀ r ∈ levels.flatten, r.id < next
  sub : ∀ e ∈ levels.flatten.flatMap Run.entries, e ∈ held ∧ e.seq ≤ cut
  shows : ∀ k r, Answers held k cut r → Answers (levels.flatten.flatMap Run.entries) k cut r ∨
    (∃ e, r = some e ∧ e.kind = .delete) ∧ Answers (levels.flatten.flatMap Run.entries) k cut none

/-- At the flushed head the tables are taken as they are. -/
theorem snapshotOf_head {db : Db} (h : db.WF) :
    SnapshotOf db.tableVersions db.manifest.lastFlushedSeqno db.manifest.nextFileId
      db.version.levels where
  newer := h.tree.newer
  ordered := h.recent.ordered
  runs_nodup := h.runs_nodup
  runs_lt := h.runs_lt
  sub e he := ⟨he, h.tables_le e he⟩
  shows _ _ hr := Or.inl hr

theorem pairwise_of_length_le_one {α : Type} {R : α → α → Prop} {l : List α} (h : l.length ≤ 1) :
    l.Pairwise R := by
  match l, h with
  | [], _ => exact .nil
  | [x], _ => exact List.pairwise_singleton R x

/-- Below it they are rewritten. -/
theorem snapshotOf_run {db : Db} (h : db.WF) (hd : Distinct db.tableVersions) (next cut : ℕ) :
    ∃ levels next', writeSnapshotRun opts next db.version cut = some (levels, next') ∧
      SnapshotOf db.tableVersions cut next' levels := by
  have hm : RunningJob.Mergeable db.version.runsNewestFirst :=
    ⟨h.recent.ordered, h.tree.newer.imp fun hnew a ha b hb => ikey_ne_of_newer hnew ha hb⟩
  obtain ⟨levels, next', hwrite, hlt, hlen, hruns, hmem⟩ :=
    @writeSnapshotRun_spec opts next cut db.version hm hd
  have hsub : ∀ e ∈ levels.flatten.flatMap Run.entries, e ∈ db.tableVersions ∧ e.seq ≤ cut :=
    fun e he =>
    ⟨((hmem e).mp he).2.1, ((hmem e).mp he).2.2.2.1⟩
  refine ⟨levels, next', hwrite, ?_, fun r hr => (hruns r hr).2, ?_,
    fun r hr => ?_, hsub, fun k found hfound => ?_⟩
  · exact pairwise_of_length_le_one hlen
  · exact pairwise_of_length_le_one (le_trans (le_of_eq (List.length_map _)) hlen)
  · rw [(hruns r hr).1]
    exact hlt
  · cases found with
    | none => exact Or.inl fun f hf hk => hfound f (hsub f hf).1 hk
    | some e =>
      obtain ⟨he, rfl, hle, hmax⟩ := hfound
      cases hkind : e.kind with
      | put => exact Or.inl ⟨(hmem e).mpr ⟨hkind, he, rfl, hle, hmax⟩, rfl, hle, fun f hf =>
        hmax f (hsub f hf).1⟩
      | delete =>
        -- what is kept under the key would be the tombstone itself
        refine Or.inr ⟨⟨e, rfl, hkind⟩, fun f hf hk => absurd ((hmem f).mp hf).1 ?_⟩
        have hnewest : Answers db.tableVersions f.ukey cut (some f) := ((hmem f).mp hf).2
        have hsame : Answers db.tableVersions f.ukey cut (some e) :=
          ⟨he, hk.symm, hle, fun g hg hgk => hmax g hg (hgk.trans hk)⟩
        obtain rfl := Option.some_inj.mp (hnewest.unique hd hsame)
        simp [hkind]

/-- The tables answer at and below the flushed head. -/
theorem Db.WF.answers_tables {db : Db} (h : db.WF) {cut : ℕ}
    (hle : cut ≤ db.manifest.lastFlushedSeqno) (k : Bytes) :
    Answers db.tableVersions k cut (db.readView.getVersioned k cut) := by
  have hstored : ∀ e ∈ db.tableVersions, e ∈ db.stored :=
    fun e he => Db.mem_stored.mpr (Or.inr (Or.inr he))
  have htable : ∀ e ∈ db.stored, e.seq ≤ cut → e ∈ db.tableVersions := fun e he hseq => by
    refine (h.mem_stored_iff.mp he).resolve_left fun hmem => ?_
    have := (h.seq_of_replayable hmem).1
    omega
  have hanswer := h.recent.answers_getVersioned k cut
  generalize db.readView.getVersioned k cut = found at hanswer ⊢
  cases found with
  | none => exact fun f hf hk => hanswer f (hstored f hf) hk
  | some e =>
    obtain ⟨he, hk, hseq, hmax⟩ := hanswer
    exact ⟨htable e he hseq, hk, hseq, fun f hf => hmax f (hstored f hf)⟩

/-! ### The archive -/

namespace ForkCut

variable {c : ForkCut} {a : Archive}

/-- An archive that is fit to be opened: its tables show the state at the cut, and the records of
the files its view named are there. -/
structure Built (c : ForkCut) (s : Service) (a : Archive) : Prop where
  sound : a.Sound
  flushed : a.manifest.lastFlushedSeqno = c.seq
  tables : SnapshotOf s.engine.db.tableVersions c.seq a.manifest.nextFileId a.levels
  vlogs : a.vlogs = s.vlogs
  records : ∀ r ∈ s.engine.db.vlog.records, r.ptr.file ∈ s.vlogs → r ∈ a.records

theorem distinct_tables (hf : s.Forkable) : Distinct s.engine.db.tableVersions :=
  hf.consistent.distinct.mono fun e he =>
    hf.consistent.retains.sub e (Db.mem_stored.mpr (Or.inr (Or.inr he)))

/-- The tables that are built, with any file-id counter. -/
theorem exists_tables (hf : s.Forkable) (hcut : s.Cut c) (id : ℕ) : ∃ levels next,
    (if c.seq = c.head then some (c.view.version.levels, id)
      else writeSnapshotRun opts id c.view.version c.seq) = some (levels, next) ∧
    SnapshotOf s.engine.db.tableVersions c.seq
      (if c.seq = c.head then c.manifest.nextFileId else next) levels := by
  have hview : c.view = s.db.readView := congrArg ForkCut.view hcut.eq
  have hhead : c.head = s.engine.db.manifest.lastFlushedSeqno := congrArg ForkCut.head hcut.eq
  have hmanifest : c.manifest = s.engine.db.manifest := congrArg ForkCut.manifest hcut.eq
  split
  · rename_i heq
    refine ⟨_, _, rfl, ?_⟩
    rw [hview, hmanifest, heq, hhead]
    exact snapshotOf_head hf.consistent.wf
  · rw [hview]
    exact snapshotOf_run hf.consistent.wf (distinct_tables hf) _ _

/-- Such tables, with what is copied of a value log, are fit to be opened. -/
theorem sound_of_tables {held : List Entry} {levels : List (List Run)} {next n : ℕ} {v : Vlog}
    (h : SnapshotOf held c.seq next levels) (hv : v.WF n) (hlt : c.seq < MAX_SEQNO) :
    Archive.Sound ⟨levels, c.view.version.vlogs, c.vlogHead, v.records.filter (c.copies v),
      ⟨c.seq, next, next, []⟩⟩ where
  newer := h.newer
  ordered := h.ordered
  tables_le e he := (h.sub e he).2
  flushed_lt := hlt
  distinct := hv.distinct.sublist List.filter_sublist
  files _ hr := (of_decide_eq_true (List.mem_filter.mp hr).2).1
  runs_nodup := h.runs_nodup
  runs_lt := h.runs_lt
  pins := rfl

/-- **The build** ends, whatever the parent has done since. -/
theorem Held.build (h : c.Held opts s s') (hf : s.Forkable) (hcut : s.Cut c) : ∃ a next,
    c.build opts s' = some (a, next) ∧ c.Built s a ∧ ∀ r ∈ a.records,
      r ∈ s'.engine.db.vlog.records := by
  have hwf := hf.consistent.wf
  have hfiles := (forkable_of_reaches h.reaches).kept.streams.files
  have hvlog := hfiles.engine.consistent.wf.vlog
  have hlt : c.seq < MAX_SEQNO := lt_of_le_of_lt (le_trans hcut.le hwf.flushed_le) hwf.visible_lt
  have hvlogs : c.view.version.vlogs = s.vlogs := by
    rw [hcut.eq]
    rfl
  have hdisk : ∀ id ∈ c.view.version.vlogs, id ∈ s'.disk := (hfiles.views _ h.view).1
  obtain ⟨levels, next, htables, hsnap⟩ := @exists_tables opts s c hf hcut s'.engine.db.nextFileId
  refine ⟨_, next, ?_, ⟨sound_of_tables hsnap hvlog hlt, rfl, hsnap, hvlogs, fun r hr hfile => ?_⟩,
    fun r hr => (List.mem_filter.mp hr).1⟩
  · unfold ForkCut.build
    rw [htables, Option.bind_some, if_pos hdisk]
  · -- the part of the head that was written holds all its records
    have hr' := h.records r hr
    refine List.mem_filter.mpr ⟨hr', decide_eq_true ⟨hvlogs ▸ hfile, fun hlast hsame => ?_⟩⟩
    exact hvlog.below r hr' (hlast.trans hsame)

/-- **What the fork finds** is what the parent found at the cut, but for a tombstone that was
not written. -/
theorem Built.getVersioned_opened (h : c.Built s a) (hf : s.Forkable) (hcut : s.Cut c) (k : Bytes) :
    (a.opened opts).readView.getVersioned k c.seq = s.db.readView.getVersioned k c.seq ∨
      (a.opened opts).readView.getVersioned k c.seq = none ∧
        ∃ e, s.db.readView.getVersioned k c.seq = some e ∧ e.kind = .delete := by
  have hd : Distinct (a.levels.flatten.flatMap Run.entries) :=
    (distinct_tables hf).mono fun e he => (h.tables.sub e he).1
  have hopened : Answers (a.levels.flatten.flatMap Run.entries) k c.seq
      ((a.opened opts).readView.getVersioned k c.seq) :=
    ((h.sound.wf opts).recent.answers_getVersioned k c.seq).congr fun e =>
      Archive.stored_opened opts a
  have hfound : Answers s.engine.db.tableVersions k c.seq (s.db.readView.getVersioned k c.seq) :=
    hf.consistent.wf.answers_tables hcut.le k
  rcases h.tables.shows k _ hfound with hsame | ⟨⟨e, he, hkind⟩, hnone⟩
  · exact Or.inl (hopened.unique hd hsame)
  · exact Or.inr ⟨hopened.unique hd hnone, e, he, hkind⟩

/-- A pointer that is found at the cut resolves in the parent and in the archive. -/
theorem Built.resolves (h : c.Built s a) (hf : s.Forkable) (hcut : s.Cut c)
    (hkept : s.released ≤ c.seq) {k : Bytes} {x : Entry}
    (hx : s.db.readView.getVersioned k c.seq = some x) {p : ValuePtr} (hp : x.repr = .ptr p) :
    p.file ∈ s.vlogs ∧ ∃ w, ⟨p, k, w⟩ ∈ s.engine.db.vlog.records ∧ ⟨p, k, w⟩ ∈ a.records := by
  have hanswer := hf.consistent.wf.recent.answers_getVersioned k c.seq
  rw [show s.engine.db.readView.getVersioned k c.seq = some x from hx] at hanswer
  have hfile := hf.kept.readable (Or.inr ⟨hcut.registered, hkept⟩) hx hp
  obtain ⟨w, hrec⟩ := hf.consistent.record (hf.consistent.retains.sub x hanswer.1) hp
  rw [show x.ukey = k from hanswer.2.1] at hrec
  exact ⟨hfile, w, hrec, h.records _ hrec hfile⟩

/-- **The fork reads** the parent's values at the cut. -/
theorem Built.getAtSeq_opened (h : c.Built s a) (hf : s.Forkable) (hcut : s.Cut c)
    (hkept : s.released ≤ c.seq) (k : Bytes) :
    (a.opened opts).getAtSeq k c.seq = .ok (stateAfter s.engine.log c.seq k) := by
  have hwf := hf.consistent.wf
  have hvis : c.seq ≤ s.db.visibleSeqno := le_trans hcut.le hwf.flushed_le
  have hvis' : (a.opened opts).visibleSeqno = c.seq := h.flushed
  rw [← hf.kept.getAtSeq_eq (Or.inr ⟨hcut.registered, hkept⟩) k]
  unfold Db.getAtSeq
  rw [hvis', min_self, min_eq_left hvis]
  -- the newest version at the cut is in the fork, or it is a tombstone
  rcases h.getVersioned_opened hf hcut k with heq | ⟨hnone, e, he, hkind⟩
  · rw [heq]
    cases hx : s.db.readView.getVersioned k c.seq with
    | none => rfl
    | some x =>
      cases hkind : x.kind with
      | delete => simp only [hkind]
      | put =>
        simp only [hkind]
        refine congrArg (Except.map some) ?_
        cases hrepr : x.repr with
        | empty => rfl
        | inline w => rfl
        | ptr p =>
          -- the file of the pointer was copied with its records
          obtain ⟨hfile, w, hrec, hrec'⟩ := h.resolves hf hcut hkept hx hrepr
          have hhere : p.file ∈ (a.opened opts).version.vlogs :=
            List.mem_append_left _ (h.vlogs ▸ hfile)
          unfold Db.resolveRepr
          simp only [if_pos hhere, if_pos (show p.file ∈ s.db.version.vlogs from hfile)]
          exact ((h.sound.wf opts).vlog.readValue_eq hrec').trans (hwf.vlog.readValue_eq hrec).symm
  · rw [hnone, he]
    simp only [hkind]

/-- **The fork opens**: its definition records decode, for the parent's do. -/
theorem Built.opens (h : c.Built s a) (hf : s.Forkable) (hcut : s.Cut c)
    (hkept : s.released ≤ c.seq) :
    ∃ defs, a.openDb opts = some { a.opened opts with defs := defs } := by
  have hvis : (a.opened opts).visibleSeqno = c.seq := h.flushed
  have hload : (a.opened opts).loadRegistry.isSome := Db.loadRegistry_isSome fun k => by
    rw [hvis]
    exact ⟨_, h.getAtSeq_opened hf hcut hkept k, fun hk v hv =>
      hf.readable.decodes hf.kept.streams.files.engine hk hv⟩
  obtain ⟨child, hchild⟩ := Option.isSome_iff_exists.mp hload
  obtain ⟨defs, -, heq⟩ := Option.map_eq_some_iff.mp hchild
  exact ⟨defs, by rw [Archive.openDb_eq opts h.sound.pins, hchild, heq]⟩

end ForkCut

/-- The child appends to a file of its own. -/
theorem Archive.lt_headId (opts : Options) (a : Archive) :
    ∀ id ∈ a.vlogs, id < (a.opened opts).vlog.headId :=
  (lt_diskNextFileId a.load 0).2.1

/-- **Forks.**  A cut that the parent accepts is the seqno that was asked for, or the flushed
head; one below the head is asked for while no file it needs is released.  Whatever the
parent does while the registration and the view are held, the archive is built and opens to a
well-formed store that stands at the cut and holds no version above it; every pointer a read
finds there names a file of its own with the record in it; and every key has the value it had
in the parent after the op with that seqno, which is what the parent still reads there, as
long as no file retired above the cut passes the deletion gates.  Neither side writes into
what they share: the child's head is a new file, and no later run of the parent changes a
record that the archive took along. -/
theorem fork_reads {cut? : Option ℕ} {c : ForkCut}
    (hs : (service opts).Reaches (Service.Sound opts) s)
    (hphase : s.phase = .running) (hpin : s.pinCut cut? = .ok (c, s₁))
    (hbuild : c.Building opts s₁ s₂)
    (hkept : c.seq < s.engine.db.manifest.lastFlushedSeqno → s.released ≤ c.seq) :
    c.seq = cut?.getD s.engine.db.manifest.lastFlushedSeqno ∧
    ∃ a next child, c.build opts s₂ = some (a, next) ∧ a.openDb opts = some child ∧ child.WF ∧
      child.visibleSeqno = c.seq ∧ (∀ e ∈ child.stored, e.seq ≤ c.seq) ∧
      (∀ k x p, child.readView.getVersioned k c.seq = some x → x.repr = .ptr p →
        p.file ∈ child.version.vlogs ∧ ∃ w, ⟨p, k, w⟩ ∈ a.records) ∧
      (∀ k, child.getAtSeq k c.seq = .ok (stateAfter s.engine.log c.seq k) ∧
        (s₂.released ≤ c.seq → s₂.db.getAtSeq k c.seq = child.getAtSeq k c.seq)) ∧
      (∀ id ∈ a.vlogs, id < child.vlog.headId) ∧
      ∀ acts s₃, (service opts).run acts s₂ = some s₃ →
        ∀ r ∈ a.records, s₃.engine.db.vlog.readValue r.ptr r.key = .ok r.value := by
  obtain ⟨hpinned, hseq⟩ := pinned_of_pinCut hpin
  have hcut := hpinned.taken
  have hs₁ := hpinned.reaches hs hphase
  -- at the flushed head nothing is released
  have hkept₁ : s₁.released ≤ c.seq := by
    rw [hpinned.state]
    rcases hpinned.le.lt_or_eq with hlt | heq
    · exact hkept hlt
    · rw [heq]
      exact (forkable_of_reaches hs).kept.streams.files.released_le
  have hf := forkable_of_reaches hs₁
  have hheld := hbuild.held hs₁ hcut
  have hf' := forkable_of_reaches hheld.reaches
  have hlog : s₁.engine.log = s.engine.log := by rw [hpinned.state]
  obtain ⟨a, next, hbuilt, hfit, hrecords⟩ := hheld.build hf hcut
  obtain ⟨defs, hopen⟩ := hfit.opens hf hcut hkept₁
  have hwf : Db.WF { a.opened opts with defs := defs } :=
    { hfit.sound.wf opts with recent := (hfit.sound.wf opts).recent }
  refine ⟨hseq, a, next, _, hbuilt, hopen, hwf, hfit.flushed, fun e he => ?_,
    fun k x p hx hp => ?_, fun k => ?_, a.lt_headId opts, fun acts s₃ hrun r hr => ?_⟩
  · exact (hfit.tables.sub e ((Archive.stored_opened opts a).mp he)).2
  · have hfound : s₁.db.readView.getVersioned k c.seq = some x :=
      (hfit.getVersioned_opened hf hcut k).elim (fun heq => heq.symm.trans hx) fun hnone =>
        absurd (hnone.1.symm.trans hx) (by simp)
    obtain ⟨hfile, w, -, hrec⟩ := hfit.resolves hf hcut hkept₁ hfound hp
    exact ⟨List.mem_append_left _ (hfit.vlogs ▸ hfile), w, hrec⟩
  · have hread : Db.getAtSeq { a.opened opts with defs := defs } k c.seq =
      .ok (stateAfter s.engine.log c.seq k) :=
      hlog ▸ hfit.getAtSeq_opened hf hcut hkept₁ k
    refine ⟨hread, fun hkept₂ => ?_⟩
    have hparent := hf'.kept.getAtSeq_eq (Or.inr ⟨List.mem_append_left _ hheld.handle, hkept₂⟩) k
    rw [hheld.state, hlog] at hparent
    exact hparent.trans hread.symm
  · obtain ⟨hfiles, hkept⟩ := records_run hf'.kept.streams.files hrun
    exact hfiles.engine.consistent.wf.vlog.readValue_eq (hkept r (hrecords r hr))

/-- In a run of regular steps every cut is above the seqnos of the released files. -/
theorem released_le_of_regular {cut? : Option ℕ} {c : ForkCut}
    (hs : (service opts).Reaches (Service.Regular opts) s)
    (hpin : s.pinCut cut? = .ok (c, s₁)) : s₁.released ≤ c.seq := by
  have hcovered : s.Covered := hs.invariant (covered_init opts) covered_step
  have hfiles := hcovered.kept.streams.files
  obtain ⟨hpinned, -⟩ := pinned_of_pinCut hpin
  rw [hpinned.state]
  rcases hpinned.le.lt_or_eq with hlt | heq
  · -- the cut is at or above a registered seqno
    have he : s.engine.step opts (.snapshotAt c.seq) = some { s.engine with
        db := s.engine.db.registerSnapshotAt c.seq, handles := c.seq :: s.engine.handles } := by
      show (s.engine.db.tryRegisterSnapshotAt c.seq).toOption.map _ = _
      rw [hpinned.retained hlt]
      rfl
    obtain ⟨recs, hmove⟩ := moved_step hfiles.engine he fun _ _ => by simp
    exact hmove.snapshots _ hfiles.released_le hcovered.snapshots c.seq List.mem_cons_self
  · rw [heq]
    exact hfiles.released_le

/-- A value is overwritten and flushed while a snapshot holds it, and a deletion is queued. -/
def overwriteFlushed : List ServiceAction :=
  [.engine (.enqueue (.batch [.put [byte 107] [byte 1]])) false, .engine (.group 1) false, .publish,
    .engine .snapshot false,
    .engine (.enqueue (.batch [.put [byte 107] [byte 2]])) false,
      .engine (.group 1) false, .publish,
    .engine .rotate false, .engine .flush false,
    .engine (.enqueue (.batch [.delete [byte 107]])) false]

/-- A fork below the flushed head, with the deletion committed before it is built. -/
theorem fork_reads_below : ∃ (s₂ : Service) (c : ForkCut) (a : Archive) (next : ℕ) (child : Db),
    s₂.engine.db.visibleSeqno = 3 ∧ c.seq = 1 ∧ c.build gcOptions s₂ = some (a, next) ∧
    a.openDb gcOptions = some child ∧ child.getAtSeq [byte 107] 1 = .ok (some [byte 1]) := by
  have hrun : ((service gcOptions).replay (Service.Sound gcOptions) overwriteFlushed
      (service gcOptions).init).any (fun s => decide (s.phase = .running ∧ s.released = 0 ∧
        stateAfter s.engine.log 1 [byte 107] = some [byte 1] ∧
        (s.pinCut (some 1)).toOption.any
          (fun r => decide (r.2.Sound gcOptions (.engine (.group 1) false) ∧
          (r.2.step gcOptions (.engine (.group 1) false)).any
            (fun s₂ => decide (1 ∈ s₂.engine.handles ∧
            s₂.engine.db.visibleSeqno = 3)) = true)) = true)) = true := by
    decide +kernel
  obtain ⟨s, hs, hphase, hreleased, hstate, hpin⟩ := System.exists_reaches hrun
  cases hcut : s.pinCut (some 1) with
  | error err =>
    rw [hcut] at hpin
    exact absurd hpin Bool.false_ne_true
  | ok r =>
    obtain ⟨c, s₁⟩ := r
    rw [hcut] at hpin
    obtain ⟨hsound, hstep⟩ := of_decide_eq_true hpin
    obtain ⟨s₂, hs₂, hafter⟩ := (Option.any_eq_true _ _).mp hstep
    obtain ⟨hhandle, hvis⟩ := of_decide_eq_true hafter
    obtain ⟨hpinned, hseq⟩ := pinned_of_pinCut hcut
    have hone : c.seq = 1 := hseq
    have hview : (c.view, c.seq) ∈ s₂.views := by
      cases Service.takes hs₂ with
      | engine headFault hphase hserves hpub hfree he => exact hpinned.taken.view
    have hbuild : c.Building gcOptions s₁ s₂ := .step .start hsound hs₂ (hone ▸ hhandle) hview
    obtain ⟨-, a, next, child, hbuilt, hopen, -, -, -, -, hread, -⟩ :=
      fork_reads hs hphase hcut hbuild (fun _ => hreleased ▸ Nat.zero_le _)
    refine ⟨s₂, c, a, next, child, hvis, hone, hbuilt, hopen, ?_⟩
    rw [← hstate]
    exact hone ▸ (hread [byte 107]).1

end Fluent31
