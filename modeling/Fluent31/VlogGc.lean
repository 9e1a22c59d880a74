/-
Relocation and logical state.

`Service.userLog` is the log without the relocation commits.  A relocation puts
again what a key holds already, so the state after the log is the state after
the user log at every seqno.

* `relocates_step` — every action keeps this, and relocations capture nothing;
* `gc_preserves_state` — what readers see of it, chunk by chunk and over whole
  runs, and that nothing current is left in a victim.
-/
import Fluent31.VlogReaders

namespace Fluent31

open Mvcc

variable {opts : Options} {s s' : Service} {act : ServiceAction} {log recs : List CommitRec}

/-! ### Replays -/

theorem stateAfter_append_eq (log recs : List CommitRec) (t : ℕ) :
    stateAfter (log ++ recs) t =
      ((recs.flatMap CommitRec.numbered).filter fun p => decide (p.2 ≤ t)).foldl
      (fun m p => applyOp m p.1) (stateAfter log t) := by
  unfold stateAfter replay
  rw [List.flatMap_append, List.filter_append, List.foldl_append]

/-- Ops that write what is there change nothing. -/
theorem foldl_applyOp_same {ops : List (BatchOp × ℕ)} {m : Bytes → Option Bytes}
    (h : ∀ p ∈ ops, p.1.value? = m p.1.key) : ops.foldl (fun m p => applyOp m p.1) m = m := by
  induction ops with
  | nil => rfl
  | cons p ops ih =>
    have hhead : applyOp m p.1 = m := by
      funext k
      unfold applyOp
      split
      · rename_i hk
        rw [hk]
        exact h p List.mem_cons_self
      · rfl
    rw [List.foldl_cons, hhead]
    exact ih fun q hq => h q (List.mem_cons_of_mem _ hq)

/-- Cutting commits that end at or below `head` from those that begin above it. -/
theorem stateAfter_cut {head : ℕ} (h : ∀ c ∈ log, c.base ≤ head → ∀ p ∈ c.numbered, p.2 ≤ head)
    (t : ℕ) :
    stateAfter (log.filter fun c => decide (c.base ≤ head)) t = stateAfter log (min t head) := by
  have hfilter : ((log.filter fun c => decide (c.base ≤ head)).flatMap CommitRec.numbered).filter
      (fun p => decide (p.2 ≤ t)) =
        (log.flatMap CommitRec.numbered).filter fun p => decide (p.2 ≤ min t head) := by
    induction log with
    | nil => rfl
    | cons c log ih =>
      have hrest := ih fun d hd => h d (List.mem_cons_of_mem _ hd)
      by_cases hc : c.base ≤ head
      · rw [List.filter_cons_of_pos (by simpa using hc), List.flatMap_cons, List.flatMap_cons,
          List.filter_append, List.filter_append, hrest]
        congr 1
        refine List.filter_congr fun p hp => ?_
        have := h c List.mem_cons_self hc p hp
        rw [decide_eq_decide]
        omega
      · have hnil : c.numbered.filter (fun p => decide (p.2 ≤ min t head)) = [] := by
          rw [List.filter_eq_nil_iff]
          rintro ⟨op, n⟩ hp
          have hle := (List.mk_mem_zipIdx_iff_le_and_getElem?_sub.mp hp).1
          simp only [decide_eq_true_eq]
          omega
        rw [List.filter_cons_of_neg (by simpa using hc), List.flatMap_cons,
          List.filter_append, hnil, List.nil_append]
        exact hrest
  unfold stateAfter replay
  rw [hfilter]

/-! ### Relocation ops -/

/-- A relocation writes the value the key holds. -/
theorem relocationOps_same {e : Engine} (h : e.Inv) {chunk : List VlogRecord}
    (hchunk : ∀ r ∈ chunk, r ∈ e.db.vlog.records) {op : BatchOp}
    (hop : op ∈ relocationOps e.db chunk)
    {t : ℕ} (ht : e.db.visibleSeqno ≤ t) : op.kind = .put ∧
      op.value? = stateAfter e.log t op.key := by
  have hcons := h.consistent
  obtain ⟨r, hr, hsome⟩ := List.mem_filterMap.mp hop
  cases hx : e.db.readView.getVersioned r.key MAX_SEQNO with
  | none =>
    rw [hx] at hsome
    exact absurd hsome (by simp)
  | some x =>
    rw [hx] at hsome
    simp only at hsome
    split at hsome
    · rename_i hlive
      obtain rfl := Option.some_inj.mp hsome
      have hfloor : e.floor ≤ MAX_SEQNO :=
        le_trans h.floor_le_visible (le_of_lt hcons.wf.visible_lt)
      have hnewest := hcons.newest_of_found hfloor hx
      -- no version is numbered above the visible seqno, so it is the newest at `t`
      have hat : IsNewest (historyOf e.log) r.key t x :=
        ⟨hnewest.1, hnewest.2.1, le_trans (hcons.history_le hnewest.1) ht, fun f hf hk _ =>
          hnewest.2.2.2 f hf hk (le_trans (hcons.history_le hf) (le_of_lt hcons.wf.visible_lt))⟩
      obtain ⟨op, -, hholds, hstate⟩ := stateAfter_of_newest hcons.encodes hcons.contiguous hat
      rw [hlive.2] at hholds
      obtain ⟨w, hw, hmem⟩ := hholds
      have heq := hcons.wf.vlog.eq_of_ptr hmem (hchunk r hr) rfl
      refine ⟨rfl, ?_⟩
      show some r.value = stateAfter e.log t r.key
      rw [hstate, hw]
      exact congrArg some (congrArg VlogRecord.value heq).symm
    · exact absurd hsome (by simp)

/-- A batch that is not applied leaves the log. -/
theorem relocate_log_of_not {e : Engine} {chunk : List VlogRecord}
    (h : (!(relocationOps e.db chunk).isEmpty &&
      (e.db.applyLocked opts (relocationOps e.db chunk) false).2.isOk) = false) :
    (e.relocate opts chunk).log = e.log := by
  unfold Engine.relocate
  simp only
  split
  · rfl
  · rename_i hne
    cases hr : (e.db.applyLocked opts (relocationOps e.db chunk) false).2 with
    | ok u =>
      rw [hr, Bool.eq_false_iff.mpr hne] at h
      exact absurd h (by simp [Except.isOk, Except.toBool])
    | error err =>
      simp only
      exact List.append_nil _

/-- A relocation commit leaves the state at every seqno. -/
theorem stateAfter_relocation {e : Engine} (h : e.Inv) {chunk : List VlogRecord}
    (hchunk : ∀ r ∈ chunk, r ∈ e.db.vlog.records) (t : ℕ) :
    stateAfter (e.log ++ [recOf opts e.db ⟨relocationOps e.db chunk, none, false⟩]) t =
      stateAfter e.log t := by
  rw [stateAfter_append_eq]
  refine foldl_applyOp_same ?_
  rintro ⟨op, n⟩ hp
  obtain ⟨hp, hn⟩ := List.mem_filter.mp hp
  rw [List.flatMap_singleton] at hp
  obtain ⟨hle, hop⟩ := List.mk_mem_zipIdx_iff_le_and_getElem?_sub.mp hp
  have hmem : op ∈ relocationOps e.db chunk ++ [] := List.mem_of_getElem? hop
  rw [List.append_nil] at hmem
  have hbase : e.db.visibleSeqno + 1 ≤ n := hle
  have hn' : n ≤ t := of_decide_eq_true hn
  exact (relocationOps_same h hchunk hmem (by omega)).2

/-! ### The user log -/

/-- The log without the relocation commits. -/
def Service.userLog (s : Service) : List CommitRec :=
  s.engine.log.filter fun c => decide (c.base ∉ s.relocated)

structure Service.Relocates (s : Service) : Prop where
  files : s.Files
  below : ∀ base ∈ s.relocated, base ≤ s.engine.db.visibleSeqno
  plain : ∀ c ∈ s.engine.log, c.base ∈ s.relocated → c.capture = false ∧ c.events = [] ∧
    ∀ op ∈ c.ops, op.kind = .put
  same : ∀ t, stateAfter s.engine.log t = stateAfter s.userLog t

theorem relocates_init (opts : Options) : (Service.init opts).Relocates where
  files := files_init opts
  below := fun _ hb => absurd hb List.not_mem_nil
  plain := fun _ hc => absurd hc List.not_mem_nil
  same := fun _ => rfl

theorem Consistent.base_le {db : Db} {floor : ℕ} (h : Consistent db log floor) {c : CommitRec}
    (hc : c ∈ log) :
    c.base ≤ db.visibleSeqno := by
  obtain ⟨-, hle, hne⟩ := h.contiguous.mem (List.mem_map_of_mem hc)
  have := List.length_pos_iff.mpr hne
  omega

namespace Service.Relocates

variable {a : Action} {e' : Engine}

/-- User commits join the log and the user log. -/
theorem move {fault : Bool} (h : s.Relocates) (hmove : Moved a s.engine e' recs) (hinv : e'.Inv) :
    (s.moved e' fault).Relocates := by
  have hbase : ∀ c ∈ recs, s.engine.db.visibleSeqno < c.base :=
    h.files.engine.consistent.contiguous.split_log (hmove.log ▸ hinv.consistent.contiguous)
  have hfresh : ∀ c ∈ recs, c.base ∉ s.relocated := fun c hc hmem =>
    absurd (h.below _ hmem) (not_le_of_gt (hbase c hc))
  have huser : (s.moved e' fault).userLog = s.userLog ++ recs := by
    show e'.log.filter (fun c => decide (c.base ∉ s.relocated)) = _
    rw [hmove.log, List.filter_append,
      (List.filter_eq_self (l := recs)).mpr fun c hc => decide_eq_true (hfresh c hc)]
    rfl
  refine ⟨h.files.move hmove hinv, fun base hb => le_trans (h.below base hb) hmove.visible_le,
    fun c hc hmem => ?_, fun t => ?_⟩
  · have hc' : c ∈ s.engine.log ++ recs := hmove.log ▸ hc
    rcases List.mem_append.mp hc' with hc' | hc'
    · exact h.plain c hc' hmem
    · exact absurd hmem (hfresh c hc')
  · rw [huser]
    show stateAfter e'.log t = _
    rw [hmove.log, stateAfter_append_eq, stateAfter_append_eq, h.same t]

/-- A chunk is relocated. -/
theorem relocated {chunk : List VlogRecord} {applied : Bool} (h : s.Relocates)
    (he : s.engine.step opts (.relocate chunk) = some e')
    (happlied : applied = (!(relocationOps s.engine.db chunk).isEmpty &&
      (s.engine.db.applyLocked opts (relocationOps s.engine.db chunk) false).2.isOk)) :
    (e'.log.filter fun c => decide (c.base ∉
      if applied then (s.engine.db.visibleSeqno + 1) :: s.relocated else s.relocated)) = s.userLog ∧
    (e'.log = s.engine.log ++ if applied then
      [recOf opts s.engine.db ⟨relocationOps s.engine.db chunk, none, false⟩] else []) ∧
    ∀ t, stateAfter e'.log t = stateAfter s.engine.log t := by
  obtain ⟨hchunk, rfl⟩ := Engine.guarded_eq_some he
  cases applied with
  | false =>
    have hlog := relocate_log_of_not happlied.symm
    refine ⟨?_, hlog.trans (List.append_nil _).symm, fun t => by rw [hlog]⟩
    rw [hlog]
    rfl
  | true =>
    have hboth : (relocationOps s.engine.db chunk).isEmpty = false ∧
        (s.engine.db.applyLocked opts (relocationOps s.engine.db chunk) false).2.isOk = true := by
      have := happlied.symm
      simpa using this
    have hlog := relocate_log hboth.1 hboth.2
    refine ⟨?_, hlog, fun t => ?_⟩
    · have hgone : [recOf opts s.engine.db ⟨relocationOps s.engine.db chunk, none, false⟩].filter
          (fun c => decide
            (c.base ∉ if true = true then (s.engine.db.visibleSeqno + 1) :: s.relocated
            else s.relocated)) = [] := by
        rw [List.filter_eq_nil_iff]
        intro c hc
        rw [List.mem_singleton.mp hc, decide_eq_true_eq, not_not]
        exact List.mem_cons_self
      rw [hlog, List.filter_append, hgone, List.append_nil]
      refine List.filter_congr fun c hc => ?_
      have := h.files.engine.consistent.base_le hc
      rw [decide_eq_decide, if_pos rfl, List.mem_cons]
      constructor
      · exact fun hnot hmem => hnot (Or.inr hmem)
      · rintro hnot (heq | hmem)
        · omega
        · exact hnot hmem
    · rw [hlog]
      exact stateAfter_relocation h.files.engine hchunk t

end Service.Relocates

/-- The logs that a reopen leaves. -/
theorem userLog_reopen {n orphan : ℕ} {e' : Engine} (h : s.Relocates)
    (he : s.engine.reopen opts n orphan = some e') :
    (e'.log.filter fun c =>
      decide (c.base ∉ s.relocated.filter fun base => decide (base ≤ e'.db.visibleSeqno))) =
      s.userLog.filter (fun c => decide (c.base ≤ e'.db.visibleSeqno)) ∧
    (∀ t, stateAfter e'.log t = stateAfter s.engine.log (min t e'.db.visibleSeqno)) ∧
    ∀ t, stateAfter (s.userLog.filter fun c => decide (c.base ≤ e'.db.visibleSeqno)) t =
      stateAfter s.userLog (min t e'.db.visibleSeqno) := by
  have hlog := reopen_log h.files.engine he
  have hinv := h.files.engine.reopened he
  have hends : ∀ c ∈ s.engine.log, c.base ≤ e'.db.visibleSeqno → ∀ p ∈ c.numbered,
      p.2 ≤ e'.db.visibleSeqno := by
    intro c hc hbase p hp
    have hmem : c ∈ e'.log := by
      rw [hlog]
      exact List.mem_filter.mpr ⟨hc, decide_eq_true hbase⟩
    obtain ⟨x, hx, hseq, -⟩ := exists_version_of_numbered hinv.consistent.encodes
      (List.mem_flatMap.mpr ⟨c, hmem, hp⟩)
    exact hseq ▸ hinv.consistent.history_le hx
  refine ⟨?_, fun t => ?_, fun t =>
    stateAfter_cut (fun c hc => hends c (List.mem_of_mem_filter hc)) t⟩
  · rw [hlog]
    unfold cutLog Service.userLog
    rw [List.filter_filter, List.filter_filter]
    refine List.filter_congr fun c _ => ?_
    rw [Bool.and_comm, ← Bool.decide_and, ← Bool.decide_and, decide_eq_decide]
    refine and_congr_right fun hbase => not_congr ?_
    rw [List.mem_filter, decide_eq_true_eq]
    exact and_iff_left hbase
  · rw [hlog]
    exact stateAfter_cut hends t

/-- **Every action** leaves the state after the log that after the user log. -/
theorem relocates_step (h : s.Relocates) (hs : s.step opts act = some s') : s'.Relocates := by
  have hfiles := files_step h.files hs
  cases Service.takes hs with
  | engine headFault hphase hserves hpub hfree he =>
    obtain ⟨recs, hmove⟩ := moved_step h.files.engine he fun n orphan hopen => by
      rw [hopen] at hserves
      exact absurd hserves Bool.false_ne_true
    exact h.move hmove (inv_step h.files.engine he)
  | @gcChunk p chunk todo e' applied headFault hp htodo hpub he happlied =>
    obtain ⟨recs, hmove⟩ := moved_step h.files.engine he fun _ _ => by simp
    obtain ⟨hchunk, -⟩ := Engine.guarded_eq_some he
    obtain ⟨huser, hlog, hsame⟩ := h.relocated he happlied
    have hinv := inv_step h.files.engine he
    refine ⟨hfiles, fun base hb => ?_, fun c hc hmem => ?_, fun t => ?_⟩
    · show base ≤ e'.db.visibleSeqno
      cases happ : applied with
      | false =>
        rw [happ] at hb
        exact le_trans (h.below base hb) hmove.visible_le
      | true =>
        rw [happ] at hb hlog
        rcases List.mem_cons.mp hb with rfl | hb
        · have hc : recOf opts s.engine.db ⟨relocationOps s.engine.db chunk, none, false⟩ ∈
            e'.log := by
            rw [hlog]
            exact List.mem_append_right _ (List.mem_singleton_self _)
          exact hinv.consistent.base_le hc
        · exact le_trans (h.below base hb) hmove.visible_le
    · have hc' : c ∈ s.engine.log ++ if applied then
          [recOf opts s.engine.db ⟨relocationOps s.engine.db chunk, none, false⟩] else [] :=
            hlog ▸ hc
      rcases List.mem_append.mp hc' with hold | hnew
      · -- an older commit has a smaller base than this relocation
        refine h.plain c hold ?_
        have hle := h.files.engine.consistent.base_le hold
        have hmem' : c.base ∈
            if applied then (s.engine.db.visibleSeqno + 1) :: s.relocated else s.relocated := hmem
        split at hmem'
        · rcases List.mem_cons.mp hmem' with heq | hmem'
          · omega
          · exact hmem'
        · exact hmem'
      · split at hnew
        · rw [List.mem_singleton.mp hnew]
          exact ⟨rfl, rfl, fun op hop => (relocationOps_same h.files.engine hchunk hop le_rfl).1⟩
        · exact absurd hnew List.not_mem_nil
    · show stateAfter e'.log t = stateAfter (e'.log.filter _) t
      rw [huser]
      exact (hsame t).trans (h.same t)
  | subscribe start hphase hpub hstart he =>
    obtain rfl := Option.some_inj.mp he
    exact ⟨hfiles, h.below, h.plain, h.same⟩
  | deliver hsub hclosed htaken hout he =>
    obtain ⟨-, rfl⟩ := Engine.guarded_eq_some he
    exact ⟨hfiles, h.below, h.plain, h.same⟩
  | close hsub hclosed hchecked htaken he =>
    obtain ⟨-, rfl⟩ := Engine.guarded_eq_some he
    exact ⟨hfiles, h.below, h.plain, h.same⟩
  | reopen hreopen =>
    obtain ⟨e', disk, he, -, -, -, -, -, rfl⟩ := Service.reopen_cases hreopen
    obtain ⟨huser, hcut, hcutUser⟩ := userLog_reopen h he
    refine ⟨hfiles, fun base hb => of_decide_eq_true (List.mem_filter.mp hb).2,
      fun c hc hmem => ?_, fun t => ?_⟩
    · have hc' : c ∈ s.engine.log := by
        have hcut' : c ∈ cutLog s.engine.log e'.db.visibleSeqno := reopen_log h.files.engine he ▸ hc
        exact List.mem_of_mem_filter hcut'
      exact h.plain c hc' (List.mem_of_mem_filter hmem)
    · show stateAfter e'.log t = stateAfter (e'.log.filter _) t
      rw [huser, hcut, hcutUser, h.same]
  | _ => exact ⟨hfiles, h.below, h.plain, h.same⟩

/-! ### What readers see -/

/-- No seqno above the visible one adds to the state. -/
theorem Consistent.stateAfter_visible {db : Db} {floor t : ℕ} (h : Consistent db log floor)
    (ht : db.visibleSeqno ≤ t) : stateAfter log t = stateAfter log db.visibleSeqno := by
  have hends : ∀ c ∈ log, c.base ≤ db.visibleSeqno → ∀ p ∈ c.numbered, p.2 ≤ db.visibleSeqno := by
    intro c hc _ p hp
    obtain ⟨x, hx, hseq, -⟩ :=
      exists_version_of_numbered h.encodes (List.mem_flatMap.mpr ⟨c, hc, hp⟩)
    exact hseq ▸ h.history_le hx
  have hall : (log.filter fun c => decide (c.base ≤ db.visibleSeqno)) = log :=
    List.filter_eq_self.mpr fun c hc => decide_eq_true (h.base_le hc)
  have hcut := stateAfter_cut hends t
  rw [hall, min_eq_right ht] at hcut
  exact hcut

/-- Where the pointer that is found resolves, the readers' map makes no
difference. -/
theorem Service.getAtSeq_of_mapped (h : s.engine.Inv) {t : ℕ} (hfloor : s.engine.floor ≤ t)
    (hvis : t ≤ s.engine.db.visibleSeqno) {key : Bytes}
    (hmapped : ∀ x p, s.engine.db.readView.getVersioned key t = some x → x.repr = .ptr p →
      p.file ∈ s.vlogs) :
    s.db.getAtSeq key t = .ok (stateAfter s.engine.log t key) := by
  rw [← h.consistent.getAtSeq_eq hfloor hvis key]
  unfold Db.getAtSeq
  rw [show s.db.visibleSeqno = s.engine.db.visibleSeqno from rfl, min_eq_left hvis,
    show s.db.readView.getVersioned key t = s.engine.db.readView.getVersioned key t from rfl]
  cases hx : s.engine.db.readView.getVersioned key t with
  | none => rfl
  | some x =>
    cases hkind : x.kind with
    | delete => simp only [hkind]
    | put =>
      simp only [hkind]
      refine congrArg (Except.map some) ?_
      cases hrepr : x.repr with
      | empty => rfl
      | inline w => rfl
      | ptr p =>
        -- both maps name the file
        have hfile : p.file ∈ s.engine.db.version.vlogs := by
          have hanswer := h.consistent.wf.recent.answers_getVersioned key t
          rw [hx] at hanswer
          obtain ⟨w, hmem⟩ := h.consistent.record (h.consistent.retains.sub x hanswer.1) hrepr
          exact h.consistent.wf.vlogs _ hmem
        have hhere : p.file ∈ s.db.version.vlogs := hmapped x p hx hrepr
        unfold Db.resolveRepr
        simp only [if_pos hhere, if_pos hfile]
        rfl

/-- The newest version at the seqno lies in a file that the map does not name. -/
def Service.Dangles (s : Service) (t : ℕ) (key : Bytes) : Prop :=
  ∃ x p, IsNewest s.history key t x ∧ x.repr = .ptr p ∧ p.file ∉ s.vlogs

/-- A read either fails at such a version or returns the state after the log. -/
theorem Service.getAtSeq_cases (h : s.engine.Inv) {t : ℕ} (hfloor : s.engine.floor ≤ t)
    (hvis : t ≤ s.engine.db.visibleSeqno) (key : Bytes) :
    s.Dangles t key ∧ s.db.getAtSeq key t = .error (.corruption "pointer into unknown vlog file") ∨
      ¬ s.Dangles t key ∧ s.db.getAtSeq key t = .ok (stateAfter s.engine.log t key) := by
  have hcons := h.consistent
  by_cases hd : s.Dangles t key
  · refine Or.inl ⟨hd, ?_⟩
    obtain ⟨x, p, hnewest, hp, hout⟩ := hd
    have hput := hcons.put_of_ptr hnewest.1 hp
    have hfound : s.db.readView.getVersioned key t = some x := by
      rcases hcons.retains.answers hcons.distinct hfloor
        (hcons.wf.recent.answers_getVersioned key t)
        (answers_some.mpr hnewest) with heq | ⟨-, f, hf, hdead, -⟩
      · exact heq
      · obtain rfl := Option.some_inj.mp hf
        exact absurd (hput.symm.trans hdead) (by simp)
    unfold Db.getAtSeq
    rw [show s.db.visibleSeqno = s.engine.db.visibleSeqno from rfl, min_eq_left hvis, hfound]
    simp only [hput, hp]
    exact congrArg (Except.map some) (if_neg hout)
  · refine Or.inr ⟨hd, Service.getAtSeq_of_mapped h hfloor hvis fun x p hx hp => ?_⟩
    by_contra hout
    exact hd ⟨x, p, hcons.newest_of_found hfloor hx, hp, hout⟩

theorem Service.Kept.getAtSeq_eq (h : s.Kept) {t : ℕ}
    (ht : t = s.engine.db.visibleSeqno ∨ t ∈ s.engine.registered ∧ s.released ≤ t) (key : Bytes) :
    s.db.getAtSeq key t = .ok (stateAfter s.engine.log t key) := by
  have hinv := h.streams.files.engine
  obtain ⟨hfloor, hvis⟩ : s.engine.floor ≤ t ∧ t ≤ s.engine.db.visibleSeqno := by
    rcases ht with rfl | hreg
    · exact ⟨hinv.floor_le_visible, le_rfl⟩
    · exact hinv.retained t (hinv.snapshots.mem_iff.mpr hreg.1)
  exact Service.getAtSeq_of_mapped hinv hfloor hvis fun x p hx hp => h.readable ht hx hp

/-- What the current state finds is not shadowed. -/
theorem Service.Kept.not_shadowed (h : s.Kept) {key : Bytes} {x : Entry}
    (hx : s.db.readView.getVersioned key s.engine.db.visibleSeqno = some x) :
    ¬ Shadowed s.engine.db.visibleSeqno s.history x := by
  have hinv := h.streams.files.engine
  exact (hinv.consistent.newest_of_found hinv.floor_le_visible
    (show s.engine.db.readView.getVersioned key _ = some x from hx)).not_shadowed le_rfl

/-- A chunk of a pass leaves the state at every seqno and the registrations. -/
theorem stateAfter_gcChunk (h : s.Relocates) {headFault : Bool}
    (hs : s.step opts (.gcChunk headFault) = some s') :
    (∀ t, stateAfter s'.engine.log t = stateAfter s.engine.log t) ∧
    (∀ t, t ∈ s'.engine.registered ↔ t ∈ s.engine.registered) ∧
    s.engine.db.visibleSeqno ≤ s'.engine.db.visibleSeqno := by
  cases Service.takes hs with
  | @gcChunk p chunk todo e' applied headFault hp htodo hpub he happlied =>
    have hinv := inv_step h.files.engine he
    obtain ⟨-, -, hsame⟩ := h.relocated he happlied
    obtain ⟨-, rfl⟩ := Engine.guarded_eq_some he
    obtain ⟨recs, hadds⟩ := adds_relocate opts h.files.engine.consistent chunk
    refine ⟨hsame, fun t => ?_, hadds.extended.frame.visible_le⟩
    show t ∈ (s.engine.relocate opts chunk).registered ↔ _
    rw [← hinv.snapshots.mem_iff, ← h.files.engine.snapshots.mem_iff,
      hadds.extended.frame.snapshots]

/-- A chunk relocates current values only: below the visible seqno the newest versions,
and whether they resolve, stay as they are. -/
theorem dangles_gcChunk (h : s.Files) {headFault : Bool}
    (hs : s.step opts (.gcChunk headFault) = some s')
    {t : ℕ} (ht : t ≤ s.engine.db.visibleSeqno) (key : Bytes) : s'.Dangles t key ↔
      s.Dangles t key := by
  have hfiles := files_step h hs
  cases Service.takes hs with
  | @gcChunk p chunk todo e' applied headFault hp htodo hpub he happlied =>
    obtain ⟨recs, hmove⟩ := moved_step h.engine he fun _ _ => by simp
    have hlater := h.engine.consistent.contiguous.split_log
      (hmove.log ▸ (inv_step h.engine he).consistent.contiguous)
    have hnew : ∀ x ∈ historyOf recs, t < x.seq := by
      intro x hx
      obtain ⟨r, hr, hx⟩ := List.mem_flatMap.mp hx
      obtain ⟨c, hc, rfl⟩ := List.mem_map.mp hr
      have hbase := hlater c hc
      have hseq := (seq_of_mem_versionsFrom hx).1
      change c.base ≤ x.seq at hseq
      omega
    have hhistory : ∀ x, x.seq ≤ t → (x ∈ historyOf e'.log ↔ x ∈ s.history) := fun x hle =>
      (mem_historyOf_moved hmove).trans (or_iff_left fun hx => absurd (hnew x hx) (not_lt.mpr hle))
    have hnewest : ∀ x, IsNewest (historyOf e'.log) key t x ↔ IsNewest s.history key t x := by
      intro x
      constructor
      · rintro ⟨hx, hkey, hle, hmax⟩
        exact ⟨(hhistory x hle).mp hx, hkey, hle, fun f hf hk hfle =>
          hmax f ((hhistory f hfle).mpr hf) hk hfle⟩
      · rintro ⟨hx, hkey, hle, hmax⟩
        exact ⟨(hhistory x hle).mpr hx, hkey, hle, fun f hf hk hfle =>
          hmax f ((hhistory f hfle).mp hf) hk hfle⟩
    refine exists_congr fun x => exists_congr fun q => (and_congr (hnewest x) Iff.rfl).trans ?_
    refine and_congr_right fun hx => and_congr_right fun hq => not_congr ?_
    refine ((Service.Files.moved_files s e' headFault).1 q.file).trans (or_iff_left ?_)
    -- a fresh head file holds nothing yet
    rintro ⟨heq, hrot, -⟩
    obtain ⟨w, hrec⟩ := h.engine.consistent.record hx.1 hq
    have hlt := h.engine.consistent.wf.vlog.file_lt _ hrec
    have hge := hmove.placed.head.resolve_left hrot
    change q.file < _ at hlt
    omega

/-- **Collection leaves the state alone.**  In every state reached by homed
steps, a read in the current state, and at a registered seqno from those of the
released files on, returns what the user commits alone give; a relocation commit holds
puts only and no trigger event; no current version lies in a retired file, nor in the
victim of a pass that has done its chunks; and a chunk changes no read, at no
registered seqno. -/
theorem gc_preserves_state (h : (service opts).Reaches (Service.Homed opts) s) :
    (∀ t, t = s.engine.db.visibleSeqno ∨ t ∈ s.engine.registered ∧ s.released ≤ t →
      ∀ key, s.db.getAtSeq key t = .ok (stateAfter s.userLog t key)) ∧
    (∀ c ∈ s.engine.log, c.base ∈ s.relocated → c.capture = false ∧ c.events = [] ∧
      ∀ op ∈ c.ops, op.kind = .put) ∧
    (∀ key x p, s.db.readView.getVersioned key s.engine.db.visibleSeqno = some x → x.repr = .ptr p →
      p.file ∉ s.manifest.retiredIds ∧ ∀ pass, s.pass = some pass → pass.todo = [] →
      p.file ≠ pass.victim) ∧
    ∀ headFault s', s.Homed opts (.gcChunk headFault) →
      (service opts).step s (.gcChunk headFault) = some s' →
      ∀ key, s'.db.getAtSeq key s'.engine.db.visibleSeqno =
        s.db.getAtSeq key s.engine.db.visibleSeqno ∧
        ∀ t ∈ s.engine.registered, s'.db.getAtSeq key t = s.db.getAtSeq key t := by
  have hkept : s.Kept := h.invariant (kept_init opts) kept_step
  have hrel : s.Relocates := h.invariant (relocates_init opts) fun hr _ => relocates_step hr
  have hfiles := hkept.streams.files
  have hcons := hfiles.engine.consistent
  refine ⟨fun t ht key => ?_, hrel.plain,
    fun key x p hx hp => ?_, fun headFault s' hhomed hs key => ?_⟩
  · rw [hkept.getAtSeq_eq ht key, hrel.same t]
  · have hcurrent := hkept.not_shadowed hx
    have hanswer := hcons.wf.recent.answers_getVersioned key s.engine.db.visibleSeqno
    rw [show s.engine.db.readView.getVersioned key _ = some x from hx] at hanswer
    have hhist : x ∈ s.history := hcons.retains.sub x hanswer.1
    refine ⟨fun hretired => ?_, fun pass hpass htodo hvictim => ?_⟩
    · obtain ⟨r, hr, hfile⟩ := List.mem_map.mp hretired
      -- a retired file holds shadowed versions only, and a current one is not
      have hbound := le_trans (min_le_right r.2 _) hfiles.durable_le
      exact hcurrent (((hfiles.retired r hr).2.2 x hhist p hp hfile.symm).mono hbound
        fun f hf => hf)
    · obtain ⟨w, hrec⟩ := hcons.record hhist hp
      rcases (hfiles.pass pass hpass).covered _ hrec hvictim with htodo' | hdone
      · rw [htodo] at htodo'
        exact absurd htodo' List.not_mem_nil
      · exact hcurrent (hdone x hhist hp)
  · have hkept' := kept_step hkept hhomed hs
    obtain ⟨hsame, hreg, hvis⟩ := stateAfter_gcChunk hrel hs
    refine ⟨?_, fun t ht => ?_⟩
    · rw [hkept'.getAtSeq_eq (Or.inl rfl) key, hkept.getAtSeq_eq (Or.inl rfl) key, hsame,
        hcons.stateAfter_visible hvis]
    · have hinv := hfiles.engine
      have hinv' := hkept'.streams.files.engine
      obtain ⟨hfloor, hle⟩ := hinv.retained t (hinv.snapshots.mem_iff.mpr ht)
      obtain ⟨hfloor', hle'⟩ := hinv'.retained t (hinv'.snapshots.mem_iff.mpr ((hreg t).mpr ht))
      -- a read that dangles does so before and after the chunk
      have hdangles := dangles_gcChunk hfiles hs hle key
      rcases Service.getAtSeq_cases hinv hfloor hle key with ⟨hd, hread⟩ | ⟨hd, hread⟩
      · rcases Service.getAtSeq_cases hinv' hfloor' hle' key with ⟨-, hread'⟩ | ⟨hd', -⟩
        · rw [hread', hread]
        · exact absurd (hdangles.mpr hd) hd'
      · rcases Service.getAtSeq_cases hinv' hfloor' hle' key with ⟨hd', -⟩ | ⟨-, hread'⟩
        · exact absurd (hdangles.mp hd') hd
        · rw [hread', hread, hsame]

/-- The relocated value reads as the user wrote it. -/
theorem gc_preserves_state_of_relocated : ∃ s : Service,
    (service gcOptions).Reaches (Service.Homed gcOptions) s ∧ s.relocated = [3] ∧
    s.db.getAtSeq [byte 107] 3 = .ok (stateAfter s.userLog 3 [byte 107]) := by
  have hrun : ((service gcOptions).replay (Service.Homed gcOptions)
      (relocateFirst false) (service gcOptions).init).any
      (fun s => decide (s.relocated = [3] ∧ s.engine.db.visibleSeqno = 3)) = true := by
    decide +kernel
  obtain ⟨s, hreach, hrelocated, hvis⟩ := System.exists_reaches hrun
  exact ⟨s, hreach, hrelocated, (gc_preserves_state hreach).1 3 (Or.inl hvis.symm) _⟩

/-- **A live value is lost**: relocated into a head file the map does not name,
it does not read at all. -/
theorem gc_loses_value : ¬ ∀ (opts : Options) (s : Service), (service opts).Reachable s →
    ∀ key, s.db.getAtSeq key s.engine.db.visibleSeqno =
      .ok (stateAfter s.userLog s.engine.db.visibleSeqno key) := by
  intro hall
  have hrun : ((service gcOptions).run (relocateFirst true) (service gcOptions).init).any
      (fun s => decide ((s.db.getAtSeq [byte 107] s.engine.db.visibleSeqno).isOk = false)) =
        true := by
    decide +kernel
  obtain ⟨s, hreach, herr⟩ := System.exists_reachable hrun
  rw [hall _ s hreach] at herr
  exact absurd herr (by simp [Except.isOk, Except.toBool])

end Fluent31
