/-
Whether a relocation passes the write path's checks (`compaction.rs`).

The collector bounds a relocation batch by its records, the write path bounds a
batch by its bytes.  A victim's live records only ever become fewer, so what
the batches of a pass come to is decided where the victim is picked.

* `fitting_step` — the batches still to come do not grow;
* `relocations_pass` — a pass is not rejected, whatever runs beside it, when each
  batch is below the limit at the pick; otherwise it is rejected where nothing
  runs beside it.

The sample that picks a victim looks at the file's first mebibyte:
`relocation_rejected` is a victim with more live bytes than a batch may have.
-/
import Fluent31.VlogGc
import Fluent31.RecordSize
import Mathlib.Algebra.Order.BigOperators.Group.List
import Mathlib.Algebra.Order.Group.Nat

namespace Fluent31

open Mvcc

variable {opts : Options} {s s' : Service} {act : ServiceAction}

/-! ### The choice of a victim -/

/-- Bytes of a value-log file. -/
def Vlog.fileLen (v : Vlog) (file : ℕ) : ℕ := ((v.scanRecords file).map fun r => r.ptr.len).sum

/-- What the probe finds for the record's key is the record. -/
def VlogRecord.live (db : Db) (r : VlogRecord) : Bool :=
  match db.readView.getVersioned r.key MAX_SEQNO with
  | some e => decide (e.kind = .put ∧ e.repr = .ptr r.ptr)
  | none => false

def GC_SAMPLE_BYTES : ℕ := 2 ^ 20
def GC_SAMPLE_MIN_FILE : ℕ := 4 * 2 ^ 20
def GC_RESAMPLE_SEQ_DELTA : ℕ := 10000

/-- `sample_records`: the records that end within the first `maxBytes` bytes. -/
def Vlog.sampleRecords (v : Vlog) (file maxBytes : ℕ) : List VlogRecord :=
  (v.scanRecords file).takeWhile fun r => decide (r.ptr.offset + r.ptr.len ≤ maxBytes)

/-- `sample_victim`.  `reached dead sampled` stands for the comparison of the dead
ratio with `vlog_gc_ratio`; `sampledAt` has the seqno and the head at a file's
last sample below the ratio. -/
def Service.sampleVictim (s : Service) (reached : ℕ → ℕ → Bool) (sampledAt : ℕ → Option (ℕ × ℕ)) :
    Option ℕ :=
  let db := s.engine.db
  let ids := s.vlogs.filter fun id =>
    decide (id ≠ s.vlogHead ∧ id ∉ s.manifest.retiredIds) &&
      (sampledAt id).all fun p =>
        decide (GC_RESAMPLE_SEQ_DELTA ≤ db.visibleSeqno - p.1 ∨ p.2 ≠ s.vlogHead)
  match (ids.filter fun id => decide (GC_SAMPLE_MIN_FILE ≤ db.vlog.fileLen id)).min? with
  | none => none
  | some id =>
    let records := db.vlog.sampleRecords id GC_SAMPLE_BYTES
    let sampled := (records.map fun r => r.ptr.len).sum
    let dead := ((records.filter fun r => !r.live db).map fun r => r.ptr.len).sum
    if sampled ≠ 0 ∧ reached dead sampled then some id else none

/-! ### Live records -/

theorem relocationOps_eq (db : Db) (records : List VlogRecord) :
    relocationOps db records = (records.filter (VlogRecord.live db)).map fun r =>
      .put r.key r.value := by
  unfold relocationOps
  induction records with
  | nil => rfl
  | cons r rest ih =>
    rw [List.filterMap_cons, ih]
    unfold VlogRecord.live
    cases hx : db.readView.getVersioned r.key MAX_SEQNO with
    | none => simp [hx]
    | some x => by_cases hp : x.kind = .put ∧ x.repr = .ptr r.ptr <;> simp [hx, hp]

/-- A live record is that of a version that is not shadowed. -/
theorem live_iff {e : Engine} (h : e.Inv) {r : VlogRecord} :
    r.live e.db = true ↔ ∃ x ∈ historyOf e.log, x.ukey = r.key ∧ x.repr = .ptr r.ptr ∧
      ¬ Shadowed e.db.visibleSeqno (historyOf e.log) x := by
  have hcons := h.consistent
  have hfloor : e.floor ≤ MAX_SEQNO := le_trans h.floor_le_visible (le_of_lt hcons.wf.visible_lt)
  constructor
  · intro hlive
    unfold VlogRecord.live at hlive
    cases hx : e.db.readView.getVersioned r.key MAX_SEQNO with
    | none =>
      rw [hx] at hlive
      exact absurd hlive Bool.false_ne_true
    | some x =>
      rw [hx] at hlive
      have hnewest := hcons.newest_of_found hfloor hx
      exact ⟨x, hnewest.1, hnewest.2.1, (of_decide_eq_true hlive).2,
        hnewest.not_shadowed (le_of_lt hcons.wf.visible_lt)⟩
  · rintro ⟨x, hx, hkey, hp, hcurrent⟩
    have hput := hcons.put_of_ptr hx hp
    have hfound := (hcons.current hx hput).resolve_right hcurrent
    unfold VlogRecord.live
    rw [← hkey, hfound]
    exact decide_eq_true ⟨hput, hp⟩

/-- No record outside the head becomes live again. -/
theorem live_of_moved {a : Action} {e e' : Engine} {recs : List CommitRec} (h : e.Inv) (h' : e'.Inv)
    (hmove : Moved a e e' recs) {r : VlogRecord} (hfile : r.ptr.file ≠ e.db.vlog.headId)
    (hlive : r.live e'.db = true) : r.live e.db = true := by
  obtain ⟨x, hx, hkey, hp, hcurrent⟩ := (live_iff h').mp hlive
  rw [hmove.log] at hx hcurrent
  refine (live_iff h).mpr
    ⟨x, ?_, hkey, hp, fun hshadow => hcurrent (hshadow.mono hmove.visible_le fun f hf =>
    mem_historyOf_append.mpr (Or.inl hf))⟩
  rcases mem_historyOf_append.mp hx with hx | hx
  · exact hx
  · -- a new version's value lies in the head
    obtain ⟨b, hb, hx⟩ := List.mem_flatMap.mp hx
    obtain ⟨c, hc, rfl⟩ := List.mem_map.mp hb
    obtain ⟨i, enc, henc, rfl⟩ := mem_versionsFrom.mp hx
    exact absurd (hmove.placed.fresh c hc enc (List.mem_of_getElem? henc) r.ptr hp).1 hfile

/-- What the record adds to the size estimate of its relocation batch. -/
def VlogRecord.share (db : Db) (r : VlogRecord) : ℕ :=
  if r.live db then r.key.length + r.value.length + 32 else 0

theorem approxSize_relocationOps (db : Db) (records : List VlogRecord) :
    approxSize (relocationOps db records) = (records.map (VlogRecord.share db)).sum := by
  rw [relocationOps_eq]
  unfold approxSize
  induction records with
  | nil => rfl
  | cons r rest ih =>
    rw [List.map_cons, List.sum_cons, ← ih, List.filter_cons]
    unfold VlogRecord.share
    split
    · rfl
    · exact (Nat.zero_add _).symm

/-- A batch that is built later is no larger. -/
theorem approxSize_moved {a : Action} {e e' : Engine} {recs : List CommitRec} (h : e.Inv)
    (h' : e'.Inv) (hmove : Moved a e e' recs) {chunk : List VlogRecord}
    (hchunk : ∀ r ∈ chunk, r.ptr.file ≠ e.db.vlog.headId) :
    approxSize (relocationOps e'.db chunk) ≤ approxSize (relocationOps e.db chunk) := by
  rw [approxSize_relocationOps, approxSize_relocationOps]
  refine List.sum_le_sum fun r hr => ?_
  unfold VlogRecord.share
  split
  · rename_i hlive
    rw [if_pos (live_of_moved h h' hmove (hchunk r hr) hlive)]
  · exact Nat.zero_le _

/-! ### Batches that pass -/

/-- The seqnos suffice for the ops, and the record they become is below the
limit. -/
def Db.Room (opts : Options) (db : Db) (ops : List BatchOp) : Prop :=
  db.visibleSeqno + 1 + ops.length < MAX_SEQNO ∧
    (encodeBatch (db.visibleSeqno + 1) (db.vlog.placeOps opts.valueThreshold ops).2).length <
      WAL_RECORD_LIMIT

/-- With a usual value threshold the size estimate takes care of the record,
unless the batch is a lone delete. -/
theorem Db.room_of_threshold {db : Db} {ops : List BatchOp} (hthreshold : 13 ≤ opts.valueThreshold)
    (hseq : db.visibleSeqno + 1 + ops.length < MAX_SEQNO)
    (hsize : approxSize ops < WAL_RECORD_LIMIT)
    (hops : ∀ key, ops ≠ [.delete key]) : db.Room opts ops := by
  refine ⟨hseq, not_le.mp fun hlong => ?_⟩
  obtain ⟨key, heq, -⟩ := (encodeBatch_long_iff hthreshold hsize).mp hlong
  exact hops key heq

theorem applyLocked_isOk_iff {db : Db} {ops : List BatchOp} :
    (db.applyLocked opts ops false).2.isOk = true ↔ db.Room opts ops ∧
      approxSize ops < WAL_RECORD_LIMIT := by
  have hfull : ops ++ db.captureEvents opts ops (db.visibleSeqno + 1) false = ops :=
    List.append_nil ops
  unfold Db.applyLocked Db.Room
  simp only [hfull]
  split
  · rename_i hseq
    exact ⟨fun h => absurd h Bool.false_ne_true, fun h => absurd h.1.1 (not_lt.mpr hseq)⟩
  · rename_i hseq
    split
    · rename_i hsize
      exact ⟨fun h => absurd h Bool.false_ne_true, fun h => absurd h.2 (not_lt.mpr hsize)⟩
    · rename_i hsize
      split
      · rename_i hlen
        exact ⟨fun h => absurd h Bool.false_ne_true, fun h => absurd h.1.2 (not_lt.mpr hlen)⟩
      · rename_i hlen
        exact ⟨fun _ => ⟨⟨not_le.mp hseq, not_le.mp hlen⟩, not_le.mp hsize⟩, fun _ => rfl⟩

/-- The batches still to come are below the limit. -/
structure Pass.Fits (p : Pass) (e : Engine) : Prop where
  records : ∀ r ∈ p.todo.flatten, r ∈ e.db.vlog.records ∧ r.ptr.file = p.victim
  small : ∀ chunk ∈ p.todo, approxSize (relocationOps e.db chunk) < WAL_RECORD_LIMIT

namespace Service

variable (opts s) in
/-- A pass begins with batches below the limit, and each finds seqnos when it is
its turn. -/
def Suits : ServiceAction → Prop
  | .gcPick _ chunks =>
    ∀ chunk ∈ chunks, approxSize (relocationOps s.engine.db chunk) < WAL_RECORD_LIMIT
  | .gcChunk _ =>
    ∀ p ∈ s.pass, ∀ chunk ∈ p.todo.head?, s.engine.db.Room opts (relocationOps s.engine.db chunk)
  | _ => True

instance (act : ServiceAction) : Decidable (s.Suits opts act) := by
  cases act <;> unfold Suits Db.Room <;> infer_instance

/-- No pass meets the limit. -/
structure Fitting (s : Service) : Prop where
  files : s.Files
  fits : ∀ p ∈ s.pass, p.Fits s.engine

theorem Fitting.moved {p : Pass} {a : Action} {e' : Engine} {recs : List CommitRec} (h : s.Fitting)
    (hp : p ∈ s.pass) (hmove : Moved a s.engine e' recs) (hinv : e'.Inv) : p.Fits e' := by
  obtain ⟨hrecords, hsmall⟩ := h.fits p hp
  have hpassing := h.files.pass p hp
  refine ⟨fun r hr => ⟨hmove.placed.kept r (hrecords r hr).1, (hrecords r hr).2⟩,
    fun chunk hchunk => ?_⟩
  refine lt_of_le_of_lt (approxSize_moved h.files.engine hinv hmove fun r hr => ?_)
    (hsmall chunk hchunk)
  obtain ⟨-, hfile⟩ := hrecords r (List.mem_flatten.mpr ⟨chunk, hchunk, hr⟩)
  exact hfile ▸ h.files.ne_headId hpassing.mapped hpassing.ne_head

end Service

theorem fitting_init (opts : Options) : (Service.init opts).Fitting :=
  ⟨files_init opts, fun _ hp => absurd hp (Option.not_mem_none _)⟩

/-- **The batches still to come do not grow.** -/
theorem fitting_step (h : s.Fitting) (hok : s.Suits opts act) (hs : s.step opts act = some s') :
    s'.Fitting := by
  have hfiles := files_step h.files hs
  refine ⟨hfiles, ?_⟩
  cases Service.takes hs with
  | engine headFault hphase hserves hpub hfree he =>
    obtain ⟨recs, hmove⟩ := moved_step h.files.engine he fun n orphan hopen => by
      rw [hopen] at hserves
      exact absurd hserves Bool.false_ne_true
    exact fun p hp => h.moved hp hmove (inv_step h.files.engine he)
  | gcPick hphase hmapped hhead hfresh hperm =>
    intro p hp
    obtain rfl := Option.mem_some_iff.mp hp
    refine ⟨fun r hr => ?_, hok⟩
    obtain ⟨hmem, hfile⟩ := List.mem_filter.mp (hperm.mem_iff.mp hr)
    exact ⟨hmem, of_decide_eq_true hfile⟩
  | @gcChunk p chunk todo e' applied headFault hp htodo hpub he happlied =>
    obtain ⟨recs, hmove⟩ := moved_step h.files.engine he fun _ _ => by simp
    have hfits := h.moved hp hmove (inv_step h.files.engine he)
    intro p' hp'
    change p' ∈ (if _ then _ else _) at hp'
    split at hp'
    · obtain rfl := Option.mem_some_iff.mp hp'
      -- the chunks left are some of those that were left before
      refine ⟨fun r hr => hfits.records r ?_, fun c hc => hfits.small c ?_⟩
      · rw [htodo]
        exact List.mem_append_right _ hr
      · rw [htodo]
        exact List.mem_cons_of_mem _ hc
    · exact absurd hp' (Option.not_mem_none _)
  | gcAbort => exact fun p hp => absurd hp (Option.not_mem_none p)
  -- the sync marks the pass, and its chunks stay
  | gcSync hp htodo hpub =>
    intro p' hp'
    obtain rfl := Option.mem_some_iff.mp hp'
    exact ⟨(h.fits _ hp).records, (h.fits _ hp).small⟩
  | gcRetire hp hsynced => exact fun p hp => absurd hp (Option.not_mem_none p)
  | subscribe start hphase hpub hstart he =>
    obtain ⟨recs, hmove⟩ := moved_step h.files.engine he fun _ _ => by simp
    exact fun p hp => h.moved hp hmove (inv_step h.files.engine he)
  | deliver hsub hclosed htaken hout he =>
    obtain ⟨recs, hmove⟩ := moved_step h.files.engine he fun _ _ => by simp
    exact fun p hp => h.moved hp hmove (inv_step h.files.engine he)
  | close hsub hclosed hchecked htaken he =>
    obtain ⟨recs, hmove⟩ := moved_step h.files.engine he fun _ _ => by simp
    exact fun p hp => h.moved hp hmove (inv_step h.files.engine he)
  | reopen hreopen =>
    obtain ⟨e', disk, -, -, -, -, -, -, rfl⟩ := Service.reopen_cases hreopen
    exact fun p hp => absurd hp (Option.not_mem_none p)
  | crashOpening id => exact fun p hp => absurd hp (Option.not_mem_none p)
  | _ => exact h.fits

/-- Where the batch of the next chunk passes, the pass goes on. -/
theorem Service.Fitting.goes_on (h : s.Fitting) {headFault : Bool}
    (hok : s.Suits opts (.gcChunk headFault))
    (hs : s.step opts (.gcChunk headFault) = some s') : s'.pass.isSome = true := by
  cases Service.takes hs with
  | @gcChunk p chunk todo e' applied headFault hp htodo hpub he happlied =>
    have hsmall := (h.fits p hp).small chunk (htodo ▸ List.mem_cons_self)
    have hroom := hok p hp chunk (by rw [htodo]; exact Option.mem_some_self chunk)
    have hpass : ((relocationOps s.engine.db chunk).isEmpty || applied) = true := by
      rw [happlied, applyLocked_isOk_iff.mpr ⟨hroom, hsmall⟩]
      cases (relocationOps s.engine.db chunk).isEmpty <;> rfl
    show (if _ then _ else _ : Option Pass).isSome = true
    rw [if_pos hpass]
    rfl

/-! ### Batches that do not pass -/

/-- What stays live: every live record that is not relocated itself. -/
theorem live_relocate {e : Engine} (h : e.Inv) {chunk : List VlogRecord}
    (hchunk : ∀ r ∈ chunk, r ∈ e.db.vlog.records)
    {r : VlogRecord} (hr : r ∈ e.db.vlog.records) (hout : r ∉ chunk) (hlive : r.live e.db = true) :
    r.live (e.relocate opts chunk).db = true := by
  have hinv := @Engine.Inv.relocate opts _ h chunk
  obtain ⟨recs, hadds⟩ := adds_relocate opts h.consistent chunk
  obtain ⟨x, hx, hxkey, hp, hcurrent⟩ := (live_iff h).mp hlive
  refine (live_iff hinv).mpr ⟨x, ?_, hxkey, hp, ?_⟩
  · rw [hadds.log]
    exact mem_historyOf_append.mpr (Or.inl hx)
  · rintro ⟨f, hf, hkey, hlt, -⟩
    cases happlied : (!(relocationOps e.db chunk).isEmpty &&
        (e.db.applyLocked opts (relocationOps e.db chunk) false).2.isOk) with
    | false =>
      rw [relocate_log_of_not happlied] at hf
      exact hcurrent ⟨f, hf, hkey, hlt, h.consistent.history_le hf⟩
    | true =>
      obtain ⟨hne, hok⟩ := Bool.and_eq_true_iff.mp happlied
      have hlog := relocate_log (by simpa using hne) hok
      rw [hlog] at hf
      rcases mem_historyOf_append.mp hf with hf | hf
      · exact hcurrent ⟨f, hf, hkey, hlt, h.consistent.history_le hf⟩
      · -- the relocated record of this key is another one, and both would be current
        obtain ⟨q, hq, -, hqkey, -, -⟩ := mem_historyOf (fun c hc =>
          hinv.consistent.encodes c (hlog ▸ List.mem_append_right _ hc)) hf
        rw [List.flatMap_singleton] at hq
        have hop : q.1 ∈ relocationOps e.db chunk ++ [] := List.mem_of_getElem?
          (List.mk_mem_zipIdx_iff_le_and_getElem?_sub.mp hq).2
        rw [List.append_nil, relocationOps_eq] at hop
        obtain ⟨r', hr', hop⟩ := List.mem_map.mp hop
        obtain ⟨hr', hlive'⟩ := List.mem_filter.mp hr'
        obtain ⟨y, hy, hykey, hyp, hycurrent⟩ := (live_iff h).mp hlive'
        have hsame : y.ukey = x.ukey := by
          rw [hykey, show x.ukey = f.ukey from hkey.symm, ← hqkey, ← hop]
          rfl
        have hyx : y = x :=
          h.consistent.distinct.eq_of_not_shadowed hy hx hsame (h.consistent.history_le hy)
          (h.consistent.history_le hx) hycurrent hcurrent
        rw [hyx, hp] at hyp
        have heq := h.consistent.wf.vlog.eq_of_ptr (hchunk r' hr') hr (ReprRef.ptr.inj hyp).symm
        exact hout (heq ▸ hr')

/-- Relocating some records leaves the batches of the others. -/
theorem approxSize_relocate {e : Engine} (h : e.Inv) {chunk chunk' : List VlogRecord}
    (hchunk : ∀ r ∈ chunk, r ∈ e.db.vlog.records)
    (hchunk' : ∀ r ∈ chunk', r ∈ e.db.vlog.records ∧ r ∉ chunk) :
    approxSize (relocationOps e.db chunk') ≤ approxSize
      (relocationOps (e.relocate opts chunk).db chunk') := by
  rw [approxSize_relocationOps, approxSize_relocationOps]
  refine List.sum_le_sum fun r hr => ?_
  unfold VlogRecord.share
  split
  · rename_i hlive
    rw [if_pos (live_relocate h hchunk (hchunk' r hr).1 (hchunk' r hr).2 hlive)]
  · exact Nat.zero_le _

/-- What a pass does where nothing runs beside it. -/
def ServiceAction.Alone (act : ServiceAction) : Prop := act = .publish ∨ act = .gcChunk false

/-- The offers to the subscriptions come to an end. -/
theorem publishes (opts : Options) (s : Service) : ∃ acts subs active, (∀ act ∈ acts, act.Alone) ∧
    (service opts).run acts s =
      some { s with subs := subs, subsActive := active, publishing := [] } := by
  induction hpub : s.publishing generalizing s with
  | nil => exact ⟨[], s.subs, s.subsActive, fun _ ha =>
    absurd ha List.not_mem_nil, by rw [← hpub]; rfl⟩
  | cons r rest ih =>
    obtain ⟨subs₁, active₁, hstep⟩ : ∃ subs active, s.step opts .publish =
        some { s with subs := subs, subsActive := active, publishing := rest } := by
      unfold Service.step
      rw [hpub]
      exact ⟨_, _, rfl⟩
    obtain ⟨acts, subs, active, hacts, hrun⟩ :=
      ih { s with subs := subs₁, subsActive := active₁, publishing := rest } rfl
    refine ⟨.publish :: acts, subs, active, List.forall_mem_cons.mpr ⟨Or.inl rfl, hacts⟩, ?_⟩
    show (s.step opts .publish).bind _ = _
    rw [hstep]
    exact hrun

/-- A pass with a batch over the limit, and nothing beside it, is rejected. -/
theorem Service.Files.rejected {p : Pass} (h : s.Files) (hp : s.pass = some p)
    (hrecords : ∀ r ∈ p.todo.flatten, r ∈ s.engine.db.vlog.records) (hnodup : p.todo.flatten.Nodup)
    (hbig : ∃ chunk ∈ p.todo, WAL_RECORD_LIMIT ≤ approxSize (relocationOps s.engine.db chunk)) :
    ∃ acts s', (∀ act ∈ acts, act.Alone) ∧ (service opts).run acts s = some s' ∧
      s'.pass = none := by
  induction htodo : p.todo generalizing s p with
  | nil =>
    obtain ⟨chunk, hchunk, -⟩ := hbig
    exact absurd (htodo ▸ hchunk) List.not_mem_nil
  | cons chunk todo ih =>
    obtain ⟨acts, subs, active, hacts, hrun⟩ := publishes opts s
    obtain ⟨s₁, hrun, hpub, hengine, hpass⟩ : ∃ s₁, (service opts).run acts s = some s₁ ∧
        s₁.publishing = [] ∧ s₁.engine = s.engine ∧ s₁.pass = s.pass := ⟨_, hrun, rfl, rfl, rfl⟩
    have hfiles : s₁.Files := System.run_invariant h (fun hi hs => files_step hi hs) hrun
    rw [htodo, List.flatten_cons] at hrecords hnodup
    have hguard : ∀ r ∈ chunk, r ∈ s.engine.db.vlog.records :=
      fun r hr => hrecords r (List.mem_append_left _ hr)
    have hrelocate : s₁.engine.step opts (.relocate chunk) =
        some (s.engine.relocate opts chunk) := by
      rw [hengine]
      exact if_pos hguard
    obtain ⟨s₂, hstep⟩ : ∃ s₂, s₁.step opts (.gcChunk false) = some s₂ := by
      unfold Service.step
      rw [hpass, hp]
      simp only [Option.bind_some, htodo, hpub, if_true]
      unfold Service.relocate
      rw [hrelocate]
      exact ⟨_, rfl⟩
    have hrun₂ : (service opts).run (acts ++ [.gcChunk false]) s = some s₂ := by
      rw [System.run_append, hrun]
      show ((service opts).step s₁ (.gcChunk false)).bind _ = some s₂
      rw [show (service opts).step s₁ (.gcChunk false) = some s₂ from hstep]
      rfl
    have hacts₂ : ∀ act ∈ acts ++ [ServiceAction.gcChunk false], act.Alone := by
      refine List.forall_mem_append.mpr ⟨hacts, fun act ha => Or.inr (List.mem_singleton.mp ha)⟩
    have hfiles₂ := files_step hfiles hstep
    cases Service.takes hstep with
    | @gcChunk p' chunk' todo' e' applied headFault hp' htodo' hpub' he happlied =>
      rw [hpass, hp] at hp'
      obtain rfl := Option.mem_some_iff.mp hp'
      obtain ⟨rfl, rfl⟩ := List.cons.inj (htodo.symm.trans htodo')
      obtain rfl := Option.some_inj.mp (hrelocate.symm.trans he)
      rw [hengine] at happlied hrun₂ hfiles₂
      cases hgoes : ((relocationOps s.engine.db chunk).isEmpty || applied) with
      | false =>
        refine ⟨_, _, hacts₂, hrun₂, ?_⟩
        show (if _ then _ else _ : Option Pass) = none
        rw [hgoes]
        rfl
      | true =>
        obtain ⟨recs, hadds⟩ := adds_relocate opts h.engine.consistent chunk
        have hbig' : ∃ c ∈ todo, WAL_RECORD_LIMIT ≤
            approxSize (relocationOps (s.engine.relocate opts chunk).db c) := by
          obtain ⟨c, hc, hle⟩ := hbig
          rw [htodo] at hc
          rcases List.mem_cons.mp hc with rfl | hc
          · -- the batch that went through was not the one over the limit
            exfalso
            rcases Bool.or_eq_true_iff.mp hgoes with hempty | happ
            · rw [List.isEmpty_iff.mp hempty] at hle
              exact absurd hle (by decide)
            · rw [happlied] at happ
              have hok := (applyLocked_isOk_iff.mp (Bool.and_eq_true_iff.mp happ).2).2
              exact absurd hle (not_le.mpr hok)
          · refine ⟨c, hc, le_trans hle (approxSize_relocate h.engine hguard fun r hr => ?_)⟩
            have hin : r ∈ todo.flatten := List.mem_flatten.mpr ⟨c, hc, hr⟩
            exact ⟨hrecords r (List.mem_append_right _ hin), fun hout =>
              (List.nodup_append.mp hnodup).2.2 r hout r hin rfl⟩
        obtain ⟨acts', s', hacts', hrun', hdone⟩ := ih (p := { p with todo := todo }) hfiles₂
          (by
            show (if _ then _ else _ : Option Pass) = some { p with todo := todo }
            rw [hgoes]
            rfl)
          (fun r hr => hadds.placed.kept r (hrecords r (List.mem_append_right _ hr)))
          (List.nodup_append.mp hnodup).2.1 hbig' rfl
        refine ⟨acts ++ [.gcChunk false] ++ acts', s', List.forall_mem_append.mpr
          ⟨hacts₂, hacts'⟩, ?_, hdone⟩
        rw [System.run_append, hrun₂]
        exact hrun'

/-- The records a pass begins with are distinct. -/
theorem Service.Files.picked (h : s.Files) {victim : ℕ} {chunks : List (List VlogRecord)}
    (hperm : chunks.flatten.Perm (s.engine.db.vlog.scanRecords victim)) :
    (∀ r ∈ chunks.flatten, r ∈ s.engine.db.vlog.records) ∧ chunks.flatten.Nodup := by
  refine ⟨fun r hr => (List.mem_filter.mp (hperm.mem_iff.mp hr)).1,
    hperm.nodup_iff.mpr (List.Pairwise.filter _ ?_)⟩
  exact h.engine.consistent.wf.vlog.distinct.imp fun hne heq => hne (congrArg VlogRecord.ptr heq)

/-- **Whether relocations pass.**  Where every pass begins with batches below the
limit and its batches find seqnos, no pass is rejected, whatever runs beside it;
and a pass that begins with a batch over the limit is rejected where nothing
runs beside it. -/
theorem relocations_pass (opts : Options) :
    (∀ s, (service opts).Reaches (Service.Suits opts) s → ∀ headFault s',
      s.Suits opts (.gcChunk headFault) →
      s.step opts (.gcChunk headFault) = some s' → s'.pass.isSome = true) ∧
    ∀ s, (service opts).Reachable s → ∀ victim chunks s',
      s.step opts (.gcPick victim chunks) = some s' →
      (∃ chunk ∈ chunks, WAL_RECORD_LIMIT ≤ approxSize (relocationOps s.engine.db chunk)) →
      ∃ acts s'', (∀ act ∈ acts, act.Alone) ∧ (service opts).run acts s' = some s'' ∧
        s''.pass = none := by
  constructor
  · intro s hs headFault s' hok hstep
    have hfitting : s.Fitting := hs.invariant (fitting_init opts) fitting_step
    exact hfitting.goes_on hok hstep
  · intro s hs victim chunks s' hstep hbig
    have hfiles : s.Files := files_of_reaches hs
    have hfiles' := files_step hfiles hstep
    cases Service.takes hstep with
    | gcPick hphase hmapped hhead hfresh hperm =>
      obtain ⟨hrecords, hnodup⟩ := hfiles.picked hperm
      exact hfiles'.rejected rfl hrecords hnodup hbig

/-- A pass whose batch passes. -/
theorem relocations_pass_of_small :
    ∃ s s' : Service, (service gcOptions).Reaches (Service.Suits gcOptions) s ∧
    s.step gcOptions (.gcChunk false) = some s' ∧ s'.pass.isSome = true := by
  have hrun : ((service gcOptions).replay (Service.Suits gcOptions) ((relocateFirst false).take 8)
      (service gcOptions).init).any (fun s => decide (s.Suits gcOptions (.gcChunk false) ∧
        (s.step gcOptions (.gcChunk false)).isSome = true)) = true := by
    decide +kernel
  obtain ⟨s, hreach, hsuits, hstep⟩ := System.exists_reaches hrun
  obtain ⟨s', hs'⟩ := Option.isSome_iff_exists.mp hstep
  exact ⟨s, s', hreach, hs', (relocations_pass gcOptions).1 s hreach false s' hsuits hs'⟩

/-! ### A victim that is too large -/

/-- What the rotations after a write leave of the value log. -/
theorem rotateAfterWrite_vlog (opts : Options) (db : Db) :
    ∃ id ≥ db.nextFileId, (db.rotateAfterWrite opts).vlog =
      if opts.vlogFileSize ≤ db.vlog.written then db.vlog.rotate id else db.vlog := by
  obtain ⟨mid, hmid, hvlog, hle⟩ : ∃ mid, (mid = if opts.memtableSize ≤ db.mem.approximateBytes then
      db.rotateMemtableLocked else db) ∧ mid.vlog = db.vlog ∧ db.nextFileId ≤ mid.nextFileId := by
    refine ⟨_, rfl, ?_⟩
    split
    · exact ⟨rfl, Nat.le_succ _⟩
    · exact ⟨rfl, le_rfl⟩
  refine ⟨mid.nextFileId, hle, ?_⟩
  unfold Db.rotateAfterWrite
  rw [← hmid, ← hvlog]
  simp only
  split <;> rfl

theorem rotateAfterWrite_visible (opts : Options) (db : Db) :
    (db.rotateAfterWrite opts).visibleSeqno = db.visibleSeqno := by
  unfold Db.rotateAfterWrite
  simp only
  split <;> split <;> rfl

/-- A user batch with room is committed. -/
theorem Service.commit_batch {ops : List BatchOp} (hsync : opts.sync ≠ .always)
    (hwasm : opts.wasmEnabled = false) (hphase : s.phase = .running) (hpub : s.publishing = [])
    (hallowed : (Submission.batch ops).Allowed opts s.engine)
    (hroom : s.engine.db.Room opts ops) (hsize : approxSize ops < WAL_RECORD_LIMIT) :
    let placed := s.engine.db.vlog.placeOps opts.valueThreshold ops
    s.step opts (.engine (.commit (.batch ops)) false) =
      some (s.moved (s.engine.committed ((({ s.engine.db with vlog := placed.1 } : Db).addBatch
        (s.engine.db.visibleSeqno + 1) placed.2).rotateAfterWrite opts)
          [⟨ops, none, true, s.engine.db.visibleSeqno + 1, [], placed.2⟩]) false) := by
  intro placed
  have hne : ops.isEmpty = false := by
    rw [List.isEmpty_eq_false_iff]
    exact hallowed.1
  have hevents : s.engine.db.captureEvents opts ops (s.engine.db.visibleSeqno + 1) true = [] := by
    unfold Db.captureEvents
    rw [hwasm]
    rfl
  have hfull :
      ops ++ s.engine.db.captureEvents opts ops (s.engine.db.visibleSeqno + 1) true = ops := by
    rw [hevents, List.append_nil]
  -- nothing refuses the batch: the seqnos, its size and its record have room
  have happly : s.engine.db.applyLocked opts ops true =
      ((({ s.engine.db with vlog := placed.1 } : Db).addBatch
      (s.engine.db.visibleSeqno + 1) placed.2).rotateAfterWrite opts, .ok ()) := by
    unfold Db.applyLocked
    simp only [hfull]
    rw [if_neg (not_le.mpr hroom.1), if_neg (not_le.mpr hsize), if_neg (not_le.mpr hroom.2)]
    rfl
  have hdirect : s.engine.db.commitDirect opts ⟨ops, none, true⟩ =
      ((({ s.engine.db with vlog := placed.1 } : Db).addBatch
      (s.engine.db.visibleSeqno + 1) placed.2).rotateAfterWrite opts, .ok ()) := by
    unfold Db.commitDirect
    simp only [QueuedEntry.conflicts, hne, Bool.false_eq_true, if_false]
    exact happly
  have hrec : recOf opts s.engine.db ⟨ops, none, true⟩ =
      ⟨ops, none, true, s.engine.db.visibleSeqno + 1, [], placed.2⟩ := by
    unfold recOf
    simp only [hevents, List.append_nil]
    rfl
  have hcommit : s.engine.commit opts ⟨ops, none, true⟩ =
      s.engine.committed ((({ s.engine.db with vlog := placed.1 } : Db).addBatch
        (s.engine.db.visibleSeqno + 1) placed.2).rotateAfterWrite opts)
          [⟨ops, none, true, s.engine.db.visibleSeqno + 1, [], placed.2⟩] := by
    unfold Engine.commit
    rw [hdirect]
    simp only [hne, Bool.false_eq_true, if_false, hrec]
  have hengine : s.engine.step opts (.commit (.batch ops)) =
      some (s.engine.commit opts ⟨ops, none, true⟩) :=
    if_pos ⟨hsync, hallowed⟩
  unfold Service.step
  simp only
  rw [if_pos ⟨hphase, rfl, fun _ => hpub, fun seq hseq => absurd hseq (Option.not_mem_none seq)⟩,
    hengine, hcommit]
  rfl

/-- What the commit of a batch leaves. -/
structure Service.Commits (opts : Options) (s : Service) (ops : List BatchOp)
    (placed : Vlog × List EncEntry) (s' : Service) : Prop where
  phase : s'.phase = s.phase
  degraded : s'.degraded = s.degraded
  pass : s'.pass = s.pass
  manifest : s'.manifest = s.manifest
  log : s'.engine.log = s.engine.log ++
    [⟨ops, none, true, s.engine.db.visibleSeqno + 1, [], placed.2⟩]
  visible : s'.engine.db.visibleSeqno = s.engine.db.visibleSeqno + placed.2.length
  next_le : s.engine.db.nextFileId ≤ s'.engine.db.nextFileId
  within : placed.1.written < opts.vlogFileSize → s'.engine.db.vlog = placed.1 ∧
    s'.vlogs = s.vlogs ∧ s'.vlogHead = s.vlogHead
  rotated : opts.vlogFileSize ≤ placed.1.written → placed.1.headId < s.engine.db.nextFileId →
    ∃ id ≥ s.engine.db.nextFileId, s'.engine.db.vlog = placed.1.rotate id ∧
      s'.vlogs = s.vlogs ++ [id] ∧ s'.vlogHead = id

theorem Service.commits_batch {ops : List BatchOp} (hsync : opts.sync ≠ .always)
    (hwasm : opts.wasmEnabled = false) (hphase : s.phase = .running) (hpub : s.publishing = [])
    (hallowed : (Submission.batch ops).Allowed opts s.engine)
    (hroom : s.engine.db.Room opts ops) (hsize : approxSize ops < WAL_RECORD_LIMIT) :
    ∃ s', s.step opts (.engine (.commit (.batch ops)) false) = some s' ∧
      s.Commits opts ops (s.engine.db.vlog.placeOps opts.valueThreshold ops) s' := by
  refine ⟨_, Service.commit_batch hsync hwasm hphase hpub hallowed hroom hsize, ?_⟩
  set placed := s.engine.db.vlog.placeOps opts.valueThreshold ops
  have hhead : placed.1.headId = s.engine.db.vlog.headId :=
    (s.engine.db.vlog.placeOps_spec opts.valueThreshold ops).2.1
  set d := ({ s.engine.db with vlog := placed.1 } : Db).addBatch
    (s.engine.db.visibleSeqno + 1) placed.2
  obtain ⟨id, hid, hvlog⟩ := rotateAfterWrite_vlog opts d
  have hframe := writeFrame_rotateAfterWrite opts d
  refine ⟨rfl, ?_, rfl, rfl, rfl, ?_, hframe.next_le, fun hlt => ?_, fun hle hnew => ⟨id, hid, ?_⟩⟩
  · show (s.degraded || (_ && false)) = s.degraded
    rw [Bool.and_false, Bool.or_false]
  · show (d.rotateAfterWrite opts).visibleSeqno = _
    rw [rotateAfterWrite_visible]
    show s.engine.db.visibleSeqno + 1 + placed.2.length - 1 = _
    omega
  · -- below the size of a file the head stays
    rw [if_neg (not_le.mpr (show d.vlog.written < opts.vlogFileSize from hlt))] at hvlog
    have hsame : (d.rotateAfterWrite opts).vlog.headId = s.engine.db.vlog.headId := by
      rw [hvlog]
      exact hhead
    refine ⟨hvlog, ?_, ?_⟩
    · simp [Service.moved, Engine.committed, hsame]
    · simp [Service.moved, Engine.committed, hsame]
  · -- from that size on a fresh file becomes the head
    rw [if_pos (show opts.vlogFileSize ≤ d.vlog.written from hle)] at hvlog
    have hne : (d.rotateAfterWrite opts).vlog.headId = id := by rw [hvlog]; rfl
    have hfresh : id ≠ s.engine.db.vlog.headId := by
      rw [← hhead]
      exact ne_of_gt (lt_of_lt_of_le hnew hid)
    refine ⟨hvlog, ?_, ?_⟩
    · simp [Service.moved, Engine.committed, hne, hfresh]
    · simp [Service.moved, Engine.committed, hne, hfresh]

/-- The default limits; a store without triggers. -/
def defaultLimits : Options :=
  { Options.default plainFormat with sync := .never, wasmEnabled := false }

variable {small large huge : Bytes}

/-- A small value and a large one, in the head file. -/
def firstOps (small large : Bytes) : List BatchOp := [.put [byte 97] small, .put [byte 98] large]

/-- The small value is deleted, and four values of almost the largest size follow. -/
def secondOps (huge : Bytes) : List BatchOp :=
  [.delete [byte 97], .put [byte 99] huge, .put [byte 100] huge, .put [byte 101] huge,
    .put [byte 102] huge]

theorem placeOps_firstOps (hsmall : small.length = 2 ^ 12)
    (hlarge : large.length = 2 ^ 27 - 2 ^ 14) :
    (⟨[], 1, 0⟩ : Vlog).placeOps 4096 (firstOps small large) =
      (⟨[⟨⟨1, 0, 4104⟩, [byte 97], small⟩, ⟨⟨1, 4104, 134201354⟩, [byte 98], large⟩], 1, 134205458⟩,
        [⟨.put, [byte 97], .ptr ⟨1, 0, 4104⟩⟩, ⟨.put, [byte 98], .ptr ⟨1, 4104, 134201354⟩⟩]) := by
  have hlen : Vlog.recordLen [byte 97] small = 4104 := by
    unfold Vlog.recordLen
    rw [hsmall]
    decide
  have hlen' : Vlog.recordLen [byte 98] large = 134201354 := by
    unfold Vlog.recordLen
    rw [hlarge]
    decide
  simp [firstOps, Vlog.placeOps, Vlog.placeOp, Vlog.append, hlen, hlen', hsmall, hlarge]

theorem placeOps_secondOps (hhuge : huge.length = 2 ^ 28 - 2 ^ 20) (records : List VlogRecord) :
    (⟨records, 1, 134205458⟩ : Vlog).placeOps 4096 (secondOps huge) =
      (⟨records ++ [⟨⟨1, 134205458, 267386890⟩, [byte 99], huge⟩,
        ⟨⟨1, 401592348, 267386890⟩, [byte 100], huge⟩,
          ⟨⟨1, 668979238, 267386890⟩, [byte 101], huge⟩,
            ⟨⟨1, 936366128, 267386890⟩, [byte 102], huge⟩],
          1, 1203753018⟩,
        [⟨.delete, [byte 97], .empty⟩, ⟨.put, [byte 99], .ptr ⟨1, 134205458, 267386890⟩⟩,
          ⟨.put, [byte 100], .ptr ⟨1, 401592348, 267386890⟩⟩,
            ⟨.put, [byte 101], .ptr ⟨1, 668979238, 267386890⟩⟩,
          ⟨.put, [byte 102], .ptr ⟨1, 936366128, 267386890⟩⟩]) := by
  have hlen : ∀ b, Vlog.recordLen [b] huge = 267386890 := by
    intro b
    have hkey : (putUvarint [b].length).length = 1 := rfl
    have hvalue : (putUvarint (2 ^ 28 - 2 ^ 20)).length = 4 := by decide
    unfold Vlog.recordLen
    rw [hhuge, hkey, hvalue, List.length_singleton]
    omega
  simp [secondOps, Vlog.placeOps, Vlog.placeOp, Vlog.append, hlen, hhuge]

theorem allowed_firstOps (hsmall : small.length = 2 ^ 12) (hlarge : large.length = 2 ^ 27 - 2 ^ 14)
    (e : Engine) :
    (Submission.batch (firstOps small large)).Allowed defaultLimits e := by
  refine ⟨by simp [firstOps], fun op hop => ?_⟩
  have hkey : ∀ b : Byte, b ≠ SYS_PREFIX → ValidUserKey [b] ∧
      [b].length ≤ defaultLimits.maxKeySize := fun b hb =>
    ⟨⟨by simp, by simpa using hb⟩, show 1 ≤ 16 * 2 ^ 10 by decide⟩
  have hmax : defaultLimits.maxValueSize = 2 ^ 28 := rfl
  simp only [firstOps, List.mem_cons, List.not_mem_nil, or_false] at hop
  rcases hop with rfl | rfl
  · refine ⟨(hkey _ (by decide)).1, (hkey _ (by decide)).2, ?_⟩
    show small.length ≤ _
    omega
  · refine ⟨(hkey _ (by decide)).1, (hkey _ (by decide)).2, ?_⟩
    show large.length ≤ _
    omega

theorem allowed_secondOps (hhuge : huge.length = 2 ^ 28 - 2 ^ 20) (e : Engine) :
    (Submission.batch (secondOps huge)).Allowed defaultLimits e := by
  refine ⟨by simp [secondOps], fun op hop => ?_⟩
  have hmax : defaultLimits.maxValueSize = 2 ^ 28 := rfl
  have hput : ∀ b : Byte, b ≠ SYS_PREFIX → ∀ value : Bytes, value.length ≤ 2 ^ 28 →
      ValidUserKey [b] ∧
      [b].length ≤ defaultLimits.maxKeySize ∧ value.length ≤ defaultLimits.maxValueSize :=
        fun b hb value hvalue =>
    ⟨⟨by simp, by simpa using hb⟩, show 1 ≤ 16 * 2 ^ 10 by decide, hmax ▸ hvalue⟩
  simp only [secondOps, List.mem_cons, List.not_mem_nil, or_false] at hop
  rcases hop with rfl | rfl | rfl | rfl | rfl
  · exact hput _ (by decide) [] (by simp)
  all_goals exact hput _ (by decide) huge (by omega)

/-- The records of the victim. -/
def victimRecords (small large huge : Bytes) : List VlogRecord :=
  [⟨⟨1, 0, 4104⟩, [byte 97], small⟩, ⟨⟨1, 4104, 134201354⟩, [byte 98], large⟩,
    ⟨⟨1, 134205458, 267386890⟩, [byte 99], huge⟩, ⟨⟨1, 401592348, 267386890⟩, [byte 100], huge⟩,
    ⟨⟨1, 668979238, 267386890⟩, [byte 101], huge⟩, ⟨⟨1, 936366128, 267386890⟩, [byte 102], huge⟩]

/-- The log of the two commits. -/
def victimLog (small large huge : Bytes) : List CommitRec :=
  [⟨firstOps small large, none, true, 1, [],
      [⟨.put, [byte 97], .ptr ⟨1, 0, 4104⟩⟩, ⟨.put, [byte 98], .ptr ⟨1, 4104, 134201354⟩⟩]⟩,
    ⟨secondOps huge, none, true, 3, [],
      [⟨.delete, [byte 97], .empty⟩, ⟨.put, [byte 99], .ptr ⟨1, 134205458, 267386890⟩⟩,
        ⟨.put, [byte 100], .ptr ⟨1, 401592348, 267386890⟩⟩,
          ⟨.put, [byte 101], .ptr ⟨1, 668979238, 267386890⟩⟩,
        ⟨.put, [byte 102], .ptr ⟨1, 936366128, 267386890⟩⟩]⟩]

/-- A store with a sealed file that has these records. -/
structure Service.Overfull (s : Service) (small large huge : Bytes) : Prop where
  phase : s.phase = .running
  healthy : s.degraded = false
  idle : s.pass = none
  vlogs : ∃ id ≠ 1, s.vlogs = [1, id] ∧ s.vlogHead = id
  retired : s.manifest.retired = []
  log : s.engine.log = victimLog small large huge
  visible : s.engine.db.visibleSeqno = 7
  records : s.engine.db.vlog.records = victimRecords small large huge

/-- Two batches fill the file: the first stays below the size of a file, the second
below that of a batch. -/
theorem exists_overfull (hsmall : small.length = 2 ^ 12) (hlarge : large.length = 2 ^ 27 - 2 ^ 14)
    (hhuge : huge.length = 2 ^ 28 - 2 ^ 20) :
    ∃ s, (service defaultLimits).Reachable s ∧ s.Overfull small large huge := by
  have hlimit : WAL_RECORD_LIMIT = 1073741824 := rfl
  have hsize₁ : approxSize (firstOps small large) < WAL_RECORD_LIMIT := by
    simp only [approxSize, firstOps, BatchOp.approxSize, List.map_cons, List.map_nil, List.sum_cons,
      List.sum_nil, List.length_singleton, hsmall, hlarge]
    omega
  have hsize₂ : approxSize (secondOps huge) < WAL_RECORD_LIMIT := by
    simp only [approxSize, secondOps, BatchOp.approxSize, List.map_cons, List.map_nil,
      List.sum_cons, List.sum_nil, List.length_singleton, hhuge]
    omega
  -- the first batch stays below the file size, so no rotation follows it
  obtain ⟨s₁, hstep₁, hcommit₁⟩ := Service.commits_batch (s := Service.init defaultLimits)
    (by decide) rfl rfl rfl
    (allowed_firstOps hsmall hlarge _)
    (Db.room_of_threshold (by decide) (by show 0 + 1 + 2 < _; decide) hsize₁
      fun _ => by simp [firstOps]) hsize₁
  rw [show (Service.init defaultLimits).engine.db.vlog.placeOps defaultLimits.valueThreshold
    (firstOps small large) = _
    from placeOps_firstOps hsmall hlarge] at hcommit₁
  obtain ⟨hvlog₁, hvlogs₁, hhead₁⟩ := hcommit₁.within (show 134205458 < 128 * 2 ^ 20 by decide)
  have hvisible₁ : s₁.engine.db.visibleSeqno = 2 := hcommit₁.visible
  have hnext : 1 < s₁.engine.db.nextFileId := lt_of_lt_of_le (by decide) hcommit₁.next_le
  -- it is published, which frees the second
  obtain ⟨acts, subs, active, -, hrun⟩ := publishes defaultLimits s₁
  have hreach₂ : (service defaultLimits).Reachable
      { s₁ with subs := subs, subsActive := active, publishing := [] } :=
    System.Reaches.run (.step (a := .engine (.commit (.batch (firstOps small large))) false) .init
      trivial hstep₁) hrun
  obtain ⟨s₃, hstep₃, hcommit₃⟩ := Service.commits_batch
    (s := { s₁ with subs := subs, subsActive := active, publishing := [] })
    (by decide) rfl hcommit₁.phase rfl
    (allowed_secondOps hhuge _)
    (Db.room_of_threshold (by decide) (by rw [hvisible₁]; exact (by decide : 2 + 1 + 5 < MAX_SEQNO))
      hsize₂ fun _ => by simp [secondOps]) hsize₂
  have hplaced₃ := placeOps_secondOps hhuge
    [⟨⟨1, 0, 4104⟩, [byte 97], small⟩, ⟨⟨1, 4104, 134201354⟩, [byte 98], large⟩]
  rw [show s₁.engine.db.vlog.placeOps defaultLimits.valueThreshold (secondOps huge) = _ from
    (congrArg (fun v => Vlog.placeOps 4096 v (secondOps huge)) hvlog₁).trans hplaced₃] at hcommit₃
  -- the second one fills the file, and the head moves on
  obtain ⟨id, hid, hvlog₃, hvlogs₃, hhead₃⟩ :=
    hcommit₃.rotated (show 128 * 2 ^ 20 ≤ 1203753018 by decide) hnext
  refine ⟨s₃, .step (a := .engine (.commit (.batch (secondOps huge))) false) hreach₂ trivial hstep₃,
    ?_⟩
  exact
    { phase := hcommit₃.phase.trans hcommit₁.phase
      healthy := hcommit₃.degraded.trans hcommit₁.degraded
      idle := hcommit₃.pass.trans hcommit₁.pass
      vlogs := ⟨id, ne_of_gt (lt_of_lt_of_le hnext hid),
        hvlogs₃.trans (congrArg (· ++ [id]) hvlogs₁), hhead₃⟩
      retired := congrArg VlogManifest.retired (hcommit₃.manifest.trans hcommit₁.manifest)
      log := by
        rw [hcommit₃.log]
        show s₁.engine.log ++ _ = _
        rw [hcommit₁.log, show s₁.engine.db.visibleSeqno = 2 from hvisible₁]
        rfl
      visible := hcommit₃.visible.trans (congrArg (· + 5) hvisible₁)
      records := by rw [hvlog₃]; rfl }

/-- All values but the deleted one are live. -/
theorem live_of_overfull (h : s.Overfull small large huge) (hinv : s.engine.Inv) :
    (victimRecords small large huge).map (VlogRecord.live s.engine.db) =
      [false, true, true, true, true, true] := by
  have hlive : ∀ p key value, VlogRecord.live s.engine.db ⟨p, key, value⟩ =
      decide (∃ x ∈ historyOf (victimLog [] [] []), x.ukey = key ∧ x.repr = .ptr p ∧
        ∀ f ∈ historyOf (victimLog [] [] []), ¬ (f.ukey = x.ukey ∧ x.seq < f.seq ∧ f.seq ≤ 7)) := by
    intro p key value
    rw [Bool.eq_iff_iff, live_iff hinv, h.log, h.visible, decide_eq_true_iff]
    unfold Shadowed
    simp only [not_exists, not_and]
    rfl
  simp only [hlive, victimRecords, List.map_cons, List.map_nil]
  decide

theorem Service.Overfull.scan (h : s.Overfull small large huge) :
    s.engine.db.vlog.scanRecords 1 = victimRecords small large huge := by
  unfold Vlog.scanRecords
  rw [h.records]
  rfl

theorem Service.Overfull.le_fileLen (h : s.Overfull small large huge) :
    GC_SAMPLE_MIN_FILE ≤ s.engine.db.vlog.fileLen 1 := by
  unfold Vlog.fileLen GC_SAMPLE_MIN_FILE
  rw [h.scan]
  simp only [victimRecords, List.map_cons, List.map_nil, List.sum_cons, List.sum_nil]
  omega

theorem Service.Overfull.sample (h : s.Overfull small large huge) :
    s.engine.db.vlog.sampleRecords 1 GC_SAMPLE_BYTES = [⟨⟨1, 0, 4104⟩, [byte 97], small⟩] := by
  have hin : decide (0 + 4104 ≤ 2 ^ 20) = true := by decide
  have hout : ¬ decide (4104 + 134201354 ≤ 2 ^ 20) = true := by decide
  unfold Vlog.sampleRecords
  rw [h.scan]
  unfold victimRecords GC_SAMPLE_BYTES
  rw [List.takeWhile_cons_of_pos
    (p := fun r : VlogRecord => decide (r.ptr.offset + r.ptr.len ≤ 2 ^ 20)) hin,
    List.takeWhile_cons_of_neg
      (p := fun r : VlogRecord => decide (r.ptr.offset + r.ptr.len ≤ 2 ^ 20)) hout]

/-- The sample holds the deleted value only. -/
theorem sampleVictim_of_overfull (h : s.Overfull small large huge) (hinv : s.engine.Inv) :
    s.sampleVictim (fun dead sampled => decide (sampled ≤ 2 * dead)) (fun _ => none) = some 1 := by
  obtain ⟨id, hid, hvlogs, hhead⟩ := h.vlogs
  have hdead : VlogRecord.live s.engine.db ⟨⟨1, 0, 4104⟩, [byte 97], small⟩ = false :=
    (List.cons.inj (live_of_overfull h hinv)).1
  have hids : (s.vlogs.filter fun id => decide (id ≠ s.vlogHead ∧ id ∉ s.manifest.retiredIds) &&
      (none : Option (ℕ × ℕ)).all
      fun p => decide (GC_RESAMPLE_SEQ_DELTA ≤ s.engine.db.visibleSeqno - p.1 ∨ p.2 ≠ s.vlogHead)) =
        [1] := by
    rw [hvlogs, hhead]
    unfold VlogManifest.retiredIds
    rw [h.retired]
    simp [hid.symm]
  unfold Service.sampleVictim
  simp only [hids]
  simp [h.le_fileLen, h.sample, hdead]

/-- A list that fits into one chunk. -/
theorem toChunks_of_le {α : Type} {n : ℕ} {l : List α} (hne : l ≠ []) (hle : l.length ≤ n + 1) :
    l.toChunks (n + 1) = [l] := by
  have hgo : ∀ (l : List α) (acc : Array α), acc.size + l.length ≤ n + 1 →
      List.toChunks.go (n + 1) l acc #[] = [acc.toList ++ l] := by
    intro l
    induction l with
    | nil => exact fun acc _ => by simp [List.toChunks.go]
    | cons y l ih =>
      intro acc hacc
      rw [List.length_cons] at hacc
      have hroom : ¬ (acc.size == n + 1) = true := by
        rw [beq_iff_eq]
        omega
      rw [List.toChunks.go, if_neg hroom, ih _ (by rw [Array.size_push]; omega), Array.toList_push,
        List.append_assoc]
      rfl
  obtain ⟨x, xs, rfl⟩ := List.exists_cons_of_ne_nil hne
  rw [List.length_cons] at hle
  exact hgo xs #[x] (by simpa [Nat.add_comm] using hle)

/-- One chunk holds more than a batch may. -/
theorem gcChunks_of_overfull (hlarge : large.length = 2 ^ 27 - 2 ^ 14)
    (hhuge : huge.length = 2 ^ 28 - 2 ^ 20)
    (h : s.Overfull small large huge) (hinv : s.engine.Inv) :
    (gcChunks s.engine.db.vlog 1).flatten.Perm (s.engine.db.vlog.scanRecords 1) ∧
      ∃ chunk ∈ gcChunks s.engine.db.vlog 1, WAL_RECORD_LIMIT ≤ approxSize
        (relocationOps s.engine.db chunk) := by
  have hperm := List.mergeSort_perm (victimRecords small large huge) fun r r' =>
    decide (r.key ≤ r'.key)
  have hchunks : gcChunks s.engine.db.vlog 1 =
      [(victimRecords small large huge).mergeSort fun r r' => decide (r.key ≤ r'.key)] := by
    unfold gcChunks
    rw [h.scan]
    exact toChunks_of_le (fun hnil => List.cons_ne_nil _ _ (List.nil_perm.mp (hnil ▸ hperm)))
      (by rw [hperm.length_eq]; exact (by decide : 6 ≤ 255 + 1))
  rw [hchunks]
  refine ⟨by rw [List.flatten_singleton, h.scan]; exact hperm, _, List.mem_singleton_self _, ?_⟩
  rw [approxSize_relocationOps, (hperm.map _).sum_nat]
  have hlive := live_of_overfull h hinv
  simp only [victimRecords, List.map_cons, List.map_nil, List.cons.injEq] at hlive
  obtain ⟨-, h1, h2, h3, h4, h5, -⟩ := hlive
  have hlimit : WAL_RECORD_LIMIT = 1073741824 := rfl
  simp only [victimRecords, List.map_cons, List.map_nil, List.sum_cons, List.sum_nil,
    VlogRecord.share, h1, h2, h3, h4, h5, if_true]
  omega

/-- **A victim that cannot be relocated**: the sample picks a file whose live
values, in one chunk, exceed the limit of a batch. -/
theorem relocation_rejected : ¬ ∀ (opts : Options) (s : Service), (service opts).Reachable s →
    ∀ victim, s.sampleVictim (fun dead sampled => decide (sampled ≤ 2 * dead))
      (fun _ => none) = some victim →
    ∀ s', s.step opts (.gcPick victim (gcChunks s.engine.db.vlog victim)) = some s' →
    ∀ acts s'', (∀ act ∈ acts, act.Alone) → (service opts).run acts s' = some s'' →
      s''.pass.isSome = true := by
  intro hall
  obtain ⟨s, hreach, hover⟩ := @exists_overfull (List.replicate (2 ^ 12) 0)
    (List.replicate (2 ^ 27 - 2 ^ 14) 0) (List.replicate (2 ^ 28 - 2 ^ 20) 0) List.length_replicate
    List.length_replicate List.length_replicate
  have hfiles : s.Files := files_of_reaches hreach
  obtain ⟨hperm, hbig⟩ :=
    gcChunks_of_overfull List.length_replicate List.length_replicate hover hfiles.engine
  obtain ⟨id, hid, hvlogs, hhead⟩ := hover.vlogs
  -- the sampled file is none of those that a pass must not pick
  have hpick : s.step defaultLimits (.gcPick 1 (gcChunks s.engine.db.vlog 1)) =
      some { s with pass := some ⟨1, gcChunks s.engine.db.vlog 1, false⟩ } := by
    refine if_pos ⟨hover.phase, hover.healthy, hover.idle, ?_, ?_, ?_, hperm⟩
    · rw [hvlogs]
      exact List.mem_cons_self
    · rw [hhead]
      exact hid.symm
    · unfold VlogManifest.retiredIds
      rw [hover.retired]
      exact List.not_mem_nil
  obtain ⟨hrecords, hnodup⟩ := hfiles.picked hperm
  obtain ⟨acts, s'', hacts, hrun, hpass⟩ :=
    (files_step hfiles hpick).rejected rfl hrecords hnodup hbig
  have hgoes := hall defaultLimits s hreach 1 (sampleVictim_of_overfull hover hfiles.engine) _ hpick
    acts s'' hacts hrun
  rw [hpass] at hgoes
  exact Bool.false_ne_true hgoes

end Fluent31
