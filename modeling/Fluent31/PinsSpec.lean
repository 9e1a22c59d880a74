/-
Pins survive crashes with their state.

* `PinStore.pin_read` — a read at a pin's seqno gives the sequential history
  there, values included;
* `PinStore.log_step` — no step changes the history up to a pin that is there
  after it;
* `PinStore.pins_survive` — both, for every run with failures and crashes, that
  no open refuses its pins, and that the snapshot list counts every holder.
-/
import Fluent31.PinInvariant
import Fluent31.VlogGc

namespace Fluent31

open Mvcc

variable {opts : Options} {s s' : Service} {w w' : PinStore} {x : Entry}

namespace PinStore

/-- What a reader at a pin finds has its file in the map. -/
theorem Inv.pin_readable (h : w.Inv) {t : ℕ} (ht : t ∈ w.pins.map Prod.snd) {key : Bytes}
    (hx : w.service.engine.db.readView.getVersioned key t = some x) {p : ValuePtr}
    (hp : x.repr = .ptr p) :
    p.file ∈ w.service.vlogs := by
  have hcons := h.files.engine.consistent
  have hreg := h.pins_registered ht
  obtain ⟨hfloor, -⟩ := h.files.engine.retained t hreg
  have hanswer := hcons.wf.recent.answers_getVersioned key t
  rw [hx] at hanswer
  by_contra hout
  have hmem : x ∈ w.service.history := hcons.retains.sub x hanswer.1
  have hlate := h.strays x p ⟨hmem, hp, hout, ?_⟩
  · exact absurd (hlate.later t (List.mem_append_left _ ht)) (not_lt.mpr hanswer.2.2.1)
  · -- what a registered reader finds is not unread
    rintro ⟨b, -, hall, hshadow⟩
    obtain ⟨r, hr⟩ := exists_answers (historyOf w.service.engine.log) key t
    rcases hcons.retains.answers hcons.distinct hfloor hanswer hr with rfl | ⟨hnone, -⟩
    · exact IsNewest.not_shadowed hr (hall t (Or.inl (List.mem_append_left _ ht))) hshadow
    · exact absurd hnone (by simp)

/-- **A read at a pin.** -/
theorem Inv.pin_read (h : w.Inv) {t : ℕ} (ht : t ∈ w.pins.map Prod.snd) (key : Bytes) :
    w.service.db.getAtSeq key t = .ok (stateAfter w.service.engine.log t key) := by
  obtain ⟨hfloor, hvis⟩ := h.files.engine.retained t (h.pins_registered ht)
  exact Service.getAtSeq_of_mapped h.files.engine hfloor hvis fun x p hx hp =>
    h.pin_readable ht hx hp

theorem served_service (w : PinStore) (act : ServiceAction) (s : Service) :
    (w.served act s).service = s := by
  unfold served
  split
  · rfl
  · rfl

theorem rollback_log {i : ℕ} {c : PinCall} (hs : w.rollback opts i c = some w') :
    w'.service.engine.log = w.service.engine.log := by
  obtain ⟨e', he, rfl⟩ := Option.map_eq_some_iff.mp hs
  obtain ⟨-, rfl⟩ := Engine.guarded_eq_some he
  rfl

/-- The steps of a call leave the log. -/
theorem log_calls {act : PinAction} (hs : w.step opts act = some w') (hserve : ∀ a, act ≠ .serve a)
    (hcrash : ∀ pins n orphan vanished, act ≠ .crash pins n orphan vanished) :
    w'.service.engine.log = w.service.engine.log := by
  cases act with
  | serve a => exact absurd rfl (hserve a)
  | crash pins n orphan vanished => exact absurd rfl (hcrash pins n orphan vanished)
  | degrade | manifest ok =>
    obtain ⟨-, hs⟩ := Option.ite_none_right_eq_some.mp hs
    obtain rfl := Option.some_inj.mp hs
    first | rfl | (split <;> rfl)
  -- a call touches registrations, manifest and value log sync, and commits nothing
  | pinBegin name =>
    obtain ⟨-, hs⟩ := Option.ite_none_right_eq_some.mp hs
    obtain ⟨e', he, rfl⟩ := Option.map_eq_some_iff.mp hs
    obtain rfl := Option.some_inj.mp he
    rfl
  | pinCheck i closing =>
    obtain ⟨c, hi, hs⟩ := Option.bind_eq_some_iff.mp hs
    obtain ⟨-, hs⟩ := Option.ite_none_right_eq_some.mp hs
    split at hs
    · exact rollback_log hs
    · obtain rfl := Option.some_inj.mp hs
      rfl
  | pinSync i ok =>
    obtain ⟨c, hi, hs⟩ := Option.bind_eq_some_iff.mp hs
    obtain ⟨-, hs⟩ := Option.ite_none_right_eq_some.mp hs
    split at hs
    · obtain rfl := Option.some_inj.mp hs
      rfl
    · have hback := rollback_log hs
      exact hback
  | pinCommit i ok =>
    obtain ⟨c, hi, hs⟩ := Option.bind_eq_some_iff.mp hs
    obtain ⟨-, hs⟩ := Option.ite_none_right_eq_some.mp hs
    unfold commitPin at hs
    split at hs
    · exact rollback_log hs
    · simp only at hs
      split at hs
      · obtain rfl := Option.some_inj.mp hs
        rfl
      · obtain ⟨w₁, hback, rfl⟩ := Option.map_eq_some_iff.mp hs
        have hlog := rollback_log hback
        exact hlog
  | unpin name ok =>
    obtain ⟨-, hs⟩ := Option.ite_none_right_eq_some.mp hs
    obtain ⟨p, hfind, rfl⟩ := Option.map_eq_some_iff.mp hs
    simp only
    split
    · rfl
    · rfl
  | unpinned seq =>
    obtain ⟨-, hs⟩ := Option.ite_none_right_eq_some.mp hs
    obtain ⟨e', he, rfl⟩ := Option.map_eq_some_iff.mp hs
    obtain ⟨-, rfl⟩ := Engine.guarded_eq_some he
    rfl
  | crashOpening id =>
    obtain ⟨s', hcrash', rfl⟩ := Option.map_eq_some_iff.mp hs
    obtain ⟨-, rfl⟩ := Service.guarded_eq_some hcrash'
    rfl

/-- **A crash** leaves the pins of the manifest that CURRENT names, and the
history up to each of them. -/
theorem Inv.crash_log (h : w.Inv) {pins : List (Bytes × ℕ)} {n orphan : ℕ} {vanished : List ℕ}
    (hpins : pins ∈ w.manifests) (hs : w.crash opts pins n orphan vanished = some w') :
    w'.pins = pins ∧ ∀ t ∈ pins.map Prod.snd,
      stateAfter w'.service.engine.log t = stateAfter w.service.engine.log t := by
  obtain ⟨s', hr, rfl⟩ := Option.map_eq_some_iff.mp hs
  have hdisk := h.onDisk hpins
  obtain ⟨e', disk, he, -, hdurable, -, -, -, rfl⟩ := Service.reopen_cases hr
  have hlog := reopen_log hdisk.engine he
  have hrec := recovered_of_reopen hdisk.engine he
  obtain ⟨db', hdb, rfl⟩ := Option.map_eq_some_iff.mp he
  obtain ⟨next, run?, hre, -⟩ := reopen_spec hdisk.engine.consistent.wf hdb
  refine ⟨hre.pins, fun t ht => ?_⟩
  obtain ⟨recs, heq, hrecs⟩ := cutLog_prefix hdisk.engine.consistent.contiguous db'.visibleSeqno
  have hle : t ≤ db'.visibleSeqno := by
    rw [hrec.visible]
    exact le_trans (h.of_manifest hpins ht).2.2 hdurable
  have hcut : stateAfter (cutLog w.service.engine.log db'.visibleSeqno ++ recs) t =
      stateAfter (cutLog w.service.engine.log db'.visibleSeqno) t :=
    stateAfter_append fun c hc => lt_of_le_of_lt hle (hrecs c hc)
  show stateAfter _ t = stateAfter w.service.engine.log t
  rw [hlog]
  exact hcut.symm.trans (congrArg (fun log => stateAfter log t) heq.symm)

/-- **Every step** leaves the history up to the pins that are there after it. -/
theorem Inv.log_step (h : w.Inv) {act : PinAction} (hs : w.step opts act = some w') {t : ℕ}
    (ht : t ∈ w'.pins.map Prod.snd) :
    stateAfter w'.service.engine.log t = stateAfter w.service.engine.log t := by
  cases act with
  | serve a =>
    have hinv := h.step hs
    obtain ⟨⟨hplain, -⟩, hs⟩ := Option.ite_none_right_eq_some.mp hs
    obtain ⟨s', hserve, rfl⟩ := Option.map_eq_some_iff.mp hs
    have hsame := Service.pins_serve h.files hserve hplain
    obtain ⟨recs, hlog, -⟩ :=
      Service.log_serve h.files hserve (ServiceAction.inProcess_of_unsplit hplain)
    have hcons := hinv.files.engine.consistent
    rw [PinStore.pins, served_service, hsame] at ht
    rw [served_service] at hcons ⊢
    rw [hlog]
    have hle := (h.files.engine.retained t (h.pins_registered ht)).2
    exact stateAfter_append fun c hc => lt_of_le_of_lt hle
      (h.files.engine.consistent.contiguous.split_log (hlog ▸ hcons.contiguous) c hc)
  | crash pins n orphan vanished =>
    obtain ⟨⟨hpins, -⟩, hs⟩ := Option.ite_none_right_eq_some.mp hs
    obtain ⟨hsame, hlog⟩ := h.crash_log hpins hs
    exact hlog t (hsame ▸ ht)
  | _ => rw [log_calls hs (fun _ => by simp) fun _ _ _ _ => by simp]

/-- No open refuses the pins of a manifest that CURRENT may name, whatever part of
the WAL beyond the last sync survives. -/
theorem Inv.not_refused (h : w.Inv) {pins : List (Bytes × ℕ)} (hpins : pins ∈ w.manifests) {n : ℕ}
    (hn : w.service.durable ≤ w.service.engine.db.recoveredSeqno n) (orphan : ℕ) :
    (∀ p ∈ pins, p.2 ≤ w.service.engine.db.recoveredSeqno n) ∧
      ((w.onDisk pins).engine.db.recover opts n orphan).isSome = true := by
  have hle : ∀ p ∈ pins, p.2 ≤ w.service.engine.db.recoveredSeqno n := fun p hp =>
    le_trans (h.of_manifest hpins (List.mem_map_of_mem hp)).2.2 hn
  refine ⟨hle, ?_⟩
  unfold Db.recover
  simp only
  rw [if_pos]
  · rfl
  · exact List.all_eq_true.mpr fun p hp => decide_eq_true (hle p hp)

/-- The snapshot list counts each registration once: those of the handles, among
them the subscriptions' and the ones of pin and unpin calls in progress, those of
the pins and those of queued transactions. -/
theorem Inv.counts (h : w.Inv) (t : ℕ) :
    w.service.engine.db.snapshots.count t = w.service.engine.handles.count t +
      ((w.pins.map Prod.snd).count t + w.service.engine.queueSnaps.count t) ∧
    w.holding.count t ≤ w.service.engine.handles.count t := by
  refine ⟨?_, h.holding t⟩
  rw [h.files.engine.snapshots.count_eq t]
  unfold Engine.registered
  rw [List.count_append, List.count_append]
  rfl

/-- **Pins survive.**  In every reachable state: the pins of each manifest that
CURRENT may name are at or below every head that recovery can find, so that no
open refuses them; a crash leaves the pins of the manifest it finds; a read at a
pin gives the sequential history there, which no step changes while the pin
stays; and each seqno is counted once for each of its holders, none of which is
below the watermark. -/
theorem pins_survive (h : (pinStore opts).Reachable w) :
    (∀ pins ∈ w.manifests, ∀ n orphan, w.service.durable ≤ w.service.engine.db.recoveredSeqno n →
      (∀ p ∈ pins, p.2 ≤ w.service.engine.db.recoveredSeqno n) ∧
        ((w.onDisk pins).engine.db.recover opts n orphan).isSome = true) ∧
    (∀ pins n orphan vanished w', (pinStore opts).step w (.crash pins n orphan vanished) = some w' →
      w'.pins = pins) ∧
    (∀ p ∈ w.pins, ∀ key, w.service.db.getAtSeq key p.2 =
      .ok (stateAfter w.service.engine.log p.2 key)) ∧
    (∀ act w', (pinStore opts).step w act = some w' → ∀ p ∈ w'.pins,
      stateAfter w'.service.engine.log p.2 = stateAfter w.service.engine.log p.2) ∧
    (∀ t, w.service.engine.db.snapshots.count t = w.service.engine.handles.count t +
        ((w.pins.map Prod.snd).count t + w.service.engine.queueSnaps.count t) ∧
      w.holding.count t ≤ w.service.engine.handles.count t) ∧
    ∀ t ∈ w.service.engine.registered, w.service.engine.db.watermark ≤ t := by
  have hinv : w.Inv := h.invariant (Inv.init opts) fun hi _ hs => hi.step hs
  refine ⟨fun pins hpins n orphan hn => hinv.not_refused hpins hn orphan,
    fun pins n orphan vanished w' hs => ?_, fun p hp key =>
      hinv.pin_read (List.mem_map_of_mem hp) key,
    fun act w' hs p hp => hinv.log_step hs (List.mem_map_of_mem hp), hinv.counts, fun t ht => ?_⟩
  · obtain ⟨⟨hpins, -⟩, hs⟩ := Option.ite_none_right_eq_some.mp hs
    exact (hinv.crash_log hpins hs).1
  · exact Engine.watermark_le (hinv.files.engine.snapshots.mem_iff.mpr ht)

/-- A pin whose commit failed, with its manifest named all the same: its hold is
gone, the value it covers is overwritten, and the crash brings it back. -/
def pinThenCrash : List PinAction :=
  let write (v : ℕ) : List PinAction :=
    [.serve (.engine (.enqueue (.batch [.put [byte 107] [byte v]])) false),
      .serve (.engine (.group 1) false), .serve .publish]
  write 1 ++ [.pinBegin [byte 112], .pinCheck 0 false, .pinSync 0 true] ++ write 2 ++
    [.pinCommit 0 false, .crash [([byte 112], 1)] 2 0 [], .serve .completeOpen]

theorem pins_survive_of_crash : ∃ w : PinStore, (pinStore gcOptions).Reachable w ∧
    w.pins = [([byte 112], 1)] ∧ w.service.engine.db.visibleSeqno = 2 ∧
    w.service.db.getAtSeq [byte 107] 1 = .ok (stateAfter w.service.engine.log 1 [byte 107]) := by
  have hrun : ((pinStore gcOptions).run pinThenCrash (pinStore gcOptions).init).any
      (fun w => decide (w.pins = [([byte 112], 1)] ∧ w.service.engine.db.visibleSeqno = 2)) =
        true := by
    decide +kernel
  obtain ⟨w, hreach, hpins, hvis⟩ := System.exists_reachable hrun
  refine ⟨w, hreach, hpins, hvis, ?_⟩
  exact (pins_survive hreach).2.2.1 ([byte 112], 1)
    (by rw [hpins]; exact List.mem_singleton_self _) _

end PinStore

end Fluent31
