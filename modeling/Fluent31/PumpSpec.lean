/-
What the pump of a GraphQL subscription keeps.

* `Pump.Pinned` — the references, the snapshots and their registrations fit
  together;
* `Pump.Tracks` — where the pump stands in its subscription's stream, and that
  its hold lies before every commit still to come;
* `Pump.Sends` — what went into the channel: items, and at most one notice;
* `Pump.Inv`, `Pump.Inv.follow` — all of this, kept as the store moves on.
-/
import Fluent31.Pump
import Fluent31.VlogGc

namespace Fluent31

open Mvcc
open Checks (mapM_ok)

variable {opts : Options} {args : PumpArgs} {s s' : Service} {p p' : Pump} {sub sub' : Subscription}

/-! ### Registrations -/

/-- A seqno at or above a registered one can be registered. -/
theorem Service.snapshotAt_eq {m seq : ℕ} (hm : m ∈ s.engine.db.snapshots) (hle : m ≤ seq)
    (hvis : seq ≤ s.engine.db.visibleSeqno) :
    s.snapshotAt seq = .ok { s with engine := { s.engine with
      db := s.engine.db.registerSnapshotAt seq, handles := seq :: s.engine.handles } } := by
  have hmin : ∃ k, s.engine.db.snapshots.min? = some k ∧ k ≤ m := by
    cases h : s.engine.db.snapshots.min? with
    | none => exact absurd (List.min?_eq_none_iff.mp h ▸ hm) List.not_mem_nil
    | some k => exact ⟨k, rfl, (List.min?_eq_some_iff.mp h).2 m hm⟩
  obtain ⟨k, hk, hkm⟩ := hmin
  unfold Service.snapshotAt Db.tryRegisterSnapshotAt
  rw [if_neg (not_lt.mpr hvis), hk]
  simp only [Option.getD_some]
  rw [if_neg fun hbad => absurd hbad.1 (not_lt.mpr (le_trans hkm hle))]
  rfl

/-- The snapshot is one step of the service. -/
theorem Service.snapshotAt_step {seq : ℕ} (hphase : s.phase = .running)
    (h : s.snapshotAt seq = .ok s') :
    s.step opts (.engine (.snapshotAt seq) false) = some s' ∧
      s' = { s with engine := { s.engine with
        db := s.engine.db.registerSnapshotAt seq, handles := seq :: s.engine.handles } } := by
  unfold Service.snapshotAt at h
  cases hdb : s.engine.db.tryRegisterSnapshotAt seq with
  | error err =>
    rw [hdb] at h
    exact absurd h (by simp [Except.map])
  | ok db =>
    rw [hdb] at h
    obtain rfl := Except.ok.inj h
    have heq : db = s.engine.db.registerSnapshotAt seq := by
      unfold Db.tryRegisterSnapshotAt at hdb
      simp only at hdb
      split at hdb
      · exact absurd hdb (by simp)
      · split at hdb
        · exact absurd hdb (by simp)
        · exact (Except.ok.inj hdb).symm
    subst heq
    refine ⟨?_, rfl⟩
    have hengine : s.engine.step opts (.snapshotAt seq) = some { s.engine with
        db := s.engine.db.registerSnapshotAt seq, handles := seq :: s.engine.handles } := by
      show Option.map _ (s.engine.db.tryRegisterSnapshotAt seq).toOption = _
      rw [hdb]
      rfl
    dsimp only [Service.step]
    rw [if_pos ⟨hphase, rfl, fun hw => absurd hw Bool.false_ne_true, fun t ht =>
      absurd ht (Option.not_mem_none t)⟩, hengine, Option.map_some]
    simp [Service.moved, Db.registerSnapshotAt]

/-- A store in service stays so within a process. -/
theorem Service.running_step {act : ServiceAction} (hs : s.step opts act = some s')
    (hin : act.inProcess) (hphase : s.phase = .running) : s'.phase = .running := by
  cases Service.takes hs with
  | reopen | crashOpening => exact absurd hin Bool.false_ne_true
  | completeOpen => rfl
  | _ => exact hphase

/-! ### The subscription of one caller -/

namespace Subscription

/-- The ops that calls have returned. -/
def delivered (sub : Subscription) : List StreamEntry := sub.events.flatMap StreamEvent.entries

/-- The same position in the stream, whatever has happened to the queue. -/
structure Alike (sub sub' : Subscription) : Prop where
  lo : sub'.lo = sub.lo
  hi : sub'.hi = sub.hi
  delivered : sub'.delivered = sub.delivered
  start : sub'.start = sub.start
  pinned : sub'.pinned = sub.pinned
  closed : sub'.closed = sub.closed

theorem Alike.refl (sub : Subscription) : sub.Alike sub := ⟨rfl, rfl, rfl, rfl, rfl, rfl⟩

theorem alike_publish (sub : Subscription) (base : ℕ) (es : List EncEntry) :
    sub.Alike (sub.publish base es) := by
  obtain ⟨hclosed, hpinned, hstart⟩ := publish_frame sub base es
  have hrest : (sub.publish base es).lo = sub.lo ∧ (sub.publish base es).hi = sub.hi ∧
      (sub.publish base es).events = sub.events := by
    unfold Subscription.publish Subscription.offer
    simp only
    split_ifs <;> exact ⟨rfl, rfl, rfl⟩
  obtain ⟨hlo, hhi, hevents⟩ := hrest
  refine ⟨hlo, hhi, ?_, hstart, hpinned, hclosed⟩
  unfold delivered
  rw [hevents]

theorem alike_check (sub : Subscription) (degraded : Bool) : sub.Alike (sub.check degraded) := by
  obtain ⟨-, hclosed, hpinned, hstart⟩ := check_frame sub degraded
  unfold Subscription.check at hclosed hpinned hstart ⊢
  split_ifs at hclosed hpinned hstart ⊢
  · refine ⟨rfl, rfl, ?_, rfl, rfl, rfl⟩
    show (sub.events ++ [StreamEvent.lagged]).flatMap StreamEvent.entries = _
    rw [List.flatMap_append]
    exact List.append_nil _
  · exact .refl sub
  · exact ⟨rfl, rfl, rfl, rfl, rfl, rfl⟩

/-- What was delivered, by commits. -/
theorem Stands.delivered {log : List CommitRec} {publishing : List (ℕ × List EncEntry)}
    {segs : List (List CommitRec)}
    {t rest : List CommitRec} {n : ℕ} (h : sub.Stands log publishing segs t rest n) :
    sub.delivered = segs.flatten.flatMap sub.streamOf := by
  have hlagged : (List.replicate n StreamEvent.lagged).flatMap StreamEvent.entries = [] :=
    List.flatMap_eq_nil_iff.mpr fun ev hev => by
      rw [List.eq_of_mem_replicate hev]
      rfl
  unfold Subscription.delivered
  rw [h.events, List.flatMap_append, hlagged, List.append_nil, List.flatMap_map,
    List.flatten_eq_flatMap, List.flatMap_assoc]
  rfl

end Subscription

/-- Others leave a subscription where it stands. -/
theorem Service.alike_serve (h : s.Streams) {act : ServiceAction} (hs : s.step opts act = some s')
    (hin : act.inProcess) {i : ℕ} (hother : ∀ j ∈ act.caller, j ≠ i) (hi : s.subs[i]? = some sub) :
    ∃ sub', s'.subs[i]? = some sub' ∧ sub.Alike sub' := by
  have hkeep : ∀ {j : ℕ} (u : Subscription), j ≠ i → (s.subs.set j u)[i]? = some sub := fun u hj =>
    (List.getElem?_set_ne hj).trans hi
  cases Service.takes hs with
  | @publish r rest hpub =>
    refine ⟨sub.publish r.1 r.2, ?_, sub.alike_publish r.1 r.2⟩
    rw [publishStream_eq h.active]
    show (s.subs.map fun u => u.publish r.1 r.2)[i]? = _
    rw [List.getElem?_map, hi]
    rfl
  | subscribe start hphase hpub hstart he =>
    exact ⟨sub, (List.getElem?_append_left (List.getElem?_eq_some_iff.mp hi).1).trans hi, .refl sub⟩
  | check => exact ⟨sub, hkeep _ (hother _ rfl), .refl sub⟩
  | drain => exact ⟨sub, hkeep _ (hother _ rfl), .refl sub⟩
  | deliver => exact ⟨sub, hkeep _ (hother _ rfl), .refl sub⟩
  | kill => exact ⟨sub, hkeep _ (hother _ rfl), .refl sub⟩
  | close => exact ⟨sub, hkeep _ (hother _ rfl), .refl sub⟩
  | reopen | crashOpening => exact absurd hin Bool.false_ne_true
  | _ => exact ⟨sub, hi, .refl sub⟩

/-! ### References and registrations -/

namespace Pump

/-- A snapshot that is still held. -/
def Open (p : Pump) (id : ℕ) : Prop := ∃ sn, p.snaps[id]? = some sn ∧ sn.dropped = false

/-- Snapshot `id` was taken at `seq`. -/
def At (p : Pump) (id seq : ℕ) : Prop := ∃ sn, p.snaps[id]? = some sn ∧ sn.seqno = seq

/-- The items sent, and the one that waits for room. -/
def items (p : Pump) : List SubItem := p.sent.filterMap Except.toOption ++ p.stage.item?.toList

structure Pinned (p : Pump) : Prop where
  streams : p.service.Streams
  running : p.stage ≠ .start → p.service.phase = .running
  held : ∀ t, (p.service.pins ++ p.holding).count t ≤ p.service.engine.handles.count t
  refs : ∀ id ∈ p.references, p.Open id
  items : ∀ m ∈ p.items, p.At m.snap m.commitSeqno
  commit : ∀ c ∈ p.commit, p.At c.2 c.1
  safe : ∀ t ∈ p.holding, p.service.Safe t

namespace Pinned

theorem registered_of_mem (h : p.Pinned) {t : ℕ} (ht : t ∈ p.service.pins ++ p.holding) :
    t ∈ p.service.engine.db.snapshots := by
  have hcount := lt_of_lt_of_le (List.count_pos_iff.mpr ht) (h.held t)
  exact h.streams.files.engine.snapshots.mem_iff.mpr
    (List.mem_append_left _ (List.count_pos_iff.mp hcount))

/-- A snapshot someone refers to is held. -/
theorem mem_holding (h : p.Pinned) {id seq : ℕ} (hid : id ∈ p.references) (hat : p.At id seq) :
    seq ∈ p.holding := by
  obtain ⟨sn, hsn, rfl⟩ := hat
  obtain ⟨sn', hsn', hopen⟩ := h.refs id hid
  obtain rfl := Option.some_inj.mp (hsn.symm.trans hsn')
  exact List.mem_map_of_mem (List.mem_filter.mpr ⟨List.mem_of_getElem? hsn, by simp [hopen]⟩)

theorem registered (h : p.Pinned) {id seq : ℕ} (hid : id ∈ p.references) (hat : p.At id seq) :
    seq ∈ p.service.engine.db.snapshots :=
  h.registered_of_mem (List.mem_append_right _ (h.mem_holding hid hat))

/-- The service moves on, and the pump's snapshots stay. -/
theorem serve (h : p.Pinned) {act : ServiceAction} (hs : p.service.step opts act = some s')
    (hin : act.inProcess) (hfree : ∀ t ∈ act.consumes, (p.service.pins ++ p.holding).count t <
      p.service.engine.handles.count t) :
    ({ p with service := s' } : Pump).Pinned where
  streams := streams_step h.streams hs
  running := fun hstage => Service.running_step hs hin (h.running hstage)
  held := fun t => by
    have hstep := Service.handles_serve h.streams hs hin t
    have hold := h.held t
    have hless : act.consumes = some t → _ := hfree t
    show (s'.pins ++ p.holding).count t ≤ s'.engine.handles.count t
    rw [List.count_append] at hold hless ⊢
    by_cases hconsumes : act.consumes = some t
    · have := hless hconsumes
      rw [if_pos hconsumes] at hstep
      omega
    · rw [if_neg hconsumes] at hstep
      omega
  refs := h.refs
  items := h.items
  commit := h.commit
  safe := fun t ht => safe_step hs (h.registered_of_mem (List.mem_append_right _ ht)) (h.safe t ht)

/-- References move, and snapshots stay. -/
theorem relabel (h : p.Pinned) (hservice : p'.service = p.service) (hsnaps : p'.snaps = p.snaps)
    (hrunning : p'.stage ≠ .start → p.service.phase = .running)
    (hrefs : ∀ id ∈ p'.references, p.Open id)
    (hitems : ∀ m ∈ p'.items, p.At m.snap m.commitSeqno)
    (hcommit : ∀ c ∈ p'.commit, p.At c.2 c.1) : p'.Pinned := by
  obtain ⟨service, stage, sub, snaps, hold, commit, channel, receiver, refs, sent⟩ := p'
  subst hservice hsnaps
  exact ⟨h.streams, hrunning, h.held, hrefs, hitems, hcommit, h.safe⟩

end Pinned

theorem mem_references {id : ℕ} :
    id ∈ p.references ↔ p.hold = some id ∨ (∃ c, p.commit = some c ∧ c.2 = id) ∨
    (∃ m, p.stage.item? = some m ∧ m.snap = id) ∨ id ∈ p.channelRefs ∨ id ∈ p.refs := by
  unfold references
  simp only [List.mem_append, List.mem_map, Option.mem_toList]

/-- Snapshot numbers keep their meaning as snapshots are added. -/
theorem At.added {id seq : ℕ} (h : p.At id seq) (hsnaps : p'.snaps = p.snaps ++ [sn]) :
    p'.At id seq := by
  obtain ⟨sn', hsn', heq⟩ := h
  exact ⟨sn', by rw [hsnaps, List.getElem?_append_left (List.getElem?_eq_some_iff.mp hsn').1,
    hsn'], heq⟩

theorem Open.added {id : ℕ} {sn : PumpSnapshot} (h : p.Open id)
    (hsnaps : p'.snaps = p.snaps ++ [sn]) : p'.Open id := by
  obtain ⟨sn', hsn', heq⟩ := h
  exact ⟨sn', by rw [hsnaps, List.getElem?_append_left (List.getElem?_eq_some_iff.mp hsn').1,
    hsn'], heq⟩

/-- The pump with one snapshot more. -/
def took (p : Pump) (s : Service) (seq : ℕ) : Pump :=
  { p with service := s, snaps := p.snaps ++ [⟨seq, false⟩] }

theorem took_new (s : Service) (seq : ℕ) :
    (p.took s seq).Open p.snaps.length ∧ (p.took s seq).At p.snaps.length seq := by
  have hlast : (p.snaps ++ [(⟨seq, false⟩ : PumpSnapshot)])[p.snaps.length]? = some
      ⟨seq, false⟩ := by
    rw [List.getElem?_append_right le_rfl, Nat.sub_self]
    rfl
  exact ⟨⟨_, hlast, rfl⟩, ⟨_, hlast, rfl⟩⟩

theorem pin_eq {seq : ℕ} (hok : p.service.snapshotAt seq = .ok s') (failed : Error → PumpError)
    (next : Pump → ℕ → Pump) : p.pin seq failed next = next (p.took s' seq) p.snaps.length := by
  unfold pin
  rw [hok]
  rfl

/-- A snapshot is taken. -/
theorem Pinned.took (opts : Options) (h : p.Pinned) (hphase : p.service.phase = .running) {seq : ℕ}
    (hok : p.service.snapshotAt seq = .ok s') (hsafe : p.service.Safe seq) :
    (p.took s' seq).Pinned := by
  obtain ⟨hs, heq⟩ := @Service.snapshotAt_step opts _ _ _ hphase hok
  have hholding : (p.took s' seq).holding = p.holding ++ [seq] := by
    unfold holding Pump.took
    rw [List.filter_append, List.map_append]
    rfl
  refine ⟨streams_step h.streams hs, fun _ => Service.running_step hs rfl hphase,
    fun t => ?_, fun id hid => ?_, fun m hm => ?_, fun c hc => ?_, fun t ht => ?_⟩
  · have hheld := h.held t
    have hhandles : s'.engine.handles = seq :: p.service.engine.handles := by rw [heq]
    have hpins : s'.pins = p.service.pins := by rw [heq]; rfl
    show (s'.pins ++ (p.took s' seq).holding).count t ≤ s'.engine.handles.count t
    rw [hholding, hhandles, hpins, ← List.append_assoc, List.count_append, List.count_singleton,
      List.count_cons]
    omega
  · exact (h.refs id hid).added rfl
  · exact (h.items m hm).added rfl
  · exact (h.commit c hc).added rfl
  · have hsame : p.service.Safe t := by
      rcases List.mem_append.mp (hholding ▸ ht) with ht | ht
      · exact h.safe t ht
      · exact List.mem_singleton.mp ht ▸ hsafe
    rw [show (p.took s' seq).service = s' from rfl, heq]
    exact hsame

/-! ### The position in the stream -/

end Pump

/-- Nothing at or below `b` is still to come after `pinned`. -/
def Service.Boundary (s : Service) (pinned b : ℕ) : Prop :=
  b ≤ s.engine.db.visibleSeqno ∧ ∀ c ∈ s.engine.log, pinned < c.base → b < c.base

theorem Service.Boundary.serve {pinned b : ℕ} (hb : s.Boundary pinned b) (h : s.Files)
    {act : ServiceAction}
    (hs : s.step opts act = some s') (hin : act.inProcess) : s'.Boundary pinned b := by
  obtain ⟨recs, hlog, hvis, hnew⟩ := Service.log_serve h hs hin
  refine ⟨le_trans hb.1 hvis, fun c hc hlt => ?_⟩
  rw [hlog] at hc
  rcases List.mem_append.mp hc with hc | hc
  · exact hb.2 c hc hlt
  · exact lt_of_le_of_lt hb.1 (hnew c hc)

/-- The lower end of the range, clamped to the user keyspace. -/
def PumpArgs.low (args : PumpArgs) : Bytes :=
  if USER_KEYSPACE_START ≤ args.lo then args.lo else USER_KEYSPACE_START

/-- The ops that are reported. -/
def PumpArgs.keeps (args : PumpArgs) (e : StreamEntry) : Bool :=
  !decide (args.putsOnly ∧ e.kind = .delete)

/-- An item without its snapshot. -/
def SubItem.unpinned (m : SubItem) : SubItem := { m with snap := 0 }

/-- What a stream shows of ops. -/
def PumpArgs.shows (args : PumpArgs) (start : ℕ) (ops : List StreamEntry) : List SubItem :=
  .marker start 0 :: (ops.filter args.keeps).map fun e => e.item 0

theorem PumpArgs.shows_append (args : PumpArgs) (start : ℕ) (told : List StreamEntry)
    (e : StreamEntry) :
    args.shows start (told ++ [e]) =
      if args.keeps e then args.shows start told ++ [e.item 0] else args.shows start told := by
  unfold PumpArgs.shows
  rw [List.filter_append, List.map_append]
  split_ifs with hkeeps
  · rw [List.filter_cons_of_pos hkeeps]
    rfl
  · rw [List.filter_cons_of_neg hkeeps]
    exact congrArg _ (List.append_nil _)

/-- The ops of a commit are numbered from its base, and all name its last seqno. -/
theorem mem_stream {db : Db} {log : List CommitRec} {floor : ℕ} (h : Consistent db log floor)
    {c : CommitRec} (hc : c ∈ log) {e : StreamEntry} (he : e ∈ c.stream) :
    c.base ≤ e.seqno ∧ e.seqno ≤ e.commitSeqno ∧ e.commitSeqno + 1 = c.base + c.entries.length ∧
      e.commitSeqno ≤ db.visibleSeqno := by
  obtain ⟨⟨op, n⟩, hp, rfl⟩ := List.mem_map.mp he
  have hlen : c.entries.length = c.fullOps.length := (h.encodes c hc).length_eq
  obtain ⟨hge, hget⟩ := List.mk_mem_zipIdx_iff_le_and_getElem?_sub.mp hp
  have hlt := (List.getElem?_eq_some_iff.mp hget).1
  have hend := (h.contiguous.mem (List.mem_map_of_mem hc)).2.1
  change c.base + c.entries.length ≤ _ at hend
  dsimp only
  omega

/-- What a call hands out lies behind the pin it moves, and its last op is where
the pin goes. -/
theorem Service.Streams.handed (h : s.Streams) (hsub : sub ∈ s.subs) (hopen : sub.closed = false)
    (htaken : sub.taken ≠ []) {out : List StreamEntry}
    (hout : sub.taken.mapM (RawEntry.resolve s.db) = .ok out) :
    (∀ e ∈ out, ∃ c ∈ s.engine.log, sub.pinned < c.base ∧ e ∈ c.stream) ∧
      ∃ e, out.getLast? = some e ∧ e.seqno = sub.lastTaken := by
  obtain ⟨segs, t, rest, n, hstands⟩ := h.stands sub hsub
  have hmap : out = sub.taken.map (RawEntry.streamed s.engine.db) :=
    mapM_ok hout fun r hr y hy => by
    obtain ⟨c, hc, hr⟩ := hstands.mem_taken hr
    exact h.files.resolve_ok (hstands.mem_log (List.mem_append_left _ hc)) hr hy
  refine ⟨fun e he => ?_, ?_⟩
  · rw [hmap, hstands.map_taken h.files.engine.consistent] at he
    obtain ⟨c, hc, he⟩ := List.mem_flatMap.mp he
    have hc' := List.mem_append_left rest hc
    exact ⟨c, hstands.mem_log hc', hstands.pinned hopen c hc', List.mem_of_mem_filter he⟩
  · refine ⟨(sub.taken.getLast htaken).streamed s.engine.db, ?_, ?_⟩
    · rw [hmap, List.getLast?_map, List.getLast?_eq_some_getLast htaken]
      rfl
    · unfold Subscription.lastTaken
      rw [List.getLast?_eq_some_getLast htaken]
      rfl

/-- The commit of a delivered op is over before any later one begins. -/
theorem Service.Streams.boundary_of_stream (h : s.Streams) {c : CommitRec} (hc : c ∈ s.engine.log)
    {e : StreamEntry} (he : e ∈ c.stream) : s.Boundary e.seqno e.commitSeqno := by
  have hcons := h.files.engine.consistent
  obtain ⟨hbase, hseq, hend, hvis⟩ := mem_stream hcons hc he
  refine ⟨hvis, fun c' hc' hlt => ?_⟩
  have hpair := List.pairwise_iff_getElem.mp (pairwise_base hcons)
  have hpos := List.length_pos_iff.mpr (hcons.contiguous.mem (List.mem_map_of_mem hc')).2.2
  change 0 < c'.entries.length at hpos
  obtain ⟨k, hk, rfl⟩ := List.getElem_of_mem hc
  obtain ⟨k', hk', rfl⟩ := List.getElem_of_mem hc'
  rcases lt_trichotomy k k' with hlt' | rfl | hlt'
  · have := hpair k k' hk hk' hlt'
    omega
  · omega
  · have := hpair k' k hk' hk hlt'
    omega

namespace Pump

/-- Where the pump stands in its subscription's stream. -/
structure Tracks (args : PumpArgs) (p : Pump) (sub : Subscription) : Prop where
  range : sub.lo = args.low ∧ sub.hi = args.hi
  started : p.stage ≠ .start
  isOpen : p.stage ≠ .done → sub.closed = false
  fresh : p.stage = .attach → sub.delivered = [] ∧ sub.pinned = sub.start ∧ p.items = []
  shown : p.items.map SubItem.unpinned <+: args.shows sub.start sub.delivered
  exact : p.stage.going → ∃ told, sub.delivered = told ++ p.stage.todo ∧
    p.items.map SubItem.unpinned = args.shows sub.start told
  bound : p.stage.going → ∃ id seq, p.hold = some id ∧ p.At id seq ∧
    p.service.Boundary sub.pinned seq ∧
    (∀ e ∈ p.stage.todo, seq ≤ e.commitSeqno ∧ e.commitSeqno ≤ p.service.engine.db.visibleSeqno) ∧
    ∀ t ∈ p.stage.tail?, p.service.Boundary sub.pinned t ∧ seq ≤ t

/-- What was sent: items, and at most one notice, which is the end. -/
structure Sends (p : Pump) : Prop where
  split : ∃ (oks : List SubItem) (errs : List PumpError), p.sent = oks.map .ok ++ errs.map .error ∧
    errs.length ≤ 1 ∧ (p.stage.ended = false → errs = []) ∧ (p.stage.ended → p.receiver → errs ≠ [])
  granted : ∀ err, .error err ∈ p.sent ∨ p.stage = .failing err → err.ofSnapshot = false

structure Inv (args : PumpArgs) (p : Pump) : Prop where
  pinned : p.Pinned
  sends : p.Sends
  idle : p.sub = none → p.items = [] ∧ p.stage.going = false ∧ p.stage ≠ .attach
  tracks : ∀ i, p.sub = some i → ∃ sub, p.service.subs[i]? = some sub ∧ p.Tracks args sub

namespace Tracks

/-- The service moves on and the stream does not. -/
theorem follow (ht : p.Tracks args sub) (halike : sub.Alike sub')
    (hvis : p.service.engine.db.visibleSeqno ≤ p'.service.engine.db.visibleSeqno)
    (hbound : ∀ b, p.service.Boundary sub.pinned b → p'.service.Boundary sub.pinned b)
    (hat : ∀ id seq, p.At id seq → p'.At id seq) (hstage : p'.stage = p.stage)
    (hsent : p'.sent = p.sent)
    (hhold : p'.hold = p.hold) : p'.Tracks args sub' := by
  obtain ⟨hlo, hhi, hdelivered, hstart, hpinned, hclosed⟩ := halike
  have hitems : p'.items = p.items := by
    unfold items
    rw [hsent, hstage]
  exact
    { range := ⟨hlo.trans ht.range.1, hhi.trans ht.range.2⟩
      started := hstage ▸ ht.started
      isOpen := fun hne => hclosed.trans (ht.isOpen (hstage ▸ hne))
      fresh := fun hattach => by
        rw [hdelivered, hpinned, hstart, hitems]
        exact ht.fresh (hstage ▸ hattach)
      shown := by
        rw [hitems, hdelivered, hstart]
        exact ht.shown
      exact := fun hgoing => by
        rw [hitems, hdelivered, hstart, hstage]
        exact ht.exact (hstage ▸ hgoing)
      bound := fun hgoing => by
        obtain ⟨id, seq, hid, hseq, hb, htodo, htail⟩ := ht.bound (hstage ▸ hgoing)
        rw [hstage, hpinned]
        exact ⟨id, seq, hhold.trans hid, hat id seq hseq, hbound seq hb,
          fun e he => ⟨(htodo e he).1, le_trans (htodo e he).2 hvis⟩,
          fun t htt => ⟨hbound t (htail t htt).1, (htail t htt).2⟩⟩ }

/-- The loop is left. -/
theorem stop (ht : p.Tracks args sub) (halike : sub.Alike sub') (hstart : p'.stage ≠ .start)
    (hattach : p'.stage ≠ .attach) (hgoing : p'.stage.going = false)
    (hopen : p'.stage ≠ .done → p.stage ≠ .done)
    (hitems : p'.items <+: p.items) : p'.Tracks args sub' where
  range := ⟨halike.lo.trans ht.range.1, halike.hi.trans ht.range.2⟩
  started := hstart
  isOpen := fun hne => halike.closed.trans (ht.isOpen (hopen hne))
  fresh := fun heq => absurd heq hattach
  shown := by
    rw [halike.delivered, halike.start]
    exact (hitems.map _).trans ht.shown
  exact := fun hc => absurd (hgoing.symm.trans hc) Bool.false_ne_true
  bound := fun hc => absurd (hgoing.symm.trans hc) Bool.false_ne_true

end Tracks

/-- What was sent stays, and the call goes on. -/
theorem Sends.relabel (h : p.Sends) (hsent : p'.sent = p.sent) (hstage : p.stage.ended = false)
    (hnext : p'.stage.ended = false)
    (hfail : ∀ err, p'.stage = .failing err → err.ofSnapshot = false) :
    p'.Sends := by
  obtain ⟨oks, errs, hsplit, hone, hnone, -⟩ := h.split
  refine ⟨⟨oks, errs, hsent.trans hsplit, hone, fun _ => hnone hstage, fun hc =>
    absurd (hnext.symm.trans hc) Bool.false_ne_true⟩, ?_⟩
  rintro err (herr | herr)
  · exact h.granted err (Or.inl (hsent ▸ herr))
  · exact hfail err herr

namespace Inv

/-- The store moves on, under whatever the pump and its consumer do with their
references. -/
theorem follow (h : p.Inv args) (hpinned : p'.Pinned) {act : ServiceAction}
    (hs : p.service.step opts act = some p'.service) (hin : act.inProcess)
    (halike : ∀ i sub, p.sub = some i → p.service.subs[i]? = some sub →
      ∃ sub', p'.service.subs[i]? = some sub' ∧ sub.Alike sub')
    (hat : ∀ id seq, p.At id seq → p'.At id seq) (hstage : p'.stage = p.stage)
    (hsent : p'.sent = p.sent)
    (hhold : p'.hold = p.hold) (hsub : p'.sub = p.sub) (hreceiver : p'.receiver = p.receiver) :
    p'.Inv args := by
  have hfiles := h.pinned.streams.files
  have hitems : p'.items = p.items := by
    unfold items
    rw [hsent, hstage]
  refine ⟨hpinned, ⟨?_, ?_⟩, fun hnone => ?_, fun i hi => ?_⟩
  · rw [hsent, hstage, hreceiver]
    exact h.sends.split
  · rw [hsent, hstage]
    exact h.sends.granted
  · rw [hitems, hstage]
    exact h.idle (hsub ▸ hnone)
  · obtain ⟨sub, hi', ht⟩ := h.tracks i (hsub ▸ hi)
    obtain ⟨sub', hsub', hal⟩ := halike i sub (hsub ▸ hi) hi'
    obtain ⟨-, -, hvis, -⟩ := Service.log_serve hfiles hs hin
    exact ⟨sub', hsub', ht.follow hal hvis (fun b hb => hb.serve hfiles hs hin) hat hstage
      hsent hhold⟩

/-- Somebody else acts on the store. -/
theorem serve (h : p.Inv args) {act : ServiceAction} (hs : p.service.step opts act = some s')
    (hin : act.inProcess) (hother : ∀ i ∈ act.caller, p.sub ≠ some i)
    (hfree : ∀ t ∈ act.consumes, (p.service.pins ++ p.holding).count t <
      p.service.engine.handles.count t) :
    ({ p with service := s' } : Pump).Inv args :=
  h.follow (h.pinned.serve hs hin hfree) hs hin (fun _ _ hi hi' =>
    Service.alike_serve h.pinned.streams hs hin (fun j hj heq => hother j hj (heq ▸ hi)) hi')
    (fun _ _ hat => hat) rfl rfl rfl rfl rfl

end Inv

end Pump

end Fluent31
