/-
The forwarder's push frames (`fluent-replication/src/server.rs`).

A forwarder turns what `recv_timeout` returns into frames.  The queue's cap
counts pointers, the frame carries the values they resolve to, so the frame's
32-bit length says nothing about a batch of 4 GiB or more.

* `selfConsistent_iff` — a batch's frame is consistent just when it fits;
* `frames_consistent` — so of every batch any subscription delivers;
* `frame_cut` — a queue below its cap whose frame does not fit.
-/
import Fluent31.Proto
import Fluent31.RecordSize
import Fluent31.StreamExact

namespace Fluent31

variable {opts : Options} {s s' : Service} {sub : Subscription}

/-- The frame sent for what `recv_timeout` returned; a timeout is a ping. -/
def forwardFrame : Option StreamEvent → Bytes
  | some (.batch es) => response 0 PUSH_STREAM (encodeStreamBatch es)
  | some .lagged => response 0 PUSH_LAGGED []
  | none => response 0 PUSH_PING []

/-- What the client should receive. -/
def pushedFrame : Option StreamEvent → PushFrame
  | some (.batch es) => .batch es
  | some .lagged => .lagged
  | none => .ping

/-- The lengths that are cast to 32 bits. -/
def castLengths : Option StreamEvent → List ℕ
  | some (.batch es) =>
    (FRAME_OVERHEAD + (encodeStreamBatch es).length) :: es.length :: es.flatMap fun e =>
      e.key.length :: match e.kind with
        | .put => [(e.value.getD []).length]
        | .delete => []
  | _ => [FRAME_OVERHEAD]

/-- The frame's length field counts the bytes that follow it, the client's reader
accepts it, the frame decodes to what was sent, and no cast cuts a length. -/
structure SelfConsistent (ev : Option StreamEvent) : Prop where
  length : readLe ((forwardFrame ev).take 4) = ((forwardFrame ev).drop 4).length
  accepted : FRAME_OVERHEAD ≤ readLe ((forwardFrame ev).take 4)
  decodes : ∀ rest, nextPush (forwardFrame ev ++ rest) = .ok (pushedFrame ev, rest)
  casts : ∀ n ∈ castLengths ev, n < 2 ^ 32

/-- The frame of the batch is shorter than 4 GiB. -/
def FitsFrame (es : List StreamEntry) : Prop :=
  FRAME_OVERHEAD + 4 + (es.map StreamEntry.frameBytes).sum < 2 ^ 32

/-- What a frame's length field holds, and what follows it. -/
theorem response_parts (id status : ℕ) (payload : Bytes) :
    (response id status payload).take 4 = putU32 (FRAME_OVERHEAD + payload.length) ∧
      ((response id status payload).drop 4).length = FRAME_OVERHEAD + payload.length := by
  have hlen : (putU32 (FRAME_OVERHEAD + payload.length)).length = 4 := length_putLe 4 _
  unfold response
  refine ⟨List.take_left' hlen, ?_⟩
  rw [List.drop_left' hlen, List.length_append, List.length_cons, putU64, length_putLe]
  unfold FRAME_OVERHEAD
  omega

/-- A frame whose length is not cut is consistent up to its payload. -/
theorem selfConsistent_response {ev : Option StreamEvent} {op : ℕ} {payload : Bytes}
    (heq : forwardFrame ev = response 0 op payload)
    (hfits : FRAME_OVERHEAD + payload.length < 2 ^ 32)
    (hnext : ∀ rest, nextPush (response 0 op payload ++ rest) = .ok (pushedFrame ev, rest))
    (hcasts : ∀ n ∈ castLengths ev, n < 2 ^ 32) : SelfConsistent ev := by
  obtain ⟨htake, hdrop⟩ := response_parts 0 op payload
  have hread : readLe (putU32 (FRAME_OVERHEAD + payload.length)) = FRAME_OVERHEAD +
      payload.length :=
    readLe_putLe hfits
  refine ⟨?_, ?_, fun rest => ?_, hcasts⟩
  · rw [heq, htake, hread, hdrop]
  · rw [heq, htake, hread]
    omega
  · rw [heq]
    exact hnext rest

/-- Pings and the notice of a cut. -/
theorem selfConsistent_empty : SelfConsistent none ∧ SelfConsistent (some .lagged) := by
  have hcasts : ∀ n ∈ [FRAME_OVERHEAD], n < 2 ^ 32 := by decide
  refine ⟨selfConsistent_response rfl (by decide) (fun rest => ?_) hcasts,
    selfConsistent_response rfl (by decide) (fun rest => ?_) hcasts⟩
  · unfold nextPush
    rw [readFrame_response (by decide) (by decide) (by decide)]
    rfl
  · unfold nextPush
    rw [readFrame_response (by decide) (by decide) (by decide)]
    rfl

/-- **A batch's frame** is consistent just when it is shorter than 4 GiB. -/
theorem selfConsistent_iff {es : List StreamEntry} (htyped : ∀ e ∈ es, e.Typed) :
    SelfConsistent (some (.batch es)) ↔ FitsFrame es := by
  have hlen := length_encodeStreamBatch es
  constructor
  · intro h
    -- four bytes cannot spell a length of 4 GiB
    obtain ⟨htake, hdrop⟩ := response_parts 0 PUSH_STREAM (encodeStreamBatch es)
    have hlt := readLe_lt ((forwardFrame (some (.batch es))).take 4)
    rw [h.length] at hlt
    change ((response 0 PUSH_STREAM (encodeStreamBatch es)).drop 4).length <
      256 ^ ((response 0 PUSH_STREAM (encodeStreamBatch es)).take 4).length at hlt
    rw [hdrop, htake, putU32, length_putLe, hlen] at hlt
    unfold FitsFrame
    omega
  · intro hfits
    unfold FitsFrame at hfits
    have hframe : FRAME_OVERHEAD + (encodeStreamBatch es).length < 2 ^ 32 := by
      rw [hlen]
      omega
    have hdecode := decodeStreamBatch_encode htyped (by omega)
    refine selfConsistent_response rfl hframe (fun rest => ?_) fun n hn => ?_
    · unfold nextPush
      rw [readFrame_response (by decide) (by decide) hframe, Except.bind]
      simp only [ne_eq, not_true_eq_false, if_false, if_true, hdecode, Except.map]
      rfl
    · have hcount := length_le_sum_frameBytes es
      rcases List.mem_cons.mp hn with rfl | hn
      · exact hframe
      · rcases List.mem_cons.mp hn with rfl | hn
        · omega
        · -- a key or a value is no longer than its entry
          obtain ⟨e, he, hn⟩ := List.mem_flatMap.mp hn
          have hmem : e.frameBytes ∈ es.map StreamEntry.frameBytes := List.mem_map_of_mem he
          have hle := List.le_sum_of_mem hmem
          have hbytes : n ≤ e.frameBytes := by
            unfold StreamEntry.frameBytes
            rcases List.mem_cons.mp hn with rfl | hn
            · omega
            · cases hkind : e.kind with
              | put =>
                rw [hkind] at hn
                obtain rfl := List.mem_singleton.mp hn
                simp only
                omega
              | delete =>
                rw [hkind] at hn
                exact absurd hn List.not_mem_nil
          omega

/-! ### Every delivered batch -/

/-- The published form of a commit's ops is well typed. -/
theorem typed_stream {db : Db} {log : List CommitRec} {floor : ℕ} (h : Consistent db log floor)
    {c : CommitRec} (hc : c ∈ log) {e : StreamEntry} (he : e ∈ c.stream) : e.Typed := by
  have hvis := h.wf.visible_lt
  have hmax : MAX_SEQNO < 2 ^ 64 := by decide
  obtain ⟨p, hp, rfl⟩ := List.mem_map.mp he
  obtain ⟨x, hx, hseq, -⟩ := exists_version_of_numbered h.encodes (List.mem_flatMap.mpr ⟨c, hc, hp⟩)
  have hle := h.history_le hx
  obtain ⟨-, hend, -⟩ := h.contiguous.mem (List.mem_map_of_mem hc)
  have hlen : c.entries.length = c.fullOps.length := (h.encodes c hc).length_eq
  refine ⟨?_, ?_, ?_⟩
  · cases hop : p.1 with
    | put k v => simp [BatchOp.value?, BatchOp.kind]
    | delete k => simp [BatchOp.value?, BatchOp.kind]
  · show p.2 < 2 ^ 64
    omega
  · show c.base + c.fullOps.length - 1 < 2 ^ 64
    omega

/-- **Push frames.**  Of every subscription in every reachable state: the frame
of a batch it has delivered is consistent just when it is shorter than 4 GiB;
pings and the notice of a cut always are. -/
theorem frames_consistent (h : (service opts).Reachable s) (hsub : sub ∈ s.subs) :
    (∀ es, .batch es ∈ sub.events → (SelfConsistent (some (.batch es)) ↔ FitsFrame es)) ∧
    SelfConsistent (some .lagged) ∧ SelfConsistent none := by
  refine ⟨fun es hes => selfConsistent_iff fun e he => ?_, selfConsistent_empty.2,
    selfConsistent_empty.1⟩
  have hst : s.Streams := h.invariant (streams_init opts) fun hi _ hs => streams_step hi hs
  obtain ⟨segs, t, rest, n, hstands⟩ := hst.stands sub hsub
  rw [hstands.events] at hes
  rcases List.mem_append.mp hes with hes | hes
  · obtain ⟨seg, hseg, heq⟩ := List.mem_map.mp hes
    obtain rfl := StreamEvent.batch.inj heq
    obtain ⟨c, hc, he⟩ := List.mem_flatMap.mp he
    have hlog : c ∈ sub.commits s.engine.log := by
      rw [hstands.commits]
      exact List.mem_append_left _ (List.mem_append_left _ (List.mem_flatten.mpr ⟨seg, hseg, hc⟩))
    exact typed_stream hst.files.engine.consistent (List.mem_of_mem_filter hlog)
      (List.mem_of_mem_filter he)
  · exact absurd (List.eq_of_mem_replicate hes) (by simp)

/-- The frame of a first small batch. -/
theorem frames_consistent_of_first :
    ∃ s sub, (service (.default plainFormat)).Reachable s ∧ sub ∈ s.subs ∧
    sub.events = [.batch [⟨[byte 107], 1, 1, .put, some [byte 1]⟩]] ∧
    SelfConsistent (some (.batch [⟨[byte 107], 1, 1, .put, some [byte 1]⟩])) := by
  have hrun : ((service (.default plainFormat)).run (takeFirst ++ [.deliver 0])
      (service (.default plainFormat)).init).any (fun s => decide (∃ sub ∈ s.subs,
        sub.events = [.batch [⟨[byte 107], 1, 1, .put, some [byte 1]⟩]])) = true := by
    decide +kernel
  obtain ⟨s, hreach, sub, hsub, hevents⟩ := System.exists_reachable hrun
  have hmem : StreamEvent.batch [⟨[byte 107], 1, 1, .put, some [byte 1]⟩] ∈ sub.events :=
    hevents ▸ List.mem_singleton_self _
  have hfits : FitsFrame [⟨[byte 107], 1, 1, .put, some [byte 1]⟩] := by
    unfold FitsFrame
    decide
  exact ⟨s, sub, hreach, hsub, hevents, ((frames_consistent hreach hsub).1 _ hmem).mpr hfits⟩

/-! ### A queue of pointers -/

/-- The defaults, with a relaxed sync mode and no triggers. -/
def plainOptions : Options :=
  { Options.default plainFormat with sync := .never, wasmEnabled := false }

variable {v : Bytes} {n : ℕ}

/-- A subscription that has `n` puts in its queue, all there is in the log. -/
structure Filling (v : Bytes) (n : ℕ) (s : Service) (sub : Subscription) : Prop where
  reachable : (service plainOptions).Reachable s
  idle : s.phase = .running ∧ s.degraded = false ∧ s.publishing = [] ∧ s.lost = []
  subs : s.subs = [sub] ∧ s.subsActive = true
  fresh : sub.lo = USER_KEYSPACE_START ∧ sub.hi = none ∧ sub.maxBytes = 8 * 2 ^ 20 ∧ sub.start = 0
  quiet : sub.closed = false ∧ sub.checked = false ∧ sub.dropped = false ∧ sub.attached = true ∧
    sub.taken = [] ∧ sub.events = []
  queued : sub.entries.length = n
  bytes : sub.bytes ≤ 64 * n
  visible : s.engine.db.visibleSeqno = n
  length : s.engine.log.length = n
  log : ∀ c ∈ s.engine.log, c.ops = [.put [byte 107] v] ∧ c.events = []

/-- A put of a large value is applied. -/
theorem applyLocked_big {db : Db} (hv : v.length = 256 * 2 ^ 20) (h : db.visibleSeqno < 1000) :
    ∃ es : List EncEntry, (∃ p : ValuePtr, es = [⟨.put, [byte 107], .ptr p⟩]) ∧
      db.vlog.placeOps plainOptions.valueThreshold [.put [byte 107] v] =
        ((db.vlog.append [byte 107] v).2, es) ∧
      db.applyLocked plainOptions [.put [byte 107] v] true =
        ((({ db with vlog := (db.vlog.append [byte 107] v).2 } : Db).addBatch (db.visibleSeqno + 1)
          es).rotateAfterWrite plainOptions, .ok ()) := by
  have hmax : MAX_SEQNO = 2 ^ 56 - 1 := rfl
  have hlimit : WAL_RECORD_LIMIT = 2 ^ 30 := rfl
  have hthreshold : plainOptions.valueThreshold ≤ v.length := by
    rw [hv]
    decide
  have hevents : db.captureEvents plainOptions [.put [byte 107] v]
      (db.visibleSeqno + 1) true = [] := rfl
  have hplaced : db.vlog.placeOps plainOptions.valueThreshold [.put [byte 107] v] =
      ((db.vlog.append [byte 107] v).2,
        [⟨.put, [byte 107], .ptr (db.vlog.append [byte 107] v).1⟩]) := by
    simp only [Vlog.placeOps, Vlog.placeOp, if_pos hthreshold]
  -- nothing refuses the put: only its pointer is in the record
  have happrox : ¬ WAL_RECORD_LIMIT ≤ approxSize [.put [byte 107] v] := by
    have hsize : approxSize [.put [byte 107] v] = 1 + v.length + 32 + 0 := rfl
    omega
  have hrecord : ¬ WAL_RECORD_LIMIT ≤
      (encodeBatch (db.visibleSeqno + 1)
        (db.vlog.placeOps plainOptions.valueThreshold [.put [byte 107] v]).2).length := by
    have hle := (length_encodeBatch plainOptions.valueThreshold (db.visibleSeqno + 1) db.vlog
      [.put [byte 107] v]).2
    have hpay : payloadLen MAX_PTR plainOptions.valueThreshold [.put [byte 107] v] = 42 := by
      unfold payloadLen
      rw [List.map_singleton, entryLen, if_pos hthreshold]
      rfl
    omega
  refine ⟨_, ⟨_, rfl⟩, hplaced, ?_⟩
  unfold Db.applyLocked
  simp only [hevents, List.append_nil]
  rw [if_neg (by rw [List.length_singleton]; omega), if_neg happrox, if_neg hrecord, hplaced]
  rfl

theorem rotateAfterWrite_same (db : Db) :
    (db.rotateAfterWrite opts).visibleSeqno = db.visibleSeqno ∧
      (db.rotateAfterWrite opts).published = db.published := by
  unfold Db.rotateAfterWrite
  obtain ⟨d, hd, hsame⟩ : ∃ d,
      (if opts.memtableSize ≤ db.mem.approximateBytes then db.rotateMemtableLocked
      else db) = d ∧ d.visibleSeqno = db.visibleSeqno ∧ d.published = db.published := by
    refine ⟨_, rfl, ?_⟩
    split
    · exact ⟨rfl, rfl⟩
    · exact ⟨rfl, rfl⟩
  rw [hd]
  simp only
  split
  · exact hsame
  · exact hsame

/-- One more put is committed. -/
theorem commit_big (hv : v.length = 256 * 2 ^ 20) {e : Engine} (h : e.db.visibleSeqno < 1000) :
    ∃ e' es, e.step plainOptions (.commit (.batch [.put [byte 107] v])) = some e' ∧
      (∃ p : ValuePtr, es = [⟨.put, [byte 107], .ptr p⟩]) ∧
      e'.db.visibleSeqno = e.db.visibleSeqno + 1 ∧
      e'.db.published = e.db.published ++ [(e.db.visibleSeqno + 1, es)] ∧
      ∃ c : CommitRec, e'.log = e.log ++ [c] ∧ c.ops = [.put [byte 107] v] ∧ c.events = [] := by
  obtain ⟨es, hes, -, happly⟩ := applyLocked_big hv h
  have hallowed : (Submission.batch [.put [byte 107] v]).Allowed plainOptions e := by
    refine ⟨by simp, fun op hop => ?_⟩
    rw [List.mem_singleton.mp hop]
    have hkey : ValidUserKey [byte 107] ∧ [byte 107].length ≤ plainOptions.maxKeySize := by decide
    exact ⟨hkey.1, hkey.2, le_of_eq hv⟩
  have hcommit : e.commit plainOptions ⟨[.put [byte 107] v], none, true⟩ =
      e.committed ((({ e.db with vlog := (e.db.vlog.append [byte 107] v).2 } : Db).addBatch
        (e.db.visibleSeqno + 1) es).rotateAfterWrite plainOptions)
          [recOf plainOptions e.db ⟨[.put [byte 107] v], none, true⟩] := by
    have hdirect : e.db.commitDirect plainOptions ⟨[.put [byte 107] v], none, true⟩ =
        e.db.applyLocked plainOptions [.put [byte 107] v] true := rfl
    unfold Engine.commit
    simp only [hdirect, happly]
    rfl
  obtain ⟨hvisible, hpublished⟩ := rotateAfterWrite_same
    (({ e.db with vlog := (e.db.vlog.append [byte 107] v).2 } : Db).addBatch
      (e.db.visibleSeqno + 1) es)
  refine ⟨_, es, if_pos ⟨by decide, hallowed⟩, hes, ?_, ?_,
    recOf plainOptions e.db ⟨[.put [byte 107] v], none, true⟩, ?_, rfl, rfl⟩
  · show (e.commit plainOptions ⟨[.put [byte 107] v], none, true⟩).db.visibleSeqno = _
    rw [hcommit]
    refine hvisible.trans ?_
    obtain ⟨p, rfl⟩ := hes
    rfl
  · show (e.commit plainOptions ⟨[.put [byte 107] v], none, true⟩).db.published = _
    rw [hcommit]
    exact hpublished
  · show (e.commit plainOptions ⟨[.put [byte 107] v], none, true⟩).log = _
    rw [hcommit]
    rfl

/-- One more put is queued. -/
theorem Filling.round (hv : v.length = 256 * 2 ^ 20) (h : Filling v n s sub) (hn : n < 100) :
    ∃ s' sub', Filling v (n + 1) s' sub' := by
  obtain ⟨hphase, hdegraded, hpublishing, hlost⟩ := h.idle
  obtain ⟨hsubs, hactive⟩ := h.subs
  obtain ⟨hlo, hhi, hmaxBytes, hstart⟩ := h.fresh
  obtain ⟨hclosed, hchecked, hdropped, hattached, htaken, hevents⟩ := h.quiet
  obtain ⟨e', es, he, ⟨p, rfl⟩, hvisible, hpublished, c, hlog, hops, hnone⟩ :=
    commit_big hv (e := s.engine) (by rw [h.visible]; omega)
  have hcommit : (service plainOptions).step s
      (.engine (.commit (.batch [.put [byte 107] v])) false) = some (s.moved e' false) := by
    show (if _ then (s.engine.step plainOptions _).map _ else none) = _
    rw [if_pos ⟨hphase, rfl, fun _ => hpublishing, fun seq hseq =>
      absurd hseq (by simp [Action.consumes])⟩, he]
    rfl
  have hqueue : (s.moved e' false).publishing = [(n + 1, [⟨.put, [byte 107], .ptr p⟩])] := by
    show s.publishing ++ e'.db.published.drop s.engine.db.published.length = _
    rw [hpublishing, hpublished, List.drop_left, List.nil_append, h.visible]
  -- the published op is in range, and its pointer is short
  have hhits : sub.hits (n + 1) [⟨.put, [byte 107], .ptr p⟩] =
      [⟨[byte 107], n + 1, n + 1, .put, .ptr p⟩] := by
    have hrange : sub.inRange [byte 107] = true := by
      unfold Subscription.inRange
      rw [hlo, hhi]
      decide
    show (rawEntries (n + 1) [⟨.put, [byte 107], .ptr p⟩]).filter _ = _
    exact List.filter_cons_of_pos hrange
  have hptr := (length_putLenPrefixed_encodePtr p).2
  rw [putLenPrefixed, List.length_append, MAX_PTR] at hptr
  have hbytes : ((sub.hits (n + 1) [⟨.put, [byte 107], .ptr p⟩]).map RawEntry.bytes).sum ≤ 64 := by
    rw [hhits]
    show 1 + (encodePtr p).length + 32 + 0 ≤ 64
    omega
  have hle := h.bytes
  have hoffer : sub.publish (n + 1) [⟨.put, [byte 107], .ptr p⟩] =
      { sub with
        entries := sub.entries ++ sub.hits (n + 1) [⟨.put, [byte 107], .ptr p⟩]
        bytes := sub.bytes +
          ((sub.hits (n + 1) [⟨.put, [byte 107], .ptr p⟩]).map RawEntry.bytes).sum } := by
    unfold Subscription.publish
    rw [if_pos hattached, if_neg (by simp [hdropped])]
    unfold Subscription.offer
    simp only
    rw [if_neg (by rw [hmaxBytes]; omega)]
  have hpublish : (service plainOptions).step (s.moved e' false) .publish =
      some { s.moved e' false with
        subs := [sub.publish (n + 1) [⟨.put, [byte 107], .ptr p⟩]]
        subsActive := true
        publishing := [] } := by
    show Service.step plainOptions (s.moved e' false) .publish = _
    unfold Service.step
    rw [hqueue]
    have hall : publishStream (s.moved e' false).subs (s.moved e' false).subsActive (n + 1)
        [⟨.put, [byte 107], .ptr p⟩] =
          ([sub.publish (n + 1) [⟨.put, [byte 107], .ptr p⟩]], true) := by
      unfold publishStream
      rw [show (s.moved e' false).subs = [sub] from hsubs,
        show (s.moved e' false).subsActive = true from hactive, if_pos rfl]
      simp only [List.map_singleton]
      rw [hoffer]
      simp [hattached]
    simp only [hall]
  refine ⟨{ s.moved e' false with
      subs := [sub.publish (n + 1) [⟨.put, [byte 107], .ptr p⟩]]
      subsActive := true
      publishing := [] }, _, ?_, ⟨hphase, ?_, rfl, ?_⟩, ⟨rfl, rfl⟩, ?_, ?_, ?_, ?_, ?_, ?_, ?_⟩
  · exact (h.reachable.step trivial hcommit).step trivial hpublish
  · show (s.degraded || (_ && false)) = false
    rw [hdegraded, Bool.and_false]
    rfl
  · show (if _ && false then _ else s.lost) = []
    rw [Bool.and_false, hlost]
    rfl
  · rw [hoffer]
    exact ⟨hlo, hhi, hmaxBytes, hstart⟩
  · rw [hoffer]
    exact ⟨hclosed, hchecked, hdropped, hattached, htaken, hevents⟩
  · rw [hoffer, hhits]
    show (sub.entries ++ [_]).length = n + 1
    rw [List.length_append, h.queued]
    rfl
  · rw [hoffer]
    show sub.bytes + _ ≤ _
    omega
  · show e'.db.visibleSeqno = n + 1
    rw [hvisible, h.visible]
  · show e'.log.length = n + 1
    rw [hlog, List.length_append, h.length]
    rfl
  · show ∀ c ∈ e'.log, _
    rw [hlog]
    intro d hd
    rcases List.mem_append.mp hd with hd | hd
    · exact h.log d hd
    · obtain rfl := List.mem_singleton.mp hd
      exact ⟨hops, hnone⟩

theorem filling_zero (v : Bytes) : ∃ s sub, Filling v 0 s sub := by
  have hrun : ((service plainOptions).run [.subscribe [] none (8 * 2 ^ 20)]
      (service plainOptions).init).any
      (fun s => decide (s.subs = [Subscription.new USER_KEYSPACE_START none (8 * 2 ^ 20) 0] ∧
        s.subsActive = true ∧ s.phase = .running ∧ s.degraded = false ∧ s.publishing = [] ∧
        s.lost = [] ∧
        s.engine.db.visibleSeqno = 0 ∧ s.engine.log.length = 0)) = true := by decide +kernel
  obtain ⟨s, hreach, hsubs, hactive, hphase, hdegraded, hpub, hlost, hvisible, hlog⟩ :=
    System.exists_reachable hrun
  refine ⟨s, Subscription.new USER_KEYSPACE_START none (8 * 2 ^ 20) 0, hreach,
    ⟨hphase, hdegraded, hpub, hlost⟩,
    ⟨hsubs, hactive⟩, ⟨rfl, rfl, rfl, rfl⟩, ⟨rfl, rfl, rfl, rfl, rfl, rfl⟩, rfl, Nat.zero_le _,
      hvisible, hlog,
    fun c hc => ?_⟩
  rw [List.eq_nil_of_length_eq_zero hlog] at hc
  exact absurd hc List.not_mem_nil

theorem exists_filling (hv : v.length = 256 * 2 ^ 20) (hn : n ≤ 100) :
    ∃ s sub, Filling v n s sub := by
  induction n with
  | zero => exact filling_zero v
  | succ n ih =>
    obtain ⟨s, sub, h⟩ := ih (by omega)
    exact h.round hv (by omega)

/-- A subscription with nothing queued that has returned one batch has delivered
all there is. -/
theorem Subscription.Stands.only {db : Db} {log : List CommitRec} {floor : ℕ}
    (h : Consistent db log floor)
    {segs : List (List CommitRec)} {t rest : List CommitRec} {out : List StreamEntry}
    (hs : sub.Stands log [] segs t rest n) (hdropped : sub.dropped = false)
    (htaken : sub.taken = [])
    (hentries : sub.entries = []) (hevents : sub.events = [.batch out]) :
    out = (sub.commits log).flatMap sub.streamOf := by
  -- commits without a hit show nothing
  have hempty : ∀ q : List CommitRec, (∀ c ∈ q, c ∈ log) → q.flatMap sub.hitsOf = [] →
      q.flatMap sub.streamOf = [] := by
    intro q hq hhits
    have hmap := congrArg (List.map (RawEntry.streamed db)) hhits
    rw [List.map_flatMap, List.flatMap_congr fun c hc => map_hitsOf h (hq c hc)] at hmap
    exact hmap
  have hlog : ∀ c ∈ t ++ rest, c ∈ log := fun c hc => hs.mem_log hc
  obtain ⟨-, q, tail, rfl, hq, htail⟩ := hs.live hdropped
  obtain rfl : tail = [] := List.map_eq_nil_iff.mp htail
  have ht : t.flatMap sub.streamOf = [] :=
    hempty t (fun c hc => hlog c (List.mem_append_left _ hc)) (hs.taken.symm.trans htaken)
  have hrest : q.flatMap sub.streamOf = [] :=
    hempty q (fun c hc => hlog c (by simp [hc])) (hq.symm.trans hentries)
  have hlist : segs.map (fun seg => StreamEvent.batch (seg.flatMap sub.streamOf)) ++
      List.replicate n StreamEvent.lagged = [.batch out] := hs.events.symm.trans hevents
  -- it was never cut, so no `Lagged` was handed out
  have hn : n = 0 := by
    by_contra hne
    exact absurd (hdropped.symm.trans (hs.lagged hne).1) Bool.false_ne_true
  rw [hn, List.replicate_zero, List.append_nil] at hlist
  obtain ⟨seg, rfl, hseg⟩ := List.map_eq_singleton_iff.mp hlist
  rw [hs.commits, List.flatMap_append, List.flatMap_append, ht, List.append_nil,
    List.append_nil, hrest, List.append_nil, List.flatten_singleton]
  exact (StreamEvent.batch.inj hseg).symm

/-- Everything that is queued is delivered in one batch. -/
theorem Filling.delivered (h : Filling v (n + 1) s sub) : ∃ s' sub' out,
    (service plainOptions).Reachable s' ∧ sub' ∈ s'.subs ∧ sub'.events = [.batch out] ∧
      out = (sub'.commits s.engine.log).flatMap sub'.streamOf ∧
      sub'.lo = sub.lo ∧ sub'.hi = sub.hi ∧ sub'.start = sub.start := by
  obtain ⟨-, hdegraded, hpublishing, hlost⟩ := h.idle
  obtain ⟨hclosed, hchecked, hdropped, hattached, htaken, hevents⟩ := h.quiet
  have hcheck : (service plainOptions).step s (.check 0) =
      some (s.setSub 0 { sub with checked := true }) := by
    have hsub : sub.check s.degraded = { sub with checked := true } := by
      unfold Subscription.check
      rw [if_neg (by simp [hdropped]), if_neg (by simp [hdegraded])]
    show (s.subs[0]?).bind _ = _
    rw [h.subs.1]
    show Service.guarded _ (s.setSub 0 (sub.check s.degraded)) = _
    rw [hsub]
    exact if_pos ⟨hclosed, hchecked, htaken⟩
  have hset : ∀ sub', (s.setSub 0 sub').subs = [sub'] := fun sub' => by
    show s.subs.set 0 sub' = _
    rw [h.subs.1]
    rfl
  obtain ⟨s₂, hs₂, hsubs₂, hpub₂, hlost₂, hengine₂⟩ : ∃ s₂,
      (service plainOptions).step (s.setSub 0 { sub with checked := true }) (.drain 0) = some s₂ ∧
        s₂.subs = [({ sub with checked := true } : Subscription).drain] ∧ s₂.publishing = [] ∧
        s₂.lost = [] ∧
        s₂.engine = s.engine := by
    refine ⟨(s.setSub 0 { sub with checked := true }).setSub 0
      ({ sub with checked := true } : Subscription).drain, ?_, ?_, hpublishing, hlost, rfl⟩
    · show ((s.setSub 0 { sub with checked := true }).subs[0]?).bind _ = _
      rw [hset]
      exact if_pos ⟨hclosed, rfl⟩
    · show (s.setSub 0 { sub with checked := true }).subs.set 0 _ = _
      rw [hset]
      rfl
  have hreach₂ : (service plainOptions).Reachable s₂ :=
    (h.reachable.step trivial hcheck).step trivial hs₂
  have hst₂ : s₂.Streams := hreach₂.invariant (streams_init _) fun hi _ hs => streams_step hi hs
  have hmem₂ : s₂.subs[0]? = some ({ sub with checked := true } : Subscription).drain := by
    rw [hsubs₂]
    rfl
  have hentries : sub.entries ≠ [] := by
    intro hnil
    have hlen := h.queued
    rw [hnil] at hlen
    exact absurd hlen (by simp)
  obtain ⟨s₃, out, hs₃, hmem₃⟩ := deliver_enabled hst₂ hmem₂ hclosed hentries
    fun r _ p _ => by
      rw [hlost₂]
      exact List.not_mem_nil
  have hreach₃ := hreach₂.step trivial hs₃
  have hst₃ : s₃.Streams := hreach₃.invariant (streams_init _) fun hi _ hs => streams_step hi hs
  -- delivery moves the pin and nothing else of the engine
  have hsame : s₃.engine.log = s.engine.log ∧ s₃.publishing = [] := by
    cases Service.takes (show s₂.step plainOptions (.deliver 0) = some s₃ from hs₃) with
    | deliver hi hopen htaken hout he =>
      obtain ⟨-, rfl⟩ := Engine.guarded_eq_some he
      exact ⟨show s₂.engine.log = _ from congrArg Engine.log hengine₂, hpub₂⟩
    | kill hi hopen htaken hout =>
      exact ⟨show s₂.engine.log = _ from congrArg Engine.log hengine₂, hpub₂⟩
  have hmem := List.mem_of_getElem? hmem₃
  obtain ⟨segs, t, rest, m, hstands⟩ := hst₃.stands _ hmem
  rw [hsame.2] at hstands
  have hbatch : (({ sub with checked := true } : Subscription).drain.deliver out).events =
    [.batch out] := by
    show sub.events ++ [.batch out] = _
    rw [hevents]
    rfl
  refine ⟨s₃, _, out, hreach₃, hmem, hbatch, ?_, rfl, rfl, rfl⟩
  rw [← hsame.1]
  exact hstands.only hst₃.files.engine.consistent hdropped rfl rfl hbatch

/-- The puts of the log, as they are streamed. -/
theorem sum_frameBytes_big {log : List CommitRec} (hlo : sub.lo = USER_KEYSPACE_START)
    (hhi : sub.hi = none) (hlog : ∀ c ∈ log, c.ops = [.put [byte 107] v] ∧ c.events = []) :
    ((log.flatMap sub.streamOf).map StreamEntry.frameBytes).sum = log.length * (26 + v.length) := by
  induction log with
  | nil =>
    rw [List.length_nil, Nat.zero_mul]
    rfl
  | cons c log ih =>
    obtain ⟨hops, hevents⟩ := hlog c List.mem_cons_self
    have hone : sub.streamOf c = [⟨[byte 107], c.base, c.base + 1 - 1, .put, some v⟩] := by
      have hrange : sub.inRange [byte 107] = true := by
        unfold Subscription.inRange
        rw [hlo, hhi]
        decide
      unfold Subscription.streamOf CommitRec.stream CommitRec.numbered CommitRec.fullOps
      rw [hops, hevents]
      exact List.filter_cons_of_pos hrange
    have hbytes : StreamEntry.frameBytes ⟨[byte 107], c.base, c.base + 1 - 1, .put, some v⟩ = 26 +
        v.length := by
      show 21 + 1 + (4 + v.length) = _
      omega
    rw [List.flatMap_cons, hone, List.map_append, List.sum_append, List.map_singleton,
      List.sum_singleton,
      hbytes, ih fun d hd => hlog d (List.mem_cons_of_mem _ hd), List.length_cons, Nat.succ_mul,
        Nat.add_comm]

/-- **A frame of more than 4 GiB**: seventeen values of 256 MiB are seventeen
short pointers in the queue. -/
theorem frame_cut : ¬ ∀ (opts : Options) (s : Service) (sub : Subscription) (es : List StreamEntry),
    (service opts).Reachable s → sub ∈ s.subs → .batch es ∈ sub.events →
    SelfConsistent (some (.batch es)) := by
  intro hall
  obtain ⟨v, hv⟩ : ∃ v : Bytes, v.length = 256 * 2 ^ 20 := ⟨_, List.length_replicate (a := byte 0)⟩
  obtain ⟨s, sub, h⟩ := exists_filling hv (n := 17) (by decide)
  obtain ⟨hlo, hhi, -, hstart⟩ := h.fresh
  obtain ⟨s', sub', out, hreach, hmem, hevents, hout, hlo', hhi', hstart'⟩ := h.delivered
  have hst : s.Streams := h.reachable.invariant (streams_init _) fun hi _ hs => streams_step hi hs
  have hcommits : sub'.commits s.engine.log = s.engine.log := by
    refine List.filter_eq_self.mpr fun c hc => decide_eq_true ?_
    rw [hstart', hstart]
    exact (hst.files.engine.consistent.contiguous.mem (List.mem_map_of_mem hc)).1
  have hmem' : StreamEvent.batch out ∈ sub'.events := hevents ▸ List.mem_singleton_self _
  have hcons := hall plainOptions s' sub' out hreach hmem hmem'
  have hst' : s'.Streams := hreach.invariant (streams_init _) fun hi _ hs => streams_step hi hs
  have htyped : ∀ e ∈ out, e.Typed := by
    intro e he
    rw [hout, hcommits] at he
    obtain ⟨c, hc, he⟩ := List.mem_flatMap.mp he
    exact typed_stream hst.files.engine.consistent hc (List.mem_of_mem_filter he)
  have hfits := (selfConsistent_iff htyped).mp hcons
  unfold FitsFrame at hfits
  rw [hout, hcommits, sum_frameBytes_big (hlo'.trans hlo) (hhi'.trans hhi) h.log, h.length,
    hv] at hfits
  exact absurd hfits (by decide)

end Fluent31
