/-
What a GraphQL subscriber sees.

* `Pump.inv_go`, `Pump.inv_step` — every step of the pump, of its consumer and of
  everyone else keeps the invariant: a snapshot the pump asks for lies at or above
  its hold, and is granted;
* `pump_exact` — items are pinned at their commit's boundary and read the state
  after it, come in order, and miss no op without a notice.
-/
import Fluent31.PumpSpec

namespace Fluent31

open Mvcc

variable {opts : Options} {args : PumpArgs} {s s' : Service} {p p' : Pump}
    {sub sub' : Subscription} {i : ℕ}

namespace Pump

/-! ### References that go -/

/-- References go, and nothing is added. -/
theorem Pinned.fewer (h : p.Pinned) (hservice : p'.service = p.service)
    (hsnaps : p'.snaps = p.snaps) (hrunning : p'.stage ≠ .start → p.service.phase = .running)
    (hrefs : ∀ id ∈ p'.references, id ∈ p.references) (hitems : p'.items <+: p.items)
    (hcommit : ∀ c ∈ p'.commit, c ∈ p.commit) : p'.Pinned :=
  h.relabel hservice hsnaps hrunning (fun id hid => h.refs id (hrefs id hid))
    (fun m hm => h.items m (hitems.subset hm)) fun c hc => h.commit c (hcommit c hc)

namespace Inv

/-- The consumer takes, copies or drops references. -/
theorem quiet (h : p.Inv args) (hservice : p'.service = p.service) (hsnaps : p'.snaps = p.snaps)
    (hstage : p'.stage = p.stage) (hsent : p'.sent = p.sent) (hhold : p'.hold = p.hold)
    (hcommit : p'.commit = p.commit) (hsub : p'.sub = p.sub) (hreceiver : p'.receiver → p.receiver)
    (hrefs : ∀ id ∈ p'.channelRefs ++ p'.refs, id ∈ p.channelRefs ++ p.refs) : p'.Inv args := by
  have hitems : p'.items = p.items := by
    unfold items
    rw [hsent, hstage]
  refine ⟨h.pinned.fewer hservice hsnaps (fun hne => h.pinned.running (hstage ▸ hne))
    (fun id hid => ?_)
    (hitems ▸ List.prefix_rfl) fun c hc => hcommit ▸ hc, ⟨?_, ?_⟩, fun hnone => ?_, fun i hi => ?_⟩
  · rw [mem_references] at hid ⊢
    rw [hhold, hcommit, hstage] at hid
    rcases hid with hid | hid | hid | hid
    · exact Or.inl hid
    · exact Or.inr (Or.inl hid)
    · exact Or.inr (Or.inr (Or.inl hid))
    · exact Or.inr (Or.inr (Or.inr (List.mem_append.mp (hrefs id (List.mem_append.mpr hid)))))
  · obtain ⟨oks, errs, hsplit, hone, hnone, htold⟩ := h.sends.split
    exact ⟨oks, errs, hsent.trans hsplit, hone, fun hend => hnone (hstage ▸ hend),
      fun hend hrecv => htold (hstage ▸ hend) (hreceiver hrecv)⟩
  · rw [hsent, hstage]
    exact h.sends.granted
  · rw [hitems, hstage]
    exact h.idle (hsub ▸ hnone)
  · obtain ⟨sub, hi', ht⟩ := h.tracks i (hsub ▸ hi)
    refine ⟨sub, hservice ▸ hi', ht.follow (.refl sub) (hservice ▸ le_rfl)
      (fun b hb => hservice ▸ hb) (fun id seq hat => ?_) hstage hsent hhold⟩
    unfold At at hat ⊢
    rwa [hsnaps]

/-- The loop is left: for good, or to report an error. -/
theorem stop (h : p.Inv args) (hphase : p.service.phase = .running)
    (hservice : p'.service = p.service)
    (hsnaps : p'.snaps = p.snaps) (hsub : p'.sub = p.sub) (hattach : p'.stage ≠ .attach)
    (hstart : p'.stage ≠ .start)
    (hgoing : p'.stage.going = false) (hdone : p'.stage ≠ .done → p.stage ≠ .done)
    (hrefs : ∀ id ∈ p'.references, id ∈ p.references) (hitems : p'.items <+: p.items)
    (hcommit : ∀ c ∈ p'.commit, c ∈ p.commit) (hsends : p'.Sends) : p'.Inv args := by
  refine ⟨h.pinned.fewer hservice hsnaps (fun _ => hphase) hrefs hitems hcommit, hsends,
    fun hnone => ?_, fun i hi => ?_⟩
  · rw [hsub] at hnone
    have hnil := (h.idle hnone).1
    rw [hnil] at hitems
    exact ⟨List.prefix_nil.mp hitems, hgoing, hattach⟩
  · obtain ⟨sub, hi', ht⟩ := h.tracks i (hsub ▸ hi)
    exact ⟨sub, hservice ▸ hi', ht.stop (.refl sub) hstart hattach hgoing hdone hitems⟩

end Inv

/-- Where no item waits for room, the items are those sent. -/
theorem prefix_items (hsent : p'.sent = p.sent) (hstage : p'.stage.item? = none) :
    p'.items <+: p.items := by
  unfold items
  rw [hsent, hstage]
  exact ⟨p.stage.item?.toList, by rw [Option.toList_none, List.append_nil]⟩

theorem Inv.ne_done (hstage : p.stage.ended = false) : p.stage ≠ .done := by
  intro hdone
  rw [hdone] at hstage
  exact absurd hstage (by simp [PumpStage.ended])

/-- An error ends the loop. -/
theorem Inv.fail (h : p.Inv args) (hphase : p.service.phase = .running)
    (hstage : p.stage.ended = false)
    {err : PumpError} (herr : err.ofSnapshot = false) : (p.fail err).Inv args := by
  refine h.stop hphase rfl rfl rfl (by simp [Pump.fail]) (by simp [Pump.fail]) rfl
    (fun _ => ne_done hstage) (fun id hid => ?_) (prefix_items rfl rfl) (fun c hc => hc)
    (h.sends.relabel rfl hstage rfl fun err' heq => PumpStage.failing.inj heq ▸ herr)
  rw [mem_references] at hid ⊢
  rcases hid with hid | hid | ⟨m, hm, -⟩ | hid
  · exact Or.inl hid
  · exact Or.inr (Or.inl hid)
  · exact absurd hm (by simp [Pump.fail, PumpStage.item?])
  · exact Or.inr (Or.inr (Or.inr hid))

/-- The call returns, with its notice sent or its consumer gone. -/
theorem Inv.leave (h : p.Inv args) (hphase : p.service.phase = .running)
    (hstage : p.stage.ended = false) (hgone : p.receiver = false) : p.leave.Inv args := by
  obtain ⟨oks, errs, hsplit, hone, hnone, -⟩ := h.sends.split
  refine h.stop hphase rfl rfl rfl (by simp [Pump.leave]) (by simp [Pump.leave]) rfl
    (fun _ => ne_done hstage)
    (fun id hid => ?_) (prefix_items rfl rfl) (fun c hc => absurd hc (Option.not_mem_none c))
    ⟨⟨oks, errs, hsplit, hone,
      fun hend => absurd hend (by simp [Pump.leave, PumpStage.ended]), fun _ hrecv => ?_⟩, ?_⟩
  · rw [mem_references] at hid ⊢
    rcases hid with hid | ⟨c, hc, -⟩ | ⟨m, hm, -⟩ | hid
    · exact absurd hid (by simp [Pump.leave])
    · exact absurd hc (by simp [Pump.leave])
    · exact absurd hm (by simp [Pump.leave, PumpStage.item?])
    · exact Or.inr (Or.inr (Or.inr hid))
  · exact absurd (hgone.symm.trans hrecv) Bool.false_ne_true
  · rintro err (herr | herr)
    · exact h.sends.granted err (Or.inl herr)
    · exact absurd herr (by simp [Pump.leave])

/-! ### Messages -/

/-- The pump with one more message in the channel. -/
def posted (p : Pump) (m : Except PumpError SubItem) (next : PumpStage) : Pump :=
  { p with stage := next, channel := p.channel ++ [m], sent := p.sent ++ [m] }

theorem push_cases {m : Except PumpError SubItem} {next : PumpStage} (h : p.push m next = some p') :
    p.receiver = true ∧ p' = p.posted m next ∨ p.receiver = false ∧ p' = p.leave := by
  unfold push at h
  by_cases hrecv : p.receiver = true
  · rw [if_pos hrecv] at h
    split_ifs at h with hroom
    exact Or.inl ⟨hrecv, (Option.some_inj.mp h).symm⟩
  · rw [if_neg hrecv] at h
    exact Or.inr ⟨Bool.eq_false_iff.mpr hrecv, (Option.some_inj.mp h).symm⟩

/-- The loop runs: the call has not ended, and no error waits. -/
theorem going_stage {stage : PumpStage} (h : stage.going) :
    stage.ended = false ∧ stage ≠ .start ∧ stage ≠ .attach ∧
    stage ≠ .done ∧ ∀ err, stage ≠ .failing err := by
  cases stage with
  | greeting | receiving | batch | sending => simp [PumpStage.ended]
  | _ => exact absurd h Bool.false_ne_true

theorem Sends.nothing_told (h : p.Sends) (hstage : p.stage.ended = false) :
    ∃ oks : List SubItem, p.sent = oks.map .ok := by
  obtain ⟨oks, errs, hsplit, -, hnone, -⟩ := h.split
  rw [hnone hstage] at hsplit
  exact ⟨oks, hsplit.trans (List.append_nil _)⟩

/-- The loop goes on from the same place of the stream, with the same items. -/
theorem Tracks.keep (ht : p.Tracks args sub) (hgoing : p.stage.going) (hnext : p'.stage.going)
    (hservice : p'.service = p.service) (hhold : p'.hold = p.hold) (hsnaps : p'.snaps = p.snaps)
    (hitems : p'.items = p.items) (htodo : p'.stage.todo = p.stage.todo)
    (htail : p'.stage.tail? = p.stage.tail?) :
    p'.Tracks args sub := by
  obtain ⟨-, hstart, hattach, hdone, -⟩ := going_stage hnext
  refine ⟨ht.range, hstart, fun _ => ht.isOpen (going_stage hgoing).2.2.2.1, fun heq =>
    absurd heq hattach, ?_, fun _ => ?_, fun _ => ?_⟩
  · rw [hitems]
    exact ht.shown
  · rw [hitems, htodo]
    exact ht.exact hgoing
  · rw [hhold, htodo, htail, hservice]
    unfold At
    rw [hsnaps]
    exact ht.bound hgoing

/-- The item that waited for room is in the channel. -/
theorem Inv.pushed (h : p.Inv args) (hphase : p.service.phase = .running) {item : SubItem}
    {next : PumpStage}
    (hitem : p.stage.item? = some item) (hgoing : p.stage.going) (hnext : next.going)
    (hnone : next.item? = none)
    (htodo : next.todo = p.stage.todo) (htail : next.tail? = p.stage.tail?) :
    (p.posted (.ok item) next).Inv args := by
  have hitems : (p.posted (.ok item) next).items = p.items := by
    unfold items posted
    simp only [hitem, hnone, List.filterMap_append, Option.toList_none, Option.toList_some,
      List.append_nil]
    rfl
  obtain ⟨hended, -, -, -, hfail⟩ := going_stage hnext
  refine ⟨h.pinned.fewer rfl rfl (fun _ => hphase) (fun id hid => ?_) (hitems ▸ List.prefix_rfl)
    (fun c hc => hc), ⟨?_, ?_⟩, fun hsub => ?_, fun i hi => ?_⟩
  · rw [mem_references] at hid ⊢
    rcases hid with hid | hid | ⟨m, hm, -⟩ | hid | hid
    · exact Or.inl hid
    · exact Or.inr (Or.inl hid)
    · exact absurd (hnone.symm.trans hm) (by simp)
    · -- the snapshot is now one of the channel's
      unfold channelRefs posted at hid
      rw [List.filterMap_append] at hid
      rcases List.mem_append.mp hid with hid | hid
      · exact Or.inr (Or.inr (Or.inr (Or.inl hid)))
      · exact Or.inr (Or.inr (Or.inl ⟨item, hitem, (List.mem_singleton.mp hid).symm⟩))
    · exact Or.inr (Or.inr (Or.inr (Or.inr hid)))
  · obtain ⟨oks, hoks⟩ := h.sends.nothing_told (going_stage hgoing).1
    refine ⟨oks ++ [item], [], ?_, Nat.zero_le _, fun _ => rfl, fun hend =>
      absurd (hended.symm.trans hend) Bool.false_ne_true⟩
    show p.sent ++ [.ok item] = _
    rw [hoks, List.map_append, List.map_nil, List.append_nil, List.map_singleton]
  · rintro err (herr | herr)
    · rcases List.mem_append.mp herr with herr | herr
      · exact h.sends.granted err (Or.inl herr)
      · exact absurd (List.mem_singleton.mp herr) (by simp)
    · exact absurd herr (hfail err)
  · exact absurd ((h.idle hsub).2.1.symm.trans hgoing) Bool.false_ne_true
  · obtain ⟨sub, hi', ht⟩ := h.tracks i hi
    exact ⟨sub, hi', ht.keep hgoing hnext rfl rfl rfl hitems htodo htail⟩

/-- The final error is in the channel, and the call returns. -/
theorem Inv.told (h : p.Inv args) (hphase : p.service.phase = .running) {err : PumpError}
    (hstage : p.stage = .failing err) : (p.posted (.error err) .returned).leave.Inv args := by
  have hended : p.stage.ended = false := by rw [hstage]; rfl
  have herr := h.sends.granted err (Or.inr hstage)
  obtain ⟨oks, hoks⟩ := h.sends.nothing_told hended
  refine h.stop hphase rfl rfl rfl (by simp [Pump.leave]) (by simp [Pump.leave]) rfl
    (fun _ => ne_done hended) (fun id hid => ?_) ?_ (fun c hc => absurd hc (Option.not_mem_none c))
    ⟨⟨oks, [err], ?_, le_rfl, fun hend => ?_, fun _ _ =>
      List.cons_ne_nil _ _⟩, ?_⟩
  · rw [mem_references] at hid ⊢
    rcases hid with hid | ⟨c, hc, -⟩ | ⟨m, hm, -⟩ | hid
    · exact absurd hid (by simp [Pump.leave])
    · exact absurd hc (by simp [Pump.leave])
    · exact absurd hm (by simp [Pump.leave, PumpStage.item?])
    · refine Or.inr (Or.inr (Or.inr ?_))
      -- an error in the channel refers to no snapshot
      have hrefs : (p.posted (.error err) .returned).leave.channelRefs = p.channelRefs := by
        unfold channelRefs
        show (p.channel ++ [Except.error err]).filterMap _ = _
        rw [List.filterMap_append]
        exact List.append_nil _
      rwa [hrefs] at hid
  · unfold items
    show (p.sent ++ [Except.error err]).filterMap Except.toOption ++ [] <+: _
    rw [List.append_nil, List.filterMap_append]
    exact ⟨p.stage.item?.toList, congrArg (· ++ p.stage.item?.toList) (List.append_nil _)⟩
  · show p.sent ++ [.error err] = _
    rw [hoks]
    rfl
  · exact absurd hend (by simp [Pump.leave, PumpStage.ended])
  · rintro err' (herr' | herr')
    · rcases List.mem_append.mp herr' with herr' | herr'
      · exact h.sends.granted err' (Or.inl herr')
      · obtain rfl := Except.error.inj (List.mem_singleton.mp herr')
        exact herr
    · exact absurd herr' (by simp [Pump.leave])

/-! ### Snapshots -/

/-- The pump's own snapshots are steps of the service that leave the stream. -/
theorem Inv.took (opts : Options) (h : p.Inv args) (hphase : p.service.phase = .running) {seq : ℕ}
    (hok : p.service.snapshotAt seq = .ok s') (hsafe : p.service.Safe seq) :
    (p.took s' seq).Inv args := by
  obtain ⟨hs, -⟩ := @Service.snapshotAt_step opts _ _ _ hphase hok
  refine h.follow (h.pinned.took opts hphase hok hsafe) hs rfl (fun i sub _ hi => ?_)
    (fun id seq' hat => hat.added rfl) rfl rfl rfl rfl rfl
  exact Service.alike_serve h.pinned.streams hs rfl
    (fun j hj => absurd hj (Option.not_mem_none j)) hi

/-- **A snapshot at or above the hold is granted**, and nothing it needs is released. -/
theorem Inv.registrable (h : p.Inv args) {id low seq : ℕ} (hid : id ∈ p.references)
    (hat : p.At id low) (hle : low ≤ seq) (hvis : seq ≤ p.service.engine.db.visibleSeqno) :
    (∃ s', p.service.snapshotAt seq = .ok s') ∧ p.service.Safe seq :=
  ⟨⟨_, Service.snapshotAt_eq (h.pinned.registered hid hat) hle hvis⟩,
    (h.pinned.safe low (h.pinned.mem_holding hid hat)).mono hle⟩

theorem hold_mem {id : ℕ} (h : p.hold = some id) : id ∈ p.references :=
  mem_references.mpr (Or.inl h)

/-- The attach marker is next, pinned at the subscription's start. -/
theorem Inv.attached (h : p.Inv args) (hphase : p.service.phase = .running)
    (hstage : p.stage = .attach)
    (hi : p.sub = some i) (hsub : p.service.subs[i]? = some sub) {id : ℕ} (hopen : p.Open id)
    (hat : p.At id sub.start) :
    ({ p with hold := some id, stage := .greeting (.marker sub.start id) } : Pump).Inv args := by
  have hended : p.stage.ended = false := by rw [hstage]; rfl
  obtain ⟨sub', hsub', ht⟩ := h.tracks i hi
  obtain rfl := Option.some_inj.mp (hsub.symm.trans hsub')
  -- nothing was delivered before, and the pin is at the start
  obtain ⟨hnew, hpinned, hnil⟩ := ht.fresh hstage
  have hitems : ({ p with hold := some id, stage := .greeting (.marker sub.start id) } :
      Pump).items = [.marker sub.start id] := by
    have hsent : p.sent.filterMap Except.toOption = [] := (List.append_eq_nil_iff.mp hnil).1
    exact congrArg (· ++ [SubItem.marker sub.start id]) hsent
  refine ⟨h.pinned.relabel rfl rfl (fun _ => hphase) (fun id' hid => ?_)
    (fun m hm => ?_) h.pinned.commit,
    h.sends.relabel rfl hended rfl (fun err herr => absurd herr (by simp)),
      fun hnone => ?_, fun j hj => ?_⟩
  · rw [mem_references] at hid
    rcases hid with hid | hid | ⟨m, hm, rfl⟩ | hid
    · exact Option.some_inj.mp hid ▸ hopen
    · exact h.pinned.refs id' (mem_references.mpr (Or.inr (Or.inl hid)))
    · obtain rfl : SubItem.marker sub.start id = m := Option.some_inj.mp hm
      exact hopen
    · exact h.pinned.refs id' (mem_references.mpr (Or.inr (Or.inr (Or.inr hid))))
  · rw [hitems] at hm
    obtain rfl := List.mem_singleton.mp hm
    exact hat
  · exact absurd (hi.symm.trans hnone) (by simp)
  · obtain rfl := Option.some_inj.mp (hi.symm.trans hj)
    have hshows : ({ p with hold := some id, stage := .greeting (.marker sub.start id) } :
        Pump).items.map
        SubItem.unpinned = args.shows sub.start [] := congrArg (List.map SubItem.unpinned) hitems
    refine ⟨sub, hsub,
      ⟨ht.range, by simp, fun _ => ht.isOpen (by simp [hstage]),
        fun heq => absurd heq (by simp), ?_, fun _ => ?_,
      fun _ => ⟨id, sub.start, rfl, hat, ⟨?_, fun c hc hlt => hpinned ▸ hlt⟩, fun e he =>
        absurd he List.not_mem_nil, fun t htt => absurd htt (Option.not_mem_none t)⟩⟩⟩
    · exact hnew ▸ hshows ▸ List.prefix_rfl
    · exact ⟨[], hnew, hshows⟩
    · exact h.pinned.streams.start_le sub (List.mem_of_getElem? hsub)

/-- Nothing is left of a batch: the hold moves up to its tail. -/
theorem Inv.rolled (h : p.Inv args) (hphase : p.service.phase = .running) {tail id : ℕ}
    (hstage : p.stage = .batch tail []) (hopen : p.Open id) (hat : p.At id tail) :
    ({ p with hold := some id, commit := none, stage := .receiving } : Pump).Inv args := by
  have hended : p.stage.ended = false := by rw [hstage]; rfl
  have hgoing : p.stage.going := by rw [hstage]; rfl
  have hitems : ({ p with hold := some id, commit := none, stage := .receiving } : Pump).items =
    p.items := by
    unfold items
    rw [hstage]
    rfl
  refine ⟨h.pinned.relabel rfl rfl (fun _ => hphase) (fun id' hid => ?_)
    (fun m hm => h.pinned.items m (hitems ▸ hm))
    (fun c hc => absurd hc (Option.not_mem_none c)), h.sends.relabel rfl hended rfl
      (fun err herr => absurd herr (by simp)),
    fun hnone => absurd ((h.idle hnone).2.1.symm.trans hgoing) Bool.false_ne_true, fun i hi => ?_⟩
  · rw [mem_references] at hid
    rcases hid with hid | ⟨c, hc, -⟩ | ⟨m, hm, -⟩ | hid
    · exact Option.some_inj.mp hid ▸ hopen
    · exact absurd hc (by simp)
    · exact absurd hm (by simp [PumpStage.item?])
    · exact h.pinned.refs id' (mem_references.mpr (Or.inr (Or.inr (Or.inr hid))))
  · obtain ⟨sub, hi', ht⟩ := h.tracks i hi
    -- all of the batch is shown, so the tail may be held
    obtain ⟨_, seq, -, -, -, -, htail⟩ := ht.bound hgoing
    refine ⟨sub, hi',
      ⟨ht.range, by simp, fun _ => ht.isOpen (by simp [hstage]),
        fun heq => absurd heq (by simp), hitems ▸ ht.shown,
      fun _ => ?_, fun _ => ⟨id, tail, rfl, hat, (htail tail (by rw [hstage]; rfl)).1, fun e he =>
        absurd he List.not_mem_nil, fun t htt => absurd htt (Option.not_mem_none t)⟩⟩⟩
    rw [hitems]
    have hexact := ht.exact hgoing
    rwa [hstage] at hexact

/-- The loop comes to the next op of its batch. -/
theorem Tracks.next (ht : p.Tracks args sub) {tail : ℕ} {e : StreamEntry} {todo : List StreamEntry}
    (hstage : p.stage = .batch tail (e :: todo)) (hnext : p'.stage.going)
    (htodo : p'.stage.todo = todo)
    (htail : p'.stage.tail? = some tail) (hservice : p'.service = p.service)
    (hsnaps : p'.snaps = p.snaps)
    (hhold : p'.hold = p.hold)
    (hitems : p'.items.map SubItem.unpinned = p.items.map SubItem.unpinned ++
      if args.keeps e then [e.item 0] else []) : p'.Tracks args sub := by
  have hgoing : p.stage.going := by rw [hstage]; rfl
  obtain ⟨told, hdelivered, hshows⟩ := ht.exact hgoing
  rw [hstage] at hdelivered
  -- the op is shown if the filter keeps it
  have hnow : p'.items.map SubItem.unpinned = args.shows sub.start (told ++ [e]) := by
    rw [hitems, hshows, PumpArgs.shows_append]
    split_ifs
    · rfl
    · exact List.append_nil _
  obtain ⟨-, hstart, hattach, hdone, -⟩ := going_stage hnext
  have hsplit : sub.delivered = (told ++ [e]) ++ todo := by
    rw [hdelivered, List.append_assoc]
    rfl
  refine ⟨ht.range, hstart, fun _ => ht.isOpen (going_stage hgoing).2.2.2.1, fun heq =>
    absurd heq hattach, ?_, fun _ => ⟨told ++ [e], htodo ▸ hsplit, hnow⟩, fun _ => ?_⟩
  · rw [hnow, hsplit]
    unfold PumpArgs.shows
    rw [List.filter_append _ todo, List.map_append]
    exact ⟨_, rfl⟩
  · obtain ⟨id, seq, hid, hseq, hb, hle, htl⟩ := ht.bound hgoing
    rw [hstage] at hle htl
    rw [hservice, hhold, htodo, htail]
    unfold At
    rw [hsnaps]
    exact ⟨id, seq, hid, hseq, hb, fun x hx => hle x (List.mem_cons_of_mem e hx), htl⟩

/-- A delete is passed over. -/
theorem Inv.passed (h : p.Inv args) (hphase : p.service.phase = .running) {tail : ℕ}
    {e : StreamEntry} {todo : List StreamEntry} (hstage : p.stage = .batch tail (e :: todo))
    (hkeeps : args.keeps e = false) :
    ({ p with stage := .batch tail todo } : Pump).Inv args := by
  have hended : p.stage.ended = false := by rw [hstage]; rfl
  have hgoing : p.stage.going := by rw [hstage]; rfl
  have hitems : ({ p with stage := .batch tail todo } : Pump).items = p.items := by
    unfold items
    rw [hstage]
    rfl
  refine ⟨h.pinned.fewer rfl rfl (fun _ => hphase) (fun id hid => ?_) (hitems ▸ List.prefix_rfl)
    (fun c hc => hc), h.sends.relabel rfl hended rfl (fun err herr => absurd herr (by simp)),
    fun hnone => absurd ((h.idle hnone).2.1.symm.trans hgoing) Bool.false_ne_true, fun i hi => ?_⟩
  · rw [mem_references] at hid ⊢
    rcases hid with hid | hid | ⟨m, hm, -⟩ | hid
    · exact Or.inl hid
    · exact Or.inr (Or.inl hid)
    · exact absurd hm (by simp [PumpStage.item?])
    · exact Or.inr (Or.inr (Or.inr hid))
  · obtain ⟨sub, hi', ht⟩ := h.tracks i hi
    refine ⟨sub, hi', ht.next hstage rfl rfl rfl rfl rfl rfl ?_⟩
    rw [hitems, hkeeps]
    exact (List.append_nil _).symm

/-- An op's item waits for room, with a snapshot of its commit. -/
theorem Inv.begun (h : p.Inv args) (hphase : p.service.phase = .running) {tail id : ℕ}
    {e : StreamEntry} {todo : List StreamEntry} (hstage : p.stage = .batch tail (e :: todo))
    (hkeeps : args.keeps e = true)
    (hopen : p.Open id) (hat : p.At id e.commitSeqno) {commit : Option (ℕ × ℕ)}
    (hcommit : ∀ c ∈ commit, c ∈ p.commit ∨ c = (e.commitSeqno, id)) :
    ({ p with commit := commit, stage := .sending (e.item id) tail todo } : Pump).Inv args := by
  have hended : p.stage.ended = false := by rw [hstage]; rfl
  have hgoing : p.stage.going := by rw [hstage]; rfl
  have hitems : ({ p with commit := commit, stage := .sending (e.item id) tail todo } :
      Pump).items = p.items ++ [e.item id] := by
    unfold items
    rw [hstage]
    exact congrArg (· ++ [e.item id]) (List.append_nil _).symm
  refine ⟨h.pinned.relabel rfl rfl (fun _ => hphase) (fun id' hid => ?_) (fun m hm => ?_)
    (fun c hc => ?_), h.sends.relabel rfl hended rfl (fun err herr => absurd herr (by simp)),
    fun hnone => absurd ((h.idle hnone).2.1.symm.trans hgoing) Bool.false_ne_true, fun i hi => ?_⟩
  · rw [mem_references] at hid
    rcases hid with hid | ⟨c, hc, rfl⟩ | ⟨m, hm, rfl⟩ | hid
    · exact h.pinned.refs id' (mem_references.mpr (Or.inl hid))
    · rcases hcommit c hc with hc | rfl
      · exact h.pinned.refs c.2 (mem_references.mpr (Or.inr (Or.inl ⟨c, hc, rfl⟩)))
      · exact hopen
    · -- the item in the stage refers to the snapshot of its commit
      obtain rfl : e.item id = m := Option.some_inj.mp hm
      exact hopen
    · exact h.pinned.refs id' (mem_references.mpr (Or.inr (Or.inr (Or.inr hid))))
  · rw [hitems] at hm
    rcases List.mem_append.mp hm with hm | hm
    · exact h.pinned.items m hm
    · obtain rfl := List.mem_singleton.mp hm
      exact hat
  · rcases hcommit c hc with hc | rfl
    · exact h.pinned.commit c hc
    · exact hat
  · obtain ⟨sub, hi', ht⟩ := h.tracks i hi
    refine ⟨sub, hi', ht.next hstage rfl rfl rfl rfl rfl rfl ?_⟩
    rw [hitems, hkeeps, List.map_append]
    rfl

/-- **One op of a batch.** -/
theorem Inv.handled (opts : Options) (h : p.Inv args) (hphase : p.service.phase = .running)
    {tail : ℕ} {e : StreamEntry}
    {todo : List StreamEntry} (hstage : p.stage = .batch tail (e :: todo)) :
    (p.handle args tail e todo).Inv args := by
  have hgoing : p.stage.going := by rw [hstage]; rfl
  unfold handle
  by_cases hdrop : args.putsOnly = true ∧ e.kind = .delete
  · rw [if_pos hdrop]
    exact h.passed hphase hstage (by simp [PumpArgs.keeps, hdrop])
  · rw [if_neg hdrop]
    have hkeeps : args.keeps e = true := by
      unfold PumpArgs.keeps
      rw [decide_eq_false hdrop]
      rfl
    cases hc : p.commit.filter fun c => decide (c.1 = e.commitSeqno) with
    | some c =>
      -- the op shares the snapshot of the one before it
      obtain ⟨hcommit, hseq⟩ := Option.filter_eq_some_iff.mp hc
      have hmem : c.2 ∈ p.references := mem_references.mpr (Or.inr (Or.inl ⟨c, hcommit, rfl⟩))
      have hat := h.pinned.commit c hcommit
      rw [of_decide_eq_true hseq] at hat
      exact h.begun hphase hstage hkeeps (h.pinned.refs c.2 hmem) hat fun c hc => Or.inl hc
    | none =>
      have hsub : p.sub ≠ none :=
        fun hnone => absurd ((h.idle hnone).2.1.symm.trans hgoing) Bool.false_ne_true
      obtain ⟨i, hi⟩ := Option.ne_none_iff_exists'.mp hsub
      obtain ⟨sub, hi', ht⟩ := h.tracks i hi
      obtain ⟨id, low, hhold, hat, -, htodo, -⟩ := ht.bound hgoing
      obtain ⟨hle, hvis⟩ := htodo e (by rw [hstage]; exact List.mem_cons_self)
      obtain ⟨⟨s', hok⟩, hsafe⟩ := h.registrable (hold_mem hhold) hat hle hvis
      obtain ⟨hopen, hnew⟩ := took_new (p := p) s' e.commitSeqno
      have htook := h.took opts hphase hok hsafe
      simp only [pin_eq hok]
      refine htook.begun (htook.pinned.running ?_) hstage hkeeps hopen hnew fun c hc =>
        Or.inr (Option.some_inj.mp hc).symm
      rw [show (p.took s' e.commitSeqno).stage = .batch tail (e :: todo) from hstage]
      simp

/-- **The end of a batch.** -/
theorem Inv.roll (opts : Options) (h : p.Inv args) (hphase : p.service.phase = .running) {tail : ℕ}
    (hstage : p.stage = .batch tail []) : (p.roll tail).Inv args := by
  have hgoing : p.stage.going := by rw [hstage]; rfl
  unfold Pump.roll
  cases hc : p.commit.filter fun c => decide (c.1 = tail) with
  | some c =>
    obtain ⟨hcommit, hseq⟩ := Option.filter_eq_some_iff.mp hc
    have hmem : c.2 ∈ p.references := mem_references.mpr (Or.inr (Or.inl ⟨c, hcommit, rfl⟩))
    have hat := h.pinned.commit c hcommit
    rw [of_decide_eq_true hseq] at hat
    exact h.rolled hphase hstage (h.pinned.refs c.2 hmem) hat
  | none =>
    have hsub : p.sub ≠ none :=
      fun hnone => absurd ((h.idle hnone).2.1.symm.trans hgoing) Bool.false_ne_true
    obtain ⟨i, hi⟩ := Option.ne_none_iff_exists'.mp hsub
    obtain ⟨sub, hi', ht⟩ := h.tracks i hi
    obtain ⟨id, low, hhold, hat, -, -, htail⟩ := ht.bound hgoing
    obtain ⟨hb, hle⟩ := htail tail (by rw [hstage]; rfl)
    obtain ⟨⟨s', hok⟩, hsafe⟩ := h.registrable (hold_mem hhold) hat hle hb.1
    obtain ⟨hopen, hnew⟩ := took_new (p := p) s' tail
    have htook := h.took opts hphase hok hsafe
    simp only [pin_eq hok]
    refine htook.rolled (htook.pinned.running ?_) hstage hopen hnew
    rw [show (p.took s' tail).stage = .batch tail [] from hstage]
    simp

/-! ### The subscription -/

/-- The pump's own calls on its subscription that return nothing leave its place
in the stream. -/
theorem alike_own {act : ServiceAction} (hs : s.step opts act = some s')
    (hi : s.subs[i]? = some sub) (hact : act = .check i ∨ act = .drain i ∨
      act = .deliver i ∧ ∀ out, sub.taken.mapM (RawEntry.resolve s.db) ≠ .ok out) :
    ∃ sub', s'.subs[i]? = some sub' ∧ sub.Alike sub' := by
  have hset : ∀ u, (s.subs.set i u)[i]? = some u :=
    fun u => List.getElem?_set_self (List.getElem?_eq_some_iff.mp hi).1
  rcases hact with rfl | rfl | ⟨rfl, hfails⟩
  · cases Service.takes hs with
    | @check _ u hsub hclosed hchecked htaken =>
      obtain rfl := Option.some_inj.mp (hi.symm.trans hsub)
      exact ⟨_, hset _, sub.alike_check s.degraded⟩
  · cases Service.takes hs with
    | @drain _ u hsub hclosed hchecked =>
      obtain rfl := Option.some_inj.mp (hi.symm.trans hsub)
      exact ⟨_, hset _, ⟨rfl, rfl, rfl, rfl, rfl, rfl⟩⟩
  · cases Service.takes hs with
    | @deliver _ u out e' hsub hclosed htaken hout he =>
      obtain rfl := Option.some_inj.mp (hi.symm.trans hsub)
      exact absurd hout (hfails out)
    | @kill _ u err hsub hclosed htaken hout =>
      obtain rfl := Option.some_inj.mp (hi.symm.trans hsub)
      exact ⟨_, hset _, ⟨rfl, rfl, rfl, rfl, rfl, rfl⟩⟩

/-- A call that returns nothing. -/
theorem Inv.waits (h : p.Inv args) (hi : p.sub = some i) (hsub : p.service.subs[i]? = some sub)
    {act : ServiceAction}
    (hs : p.service.step opts act = some s') (hact : act = .check i ∨ act = .drain i ∨
      act = .deliver i ∧ ∀ out, sub.taken.mapM (RawEntry.resolve p.service.db) ≠ .ok out) :
    ({ p with service := s' } : Pump).Inv args := by
  have hkind : act.inProcess ∧ act.consumes = none := by
    rcases hact with rfl | rfl | ⟨rfl, -⟩ <;> exact ⟨rfl, rfl⟩
  refine h.follow (h.pinned.serve hs hkind.1 fun t ht => ?_) hs hkind.1 (fun j u hj hu => ?_)
    (fun _ _ hat => hat) rfl rfl rfl rfl rfl
  · rw [hkind.2] at ht
    exact absurd ht (Option.not_mem_none t)
  · obtain rfl := Option.some_inj.mp (hi.symm.trans hj)
    obtain rfl := Option.some_inj.mp (hsub.symm.trans hu)
    exact alike_own hs hsub hact

/-- **A batch is handed out**: the subscription's pin moves to its last op, and the
hold is still below every commit that is in the batch or to come. -/
theorem Inv.received (h : p.Inv args) (hphase : p.service.phase = .running)
    (hstage : p.stage = .receiving) (hi : p.sub = some i) (hsub : p.service.subs[i]? = some sub)
    (htaken : sub.taken ≠ []) {out : List StreamEntry}
    (hout : sub.taken.mapM (RawEntry.resolve p.service.db) = .ok out)
    (hs : p.service.step opts (.deliver i) = some s') :
    (({ p with service := s' } : Pump).receive out).Inv args := by
  have hended : p.stage.ended = false := by rw [hstage]; rfl
  have hgoing : p.stage.going := by rw [hstage]; rfl
  have hst := h.pinned.streams
  have hmem := List.mem_of_getElem? hsub
  obtain ⟨sub', hsub', ht⟩ := h.tracks i hi
  obtain rfl := Option.some_inj.mp (hsub.symm.trans hsub')
  have hopen := ht.isOpen (by simp [hstage])
  obtain ⟨hall, e, hlast, hseq⟩ := hst.handed hmem hopen htaken hout
  have hafter : s'.subs[i]? = some (sub.deliver out) := by
    cases Service.takes hs with
    | @deliver _ u out' e' hu hclosed htaken' hout' he =>
      obtain rfl := Option.some_inj.mp (hsub.symm.trans hu)
      obtain rfl := Except.ok.inj (hout.symm.trans hout')
      exact List.getElem?_set_self (List.getElem?_eq_some_iff.mp hsub).1
    | @kill _ u err hu hclosed htaken' herr =>
      obtain rfl := Option.some_inj.mp (hsub.symm.trans hu)
      exact absurd (hout.symm.trans herr) (by simp)
  have hnext : ({ p with service := s' } : Pump).receive out =
    { p with service := s', stage := .batch e.commitSeqno out } := by
    unfold receive
    rw [hlast]
  have hserved : ({ p with service := s' } : Pump).Pinned :=
    h.pinned.serve hs rfl fun t ht => absurd ht (Option.not_mem_none t)
  have hitems : ({ p with service := s', stage := .batch e.commitSeqno out } : Pump).items =
    p.items := by
    unfold items
    rw [hstage]
    rfl
  rw [hnext]
  refine ⟨hserved.fewer rfl rfl (fun _ => Service.running_step hs rfl hphase) (fun id hid => ?_)
    (hitems ▸ List.prefix_rfl) (fun c hc => hc), h.sends.relabel rfl hended rfl
    (fun err herr => absurd herr (by simp)),
    fun hnone => absurd (hi.symm.trans hnone) (by simp), fun j hj => ?_⟩
  · rw [mem_references] at hid ⊢
    rcases hid with hid | hid | ⟨m, hm, -⟩ | hid
    · exact Or.inl hid
    · exact Or.inr (Or.inl hid)
    · exact absurd hm (by simp [PumpStage.item?])
    · exact Or.inr (Or.inr (Or.inr hid))
  · obtain rfl := Option.some_inj.mp (hi.symm.trans hj)
    obtain ⟨told, hdelivered, hshows⟩ := ht.exact hgoing
    obtain ⟨id, low, hhold, hat, hb, -, -⟩ := ht.bound hgoing
    rw [hstage] at hdelivered
    have htold : told = sub.delivered := (hdelivered.trans (List.append_nil _)).symm
    have hgrown : (sub.deliver out).delivered = sub.delivered ++ out := by
      show (sub.events ++ [StreamEvent.batch out]).flatMap StreamEvent.entries = _
      rw [List.flatMap_append, List.flatMap_singleton]
      rfl
    have hfiles := hst.files
    have hcons := hfiles.engine.consistent
    obtain ⟨-, -, hvis, -⟩ := Service.log_serve hfiles hs rfl
    -- every op of the batch is one of a commit that came after the hold
    have hops : ∀ x ∈ out, low ≤ x.commitSeqno ∧ x.commitSeqno ≤ p.service.engine.db.visibleSeqno ∧
        low < x.seqno ∧ sub.pinned < x.seqno := by
      intro x hx
      obtain ⟨c, hc, hpin, hxc⟩ := hall x hx
      obtain ⟨hbase, hseqno, -, hvisible⟩ := mem_stream hcons hc hxc
      have := hb.2 c hc hpin
      omega
    obtain ⟨hlow, -, hlt, hpinlt⟩ := hops e (List.mem_of_getLast? hlast)
    have hbelow : p.service.Boundary sub.lastTaken low := by
      refine ⟨hb.1, fun c hc hafter => hb.2 c hc ?_⟩
      omega
    have htail : p.service.Boundary sub.lastTaken e.commitSeqno := by
      obtain ⟨c, hc, -, hec⟩ := hall e (List.mem_of_getLast? hlast)
      exact hseq ▸ hst.boundary_of_stream hc hec
    refine ⟨sub.deliver out, hafter,
      ⟨ht.range, by simp, fun _ => hopen, fun heq => absurd heq (by simp), ?_, fun _ => ⟨told, ?_,
        ?_⟩,
      fun _ => ⟨id, low, hhold, hat, hbelow.serve hfiles hs rfl, fun x hx =>
        ⟨(hops x hx).1, le_trans (hops x hx).2.1 hvis⟩, fun t htt => ?_⟩⟩⟩
    · rw [hitems, hgrown]
      refine ht.shown.trans ?_
      unfold PumpArgs.shows
      rw [List.filter_append, List.map_append]
      exact ⟨_, rfl⟩
    · rw [hgrown, htold]
      rfl
    · rw [hitems]
      exact hshows
    · obtain rfl := Option.some_inj.mp htt
      exact ⟨htail.serve hfiles hs rfl, hlow⟩

/-- **One piece of `recv_timeout`.** -/
theorem Inv.polled (h : p.Inv args) (hphase : p.service.phase = .running)
    (hstage : p.stage = .receiving) (hi : p.sub = some i) (hsub : p.service.subs[i]? = some sub)
    (hp : p.poll opts args i sub = some p') :
    p'.Inv args := by
  have hended : p.stage.ended = false := by rw [hstage]; rfl
  unfold poll at hp
  by_cases hchecked : sub.checked = true
  · rw [if_pos hchecked] at hp
    obtain ⟨s', hs, rfl⟩ := Option.map_eq_some_iff.mp hp
    exact h.waits hi hsub hs (Or.inr (Or.inl rfl))
  · rw [if_neg hchecked] at hp
    by_cases htaken : sub.taken ≠ []
    · rw [if_pos htaken] at hp
      obtain ⟨s', hs, rfl⟩ := Option.map_eq_some_iff.mp hp
      cases hout : sub.taken.mapM (RawEntry.resolve p.service.db) with
      | ok out => exact h.received hphase hstage hi hsub htaken hout hs
      | error err =>
        have hkilled := h.waits hi hsub hs
          (Or.inr (Or.inr ⟨rfl, fun out hok => absurd (hout.symm.trans hok) (by simp)⟩))
        exact hkilled.fail (Service.running_step hs rfl hphase) hended rfl
    · rw [if_neg htaken] at hp
      obtain ⟨s', hs, rfl⟩ := Option.map_eq_some_iff.mp hp
      have hwaits := h.waits hi hsub hs (Or.inl rfl)
      have hrunning := Service.running_step hs rfl hphase
      split_ifs
      · exact hwaits.fail hrunning hended rfl
      · exact hwaits.fail hrunning hended rfl
      · exact hwaits

/-- `Db::subscribe` succeeds, or the call ends. -/
theorem Inv.opened (h : p.Inv args) (hphase : p.service.phase = .running)
    (hstage : p.stage = .start) (hp : p.open' opts args = some p') : p'.Inv args := by
  have hended : p.stage.ended = false := by rw [hstage]; rfl
  have hsub : p.sub = none := by
    cases hi : p.sub with
    | none => rfl
    | some i =>
      obtain ⟨sub, -, ht⟩ := h.tracks i hi
      exact absurd hstage ht.started
  -- nothing was sent before there is a subscription
  have hnil := (h.idle hsub).1
  unfold open' at hp
  simp only at hp
  generalize hlo :
      (if USER_KEYSPACE_START ≤ args.lo then args.lo else USER_KEYSPACE_START) = lo at hp
  split_ifs at hp with hempty hdegraded
  · obtain rfl := Option.some_inj.mp hp
    exact h.fail hphase hended rfl
  · obtain rfl := Option.some_inj.mp hp
    exact h.fail hphase hended rfl
  · obtain ⟨s', hs, rfl⟩ := Option.map_eq_some_iff.mp hp
    have hserved : ({ p with service := s' } : Pump).Pinned :=
      h.pinned.serve hs rfl fun t ht => absurd ht (Option.not_mem_none t)
    have hitems : ({ p with service := s', sub := some p.service.subs.length, stage := .attach } :
        Pump).items = [] := by
      have hsent : p.sent.filterMap Except.toOption = [] := (List.append_eq_nil_iff.mp hnil).1
      unfold items
      rw [hsent]
      rfl
    refine ⟨hserved.fewer rfl rfl (fun _ => Service.running_step hs rfl hphase) (fun id hid => ?_)
      (by rw [hitems]; exact List.nil_prefix) (fun c hc => hc), h.sends.relabel rfl hended rfl
        (fun err herr => absurd herr (by simp)), fun hnone => absurd hnone (by simp),
          fun j hj => ?_⟩
    · rw [mem_references] at hid ⊢
      rcases hid with hid | hid | ⟨m, hm, -⟩ | hid
      · exact Or.inl hid
      · exact Or.inr (Or.inl hid)
      · exact absurd hm (by simp [PumpStage.item?])
      · exact Or.inr (Or.inr (Or.inr hid))
    · obtain rfl := Option.some_inj.mp hj
      have hnew : ∃ e', s' = { p.service with
          engine := e'
          subs := p.service.subs ++
            [.new args.low args.hi args.maxBytes p.service.engine.db.visibleSeqno]
          subsActive := true } := by
        simp only [Service.step] at hs
        split_ifs at hs
        all_goals
          obtain ⟨e', -, rfl⟩ := Option.map_eq_some_iff.mp hs
          exact ⟨e', by unfold PumpArgs.low; simp [*]⟩
      obtain ⟨e', rfl⟩ := hnew
      refine ⟨_, List.getElem?_concat_length,
        ⟨⟨rfl, rfl⟩, by simp, fun _ => rfl, fun _ => ⟨rfl, rfl, hitems⟩, ?_,
        fun hgoing => absurd hgoing Bool.false_ne_true, fun hgoing =>
          absurd hgoing Bool.false_ne_true⟩⟩
      rw [hitems]
      exact List.nil_prefix

/-- The subscription is dropped. -/
theorem Inv.closed (h : p.Inv args) (hstage : p.stage = .returned) (hi : p.sub = some i)
    (hs : p.service.step opts (.close i) = some s') :
    ({ p with service := s', stage := .done } : Pump).Inv args := by
  have hended : p.stage.ended := by rw [hstage]; rfl
  have hphase := h.pinned.running (by rw [hstage]; simp)
  have hserved : ({ p with service := s' } : Pump).Pinned :=
    h.pinned.serve hs rfl fun t ht => absurd ht (Option.not_mem_none t)
  have hitems : ({ p with service := s', stage := .done } : Pump).items = p.items := by
    unfold items
    rw [hstage]
    rfl
  obtain ⟨oks, errs, hsplit, hone, -, htold⟩ := h.sends.split
  refine ⟨hserved.fewer rfl rfl (fun _ => Service.running_step hs rfl hphase) (fun id hid => ?_)
    (by rw [hitems]; exact List.prefix_rfl) (fun c hc => hc), ⟨⟨oks, errs, hsplit, hone,
      fun hend => absurd hend (by simp [PumpStage.ended]), fun _ hrecv => htold hended hrecv⟩, ?_⟩,
    fun hnone => absurd (hi.symm.trans hnone) (by simp), fun j hj => ?_⟩
  · rw [mem_references] at hid ⊢
    rcases hid with hid | hid | ⟨m, hm, -⟩ | hid
    · exact Or.inl hid
    · exact Or.inr (Or.inl hid)
    · exact absurd hm (by simp [PumpStage.item?])
    · exact Or.inr (Or.inr (Or.inr hid))
  · rintro err (herr | herr)
    · exact h.sends.granted err (Or.inl herr)
    · exact absurd herr (by simp)
  · obtain rfl := Option.some_inj.mp (hi.symm.trans hj)
    -- the subscription is closed, and what it has shown stays
    obtain ⟨sub, hsub, ht⟩ := h.tracks i hi
    cases Service.takes hs with
    | @close _ u e' hu hclosed hchecked htaken he =>
      obtain rfl := Option.some_inj.mp (hsub.symm.trans hu)
      refine ⟨sub.close, List.getElem?_set_self (List.getElem?_eq_some_iff.mp hsub).1,
        ⟨ht.range, by simp,
        fun hne => absurd rfl hne, fun heq => absurd heq (by simp), ?_, fun hgoing =>
          absurd hgoing Bool.false_ne_true,
        fun hgoing => absurd hgoing Bool.false_ne_true⟩⟩
      rw [hitems]
      exact ht.shown

/-! ### Every step -/

/-- **The pump's own steps.** -/
theorem inv_go (h : p.Inv args) (hp : p.go opts args = some p') : p'.Inv args := by
  have hrunning : p.stage ≠ .start → p.service.phase = .running := h.pinned.running
  unfold go at hp
  cases hstage : p.stage with
  | start =>
    rw [hstage] at hp
    simp only at hp
    split_ifs at hp with hphase
    exact h.opened hphase hstage hp
  | attach =>
    rw [hstage] at hp
    obtain ⟨sub, hsub, rfl⟩ := Option.map_eq_some_iff.mp hp
    obtain ⟨i, hi, hsub⟩ := Option.bind_eq_some_iff.mp hsub
    have hphase := hrunning (by simp [hstage])
    -- the subscription still holds its pin at the start
    obtain ⟨sub', hsub', ht⟩ := h.tracks i hi
    obtain rfl := Option.some_inj.mp (hsub.symm.trans hsub')
    have hst := h.pinned.streams
    have hmem := List.mem_of_getElem? hsub
    have hpin := hst.pinned_mem hmem (ht.isOpen (by simp [hstage]))
    have hsafe := hst.safe sub hmem (ht.isOpen (by simp [hstage]))
    rw [(ht.fresh hstage).2.1] at hpin hsafe
    obtain ⟨s', hok⟩ : ∃ s', p.service.snapshotAt sub.start = .ok s' :=
      ⟨_, Service.snapshotAt_eq hpin le_rfl (hst.start_le sub hmem)⟩
    obtain ⟨sub'', hsub'', halike⟩ :=
      Service.alike_serve hst (@Service.snapshotAt_step opts _ _ _ hphase hok).1 rfl
      (fun j hj => absurd hj (Option.not_mem_none j)) hsub
    have htook := h.took opts hphase hok hsafe
    obtain ⟨hopen, hat⟩ := took_new (p := p) s' sub.start
    have hattached :=
      htook.attached (htook.pinned.running (by simp [Pump.took, hstage])) hstage hi hsub'' hopen
      (halike.start ▸ hat)
    rw [halike.start] at hattached
    rw [pin_eq hok]
    exact hattached
  | greeting item =>
    rw [hstage] at hp
    have hphase := hrunning (by simp [hstage])
    rcases push_cases hp with ⟨-, rfl⟩ | ⟨hgone, rfl⟩
    · exact h.pushed hphase (by rw [hstage]; rfl) (by rw [hstage]; rfl) rfl rfl
        (by rw [hstage]; rfl) (by rw [hstage]; rfl)
    · exact h.leave hphase (by rw [hstage]; rfl) hgone
  | receiving =>
    rw [hstage] at hp
    obtain ⟨i, hi, hp⟩ := Option.bind_eq_some_iff.mp hp
    obtain ⟨sub, hsub, hp⟩ := Option.bind_eq_some_iff.mp hp
    exact h.polled (hrunning (by simp [hstage])) hstage hi hsub hp
  | batch tail todo =>
    rw [hstage] at hp
    have hphase := hrunning (by simp [hstage])
    cases todo with
    | nil =>
      obtain rfl := Option.some_inj.mp hp
      exact h.roll opts hphase hstage
    | cons e todo =>
      obtain rfl := Option.some_inj.mp hp
      exact h.handled opts hphase hstage
  | sending item tail todo =>
    rw [hstage] at hp
    have hphase := hrunning (by simp [hstage])
    rcases push_cases hp with ⟨-, rfl⟩ | ⟨hgone, rfl⟩
    · exact h.pushed hphase (by rw [hstage]; rfl) (by rw [hstage]; rfl) rfl rfl
        (by rw [hstage]; rfl) (by rw [hstage]; rfl)
    · exact h.leave hphase (by rw [hstage]; rfl) hgone
  | failing err =>
    rw [hstage] at hp
    have hphase := hrunning (by simp [hstage])
    obtain ⟨q, hq, rfl⟩ := Option.map_eq_some_iff.mp hp
    rcases push_cases hq with ⟨-, rfl⟩ | ⟨hgone, rfl⟩
    · exact h.told hphase hstage
    · exact h.leave hphase (by rw [hstage]; rfl) hgone
  | returned =>
    rw [hstage] at hp
    simp only at hp
    cases hi : p.sub with
    | some i =>
      rw [hi] at hp
      obtain ⟨s', hs, rfl⟩ := Option.map_eq_some_iff.mp hp
      have hclosed := h.closed hstage hi hs
      rwa [hi] at hclosed
    | none =>
      rw [hi] at hp
      obtain rfl := Option.some_inj.mp hp
      obtain ⟨oks, errs, hsplit, hone, -, htold⟩ := h.sends.split
      refine h.stop (hrunning (by simp [hstage])) rfl rfl hi.symm (by simp) (by simp) rfl
        (fun hne => absurd rfl hne)
        (fun id hid => ?_) (prefix_items rfl rfl) (fun c hc => hc) ⟨⟨oks, errs, hsplit, hone,
          fun hend => absurd hend (by simp [PumpStage.ended]), fun _ hrecv =>
            htold (by rw [hstage]; rfl) hrecv⟩, ?_⟩
      · rw [mem_references] at hid ⊢
        rw [hstage]
        exact hid
      · rintro err (herr | herr)
        · exact h.sends.granted err (Or.inl herr)
        · exact absurd herr (by simp)
  | done =>
    rw [hstage] at hp
    exact absurd hp (by simp)

/-- The drop of a snapshot that nobody refers to has run. -/
theorem inv_reap (h : p.Inv args) {id : ℕ} {sn : PumpSnapshot} (hsn : p.snaps[id]? = some sn)
    (hheld : sn.dropped = false) (hfree : id ∉ p.references)
    (hs : p.service.step opts (.engine (.release sn.seqno) false) = some s') :
    ({ p with service := s', snaps := p.snaps.set id { sn with dropped := true } } :
      Pump).Inv args := by
  -- a dropped snapshot keeps its seqno
  have hat : ∀ id' seq, p.At id' seq →
      ({ p with service := s', snaps := p.snaps.set id { sn with dropped := true } } :
        Pump).At id' seq := by
    rintro id' seq ⟨sn', hsn', rfl⟩
    by_cases heq : id = id'
    · subst heq
      obtain rfl := Option.some_inj.mp (hsn.symm.trans hsn')
      exact ⟨_, List.getElem?_set_self (List.getElem?_eq_some_iff.mp hsn).1, rfl⟩
    · exact ⟨sn', (List.getElem?_set_ne heq).trans hsn', rfl⟩
  -- and it is one less that holds it
  have hholding : ∀ t,
      ({ p with service := s', snaps := p.snaps.set id { sn with dropped := true } } :
          Pump).holding.count t +
      (if sn.seqno = t then 1 else 0) = p.holding.count t := by
    intro t
    obtain ⟨l₁, l₂, hsnaps, hset⟩ := exists_set hsn
    unfold holding
    rw [hset, hsnaps, List.filter_append, List.filter_append, List.map_append, List.map_append,
      List.count_append,
      List.count_append, List.filter_cons_of_neg (by simp), List.filter_cons_of_pos
        (by simp [hheld]), List.map_cons,
      List.count_cons]
    simp only [beq_iff_eq]
    omega
  refine h.follow ⟨streams_step h.pinned.streams hs, fun hne =>
    Service.running_step hs rfl (h.pinned.running hne),
    fun t => ?_, fun id' hid => ?_, fun m hm => hat _ _ (h.pinned.items m hm), fun c hc =>
      hat _ _ (h.pinned.commit c hc),
    fun t ht => ?_⟩
    hs rfl (fun i sub _ hi => ?_) hat rfl rfl rfl rfl rfl
  · have hstep := Service.handles_serve h.pinned.streams hs rfl t
    have hold := h.pinned.held t
    have hless := hholding t
    have hconsumes : (ServiceAction.engine (.release sn.seqno) false).consumes = some sn.seqno :=
      rfl
    show (s'.pins ++ _).count t ≤ s'.engine.handles.count t
    rw [List.count_append] at hold ⊢
    rw [hconsumes] at hstep
    simp only [Option.some.injEq] at hstep
    omega
  · obtain ⟨sn', hsn', hopen⟩ := h.pinned.refs id' hid
    refine ⟨sn', (List.getElem?_set_ne fun heq => ?_).trans hsn', hopen⟩
    exact hfree (heq ▸ hid)
  · have hmem : t ∈ p.holding := by
      have := hholding t
      have := List.count_pos_iff.mpr ht
      exact List.count_pos_iff.mp (by omega)
    exact safe_step hs (h.pinned.registered_of_mem (List.mem_append_right _ hmem))
      (h.pinned.safe t hmem)
  · exact Service.alike_serve h.pinned.streams hs rfl
      (fun j hj => absurd hj (Option.not_mem_none j)) hi

/-- A pump starts on a store in service. -/
theorem inv_spawn (h : s.Streams) : (spawn s).Inv args where
  pinned :=
    { streams := h
      running := fun hne => absurd rfl hne
      held := fun t => by
        show (s.pins ++ []).count t ≤ _
        rw [List.append_nil]
        exact h.pins t
      refs := fun id hid => absurd hid List.not_mem_nil
      items := fun m hm => absurd hm List.not_mem_nil
      commit := fun c hc => absurd hc (Option.not_mem_none c)
      safe := fun t ht => absurd ht List.not_mem_nil }
  sends :=
    { split := ⟨[], [], rfl, Nat.zero_le _, fun _ => rfl,
        fun hend => absurd hend Bool.false_ne_true⟩
      granted := by
        rintro err (herr | herr)
        · exact absurd herr List.not_mem_nil
        · exact absurd herr (by simp [spawn]) }
  idle := fun _ => ⟨rfl, rfl, by simp [spawn]⟩
  tracks := fun i hi => absurd hi (by simp [spawn])

/-- **Every step keeps the invariant.** -/
theorem inv_step (h : p.Inv args) {a : PumpAction} (hp : p.step opts args a = some p') :
    p'.Inv args := by
  cases a with
  | serve act =>
    simp only [step] at hp
    split_ifs at hp with hguard
    obtain ⟨hin, hother, hfree⟩ := hguard
    obtain ⟨s', hs, rfl⟩ := Option.map_eq_some_iff.mp hp
    exact h.serve hs hin hother hfree
  | restart act =>
    simp only [step] at hp
    split_ifs at hp
    obtain ⟨s', hs, rfl⟩ := Option.map_eq_some_iff.mp hp
    exact inv_spawn (streams_step h.pinned.streams hs)
  | go => exact inv_go h hp
  | tick =>
    obtain ⟨sub, -, hp⟩ := Option.bind_eq_some_iff.mp hp
    split_ifs at hp with hguard
    obtain ⟨hstage, -, -, hgone⟩ := hguard
    obtain rfl := Option.some_inj.mp hp
    exact h.leave (h.pinned.running (by simp [hstage])) (by rw [hstage]; rfl) hgone
  | reap id =>
    obtain ⟨sn, hsn, hp⟩ := Option.bind_eq_some_iff.mp hp
    split_ifs at hp with hguard
    obtain ⟨s', hs, rfl⟩ := Option.map_eq_some_iff.mp hp
    exact inv_reap h hsn hguard.1 hguard.2 hs
  | recv =>
    simp only [step] at hp
    cases hchannel : p.channel with
    | nil =>
      rw [hchannel] at hp
      exact absurd hp (by simp)
    | cons m rest =>
      rw [hchannel] at hp
      obtain rfl := Option.some_inj.mp hp
      -- the item moves from the channel to the receiver, and with it the reference
      refine h.quiet rfl rfl rfl rfl rfl rfl rfl (fun hrecv => hrecv) fun id hid => ?_
      unfold channelRefs at hid ⊢
      rw [hchannel]
      cases m with
      | ok item =>
        rcases List.mem_append.mp hid with hid | hid
        · exact List.mem_append_left _ (List.mem_cons_of_mem _ hid)
        · rcases List.mem_cons.mp hid with rfl | hid
          · exact List.mem_append_left _ List.mem_cons_self
          · exact List.mem_append_right _ hid
      | error err => exact hid
  | clone k =>
    obtain ⟨id, hid, rfl⟩ := Option.map_eq_some_iff.mp hp
    refine h.quiet rfl rfl rfl rfl rfl rfl rfl (fun hrecv => hrecv) fun id' hid' => ?_
    rcases List.mem_append.mp hid' with hid' | hid'
    · exact List.mem_append_left _ hid'
    · rcases List.mem_cons.mp hid' with rfl | hid'
      · exact List.mem_append_right _ (List.mem_of_getElem? hid)
      · exact List.mem_append_right _ hid'
  | drop k =>
    obtain rfl := Option.some_inj.mp hp
    refine h.quiet rfl rfl rfl rfl rfl rfl rfl (fun hrecv => hrecv) fun id hid => ?_
    rcases List.mem_append.mp hid with hid | hid
    · exact List.mem_append_left _ hid
    · exact List.mem_append_right _ (List.mem_of_mem_eraseIdx hid)
  | cancel =>
    obtain rfl := Option.some_inj.mp hp
    exact h.quiet rfl rfl rfl rfl rfl rfl rfl (fun hrecv => absurd hrecv Bool.false_ne_true)
      fun id hid =>
      List.mem_append_right _ hid

theorem inv_of_reachable (h : (pump opts args).Reachable p) : p.Inv args :=
  h.invariant (inv_spawn (streams_init opts)) fun hi _ hs => inv_step hi hs

/-- The ops that wait in the batch are not among the items. -/
theorem items_of_sent {oks : List SubItem} {errs : List PumpError}
    (hsent : p.sent = oks.map .ok ++ errs.map .error) :
    p.items = oks ++ p.stage.item?.toList := by
  have hoks : (oks.map Except.ok).filterMap (Except.toOption (ε := PumpError)) = oks := by
    rw [List.filterMap_map]
    exact List.filterMap_some
  have herrs : (errs.map Except.error).filterMap (Except.toOption (α := SubItem)) = [] := by
    rw [List.filterMap_map]
    exact List.filterMap_eq_nil_iff.mpr fun err _ => rfl
  unfold items
  rw [hsent, List.filterMap_append, hoks, herrs, List.append_nil]

end Pump

/-- **A GraphQL subscription is exact.**  In every state that any interleaving of
the pump, its consumer and everyone else on the store reaches:

* the channel has received items, and after them at most one notice, which is never
  a snapshot that was refused, and which a consumer that stays does receive;
* every item is pinned at its commit's boundary;
* the items are the attach marker and the reported ops, in order, of the first
  commits after the start, and none of them is left out while the call goes on;
* every snapshot that someone still refers to is registered, and reads the state
  right after its commit, unless a failed head rotation lost the value. -/
theorem pump_exact (h : (pump opts args).Reachable p) :
    (∃ (oks : List SubItem) (errs : List PumpError), p.sent = oks.map .ok ++ errs.map .error ∧
      errs.length ≤ 1 ∧ (∀ err ∈ errs, err.ofSnapshot = false) ∧
      (p.stage.ended → p.receiver → errs ≠ []) ∧
      (∀ m ∈ oks, p.At m.snap m.commitSeqno) ∧ (p.sub = none → oks = []) ∧
      ∀ i, p.sub = some i →
        ∃ (sub : Subscription) (segs : List (List CommitRec)) (rest : List CommitRec),
        p.service.subs[i]? = some sub ∧ sub.lo = args.low ∧ sub.hi = args.hi ∧
        sub.commits p.service.engine.log = segs.flatten ++ rest ∧
        ((segs.flatten.flatMap sub.streamOf).map StreamEntry.seqno).Pairwise (· < ·) ∧
        oks.map SubItem.unpinned <+: args.shows sub.start (segs.flatten.flatMap sub.streamOf) ∧
        (p.stage = .receiving → oks.map SubItem.unpinned = args.shows sub.start
          (segs.flatten.flatMap sub.streamOf))) ∧
    ∀ id ∈ p.references, ∃ seq, p.Open id ∧ p.At id seq ∧ seq ∈ p.service.engine.db.snapshots ∧
      ∀ key, (∀ x q, p.service.engine.db.readView.getVersioned key seq = some x → x.repr = .ptr q →
          q.file ∉ p.service.lost) →
        p.service.db.getAtSeq key seq = .ok (stateAfter p.service.engine.log seq key) := by
  have hinv := Pump.inv_of_reachable h
  have hst := hinv.pinned.streams
  constructor
  · obtain ⟨oks, errs, hsent, hone, -, htold⟩ := hinv.sends.split
    have hitems := Pump.items_of_sent hsent
    refine ⟨oks, errs, hsent, hone, fun err herr => ?_, htold, fun m hm => ?_,
      fun hnone => ?_, fun i hi => ?_⟩
    · refine hinv.sends.granted err (Or.inl ?_)
      rw [hsent]
      exact List.mem_append_right _ (List.mem_map_of_mem herr)
    · exact hinv.pinned.items m (hitems ▸ List.mem_append_left _ hm)
    · exact (List.append_eq_nil_iff.mp (hitems.symm.trans (hinv.idle hnone).1)).1
    · obtain ⟨sub, hsub, ht⟩ := hinv.tracks i hi
      obtain ⟨segs, t, rest, n, hstands⟩ := hst.stands sub (List.mem_of_getElem? hsub)
      have hcommits := hstands.commits.trans (List.append_assoc _ _ _)
      have hpart : segs.flatten.Sublist (sub.commits p.service.engine.log) := by
        rw [hcommits]
        exact List.sublist_append_left _ _
      have hshown := ht.shown
      rw [hitems, hstands.delivered, List.map_append] at hshown
      refine ⟨sub, segs, t ++ rest, hsub, ht.range.1, ht.range.2, hcommits,
        pairwise_streamOf hst.files.engine.consistent (hpart.trans List.filter_sublist),
        (List.prefix_append _ _).trans hshown, fun hstage => ?_⟩
      -- between two batches nothing waits
      obtain ⟨told, hdelivered, hall⟩ := ht.exact (by rw [hstage]; rfl)
      rw [hstage] at hdelivered
      rw [hitems, hstage, ← (hdelivered.trans (List.append_nil told)), hstands.delivered] at hall
      simpa [PumpStage.item?] using hall
  · intro id hid
    obtain ⟨sn, hsn, hopen⟩ := hinv.pinned.refs id hid
    have hreg := hinv.pinned.registered hid ⟨sn, hsn, rfl⟩
    refine ⟨sn.seqno, ⟨sn, hsn, hopen⟩, ⟨sn, hsn, rfl⟩, hreg, fun key hkept => ?_⟩
    obtain ⟨hfloor, hvis⟩ := hst.files.engine.retained _ hreg
    have hsafe := (hinv.pinned.safe _ (hinv.pinned.mem_holding hid ⟨sn, hsn, rfl⟩)).1
    exact Service.getAtSeq_of_mapped hst.files.engine hfloor hvis fun x q hx hq =>
      (hst.files.readable (Or.inr ⟨hreg, hsafe⟩) hx hq).resolve_right (hkept x q hx hq)

/-- Every put of the store is reported. -/
def allPuts : PumpArgs := ⟨[], none, true, 50, .closed⟩

/-- A put is reported, its commit becomes the hold, and the key is overwritten. -/
def reportFirst : List PumpAction :=
  [.go, .go, .go,
    .serve (.engine (.enqueue (.batch [.put [byte 107] [byte 1]])) false),
      .serve (.engine (.group 1) false),
    .serve .publish, .go, .go, .go, .go, .go, .recv, .recv, .drop 1, .go, .reap 0,
    .serve (.engine (.enqueue (.batch [.put [byte 107] [byte 2]])) false),
      .serve (.engine (.group 1) false)]

/-- The snapshot of the first put reads its value after the second. -/
theorem pump_exact_overwritten : ∃ p, (pump (.default plainFormat) allPuts).Reachable p ∧
    p.items = [.marker 0 0, ⟨1, 1, .put, some [byte 107], some [byte 1], 1⟩] ∧
    (∃ (oks : List SubItem) (errs : List PumpError), p.sent = oks.map .ok ++ errs.map .error ∧
      errs.length ≤ 1) ∧
    ∃ seq, p.At 1 seq ∧ p.service.db.getAtSeq [byte 107] seq =
      .ok (stateAfter p.service.engine.log seq [byte 107]) := by
  have hrun : ((pump (.default plainFormat) allPuts).run reportFirst
      (pump (.default plainFormat) allPuts).init).any
      (fun p => decide (p.items = [.marker 0 0, ⟨1, 1, .put, some [byte 107], some [byte 1], 1⟩] ∧
        1 ∈ p.references ∧ p.service.lost = [])) = true := by
    decide +kernel
  obtain ⟨p, hreach, hitems, hid, hlost⟩ := System.exists_reachable hrun
  obtain ⟨⟨oks, errs, hsent, hone, -⟩, hheld⟩ := pump_exact hreach
  obtain ⟨seq, -, hat, -, hread⟩ := hheld 1 hid
  refine ⟨p, hreach, hitems, ⟨oks, errs, hsent, hone⟩, seq, hat, hread _ fun x q _ _ => ?_⟩
  rw [hlost]
  exact List.not_mem_nil

end Fluent31
