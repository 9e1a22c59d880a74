/-
Subscriptions deliver exactly the commits after their start.

* `stream_exact` — in every reachable state: what a subscription has delivered,
  that what it has taken resolves, and what follows a cut;
* `stream_cut_not_immediate` — a batch that was taken before the cut is still
  delivered after it.
-/
import Fluent31.Streams
import Mathlib.Data.List.Flatten

namespace Fluent31

open Mvcc
open Checks (mapM_eq_ok)

variable {opts : Options} {s s' : Service} {sub sub' : Subscription} {i : ℕ}

/-! ### One subscription in a step -/

/-- What a step within the process does to a subscription. -/
inductive Subscription.Moves (sub : Subscription) : Subscription → Prop
  | same : Moves sub sub
  | publish (base : ℕ) (es : List EncEntry) : Moves sub (sub.publish base es)
  | check (degraded : Bool) : sub.taken = [] → Moves sub (sub.check degraded)
  | drain : sub.checked = true → Moves sub sub.drain
  | deliver (out : List StreamEntry) : sub.taken ≠ [] → Moves sub (sub.deliver out)
  | kill : sub.taken ≠ [] → Moves sub sub.kill
  | close : sub.taken = [] → Moves sub sub.close

/-- The process goes on. -/
def ServiceAction.inProcess : ServiceAction → Bool
  | .reopen _ _ _ | .crashOpening _ => false
  | _ => true

/-- Setting one member moves that one and leaves the others. -/
theorem moves_set {subs : List Subscription} {j : ℕ} {u u' : Subscription}
    (hi : subs[i]? = some sub)
    (hj : subs[j]? = some u) (hmove : u.Moves u') : ∃ sub', (subs.set j u')[i]? = some sub' ∧
      sub.Moves sub' := by
  by_cases hij : j = i
  · subst hij
    obtain rfl := Option.some_inj.mp (hi.symm.trans hj)
    refine ⟨u', ?_, hmove⟩
    rw [List.getElem?_set_self (List.getElem?_eq_some_iff.mp hj).1]
  · exact ⟨sub, (List.getElem?_set_ne hij).trans hi, .same⟩

theorem moves_step (h : s.Streams) {act : ServiceAction} (hin : act.inProcess)
    (hs : s.step opts act = some s') (hi : s.subs[i]? = some sub) :
    ∃ sub', s'.subs[i]? = some sub' ∧ sub.Moves sub' := by
  cases Service.takes hs with
  | @publish r rest hpub =>
    refine ⟨sub.publish r.1 r.2, ?_, .publish r.1 r.2⟩
    rw [publishStream_eq h.active]
    show (s.subs.map fun u => u.publish r.1 r.2)[i]? = _
    rw [List.getElem?_map, hi]
    rfl
  | @subscribe lo hi' maxBytes e' start hphase hpub hstart he =>
    exact ⟨sub, (List.getElem?_append_left (List.getElem?_eq_some_iff.mp hi).1).trans hi, .same⟩
  | check hsub hclosed hchecked htaken => exact moves_set hi hsub (.check _ htaken)
  | drain hsub hclosed hchecked => exact moves_set hi hsub (.drain hchecked)
  | deliver hsub hclosed htaken hout he => exact moves_set hi hsub (.deliver _ htaken)
  | kill hsub hclosed htaken hout => exact moves_set hi hsub (.kill htaken)
  | close hsub hclosed hchecked htaken he => exact moves_set hi hsub (.close htaken)
  | reopen => exact absurd hin Bool.false_ne_true
  | crashOpening => exact absurd hin Bool.false_ne_true
  | _ => exact ⟨sub, hi, .same⟩

/-! ### After the cut -/

/-- A cut subscription that held `taken` when it had returned `events`: it still
holds them, or has returned them, and reports nothing but the cut. -/
def Subscription.AfterCut (taken : List RawEntry) (events : List StreamEvent) (sub : Subscription) :
    Prop :=
  sub.dropped = true ∧ ((sub.taken = taken ∧ taken ≠ [] ∧ sub.events = events) ∨
    sub.taken = [] ∧ ∃ k, sub.events = events ++ List.replicate k .lagged ∨
      taken ≠ [] ∧ ∃ out, sub.events = events ++ .batch out :: List.replicate k .lagged)

theorem afterCut_moves {taken : List RawEntry} {events : List StreamEvent}
    (h : sub.AfterCut taken events) (hchecked : sub.checked = true → sub.taken = [])
    (hcut : sub.dropped = true → sub.checked = true → sub.entries = []) (hmove : sub.Moves sub') :
    sub'.AfterCut taken events := by
  obtain ⟨hdropped, hstate⟩ := h
  cases hmove with
  | same => exact ⟨hdropped, hstate⟩
  -- a cut subscription takes no more records
  | publish base es =>
    unfold Subscription.publish
    rw [if_pos hdropped]
    split
    · exact ⟨hdropped, hstate⟩
    · exact ⟨hdropped, hstate⟩
  | check degraded htaken =>
    unfold Subscription.check
    rw [if_pos hdropped]
    refine ⟨hdropped, Or.inr ⟨htaken, ?_⟩⟩
    -- one `Lagged` more; what was taken is gone by now
    rcases hstate with ⟨heq, hne, -⟩ | ⟨-, k, hk | ⟨hne, out, hk⟩⟩
    · exact absurd (heq.symm.trans htaken) hne
    · refine ⟨k + 1, Or.inl ?_⟩
      show sub.events ++ [.lagged] = _
      rw [hk, List.append_assoc, List.replicate_succ']
    · refine ⟨k + 1, Or.inr ⟨hne, out, ?_⟩⟩
      show sub.events ++ [.lagged] = _
      rw [hk, List.append_assoc, List.cons_append, List.replicate_succ']
  | drain hck =>
    refine ⟨hdropped, Or.inr ⟨hcut hdropped hck, ?_⟩⟩
    rcases hstate with ⟨heq, hne, -⟩ | ⟨-, k, hk⟩
    · exact absurd (heq.symm.trans (hchecked hck)) hne
    · exact ⟨k, hk⟩
  | deliver out htaken =>
    refine ⟨hdropped, Or.inr ⟨rfl, 0, Or.inr ?_⟩⟩
    -- the batch in the resolver comes before the first `Lagged`
    rcases hstate with ⟨heq, hne, hev⟩ | ⟨hempty, -⟩
    · exact ⟨hne, out, congrArg (· ++ [StreamEvent.batch out]) hev⟩
    · exact absurd hempty htaken
  | kill htaken =>
    refine ⟨rfl, Or.inr ⟨rfl, 0, Or.inl ?_⟩⟩
    rcases hstate with ⟨-, -, hev⟩ | ⟨hempty, -⟩
    · exact hev.trans (List.append_nil _).symm
    · exact absurd hempty htaken
  | close htaken =>
    refine ⟨rfl, Or.inr ⟨htaken, ?_⟩⟩
    rcases hstate with ⟨heq, hne, -⟩ | ⟨-, hk⟩
    · exact absurd (heq.symm.trans htaken) hne
    · exact hk

/-- The service from a state it has reached. -/
def Service.onward (opts : Options) (s : Service) : System Service ServiceAction :=
  ⟨s, Service.step opts⟩

/-- **A cut stream stays cut** while the process lives. -/
theorem afterCut_of_reaches (h : s.Streams) (hi : s.subs[i]? = some sub)
    (hdropped : sub.dropped = true) (hr : (s.onward opts).Reaches (fun _ a => a.inProcess) s') :
    s'.Streams ∧ ∃ sub', s'.subs[i]? = some sub' ∧ sub'.AfterCut sub.taken sub.events := by
  have hinit : sub.AfterCut sub.taken sub.events := by
    refine ⟨hdropped, ?_⟩
    by_cases hempty : sub.taken = []
    · exact Or.inr ⟨hempty, 0, Or.inl (List.append_nil _).symm⟩
    · exact Or.inl ⟨rfl, hempty, rfl⟩
  refine hr.invariant (I := fun s' => s'.Streams ∧ ∃ sub', s'.subs[i]? = some sub' ∧
    sub'.AfterCut sub.taken sub.events) ⟨h, sub, hi, hinit⟩ ?_
  rintro s₁ s₂ act ⟨hst, sub₁, hi₁, hcut₁⟩ hin hs
  obtain ⟨sub₂, hi₂, hmove⟩ := moves_step hst hin hs hi₁
  obtain ⟨segs, t, rest, n, hstands⟩ := hst.stands sub₁ (List.mem_of_getElem? hi₁)
  exact ⟨streams_step hst hs, sub₂, hi₂, afterCut_moves hcut₁ hstands.checked hstands.cut hmove⟩

/-! ### What is delivered -/

/-- The delivered ops are numbered upwards. -/
theorem pairwise_streamOf {db : Db} {log : List CommitRec} {floor : ℕ} (h : Consistent db log floor)
    {cs : List CommitRec} (hsub : cs.Sublist log) :
    ((cs.flatMap sub.streamOf).map StreamEntry.seqno).Pairwise (· < ·) := by
  have hnumbered : ((cs.flatMap CommitRec.numbered).map Prod.snd).Pairwise (· < ·) :=
    List.pairwise_map.mpr ((pairwise_numbered h.encodes h.contiguous).sublist (hsub.flatMap _))
  refine hnumbered.sublist ?_
  rw [List.map_flatMap, List.map_flatMap]
  refine List.Sublist.flatMap_right cs fun c _ => ?_
  have hstream : c.stream.map StreamEntry.seqno = c.numbered.map Prod.snd := by
    unfold CommitRec.stream
    rw [List.map_map]
    rfl
  exact hstream ▸ List.filter_sublist.map _

/-- A taken op of an open subscription is not one whose version is unread. -/
theorem Service.Streams.taken_file (h : s.Streams) (hsub : sub ∈ s.subs)
    (hopen : sub.closed = false) {segs : List (List CommitRec)} {t rest : List CommitRec} {n : ℕ}
    (hstands : sub.Stands s.engine.log s.publishing segs t rest n) {c : CommitRec}
    (hc : c ∈ t ++ rest)
    {r : RawEntry} (hr : r ∈ rawEntries c.base c.entries) {p : ValuePtr} (hp : r.repr = .ptr p) :
    p.file ∈ s.vlogs ∨ p.file ∈ s.lost := by
  obtain ⟨x, hx, rfl⟩ := mem_rawEntries hr
  have hlog := hstands.mem_log hc
  rcases h.files.held x (mem_history_of_log hlog hx) p hp with hfile | hfile | ⟨f, -, -, hlt, hle⟩
  · exact Or.inl hfile
  · exact Or.inr hfile
  · -- the pin is below the op, and no unread version is above a safe seqno
    exfalso
    have hpin := (h.safe sub hsub hopen).1
    have hbase := hstands.pinned hopen c hc
    have hseq := (seq_of_mem_versionsFrom hx).1
    change x.seq < f.seq at hlt
    change f.seq ≤ s.released at hle
    omega

/-- What a call has taken resolves, unless a failed head rotation lost a value. -/
theorem deliver_enabled (h : s.Streams) (hi : s.subs[i]? = some sub) (hopen : sub.closed = false)
    (htaken : sub.taken ≠ []) (hkept : ∀ r ∈ sub.taken, ∀ p, r.repr = .ptr p → p.file ∉ s.lost) :
    ∃ s' out, (service opts).step s (.deliver i) = some s' ∧
      s'.subs[i]? = some (sub.deliver out) := by
  have hmem := List.mem_of_getElem? hi
  obtain ⟨segs, t, rest, n, hstands⟩ := h.stands sub hmem
  have hresolve : ∀ r ∈ sub.taken, r.resolve s.db = .ok (r.streamed s.engine.db) := by
    intro r hr
    obtain ⟨c, hc, hraw⟩ := hstands.mem_taken hr
    have hc := List.mem_append_left rest hc
    refine h.files.resolve_eq (hstands.mem_log hc) hraw fun p hp => ?_
    exact (h.taken_file hmem hopen hstands hc hraw hp).resolve_right (hkept r hr p hp)
  have hpin : sub.pinned ∈ s.engine.handles := by
    have hpins : sub.pinned ∈ s.pins :=
      List.mem_map_of_mem (List.mem_filter.mpr ⟨hmem, by simp [hopen]⟩)
    exact List.count_pos_iff.mp (lt_of_lt_of_le (List.count_pos_iff.mpr hpins) (h.pins sub.pinned))
  have hbounds : sub.pinned ≤ sub.lastTaken ∧ sub.lastTaken ≤ s.engine.db.visibleSeqno := by
    obtain ⟨r, hr, heq⟩ := Subscription.exists_lastTaken htaken
    obtain ⟨c, hc, hraw⟩ := hstands.mem_taken hr
    have hc := List.mem_append_left rest hc
    obtain ⟨x, hx, rfl⟩ := mem_rawEntries hraw
    have hbase := hstands.pinned hopen c hc
    have hseq := (seq_of_mem_versionsFrom hx).1
    have hvisible :=
      h.files.engine.consistent.history_le (mem_history_of_log (hstands.mem_log hc) hx)
    rw [heq]
    exact ⟨le_of_lt (lt_of_lt_of_le hbase hseq), hvisible⟩
  obtain ⟨e', he⟩ : ∃ e', s.engine.step opts (.advance sub.pinned sub.lastTaken) = some e' :=
    ⟨_, if_pos ⟨hpin, hbounds⟩⟩
  refine ⟨{ s.setSub i (sub.deliver
    (sub.taken.map (RawEntry.streamed s.engine.db))) with engine := e' }, _, ?_,
    List.getElem?_set_self (List.getElem?_eq_some_iff.mp hi).1⟩
  show Option.bind _ _ = _
  rw [hi, Option.bind_some, if_pos ⟨hopen, htaken⟩, mapM_eq_ok hresolve]
  show Option.map _ (s.engine.step opts _) = _
  rw [he]
  rfl

/-- **Subscriptions.**  In every reachable state, and so after every
interleaving: a subscription has delivered, one batch for each list of whole
commits, the in-range ops of the first commits after its start, and while it is
not cut there is nothing else but what is queued, taken or on its way; what it
has taken resolves, unless a failed head rotation lost a value; and once it is
cut, calls report the cut, and at most the batch that was taken before is
returned. -/
theorem stream_exact (h : (service opts).Reachable s) (hi : s.subs[i]? = some sub) :
    (∃ (segs : List (List CommitRec)) (rest : List CommitRec) (n : ℕ),
      sub.commits s.engine.log = segs.flatten ++ rest ∧
      sub.events = segs.map (fun seg => .batch (seg.flatMap sub.streamOf)) ++
        List.replicate n .lagged ∧
      ((segs.flatten.flatMap sub.streamOf).map StreamEntry.seqno).Pairwise (· < ·) ∧
      (sub.dropped = false → n = 0 ∧ (s.publishing = [] → sub.entries = [] → sub.taken = [] →
        rest.flatMap sub.streamOf = []))) ∧
    (sub.closed = false → sub.taken ≠ [] →
      (∀ r ∈ sub.taken, ∀ p, r.repr = .ptr p → p.file ∉ s.lost) →
      ∃ s' out, (service opts).step s (.deliver i) = some s' ∧
        s'.subs[i]? = some (sub.deliver out)) ∧
    (sub.dropped = true →
      (sub.closed = false → sub.checked = false → sub.taken = [] →
        ∃ s', (service opts).step s (.check i) = some s' ∧
          s'.subs[i]? = some { sub with events := sub.events ++ [.lagged] }) ∧
      ∀ s', (s.onward opts).Reaches (fun _ a => a.inProcess) s' →
        ∃ sub', s'.subs[i]? = some sub' ∧ sub'.AfterCut sub.taken sub.events) := by
  have hst : s.Streams := h.invariant (streams_init opts) fun hi _ hs => streams_step hi hs
  have hmem := List.mem_of_getElem? hi
  obtain ⟨segs, t, rest, n, hstands⟩ := hst.stands sub hmem
  refine ⟨⟨segs, t ++ rest, n, ?_, hstands.events, ?_, fun hlive =>
    ⟨?_, fun hpub hentries htaken => ?_⟩⟩,
    fun hopen htaken hkept => deliver_enabled hst hi hopen htaken hkept, fun hdropped =>
      ⟨?_, fun s' hs' =>
      (afterCut_of_reaches hst hi hdropped hs').2⟩⟩
  · rw [hstands.commits, List.append_assoc]
  · have hpart : segs.flatten.Sublist (sub.commits s.engine.log) := by
      rw [hstands.commits, List.append_assoc]
      exact List.sublist_append_left _ _
    exact pairwise_streamOf hst.files.engine.consistent (hpart.trans List.filter_sublist)
  · by_contra hne
    exact absurd (hlive.symm.trans (hstands.lagged hne).1) Bool.false_ne_true
  · -- nothing is queued, taken or on its way: the hits of the other commits are empty
    obtain ⟨-, q, tail, rfl, hq, htail⟩ := hstands.live hlive
    obtain rfl : tail = [] := List.map_eq_nil_iff.mp (htail.trans hpub)
    have hhits : (t ++ (q ++ [])).flatMap sub.hitsOf = [] := by
      rw [List.append_nil, List.flatMap_append, ← hstands.taken, ← hq, htaken, hentries]
      rfl
    have hmap := congrArg (List.map (RawEntry.streamed s.engine.db)) hhits
    rw [List.map_flatMap] at hmap
    refine (List.flatMap_congr fun c hc => ?_).trans hmap
    exact (map_hitsOf hst.files.engine.consistent (hstands.mem_log hc)).symm
  · intro hopen hchecked htaken
    have hstep : (service opts).step s (.check i) = some (s.setSub i (sub.check s.degraded)) := by
      show Option.bind _ _ = _
      rw [hi, Option.bind_some]
      exact if_pos ⟨hopen, hchecked, htaken⟩
    refine ⟨_, hstep, ?_⟩
    rw [show sub.check s.degraded = { sub with events := sub.events ++ [.lagged] }
      from if_pos hdropped]
    exact List.getElem?_set_self (List.getElem?_eq_some_iff.mp hi).1

/-- A subscription receives one commit, and takes it from its queue. -/
def takeFirst : List ServiceAction :=
  [.subscribe [] none 50,
    .engine (.enqueue (.batch [.put [byte 107] [byte 1]])) false,
      .engine (.group 1) false, .publish,
    .check 0, .drain 0]

/-- The first commit is delivered. -/
theorem stream_exact_first :
    ∃ s sub, (service (.default plainFormat)).Reachable s ∧ s.subs[0]? = some sub ∧
    sub.events = [.batch [⟨[byte 107], 1, 1, .put, some [byte 1]⟩]] ∧
    ∃ (segs : List (List CommitRec)) (rest : List CommitRec) (n : ℕ),
      sub.commits s.engine.log = segs.flatten ++ rest ∧
      sub.events = segs.map (fun seg => .batch (seg.flatMap sub.streamOf)) ++
        List.replicate n .lagged := by
  have hrun : ((service (.default plainFormat)).run (takeFirst ++ [.deliver 0])
      (service (.default plainFormat)).init).any (fun s => decide (∃ sub ∈ s.subs[0]?.toList,
        sub.events = [.batch [⟨[byte 107], 1, 1, .put, some [byte 1]⟩]])) = true := by
    decide +kernel
  obtain ⟨s, hreach, sub, hsub, hevents⟩ := System.exists_reachable hrun
  have hi := Option.mem_toList.mp hsub
  obtain ⟨⟨segs, rest, n, hcommits, hstream, -⟩, -⟩ := stream_exact hreach hi
  exact ⟨s, sub, hreach, hi, hevents, segs, rest, n, hcommits, hstream⟩

/-- What an event carries. -/
def StreamEvent.entries : StreamEvent → List StreamEntry
  | batch out => out
  | lagged => []

/-- **A cut does not stop a call that has taken its batch**: the queue
overflows while the call resolves values, and the batch is returned after ops
have been dropped. -/
theorem stream_cut_not_immediate :
    ¬ ∀ (opts : Options) (s s' : Service) (i : ℕ) (sub sub' : Subscription),
    (service opts).Reachable s → s.subs[i]? = some sub →
    (sub.dropped = true ∧ sub.closed = false ∧ ∃ c ∈ sub.commits s.engine.log, ∃ y ∈ sub.streamOf c,
      y.seqno ∉ (sub.entries ++ sub.taken).map RawEntry.seqno ∧
      y ∉ sub.events.flatMap StreamEvent.entries) →
    (s.onward opts).Reaches (fun _ a => a.inProcess) s' → s'.subs[i]? = some sub' →
    ∀ ev ∈ sub'.events.drop sub.events.length, ev = .lagged := by
  intro hall
  have hrun : ((service (.default plainFormat)).run (takeFirst ++
      [.engine (.enqueue (.batch [.put [byte 108] [byte 2], .put [byte 109] [byte 3]])) false,
        .engine (.group 1) false, .publish]) (service (.default plainFormat)).init).any
      (fun s => decide (∃ sub ∈ s.subs[0]?.toList,
        (sub.dropped = true ∧ sub.closed = false ∧ ∃ c ∈ sub.commits s.engine.log,
          ∃ y ∈ sub.streamOf c, y.seqno ∉ (sub.entries ++ sub.taken).map RawEntry.seqno ∧
            y ∉ sub.events.flatMap StreamEvent.entries) ∧
        ∃ s' ∈ ((service (.default plainFormat)).step s (.deliver 0)).toList,
          ∃ sub' ∈ s'.subs[0]?.toList,
          ∃ ev ∈ sub'.events.drop sub.events.length, ev ≠ .lagged)) = true := by
    decide +kernel
  obtain ⟨s, hreach, sub, hsub, hcut, s', hs', sub', hsub', ev, hev, hne⟩ :=
    System.exists_reachable hrun
  have hgo : (s.onward (.default plainFormat)).Reaches (fun _ a => a.inProcess) s' :=
    .step .init rfl (Option.mem_toList.mp hs')
  exact hne (hall _ s s' 0 sub sub' hreach (Option.mem_toList.mp hsub) hcut hgo
    (Option.mem_toList.mp hsub') ev hev)

end Fluent31
