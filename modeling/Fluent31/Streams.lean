/-
What a subscription delivers.

A subscription stands somewhere in the log: the commits after its start are
those it has delivered, batch by batch, those it has taken from its queue, and
those still to come; while it is not cut, the latter are in its queue or on
their way to it.

* `Subscription.Stands` — this, with one lemma for each thing the publisher or
  the consumer does;
* `Service.Streams` — every subscription stands somewhere, and its pin is
  registered and safe from the deletion gates;
* `streams_step` — every action keeps it.
-/
import Fluent31.Lib.MapM
import Fluent31.VlogFiles

namespace Fluent31

open Mvcc
open Checks (mapM_ok)

variable {opts : Options} {s s' : Service} {sub : Subscription} {log recs : List CommitRec}

namespace Subscription

variable (sub)

/-- The commits after the start. -/
def commits (log : List CommitRec) : List CommitRec :=
  log.filter fun c => decide (sub.start < c.base)

/-- The published in-range ops of a commit. -/
def hitsOf (c : CommitRec) : List RawEntry := sub.hits c.base c.entries

/-- The in-range ops of a commit with the values they wrote. -/
def streamOf (c : CommitRec) : List StreamEntry := c.stream.filter fun x => sub.inRange x.key

/-- The subscription has delivered `segs`, one batch each, has taken `t`, and
`rest` is still to come; `n` calls have reported the cut. -/
structure Stands (log : List CommitRec) (publishing : List (ℕ × List EncEntry))
    (segs : List (List CommitRec)) (t rest : List CommitRec) (n : ℕ) : Prop where
  commits : sub.commits log = segs.flatten ++ t ++ rest
  events : sub.events = segs.map (fun seg => .batch (seg.flatMap sub.streamOf)) ++
    List.replicate n .lagged
  taken : sub.taken = t.flatMap sub.hitsOf
  pinned : sub.closed = false → ∀ c ∈ t ++ rest, sub.pinned < c.base
  lagged : n ≠ 0 → sub.dropped = true ∧ sub.taken = []
  checked : sub.checked = true → sub.taken = []
  cut : sub.dropped = true → sub.checked = true → sub.entries = []
  live : sub.dropped = false → sub.attached = true ∧ ∃ q tail, rest = q ++ tail ∧
    sub.entries = q.flatMap sub.hitsOf ∧ tail.map CommitRec.batch = publishing

variable {sub} {publishing : List (ℕ × List EncEntry)} {segs : List (List CommitRec)}
    {t rest : List CommitRec}
  {n : ℕ}

/-- A new subscription has everything to come. -/
theorem stands_new (lo : Bytes) (hi : Option Bytes) (maxBytes : ℕ) {start : ℕ}
    (h : ∀ c ∈ log, c.base ≤ start) : (new lo hi maxBytes start).Stands log [] [] [] [] 0 where
  commits := by
    show log.filter (fun c => decide (start < c.base)) = []
    rw [List.filter_eq_nil_iff]
    intro c hc
    have := h c hc
    simp only [decide_eq_true_eq]
    omega
  events := rfl
  taken := rfl
  pinned := fun _ c hc => absurd hc List.not_mem_nil
  lagged := fun hn => absurd rfl hn
  checked := fun _ => rfl
  cut := fun _ _ => rfl
  live := fun _ => ⟨rfl, [], [], rfl, rfl, rfl⟩

namespace Stands

/-- The log grows. -/
theorem append (h : sub.Stands log publishing segs t rest n)
    (hstart : ∀ c ∈ recs, sub.start < c.base)
    (hpin : sub.closed = false → ∀ c ∈ recs, sub.pinned < c.base) :
    sub.Stands (log ++ recs) (publishing ++ recs.map CommitRec.batch) segs t (rest ++ recs) n :=
  { h with
    commits := by
      have hnew : recs.filter (fun c => decide (sub.start < c.base)) = recs :=
        List.filter_eq_self.mpr fun c hc => decide_eq_true (hstart c hc)
      unfold Subscription.commits
      rw [List.filter_append, hnew, ← List.append_assoc]
      exact congrArg (· ++ recs) h.commits
    pinned := fun hopen c hc => by
      rw [← List.append_assoc] at hc
      rcases List.mem_append.mp hc with hc | hc
      · exact h.pinned hopen c hc
      · exact hpin hopen c hc
    live := fun hlive => by
      obtain ⟨hattached, q, tail, rfl, hentries, hpub⟩ := h.live hlive
      refine ⟨hattached, q, tail ++ recs, List.append_assoc _ _ _, hentries, ?_⟩
      rw [List.map_append, hpub] }

/-- One pass of the publisher. -/
theorem publish {r : ℕ × List EncEntry} (h : sub.Stands log (r :: publishing) segs t rest n) :
    (sub.publish r.1 r.2).Stands log publishing segs t rest n := by
  unfold Subscription.publish
  by_cases hattached : sub.attached = true
  · rw [if_pos hattached]
    by_cases hdropped : sub.dropped = true
    · rw [if_pos hdropped]
      exact { h with live := fun hlive => absurd (hdropped.symm.trans hlive) (by simp) }
    · have hlive := Bool.eq_false_iff.mpr hdropped
      obtain ⟨-, q, tail, rfl, hentries, hpub⟩ := h.live hlive
      obtain ⟨c, tail, rfl, rfl, hrest⟩ := List.map_eq_cons_iff.mp hpub
      have hn : n = 0 := by
        by_contra hne
        exact hdropped (h.lagged hne).1
      rw [if_neg hdropped]
      unfold offer
      simp only
      split
      · -- the buffer is full: everything buffered is gone
        exact
          { h with
            lagged := fun hne => absurd hn hne
            cut := fun _ _ => rfl
            live := fun hc => absurd hc (by simp) }
      · exact
          { h with
            lagged := fun hne => absurd hn hne
            cut := fun hc => absurd hc hdropped
            live := fun _ => by
              refine ⟨hattached, q ++ [c], tail, by simp, ?_, hrest⟩
              show sub.entries ++ sub.hits c.base c.entries = _
              rw [List.flatMap_append, hentries, List.flatMap_singleton]
              rfl }
  · rw [if_neg hattached]
    exact { h with live := fun hlive => absurd (h.live hlive).1 hattached }

/-- The start of a call. -/
theorem check (h : sub.Stands log publishing segs t rest n) (degraded : Bool)
    (htaken : sub.taken = []) :
    ∃ m, (sub.check degraded).Stands log publishing segs t rest m := by
  unfold Subscription.check
  by_cases hdropped : sub.dropped = true
  · rw [if_pos hdropped]
    refine ⟨n + 1, { h with
      events := ?_
      lagged := fun _ => ⟨hdropped, htaken⟩ }⟩
    show sub.events ++ [.lagged] = _
    rw [h.events, List.append_assoc, List.replicate_succ']
    rfl
  · rw [if_neg hdropped]
    split
    · exact ⟨n, h⟩
    · exact ⟨n, { h with
        checked := fun _ => htaken
        cut := fun hc => absurd hc hdropped }⟩

/-- A call takes all that is buffered. -/
theorem drain (h : sub.Stands log publishing segs t rest n) (hchecked : sub.checked = true) :
    ∃ t' rest', sub.drain.Stands log publishing segs t' rest' n := by
  have hempty : t.flatMap sub.hitsOf = [] := h.taken.symm.trans (h.checked hchecked)
  by_cases hdropped : sub.dropped = true
  · refine ⟨t, rest, { h with
      taken := (h.cut hdropped hchecked).trans hempty.symm
      lagged := fun hne => ⟨hdropped, h.cut hdropped hchecked⟩
      checked := fun hc => absurd hc (by simp [Subscription.drain])
      cut := fun _ _ => rfl
      live := fun hlive => absurd (hdropped.symm.trans hlive) (by simp) }⟩
  · have hlive := Bool.eq_false_iff.mpr hdropped
    obtain ⟨hattached, q, tail, rfl, hentries, hpub⟩ := h.live hlive
    refine ⟨t ++ q, tail, { h with
      commits := ?_
      taken := ?_
      pinned := fun hopen c hc => h.pinned hopen c (List.append_assoc t q tail ▸ hc)
      lagged := fun hne => absurd (h.lagged hne).1 hdropped
      checked := fun hc => absurd hc (by simp [Subscription.drain])
      cut := fun _ _ => rfl
      live := fun _ => ⟨hattached, [], tail, rfl, rfl, hpub⟩ }⟩
    · refine h.commits.trans ?_
      simp only [List.append_assoc]
    · show sub.entries = _
      rw [List.flatMap_append, hentries]
      exact (congrArg (· ++ q.flatMap sub.hitsOf) hempty).symm

/-- A taken entry did not resolve. -/
theorem kill (h : sub.Stands log publishing segs t rest n) (htaken : sub.taken ≠ []) :
    sub.kill.Stands log publishing segs [] (t ++ rest) n :=
  { h with
    commits := by
      refine h.commits.trans ?_
      simp only [List.append_assoc, List.nil_append]
    taken := rfl
    lagged := fun hne => absurd (h.lagged hne).2 htaken
    checked := fun _ => rfl
    cut := fun _ hchecked => absurd (h.checked hchecked) htaken
    live := fun hlive => absurd hlive (by simp [Subscription.kill]) }

theorem close (h : sub.Stands log publishing segs t rest n) (hchecked : sub.checked = false) :
    sub.close.Stands log publishing segs t rest n :=
  { h with
    pinned := fun hopen => absurd hopen (by simp [Subscription.close])
    lagged := fun hne => ⟨rfl, (h.lagged hne).2⟩
    cut := fun _ hc => absurd (hchecked.symm.trans hc) (by simp)
    live := fun hlive => absurd hlive (by simp [Subscription.close]) }

/-- The taken batch is delivered. -/
theorem deliver (h : sub.Stands log publishing segs t rest n) (htaken : sub.taken ≠ [])
    (hlast : ∀ c ∈ rest, sub.lastTaken < c.base) :
    (sub.deliver (t.flatMap sub.streamOf)).Stands log publishing (segs ++ [t]) [] rest n := by
  have hn : n = 0 := by
    by_contra hne
    exact htaken (h.lagged hne).2
  exact
    { h with
      commits := by
        refine h.commits.trans ?_
        simp only [List.flatten_append, List.flatten_cons, List.flatten_nil, List.append_nil]
      events := by
        show sub.events ++ [.batch (t.flatMap sub.streamOf)] = _
        rw [h.events, hn, List.map_append]
        simp only [List.replicate_zero, List.append_nil, List.map_cons, List.map_nil]
        rfl
      taken := rfl
      pinned := fun _ => hlast
      lagged := fun hne => absurd hn hne
      checked := fun _ => rfl
      cut := fun _ hchecked => absurd (h.checked hchecked) htaken }

end Stands

end Subscription

/-! ### Resolution -/

/-- A published op with the value it wrote. -/
def RawEntry.streamed (db : Db) (r : RawEntry) : StreamEntry :=
  ⟨r.key, r.seqno, r.commitSeqno, r.kind, db.content r.key r.repr⟩

theorem mem_rawEntries {base : ℕ} {es : List EncEntry} {r : RawEntry} (h : r ∈ rawEntries base es) :
    ∃ x ∈ versionsFrom base es, r = ⟨x.ukey, x.seq, base + es.length - 1, x.kind, x.repr⟩ := by
  obtain ⟨x, hx, rfl⟩ := List.mem_map.mp h
  exact ⟨x, hx, rfl⟩

theorem mem_history_of_log {c : CommitRec} (hc : c ∈ log) {x : Entry}
    (hx : x ∈ versionsFrom c.base c.entries) : x ∈ historyOf log :=
  List.mem_flatMap.mpr ⟨c.batch, List.mem_map_of_mem hc, hx⟩

/-- The hits of a commit, resolved, are what is to be delivered of it. -/
theorem map_hitsOf {db : Db} {floor : ℕ} (h : Consistent db log floor) {c : CommitRec}
    (hc : c ∈ log) :
    (sub.hitsOf c).map (RawEntry.streamed db) = sub.streamOf c := by
  unfold Subscription.streamOf Subscription.hitsOf Subscription.hits
  rw [← streamBatch_eq h hc]
  unfold Db.streamBatch rawEntries CommitRec.batch
  rw [List.filter_map, List.filter_map, List.map_map]
  rfl

namespace Service.Files

/-- A published op whose value lies in a resolvable file resolves. -/
theorem resolve_eq (h : s.Files) {c : CommitRec} (hc : c ∈ s.engine.log) {r : RawEntry}
    (hr : r ∈ rawEntries c.base c.entries) (hfile : ∀ p, r.repr = .ptr p → p.file ∈ s.vlogs) :
    r.resolve s.db = .ok (r.streamed s.engine.db) := by
  obtain ⟨x, hx, rfl⟩ := mem_rawEntries hr
  have hcons := h.engine.consistent
  obtain ⟨q, -, -, -, hkind, hholds⟩ := mem_historyOf hcons.encodes (mem_history_of_log hc hx)
  have hcontent := Fluent31.content_eq hcons.wf hholds
  unfold RawEntry.resolve RawEntry.streamed
  simp only at hfile ⊢
  rw [hcontent, ← hkind]
  cases hop : q.1 with
  | put key w =>
    rw [hop] at hholds
    have hresolve : s.db.resolveRepr x.ukey x.repr = .ok w := by
      cases hrepr : x.repr with
      | empty =>
        rw [hrepr] at hholds
        exact absurd hholds (by simp [Vlog.Holds, BatchOp.value?])
      | inline v =>
        rw [hrepr] at hholds
        obtain rfl : w = v := Option.some_inj.mp hholds
        rfl
      | ptr p =>
        rw [hrepr] at hholds
        obtain ⟨v, hv, hmem⟩ := hholds
        obtain rfl : w = v := Option.some_inj.mp hv
        exact (if_pos (hfile p hrepr)).trans (hcons.wf.vlog.readValue_eq hmem)
    simp only [BatchOp.kind, hresolve]
    rfl
  | delete key => rfl

/-- Whatever an op resolves to is what it wrote. -/
theorem resolve_ok (h : s.Files) {c : CommitRec} (hc : c ∈ s.engine.log) {r : RawEntry}
    (hr : r ∈ rawEntries c.base c.entries) {y : StreamEntry} (hy : r.resolve s.db = .ok y) :
    y = r.streamed s.engine.db := by
  by_cases hfile : ∀ p, r.repr = .ptr p → p.file ∈ s.vlogs
  · rw [h.resolve_eq hc hr hfile] at hy
    exact (Except.ok.inj hy).symm
  · exfalso
    simp only [not_forall] at hfile
    obtain ⟨p, hp, hout⟩ := hfile
    obtain ⟨x, hx, rfl⟩ := mem_rawEntries hr
    have hput := h.engine.consistent.put_of_ptr (mem_history_of_log hc hx) hp
    have hfail : s.db.resolveRepr x.ukey (.ptr p) =
        .error (.corruption "pointer into unknown vlog file") :=
      if_neg hout
    unfold RawEntry.resolve at hy
    simp only [hput, show x.repr = .ptr p from hp, hfail] at hy
    exact absurd hy (by simp [Except.map])

end Service.Files

/-! ### The order of the log -/

theorem Contiguous.pairwise_base {xs : List (ℕ × List EncEntry)} {n m : ℕ} (h : Contiguous n xs m) :
    xs.Pairwise fun r r' => r.1 + r.2.length ≤ r'.1 := by
  induction xs generalizing n with
  | nil => exact List.Pairwise.nil
  | cons r xs ih =>
    obtain ⟨base, es⟩ := r
    obtain ⟨rfl, -, hrest⟩ := h
    exact List.pairwise_cons.mpr ⟨fun r' hr' => (hrest.mem hr').1, ih hrest⟩

/-- A commit ends before a later one begins. -/
theorem pairwise_base {db : Db} {floor : ℕ} (h : Consistent db log floor) :
    log.Pairwise fun c c' => c.base + c.entries.length ≤ c'.base :=
  List.pairwise_map.mp h.contiguous.pairwise_base

theorem Subscription.exists_lastTaken (htaken : sub.taken ≠ []) :
    ∃ r ∈ sub.taken, sub.lastTaken = r.seqno := by
  refine ⟨sub.taken.getLast htaken, List.getLast_mem htaken, ?_⟩
  unfold Subscription.lastTaken
  rw [List.getLast?_eq_some_getLast htaken]
  rfl

/-- What is taken last lies before every commit still to come. -/
theorem Subscription.Stands.last_lt {db : Db} {floor : ℕ} (h : Consistent db log floor)
    {publishing : List (ℕ × List EncEntry)} {segs : List (List CommitRec)}
    {t rest : List CommitRec} {n : ℕ}
    (hs : sub.Stands log publishing segs t rest n) (htaken : sub.taken ≠ []) :
    ∀ c ∈ rest, sub.lastTaken < c.base := by
  intro c hc
  obtain ⟨r, hmem, heq⟩ := Subscription.exists_lastTaken htaken
  rw [heq]
  rw [hs.taken] at hmem
  obtain ⟨c', hc', hr⟩ := List.mem_flatMap.mp hmem
  obtain ⟨x, hx, rfl⟩ := mem_rawEntries (List.mem_of_mem_filter hr)
  have hpair := (pairwise_base h).sublist
    (List.filter_sublist (p := fun c => decide (sub.start < c.base)))
  have hpair' : (segs.flatten ++ t ++ rest).Pairwise fun c c' =>
      c.base + c.entries.length ≤ c'.base :=
    hs.commits ▸ hpair
  have hle := (List.pairwise_append.mp hpair').2.2 c' (List.mem_append_right _ hc') c hc
  exact lt_of_lt_of_le (seq_of_mem_versionsFrom hx).2 hle

/-- What is taken or to come is in the log. -/
theorem Subscription.Stands.mem_log {publishing : List (ℕ × List EncEntry)}
    {segs : List (List CommitRec)}
    {t rest : List CommitRec} {n : ℕ} (hs : sub.Stands log publishing segs t rest n) {c : CommitRec}
    (hc : c ∈ t ++ rest) : c ∈ log := by
  have hmem : c ∈ sub.commits log := by
    rw [hs.commits, List.append_assoc]
    exact List.mem_append_right _ hc
  exact List.mem_of_mem_filter hmem

/-- A taken op is one of a commit that was taken. -/
theorem Subscription.Stands.mem_taken {publishing : List (ℕ × List EncEntry)}
    {segs : List (List CommitRec)}
    {t rest : List CommitRec} {n : ℕ} (hs : sub.Stands log publishing segs t rest n) {r : RawEntry}
    (hr : r ∈ sub.taken) : ∃ c ∈ t, r ∈ rawEntries c.base c.entries := by
  rw [hs.taken] at hr
  obtain ⟨c, hc, hr⟩ := List.mem_flatMap.mp hr
  exact ⟨c, hc, List.mem_of_mem_filter hr⟩

theorem Subscription.Stands.map_taken {db : Db} {floor : ℕ} (h : Consistent db log floor)
    {publishing : List (ℕ × List EncEntry)} {segs : List (List CommitRec)}
    {t rest : List CommitRec} {n : ℕ}
    (hs : sub.Stands log publishing segs t rest n) :
    sub.taken.map (RawEntry.streamed db) = t.flatMap sub.streamOf := by
  rw [hs.taken, List.map_flatMap]
  exact List.flatMap_congr fun c hc => map_hitsOf h (hs.mem_log (List.mem_append_left _ hc))

/-! ### The invariant -/

structure Service.Streams (s : Service) : Prop where
  files : s.Files
  active : s.subsActive = s.subs.any Subscription.attached
  pins : ∀ seq, s.pins.count seq ≤ s.engine.handles.count seq
  start_le : ∀ sub ∈ s.subs, sub.start ≤ s.engine.db.visibleSeqno
  stands : ∀ sub ∈ s.subs, ∃ segs t rest n, sub.Stands s.engine.log s.publishing segs t rest n
  safe : ∀ sub ∈ s.subs, sub.closed = false → s.Safe sub.pinned

/-- One member of a list changes. -/
theorem exists_set {α : Type} {l : List α} {i : ℕ} {a : α} (h : l[i]? = some a) :
    ∃ l₁ l₂, l = l₁ ++ a :: l₂ ∧ ∀ b, l.set i b = l₁ ++ b :: l₂ := by
  obtain ⟨hlt, rfl⟩ := List.getElem?_eq_some_iff.mp h
  refine ⟨l.take i, l.drop (i + 1), ?_, fun b => List.set_eq_take_append_cons_drop.trans
    (if_pos hlt)⟩
  rw [List.getElem_cons_drop, List.take_append_drop]

namespace Service

/-- What one subscription contributes to the pins. -/
theorem count_pins_set {i : ℕ} (hi : s.subs[i]? = some sub) (sub' : Subscription) (seq : ℕ) :
    (s.setSub i sub').pins.count seq + (if sub.closed = false ∧ sub.pinned = seq then 1 else 0) =
      s.pins.count seq + (if sub'.closed = false ∧ sub'.pinned = seq then 1 else 0) := by
  obtain ⟨l₁, l₂, hsubs, hset⟩ := exists_set hi
  have hone : ∀ u : Subscription,
      (([u].filter fun v => !v.closed).map Subscription.pinned).count seq =
      if u.closed = false ∧ u.pinned = seq then 1 else 0 := by
    intro u
    cases hclosed : u.closed <;> simp [hclosed, List.count_singleton]
  have hsplit : ∀ u : Subscription, (((l₁ ++ u :: l₂).filter fun v => !v.closed).map
      Subscription.pinned).count seq =
      ((l₁.filter fun v => !v.closed).map Subscription.pinned).count seq +
        ((if u.closed = false ∧ u.pinned = seq then 1 else 0) +
          ((l₂.filter fun v => !v.closed).map Subscription.pinned).count seq) := by
    intro u
    rw [show l₁ ++ u :: l₂ = l₁ ++ ([u] ++ l₂) from rfl, List.filter_append, List.filter_append,
      List.map_append, List.map_append, List.count_append, List.count_append, hone]
  unfold pins setSub
  rw [hset, hsubs, hsplit, hsplit]
  omega

namespace Streams

/-- An open subscription's pin is registered. -/
theorem pinned_mem (h : s.Streams) (hsub : sub ∈ s.subs) (hopen : sub.closed = false) :
    sub.pinned ∈ s.engine.db.snapshots := by
  have hpin : sub.pinned ∈ s.pins :=
    List.mem_map_of_mem (List.mem_filter.mpr ⟨hsub, by simp [hopen]⟩)
  have hhandle := lt_of_lt_of_le (List.count_pos_iff.mpr hpin) (h.pins sub.pinned)
  exact h.files.engine.snapshots.mem_iff.mpr
    (List.mem_append_left _ (List.count_pos_iff.mp hhandle))

variable {a : Action} {e' : Engine}

/-- The engine moves. -/
theorem move {fault : Bool} (h : s.Streams) (hmove : Moved a s.engine e' recs) (hinv : e'.Inv)
    (hfree : ∀ seq ∈ a.consumes, s.Free seq) : (s.moved e' fault).Streams := by
  have hpublishing : (s.moved e' fault).publishing = s.publishing ++ recs.map CommitRec.batch := by
    show s.publishing ++ e'.db.published.drop s.engine.db.published.length = _
    rw [hmove.published, List.drop_left]
  have hbase : ∀ c ∈ recs, s.engine.db.visibleSeqno < c.base :=
    h.files.engine.consistent.contiguous.split_log (hmove.log ▸ hinv.consistent.contiguous)
  refine ⟨h.files.move hmove hinv, h.active, fun seq => ?_, fun sub hsub =>
    le_trans (h.start_le sub hsub) hmove.visible_le, fun sub hsub => ?_, h.safe⟩
  · have hpins := h.pins seq
    have hhandles := hmove.handles seq
    show s.pins.count seq ≤ e'.handles.count seq
    by_cases hconsumes : a.consumes = some seq
    · have hless : s.pins.count seq < s.engine.handles.count seq := hfree seq hconsumes
      rw [if_pos hconsumes] at hhandles
      omega
    · rw [if_neg hconsumes] at hhandles
      omega
  · obtain ⟨segs, t, rest, n, hstands⟩ := h.stands sub hsub
    refine ⟨segs, t, rest ++ recs, n, ?_⟩
    rw [hpublishing]
    show sub.Stands e'.log _ segs t (rest ++ recs) n
    rw [hmove.log]
    refine hstands.append (fun c hc => lt_of_le_of_lt (h.start_le sub hsub) (hbase c hc))
      fun hopen c hc => ?_
    exact lt_of_le_of_lt (h.files.engine.retained _ (h.pinned_mem hsub hopen)).2 (hbase c hc)

/-- One subscription changes, perhaps with its registration. -/
theorem replace (h : s.Streams) {i : ℕ} (hi : s.subs[i]? = some sub) {sub' : Subscription}
    (active : Bool)
    (hfiles : ({ s.setSub i sub' with engine := e', subsActive := active } : Service).Files)
    (hlog : e'.log = s.engine.log) (hvis : e'.db.visibleSeqno = s.engine.db.visibleSeqno)
    (hactive : active = (s.subs.set i sub').any Subscription.attached)
    (hpins : ∀ seq, s.engine.handles.count seq +
      (if sub'.closed = false ∧ sub'.pinned = seq then 1 else 0) ≤
      e'.handles.count seq + (if sub.closed = false ∧ sub.pinned = seq then 1 else 0))
    (hstart : sub'.start = sub.start)
    (hstands : ∃ segs t rest n, sub'.Stands s.engine.log s.publishing segs t rest n)
    (hsafe : sub'.closed = false → s.Safe sub'.pinned) :
    ({ s.setSub i sub' with engine := e', subsActive := active } : Service).Streams := by
  have hmem : sub ∈ s.subs := List.mem_of_getElem? hi
  refine ⟨hfiles, hactive, fun seq => ?_, fun u hu => ?_, fun u hu => ?_, fun u hu hopen => ?_⟩
  · have hset := count_pins_set hi sub' seq
    have hold := h.pins seq
    have hnew := hpins seq
    show (s.setSub i sub').pins.count seq ≤ e'.handles.count seq
    omega
  · show u.start ≤ e'.db.visibleSeqno
    rw [hvis]
    rcases List.mem_or_eq_of_mem_set hu with hu | rfl
    · exact h.start_le u hu
    · exact hstart ▸ h.start_le sub hmem
  · show ∃ segs t rest n, u.Stands e'.log s.publishing segs t rest n
    rw [hlog]
    rcases List.mem_or_eq_of_mem_set hu with hu | rfl
    · exact h.stands u hu
    · exact hstands
  · rcases List.mem_or_eq_of_mem_set hu with hu | rfl
    · exact h.safe u hu hopen
    · exact hsafe hopen

/-- The consumer works on its own half. -/
theorem setSub (h : s.Streams) {i : ℕ} (hi : s.subs[i]? = some sub) {sub' : Subscription}
    (hattached : sub'.attached = sub.attached) (hclosed : sub'.closed = sub.closed)
    (hpinned : sub'.pinned = sub.pinned) (hstart : sub'.start = sub.start)
    (hstands : ∃ segs t rest n, sub'.Stands s.engine.log s.publishing segs t rest n) :
    (s.setSub i sub').Streams := by
  refine h.replace hi s.subsActive (h.files.setSub hi sub') rfl rfl ?_
    (fun seq => ?_) hstart hstands fun hopen => ?_
  · obtain ⟨l₁, l₂, hsubs, hset⟩ := exists_set hi
    rw [h.active, hset, hsubs, List.any_append, List.any_append, List.any_cons,
      List.any_cons, hattached]
  · rw [hclosed, hpinned]
  · rw [hpinned]
    exact h.safe sub (List.mem_of_getElem? hi) (hclosed ▸ hopen)

end Streams

end Service

/-- The publisher offers the batch to every subscription. -/
theorem publishStream_eq {subs : List Subscription} {active : Bool}
    (hactive : active = subs.any Subscription.attached) (base : ℕ) (es : List EncEntry) :
    publishStream subs active base es = (subs.map fun u => u.publish base es,
      (subs.map fun u => u.publish base es).any Subscription.attached) := by
  unfold publishStream
  cases active with
  | true => rfl
  | false =>
    have hnone : ∀ u ∈ subs, u.attached = false := by
      intro u hu
      exact Bool.eq_false_iff.mpr fun htrue =>
        absurd (hactive.trans (List.any_eq_true.mpr ⟨u, hu, htrue⟩)) Bool.false_ne_true
    have hsame : subs.map (fun u => u.publish base es) = subs := by
      refine (List.map_congr_left fun u hu => ?_).trans (List.map_id subs)
      show u.publish base es = u
      unfold Subscription.publish
      rw [if_neg (by rw [hnone u hu]; simp)]
    rw [hsame, ← hactive]
    rfl

theorem publish_frame (sub : Subscription) (base : ℕ) (es : List EncEntry) :
    (sub.publish base es).closed = sub.closed ∧ (sub.publish base es).pinned = sub.pinned ∧
      (sub.publish base es).start = sub.start := by
  unfold Subscription.publish Subscription.offer
  split
  · split
    · exact ⟨rfl, rfl, rfl⟩
    · simp only
      split
      · exact ⟨rfl, rfl, rfl⟩
      · exact ⟨rfl, rfl, rfl⟩
  · exact ⟨rfl, rfl, rfl⟩

/-- Publishing moves no pin. -/
theorem Service.pins_publish (s : Service) (base : ℕ) (es : List EncEntry) :
    ((s.subs.map fun u => u.publish base es).filter fun u => !u.closed).map Subscription.pinned =
      s.pins := by
  rw [List.filter_map, List.map_map]
  unfold Service.pins
  have hclosed : ((fun u : Subscription => !u.closed) ∘ fun u : Subscription => u.publish base es) =
      fun u => !u.closed := funext fun u => congrArg not (publish_frame u base es).1
  rw [hclosed]
  exact List.map_congr_left fun u _ => (publish_frame u base es).2.1

theorem check_frame (sub : Subscription) (degraded : Bool) :
    (sub.check degraded).attached = sub.attached ∧ (sub.check degraded).closed = sub.closed ∧
      (sub.check degraded).pinned = sub.pinned ∧ (sub.check degraded).start = sub.start := by
  unfold Subscription.check
  split
  · exact ⟨rfl, rfl, rfl, rfl⟩
  · split
    · exact ⟨rfl, rfl, rfl, rfl⟩
    · exact ⟨rfl, rfl, rfl, rfl⟩

theorem streams_init (opts : Options) : (Service.init opts).Streams where
  files := files_init opts
  active := rfl
  pins := fun _ => le_rfl
  start_le := fun _ hsub => absurd hsub List.not_mem_nil
  stands := fun _ hsub => absurd hsub List.not_mem_nil
  safe := fun _ hsub => absurd hsub List.not_mem_nil

/-- **Every action keeps the streams.** -/
theorem streams_step (h : s.Streams) {act : ServiceAction} (hs : s.step opts act = some s') :
    s'.Streams := by
  have hfiles := files_step h.files hs
  have hcons := h.files.engine.consistent
  cases Service.takes hs with
  | engine headFault hphase hserves hpub hfree he =>
    obtain ⟨recs, hmove⟩ := moved_step h.files.engine he fun n orphan hopen => by
      rw [hopen] at hserves
      exact absurd hserves Bool.false_ne_true
    exact h.move hmove (inv_step h.files.engine he) hfree
  | @publish r rest hpub =>
    have heq := publishStream_eq h.active r.1 r.2
    refine ⟨hfiles, by simp only [heq], fun seq => ?_, fun u hu => ?_, fun u hu => ?_,
      fun u hu hopen => ?_⟩
    · show ((((publishStream s.subs s.subsActive r.1 r.2).1).filter _).map _).count seq ≤ _
      rw [heq, s.pins_publish]
      exact h.pins seq
    · simp only [heq] at hu
      obtain ⟨v, hv, rfl⟩ := List.mem_map.mp hu
      exact le_of_eq_of_le (publish_frame v r.1 r.2).2.2 (h.start_le v hv)
    · simp only [heq] at hu
      obtain ⟨v, hv, rfl⟩ := List.mem_map.mp hu
      obtain ⟨segs, t, rest', n, hstands⟩ := h.stands v hv
      exact ⟨segs, t, rest', n, (hpub ▸ hstands).publish⟩
    · simp only [heq] at hu
      obtain ⟨v, hv, rfl⟩ := List.mem_map.mp hu
      obtain ⟨hclosed, hpinned, -⟩ := publish_frame v r.1 r.2
      rw [hpinned]
      exact h.safe v hv (hclosed ▸ hopen)
  | @gcChunk p chunk todo e' applied headFault hp htodo hpub he happlied =>
    obtain ⟨recs, hmove⟩ := moved_step h.files.engine he fun _ _ => by simp
    have hmoved : (s.moved e' headFault).Streams :=
      h.move hmove (inv_step h.files.engine he) fun seq hseq =>
        absurd hseq (Option.not_mem_none seq)
    exact ⟨hfiles, hmoved.active, hmoved.pins, hmoved.start_le, hmoved.stands, hmoved.safe⟩
  | @subscribe lo hi maxBytes e' start hphase hpub hstart he =>
    obtain rfl := Option.some_inj.mp he
    refine ⟨hfiles, ?_, fun seq => ?_, fun u hu => ?_, fun u hu => ?_, fun u hu hopen => ?_⟩
    · show true = (s.subs ++ [_]).any Subscription.attached
      rw [List.any_append]
      exact (Bool.or_true _).symm
    · have hpins := h.pins seq
      show (((s.subs ++ [Subscription.new start hi maxBytes s.engine.db.visibleSeqno]).filter
        fun u => !u.closed).map Subscription.pinned).count seq ≤
          (s.engine.db.visibleSeqno :: s.engine.handles).count seq
      rw [List.filter_append, List.map_append, List.count_append, List.count_cons]
      show s.pins.count seq + [s.engine.db.visibleSeqno].count seq ≤ _
      rw [List.count_singleton]
      omega
    · rcases List.mem_append.mp hu with hu | hu
      · exact h.start_le u hu
      · rw [List.mem_singleton.mp hu]
        exact le_rfl
    · rcases List.mem_append.mp hu with hu | hu
      · exact h.stands u hu
      · rw [List.mem_singleton.mp hu]
        refine ⟨[], [], [], 0, ?_⟩
        show (Subscription.new start hi maxBytes s.engine.db.visibleSeqno).Stands s.engine.log
          s.publishing _ _ _ _
        rw [hpub]
        refine Subscription.stands_new start hi maxBytes fun c hc => ?_
        have := (hcons.contiguous.mem (List.mem_map_of_mem hc)).2
        have hpos := List.length_pos_iff.mpr this.2
        omega
    · rcases List.mem_append.mp hu with hu | hu
      · exact h.safe u hu hopen
      · rw [List.mem_singleton.mp hu]
        exact h.files.safe_visible
  | @check i sub hsub hclosed hchecked htaken =>
    obtain ⟨segs, t, rest, n, hstands⟩ := h.stands sub (List.mem_of_getElem? hsub)
    obtain ⟨m, hm⟩ := hstands.check s.degraded htaken
    obtain ⟨hattached, hclosed', hpinned, hstart⟩ := check_frame sub s.degraded
    exact h.setSub hsub hattached hclosed' hpinned hstart ⟨segs, t, rest, m, hm⟩
  | @drain i sub hsub hclosed hchecked =>
    obtain ⟨segs, t, rest, n, hstands⟩ := h.stands sub (List.mem_of_getElem? hsub)
    obtain ⟨t', rest', hd⟩ := hstands.drain hchecked
    exact h.setSub hsub rfl rfl rfl rfl ⟨segs, t', rest', n, hd⟩
  | @deliver i sub out e' hsub hclosed htaken hout he =>
    obtain ⟨segs, t, rest, n, hstands⟩ := h.stands sub (List.mem_of_getElem? hsub)
    obtain rfl : out = t.flatMap sub.streamOf := (mapM_ok hout fun r hr y hy => by
      obtain ⟨c, hc, hr⟩ := hstands.mem_taken hr
      exact h.files.resolve_ok (hstands.mem_log (List.mem_append_left _ hc)) hr hy).trans
        (hstands.map_taken hcons)
    obtain ⟨⟨hpin, hle, -⟩, rfl⟩ := Engine.guarded_eq_some he
    refine h.replace hsub s.subsActive hfiles rfl rfl ?_ (fun seq => ?_) rfl
      ⟨segs ++ [t], [], rest, n, hstands.deliver htaken (hstands.last_lt hcons htaken)⟩
      fun _ => (h.safe sub (List.mem_of_getElem? hsub) hclosed).mono hle
    · obtain ⟨l₁, l₂, hsubs, hset⟩ := exists_set hsub
      rw [h.active, hset, hsubs, List.any_append, List.any_append, List.any_cons, List.any_cons]
      rfl
    · -- the new pin is registered before the old one goes
      have hcount := (List.perm_cons_erase (List.mem_cons_of_mem sub.lastTaken hpin)).count_eq seq
      rw [List.count_cons, List.count_cons] at hcount
      show s.engine.handles.count seq +
        (if sub.closed = false ∧ sub.lastTaken = seq then 1 else 0) ≤
        ((sub.lastTaken :: s.engine.handles).erase sub.pinned).count seq + _
      simp only [hclosed, true_and, beq_iff_eq] at hcount ⊢
      omega
  | @kill i sub err hsub hclosed htaken hout =>
    obtain ⟨segs, t, rest, n, hstands⟩ := h.stands sub (List.mem_of_getElem? hsub)
    exact h.setSub hsub rfl rfl rfl rfl ⟨segs, [], t ++ rest, n, hstands.kill htaken⟩
  | @close i sub e' hsub hclosed hchecked htaken he =>
    obtain ⟨segs, t, rest, n, hstands⟩ := h.stands sub (List.mem_of_getElem? hsub)
    obtain ⟨hpin, rfl⟩ := Engine.guarded_eq_some he
    refine h.replace hsub _ hfiles rfl rfl rfl (fun seq => ?_) rfl
      ⟨segs, t, rest, n, hstands.close hchecked⟩ fun hopen => nomatch hopen
    have hcount := (List.perm_cons_erase hpin).count_eq seq
    rw [List.count_cons] at hcount
    show s.engine.handles.count seq + (if true = false ∧ sub.pinned = seq then 1 else 0) ≤
      (s.engine.handles.erase sub.pinned).count seq + _
    simp only [hclosed, true_and, beq_iff_eq, Bool.true_eq_false, false_and, if_false] at hcount ⊢
    omega
  | reopen hreopen =>
    obtain ⟨e', disk, he, -, -, -, -, -, rfl⟩ := Service.reopen_cases hreopen
    exact ⟨hfiles, rfl, fun _ => Nat.zero_le _, fun _ hu => absurd hu List.not_mem_nil,
      fun _ hu => absurd hu List.not_mem_nil, fun _ hu => absurd hu List.not_mem_nil⟩
  | crashOpening id =>
    exact ⟨hfiles, rfl, fun _ => Nat.zero_le _, fun _ hu => absurd hu List.not_mem_nil,
      fun _ hu => absurd hu List.not_mem_nil, fun _ hu => absurd hu List.not_mem_nil⟩
  | _ =>
    exact ⟨hfiles, h.active, h.pins, h.start_le, h.stands, fun u hu hopen =>
      safe_step hs (h.pinned_mem hu hopen) (h.safe u hu hopen)⟩

end Fluent31
