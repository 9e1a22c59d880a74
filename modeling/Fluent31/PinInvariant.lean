/-
The invariant of the pins.

A pin reaches a manifest only after a WAL sync at or above its seqno, so that it
is at or below every head that recovery may find.  While CURRENT may name a
manifest that was not committed, its pins are not held any more; but what they
need is dropped from disk by a later commit only, and that commit rewrites
CURRENT.

A value is lost to a reader only in a head file that the map does not name
(`PinStore.Astray`).  Such versions come after the store has degraded, so that no
pin that is made covers them, and the next open finds their file (`PinStore.Late`).

* `PinStore.Inv.onward` — a drift of the service keeps the invariant;
* `PinStore.Inv.commitPin`, `PinStore.Inv.crash`, `PinStore.Inv.step` — and so
  does every step.
-/
import Fluent31.PinSteps

namespace Fluent31

open Mvcc

variable {opts : Options} {e e' : Engine} {s s' : Service} {w w' : PinStore} {x : Entry}
    {a : Action}

/-! ### The invariant -/

namespace PinStore

/-- The pins of manifests that CURRENT may name though they were not committed. -/
def phantoms (w : PinStore) : List ℕ := w.loose.flatMap fun pins => pins.map Prod.snd

/-- Pins that a crash may leave in the manifest, or that a call may still make. -/
def firm (w : PinStore) : List ℕ :=
  w.pins.map Prod.snd ++ (w.phantoms ++
    (w.calls.filter fun c => decide (c.stage ≠ .held)).map PinCall.seq)

/-- The seqnos of the pins, and of the calls that make one. -/
def reserved (w : PinStore) : List ℕ := w.pins.map Prod.snd ++ w.calls.map PinCall.seq

/-- No reader at a pin finds the version, at one that CURRENT may name or one that is
being made, and recovery does not replay it. -/
def Unread (w : PinStore) (x : Entry) : Prop :=
  ∃ b ≤ w.service.engine.db.manifest.lastFlushedSeqno,
    (∀ t, t ∈ w.reserved ∨ t ∈ w.phantoms → b ≤ t) ∧ Shadowed b w.service.history x

/-- A version whose file the map does not name, though somebody may read it. -/
structure Astray (w : PinStore) (x : Entry) (p : ValuePtr) : Prop where
  committed : x ∈ w.service.history
  ptr : x.repr = .ptr p
  unmapped : p.file ∉ w.service.vlogs
  read : ¬ w.Unread x

/-- What holds of a version that went astray: it lies in a lost head, committed
after the store degraded, and the next open finds it. -/
structure Late (w : PinStore) (x : Entry) (p : ValuePtr) : Prop where
  lost : p.file ∈ w.service.lost
  degraded : w.service.degraded = true
  later : ∀ t ∈ w.firm, t < x.seq
  young : w.service.manifest.head ≤ p.file
  on_disk : p.file ∈ w.service.disk
  kept : p.file ∉ w.service.obsolete
  synced : x.seq ≤ w.service.engine.db.manifest.lastFlushedSeqno → p.file ∉ w.unsynced

structure Inv (w : PinStore) : Prop where
  streams : w.service.Streams
  stable : Consistent w.service.engine.db w.service.engine.log w.base
  base_le : w.base ≤ w.service.engine.floor
  loose_ge : ∀ t ∈ w.phantoms, w.base ≤ t
  durable : ∀ t, t ∈ w.pins.map Prod.snd ∨ t ∈ w.phantoms → t ≤ w.service.durable
  synced : ∀ c ∈ w.calls, c.stage = .synced → c.seq ≤ w.service.durable
  holding : ∀ t, w.holding.count t ≤ w.service.engine.handles.count t
  spares : ∀ t ∈ w.reserved, w.service.Spares t
  strays : ∀ x p, w.Astray x p → w.Late x p
  head : w.service.engine.db.vlog.headId = w.service.vlogHead ∨ w.service.degraded = true
  head_file : w.service.engine.db.vlog.headId ∈ w.service.disk ∧
    w.service.engine.db.vlog.headId ∉ w.service.obsolete
  opening : w.service.phase = .opening → w.service.degraded = false

namespace Inv

theorem files (h : w.Inv) : w.service.Files := h.streams.files

theorem pins_registered (h : w.Inv) {t : ℕ} (ht : t ∈ w.pins.map Prod.snd) :
    t ∈ w.service.engine.db.snapshots :=
  h.files.engine.snapshots.mem_iff.mpr (List.mem_append_right _ (List.mem_append_left _ ht))

theorem calls_registered (h : w.Inv) {c : PinCall} (hc : c ∈ w.calls) :
    c.seq ∈ w.service.engine.handles := by
  have hmem : c.seq ∈ w.holding :=
    List.mem_append_right _ (List.mem_append_left _ (List.mem_map_of_mem hc))
  exact List.count_pos_iff.mp (lt_of_lt_of_le (List.count_pos_iff.mpr hmem) (h.holding c.seq))

theorem reserved_registered (h : w.Inv) {t : ℕ} (ht : t ∈ w.reserved) :
    t ∈ w.service.engine.db.snapshots := by
  rcases List.mem_append.mp ht with hpin | hcall
  · exact h.pins_registered hpin
  · obtain ⟨c, hc, rfl⟩ := List.mem_map.mp hcall
    exact h.files.engine.snapshots.mem_iff.mpr (List.mem_append_left _ (h.calls_registered hc))

/-- No pin that may be is above the visible seqno. -/
theorem firm_le (h : w.Inv) {t : ℕ} (ht : t ∈ w.firm) : t ≤ w.service.engine.db.visibleSeqno := by
  rcases List.mem_append.mp ht with hpin | ht
  · exact le_trans (h.durable t (Or.inl hpin)) h.files.durable_le
  · rcases List.mem_append.mp ht with hloose | hcall
    · exact le_trans (h.durable t (Or.inr hloose)) h.files.durable_le
    · obtain ⟨c, hc, rfl⟩ := List.mem_map.mp hcall
      have hreg := h.calls_registered (List.mem_of_mem_filter hc)
      exact (h.files.engine.retained _ (h.files.engine.snapshots.mem_iff.mpr
        (List.mem_append_left _ hreg))).2

/-- A version's file is older than the id counter. -/
theorem file_lt (h : w.Inv) (hx : x ∈ w.service.history) {p : ValuePtr} (hp : x.repr = .ptr p) :
    p.file < w.service.engine.db.nextFileId := by
  have hcons := h.files.engine.consistent
  obtain ⟨v, hrec⟩ := hcons.record hx hp
  exact hcons.wf.vlog.file_lt _ hrec

/-- What was unread stays so, as far as no new pin is below it. -/
theorem unread_onward (hd : w.service.Drift w'.service)
    (hreserved : ∀ t ∈ w'.reserved, t ∈ w.reserved ∨
      w.service.engine.db.manifest.lastFlushedSeqno ≤ t)
    (hloose : ∀ t ∈ w'.phantoms, t ∈ w.reserved ∨ t ∈ w.phantoms) (hx : w.Unread x) :
    w'.Unread x := by
  obtain ⟨b, hb, hall, hshadow⟩ := hx
  refine ⟨b, le_trans hb hd.flushed_le, fun t ht => ?_, hshadow.mono le_rfl hd.old⟩
  rcases ht with ht | ht
  · exact (hreserved t ht).elim (fun ht => hall t (Or.inl ht)) (le_trans hb)
  · exact hall t (hloose t ht)

/-- **Strays under a drift**: no version goes astray but in a lost head. -/
theorem strays_onward (h : w.Inv) (hd : w.service.Drift w'.service)
    (hreserved : ∀ t ∈ w'.reserved, t ∈ w.reserved ∨
      w.service.engine.db.manifest.lastFlushedSeqno ≤ t)
    (hloose : ∀ t ∈ w'.phantoms, t ∈ w.reserved ∨ t ∈ w.phantoms)
    (hfirm : ∀ t ∈ w'.firm, t ∈ w.firm ∨
      w.service.degraded = false ∧ t ≤ w.service.engine.db.visibleSeqno)
    (hsync : w'.unsynced = [] ∨
      w'.service.engine.db.manifest.lastFlushedSeqno =
        w.service.engine.db.manifest.lastFlushedSeqno ∧
      ∀ id ∈ w'.unsynced, id ∈ w.unsynced ∨ w.service.engine.db.nextFileId ≤ id)
    {p : ValuePtr} (ha : w'.Astray x p) : w'.Late x p := by
  have hunmapped : p.file ∉ w.service.vlogs := fun hmem => ha.unmapped (hd.vlogs _ hmem)
  rcases hd.new x ha.committed with hx | ⟨hlt, hfile⟩
  · -- astray before as well
    have hlate := h.strays x p
      ⟨hx, ha.ptr, hunmapped, fun hun => ha.read (unread_onward hd hreserved hloose hun)⟩
    exact
      { lost := hd.lost _ hlate.lost
        degraded := hd.degraded hlate.degraded
        later := fun t ht => (hfirm t ht).elim (hlate.later t) fun hor =>
          absurd (hlate.degraded.symm.trans hor.1) (by simp)
        young := hd.manifest ▸ hlate.young
        on_disk := (hd.disk _ hlate.on_disk).resolve_left hlate.kept
        kept := fun hmem => hlate.kept (hd.obsolete _ hmem)
        synced := fun hle hmem => by
          rcases hsync with hnil | ⟨hflushed, hids⟩
          · rw [hnil] at hmem
            exact List.not_mem_nil hmem
          · rcases hids _ hmem with hmem | hge
            · exact hlate.synced (hflushed ▸ hle) hmem
            · exact absurd (h.file_lt hx ha.ptr) (not_lt.mpr hge) }
  · -- a new version in the head that was found: a lost one
    have hhead := hfile p ha.ptr
    have hmapped := h.files.head
    have hne : w.service.engine.db.vlog.headId ≠ w.service.vlogHead := fun heq =>
      hunmapped (hhead ▸ heq ▸ hmapped.1)
    have hdegraded := h.head.resolve_left hne
    exact
      { lost := hd.lost _ (hhead ▸ (hmapped.2.2.resolve_left hne).1)
        degraded := hd.degraded hdegraded
        later := fun t ht => by
          refine lt_of_le_of_lt ?_ hlt
          exact (hfirm t ht).elim h.firm_le And.right
        young := by
          rw [hd.manifest, hhead]
          exact h.files.head_le
        on_disk := (hd.disk _ (hhead ▸ h.head_file.1)).resolve_left (hhead ▸ h.head_file.2)
        kept := fun hmem => h.head_file.2 (hhead ▸ hd.obsolete _ hmem)
        synced := fun hle hmem => by
          rcases hsync with hnil | ⟨hflushed, -⟩
          · rw [hnil] at hmem
            exact List.not_mem_nil hmem
          · have hflushed_le := h.files.engine.consistent.wf.flushed_le
            omega }

/-- The append target under a drift. -/
theorem head_onward (h : w.Inv) (hd : w.service.Drift s') :
    (s'.engine.db.vlog.headId = s'.vlogHead ∨ s'.degraded = true) ∧
      s'.engine.db.vlog.headId ∈ s'.disk ∧ s'.engine.db.vlog.headId ∉ s'.obsolete := by
  rcases hd.head with ⟨hid, hhead⟩ | ⟨hge, hdisk, hor⟩
  · rw [hid, hhead]
    exact ⟨h.head.imp_right hd.degraded, (hd.disk _ h.head_file.1).resolve_left h.head_file.2,
      fun hmem => h.head_file.2 (hd.obsolete _ hmem)⟩
  · refine ⟨hor, hdisk, fun hmem => ?_⟩
    exact absurd (h.files.obsolete _ (hd.obsolete _ hmem)).2 (not_lt.mpr hge)

/-- **A drift** keeps the invariant, as far as the calls do their part. -/
theorem onward (h : w.Inv) (hd : w.service.Drift w'.service) (hstreams : w'.service.Streams)
    (hstable : Consistent w'.service.engine.db w'.service.engine.log w'.base)
    (hbase : w'.base ≤ w'.service.engine.floor)
    (hreserved : ∀ t ∈ w'.reserved,
      (t ∈ w.reserved ∨ w.service.engine.db.manifest.lastFlushedSeqno ≤ t) ∧ w'.service.Spares t)
    (hloose : ∀ t ∈ w'.phantoms, (t ∈ w.reserved ∨ t ∈ w.phantoms) ∧ w'.base ≤ t ∧
      t ≤ w'.service.durable)
    (hpins : ∀ t ∈ w'.pins.map Prod.snd, t ≤ w'.service.durable)
    (hsynced : ∀ c ∈ w'.calls, c.stage = .synced → c.seq ≤ w'.service.durable)
    (hholding : ∀ t, w'.holding.count t ≤ w'.service.engine.handles.count t)
    (hfirm : ∀ t ∈ w'.firm, t ∈ w.firm ∨
      w.service.degraded = false ∧ t ≤ w.service.engine.db.visibleSeqno)
    (hsync : w'.unsynced = [] ∨
      w'.service.engine.db.manifest.lastFlushedSeqno =
        w.service.engine.db.manifest.lastFlushedSeqno ∧
      ∀ id ∈ w'.unsynced, id ∈ w.unsynced ∨ w.service.engine.db.nextFileId ≤ id) : w'.Inv where
  streams := hstreams
  stable := hstable
  base_le := hbase
  loose_ge := fun t ht => (hloose t ht).2.1
  durable := fun t ht => ht.elim (hpins t) fun ht => (hloose t ht).2.2
  synced := hsynced
  holding := hholding
  spares := fun t ht => (hreserved t ht).2
  strays := fun _ _ ha => h.strays_onward hd (fun t ht => (hreserved t ht).1)
    (fun t ht => (hloose t ht).1) hfirm
    hsync ha
  head := (h.head_onward hd).1
  head_file := (h.head_onward hd).2
  opening := fun hphase => by
    obtain ⟨hphase, hdegraded⟩ := hd.opening hphase
    exact hdegraded.trans (h.opening hphase)

/-- A manifest commit is through. -/
theorem committed (h : w.Inv) : w.committed.Inv := by
  refine h.onward (.refl _) h.streams h.files.engine.consistent le_rfl
    (fun t ht => ⟨Or.inl ht, h.spares t ht⟩) (fun t ht => absurd ht List.not_mem_nil)
    (fun t ht => h.durable t (Or.inl ht)) h.synced h.holding (fun t ht => Or.inl ?_) (Or.inl rfl)
  rcases List.mem_append.mp ht with ht | ht
  · exact List.mem_append_left _ ht
  · exact List.mem_append_right _ (List.mem_append_right _ ht)

/-- The released files leave the map; nothing that somebody may read lies in
them. -/
theorem release (h : w.Inv) (hloose : w.loose = []) (hs : w.service.step opts .release = some s') :
    ({ w with service := s' } : PinStore).Inv := by
  have hstreams := streams_step h.streams hs
  have hspares : ∀ t ∈ w.reserved, s'.Spares t := fun t ht =>
    spares_step hs (h.reserved_registered ht) (h.spares t ht)
  obtain rfl := Option.some_inj.mp hs
  have hmapped : ∀ id ∈ w.service.releasing.map Prod.fst, id ∈ w.service.vlogs ∧
      id ≠ w.service.vlogHead := by
    intro id hid
    obtain ⟨r, hr, rfl⟩ := List.mem_map.mp hid
    have hret := h.files.retired r (h.files.waiting r (List.mem_append_right _ hr))
    exact ⟨hret.1, hret.2.1⟩
  refine
    { streams := hstreams
      stable := h.stable
      base_le := h.base_le
      loose_ge := h.loose_ge
      durable := h.durable
      synced := h.synced
      holding := h.holding
      spares := hspares
      strays := fun x p ha => ?_
      head := h.head
      head_file := ⟨h.head_file.1, fun hmem => ?_⟩
      opening := h.opening }
  · by_cases hmem : p.file ∈ w.service.vlogs
    · -- the file is released, so the version is unread
      exfalso
      have hrel : p.file ∈ w.service.releasing.map Prod.fst := by
        by_contra hout
        exact ha.unmapped (List.mem_filter.mpr ⟨hmem, decide_eq_true hout⟩)
      obtain ⟨r, hr, hfile⟩ := List.mem_map.mp hrel
      have hflushed := le_trans (h.files.releasing r hr) h.files.released_le
      obtain ⟨-, -, hshadow⟩ := h.files.retired r (h.files.waiting r (List.mem_append_right _ hr))
      refine ha.read ⟨min r.2 w.service.durable, le_trans (min_le_left _ _) hflushed,
        fun t ht => ?_, hshadow x ha.committed p ha.ptr hfile.symm⟩
      rcases ht with ht | ht
      · exact le_trans (min_le_left _ _) ((h.spares t ht).1 r hr)
      · exact absurd ht (by simp [phantoms, hloose])
    · have hlate := h.strays x p ⟨ha.committed, ha.ptr, hmem, ha.read⟩
      refine { hlate with kept := fun hobs => ?_ }
      rcases List.mem_append.mp hobs with hobs | hobs
      · exact hlate.kept hobs
      · exact hmem (hmapped _ hobs).1
  · rcases List.mem_append.mp hmem with hmem | hmem
    · exact h.head_file.2 hmem
    · obtain ⟨hin, hne⟩ := hmapped _ hmem
      exact h.files.ne_headId hin hne rfl

/-- The completion manifest: at the end of an open nothing is astray. -/
theorem completeOpen (h : w.Inv) (hs : w.service.step opts .completeOpen = some s') :
    ({ w with service := s' } : PinStore).Inv := by
  have hstreams := streams_step h.streams hs
  obtain ⟨hphase, rfl⟩ := Service.guarded_eq_some hs
  have hhealthy := h.opening hphase
  have hhead := h.head.resolve_right (by simp [hhealthy])
  refine
    { streams := hstreams
      stable := h.stable
      base_le := h.base_le
      loose_ge := h.loose_ge
      durable := h.durable
      synced := h.synced
      holding := h.holding
      spares := h.spares
      strays := fun x p ha => ?_
      head := h.head
      head_file := ⟨?_, h.head_file.2⟩
      opening := fun _ => hhealthy }
  · have hlate := h.strays x p ⟨ha.committed, ha.ptr, ha.unmapped, ha.read⟩
    exact absurd (hlate.degraded.symm.trans hhealthy) (by simp)
  · have hdisk := hstreams.files.on_disk _ hstreams.files.head.1
    change w.service.vlogHead ∈ _ at hdisk
    exact hhead ▸ hdisk

/-- The holds of the calls survive a step of the service. -/
theorem holding_serve (h : w.Inv) {act : ServiceAction} (hplain : act.unsplit)
    (hfree : ∀ t ∈ act.consumes, w.holding.count t < w.service.engine.handles.count t)
    (hs : w.service.step opts act = some s') (t : ℕ) :
    ({ w with service := s' } : PinStore).holding.count t ≤ s'.engine.handles.count t := by
  have hstep := Service.handles_serve h.streams hs (ServiceAction.inProcess_of_unsplit hplain) t
  have hold := h.holding t
  have hless : act.consumes = some t → w.holding.count t < w.service.engine.handles.count t :=
    hfree t
  unfold PinStore.holding at hold hless ⊢
  simp only [List.count_append] at hold hless ⊢
  by_cases hconsumes : act.consumes = some t
  · have := hless hconsumes
    rw [if_pos hconsumes] at hstep
    omega
  · rw [if_neg hconsumes] at hstep
    omega

/-- What is reserved stays so, and is spared, in a step of the service. -/
theorem reserved_serve (h : w.Inv) {act : ServiceAction} (hs : w.service.step opts act = some s')
    (hpins : s'.engine.db.manifest.pins = w.pins) :
    ∀ t ∈ ({ w with service := s' } : PinStore).reserved,
      (t ∈ w.reserved ∨ w.service.engine.db.manifest.lastFlushedSeqno ≤ t) ∧ s'.Spares t := by
  intro t ht
  unfold reserved pins at ht
  rw [hpins] at ht
  exact ⟨Or.inl ht, spares_step hs (h.reserved_registered ht) (h.spares t ht)⟩

/-- **A step of the service** without a manifest commit. -/
theorem serve (h : w.Inv) {act : ServiceAction} (hplain : act.unsplit)
    (hfree : ∀ t ∈ act.consumes, w.holding.count t < w.service.engine.handles.count t)
    (hs : w.service.step opts act = some s') (hc : w.service.commits s' act = false) :
    (w.served act s').Inv := by
  have hun := Service.uncommitted_serve h.files hs hplain hc
  have hd : w.service.Drift s' := by
    refine Service.drift_step h.files hs hplain (fun heq => ?_) fun heq => ?_
    · rw [heq] at hc
      simpa [Service.commits] using hc
    · rw [heq] at hc
      exact absurd hc (by simp [Service.commits])
  have hpins : s'.engine.db.manifest.pins = w.pins := Service.pins_serve h.files hs hplain
  have hreserved := h.reserved_serve hs hpins
  unfold served
  rw [hc, if_neg Bool.false_ne_true]
  refine h.onward hd (streams_step h.streams hs) (hun.consistent _ h.stable)
    (le_trans h.base_le hun.floor_le) hreserved (fun t ht => ⟨Or.inr ht, h.loose_ge t ht, ?_⟩)
    (fun t ht => ?_)
    (fun c hc hstage => le_trans (h.synced c hc hstage) hd.durable)
    (h.holding_serve hplain hfree hs)
    (fun t ht => Or.inl ?_) (Or.inr ⟨hun.flushed, fun id hid => ?_⟩)
  · exact le_trans (h.durable t (Or.inr ht)) hd.durable
  · exact le_trans (h.durable t (Or.inl (hpins ▸ ht))) hd.durable
  · unfold firm at ht ⊢
    exact hpins ▸ ht
  · rcases List.mem_append.mp hid with hid | hid
    · obtain ⟨hid, hnew⟩ := List.mem_filter.mp hid
      exact Or.inr ((hd.fresh id hid).resolve_left (of_decide_eq_true hnew))
    · exact Or.inl hid

/-- **A step of the service** that commits a manifest. -/
theorem serve_commits (h : w.Inv) {act : ServiceAction} (hplain : act.unsplit)
    (hfree : ∀ t ∈ act.consumes, w.holding.count t < w.service.engine.handles.count t)
    (hs : w.service.step opts act = some s') (hc : w.service.commits s' act = true) :
    (w.served act s').Inv := by
  unfold served
  rw [hc, if_pos rfl]
  by_cases hrelease : act = .release
  · subst hrelease
    exact (h.committed.release rfl hs).committed
  · by_cases hopen : act = .completeOpen
    · subst hopen
      exact (h.committed.completeOpen hs).committed
    · have hd := Service.drift_step h.files hs hplain (fun heq => absurd heq hrelease) hopen
      have hstreams := streams_step h.streams hs
      have hpins : s'.engine.db.manifest.pins = w.pins := Service.pins_serve h.files hs hplain
      refine h.onward hd hstreams hstreams.files.engine.consistent le_rfl
        (h.reserved_serve hs hpins) (fun t ht => absurd ht List.not_mem_nil) (fun t ht => ?_)
        (fun c hc hstage => le_trans (h.synced c hc hstage) hd.durable)
        (h.holding_serve hplain hfree hs)
        (fun t ht => Or.inl ?_) (Or.inl rfl)
      · exact le_trans (h.durable t (Or.inl (hpins ▸ ht))) hd.durable
      · rcases List.mem_append.mp ht with ht | ht
        · exact List.mem_append_left _ (hpins ▸ ht)
        · exact List.mem_append_right _ (List.mem_append_right _ ht)

/-- The registrations change, and the calls with them. -/
theorem reregister (h : w.Inv) (a : Action) (snapshots handles : List ℕ) (pins : List (Bytes × ℕ))
    (hservice : w'.service = { w.service with
      engine := { w.service.engine with
        db := { w.service.engine.db with
          snapshots := snapshots
          manifest := { w.service.engine.db.manifest with pins := pins } }
        handles := handles } })
    (hperm : snapshots.Perm (handles ++ (pins.map Prod.snd ++ w.service.engine.queueSnaps)))
    (hsnap : ∀ t ∈ snapshots, t ∈ w.service.engine.db.snapshots ∨
      t = w.service.engine.db.visibleSeqno)
    (hhandles : ∀ t, w.service.engine.handles.count t ≤
      handles.count t + if a.consumes = some t then 1 else 0)
    (hbase : w'.base = w.base) (hunsynced : w'.unsynced = w.unsynced) (hloose : w'.loose = w.loose)
    (hpins : ∀ t ∈ pins.map Prod.snd, t ≤ w.service.durable)
    (hsynced : ∀ c ∈ w'.calls, c.stage = .synced → c.seq ≤ w.service.durable)
    (hholding : ∀ t, w.service.pins.count t +
      ((w'.calls.map PinCall.seq).count t + w'.unpins.count t) ≤ handles.count t)
    (hreserved : ∀ t ∈ pins.map Prod.snd ++ w'.calls.map PinCall.seq,
      t ∈ w.reserved ∨ t = w.service.engine.db.visibleSeqno)
    (hfirm : ∀ t ∈ w'.firm, t ∈ w.firm) : w'.Inv := by
  obtain ⟨service, calls, unpins, loose, unsynced, base⟩ := w'
  obtain rfl : service = _ := hservice
  obtain rfl : base = w.base := hbase
  obtain rfl : unsynced = w.unsynced := hunsynced
  obtain rfl : loose = w.loose := hloose
  have hinv := h.files.engine
  have hle : w.service.engine.floor ≤ w.service.engine.db.visibleSeqno := hinv.floor_le_visible
  have hflushed := hinv.consistent.wf.flushed_le
  -- to the engine this is a change of registrations
  have hmove : Moved a w.service.engine { w.service.engine with
      db := { w.service.engine.db with
        snapshots := snapshots
        manifest := { w.service.engine.db.manifest with pins := pins } }
      handles := handles } [] :=
    .registered (fun t ht => (hsnap t ht).imp_right fun heq b hb _ => by
      rw [heq]
      exact le_trans hb hflushed) hhandles
  have hinv' := hinv.register snapshots handles pins hperm fun t ht =>
    (hsnap t ht).imp_right fun heq => by
    rw [heq]
    exact ⟨hle, le_rfl⟩
  have hfiles := h.files.register hmove hinv' rfl
  have hstreams : ({ w.service with engine := { w.service.engine with
      db := { w.service.engine.db with
        snapshots := snapshots
        manifest := { w.service.engine.db.manifest with pins := pins } }
      handles := handles } } : Service).Streams :=
    ⟨hfiles, h.streams.active, fun t => le_trans (Nat.le_add_right _ _) (hholding t),
      h.streams.start_le, h.streams.stands, h.streams.safe⟩
  refine h.onward (Service.drift_engine rfl rfl hmove) hstreams
    (h.stable.relabel snapshots pins w.service.engine.db.defs) h.base_le (fun t ht => ?_)
    (fun t ht => ⟨Or.inr ht, h.loose_ge t ht, h.durable t (Or.inr ht)⟩) hpins hsynced (fun t => ?_)
    (fun t ht => Or.inl (hfirm t ht)) (Or.inr ⟨rfl, fun id hid => Or.inl hid⟩)
  · -- a seqno that is reserved anew is the visible one, which spares the files
    rcases hreserved t ht with ht | rfl
    · exact ⟨Or.inl ht, h.spares t ht⟩
    · exact ⟨Or.inr hflushed, h.files.safe_visible.spares h.files⟩
  · have := hholding t
    unfold PinStore.holding
    simp only [List.count_append]
    exact this

/-- The seqno `pin` reserves. -/
theorem pinBegin (h : w.Inv) (name : Bytes) (hs : w.service.engine.step opts .snapshot = some e') :
    ({ w.withEngine e' with
      calls := w.calls ++ [⟨name, w.service.engine.db.visibleSeqno, .held⟩] } : PinStore).Inv := by
  obtain rfl := Option.some_inj.mp hs
  have hinv := h.files.engine
  refine h.reregister .snapshot (w.service.engine.db.visibleSeqno :: w.service.engine.db.snapshots)
    (w.service.engine.db.visibleSeqno :: w.service.engine.handles) w.pins rfl
    (hinv.snapshots.cons _) (fun t ht => (List.mem_cons.mp ht).symm) (fun t => ?_) rfl rfl rfl
    (fun t ht => h.durable t (Or.inl ht)) (fun c hc hstage => ?_) (fun t => ?_) (fun t ht => ?_)
    fun t ht => ?_
  · rw [List.count_cons]
    omega
  · rcases List.mem_append.mp hc with hc | hc
    · exact h.synced c hc hstage
    · rw [List.mem_singleton.mp hc] at hstage
      exact absurd hstage (by simp)
  · have hold := h.holding t
    unfold PinStore.holding at hold
    simp only [List.count_append, List.map_append, List.map_cons, List.map_nil, List.count_cons,
      List.count_nil, withEngine] at hold ⊢
    omega
  · rw [List.map_append, ← List.append_assoc] at ht
    exact (List.mem_append.mp ht).imp_right List.mem_singleton.mp
  · have hheld : ∀ c : PinCall, c.stage = .held →
      (w.calls ++ [c]).filter (fun c => decide (c.stage ≠ .held)) =
        w.calls.filter fun c => decide (c.stage ≠ .held) := fun c hc => by simp [hc]
    unfold firm at ht ⊢
    rw [hheld _ rfl] at ht
    exact ht

/-- What a call that ends takes from the list of calls. -/
theorem count_eraseIdx {i : ℕ} {c : PinCall} (hi : w.calls[i]? = some c) (t : ℕ) :
    (w.calls.map PinCall.seq).count t =
      ((w.calls.eraseIdx i).map PinCall.seq).count t + if c.seq = t then 1 else 0 := by
  obtain ⟨hlt, rfl⟩ := List.getElem?_eq_some_iff.mp hi
  have hperm := ((List.getElem_cons_eraseIdx_perm hlt).map PinCall.seq).count_eq t
  rw [List.map_cons, List.count_cons] at hperm
  simp only [beq_iff_eq] at hperm
  exact hperm.symm

/-- A call that ends reserves nothing new. -/
theorem reserved_eraseIdx {pins : List (Bytes × ℕ)} {i : ℕ}
    (hpins : ∀ t ∈ pins.map Prod.snd, t ∈ w.reserved)
    {t : ℕ} (ht : t ∈ pins.map Prod.snd ++ (w.calls.eraseIdx i).map PinCall.seq) : t ∈ w.reserved :=
  (List.mem_append.mp ht).elim (hpins t) fun ht =>
    List.mem_append_right _ (((List.eraseIdx_sublist _ _).map _).subset ht)

/-- The guard of a failed call. -/
theorem rollback (h : w.Inv) {i : ℕ} {c : PinCall} (hi : w.calls[i]? = some c)
    (hs : w.rollback opts i c = some w') : w'.Inv := by
  unfold PinStore.rollback at hs
  obtain ⟨e', he, rfl⟩ := Option.map_eq_some_iff.mp hs
  obtain ⟨hmem, rfl⟩ := Engine.guarded_eq_some he
  have hinv := h.files.engine
  refine h.reregister (.release c.seq) (w.service.engine.db.snapshots.erase c.seq)
    (w.service.engine.handles.erase c.seq) w.pins rfl ?_
    (fun t ht => Or.inl (List.mem_of_mem_erase ht))
    (fun t => ?_) rfl rfl rfl (fun t ht => h.durable t (Or.inl ht))
    (fun d hd hstage => h.synced d (List.mem_of_mem_eraseIdx hd) hstage) (fun t => ?_)
    (fun t ht => Or.inl (reserved_eraseIdx (fun t => List.mem_append_left _) ht)) fun t ht => ?_
  · have hperm := hinv.snapshots.erase c.seq
    unfold Engine.registered at hperm
    rwa [List.erase_append_left _ hmem] at hperm
  · have hcount := (List.perm_cons_erase hmem).count_eq t
    rw [List.count_cons] at hcount
    simp only [Action.consumes, Option.some.injEq, beq_iff_eq] at hcount ⊢
    omega
  · -- the call and its registration go together
    have hold := h.holding t
    have hcalls := count_eraseIdx hi t
    have hcount := (List.perm_cons_erase hmem).count_eq t
    unfold PinStore.holding at hold
    rw [List.count_cons] at hcount
    simp only [List.count_append, beq_iff_eq, withEngine] at hold hcount ⊢
    omega
  · unfold firm at ht ⊢
    refine List.mem_append.mpr ((List.mem_append.mp ht).imp_right fun ht => ?_)
    refine List.mem_append.mpr ((List.mem_append.mp ht).imp_right fun ht => ?_)
    exact ((List.eraseIdx_sublist _ _).filter _).map _ |>.subset ht

/-- The service keeps its registrations, and a call goes on. -/
theorem advance (h : w.Inv) {i : ℕ} {c : PinCall} (hi : w.calls[i]? = some c) {stage : PinStage}
    (hd : w.service.Drift s') (hstreams : s'.Streams) (hengine : s'.engine = w.service.engine)
    (hsubs : s'.subs = w.service.subs) (hspares : ∀ t ∈ w.reserved, s'.Spares t)
    (hhealthy : c.stage = .held → w.service.degraded = false)
    (hsynced : stage = .synced → c.seq ≤ s'.durable) :
    ({ w with service := s', calls := w.calls.set i { c with stage := stage } } :
        PinStore).Inv := by
  have hmem : c ∈ w.calls := List.mem_of_getElem? hi
  have hreg := h.files.engine.snapshots.mem_iff.mpr
    (List.mem_append_left _ (h.calls_registered hmem))
  -- the call keeps its seqno
  have hseqs : (w.calls.set i { c with stage := stage }).map PinCall.seq =
    w.calls.map PinCall.seq := by
    obtain ⟨l₁, l₂, hsplit, hset⟩ := exists_set hi
    rw [hset, hsplit, List.map_append, List.map_append]
    rfl
  refine h.onward hd hstreams (hengine ▸ h.stable) (hengine ▸ h.base_le) (fun t ht => ?_)
    (fun t ht => ⟨Or.inr ht, h.loose_ge t ht, le_trans (h.durable t (Or.inr ht)) hd.durable⟩)
    (fun t ht => ?_) (fun d hd' hstage => ?_) (fun t => ?_) (fun t ht => ?_)
    (Or.inr ⟨by rw [hengine], fun id hid => Or.inl hid⟩)
  · have hsame : t ∈ w.reserved := by
      unfold reserved pins at ht ⊢
      rwa [hengine, hseqs] at ht
    exact ⟨Or.inl hsame, hspares t hsame⟩
  · refine le_trans (h.durable t (Or.inl ?_)) hd.durable
    unfold pins at ht ⊢
    rwa [hengine] at ht
  · rcases List.mem_or_eq_of_mem_set hd' with hd' | rfl
    · exact le_trans (h.synced d hd' hstage) hd.durable
    · exact hsynced hstage
  · have hold := h.holding t
    unfold PinStore.holding Service.pins at hold ⊢
    rwa [hengine, hsubs, hseqs]
  · unfold firm pins at ht ⊢
    rw [hengine] at ht
    rcases List.mem_append.mp ht with ht | ht
    · exact Or.inl (List.mem_append_left _ ht)
    · rcases List.mem_append.mp ht with ht | ht
      · exact Or.inl (List.mem_append_right _ (List.mem_append_left _ ht))
      · obtain ⟨d, hd', rfl⟩ := List.mem_map.mp ht
        obtain ⟨hd', hstage⟩ := List.mem_filter.mp hd'
        have hcalls : ∀ d ∈ w.calls, d.stage ≠ .held → d.seq ∈ w.pins.map Prod.snd ++ (w.phantoms ++
            (w.calls.filter fun c => decide (c.stage ≠ .held)).map PinCall.seq) := fun d hd' hne =>
          List.mem_append_right _ (List.mem_append_right _
            (List.mem_map_of_mem (List.mem_filter.mpr ⟨hd', decide_eq_true hne⟩)))
        -- a call past `held` is firm already, unless it is the one that leaves it now
        rcases List.mem_or_eq_of_mem_set hd' with hd' | rfl
        · exact Or.inl (hcalls d hd' (of_decide_eq_true hstage))
        · by_cases hheld : c.stage = .held
          · exact Or.inr ⟨hhealthy hheld, (h.files.engine.retained _ hreg).2⟩
          · exact Or.inl (hcalls c hmem hheld)

/-- A background failure. -/
theorem degrade (h : w.Inv) (hphase : w.service.phase = .running) :
    ({ w with service := { w.service with degraded := true } } : PinStore).Inv := by
  have hstreams : ({ w.service with degraded := true } : Service).Streams :=
    ⟨h.files.aside true _ _ _ _ fun hne => absurd hphase hne, h.streams.active, h.streams.pins,
      h.streams.start_le, h.streams.stands, h.streams.safe⟩
  have hd : w.service.Drift { w.service with degraded := true } :=
    { Service.Drift.refl w.service with
      degraded := fun _ => rfl
      head := Or.inl ⟨rfl, rfl⟩
      opening := fun hopen => absurd (hphase.symm.trans hopen) (by simp) }
  exact h.onward hd hstreams h.stable h.base_le (fun t ht => ⟨Or.inl ht, h.spares t ht⟩)
    (fun t ht => ⟨Or.inr ht, h.loose_ge t ht, h.durable t (Or.inr ht)⟩)
    (fun t ht => h.durable t (Or.inl ht))
    h.synced h.holding (fun t ht => Or.inl ht) (Or.inr ⟨rfl, fun id hid => Or.inl hid⟩)

/-- A manifest commit fails, and CURRENT may name what it wrote. -/
theorem loosen (h : w.Inv) {pins : List (Bytes × ℕ)}
    (hpins : ∀ t ∈ pins.map Prod.snd, t ∈ w.firm ∧ t ∈ w.reserved ∧ t ≤ w.service.durable) :
    ({ w with loose := pins :: w.loose } : PinStore).Inv := by
  have hphantoms : ∀ t ∈ ({ w with loose := pins :: w.loose } : PinStore).phantoms,
      t ∈ pins.map Prod.snd ∨ t ∈ w.phantoms := fun t ht => by
    unfold phantoms at ht ⊢
    rw [List.flatMap_cons] at ht
    exact List.mem_append.mp ht
  refine h.onward (.refl _) h.streams h.stable h.base_le (fun t ht => ⟨Or.inl ht, h.spares t ht⟩)
    (fun t ht => ?_) (fun t ht => h.durable t (Or.inl ht)) h.synced h.holding
    (fun t ht => Or.inl ?_)
    (Or.inr ⟨rfl, fun id hid => Or.inl hid⟩)
  · rcases hphantoms t ht with ht | ht
    · obtain ⟨-, hreserved, hle⟩ := hpins t ht
      have hreg := h.reserved_registered hreserved
      exact ⟨Or.inl hreserved, le_trans h.base_le (h.files.engine.retained t hreg).1, hle⟩
    · exact ⟨Or.inr ht, h.loose_ge t ht, h.durable t (Or.inr ht)⟩
  · rcases List.mem_append.mp ht with ht | ht
    · exact List.mem_append_left _ ht
    · rcases List.mem_append.mp ht with ht | ht
      · rcases hphantoms t ht with ht | ht
        · exact (hpins t ht).1
        · exact List.mem_append_right _ (List.mem_append_left _ ht)
      · exact List.mem_append_right _ (List.mem_append_right _ ht)

/-- The pins that are there already. -/
theorem of_pin (h : w.Inv) {t : ℕ} (ht : t ∈ w.pins.map Prod.snd) :
    t ∈ w.firm ∧ t ∈ w.reserved ∧ t ≤ w.service.durable :=
  ⟨List.mem_append_left _ ht, List.mem_append_left _ ht, h.durable t (Or.inl ht)⟩

/-- The pin of a synced call. -/
theorem of_call (h : w.Inv) {c : PinCall} (hc : c ∈ w.calls) (hstage : c.stage = .synced) :
    c.seq ∈ w.firm ∧ c.seq ∈ w.reserved ∧ c.seq ≤ w.service.durable :=
  ⟨List.mem_append_right _ (List.mem_append_right _ (List.mem_map_of_mem
      (List.mem_filter.mpr ⟨hc, by simp [hstage]⟩))),
    List.mem_append_right _ (List.mem_map_of_mem hc), h.synced c hc hstage⟩

/-- **The commit of a pin**: done, failed, or refused because the name is taken. -/
theorem commitPin (h : w.Inv) {i : ℕ} {c : PinCall} {ok : Bool} (hi : w.calls[i]? = some c)
    (hstage : c.stage = .synced) (hs : w.commitPin opts i c ok = some w') : w'.Inv := by
  have hmem : c ∈ w.calls := List.mem_of_getElem? hi
  have hpins : ∀ t ∈ (w.pins ++ [(c.name, c.seq)]).map Prod.snd,
      t ∈ w.firm ∧ t ∈ w.reserved ∧ t ≤ w.service.durable := fun t ht => by
    rw [List.map_append] at ht
    rcases List.mem_append.mp ht with ht | ht
    · exact h.of_pin ht
    · rw [List.mem_singleton.mp ht]
      exact h.of_call hmem hstage
  unfold PinStore.commitPin at hs
  split at hs
  · exact h.rollback hi hs
  · cases ok with
    | true =>
      obtain rfl := Option.some_inj.mp hs
      refine committed ?_
      have hreg := h.calls_registered hmem
      have hcount := fun t => (List.perm_cons_erase hreg).count_eq t
      simp only [List.count_cons, beq_iff_eq] at hcount
      refine h.reregister (.release c.seq) w.service.engine.db.snapshots
        (w.service.engine.handles.erase c.seq)
        (w.pins ++ [(c.name, c.seq)]) rfl ?_ (fun t ht => Or.inl ht) (fun t => ?_) rfl rfl rfl
        (fun t ht => (hpins t ht).2.2)
        (fun d hd hstage => h.synced d (List.mem_of_mem_eraseIdx hd) hstage)
        (fun t => ?_) (fun t ht => Or.inl (reserved_eraseIdx (fun t ht => (hpins t ht).2.1) ht))
        fun t ht => ?_
      · -- the registration passes from the call to the pin
        refine h.files.engine.snapshots.trans (List.perm_iff_count.mpr fun t => ?_)
        have := hcount t
        unfold Engine.registered PinStore.pins
        simp only [List.map_append, List.map_cons, List.map_nil, List.count_append, List.count_cons,
          List.count_nil, beq_iff_eq]
        omega
      · have := hcount t
        simp only [Action.consumes, Option.some.injEq]
        omega
      · have hold := h.holding t
        have hcalls := count_eraseIdx hi t
        have := hcount t
        unfold PinStore.holding at hold
        simp only [List.count_append, withEngine] at hold ⊢
        omega
      · rcases List.mem_append.mp ht with ht | ht
        · exact (hpins t ht).1
        · refine List.mem_append_right _
            (List.mem_append.mpr ((List.mem_append.mp ht).imp_right fun ht => ?_))
          exact ((List.eraseIdx_sublist _ _).filter _).map _ |>.subset ht
    | false =>
      -- the rollback does not look at what CURRENT may name
      obtain ⟨w₁, hback, rfl⟩ := Option.map_eq_some_iff.mp hs
      obtain ⟨e', he, rfl⟩ := Option.map_eq_some_iff.mp hback
      have hloose : PinStore.rollback opts
          { w with loose := (w.pins ++ [(c.name, c.seq)]) :: w.loose } i c =
          some _ := Option.map_eq_some_iff.mpr ⟨e', he, rfl⟩
      exact (h.loosen hpins).rollback hi hloose

/-- **The commit of an unpin**: the hold is still there. -/
theorem commitUnpin (h : w.Inv) {name : Bytes} {ok : Bool} (hs : w.commitUnpin name ok = some w') :
    w'.Inv := by
  unfold PinStore.commitUnpin at hs
  obtain ⟨p, hfind, rfl⟩ := Option.map_eq_some_iff.mp hs
  have hmem : p ∈ w.pins := List.mem_of_find?_eq_some hfind
  have hsub : ∀ t ∈ (w.pins.erase p).map Prod.snd, t ∈ w.pins.map Prod.snd := fun t ht => by
    obtain ⟨q, hq, rfl⟩ := List.mem_map.mp ht
    exact List.mem_map_of_mem (List.mem_of_mem_erase hq)
  cases ok with
  | false => exact h.loosen fun t ht => h.of_pin (hsub t ht)
  | true =>
    refine committed ?_
    -- the registration of the pin becomes a handle of the call
    have hcount := fun t => ((List.perm_cons_erase hmem).map Prod.snd).count_eq t
    simp only [List.map_cons, List.count_cons, beq_iff_eq] at hcount
    refine h.reregister .snapshot w.service.engine.db.snapshots (p.2 :: w.service.engine.handles)
      (w.pins.erase p) rfl ?_ (fun t ht => Or.inl ht) (fun t => ?_) rfl rfl rfl
      (fun t ht => h.durable t (Or.inl (hsub t ht))) h.synced (fun t => ?_)
      (fun t ht => Or.inl (List.mem_append.mpr ((List.mem_append.mp ht).imp_left (hsub t))))
      fun t ht => ?_
    · refine h.files.engine.snapshots.trans (List.perm_iff_count.mpr fun t => ?_)
      have := hcount t
      unfold PinStore.pins at this ⊢
      unfold Engine.registered
      simp only [List.count_append, List.count_cons, beq_iff_eq]
      omega
    · rw [List.count_cons]
      omega
    · have hold := h.holding t
      unfold PinStore.holding at hold
      simp only [List.count_append, List.count_cons, withEngine] at hold ⊢
      omega
    · rcases List.mem_append.mp ht with ht | ht
      · exact List.mem_append_left _ (hsub t ht)
      · exact List.mem_append_right _ ht

/-- The hold of a deleted pin is released. -/
theorem unpinned (h : w.Inv) {seq : ℕ} (hseq : seq ∈ w.unpins)
    (hs : w.service.engine.step opts (.release seq) = some e') :
    ({ w.withEngine e' with unpins := w.unpins.erase seq } : PinStore).Inv := by
  obtain ⟨hmem, rfl⟩ := Engine.guarded_eq_some hs
  have hcount := fun t => (List.perm_cons_erase hmem).count_eq t
  have hunpins := fun t => (List.perm_cons_erase hseq).count_eq t
  simp only [List.count_cons, beq_iff_eq] at hcount hunpins
  refine h.reregister (.release seq) (w.service.engine.db.snapshots.erase seq)
    (w.service.engine.handles.erase seq) w.pins rfl ?_
    (fun t ht => Or.inl (List.mem_of_mem_erase ht))
    (fun t => ?_) rfl rfl rfl (fun t ht => h.durable t (Or.inl ht)) h.synced (fun t => ?_)
    (fun t ht => Or.inl ht) fun t ht => ht
  · have hperm := h.files.engine.snapshots.erase seq
    unfold Engine.registered at hperm
    rwa [List.erase_append_left _ hmem] at hperm
  · have := hcount t
    simp only [Action.consumes, Option.some.injEq]
    omega
  · have hold := h.holding t
    have := hcount t
    have := hunpins t
    unfold PinStore.holding at hold
    simp only [List.count_append, withEngine] at hold ⊢
    omega

end Inv

/-! ### Crashes -/

/-- An unflushed version below the recovered head is one that recovery replays. -/
theorem mem_replayed {db : Db} {log : List CommitRec} {floor n : ℕ} (h : Consistent db log floor)
    (hx : x ∈ historyOf log) (hlt : db.manifest.lastFlushedSeqno < x.seq)
    (hle : x.seq ≤ db.recoveredSeqno n) :
    x ∈ batchVersions (db.replayable.take n) := by
  obtain ⟨pre, hlog, hpre⟩ := h.numbered
  obtain ⟨htake, hdrop⟩ := h.wf.take_replayable n
  have hall : Contiguous 1 (pre ++ db.replayable.take n) (db.recoveredSeqno n + 1) :=
    contiguous_append.mpr ⟨_, hpre, htake⟩
  have hcut := (mem_batchVersions_cut (e := x) hall hdrop).mpr ⟨?_, Nat.lt_succ_of_le hle⟩
  · rw [batchVersions_append] at hcut
    refine (List.mem_append.mp hcut).resolve_left fun hold => ?_
    have := ((mem_batchVersions_cut (e := x) hpre htake).mp hold).2
    omega
  · rw [List.append_assoc, List.take_append_drop, ← hlog]
    exact hx

namespace Inv

/-- What CURRENT may name holds pins that are reserved or were. -/
theorem of_manifest (h : w.Inv) {pins : List (Bytes × ℕ)} (hpins : pins ∈ w.manifests) {t : ℕ}
    (ht : t ∈ pins.map Prod.snd) : (t ∈ w.reserved ∨ t ∈ w.phantoms) ∧ w.base ≤ t ∧
      t ≤ w.service.durable := by
  rcases List.mem_cons.mp hpins with rfl | hloose
  · obtain ⟨-, hreserved, hle⟩ := h.of_pin ht
    have hreg := h.reserved_registered hreserved
    exact ⟨Or.inl hreserved, le_trans h.base_le (h.files.engine.retained t hreg).1, hle⟩
  · have hphantom : t ∈ w.phantoms := List.mem_flatMap.mpr ⟨pins, hloose, ht⟩
    exact ⟨Or.inr hphantom, h.loose_ge t hphantom, h.durable t (Or.inr hphantom)⟩

/-- The directory a crash leaves is one of a service that holds just these pins. -/
theorem onDisk (h : w.Inv) {pins : List (Bytes × ℕ)} (hpins : pins ∈ w.manifests) :
    (w.onDisk pins).Files := by
  have hfiles := h.files
  have hle : ∀ t ∈ pins.map Prod.snd, w.base ≤ t ∧ t ≤ w.service.engine.db.visibleSeqno :=
    fun t ht => by
    obtain ⟨-, hbase, hdurable⟩ := h.of_manifest hpins ht
    exact ⟨hbase, le_trans hdurable hfiles.durable_le⟩
  exact
    { hfiles with
      engine :=
        { consistent := h.stable.relabel (pins.map Prod.snd) pins w.service.engine.db.defs
          sched := fun s hs => absurd hs (Option.not_mem_none s)
          snapshots := by
            show (pins.map Prod.snd).Perm ([] ++ (pins.map Prod.snd ++ []))
            rw [List.append_nil, List.nil_append]
          retained := hle }
      waiting := fun r hr => by
        rw [show (w.onDisk pins).releasing = [] from rfl, List.append_nil] at hr
        exact hfiles.waiting r (List.mem_append_left _ hr)
      apart := fun _ _ _ hr' => absurd hr' List.not_mem_nil
      releasing := fun _ hr => absurd hr List.not_mem_nil
      pass := fun p hp => { hfiles.pass p hp with } }

/-- The next open has found the file of every pointer it replays. -/
theorem reopen_replayed {n orphan : ℕ} {vanished : List ℕ}
    (hs : s.reopen opts n orphan vanished = some s')
    {p : ValuePtr} (hp : p ∈ s.replayPointers n) : p.file ∈ s'.vlogs := by
  unfold Service.reopen at hs
  obtain ⟨e', -, hs⟩ := Option.bind_eq_some_iff.mp hs
  simp only at hs
  split at hs
  · split at hs
    · rename_i hfound
      obtain rfl := Option.some_inj.mp hs
      exact List.mem_append_left _ (hfound.2 p hp)
    · exact absurd hs (by simp)
  · exact absurd hs (by simp)

/-- **A crash and the next open** keep the invariant: no version that somebody
may read is astray after it. -/
theorem crash (h : w.Inv) {pins : List (Bytes × ℕ)} {n orphan : ℕ} {vanished : List ℕ}
    (hpins : pins ∈ w.manifests) (hvanished : ∀ id ∈ vanished, id ∈ w.unsynced)
    (hs : w.crash opts pins n orphan vanished = some w') : w'.Inv := by
  obtain ⟨s', hr, rfl⟩ := Option.map_eq_some_iff.mp hs
  have hdisk := h.onDisk hpins
  have hfiles := hdisk.reopened hr
  have hreplayed : ∀ q ∈ w.service.replayPointers n, q.file ∈ s'.vlogs :=
    fun q => reopen_replayed hr
  obtain ⟨e', disk, he, hdiskEq, -, hkept, -, -, rfl⟩ := Service.reopen_cases hr
  have hrec := recovered_of_reopen hdisk.engine he
  obtain ⟨db', hdb, rfl⟩ := Option.map_eq_some_iff.mp he
  obtain ⟨next, run?, hre, -⟩ := reopen_spec hdisk.engine.consistent.wf hdb
  have hphantoms :
      ∀ t ∈ (if (w.service.engine.db.recovered n).isEmpty then w.manifests else []).flatMap
      (fun pins => pins.map Prod.snd), (t ∈ w.reserved ∨ t ∈ w.phantoms) ∧ w.base ≤ t ∧
        t ≤ w.service.durable := fun t ht => by
    obtain ⟨pins', hmem, ht⟩ := List.mem_flatMap.mp ht
    split at hmem
    · exact h.of_manifest hmem ht
    · exact absurd hmem List.not_mem_nil
  refine
    { streams := ⟨hfiles, rfl, fun _ => Nat.zero_le _, fun _ hu => absurd hu List.not_mem_nil,
        fun _ hu => absurd hu List.not_mem_nil, fun _ hu => absurd hu List.not_mem_nil⟩
      stable := hfiles.engine.consistent
      base_le := le_rfl
      loose_ge := fun t ht => (hphantoms t ht).2.1
      durable := fun t ht => ?_
      synced := fun c hc => absurd hc List.not_mem_nil
      holding := fun _ => Nat.zero_le _
      spares := fun _ _ => ⟨fun _ hr => absurd hr List.not_mem_nil, fun _ hw => nomatch hw⟩
      strays := fun x p ha => ?_
      head := Or.inl rfl
      head_file := ⟨List.mem_append_right _ (List.mem_singleton_self _), List.not_mem_nil⟩
      opening := fun _ => rfl }
  · rcases ht with ht | ht
    · have hsame : db'.manifest.pins = pins := hre.pins
      exact (h.of_manifest hpins (t := t) (hsame ▸ ht)).2.2
    · exact (hphantoms t ht).2.2
  · exfalso
    obtain ⟨hx, hle⟩ := (hrec.history x).mp ha.committed
    have hunread : ¬ w.Unread x := by
      rintro ⟨b, hb, hall, hshadow⟩
      have hflushed := le_trans hb hrec.flushed_le
      refine ha.read ⟨b, le_of_le_of_eq hflushed hrec.flushed.symm,
        fun t ht => ?_, hrec.shadowed hflushed hshadow⟩
      rcases ht with ht | ht
      · have hsame : db'.manifest.pins = pins := hre.pins
        refine hall t (h.of_manifest hpins ?_).1
        exact hsame ▸ (List.mem_append.mp ht).resolve_right List.not_mem_nil
      · exact hall t (hphantoms t ht).1
    have hmapped : ∀ id ∈ w.service.manifest.adopt disk, id ≠ p.file := fun id hid heq =>
      ha.unmapped (List.mem_append_left _ (heq ▸ hid))
    have hout : p.file ∉ w.service.vlogs := fun hmem =>
      hmapped _ (hdisk.adopted (fun id hid => hdiskEq ▸ List.mem_filter.mpr ⟨hdisk.on_disk id hid,
        decide_eq_true fun hv => hkept id hv hid⟩) _ hmem) rfl
    have hlate := h.strays x p ⟨hx, ha.ptr, hout, hunread⟩
    by_cases hflushed : x.seq ≤ w.service.engine.db.manifest.lastFlushedSeqno
    · -- the file's directory entry is durable, and the file is young
      have hmem : p.file ∈ disk := hdiskEq ▸ List.mem_filter.mpr ⟨hlate.on_disk,
        decide_eq_true fun hv => hlate.synced hflushed (hvanished _ hv)⟩
      refine hmapped p.file (Service.Files.mem_adopt.mpr ?_) rfl
      by_cases hl : p.file ∈ w.service.manifest.live
      · exact Or.inl hl
      · by_cases hret : p.file ∈ w.service.manifest.retiredIds
        · exact Or.inr ⟨hmem, Or.inl hret⟩
        · exact Or.inr ⟨hmem, Or.inr ⟨hlate.young, hl, hret⟩⟩
    · -- recovery replays the version, so it has found the file
      have hmem := mem_replayed h.stable hx (not_le.mp hflushed) hle
      refine ha.unmapped (hreplayed p (List.mem_filterMap.mpr ⟨x, hmem, ?_⟩))
      rw [ha.ptr]

/-- A crash during an open, before its flush. -/
theorem crashOpening (h : w.Inv) {id : ℕ} (hs : w.service.step opts (.crashOpening id) = some s') :
    ({ w with service := s', calls := [], unpins := [], unsynced := id :: w.unsynced } :
        PinStore).Inv := by
  have hstreams := streams_step h.streams hs
  obtain ⟨⟨hge, -⟩, rfl⟩ := Service.guarded_eq_some hs
  refine h.onward
    { Service.Drift.refl w.service with
      disk := fun i hi => Or.inr (List.mem_append_left _ hi)
      obsolete := fun i hi => absurd hi List.not_mem_nil
      head := Or.inl ⟨rfl, rfl⟩
      opening := fun hopen => absurd hopen (by simp) }
    hstreams h.stable h.base_le
    (fun t ht =>
      ⟨Or.inl (List.mem_append_left _ ((List.mem_append.mp ht).resolve_right List.not_mem_nil)),
      fun _ hr => absurd hr List.not_mem_nil, fun _ hw => nomatch hw⟩)
    (fun t ht => ⟨Or.inr ht, h.loose_ge t ht, h.durable t (Or.inr ht)⟩)
    (fun t ht => h.durable t (Or.inl ht)) (fun c hc => absurd hc List.not_mem_nil)
    (fun _ => Nat.zero_le _)
    (fun t ht => Or.inl ?_) (Or.inr ⟨rfl, fun i hi => ?_⟩)
  · rcases List.mem_append.mp ht with ht | ht
    · exact List.mem_append_left _ ht
    · rcases List.mem_append.mp ht with ht | ht
      · exact List.mem_append_right _ (List.mem_append_left _ ht)
      · exact absurd ht List.not_mem_nil
  · rcases List.mem_cons.mp hi with rfl | hi
    · exact Or.inr hge
    · exact Or.inl hi

theorem init (opts : Options) : (PinStore.init opts).Inv where
  streams := streams_init opts
  stable := (inv_init opts).consistent
  base_le := le_rfl
  loose_ge := fun _ ht => absurd ht List.not_mem_nil
  durable := fun _ ht => ht.elim (fun ht => absurd ht List.not_mem_nil) fun ht =>
    absurd ht List.not_mem_nil
  synced := fun _ hc => absurd hc List.not_mem_nil
  holding := fun _ => le_rfl
  spares := fun _ ht => absurd ht List.not_mem_nil
  strays := fun _ _ ha => absurd ha.committed List.not_mem_nil
  head := Or.inl rfl
  head_file := ⟨List.mem_singleton_self _, List.not_mem_nil⟩
  opening := fun _ => rfl

/-- **Every step** keeps the invariant. -/
theorem step (h : w.Inv) {act : PinAction} (hs : w.step opts act = some w') : w'.Inv := by
  cases act with
  | serve act =>
    obtain ⟨⟨hplain, hfree⟩, hs⟩ := Option.ite_none_right_eq_some.mp hs
    obtain ⟨s', hserve, rfl⟩ := Option.map_eq_some_iff.mp hs
    cases hc : w.service.commits s' act with
    | false => exact h.serve hplain hfree hserve hc
    | true => exact h.serve_commits hplain hfree hserve hc
  | degrade =>
    obtain ⟨hphase, hs⟩ := Option.ite_none_right_eq_some.mp hs
    obtain rfl := Option.some_inj.mp hs
    exact h.degrade hphase
  | pinBegin name =>
    obtain ⟨-, hs⟩ := Option.ite_none_right_eq_some.mp hs
    obtain ⟨e', he, rfl⟩ := Option.map_eq_some_iff.mp hs
    exact h.pinBegin name he
  | pinCheck i closing =>
    obtain ⟨c, hi, hs⟩ := Option.bind_eq_some_iff.mp hs
    obtain ⟨hstage, hs⟩ := Option.ite_none_right_eq_some.mp hs
    split at hs
    · exact h.rollback hi hs
    · rename_i hhealthy
      obtain rfl := Option.some_inj.mp hs
      refine h.advance hi (.refl _) h.streams rfl rfl h.spares (fun _ => ?_) fun heq =>
        absurd heq (by simp)
      -- the check read the store before: it is not degraded
      simp only [Bool.or_eq_true, not_or, Bool.not_eq_true] at hhealthy
      exact hhealthy.1
  | pinSync i ok =>
    obtain ⟨c, hi, hs⟩ := Option.bind_eq_some_iff.mp hs
    obtain ⟨⟨hstage, hphase, -⟩, hs⟩ := Option.ite_none_right_eq_some.mp hs
    cases ok with
    | true =>
      obtain rfl := Option.some_inj.mp hs
      -- the seqno of the call is registered, so the sync makes it durable
      have hreg := h.calls_registered (List.mem_of_getElem? hi)
      have hle := (h.files.engine.retained _ (h.files.engine.snapshots.mem_iff.mpr
        (List.mem_append_left _ hreg))).2
      refine h.advance hi { Service.Drift.refl w.service with
          durable := h.files.durable_le
          head := Or.inl ⟨rfl, rfl⟩ }
            ⟨h.files.sync, h.streams.active, h.streams.pins, h.streams.start_le,
          h.streams.stands, h.streams.safe⟩ rfl rfl h.spares (fun heq => ?_) fun _ => hle
      exact absurd (hstage.symm.trans heq) (by simp)
    | false =>
      -- a sync that fails degrades the store first
      exact (h.degrade hphase).rollback hi hs
  | pinCommit i ok =>
    obtain ⟨c, hi, hs⟩ := Option.bind_eq_some_iff.mp hs
    obtain ⟨hstage, hs⟩ := Option.ite_none_right_eq_some.mp hs
    exact h.commitPin hi hstage hs
  | unpin name ok =>
    obtain ⟨-, hs⟩ := Option.ite_none_right_eq_some.mp hs
    exact h.commitUnpin hs
  | unpinned seq =>
    obtain ⟨hseq, hs⟩ := Option.ite_none_right_eq_some.mp hs
    obtain ⟨e', he, rfl⟩ := Option.map_eq_some_iff.mp hs
    exact h.unpinned hseq he
  | manifest ok =>
    obtain ⟨-, hs⟩ := Option.ite_none_right_eq_some.mp hs
    obtain rfl := Option.some_inj.mp hs
    cases ok with
    | true => exact h.committed
    | false => exact h.loosen fun t ht => h.of_pin ht
  | crash pins n orphan vanished =>
    obtain ⟨⟨hpins, hvanished⟩, hs⟩ := Option.ite_none_right_eq_some.mp hs
    exact h.crash hpins hvanished hs
  | crashOpening id =>
    obtain ⟨s', hcrash, rfl⟩ := Option.map_eq_some_iff.mp hs
    exact h.crashOpening hcrash

end Inv

end PinStore
end Fluent31
