/-
No file id is used twice and no file in use is deleted.

`FileStore.Anchored` says what every directory shows that a power loss could
leave while a process runs, `Opening` what holds inside `open` before its head and
WAL are durable.  The head and the WAL of a process outlive it, and every id it
retires, deletes or takes from the manifest lies below one of them or below the
recorded counter: that is why the derived counter clears ids that no commit
recorded.

* `file_ids` — the store's ids and files in every run from a fresh directory or
  a fork.
-/
import Fluent31.FileLedger

namespace Fluent31

variable {d : StoreDir} {wals wals' : ℕ → List LogRecord} {targets : List ℕ}

/-! ### The store -/

namespace FileProcess

/-- Files that are durable: those of the versions in use, of a synced rotation, and
the tables of a commit whose directory entries are synced. -/
def Firm (p : FileProcess) (f : StoreFile) : Prop :=
  (∃ q ∈ p.version :: p.pinned, f ∈ q.files) ∨
    (∃ r, p.rotating = some r ∧ r.synced = true ∧ f = r.file) ∨
    ∃ c, p.commit = some c ∧ p.phase ≠ .written ∧ f.1 = .sst ∧ f.2 ∈ c.data.tables

/-- Files that are there and not yet durable. -/
def Held (p : FileProcess) (f : StoreFile) : Prop :=
  (∃ r, p.rotating = some r ∧ f = r.file) ∨
    (∃ c, p.commit = some c ∧ f.1 = .sst ∧ f.2 ∈ c.data.tables) ∨ f.1 = .sst ∧ f.2 ∈ p.outputs

/-- What the process, its manifests or a replay of its WALs still need. -/
def Keeps (p : FileProcess) (targets : List ℕ) (f : StoreFile) : Prop :=
  p.Firm f ∨ p.Held f ∨ ∃ w ∈ targets, p.data.walFloor ≤ w ∧ (.wal, w) = f

/-- What every directory shows that a power loss could leave. -/
structure Shows (p : FileProcess) (targets : List ℕ) (d : StoreDir) : Prop where
  agree : d.gen = p.gen ∧ d.data = p.data ∨
    ∃ c, p.commit = some c ∧ p.phase = .flipped ∧ d.gen = p.gen + 1 ∧ d.data = c.data
  manifest : p.gen ∈ d.manifests
  saved : p.commit ≠ none → p.phase ≠ .written → p.gen + 1 ∈ d.manifests
  firm : ∀ f, p.Firm f → f ∈ d.files
  walFiles : ∀ w ∈ targets, p.data.walFloor ≤ w → (.wal, w) ∈ d.files
  below : ∀ f ∈ d.files, f.2 < p.next
  fresh : ∀ f ∈ d.files, f.2 ∉ p.allocated

namespace Shows

variable {p : FileProcess}

theorem vlog (hd : p.Shows targets d) {v : ℕ} (hv : v ∈ p.version.vlogs) : (.vlog, v) ∈ d.files :=
  hd.firm _ (.inl ⟨p.version, List.mem_cons_self, FileVersion.mem_files.mpr (.inr ⟨rfl, hv⟩)⟩)

theorem table (hd : p.Shows targets d) {t : ℕ} (ht : t ∈ p.version.tables) : (.sst, t) ∈ d.files :=
  hd.firm _ (.inl ⟨p.version, List.mem_cons_self, FileVersion.mem_files.mpr (.inl ⟨rfl, ht⟩)⟩)

theorem create (hd : p.Shows targets d) {f : StoreFile} (hlt : f.2 < p.next)
    (hfresh : f.2 ∉ p.allocated) :
    p.Shows targets (d.create f) :=
  { hd with
    firm := fun g hg => StoreDir.mem_create.mpr (.inr (hd.firm g hg))
    walFiles := fun w hw hle => StoreDir.mem_create.mpr (.inr (hd.walFiles w hw hle))
    below := fun g hg => by
      rcases StoreDir.mem_create.mp hg with rfl | hg
      exacts [hlt, hd.below g hg]
    fresh := fun g hg => by
      rcases StoreDir.mem_create.mp hg with rfl | hg
      exacts [hfresh, hd.fresh g hg] }

theorem unlink (hd : p.Shows targets d) {f : StoreFile} (hf : ¬ p.Keeps targets f) :
    p.Shows targets (d.unlink f) :=
  { hd with
    firm := fun g hg => StoreDir.mem_unlink.mpr ⟨hd.firm g hg, fun heq => hf (.inl (heq ▸ hg))⟩
    walFiles := fun w hw hle => StoreDir.mem_unlink.mpr
      ⟨hd.walFiles w hw hle, fun heq => hf (.inr (.inr ⟨w, hw, hle, heq⟩))⟩
    below := fun g hg => hd.below g (StoreDir.mem_unlink.mp hg).1
    fresh := fun g hg => hd.fresh g (StoreDir.mem_unlink.mp hg).1 }

theorem sweep (hd : p.Shows targets d) {gen : ℕ} (hlt : gen < p.gen) :
    p.Shows targets (d.sweep gen) :=
  { hd with
    manifest := List.mem_filter.mpr ⟨hd.manifest, decide_eq_true hlt.ne'⟩
    saved := fun hc hp =>
      List.mem_filter.mpr ⟨hd.saved hc hp, decide_eq_true (hlt.trans (Nat.lt_succ_self _)).ne'⟩ }

end Shows

end FileProcess

namespace FileStore

/-- The disk holds all a recovery needs, whatever a power loss leaves. -/
structure Settled (s : FileStore) : Prop where
  sound : s.disk.Always (StoreDir.Sound · s.wals s.targets)
  below : s.disk.Always fun d => ∀ f ∈ d.files, f.2 < s.disk.view.recoverNext
  written : ∀ w, s.wals w ≠ [] → w ∈ s.targets

/-- A process whose head and WAL are durable. -/
structure Anchored (s : FileStore) (p : FileProcess) : Prop where
  ledger : p.Ledger s.wals s.targets
  target : p.wal ∈ s.targets
  shows : s.disk.Always (p.Shows s.targets)
  held : ∀ f, p.Held f → f ∈ s.disk.view.files
  saved : p.commit ≠ none → p.gen + 1 ∈ s.disk.view.manifests
  flipped : p.phase = .flipped → ∀ c, p.commit = some c →
    s.disk.view.gen = p.gen + 1 ∧ s.disk.view.data = c.data
  /-- Files whose deletion is not durable. -/
  stale : s.disk.Always fun d => ∀ f ∈ d.files, f ∈ s.disk.view.files ∨ f.2 < p.anchor
  written : ∀ w, s.wals w ≠ [] → w ∈ s.targets

/-- A process inside `open` before its head and WAL are durable. -/
structure Opening (s : FileStore) (p : FileProcess) : Prop where
  settled : s.Settled
  ledger : p.opened.Ledger s.wals s.targets
  gen : s.disk.view.gen = p.gen
  data : s.disk.view.data = p.data
  below : s.disk.Always fun d => ∀ f ∈ d.files, f.2 < p.next
  vlogs : ∀ v ∈ p.version.vlogs, (.vlog, v) ∈ s.disk.view.files
  wal : p.stage = .syncFresh → (.wal, p.wal) ∈ s.disk.view.files
  idle : p.commit = none ∧ p.allocated = [] ∧ p.outputs = []

structure Inv (s : FileStore) : Prop where
  collided : s.collided = false
  missing : s.missing = false
  settled : s.proc = none → s.Settled
  anchored : ∀ p, s.proc = some p → p.stage.anchored = true → s.Anchored p
  opening : ∀ p, s.proc = some p → p.stage.anchored = false → s.Opening p

variable {s s' : FileStore} {p : FileProcess}

/-! #### What a power loss leaves of a running process -/

/-- Its manifest is the last one or the one being committed. -/
theorem shown_backs (h : p.Ledger wals targets) (hd : p.Shows targets d) :
    (∃ gone, p.backing.Backs wals d.data gone) ∧ p.data.nextFileId ≤ d.data.nextFileId ∧
      p.data.walFloor ≤ d.data.walFloor ∧ ∀ t ∈ d.data.tables, (.sst, t) ∈ d.files := by
  rcases hd.agree with ⟨-, hdata⟩ | ⟨c, hc, hphase, -, hdata⟩
  · rw [hdata]
    refine ⟨⟨[], h.current⟩, le_rfl, le_rfl, fun t ht => ?_⟩
    exact hd.table (h.tables ▸ ht)
  · rw [hdata]
    obtain ⟨hb, hnext, hfloor⟩ := h.pending c hc
    refine ⟨⟨_, hb⟩, hnext, hfloor, fun t ht => ?_⟩
    exact hd.firm _ (.inr (.inr ⟨c, hc, by rw [hphase]; decide, rfl, ht⟩))

theorem head_lt_recoverNext (h : p.Ledger wals targets) (hd : p.Shows targets d) :
    p.head < d.recoverNext := by
  obtain ⟨⟨gone, hb⟩, -⟩ := shown_backs h hd
  exact StoreDir.lt_recoverNext (hd.vlog h.head_mem)
    ⟨hb.head_le, fun hret => (hb.retired _ hret).2.1 rfl⟩

theorem wal_lt_recoverNext (h : p.Ledger wals targets) (hd : p.Shows targets d)
    (htarget : p.wal ∈ targets) :
    p.wal < d.recoverNext :=
  StoreDir.recoverNext_spec.2.2.1 _ (hd.walFiles _ htarget h.current.floor_wal)

theorem anchor_le_recoverNext (h : p.Ledger wals targets) (hd : p.Shows targets d)
    (htarget : p.wal ∈ targets) :
    p.anchor ≤ d.recoverNext :=
  max_le ((shown_backs h hd).2.1.trans StoreDir.recoverNext_spec.1.1)
    (max_le (head_lt_recoverNext h hd) (wal_lt_recoverNext h hd htarget))

theorem shown_sound (h : p.Ledger wals targets) (hd : p.Shows targets d)
    (htarget : p.wal ∈ targets) :
    d.Sound wals targets := by
  obtain ⟨⟨gone, hb⟩, -, hfloor, htables⟩ := shown_backs h hd
  have hhead := head_lt_recoverNext h hd
  exact
  { manifest := by
      rcases hd.agree with ⟨hgen, -⟩ | ⟨c, hc, hphase, hgen, -⟩ <;> rw [hgen]
      · exact hd.manifest
      · exact hd.saved (by rw [hc]; simp) (by rw [hphase]; decide)
    tables := fun t ht => ⟨htables t ht, hb.tables_lt t ht⟩
    live := fun v hv => ⟨hd.vlog (hb.live v hv).1, (hb.live v hv).2.1⟩
    retired := fun v hv => ⟨hd.vlog (hb.retired v hv).1,
      (h.vlogs_le v (hb.retired v hv).1).trans_lt hhead⟩
    floor := hb.floor_next
    head := hb.head_le.trans hhead.le
    ptrs := fun w hw r hr v hv => by
      obtain ⟨hmem, hgone⟩ := hb.ptrs w hw r hr v hv
      exact ⟨hd.vlog hmem, hb.covered v hmem hgone⟩
    walFiles := fun w hw hle => hd.walFiles w hw (hfloor.trans hle)
    targets_lt := fun w hw => (h.targets_le w hw).trans_lt (wal_lt_recoverNext h hd htarget) }

theorem Anchored.settled (h : s.Anchored p) : s.Settled where
  sound := h.shows.mono fun d hd => shown_sound h.ledger hd h.target
  below n f hf := by
    rcases h.stale n f hf with hview | hlt
    · exact (shown_sound h.ledger h.shows.view h.target).below hview
    · exact hlt.trans_le (anchor_le_recoverNext h.ledger h.shows.view h.target)
  written := h.written

/-! #### Directory operations of a running process -/

theorem wals_createNew (f : StoreFile) (q : FileProcess) (w : ℕ) :
    ∀ r ∈ (s.createNew f q).wals w, r ∈ s.wals w := by
  intro r hr
  change r ∈ (if f.1 = .wal then Function.update s.wals f.2 [] else s.wals) w at hr
  split at hr
  · rcases eq_or_ne w f.2 with rfl | hne
    · rw [Function.update_self] at hr
      exact absurd hr List.not_mem_nil
    · rwa [Function.update_of_ne hne] at hr
  · exact hr

theorem written_createNew (h : ∀ w, s.wals w ≠ [] → w ∈ s.targets) (f : StoreFile)
    (q : FileProcess) :
    ∀ w, (s.createNew f q).wals w ≠ [] → w ∈ s.targets := fun w hw => by
  obtain ⟨r, hr⟩ := List.exists_mem_of_ne_nil _ hw
  exact h w (List.ne_nil_of_mem (wals_createNew f q w r hr))

theorem Anchored.createNew {q : FileProcess} {f : StoreFile} (h : s.Anchored p)
    (hled : q.Ledger s.wals s.targets)
    (hshows : s.disk.Always (q.Shows s.targets)) (hwal : q.wal = p.wal)
    (hanchor : q.anchor = p.anchor)
    (hgen : q.gen = p.gen) (hcommit : q.commit = p.commit) (hphase : q.phase = p.phase)
    (hheld : ∀ g, q.Held g → g = f ∨ p.Held g) (hlt : f.2 < q.next) (hfresh : f.2 ∉ q.allocated) :
    (s.createNew f q).Anchored q where
  ledger := hled.sub (wals_createNew f q)
  target := hwal ▸ h.target
  shows := hshows.push (FileProcess.Shows.create hshows.view hlt hfresh)
  held g hg := by
    change g ∈ (s.disk.push (·.create f)).view.files
    rw [Unsynced.view_push, StoreDir.mem_create]
    exact (hheld g hg).imp_right (h.held g)
  saved hc := by
    change _ ∈ (s.disk.push (·.create f)).view.manifests
    rw [Unsynced.view_push, hgen]
    exact h.saved (hcommit ▸ hc)
  flipped hp c hc := by
    change (s.disk.push (·.create f)).view.gen = _ ∧ (s.disk.push (·.create f)).view.data = _
    rw [Unsynced.view_push, hgen]
    exact h.flipped (hphase ▸ hp) c (hcommit ▸ hc)
  stale := by
    change (s.disk.push (·.create f)).Always fun d => ∀ g ∈ d.files,
      g ∈ (s.disk.push (·.create f)).view.files ∨ g.2 < q.anchor
    rw [Unsynced.view_push, hanchor]
    exact Unsynced.Always.push (h.stale.mono fun d hd g hg => (hd g hg).imp_left fun hv =>
      StoreDir.mem_create.mpr (.inr hv)) fun g hg => .inl hg
  written := written_createNew h.written f q

theorem Anchored.unlink {f : StoreFile} (h : s.Anchored p) (hf : ¬ p.Keeps s.targets f)
    (hlt : f ∈ s.disk.view.files → f.2 < p.anchor) :
    Anchored { s with disk := s.disk.push (·.unlink f) } p :=
  { h with
    shows := h.shows.push (FileProcess.Shows.unlink h.shows.view hf)
    held := fun g hg => by
      rw [Unsynced.view_push, StoreDir.mem_unlink]
      exact ⟨h.held g hg, fun heq => hf (.inr (.inl (heq ▸ hg)))⟩
    saved := fun hc => by
      rw [Unsynced.view_push]
      exact h.saved hc
    flipped := fun hp c hc => by
      rw [Unsynced.view_push]
      exact h.flipped hp c hc
    stale := by
      rw [Unsynced.view_push]
      refine Unsynced.Always.push (h.stale.mono fun d hd g hg => ?_) fun g hg => .inl hg
      rcases hd g hg with hv | hv
      · rcases eq_or_ne g f with rfl | hne
        exacts [.inr (hlt hv), .inl (StoreDir.mem_unlink.mpr ⟨hv, hne⟩)]
      · exact .inr hv }

theorem Anchored.sync (h : s.Anchored p) : Anchored { s with disk := s.disk.sync } p :=
  { h with
    shows := Unsynced.Always.sync h.shows.view
    stale := Unsynced.Always.sync fun _ hg => .inl hg }

theorem Anchored.sweep (h : s.Anchored p) {gen : ℕ} (hlt : gen < p.gen) :
    Anchored { s with disk := s.disk.push (·.sweep gen) } p :=
  { h with
    shows := h.shows.push (FileProcess.Shows.sweep h.shows.view hlt)
    held := fun g hg => by
      rw [Unsynced.view_push]
      exact h.held g hg
    saved := fun hc => by
      rw [Unsynced.view_push]
      exact List.mem_filter.mpr ⟨h.saved hc, decide_eq_true (hlt.trans (Nat.lt_succ_self _)).ne'⟩
    flipped := fun hp c hc => by
      rw [Unsynced.view_push]
      exact h.flipped hp c hc
    stale := by
      rw [Unsynced.view_push]
      exact Unsynced.Always.push h.stale fun g hg => .inl hg }

/-! #### Steps of a running process -/

namespace Anchored

theorem fresh_id (h : s.Anchored p) {id : ℕ} (hid : id ∈ p.allocated) :
    (∀ kind, (kind, id) ∉ s.disk.view.files) ∧ id ∉ p.data.tables ∧ id ∉ p.version.vlogs ∧
      ∀ c, p.commit = some c → id ∉ c.data.tables := by
  have hfree : ∀ kind, (kind, id) ∉ s.disk.view.files := fun kind hf => h.shows.view.fresh _ hf hid
  refine ⟨hfree, fun ht => hfree .sst (h.shows.view.table (h.ledger.tables ▸ ht)),
    fun hv => hfree .vlog (h.shows.view.vlog hv), fun c hc ht => hfree .sst (h.held _ ?_)⟩
  exact .inr (.inl ⟨c, hc, rfl, ht⟩)

theorem alloc (h : s.Anchored p) (hw : p.working = true) :
    Anchored
      { s with proc := some { p with next := p.next + 1, allocated := p.next :: p.allocated } }
      { p with next := p.next + 1, allocated := p.next :: p.allocated } :=
  { h with
    ledger := h.ledger.alloc hw
    shows := h.shows.mono fun d hd => { hd with
      below := fun f hf => Nat.lt_succ_of_lt (hd.below f hf)
      fresh := fun f hf hmem => by
        rcases List.mem_cons.mp hmem with heq | hmem
        exacts [(hd.below f hf).ne heq, hd.fresh f hf hmem] } }

theorem createTable (h : s.Anchored p) (hw : p.working = true) {id : ℕ} (hid : id ∈ p.allocated) :
    (s.createNew (.sst, id) { p with
      allocated := p.allocated.filter (· ≠ id), outputs := id :: p.outputs }).Anchored { p with
        allocated := p.allocated.filter (· ≠ id), outputs := id :: p.outputs } := by
  obtain ⟨-, hcur, -, hnew⟩ := h.fresh_id hid
  refine h.createNew (h.ledger.createTable hw hid hcur hnew) ?_ rfl rfl rfl rfl rfl ?_
    (h.ledger.allocated id hid).1 fun hmem => of_decide_eq_true (List.mem_filter.mp hmem).2 rfl
  · exact h.shows.mono fun d hd =>
      { hd with fresh := fun f hf hmem => hd.fresh f hf (List.mem_of_mem_filter hmem) }
  · rintro g (hr | hc | ⟨hk, hg⟩)
    · exact .inr (.inl hr)
    · exact .inr (.inr (.inl hc))
    · rcases List.mem_cons.mp hg with heq | hg
      exacts [.inl (Prod.ext hk heq), .inr (.inr (.inr ⟨hk, hg⟩))]

theorem rotate (h : s.Anchored p) (hrun : p.stage = .running) {kind : FileKind} (hk : kind ≠ .sst) :
    (s.createNew (kind, p.next) { p with
      next := p.next + 1, rotating := some ⟨(kind, p.next), false⟩ }).Anchored { p with
        next := p.next + 1, rotating := some ⟨(kind, p.next), false⟩ } := by
  refine h.createNew (h.ledger.rotate hrun hk false) ?_ rfl rfl rfl rfl rfl ?_ (Nat.lt_succ_self _)
    fun hmem => absurd (h.ledger.allocated _ hmem).1 (lt_irrefl _)
  · refine h.shows.mono fun d hd => { hd with
      firm := fun f hf => hd.firm f ?_
      below := fun f hf => Nat.lt_succ_of_lt (hd.below f hf) }
    rcases hf with hv | ⟨r, hr, hsync, -⟩ | hc
    · exact .inl hv
    · cases hr
      cases hsync
    · exact .inr (.inr hc)
  · rintro g (⟨r, hr, rfl⟩ | hg)
    · cases hr
      exact .inl rfl
    · exact .inr (.inr hg)

theorem rotateSync (h : s.Anchored p) {r : Rotation} (hr : p.rotating = some r) :
    Anchored
      { s with
        disk := s.disk.sync
        proc := some { p with rotating := some { r with synced := true } } }
      { p with rotating := some { r with synced := true } } :=
  { h with
    ledger := h.ledger.rotateSync hr
    shows := Unsynced.Always.sync { h.shows.view with
      firm := fun f hf => by
        rcases hf with hv | ⟨r', hr', -, rfl⟩ | hc
        · exact h.shows.view.firm f (.inl hv)
        · cases hr'
          exact h.held _ (.inl ⟨r, hr, rfl⟩)
        · exact h.shows.view.firm f (.inr (.inr hc)) }
    held := fun g hg => by
      rcases hg with ⟨r', hr', rfl⟩ | hg
      · cases hr'
        exact h.held _ (.inl ⟨r, hr, rfl⟩)
      · exact h.held g (.inr hg)
    stale := Unsynced.Always.sync fun g hg => .inl hg }

theorem adoptWal (h : s.Anchored p) {id : ℕ} (hr : p.rotating = some ⟨(.wal, id), true⟩)
    (seq : Option ℕ) (hseq : ∀ x, seq = some x → x = p.visible) :
    Anchored { s with
        proc := some { p with rotating := none, wal := id, imms := (p.wal, seq) :: p.imms }
        targets := id :: s.targets }
      { p with rotating := none, wal := id, imms := (p.wal, seq) :: p.imms } :=
  { h with
    ledger := h.ledger.adoptWal h.written hr seq hseq
    target := List.mem_cons_self
    shows := h.shows.mono fun d hd => { hd with
      firm := fun f hf => by
        rcases hf with hv | ⟨r, hr', -⟩ | hc
        · exact hd.firm f (.inl hv)
        · cases hr'
        · exact hd.firm f (.inr (.inr hc))
      walFiles := fun w hw hle => by
        rcases List.mem_cons.mp hw with rfl | hw
        exacts [hd.firm _ (.inr (.inl ⟨_, hr, rfl, rfl⟩)), hd.walFiles w hw hle] }
    held := fun g hg => by
      rcases hg with ⟨r, hr', -⟩ | hg
      · cases hr'
      · exact h.held g (.inr hg)
    stale := h.stale.mono fun d hd g hg => (hd g hg).imp_right fun hlt => by
      have := (h.ledger.rotating _ hr).2.2.1
      dsimp only [FileProcess.anchor] at hlt this ⊢
      omega
    written := fun w hw => List.mem_cons_of_mem _ (h.written w hw) }

theorem adoptVlog (h : s.Anchored p) {id : ℕ} (hr : p.rotating = some ⟨(.vlog, id), true⟩) :
    Anchored
      { s with proc := some { p with
          rotating := none
          head := id
          version := { p.version with vlogs := id :: p.version.vlogs } } }
      { p with
        rotating := none
        head := id
        version := { p.version with vlogs := id :: p.version.vlogs } } :=
  { h with
    ledger := h.ledger.adoptVlog hr
    shows := h.shows.mono fun d hd => { hd with
      firm := fun f hf => by
        rcases hf with ⟨q, hq, hf⟩ | ⟨r, hr', -⟩ | hc
        · rcases List.mem_cons.mp hq with rfl | hq
          · rcases FileVersion.mem_files.mp hf with ⟨hk, ht⟩ | ⟨hk, hv⟩
            · exact (Prod.ext hk rfl : f = (.sst, f.2)) ▸ hd.table ht
            · rw [(Prod.ext hk rfl : f = (.vlog, f.2))]
              rcases List.mem_cons.mp hv with heq | hv
              · rw [heq]
                -- the new head was synced while it was rotating
                exact hd.firm _ (.inr (.inl ⟨_, hr, rfl, rfl⟩))
              · exact hd.vlog hv
          · exact hd.firm f (.inl ⟨q, List.mem_cons_of_mem _ hq, hf⟩)
        · cases hr'
        · exact hd.firm f (.inr (.inr hc)) }
    held := fun g hg => by
      rcases hg with ⟨r, hr', -⟩ | hg
      · cases hr'
      · exact h.held g (.inr hg)
    stale := h.stale.mono fun d hd g hg => (hd g hg).imp_right fun hlt => by
      have := (h.ledger.rotating _ hr).2.1
      dsimp only [FileProcess.anchor] at hlt this ⊢
      omega }

theorem append (h : s.Anchored p) (hrun : p.stage = .running) (n : ℕ) (large : Bool) :
    Anchored { s with
        wals := Function.update s.wals p.wal
          (s.wals p.wal ++ [⟨p.visible + n + 1, if large then [p.head] else []⟩])
        proc := some { p with visible := p.visible + n + 1 } }
      { p with visible := p.visible + n + 1 } :=
  { h with
    ledger := h.ledger.append hrun n large
    shows := h.shows.mono fun d hd => { hd with }
    written := fun w hw => by
      rcases eq_or_ne w p.wal with rfl | hne
      · exact h.target
      · change Function.update s.wals p.wal _ w ≠ [] at hw
        rw [Function.update_of_ne hne] at hw
        exact h.written w hw }

theorem pick (h : s.Anchored p) (hrun : p.stage = .running) (hidle : p.commit = none) {v : ℕ}
    (hv : v ∈ p.version.vlogs) (hne : v ≠ p.head) (hret : v ∉ p.data.retiredIds) :
    Anchored { s with proc := some { p with victim := some (v, none) } }
      { p with victim := some (v, none) } :=
  { h with
    ledger := h.ledger.pick hrun hidle hv hne hret
    shows := h.shows.mono fun _ hd => { hd with } }

theorem sample (h : s.Anchored p) :
    Anchored
      { s with proc := some { p with victim := p.victim.map fun x => (x.1, some p.visible) } }
      { p with victim := p.victim.map fun x => (x.1, some p.visible) } :=
  { h with
    ledger := h.ledger.sample
    shows := h.shows.mono fun _ hd => { hd with } }

theorem begin (h : s.Anchored p) (hidle : p.commit = none) {change : ManifestChange}
    {data : FileManifest} (hr : p.revise change = some data) :
    Anchored { s with disk := s.disk.push (·.save (p.gen + 1)), proc := some (p.begun change data) }
      (p.begun change data) := by
  have hshows : ∀ d, p.Shows s.targets d → (p.begun change data).Shows s.targets d :=
    fun d hd => { hd with
    agree := .inl (hd.agree.resolve_right fun ⟨c, hc, _⟩ => by rw [hidle] at hc; cases hc)
    saved := fun _ hp => absurd rfl hp
    firm := fun f hf => by
      rcases hf with hv | hr | ⟨c, -, hp, -⟩
      exacts [hd.firm f (.inl hv), hd.firm f (.inr (.inl hr)), absurd rfl hp] }
  exact
  { ledger := h.ledger.begun hr
    target := h.target
    shows := Unsynced.Always.push (h.shows.mono hshows)
      { hshows _ h.shows.view with
        manifest := List.mem_cons_of_mem _ h.shows.view.manifest
        saved := fun _ _ => List.mem_cons_self }
    held := fun f hf => by
      rw [Unsynced.view_push]
      rcases hf with hr' | ⟨c, hc, hk, ht⟩ | ⟨hk, ht⟩
      · exact h.held f (.inl hr')
      · cases hc
        rcases FileProcess.Ledger.revise_tables hr ht with hold | hout
        · rw [(Prod.ext hk rfl : f = (.sst, f.2))]
          exact h.shows.view.table (h.ledger.tables ▸ hold)
        · exact h.held f (.inr (.inr ⟨hk, hout⟩))
      · exact h.held f (.inr (.inr ⟨hk, List.mem_of_mem_filter ht⟩))
    saved := fun _ => by
      rw [Unsynced.view_push]
      exact List.mem_cons_self
    flipped := fun hp => by cases hp
    stale := by
      rw [Unsynced.view_push]
      exact Unsynced.Always.push h.stale fun f hf => .inl hf
    written := h.written }

theorem syncSave (h : s.Anchored p) (hphase : p.phase = .written) :
    Anchored { s with disk := s.disk.sync, proc := some { p with phase := .synced } }
      { p with phase := .synced } :=
  { h with
    ledger := { h.ledger with }
    shows := Unsynced.Always.sync { h.shows.view with
      agree :=
        .inl (h.shows.view.agree.resolve_right fun ⟨_, _, hp, _⟩ => by rw [hphase] at hp; cases hp)
      saved := fun hc _ => h.saved hc
      firm := fun f hf => by
        rcases hf with hv | hr | ⟨c, hc, -, hk, ht⟩
        exacts [h.shows.view.firm f (.inl hv), h.shows.view.firm f (.inr (.inl hr)),
          h.held f (.inr (.inl ⟨c, hc, hk, ht⟩))] }
    flipped := fun hp => by cases hp
    stale := Unsynced.Always.sync fun g hg => .inl hg }

theorem flip (h : s.Anchored p) {c : FileCommit} (hc : p.commit = some c)
    (hphase : p.phase = .synced) :
    Anchored
      { s with
        disk := s.disk.push (·.flip (p.gen + 1) c.data)
        proc := some { p with phase := .flipped } }
      { p with phase := .flipped } := by
  have hne : p.phase ≠ .written := by rw [hphase]; decide
  have hshows : ∀ d, p.Shows s.targets d →
      FileProcess.Shows { p with phase := .flipped } s.targets d := fun d hd => { hd with
    agree := .inl (hd.agree.resolve_right fun ⟨_, _, hp, _⟩ => by rw [hphase] at hp; cases hp)
    saved := fun hc _ => hd.saved hc hne
    firm := fun f hf => by
      rcases hf with hv | hr | ⟨c, hc, -, hk, ht⟩
      exacts [hd.firm f (.inl hv), hd.firm f (.inr (.inl hr)),
        hd.firm f (.inr (.inr ⟨c, hc, hne, hk, ht⟩))] }
  exact
  { h with
    ledger := { h.ledger with }
    shows := Unsynced.Always.push (h.shows.mono hshows)
      { hshows _ h.shows.view with agree := .inr ⟨c, hc, rfl, rfl, rfl⟩ }
    held := fun f hf => by
      rw [Unsynced.view_push]
      exact h.held f hf
    saved := fun hc => by
      rw [Unsynced.view_push]
      exact h.saved hc
    flipped := fun _ c' hc' => by
      rw [Unsynced.view_push]
      rw [show p.commit = some c' from hc'] at hc
      cases hc
      exact ⟨rfl, rfl⟩
    stale := by
      rw [Unsynced.view_push]
      exact Unsynced.Always.push h.stale fun f hf => .inl hf }

theorem done (h : s.Anchored p) {c : FileCommit} (hc : p.commit = some c)
    (hphase : p.phase = .flipped) :
    Anchored { s with disk := s.disk.sync, proc := some (p.publish c) } (p.publish c) := by
  have hview := h.shows.view
  have hne : p.phase ≠ .written := by rw [hphase]; decide
  obtain ⟨-, -, hfloor⟩ := h.ledger.pending c hc
  exact
  { ledger := h.ledger.publish hc fun id hid => ⟨(h.fresh_id hid).2.1, (h.fresh_id hid).2.2.1⟩
    target := h.target
    shows := Unsynced.Always.sync
      { agree := .inl (h.flipped hphase c hc)
        manifest := h.saved (by rw [hc]; simp)
        saved := fun hc => absurd rfl hc
        firm := fun f hf => by
          rcases hf with ⟨q, hq, hf⟩ | hr | ⟨c', hc', -⟩
          · rcases List.mem_cons.mp hq with rfl | hq
            · rcases FileVersion.mem_files.mp hf with ⟨hk, ht⟩ | ⟨hk, hv⟩
              · exact hview.firm f (.inr (.inr ⟨c, hc, hne, hk, ht⟩))
              · rw [(Prod.ext hk rfl : f = (.vlog, f.2))]
                exact hview.vlog (List.mem_of_mem_filter hv)
            · exact hview.firm f (.inl ⟨q, List.mem_cons_of_mem _ hq, hf⟩)
          · exact hview.firm f (.inr (.inl hr))
          · cases hc'
        walFiles := fun w hw hle => hview.walFiles w hw (hfloor.trans hle)
        below := hview.below
        fresh := hview.fresh }
    held := fun f hf => by
      rcases hf with hr | ⟨c', hc', -⟩ | ho
      · exact h.held f (.inl hr)
      · cases hc'
      · exact h.held f (.inr (.inr ho))
    saved := fun hc => absurd rfl hc
    flipped := fun _ c' hc' => by cases hc'
    stale := Unsynced.Always.sync fun g hg => .inl hg
    written := h.written }

theorem old_not_kept (h : s.Anchored p) {id : ℕ} (hid : id < p.data.walFloor) :
    ¬ p.Keeps s.targets (.wal, id) := by
  have hwal : id < p.wal := hid.trans_le h.ledger.current.floor_wal
  have hrot : ∀ r, p.rotating = some r → (FileKind.wal, id) ≠ r.file := fun r hr heq => by
    have := (h.ledger.rotating r hr).2.2.1
    rw [← heq] at this
    exact absurd hwal this.not_gt
  rintro ((⟨q, -, hf⟩ | ⟨r, hr, -, hf⟩ | ⟨c, -, -, hk, -⟩) | (⟨r, hr, hf⟩ | ⟨c, -, hk,
    -⟩ | ⟨hk, -⟩) | ⟨w, -, hle, heq⟩)
  · rcases FileVersion.mem_files.mp hf with ⟨hk, -⟩ | ⟨hk, -⟩ <;> cases hk
  · exact hrot r hr hf
  · cases hk
  · exact hrot r hr hf
  · cases hk
  · cases hk
  · cases heq
    exact absurd hid hle.not_gt

theorem deleteOldWal (h : s.Anchored p) {id : ℕ} (hid : id < p.data.walFloor) :
    Anchored { s with disk := s.disk.push (·.unlink (.wal, id)) } p := by
  refine h.unlink (h.old_not_kept hid) fun _ => ?_
  have : id < p.wal := hid.trans_le h.ledger.current.floor_wal
  dsimp only [FileProcess.anchor]
  omega

theorem orphan_not_kept (h : s.Anchored p) (hs : p.stage = .startupGc) {f : StoreFile}
    (horphan : StoreDir.Orphan p.data f) : ¬ p.Keeps s.targets f := by
  obtain ⟨hcommit, hout, -, hcov⟩ := h.ledger.completed hs
  obtain ⟨hpin, hrot, -, -⟩ := h.ledger.quiet (by rw [hs]; decide)
  rintro ((⟨q, hq, hf⟩ | ⟨r, hr, -⟩ | ⟨c, hc, -⟩) | (⟨r, hr, -⟩ | ⟨c, hc, -⟩ | ⟨-, ho⟩) | ⟨w,
    -, hle, heq⟩)
  · rw [hpin, List.mem_singleton] at hq
    obtain rfl := hq
    obtain ⟨kind, id⟩ := f
    rcases FileVersion.mem_files.mp hf with ⟨hk, ht⟩ | ⟨hk, hv⟩
    · obtain rfl : kind = .sst := hk
      exact horphan (h.ledger.tables ▸ ht)
    · obtain rfl : kind = .vlog := hk
      exact (hcov id hv).elim horphan.1 horphan.2
  · rw [hrot] at hr
    cases hr
  · rw [hcommit] at hc
    cases hc
  · rw [hrot] at hr
    cases hr
  · rw [hcommit] at hc
    cases hc
  · rw [hout] at ho
    exact absurd ho List.not_mem_nil
  · rw [← heq] at horphan
    exact absurd horphan hle.not_gt

theorem startupGc (h : s.Anchored p) (hs : p.stage = .startupGc) {f : StoreFile}
    (horphan : StoreDir.Orphan p.data f) :
    Anchored { s with disk := s.disk.push (·.unlink f) } p := by
  refine h.unlink (h.orphan_not_kept hs horphan) fun hf => ?_
  have hlt := h.shows.view.below f hf
  have hnext := (h.ledger.completed hs).2.2.1
  dsimp only [FileProcess.anchor]
  omega

theorem garbage_not_kept (h : s.Anchored p) {f : StoreFile} (hf : f ∈ p.garbage)
    (hpin : ∀ q ∈ p.pinned, f ∉ q.files) : ¬ p.Keeps s.targets f := by
  have hd := h.ledger.garbage f hf
  obtain ⟨kind, id⟩ := f
  rintro ((⟨q, hq, hf'⟩ | ⟨r, hr, -, hf'⟩ | ⟨c, hc, -, hk, ht⟩) | (⟨r, hr, hf'⟩ | ⟨c, hc, hk,
    ht⟩ | ⟨hk, ho⟩) | ⟨w, -, -, heq⟩)
  · rcases List.mem_cons.mp hq with rfl | hq
    · rcases FileVersion.mem_files.mp hf' with ⟨hk, ht⟩ | ⟨hk, hv⟩
      · obtain rfl : kind = .sst := hk
        exact hd.1 (h.ledger.tables ▸ ht)
      · obtain rfl : kind = .vlog := hk
        exact hd.1 hv
    · exact hpin q hq hf'
  · exact h.ledger.not_rotating hd hr hf'
  · obtain rfl : kind = .sst := hk
    exact hd.2.1 c hc ht
  · exact h.ledger.not_rotating hd hr hf'
  · obtain rfl : kind = .sst := hk
    exact hd.2.1 c hc ht
  · obtain rfl : kind = .sst := hk
    exact (h.ledger.outputs id ho).2.2.1 hf
  · cases heq
    exact hd

theorem unlinkGarbage (h : s.Anchored p) {f : StoreFile} (hf : f ∈ p.garbage)
    (hpin : ∀ q ∈ p.pinned, f ∉ q.files) :
    Anchored
      { s with
        disk := s.disk.push (·.unlink f)
        proc := some { p with garbage := p.garbage.filter (· ≠ f) } }
      { p with garbage := p.garbage.filter (· ≠ f) } := by
  have hd := h.ledger.garbage f hf
  have hun : Anchored { s with disk := s.disk.push (·.unlink f) } p := by
    refine h.unlink (h.garbage_not_kept hf hpin) fun _ => ?_
    obtain ⟨kind, id⟩ := f
    have hlt : id < p.data.nextFileId ∨ id < p.head := by
      cases kind with
      | sst => exact .inl hd.2.2
      | vlog => exact .inr hd.2
      | wal => exact hd.elim
    dsimp only [FileProcess.anchor]
    omega
  exact
  { hun with
    ledger := hun.ledger.unlinkGarbage f
    shows := hun.shows.mono fun d hd => { hd with } }

theorem started (h : s.Anchored p) (hs : p.stage = .startupGc) :
    Anchored { s with proc := some { p with stage := .running } } { p with stage := .running } :=
  { h with
    ledger := h.ledger.started hs
    shows := h.shows.mono fun _ hd => { hd with } }

theorem repin (h : s.Anchored p) {pinned : List FileVersion}
    (hstage : p.stage ≠ .running → pinned = []) (hpin : ∀ q ∈ pinned, q ∈ p.version :: p.pinned) :
    Anchored { s with proc := some { p with pinned := pinned } } { p with pinned := pinned } :=
  { h with
    ledger := h.ledger.repin hstage
    shows := h.shows.mono fun d hd => { hd with
      firm := fun f hf => by
        rcases hf with ⟨q, hq, hf⟩ | hf
        · rcases List.mem_cons.mp hq with rfl | hq
          exacts [hd.firm f (.inl ⟨p.version, List.mem_cons_self, hf⟩),
            hd.firm f (.inl ⟨q, hpin q hq, hf⟩)]
        · exact hd.firm f (.inr hf) } }

end Anchored

/-! #### Steps of `open` -/

theorem Settled.createNew (h : s.Settled) (f : StoreFile) (q : FileProcess) :
    (s.createNew f q).Settled where
  sound := by
    have hsub := wals_createNew (s := s) f q
    exact Unsynced.Always.push (h.sound.mono fun d hd => hd.mono hsub)
      (((h.sound.view).create f).mono hsub)
  below := by
    change (s.disk.push (·.create f)).Always fun d => ∀ g ∈ d.files,
      g.2 < (s.disk.push (·.create f)).view.recoverNext
    rw [Unsynced.view_push]
    exact Unsynced.Always.push
      (h.below.mono fun d hd g hg => (hd g hg).trans_le (StoreDir.recoverNext_create f))
      fun g hg => (h.sound.view.create f).below hg
  written := written_createNew h.written f q

theorem Settled.crash (h : s.Settled) (n : ℕ) (keep : ℕ → ℕ) :
    Settled { s with
      disk := s.disk.crash n
      wals := fun id => (s.wals id).take (keep id)
      proc := none } where
  sound := (h.sound.crash n).mono fun d hd => hd.mono fun w r hr => List.mem_of_mem_take hr
  below m f hf := by
    rw [Unsynced.outcome_crash] at hf
    exact (h.sound n).below hf
  written w hw := h.written w fun hnil => hw (by
    change (s.wals w).take (keep w) = []
    rw [hnil, List.take_nil])

namespace Opening

theorem quiet (h : s.Opening p) :
    p.pinned = [] ∧ p.rotating = none ∧ p.victim = none ∧ p.garbage = [] := by
  have hst : p.opened.stage ≠ .running := by
    dsimp only [FileProcess.opened]
    split <;> exact fun hs => by cases hs
  have := h.ledger.quiet hst
  dsimp only [FileProcess.opened] at this
  split at this <;> exact this

theorem start (h : s.Settled) (k : ℕ) :
    Opening { s with proc := some (.start s.disk.view s.wals k) }
      (.start s.disk.view s.wals k) where
  settled := { h with }
  ledger := FileProcess.start_ledger h.sound.view h.written k
  gen := rfl
  data := rfl
  below := h.below
  vlogs v hv := h.sound.view.mem_files hv
  wal hs := by cases hs
  idle := ⟨rfl, rfl, rfl⟩

theorem sweep (h : s.Opening p) {gen : ℕ} (hne : gen ≠ p.gen) :
    Opening { s with disk := s.disk.push (·.sweep gen) } p :=
  { h with
    settled :=
      { sound := h.settled.sound.push (h.settled.sound.view.sweep (h.gen ▸ hne))
        below := by
          rw [Unsynced.view_push]
          exact h.settled.below.push h.settled.below.view
        written := h.settled.written }
    gen := by rw [Unsynced.view_push]; exact h.gen
    data := by rw [Unsynced.view_push]; exact h.data
    below := h.below.push h.below.view
    vlogs := fun v hv => by rw [Unsynced.view_push]; exact h.vlogs v hv
    wal := fun hs => by rw [Unsynced.view_push]; exact h.wal hs }

theorem createHead (h : s.Opening p) (hs : p.stage = .createHead) :
    (s.createNew (.vlog, p.next) { p with
      stage := .createWal
      next := p.next + 1
      head := p.next
      version := { p.version with vlogs := p.next :: p.version.vlogs } }).Opening { p with
        stage := .createWal
        next := p.next + 1
        head := p.next
        version := { p.version with vlogs := p.next :: p.version.vlogs } } where
  settled := h.settled.createNew _ _
  ledger := by
    have hled := h.ledger
    rw [FileProcess.opened, hs] at hled
    exact hled.sub (wals_createNew _ _)
  gen := by
    change (s.disk.push (·.create (.vlog, p.next))).view.gen = p.gen
    rw [Unsynced.view_push]
    exact h.gen
  data := by
    change (s.disk.push (·.create (.vlog, p.next))).view.data = p.data
    rw [Unsynced.view_push]
    exact h.data
  below := by
    refine Unsynced.Always.push (h.below.mono fun d hd f hf => Nat.lt_succ_of_lt (hd f hf))
      fun f hf => ?_
    rcases StoreDir.mem_create.mp hf with rfl | hf
    exacts [Nat.lt_succ_self _, Nat.lt_succ_of_lt (h.below.view f hf)]
  vlogs v hv := by
    change (FileKind.vlog, v) ∈ (s.disk.push (·.create (.vlog, p.next))).view.files
    rw [Unsynced.view_push, StoreDir.mem_create]
    rcases List.mem_cons.mp hv with rfl | hv
    exacts [.inl rfl, .inr (h.vlogs v hv)]
  wal hs := by cases hs
  idle := h.idle

theorem createWal (h : s.Opening p) (hs : p.stage = .createWal) :
    (s.createNew (.wal, p.next)
      { p with stage := .syncFresh, next := p.next + 1, wal := p.next }).Opening
      { p with stage := .syncFresh, next := p.next + 1, wal := p.next } where
  settled := h.settled.createNew _ _
  ledger := by
    have hled := h.ledger
    rw [FileProcess.opened, hs] at hled
    exact hled.sub (wals_createNew _ _)
  gen := by
    change (s.disk.push (·.create (.wal, p.next))).view.gen = p.gen
    rw [Unsynced.view_push]
    exact h.gen
  data := by
    change (s.disk.push (·.create (.wal, p.next))).view.data = p.data
    rw [Unsynced.view_push]
    exact h.data
  below := by
    refine Unsynced.Always.push (h.below.mono fun d hd f hf => Nat.lt_succ_of_lt (hd f hf))
      fun f hf => ?_
    rcases StoreDir.mem_create.mp hf with rfl | hf
    exacts [Nat.lt_succ_self _, Nat.lt_succ_of_lt (h.below.view f hf)]
  vlogs v hv := by
    change (FileKind.vlog, v) ∈ (s.disk.push (·.create (.wal, p.next))).view.files
    rw [Unsynced.view_push, StoreDir.mem_create]
    exact .inr (h.vlogs v hv)
  wal _ := by
    change (FileKind.wal, p.next) ∈ (s.disk.push (·.create (.wal, p.next))).view.files
    rw [Unsynced.view_push, StoreDir.mem_create]
    exact .inl rfl
  idle := h.idle

/-- With the directory synced the process is anchored. -/
theorem syncFresh (h : s.Opening p) (hs : p.stage = .syncFresh) :
    Anchored
      { s with
        disk := s.disk.sync
        proc := some { p with stage := .recover }
        targets := p.wal :: s.targets }
      { p with stage := .recover } := by
  have hled : FileProcess.Ledger { p with stage := .recover } s.wals s.targets := by
    have hled := h.ledger
    rw [FileProcess.opened, hs] at hled
    exact hled
  obtain ⟨hcommit, halloc, hout⟩ := h.idle
  obtain ⟨hpin, hrot, -, -⟩ := h.quiet
  have hsound := h.settled.sound.view
  exact
  { ledger := { hled with
      targets_le := fun w hw => by
        rcases List.mem_cons.mp hw with rfl | hw
        exacts [le_rfl, hled.targets_le w hw] }
    target := List.mem_cons_self
    shows := Unsynced.Always.sync
      { agree := .inl ⟨h.gen, h.data⟩
        manifest := h.gen ▸ hsound.manifest
        saved := fun hc => absurd hcommit hc
        firm := fun f hf => by
          -- nothing but the current version is pinned, rotating or being committed
          rcases hf with ⟨q, hq, hf⟩ | ⟨r, hr, -⟩ | ⟨c, hc, -⟩
          · rw [show FileProcess.pinned { p with stage := .recover } = [] from hpin,
              List.mem_singleton] at hq
            obtain rfl := hq
            rcases FileVersion.mem_files.mp hf with ⟨hk, ht⟩ | ⟨hk, hv⟩
            · rw [(Prod.ext hk rfl : f = (.sst, f.2))]
              exact (hsound.tables _ (h.data ▸ hled.tables ▸ ht)).1
            · rw [(Prod.ext hk rfl : f = (.vlog, f.2))]
              exact h.vlogs _ hv
          · rw [show p.rotating = some r from hr] at hrot
            cases hrot
          · rw [show p.commit = some c from hc] at hcommit
            cases hcommit
        walFiles := fun w hw hle => by
          rcases List.mem_cons.mp hw with rfl | hw
          exacts [h.wal hs, hsound.walFiles w hw (h.data ▸ hle)]
        below := h.below.view
        fresh := fun f _ hf => by
          rw [show FileProcess.allocated { p with stage := .recover } = [] from halloc] at hf
          exact absurd hf List.not_mem_nil }
    held := fun f hf => by
      -- so it holds no other file
      rcases hf with ⟨r, hr, -⟩ | ⟨c, hc, -⟩ | ⟨-, ho⟩
      · rw [show p.rotating = some r from hr] at hrot
        cases hrot
      · rw [show p.commit = some c from hc] at hcommit
        cases hcommit
      · rw [show FileProcess.outputs { p with stage := .recover } = [] from hout] at ho
        exact absurd ho List.not_mem_nil
    saved := fun hc => absurd hcommit hc
    flipped := fun _ c hc => by
      rw [show p.commit = some c from hc] at hcommit
      cases hcommit
    stale := Unsynced.Always.sync fun g hg => .inl hg
    written := fun w hw => List.mem_cons_of_mem _ (h.settled.written w hw) }

end Opening

/-! #### Every step -/

theorem Inv.of_anchored {q : FileProcess} (hcol : s.collided = false) (hmis : s.missing = false)
    (hq : s.proc = some q) (hst : q.stage.anchored = true) (h : s.Anchored q) : s.Inv where
  collided := hcol
  missing := hmis
  settled hnone := by rw [hq] at hnone; cases hnone
  anchored p hp _ := by rw [hq] at hp; cases hp; exact h
  opening p hp hno := by rw [hq] at hp; cases hp; rw [hst] at hno; cases hno

theorem Inv.of_opening {q : FileProcess} (hcol : s.collided = false) (hmis : s.missing = false)
    (hq : s.proc = some q) (hst : q.stage.anchored = false) (h : s.Opening q) : s.Inv where
  collided := hcol
  missing := hmis
  settled hnone := by rw [hq] at hnone; cases hnone
  anchored p hp hyes := by rw [hq] at hp; cases hp; rw [hst] at hyes; cases hyes
  opening p hp _ := by rw [hq] at hp; cases hp; exact h

theorem Inv.of_settled (hcol : s.collided = false) (hmis : s.missing = false) (hq : s.proc = none)
    (h : s.Settled) : s.Inv where
  collided := hcol
  missing := hmis
  settled _ := h
  anchored p hp := by rw [hq] at hp; cases hp
  opening p hp := by rw [hq] at hp; cases hp

theorem Inv.all_settled (h : s.Inv) : s.Settled := by
  cases hp : s.proc with
  | none => exact h.settled hp
  | some p =>
    cases hst : p.stage.anchored with
    | true => exact (h.anchored p hp hst).settled
    | false => exact (h.opening p hp hst).settled

theorem collided_createNew (hcol : s.collided = false) {f : StoreFile} (hf : f ∉ s.disk.view.files)
    (q : FileProcess) : (s.createNew f q).collided = false := by
  change (s.collided || decide (f ∈ s.disk.view.files)) = false
  rw [hcol, decide_eq_false hf]
  rfl

/-- The steps of a process whose head and WAL are durable. -/
theorem Inv.act_anchored (h : s.Inv) (hp : s.proc = some p) (hst : p.stage.anchored = true)
    {a : FileAction} (hs : s.act p a = some s') : s'.Inv := by
  have ha := h.anchored p hp hst
  -- the stages before the anchor are over
  have hrun : ∀ {q : OpenStage}, p.stage = q → q.anchored = true := fun hq => hq ▸ hst
  -- ids from `next` on are not in the directory
  have hnext : ∀ kind, (kind, p.next) ∉ s.disk.view.files :=
    fun kind hf => lt_irrefl _ (ha.shows.view.below _ hf)
  cases a with
  | «open» k => cases hs
  | crash n keep => cases hs
  | exit =>
    cases hs
    exact .of_settled h.collided h.missing rfl { ha.settled with }
  | sweep gen =>
    obtain ⟨hg, rfl⟩ := Option.ite_none_right_eq_some.mp hs |>.imp_right Option.some.inj
    rcases hg with hlt | ⟨hq, -⟩
    exacts [.of_anchored h.collided h.missing hp hst (ha.sweep hlt), absurd (hrun hq) (by decide)]
  | createHead => exact absurd (hrun (Option.ite_none_right_eq_some.mp hs).1) (by decide)
  | createWal => exact absurd (hrun (Option.ite_none_right_eq_some.mp hs).1) (by decide)
  | syncFresh => exact absurd (hrun (Option.ite_none_right_eq_some.mp hs).1) (by decide)
  | alloc =>
    obtain ⟨hw, rfl⟩ := Option.ite_none_right_eq_some.mp hs |>.imp_right Option.some.inj
    exact .of_anchored h.collided h.missing rfl hst (ha.alloc hw)
  | createTable id =>
    obtain ⟨⟨hw, hid⟩, rfl⟩ := Option.ite_none_right_eq_some.mp hs |>.imp_right Option.some.inj
    exact .of_anchored (collided_createNew h.collided ((ha.fresh_id hid).1 _) _) h.missing rfl hst
      (ha.createTable hw hid)
  | syncDir =>
    obtain ⟨-, rfl⟩ := Option.ite_none_right_eq_some.mp hs |>.imp_right Option.some.inj
    exact .of_anchored h.collided h.missing hp hst ha.sync
  | rotate kind =>
    obtain ⟨⟨hq, -, hk⟩, rfl⟩ := Option.ite_none_right_eq_some.mp hs |>.imp_right Option.some.inj
    exact .of_anchored (collided_createNew h.collided (hnext kind) _) h.missing rfl hst
      (ha.rotate hq hk)
  | rotateSync =>
    simp only [act] at hs
    split at hs
    · cases hs
    · rename_i r hr
      cases hs
      exact .of_anchored h.collided h.missing rfl hst (ha.rotateSync hr)
  | adopt =>
    simp only [act] at hs
    split at hs
    · rename_i id hr
      cases hs
      refine .of_anchored h.collided h.missing rfl hst (ha.adoptWal hr _ fun x hx => ?_)
      split at hx
      · cases hx
      · exact (Option.some.inj hx).symm
    · rename_i id hr
      cases hs
      exact .of_anchored h.collided h.missing rfl hst (ha.adoptVlog hr)
    · cases hs
  | append n large =>
    obtain ⟨⟨hq, -⟩, rfl⟩ := Option.ite_none_right_eq_some.mp hs |>.imp_right Option.some.inj
    exact .of_anchored h.collided h.missing rfl hst (ha.append hq n large)
  | pick v =>
    obtain ⟨⟨hq, hidle, -, hv, hne, hret⟩, rfl⟩ :=
      Option.ite_none_right_eq_some.mp hs |>.imp_right Option.some.inj
    exact .of_anchored h.collided h.missing rfl hst (ha.pick hq hidle hv hne hret)
  | sample =>
    obtain ⟨-, rfl⟩ := Option.ite_none_right_eq_some.mp hs |>.imp_right Option.some.inj
    exact .of_anchored h.collided h.missing rfl hst ha.sample
  | begin change =>
    obtain ⟨⟨-, hidle⟩, hs⟩ := Option.ite_none_right_eq_some.mp hs
    obtain ⟨data, hr, rfl⟩ := Option.map_eq_some_iff.mp hs
    exact .of_anchored h.collided h.missing rfl hst (ha.begin hidle hr)
  | saved =>
    obtain ⟨⟨-, hphase⟩, rfl⟩ := Option.ite_none_right_eq_some.mp hs |>.imp_right Option.some.inj
    exact .of_anchored h.collided h.missing rfl hst (ha.syncSave hphase)
  | flip =>
    simp only [act] at hs
    split at hs
    · cases hs
    · rename_i c hc
      obtain ⟨hphase, rfl⟩ := Option.ite_none_right_eq_some.mp hs |>.imp_right Option.some.inj
      exact .of_anchored h.collided h.missing rfl hst (ha.flip hc hphase)
  | done =>
    simp only [act] at hs
    split at hs
    · cases hs
    · rename_i c hc
      obtain ⟨hphase, rfl⟩ := Option.ite_none_right_eq_some.mp hs |>.imp_right Option.some.inj
      refine .of_anchored h.collided h.missing rfl ?_ (ha.done hc hphase)
      dsimp only [FileProcess.publish]
      split
      exacts [rfl, hst]
  | deleteOldWal id =>
    obtain ⟨⟨-, hid⟩, rfl⟩ := Option.ite_none_right_eq_some.mp hs |>.imp_right Option.some.inj
    exact .of_anchored h.collided h.missing hp hst (ha.deleteOldWal hid)
  | startupGc f =>
    obtain ⟨⟨hq, -, horphan⟩, rfl⟩ :=
      Option.ite_none_right_eq_some.mp hs |>.imp_right Option.some.inj
    exact .of_anchored h.collided h.missing hp hst (ha.startupGc hq horphan)
  | started =>
    obtain ⟨hq, rfl⟩ := Option.ite_none_right_eq_some.mp hs |>.imp_right Option.some.inj
    exact .of_anchored h.collided h.missing rfl rfl (ha.started hq)
  | pin =>
    obtain ⟨hq, rfl⟩ := Option.ite_none_right_eq_some.mp hs |>.imp_right Option.some.inj
    exact .of_anchored h.collided h.missing rfl hst
      (ha.repin (fun hne => absurd hq hne) fun q hq => hq)
  | unpin i =>
    obtain ⟨hq, rfl⟩ := Option.ite_none_right_eq_some.mp hs |>.imp_right Option.some.inj
    exact .of_anchored h.collided h.missing rfl hst
      (ha.repin (fun hne => absurd hq hne) fun q hq =>
        List.mem_cons_of_mem _ (List.mem_of_mem_eraseIdx hq))
  | unlinkGarbage f =>
    obtain ⟨⟨hf, hpin⟩, rfl⟩ := Option.ite_none_right_eq_some.mp hs |>.imp_right Option.some.inj
    exact .of_anchored h.collided h.missing rfl hst (ha.unlinkGarbage hf hpin)

/-- The steps of `open` before that. -/
theorem Inv.act_opening (h : s.Inv) (hp : s.proc = some p) (hst : p.stage.anchored = false)
    {a : FileAction} (hs : s.act p a = some s') : s'.Inv := by
  have ho := h.opening p hp hst
  obtain ⟨hcommit, halloc, -⟩ := ho.idle
  obtain ⟨-, hrot, -, hgar⟩ := ho.quiet
  have hno : ∀ {q : OpenStage}, p.stage = q → q.anchored = false := fun hq => hq ▸ hst
  -- no commit, rotation or job of a running store is under way
  have hnw : p.working ≠ true := fun hw => by
    rcases FileProcess.working_cases hw with hq | ⟨hq, -⟩ <;> exact absurd (hno hq) (by decide)
  have hnext : ∀ kind, (kind, p.next) ∉ s.disk.view.files :=
    fun kind hf => lt_irrefl _ (ho.below.view _ hf)
  cases a with
  | «open» k => cases hs
  | crash n keep => cases hs
  | exit =>
    cases hs
    exact .of_settled h.collided h.missing rfl { ho.settled with }
  | sweep gen =>
    obtain ⟨hg, rfl⟩ := Option.ite_none_right_eq_some.mp hs |>.imp_right Option.some.inj
    exact .of_opening h.collided h.missing hp hst (ho.sweep (hg.elim Nat.ne_of_lt And.right))
  | createHead =>
    obtain ⟨hq, rfl⟩ := Option.ite_none_right_eq_some.mp hs |>.imp_right Option.some.inj
    exact .of_opening (collided_createNew h.collided (hnext _) _) h.missing rfl rfl
      (ho.createHead hq)
  | createWal =>
    obtain ⟨hq, rfl⟩ := Option.ite_none_right_eq_some.mp hs |>.imp_right Option.some.inj
    exact .of_opening (collided_createNew h.collided (hnext _) _) h.missing rfl rfl
      (ho.createWal hq)
  | syncFresh =>
    obtain ⟨hq, rfl⟩ := Option.ite_none_right_eq_some.mp hs |>.imp_right Option.some.inj
    exact .of_anchored h.collided h.missing rfl rfl (ho.syncFresh hq)
  -- from here on, what only an anchored store does, and the sync that anchors it
  | alloc => exact absurd (Option.ite_none_right_eq_some.mp hs).1 hnw
  | createTable id => exact absurd (Option.ite_none_right_eq_some.mp hs).1.1 hnw
  | syncDir =>
    have := (Option.ite_none_right_eq_some.mp hs).1
    rw [hst] at this
    cases this
  | rotate kind => exact absurd (hno (Option.ite_none_right_eq_some.mp hs).1.1) (by decide)
  | rotateSync =>
    simp only [act, hrot] at hs
    cases hs
  | adopt =>
    simp only [act, hrot] at hs
    cases hs
  | append n large => exact absurd (hno (Option.ite_none_right_eq_some.mp hs).1.1) (by decide)
  | pick v => exact absurd (hno (Option.ite_none_right_eq_some.mp hs).1.1) (by decide)
  | sample => exact absurd (hno (Option.ite_none_right_eq_some.mp hs).1) (by decide)
  | begin change =>
    have := (Option.ite_none_right_eq_some.mp hs).1.1
    rw [hst] at this
    cases this
  | saved => exact absurd hcommit (Option.ite_none_right_eq_some.mp hs).1.1
  | flip =>
    simp only [act, hcommit] at hs
    cases hs
  | done =>
    simp only [act, hcommit] at hs
    cases hs
  | deleteOldWal id =>
    have := (Option.ite_none_right_eq_some.mp hs).1.1
    rw [hst] at this
    cases this
  | startupGc f => exact absurd (hno (Option.ite_none_right_eq_some.mp hs).1.1) (by decide)
  | started => exact absurd (hno (Option.ite_none_right_eq_some.mp hs).1) (by decide)
  | pin => exact absurd (hno (Option.ite_none_right_eq_some.mp hs).1) (by decide)
  | unpin i => exact absurd (hno (Option.ite_none_right_eq_some.mp hs).1) (by decide)
  | unlinkGarbage f =>
    have := (Option.ite_none_right_eq_some.mp hs).1.1
    rw [hgar] at this
    exact absurd this List.not_mem_nil

theorem inv_step (h : s.Inv) {a : FileAction} (hs : s.step a = some s') : s'.Inv := by
  have hact : ∀ {a : FileAction}, (s.proc.bind fun p => s.act p a) = some s' → s'.Inv :=
    fun {a} hs => by
    obtain ⟨p, hp, hs⟩ := Option.bind_eq_some_iff.mp hs
    cases hst : p.stage.anchored with
    | true => exact h.act_anchored hp hst hs
    | false => exact h.act_opening hp hst hs
  cases a with
  | «open» k =>
    obtain ⟨hnone, hs⟩ := Option.ite_none_left_eq_some.mp hs
    have hset := h.settled (not_not.mp hnone)
    rw [if_pos (hset.sound.view.openable k)] at hs
    obtain rfl := Option.some.inj hs
    exact .of_opening h.collided h.missing rfl rfl (.start hset k)
  | crash n keep =>
    cases hs
    exact .of_settled h.collided h.missing rfl (h.all_settled.crash n keep)
  | _ => exact hact hs

theorem inv_init {d : StoreDir} (h : d.Sound (fun _ => []) []) : (init d).Inv := by
  have hout : ∀ n, (init d).disk.outcome n = d := fun n => by
    change ([].take n).foldl _ d = d
    rw [List.take_nil]
    rfl
  refine .of_settled rfl rfl rfl ⟨fun n => ?_, fun n f hf => ?_, fun w hw => absurd rfl hw⟩
  · rw [hout]
    exact h
  · rw [hout] at hf
    exact h.below hf

end FileStore

/-- An archive of a running store is sound. -/
theorem FileProcess.archive_sound {p : FileProcess} (h : p.Ledger wals targets) {tables : List ℕ}
    {next cut : ℕ}
    (ht : ∀ t ∈ tables, t < next) : (p.archive tables next cut).Sound (fun _ => []) [] := by
  have hfile : ∀ v ∈ p.version.vlogs, (FileKind.vlog, v) ∈ (p.archive tables next cut).files :=
    fun v hv =>
    FileVersion.mem_files.mpr (.inr ⟨rfl, hv⟩)
  exact
  { manifest := List.mem_singleton_self _
    tables := fun t hmem => ⟨FileVersion.mem_files.mpr (.inl ⟨rfl, hmem⟩), ht t hmem⟩
    live := fun v hv => ⟨hfile v hv, List.not_mem_nil⟩
    retired := fun v hv => absurd hv List.not_mem_nil
    floor := le_rfl
    head := (StoreDir.lt_recoverNext (hfile _ h.head_mem) ⟨le_rfl, List.not_mem_nil⟩).le
    ptrs := fun w _ r hr => absurd hr List.not_mem_nil
    walFiles := fun w hw => absurd hw List.not_mem_nil
    targets_lt := fun w hw => absurd hw List.not_mem_nil }

theorem StoreDir.Origin.sound (h : d.Origin) : d.Sound (fun _ => []) [] := by
  induction h with
  | fresh => exact .of_fresh
  | head _ hs hp hrun _ ih =>
    have ha := (hs.invariant (FileStore.inv_init ih) fun hi _ => FileStore.inv_step hi).anchored _
      hp (by rw [hrun]; rfl)
    exact FileProcess.archive_sound ha.ledger fun t ht =>
      ha.ledger.current.tables_lt t (ha.ledger.tables ▸ ht)
  | point _ hs hp hrun _ ht ih =>
    have ha := (hs.invariant (FileStore.inv_init ih) fun hi _ => FileStore.inv_step hi).anchored _
      hp (by rw [hrun]; rfl)
    exact FileProcess.archive_sound ha.ledger ht

/-! ### The theorem -/

/-- The files a recovery from the directory refers to: those its manifest names,
those that records behind its floor point into, and the WALs behind it that were
written to. -/
def StoreDir.Refers (d : StoreDir) (wals : ℕ → List LogRecord) (targets : List ℕ) : StoreFile → Prop
  | (.sst, t) => t ∈ d.data.tables
  | (.vlog, v) => v ∈ d.data.vlogLive ∨ v ∈ d.data.retiredIds ∨
      ∃ w, d.data.walFloor ≤ w ∧ ∃ r ∈ wals w, v ∈ r.ptrs
  | (.wal, w) => w ∈ targets ∧ d.data.walFloor ≤ w

/-- The files of the published version and of those readers hold, and the append
target. -/
def FileProcess.Refers (p : FileProcess) (f : StoreFile) : Prop :=
  (∃ q ∈ p.version :: p.pinned, f ∈ q.files) ∨ f = (.wal, p.wal)

/-- The file is in use: by the process, or by a recovery after some power loss. -/
def FileStore.Refers (s : FileStore) (f : StoreFile) : Prop :=
  (∃ n, (s.disk.outcome n).Refers s.wals s.targets f) ∨
    ∃ p, s.proc = some p ∧ p.stage.anchored = true ∧ p.Refers f

theorem StoreDir.Sound.refers (h : d.Sound wals targets) {f : StoreFile}
    (hf : d.Refers wals targets f) :
    f ∈ d.files := by
  obtain ⟨kind, id⟩ := f
  cases kind with
  | sst => exact (h.tables id hf).1
  | vlog =>
    rcases hf with hl | hr | ⟨w, hw, r, hr, hv⟩
    exacts [(h.live id hl).1, (h.retired id hr).1, (h.ptrs w hw r hr id hv).1]
  | wal => exact h.walFiles id hf.1 hf.2

namespace FileStore

variable {s s' : FileStore} {p : FileProcess}

theorem Anchored.refers (h : s.Anchored p) {f : StoreFile} (hf : p.Refers f) (n : ℕ) :
    f ∈ (s.disk.outcome n).files := by
  rcases hf with hv | rfl
  · exact (h.shows n).firm f (.inl hv)
  · exact (h.shows n).walFiles _ h.target h.ledger.current.floor_wal

theorem Anchored.keeps (h : s.Anchored p) (hp : s.proc = some p) {f : StoreFile} (hf : s.Refers f) :
    p.Keeps s.targets f := by
  have hversion : ∀ {kind id}, (kind, id) ∈ p.version.files → p.Keeps s.targets (kind, id) :=
    fun hf =>
    .inl (.inl ⟨p.version, List.mem_cons_self, hf⟩)
  rcases hf with ⟨n, hf⟩ | ⟨q, hq, -, hf⟩
  · obtain ⟨⟨gone, hb⟩, -, hfloor, -⟩ := shown_backs h.ledger (h.shows n)
    obtain ⟨kind, id⟩ := f
    have hvlog : id ∈ p.version.vlogs → p.Keeps s.targets (.vlog, id) := fun hv =>
      hversion (FileVersion.mem_files.mpr (.inr ⟨rfl, hv⟩))
    cases kind with
    | sst =>
      rcases (h.shows n).agree with ⟨-, hdata⟩ | ⟨c, hc, -, -, hdata⟩ <;>
        rw [StoreDir.Refers, hdata] at hf
      · exact hversion (FileVersion.mem_files.mpr (.inl ⟨rfl, h.ledger.tables ▸ hf⟩))
      · exact .inr (.inl (.inr (.inl ⟨c, hc, rfl, hf⟩)))
    | vlog =>
      rcases hf with hl | hr | ⟨w, hw, r, hr, hv⟩
      exacts [hvlog (hb.live id hl).1, hvlog (hb.retired id hr).1,
        hvlog (hb.ptrs w hw r hr id hv).1]
    | wal => exact .inr (.inr ⟨id, hf.1, hfloor.trans hf.2, rfl⟩)
  · rw [hp] at hq
    obtain rfl := Option.some.inj hq
    rcases hf with hv | rfl
    exacts [.inl (.inl hv), .inr (.inr ⟨p.wal, h.target, h.ledger.current.floor_wal, rfl⟩)]

/-- What a step of the process does to the directory: it adds files, it leaves them
alone, or it deletes one that nothing keeps. -/
theorem Inv.act_files (h : s.Inv) (hp : s.proc = some p) {a : FileAction}
    (hs : s.act p a = some s') :
    (∀ f ∈ s.disk.view.files, f ∈ s'.disk.view.files) ∨
      ∃ g, s'.disk = s.disk.push (·.unlink g) ∧ p.stage.anchored = true ∧
        ¬ p.Keeps s.targets g := by
  -- a creation only adds a file
  have hcreate : ∀ f q, ∀ g ∈ s.disk.view.files, g ∈ (s.createNew f q).disk.view.files :=
    fun f q g hg => by
    change g ∈ (s.disk.push (·.create f)).view.files
    rw [Unsynced.view_push]
    exact StoreDir.mem_create.mpr (.inr hg)
  cases a with
  | «open» k => cases hs
  | crash n keep => cases hs
  | exit =>
    cases hs
    exact .inl fun f hf => hf
  | sweep gen =>
    obtain ⟨-, rfl⟩ := Option.ite_none_right_eq_some.mp hs |>.imp_right Option.some.inj
    exact .inl fun f hf => by rw [Unsynced.view_push]; exact hf
  | createHead =>
    obtain ⟨-, rfl⟩ := Option.ite_none_right_eq_some.mp hs |>.imp_right Option.some.inj
    exact .inl (hcreate _ _)
  | createWal =>
    obtain ⟨-, rfl⟩ := Option.ite_none_right_eq_some.mp hs |>.imp_right Option.some.inj
    exact .inl (hcreate _ _)
  | createTable id =>
    obtain ⟨-, rfl⟩ := Option.ite_none_right_eq_some.mp hs |>.imp_right Option.some.inj
    exact .inl (hcreate _ _)
  | rotate kind =>
    obtain ⟨-, rfl⟩ := Option.ite_none_right_eq_some.mp hs |>.imp_right Option.some.inj
    exact .inl (hcreate _ _)
  | rotateSync =>
    simp only [act] at hs
    split at hs
    · cases hs
    · cases hs
      exact .inl fun f hf => hf
  | adopt =>
    simp only [act] at hs
    split at hs <;> cases hs
    exacts [.inl fun f hf => hf, .inl fun f hf => hf]
  | begin change =>
    obtain ⟨-, hs⟩ := Option.ite_none_right_eq_some.mp hs
    obtain ⟨data, -, rfl⟩ := Option.map_eq_some_iff.mp hs
    exact .inl fun f hf => by rw [Unsynced.view_push]; exact hf
  | flip =>
    simp only [act] at hs
    split at hs
    · cases hs
    · obtain ⟨-, rfl⟩ := Option.ite_none_right_eq_some.mp hs |>.imp_right Option.some.inj
      exact .inl fun f hf => by rw [Unsynced.view_push]; exact hf
  | done =>
    simp only [act] at hs
    split at hs
    · cases hs
    · obtain ⟨-, rfl⟩ := Option.ite_none_right_eq_some.mp hs |>.imp_right Option.some.inj
      exact .inl fun f hf => hf
  -- the three deletions: what they pick, nothing keeps
  | deleteOldWal id =>
    obtain ⟨⟨hst, hid⟩, rfl⟩ := Option.ite_none_right_eq_some.mp hs |>.imp_right Option.some.inj
    exact .inr ⟨_, rfl, hst, (h.anchored p hp hst).old_not_kept hid⟩
  | startupGc f =>
    obtain ⟨⟨hq, -, horphan⟩, rfl⟩ :=
      Option.ite_none_right_eq_some.mp hs |>.imp_right Option.some.inj
    have hst : p.stage.anchored = true := by rw [hq]; rfl
    exact .inr ⟨f, rfl, hst, (h.anchored p hp hst).orphan_not_kept hq horphan⟩
  | unlinkGarbage f =>
    obtain ⟨⟨hf, hpin⟩, rfl⟩ := Option.ite_none_right_eq_some.mp hs |>.imp_right Option.some.inj
    cases hst : p.stage.anchored with
    | true => exact .inr ⟨f, rfl, rfl, (h.anchored p hp hst).garbage_not_kept hf hpin⟩
    | false =>
      rw [(h.opening p hp hst).quiet.2.2.2] at hf
      exact absurd hf List.not_mem_nil
  | _ =>
    obtain ⟨-, rfl⟩ := Option.ite_none_right_eq_some.mp hs |>.imp_right Option.some.inj
    exact .inl fun f hf => hf

/-- Only the clean-ups and a power loss make a file vanish, and the clean-ups no file
in use. -/
theorem Inv.deleted (h : s.Inv) {a : FileAction} (hs : s.step a = some s') {f : StoreFile}
    (hf : f ∈ s.disk.view.files) (hf' : f ∉ s'.disk.view.files) (ha : ∀ n keep, a ≠ .crash n keep) :
    ¬ s.Refers f := by
  have hact : ∀ {a : FileAction}, (s.proc.bind fun p => s.act p a) = some s' → ¬ s.Refers f :=
    fun {a} hs hr => by
    obtain ⟨p, hp, hs⟩ := Option.bind_eq_some_iff.mp hs
    rcases h.act_files hp hs with hkeep | ⟨g, hdisk, hst, hg⟩
    · exact hf' (hkeep f hf)
    · rw [hdisk, Unsynced.view_push, StoreDir.mem_unlink, not_and_not_right] at hf'
      exact hg (hf' hf ▸ (h.anchored p hp hst).keeps hp hr)
  cases a with
  | «open» k =>
    obtain ⟨-, hs⟩ := Option.ite_none_left_eq_some.mp hs
    refine absurd hf ?_
    split at hs <;> cases hs <;> exact hf'
  | crash n keep => exact absurd rfl (ha n keep)
  | _ => exact hact hs

/-- **File ids are used once and no file in use is deleted.**  In every run of a
store, over power losses at any point and new opens: no `create_new` finds its file
there and no `open` misses one it needs; whatever a power loss leaves of the
directory holds the manifest CURRENT names and every file that manifest, or a
replay behind its floor, refers to; the files of the versions in use and the append
target are in each of these directories; an id handed out is not referred to by
anything; and no step but a power loss deletes a file that is. -/
theorem file_ids (hd : d.Origin) (h : (fileStore d).Reachable s) :
    (s.collided = false ∧ s.missing = false) ∧
      (∀ n, (s.disk.outcome n).gen ∈ (s.disk.outcome n).manifests ∧
        ∀ f, (s.disk.outcome n).Refers s.wals s.targets f → f ∈ (s.disk.outcome n).files) ∧
      (∀ p, s.proc = some p → p.stage.anchored = true → ∀ f, p.Refers f →
        ∀ n, f ∈ (s.disk.outcome n).files) ∧
      (∀ p, s.proc = some p → ∀ f, s.Refers f → f.2 < p.next ∧ f.2 ∉ p.allocated) ∧
      ∀ a s', s.step a = some s' → (∀ n keep, a ≠ .crash n keep) →
        ∀ f ∈ s.disk.view.files, f ∉ s'.disk.view.files → ¬ s.Refers f := by
  have hi : s.Inv := h.invariant (inv_init hd.sound) fun hi _ => inv_step hi
  have hsound := hi.all_settled.sound
  refine ⟨⟨hi.collided, hi.missing⟩, fun n =>
    ⟨(hsound n).manifest, fun f hf => (hsound n).refers hf⟩,
    fun p hp hst f hf n => (hi.anchored p hp hst).refers hf n, fun p hp f hf => ?_,
    fun a s' hs ha f hf hf' => hi.deleted hs hf hf' ha⟩
  cases hst : p.stage.anchored with
  | true =>
    have ha := hi.anchored p hp hst
    -- what is referred to is in some outcome, so its id is below `next`
    have hmem : ∃ n, f ∈ (s.disk.outcome n).files := by
      rcases hf with ⟨n, hf⟩ | ⟨q, hq, -, hf⟩
      · exact ⟨n, (hsound n).refers hf⟩
      · rw [hp] at hq
        obtain rfl := Option.some.inj hq
        exact ⟨0, ha.refers hf 0⟩
    obtain ⟨n, hmem⟩ := hmem
    exact ⟨(ha.shows n).below f hmem, (ha.shows n).fresh f hmem⟩
  | false =>
    have ho := hi.opening p hp hst
    rcases hf with ⟨n, hf⟩ | ⟨q, hq, hyes, -⟩
    · refine ⟨ho.below n f ((hsound n).refers hf), ?_⟩
      rw [ho.idle.2.1]
      exact List.not_mem_nil
    · rw [hp] at hq
      obtain rfl := Option.some.inj hq
      rw [hst] at hyes
      cases hyes

/-- An `open` that replays `k` records, into the table `table` if there are any. -/
def openRun (k : ℕ) (table : Option ℕ) : List FileAction :=
  [.open k, .createHead, .createWal, .syncFresh] ++
    (match table with
      | some id => [.alloc, .createTable id, .begin (.flush [id]), .saved, .flip, .done]
      | none => []) ++
    [.begin .complete, .saved, .flip, .done, .started]

/-- A store that rotates its head and its WAL, collects the old head, and loses the
power with the deletions not yet durable. -/
def collectRun : List FileAction :=
  openRun 0 none ++
    [.append 0 true, .rotate .vlog, .rotateSync, .adopt, .append 2 true, .pick 1,
      .append 0 false, .sample,
      .begin .retire, .saved, .flip, .done, .rotate .wal, .rotateSync, .adopt, .alloc,
        .createTable 5,
      .begin (.flush [5]), .saved, .flip, .done, .deleteOldWal 2, .begin (.release [1]), .saved,
        .flip, .done,
      .unlinkGarbage (.vlog, 1), .append 0 true, .crash 0 fun _ => 1] ++
    openRun 1 (some 8)

theorem file_ids_collected :
    ∃ s, (fileStore .fresh).Reachable s ∧ s.disk.view.data.tables = [8, 5] ∧
    (s.collided = false ∧ s.missing = false) ∧
      (∀ n, (s.disk.outcome n).gen ∈ (s.disk.outcome n).manifests ∧
        ∀ f, (s.disk.outcome n).Refers s.wals s.targets f → f ∈ (s.disk.outcome n).files) ∧
      (∀ p, s.proc = some p → p.stage.anchored = true → ∀ f, p.Refers f →
        ∀ n, f ∈ (s.disk.outcome n).files) ∧
      (∀ p, s.proc = some p → ∀ f, s.Refers f → f.2 < p.next ∧ f.2 ∉ p.allocated) ∧
      ∀ a s', s.step a = some s' → (∀ n keep, a ≠ .crash n keep) →
        ∀ f ∈ s.disk.view.files, f ∉ s'.disk.view.files → ¬ s.Refers f := by
  have hrun : (((fileStore .fresh).run collectRun (fileStore .fresh).init).any fun s =>
      decide (s.disk.view.data.tables = [8, 5])) = true := by decide +kernel
  obtain ⟨s, hs, htables⟩ := System.exists_reachable hrun
  exact ⟨s, hs, htables, file_ids .fresh hs⟩

end FileStore

end Fluent31
