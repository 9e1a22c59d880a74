/-
A process and the manifests it commits.

`StoreDir.Sound` says that a directory holds every file its manifest and the
records behind its floor name.  `FileProcess.Ledger` relates a process to the
manifest it last committed and to the one it is committing: both are `Backs`ed by
the files the process keeps.  One lemma for each step preserves it.

* `Ledger.revise_backs`, `Ledger.publish` — a commit begins, and returns;
* `start_ledger` — what `open` takes from a sound directory backs its manifest.
-/
import Fluent31.FileIds

namespace Fluent31

variable {d : StoreDir} {wals wals' : ℕ → List LogRecord} {targets : List ℕ}

/-! ### Directories -/

namespace StoreDir

@[simp] theorem mem_ids {kind : FileKind} {id : ℕ} : id ∈ d.ids kind ↔ (kind, id) ∈ d.files := by
  simp only [ids, List.mem_map, List.mem_filter, decide_eq_true_eq]
  constructor
  · rintro ⟨f, ⟨hf, rfl⟩, rfl⟩
    exact hf
  · exact fun h => ⟨_, ⟨h, rfl⟩, rfl⟩

@[simp] theorem mem_create {f g : StoreFile} : g ∈ (d.create f).files ↔ g = f ∨ g ∈ d.files := by
  simp [create]

@[simp] theorem mem_unlink {f g : StoreFile} : g ∈ (d.unlink f).files ↔ g ∈ d.files ∧ g ≠ f := by
  simp [unlink]

theorem mem_liveVlogs {id : ℕ} : id ∈ d.liveVlogs ↔ id ∈ d.data.vlogLive ∨
    (id ∈ d.data.retiredIds ∧ (.vlog, id) ∈ d.files) ∨
      ((.vlog, id) ∈ d.files ∧ d.Young id ∧ id ∉ d.data.vlogLive) := by
  simp only [liveVlogs, List.mem_append, List.mem_filter, mem_ids, decide_eq_true_eq, or_assoc]

theorem foldl_next_le {l : List ℕ} {a n : ℕ} :
    l.foldl (fun n id => max n (id + 1)) a ≤ n ↔ a ≤ n ∧ ∀ id ∈ l, id < n := by
  induction l generalizing a with
  | nil => simp
  | cons x l ih =>
    rw [List.foldl_cons, ih, Nat.max_le, List.forall_mem_cons, and_assoc]
    exact Iff.rfl

theorem recoverNext_le {n : ℕ} : d.recoverNext ≤ n ↔ (d.data.nextFileId ≤ n ∧ 1 ≤ n) ∧
    (∀ id ∈ d.liveVlogs, d.Young id → id < n) ∧ (∀ id, (.wal, id) ∈ d.files → id < n) ∧
      ∀ id, (.sst, id) ∈ d.files → id < n := by
  rw [recoverNext, foldl_next_le, Nat.max_le]
  simp only [List.mem_append, List.mem_filter, mem_ids, decide_eq_true_eq]
  grind

theorem recoverNext_spec : (d.data.nextFileId ≤ d.recoverNext ∧ 1 ≤ d.recoverNext) ∧
    (∀ id ∈ d.liveVlogs, d.Young id → id < d.recoverNext) ∧
    (∀ id, (.wal, id) ∈ d.files → id < d.recoverNext) ∧
      ∀ id, (.sst, id) ∈ d.files → id < d.recoverNext :=
  recoverNext_le.mp le_rfl

/-- A young file of the directory is below the derived counter. -/
theorem lt_recoverNext {id : ℕ} (hf : (.vlog, id) ∈ d.files) (hy : d.Young id) :
    id < d.recoverNext := by
  refine recoverNext_spec.2.1 id (mem_liveVlogs.mpr ?_) hy
  by_cases hlive : id ∈ d.data.vlogLive
  exacts [.inl hlive, .inr (.inr ⟨hf, hy, hlive⟩)]

theorem recoverNext_create (f : StoreFile) : d.recoverNext ≤ (d.create f).recoverNext := by
  obtain ⟨hnext, hvlog, hwal, hsst⟩ := recoverNext_spec (d := d.create f)
  refine recoverNext_le.mpr ⟨hnext, fun id hid hy => ?_, fun id hid => ?_, fun id hid => ?_⟩
  · rcases mem_liveVlogs.mp hid with hlive | ⟨hret, -⟩ | ⟨hf, -, -⟩
    · exact hvlog id (mem_liveVlogs.mpr (.inl hlive)) hy
    · exact absurd hret hy.2
    · exact lt_recoverNext (mem_create.mpr (.inr hf)) hy
  · exact hwal id (mem_create.mpr (.inr hid))
  · exact hsst id (mem_create.mpr (.inr hid))

/-- The directory holds what a recovery from it reads. -/
structure Sound (d : StoreDir) (wals : ℕ → List LogRecord) (targets : List ℕ) : Prop where
  manifest : d.gen ∈ d.manifests
  tables : ∀ t ∈ d.data.tables, (.sst, t) ∈ d.files ∧ t < d.data.nextFileId
  live : ∀ v ∈ d.data.vlogLive, (.vlog, v) ∈ d.files ∧ v ∉ d.data.retiredIds
  retired : ∀ v ∈ d.data.retiredIds, (.vlog, v) ∈ d.files ∧ v < d.recoverNext
  floor : d.data.walFloor ≤ d.data.nextFileId
  head : d.data.vlogHead ≤ d.recoverNext
  /-- The files that replayed records point into exist, and the recovery maps them. -/
  ptrs : ∀ w, d.data.walFloor ≤ w → ∀ r ∈ wals w, ∀ v ∈ r.ptrs, (.vlog, v) ∈ d.files ∧
    (v ∈ d.data.vlogLive ∨ v ∈ d.data.retiredIds ∨ d.data.vlogHead ≤ v)
  walFiles : ∀ w ∈ targets, d.data.walFloor ≤ w → (.wal, w) ∈ d.files
  targets_lt : ∀ w ∈ targets, w < d.recoverNext

namespace Sound

theorem below (h : d.Sound wals targets) {f : StoreFile} (hf : f ∈ d.files) :
    f.2 < d.recoverNext := by
  obtain ⟨kind, id⟩ := f
  cases kind with
  | sst => exact recoverNext_spec.2.2.2 id hf
  | wal => exact recoverNext_spec.2.2.1 id hf
  | vlog =>
    by_cases hret : id ∈ d.data.retiredIds
    · exact (h.retired id hret).2
    · rcases Nat.lt_or_ge id d.data.vlogHead with hlt | hge
      · exact hlt.trans_le h.head
      · exact lt_recoverNext hf ⟨hge, hret⟩

theorem mem_files (h : d.Sound wals targets) {v : ℕ} (hv : v ∈ d.liveVlogs) :
    (.vlog, v) ∈ d.files := by
  rcases mem_liveVlogs.mp hv with hlive | ⟨-, hf⟩ | ⟨hf, -, -⟩
  exacts [(h.live v hlive).1, hf, hf]

theorem ptr_mem (h : d.Sound wals targets) {w : ℕ} (hw : d.data.walFloor ≤ w) {r : LogRecord}
    (hr : r ∈ wals w) {v : ℕ} (hv : v ∈ r.ptrs) : v ∈ d.liveVlogs := by
  obtain ⟨hf, hnamed⟩ := h.ptrs w hw r hr v hv
  rw [mem_liveVlogs]
  by_cases hlive : v ∈ d.data.vlogLive
  · exact .inl hlive
  by_cases hret : v ∈ d.data.retiredIds
  · exact .inr (.inl ⟨hret, hf⟩)
  · exact .inr (.inr ⟨hf, ⟨(hnamed.resolve_left hlive).resolve_left hret, hret⟩, hlive⟩)

theorem mono (h : d.Sound wals targets) (hsub : ∀ w, ∀ r ∈ wals' w, r ∈ wals w) :
    d.Sound wals' targets :=
  { h with ptrs := fun w hw r hr => h.ptrs w hw r (hsub w r hr) }

theorem create (h : d.Sound wals targets) (f : StoreFile) : (d.create f).Sound wals targets where
  manifest := h.manifest
  tables t ht := ⟨mem_create.mpr (.inr (h.tables t ht).1), (h.tables t ht).2⟩
  live v hv := ⟨mem_create.mpr (.inr (h.live v hv).1), (h.live v hv).2⟩
  retired v hv :=
    ⟨mem_create.mpr (.inr (h.retired v hv).1), (h.retired v hv).2.trans_le (recoverNext_create f)⟩
  floor := h.floor
  head := h.head.trans (recoverNext_create f)
  ptrs w hw r hr v hv :=
    ⟨mem_create.mpr (.inr (h.ptrs w hw r hr v hv).1), (h.ptrs w hw r hr v hv).2⟩
  walFiles w hw hfloor := mem_create.mpr (.inr (h.walFiles w hw hfloor))
  targets_lt w hw := (h.targets_lt w hw).trans_le (recoverNext_create f)

theorem sweep (h : d.Sound wals targets) {gen : ℕ} (hne : gen ≠ d.gen) :
    (d.sweep gen).Sound wals targets :=
  { h with manifest := List.mem_filter.mpr ⟨h.manifest, decide_eq_true hne.symm⟩ }

theorem mem_walIds {w : ℕ} : w ∈ d.walIds ↔ (.wal, w) ∈ d.files ∧ d.data.walFloor ≤ w := by
  simp only [walIds, List.mem_insertionSort, List.mem_filter, mem_ids, decide_eq_true_eq]

theorem openable (h : d.Sound wals targets) (k : ℕ) : d.Openable wals k := by
  refine ⟨h.manifest, fun t ht => mem_ids.mpr (h.tables t ht).1, fun v hv =>
    mem_ids.mpr (h.live v hv).1, fun r hr v hv => ?_⟩
  obtain ⟨w, hw, hrw⟩ := List.mem_flatMap.mp (List.mem_of_mem_take hr)
  exact h.ptr_mem (mem_walIds.mp hw).2 hrw hv

theorem of_fresh : StoreDir.fresh.Sound (fun _ => []) [] := by
  constructor <;> simp [StoreDir.fresh, FileManifest.retiredIds]

end Sound

end StoreDir

/-! ### A process and its manifests -/

theorem FileVersion.mem_files {q : FileVersion} {f : StoreFile} : f ∈ q.files ↔
    (f.1 = .sst ∧ f.2 ∈ q.tables) ∨ (f.1 = .vlog ∧ f.2 ∈ q.vlogs) := by
  obtain ⟨kind, id⟩ := f
  simp only [files, List.mem_append, List.mem_map, Prod.mk.injEq]
  grind

namespace FileProcess

/-- What a process has for a manifest to rely on. -/
structure Backing where
  next : ℕ
  wal : ℕ
  head : ℕ
  vlogs : List ℕ
  victim : Option (ℕ × Option ℕ)
  visible : ℕ
  completed : Bool

def backing (p : FileProcess) : Backing :=
  ⟨p.next, p.wal, p.head, p.version.vlogs, p.victim, p.visible, p.stage.completed⟩

/-- The process keeps what the manifest `data` needs, once the files `gone` are
released. -/
structure Backing.Backs (b : Backing) (wals : ℕ → List LogRecord) (data : FileManifest)
    (gone : List ℕ) :
    Prop where
  next_le : data.nextFileId ≤ b.next
  floor_wal : data.walFloor ≤ b.wal
  floor_next : data.walFloor ≤ data.nextFileId
  tables_lt : ∀ t ∈ data.tables, t < data.nextFileId
  head_le : data.vlogHead ≤ b.head
  live : ∀ v ∈ data.vlogLive, v ∈ b.vlogs ∧ v ∉ data.retiredIds ∧ v ∉ gone
  retired : ∀ v ∈ data.retiredIds, v ∈ b.vlogs ∧ v ≠ b.head ∧ v ∉ gone
  released : ∀ v ∈ gone, v ∈ b.vlogs ∧ v ≠ b.head
  covered : ∀ v ∈ b.vlogs, v ∉ gone → v ∈ data.vlogLive ∨ v ∈ data.retiredIds ∨ data.vlogHead ≤ v
  ptrs : ∀ w, data.walFloor ≤ w → ∀ r ∈ wals w, ∀ v ∈ r.ptrs, v ∈ b.vlogs ∧ v ∉ gone
  victim : ∀ x, b.victim = some x → x.1 ∉ data.retiredIds ∧ x.1 ∉ gone
  flushed : data.lastFlushedSeqno ≤ b.visible
  /-- What is behind the floor is not in tables, and precedes the retirement of
  every file it points into. -/
  seqnos : b.completed = true → ∀ w, data.walFloor ≤ w → ∀ r ∈ wals w,
    data.lastFlushedSeqno < r.seqno ∧ ∀ x ∈ data.vlogRetired, x.1 ∈ r.ptrs → r.seqno ≤ x.2

/-- Ids below it stay below the derived counter: those of the manifest, and those
of a head and a WAL that are durable. -/
def anchor (p : FileProcess) : ℕ := max p.data.nextFileId (max (p.head + 1) (p.wal + 1))

/-- No manifest, version or record names the file. -/
def Dropped (p : FileProcess) : StoreFile → Prop
  | (.sst, t) => t ∉ p.data.tables ∧ (∀ c, p.commit = some c →
    t ∉ c.data.tables) ∧ t < p.data.nextFileId
  | (.vlog, v) => v ∉ p.version.vlogs ∧ v < p.head
  | (.wal, _) => False

structure Ledger (p : FileProcess) (wals : ℕ → List LogRecord) (targets : List ℕ) : Prop where
  current : p.backing.Backs wals p.data []
  pending : ∀ c, p.commit = some c → p.backing.Backs wals c.data c.change.released ∧
    p.data.nextFileId ≤ c.data.nextFileId ∧ p.data.walFloor ≤ c.data.walFloor
  tables : p.version.tables = p.data.tables
  head_mem : p.head ∈ p.version.vlogs
  vlogs_le : ∀ v ∈ p.version.vlogs, v ≤ p.head
  head_lt : p.head < p.next
  wal_lt : p.wal < p.next
  targets_le : ∀ w ∈ targets, w ≤ p.wal
  imms : ∀ i ∈ p.imms, i.1 < p.wal ∧ ∀ x, i.2 = some x → x ≤ p.visible ∧
    (p.stage.completed = true → ∀ w, i.1 < w → ∀ r ∈ wals w, x < r.seqno)
  visible : p.stage.completed = true → ∀ w, p.data.walFloor ≤ w → ∀ r ∈ wals w, r.seqno ≤ p.visible
  /-- Nothing is appended inside `open`. -/
  silent : p.stage ≠ .running → ∀ w, p.wal ≤ w → wals w = []
  quiet : p.stage ≠ .running → p.pinned = [] ∧ p.rotating = none ∧ p.victim = none ∧ p.garbage = []
  recovering : p.stage ≠ .running → ∀ c, p.commit = some c → c.change = .complete ∨
    ∃ outs, c.change = .flush outs
  completing : ∀ c, p.commit = some c → c.change = .complete → p.stage = .recover ∧ p.imms = [] ∧
    p.outputs = [] ∧ c.data.nextFileId = p.next ∧ c.data.walFloor = p.wal ∧
      ∀ v ∈ p.version.vlogs, v ∈ c.data.vlogLive ∨ v ∈ c.data.retiredIds
  completed : p.stage = .startupGc → p.commit = none ∧ p.outputs = [] ∧ p.data.nextFileId = p.next ∧
    ∀ v ∈ p.version.vlogs, v ∈ p.data.vlogLive ∨ v ∈ p.data.retiredIds
  allocated : ∀ id ∈ p.allocated, id < p.next ∧ ∀ kind, (kind, id) ∉ p.garbage
  outputs : ∀ t ∈ p.outputs, t < p.next ∧ t ∉ p.data.tables ∧ (.sst, t) ∉ p.garbage ∧
    ∀ c, p.commit = some c → t ∉ c.data.tables
  rotating : ∀ r, p.rotating = some r → p.stage = .running ∧ p.head < r.file.2 ∧ p.wal < r.file.2 ∧
    r.file.2 < p.next ∧ r.file.1 ≠ .sst
  /-- Records that point into the victim precede the seqno read for it. -/
  victim : ∀ x, p.victim = some x → p.stage = .running ∧ x.1 ∈ p.version.vlogs ∧ x.1 ≠ p.head ∧
    ∀ seq, x.2 = some seq → ∀ w, p.data.walFloor ≤ w → ∀ r ∈ wals w, x.1 ∈ r.ptrs → r.seqno ≤ seq
  dropped : ∀ c, p.commit = some c → ∀ t ∈ c.change.dropped, t ∈ p.data.tables ∧ t ∉ c.data.tables
  garbage : ∀ f ∈ p.garbage, p.Dropped f

variable {p : FileProcess}

theorem working_cases (h : p.working = true) :
    p.stage = .running ∨ p.stage = .recover ∧ p.commit = none := by
  simpa only [working, Bool.or_eq_true, Bool.and_eq_true, decide_eq_true_eq] using h

theorem Backing.Backs.sub {b : Backing} {data : FileManifest} {gone : List ℕ}
    (h : b.Backs wals data gone)
    (hsub : ∀ w, ∀ r ∈ wals' w, r ∈ wals w) : b.Backs wals' data gone :=
  { h with
    ptrs := fun w hw r hr => h.ptrs w hw r (hsub w r hr)
    seqnos := fun hc w hw r hr => h.seqnos hc w hw r (hsub w r hr) }

namespace Ledger

/-- Losing records keeps the ledger. -/
theorem sub (h : p.Ledger wals targets) (hsub : ∀ w, ∀ r ∈ wals' w, r ∈ wals w) :
    p.Ledger wals' targets :=
  { h with
    current := h.current.sub hsub
    pending := fun c hc => ⟨(h.pending c hc).1.sub hsub, (h.pending c hc).2⟩
    imms := fun i hi => ⟨(h.imms i hi).1, fun x hx => ⟨((h.imms i hi).2 x hx).1,
      fun hc w hw r hr => ((h.imms i hi).2 x hx).2 hc w hw r (hsub w r hr)⟩⟩
    visible := fun hc w hw r hr => h.visible hc w hw r (hsub w r hr)
    silent := fun hs w hw => List.eq_nil_iff_forall_not_mem.mpr fun r hr => by
      have := hsub w r hr
      rw [h.silent hs w hw] at this
      exact absurd this List.not_mem_nil
    victim := fun x hx => by
      obtain ⟨hs, hmem, hne, hseq⟩ := h.victim x hx
      exact ⟨hs, hmem, hne, fun seq hs w hw r hr => hseq seq hs w hw r (hsub w r hr)⟩ }

/-- The completion manifest is not committed while the process works. -/
theorem not_completing (h : p.Ledger wals targets) (hw : p.working = true) {c : FileCommit}
    (hc : p.commit = some c) : c.change ≠ .complete := fun hcomp => by
  rcases working_cases hw with hrun | ⟨-, hnone⟩
  · have := (h.completing c hc hcomp).1
    rw [hrun] at this
    exact absurd this (by decide)
  · rw [hnone] at hc
    cases hc

theorem not_startupGc (hw : p.working = true) : p.stage ≠ .startupGc := by
  rcases working_cases hw with h | ⟨h, -⟩ <;> rw [h] <;> decide

theorem garbage_lt (h : p.Ledger wals targets) {f : StoreFile} (hf : f ∈ p.garbage) :
    f.2 < p.next := by
  have hd := h.garbage f hf
  obtain ⟨kind, id⟩ := f
  cases kind with
  | sst => exact hd.2.2.trans_le h.current.next_le
  | vlog => exact hd.2.trans h.head_lt
  | wal => exact hd.elim

/-- An obsolete file is not the one a rotation has made. -/
theorem not_rotating (h : p.Ledger wals targets) {f : StoreFile} (hd : p.Dropped f) {r : Rotation}
    (hr : p.rotating = some r) : f ≠ r.file := fun heq => by
  obtain ⟨-, hhead, -, -, hk⟩ := h.rotating r hr
  rw [← heq] at hhead hk
  obtain ⟨kind, id⟩ := f
  cases kind with
  | sst => exact hk rfl
  | vlog => exact absurd hhead hd.2.not_gt
  | wal => exact hd

/-! ### One lemma for each step -/

theorem advance (h : p.Ledger wals targets) (hw : p.working = true) :
    Ledger { p with next := p.next + 1 } wals targets :=
  { h with
    current := { h.current with next_le := Nat.le_succ_of_le h.current.next_le }
    pending := fun c hc =>
      ⟨{ (h.pending c hc).1 with next_le := Nat.le_succ_of_le (h.pending c hc).1.next_le },
      (h.pending c hc).2⟩
    head_lt := Nat.lt_succ_of_lt h.head_lt
    wal_lt := Nat.lt_succ_of_lt h.wal_lt
    completing := fun c hc hcomp => absurd hcomp (h.not_completing hw hc)
    completed := fun hs => absurd hs (not_startupGc hw)
    allocated := fun id hid => ⟨Nat.lt_succ_of_lt (h.allocated id hid).1, (h.allocated id hid).2⟩
    outputs := fun t ht => ⟨Nat.lt_succ_of_lt (h.outputs t ht).1, (h.outputs t ht).2⟩
    rotating := fun r hr => by
      obtain ⟨hrun, hhead, hwal, hlt, hk⟩ := h.rotating r hr
      exact ⟨hrun, hhead, hwal, Nat.lt_succ_of_lt hlt, hk⟩ }

theorem alloc (h : p.Ledger wals targets) (hw : p.working = true) :
    Ledger { p with next := p.next + 1, allocated := p.next :: p.allocated } wals targets :=
  { h.advance hw with
    allocated := fun id hid => by
      rcases List.mem_cons.mp hid with rfl | hid
      · exact ⟨Nat.lt_succ_self _, fun kind hg => absurd (h.garbage_lt hg) (lt_irrefl _)⟩
      · exact (h.advance hw).allocated id hid }

theorem createTable (h : p.Ledger wals targets) (hw : p.working = true) {id : ℕ}
    (hid : id ∈ p.allocated)
    (hcur : id ∉ p.data.tables) (hnew : ∀ c, p.commit = some c → id ∉ c.data.tables) :
    Ledger { p with allocated := p.allocated.filter (· ≠ id), outputs := id :: p.outputs }
      wals targets :=
  { h with
    completing := fun c hc hcomp => absurd hcomp (h.not_completing hw hc)
    completed := fun hs => absurd hs (not_startupGc hw)
    allocated := fun i hi => h.allocated i (List.mem_of_mem_filter hi)
    outputs := fun t ht => by
      rcases List.mem_cons.mp ht with rfl | ht
      · exact ⟨(h.allocated t hid).1, hcur, (h.allocated t hid).2 .sst, hnew⟩
      · exact h.outputs t ht }

theorem rotate (h : p.Ledger wals targets) (hrun : p.stage = .running) {kind : FileKind}
    (hk : kind ≠ .sst) (synced : Bool) :
    Ledger { p with next := p.next + 1, rotating := some ⟨(kind, p.next), synced⟩ } wals targets :=
  { h.advance (by rw [working, hrun]; rfl) with
    quiet := fun hs => absurd hrun hs
    rotating := fun r hr => by
      cases hr
      exact ⟨hrun, h.head_lt, h.wal_lt, Nat.lt_succ_self _, hk⟩ }

theorem rotateSync (h : p.Ledger wals targets) {r : Rotation} (hr : p.rotating = some r) :
    Ledger { p with rotating := some { r with synced := true } } wals targets :=
  { h with
    quiet := fun hs => absurd (h.rotating r hr).1 hs
    rotating := fun r' hr' => by
      cases hr'
      exact h.rotating r hr }

theorem adoptWal (h : p.Ledger wals targets) (hwritten : ∀ w, wals w ≠ [] → w ∈ targets) {id : ℕ}
    {synced : Bool} (hr : p.rotating = some ⟨(.wal, id), synced⟩) (seq : Option ℕ)
    (hseq : ∀ x, seq = some x → x = p.visible) :
    Ledger { p with rotating := none, wal := id, imms := (p.wal, seq) :: p.imms } wals
      (id :: targets) := by
  obtain ⟨hrun, -, hwal, hlt, -⟩ := h.rotating _ hr
  exact
  { h with
    current := { h.current with floor_wal := h.current.floor_wal.trans hwal.le }
    pending := fun c hc =>
      ⟨{ (h.pending c hc).1 with floor_wal := (h.pending c hc).1.floor_wal.trans hwal.le },
      (h.pending c hc).2⟩
    wal_lt := hlt
    targets_le := fun w hw => by
      rcases List.mem_cons.mp hw with rfl | hw
      exacts [le_rfl, (h.targets_le w hw).trans hwal.le]
    imms := fun i hi => by
      rcases List.mem_cons.mp hi with rfl | hi
      · refine ⟨hwal, fun x hx => ⟨(hseq x hx).le, fun _ w hw r hrec => ?_⟩⟩
        have := h.targets_le w (hwritten w (List.ne_nil_of_mem hrec))
        exact absurd hw this.not_gt
      · exact ⟨(h.imms i hi).1.trans hwal, (h.imms i hi).2⟩
    silent := fun hs => absurd hrun hs
    quiet := fun hs => absurd hrun hs
    completing := fun c hc hcomp => by
      have := (h.completing c hc hcomp).1
      rw [hrun] at this
      exact absurd this (by decide)
    rotating := fun r hr => by cases hr }

theorem adoptVlog (h : p.Ledger wals targets) {id : ℕ} {synced : Bool}
    (hr : p.rotating = some ⟨(.vlog, id), synced⟩) :
    Ledger { p with
      rotating := none
      head := id
      version := { p.version with vlogs := id :: p.version.vlogs } } wals targets := by
  obtain ⟨hrun, hhead, -, hlt, -⟩ := h.rotating _ hr
  have hne : ∀ v ∈ p.version.vlogs, v ≠ id := fun v hv => ((h.vlogs_le v hv).trans_lt hhead).ne
  -- a manifest backed so far is backed with the new head in front: no older id is its id
  have hbacks : ∀ {data gone}, p.backing.Backs wals data gone →
      Backing.Backs { p.backing with head := id, vlogs := id :: p.version.vlogs } wals data gone :=
        fun hb =>
    { hb with
      head_le := hb.head_le.trans hhead.le
      live := fun v hv => ⟨List.mem_cons_of_mem _ (hb.live v hv).1, (hb.live v hv).2⟩
      retired := fun v hv => ⟨List.mem_cons_of_mem _ (hb.retired v hv).1, hne v (hb.retired v hv).1,
        (hb.retired v hv).2.2⟩
      released := fun v hv =>
        ⟨List.mem_cons_of_mem _ (hb.released v hv).1, hne v (hb.released v hv).1⟩
      covered := fun v hv hg => by
        rcases List.mem_cons.mp hv with rfl | hv
        exacts [.inr (.inr (hb.head_le.trans hhead.le)), hb.covered v hv hg]
      ptrs := fun w hw r hr v hv =>
        ⟨List.mem_cons_of_mem _ (hb.ptrs w hw r hr v hv).1, (hb.ptrs w hw r hr v hv).2⟩ }
  exact
  { h with
    current := hbacks h.current
    pending := fun c hc => ⟨hbacks (h.pending c hc).1, (h.pending c hc).2⟩
    head_mem := List.mem_cons_self
    vlogs_le := fun v hv => by
      rcases List.mem_cons.mp hv with rfl | hv
      exacts [le_rfl, (h.vlogs_le v hv).trans hhead.le]
    head_lt := hlt
    quiet := fun hs => absurd hrun hs
    completing := fun c hc hcomp => by
      have := (h.completing c hc hcomp).1
      rw [hrun] at this
      exact absurd this (by decide)
    completed := fun hs => by
      rw [show p.stage = .startupGc from hs] at hrun
      exact absurd hrun (by decide)
    rotating := fun r hr => by cases hr
    victim := fun x hx => by
      obtain ⟨hs, hmem, -, hseq⟩ := h.victim x hx
      exact ⟨hs, List.mem_cons_of_mem _ hmem, hne _ hmem, hseq⟩
    garbage := fun f hf => by
      have hd := h.garbage f hf
      obtain ⟨kind, v⟩ := f
      cases kind with
      | sst => exact hd
      | vlog => exact ⟨fun hv => (List.mem_cons.mp hv).elim (hd.2.trans hhead).ne hd.1,
        hd.2.trans hhead⟩
      | wal => exact hd }

theorem append (h : p.Ledger wals targets) (hrun : p.stage = .running) (n : ℕ) (large : Bool) :
    Ledger { p with visible := p.visible + n + 1 }
      (Function.update wals p.wal
        (wals p.wal ++ [⟨p.visible + n + 1, if large then [p.head] else []⟩])) targets := by
  generalize hrec : (⟨p.visible + n + 1, if large then [p.head] else []⟩ : LogRecord) = rec
  have hseq : rec.seqno = p.visible + n + 1 := by rw [← hrec]
  -- a new record points into the head at most, which is neither retired nor a victim
  have hptr : ∀ v ∈ rec.ptrs, v = p.head := fun v hv => by
    rw [← hrec] at hv
    dsimp only at hv
    split at hv
    exacts [List.mem_singleton.mp hv, absurd hv List.not_mem_nil]
  -- and it is the only one that is new
  have hmem : ∀ w, ∀ r ∈ Function.update wals p.wal (wals p.wal ++ [rec]) w, r ∈ wals w ∨ r = rec :=
    fun w r hr => by
    rcases eq_or_ne w p.wal with rfl | hne
    · rw [Function.update_self, List.mem_append, List.mem_singleton] at hr
      exact hr
    · rw [Function.update_of_ne hne] at hr
      exact .inl hr
  have hbacks : ∀ {data gone}, p.backing.Backs wals data gone →
      Backing.Backs { p.backing with visible := p.visible + n + 1 }
        (Function.update wals p.wal (wals p.wal ++ [rec])) data gone := fun {data gone} hb =>
    { hb with
      ptrs := fun w hw r hr v hv => by
        rcases hmem w r hr with hr | rfl
        · exact hb.ptrs w hw r hr v hv
        · rw [hptr v hv]
          exact ⟨h.head_mem, fun hg => (hb.released _ hg).2 rfl⟩
      flushed := hb.flushed.trans (by dsimp only [backing]; omega)
      seqnos := fun hc w hw r hr => by
        rcases hmem w r hr with hr | rfl
        · exact hb.seqnos hc w hw r hr
        · have hle : data.lastFlushedSeqno ≤ p.visible := hb.flushed
          refine ⟨by omega, fun x hx hv => ?_⟩
          exact absurd (hptr _ hv) (hb.retired x.1 (List.mem_map_of_mem hx)).2.1 }
  exact
  { h with
    current := hbacks h.current
    pending := fun c hc => ⟨hbacks (h.pending c hc).1, (h.pending c hc).2⟩
    imms := fun i hi => ⟨(h.imms i hi).1, fun x hx => by
      obtain ⟨hle, hlt⟩ := (h.imms i hi).2 x hx
      refine ⟨by dsimp only; omega, fun hc w hw r hr => ?_⟩
      rcases hmem w r hr with hr | rfl
      exacts [hlt hc w hw r hr, by omega]⟩
    visible := fun hc w hw r hr => by
      rcases hmem w r hr with hr | rfl
      · exact (h.visible hc w hw r hr).trans (by dsimp only; omega)
      · exact hseq.le
    silent := fun hs => absurd hrun hs
    victim := fun x hx => by
      obtain ⟨hs, hv, hne, hold⟩ := h.victim x hx
      refine ⟨hs, hv, hne, fun seq hs w hw r hr hxr => ?_⟩
      rcases hmem w r hr with hr | rfl
      exacts [hold seq hs w hw r hr hxr, absurd (hptr _ hxr) hne] }

theorem pick (h : p.Ledger wals targets) (hrun : p.stage = .running)
    (hidle : p.commit = none) {v : ℕ}
    (hv : v ∈ p.version.vlogs) (hne : v ≠ p.head) (hret : v ∉ p.data.retiredIds) :
    Ledger { p with victim := some (v, none) } wals targets :=
  { h with
    current := { h.current with
      victim := fun x hx => by
        cases hx
        exact ⟨hret, List.not_mem_nil⟩ }
    pending := fun c hc => by
      rw [show p.commit = some c from hc] at hidle
      cases hidle
    quiet := fun hs => absurd hrun hs
    victim := fun x hx => by
      cases hx
      exact ⟨hrun, hv, hne, fun seq hs => by cases hs⟩ }

theorem sample (h : p.Ledger wals targets) :
    Ledger { p with victim := p.victim.map fun x => (x.1, some p.visible) } wals targets := by
  have hold : ∀ x, (p.victim.map fun x => (x.1, some p.visible)) = some x →
      ∃ y, p.victim = some y ∧ y.1 = x.1 ∧ x.2 = some p.visible := fun x hx => by
    obtain ⟨y, hy, rfl⟩ := Option.map_eq_some_iff.mp hx
    exact ⟨y, hy, rfl, rfl⟩
  exact
  { h with
    current := { h.current with
      victim := fun x hx => by
        obtain ⟨y, hy, heq, -⟩ := hold x hx
        exact heq ▸ h.current.victim y hy }
    pending := fun c hc => ⟨{ (h.pending c hc).1 with
      victim := fun x hx => by
        obtain ⟨y, hy, heq, -⟩ := hold x hx
        exact heq ▸ (h.pending c hc).1.victim y hy }, (h.pending c hc).2⟩
    quiet := fun hs => by
      obtain ⟨hpin, hrot, hvic, hgar⟩ := h.quiet hs
      exact ⟨hpin, hrot, by rw [hvic]; rfl, hgar⟩
    victim := fun x hx => by
      obtain ⟨y, hy, heq, hseq⟩ := hold x hx
      obtain ⟨hrun, hmem, hne, -⟩ := h.victim y hy
      refine ⟨hrun, heq ▸ hmem, heq ▸ hne, fun seq hs w hw r hr _ => ?_⟩
      rw [hseq] at hs
      cases hs
      exact h.visible (show p.stage.completed = true by rw [hrun]; rfl) w hw r hr }

/-! #### A commit begins -/

theorem begun_victim {change : ManifestChange} {data : FileManifest} {x : ℕ × Option ℕ}
    (hx : (p.begun change data).victim = some x) : p.victim = some x ∧ change ≠ .retire := by
  dsimp only [begun] at hx
  split at hx
  exacts [absurd hx (by simp), ⟨hx, by assumption⟩]

theorem revise_flush (h : p.Ledger wals targets) {outs : List ℕ} {data : FileManifest}
    (hr : p.revise (.flush outs) = some data) :
    p.backing.Backs wals data [] ∧ p.data.nextFileId ≤ data.nextFileId ∧
      p.data.walFloor ≤ data.walFloor := by
  dsimp only [revise] at hr
  split at hr
  · cases hr
  · rename_i w seq hlast
    obtain ⟨⟨-, houts, -⟩, rfl⟩ := Option.ite_none_right_eq_some.mp hr |>.imp_right Option.some.inj
    obtain ⟨hw, hseq⟩ := h.imms _ (List.mem_of_getLast? hlast)
    refine ⟨{ h.current with
      next_le := le_rfl
      floor_wal := max_le h.current.floor_wal hw
      floor_next := max_le (h.current.floor_next.trans h.current.next_le)
        (Nat.le_of_lt (lt_of_le_of_lt hw h.wal_lt))
      tables_lt := fun t ht => ?_
      ptrs := fun w' hw' => h.current.ptrs w' ((le_max_left _ _).trans hw')
      flushed := max_le h.current.flushed ?_
      seqnos := fun hc w' hw' r hrec => ?_ }, h.current.next_le, le_max_left _ _⟩
    · rcases List.mem_append.mp ht with ht | ht
      exacts [(h.outputs t (houts t ht)).1, (h.current.tables_lt t ht).trans_le h.current.next_le]
    · cases seq with
      | none => exact Nat.zero_le _
      | some x => exact (hseq x rfl).1
    · obtain ⟨hlt, hret⟩ := h.current.seqnos hc w' ((le_max_left _ _).trans hw') r hrec
      refine ⟨max_lt hlt ?_, hret⟩
      cases seq with
      | none => exact (Nat.zero_le _).trans_lt hlt
      | some x => exact (hseq x rfl).2 hc w' ((le_max_right _ _).trans hw') r hrec

theorem revise_install (h : p.Ledger wals targets) {drop add : List ℕ} {data : FileManifest}
    (hr : p.revise (.install drop add) = some data) :
    p.backing.Backs wals data [] ∧ p.data.nextFileId ≤ data.nextFileId ∧
      p.data.walFloor ≤ data.walFloor := by
  obtain ⟨⟨-, -, hadd⟩, rfl⟩ := Option.ite_none_right_eq_some.mp hr |>.imp_right Option.some.inj
  refine ⟨{ h.current with
    next_le := le_rfl
    floor_next := h.current.floor_next.trans h.current.next_le
    tables_lt := fun t ht => ?_ }, h.current.next_le, le_rfl⟩
  rcases List.mem_append.mp ht with ht | ht
  exacts [(h.outputs t (hadd t ht)).1,
    (h.current.tables_lt t (List.mem_of_mem_filter ht)).trans_le h.current.next_le]

theorem revise_retire (h : p.Ledger wals targets) {data : FileManifest}
    (hr : p.revise .retire = some data) :
    Backing.Backs { p.backing with victim := none } wals data [] ∧
      p.data.nextFileId ≤ data.nextFileId ∧ p.data.walFloor ≤ data.walFloor := by
  dsimp only [revise] at hr
  split at hr
  swap
  · cases hr
  rename_i v seq hvic
  obtain rfl := Option.some.inj hr
  obtain ⟨-, hv, hne, hseq⟩ := h.victim _ hvic
  obtain ⟨hret, -⟩ := h.current.victim _ hvic
  -- the victim joins the retired files
  have hids : ∀ u, u ∈ FileManifest.retiredIds { p.data with
      vlogLive := p.data.vlogLive.filter (· ≠ v)
      vlogRetired := p.data.vlogRetired ++ [(v, seq)] } ↔
      u ∈ p.data.retiredIds ∨ u = v := fun u => by
    simp [FileManifest.retiredIds]
  refine ⟨{ h.current with
    live := fun u hu => ?_
    retired := fun u hu => ?_
    covered := fun u hu hg => ?_
    victim := fun x hx => by cases hx
    seqnos := fun hc w hw r hrec => ?_ }, le_rfl, le_rfl⟩
  · obtain ⟨hu, hneq⟩ := List.mem_filter.mp hu
    have hneq : u ≠ v := of_decide_eq_true hneq
    obtain ⟨hmem, hnret, hg⟩ := h.current.live u hu
    exact ⟨hmem, fun hr => ((hids u).mp hr).elim hnret hneq, hg⟩
  · rcases (hids u).mp hu with hu | rfl
    exacts [h.current.retired u hu, ⟨hv, hne, List.not_mem_nil⟩]
  · rcases eq_or_ne u v with rfl | hneq
    · exact .inr (.inl ((hids u).mpr (.inr rfl)))
    · rcases h.current.covered u hu hg with hl | hr | hy
      exacts [.inl (List.mem_filter.mpr ⟨hl, decide_eq_true hneq⟩),
        .inr (.inl ((hids u).mpr (.inl hr))), .inr (.inr hy)]
  · refine ⟨(h.current.seqnos hc w hw r hrec).1, fun x hx hxr => ?_⟩
    rcases List.mem_append.mp hx with hx | hx
    · exact (h.current.seqnos hc w hw r hrec).2 x hx hxr
    · obtain rfl := List.mem_singleton.mp hx
      exact hseq seq rfl w hw r hrec hxr

theorem revise_release (h : p.Ledger wals targets) {ids : List ℕ} {data : FileManifest}
    (hr : p.revise (.release ids) = some data) :
    p.backing.Backs wals data ids ∧ p.data.nextFileId ≤ data.nextFileId ∧
      p.data.walFloor ≤ data.walFloor := by
  obtain ⟨⟨hrun, hids, hgate⟩, rfl⟩ :=
    Option.ite_none_right_eq_some.mp hr |>.imp_right Option.some.inj
  have hret : ∀ u, u ∈ FileManifest.retiredIds
      { p.data with vlogRetired := p.data.vlogRetired.filter (·.1 ∉ ids) } ↔
        u ∈ p.data.retiredIds ∧ u ∉ ids :=
    fun u => by simp [FileManifest.retiredIds]
  refine ⟨{ h.current with
    live := fun u hu => ?_
    retired := fun u hu => ?_
    released := fun u hu => ?_
    covered := fun u hu hg => ?_
    ptrs := fun w hw r hrec v hv => ?_
    victim := fun x hx => ?_
    seqnos := fun hc w hw r hrec => ?_ }, le_rfl, le_rfl⟩
  · obtain ⟨hmem, hnret, -⟩ := h.current.live u hu
    exact ⟨hmem, fun hr => hnret ((hret u).mp hr).1, fun hg => hnret (hids u hg)⟩
  · obtain ⟨hr, hg⟩ := (hret u).mp hu
    exact ⟨(h.current.retired u hr).1, (h.current.retired u hr).2.1, hg⟩
  · exact ⟨(h.current.retired u (hids u hu)).1, (h.current.retired u (hids u hu)).2.1⟩
  · rcases h.current.covered u hu List.not_mem_nil with hl | hr | hy
    exacts [.inl hl, .inr (.inl ((hret u).mpr ⟨hr, hg⟩)), .inr (.inr hy)]
  · refine ⟨(h.current.ptrs w hw r hrec v hv).1, fun hg => ?_⟩
    -- behind the floor nothing points into a file whose gates have passed
    obtain ⟨x, hx, rfl⟩ := List.mem_map.mp (hids v hg)
    obtain ⟨hlt, hle⟩ :=
      h.current.seqnos (show p.stage.completed = true by rw [hrun]; rfl) w hw r hrec
    exact absurd ((hle x hx hv).trans (hgate x hx hg)) hlt.not_ge
  · obtain ⟨hnret, -⟩ := h.current.victim x hx
    exact ⟨fun hr => hnret ((hret _).mp hr).1, fun hg => hnret (hids _ hg)⟩
  · exact ⟨(h.current.seqnos hc w hw r hrec).1,
      fun x hx => (h.current.seqnos hc w hw r hrec).2 x (List.mem_of_mem_filter hx)⟩

theorem revise_complete (h : p.Ledger wals targets) {data : FileManifest}
    (hr : p.revise .complete = some data) :
    p.backing.Backs wals data [] ∧ p.data.nextFileId ≤ data.nextFileId ∧
      p.data.walFloor ≤ data.walFloor := by
  obtain ⟨⟨hs, -⟩, rfl⟩ := Option.ite_none_right_eq_some.mp hr |>.imp_right Option.some.inj
  have hret : ∀ u, u ∈ p.data.retiredIds ∨ u ∉ p.data.retiredIds := fun u => Decidable.em _
  refine ⟨{ h.current with
    next_le := le_rfl
    floor_wal := le_rfl
    floor_next := h.wal_lt.le
    tables_lt := fun t ht => (h.current.tables_lt t ht).trans_le h.current.next_le
    head_le := le_rfl
    live := fun u hu =>
      ⟨List.mem_of_mem_filter hu, of_decide_eq_true (List.mem_filter.mp hu).2, List.not_mem_nil⟩
    covered := fun u hu _ => (hret u).elim (fun hr => .inr (.inl hr))
      fun hr => .inl (List.mem_filter.mpr ⟨hu, decide_eq_true hr⟩)
    ptrs := fun w hw => h.current.ptrs w (h.current.floor_wal.trans hw)
    seqnos := fun hc => ?_ }, h.current.next_le, h.current.floor_wal⟩
  rw [show p.backing.completed = p.stage.completed from rfl, hs] at hc
  cases hc

theorem revise_other (h : p.Ledger wals targets) {data : FileManifest}
    (hr : p.revise .other = some data) :
    p.backing.Backs wals data [] ∧ p.data.nextFileId ≤ data.nextFileId ∧
      p.data.walFloor ≤ data.walFloor := by
  obtain ⟨-, rfl⟩ := Option.ite_none_right_eq_some.mp hr |>.imp_right Option.some.inj
  exact ⟨h.current, le_rfl, le_rfl⟩

/-- The manifest a commit writes is backed as the one before is. -/
theorem revise_backs (h : p.Ledger wals targets) {change : ManifestChange} {data : FileManifest}
    (hr : p.revise change = some data) :
    (p.begun change data).backing.Backs wals data change.released ∧
      p.data.nextFileId ≤ data.nextFileId ∧ p.data.walFloor ≤ data.walFloor := by
  cases change with
  | flush outs => exact h.revise_flush hr
  | install drop add => exact h.revise_install hr
  | retire => exact h.revise_retire hr
  | release ids => exact h.revise_release hr
  | complete => exact h.revise_complete hr
  | other => exact h.revise_other hr

/-- Its tables are those of the last manifest and outputs of the process. -/
theorem revise_tables {change : ManifestChange} {data : FileManifest}
    (hr : p.revise change = some data)
    {t : ℕ} (ht : t ∈ data.tables) : t ∈ p.data.tables ∨ t ∈ p.outputs := by
  cases change with
  | flush outs =>
    dsimp only [revise] at hr
    split at hr
    · cases hr
    · obtain ⟨⟨-, houts, -⟩, rfl⟩ :=
        Option.ite_none_right_eq_some.mp hr |>.imp_right Option.some.inj
      exact (List.mem_append.mp ht).symm.imp_right (houts t)
  | install drop add =>
    obtain ⟨⟨-, -, hadd⟩, rfl⟩ := Option.ite_none_right_eq_some.mp hr |>.imp_right Option.some.inj
    exact (List.mem_append.mp ht).symm.imp List.mem_of_mem_filter (hadd t)
  | retire =>
    dsimp only [revise] at hr
    split at hr
    · obtain rfl := Option.some.inj hr
      exact .inl ht
    · cases hr
  | release ids =>
    obtain ⟨-, rfl⟩ := Option.ite_none_right_eq_some.mp hr |>.imp_right Option.some.inj
    exact .inl ht
  | complete =>
    obtain ⟨-, rfl⟩ := Option.ite_none_right_eq_some.mp hr |>.imp_right Option.some.inj
    exact .inl ht
  | other =>
    obtain ⟨-, rfl⟩ := Option.ite_none_right_eq_some.mp hr |>.imp_right Option.some.inj
    exact .inl ht

/-- The tables it lets go. -/
theorem revise_dropped (h : p.Ledger wals targets) {change : ManifestChange} {data : FileManifest}
    (hr : p.revise change = some data) {t : ℕ} (ht : t ∈ change.dropped) : t ∈ p.data.tables ∧
      t ∉ data.tables := by
  cases change with
  | install drop add =>
    obtain ⟨⟨-, hdrop, hadd⟩, rfl⟩ :=
      Option.ite_none_right_eq_some.mp hr |>.imp_right Option.some.inj
    have hmem : t ∈ p.data.tables := h.tables ▸ hdrop t ht
    refine ⟨hmem, fun hnew => ?_⟩
    rcases List.mem_append.mp hnew with hnew | hnew
    · exact (h.outputs t (hadd t hnew)).2.1 hmem
    · exact of_decide_eq_true (List.mem_filter.mp hnew).2 ht
  | _ => exact absurd ht List.not_mem_nil

/-- Inside `open` only the recovered memtable and the completion are committed. -/
theorem revise_recovering (h : p.Ledger wals targets) {change : ManifestChange}
    {data : FileManifest} (hr : p.revise change = some data) (hs : p.stage ≠ .running) :
    change = .complete ∨ ∃ outs, change = .flush outs := by
  cases change with
  | flush outs => exact .inr ⟨outs, rfl⟩
  | complete => exact .inl rfl
  | install drop add => exact absurd (Option.ite_none_right_eq_some.mp hr).1.1 hs
  | release ids => exact absurd (Option.ite_none_right_eq_some.mp hr).1.1 hs
  | other => exact absurd (Option.ite_none_right_eq_some.mp hr).1 hs
  | retire =>
    dsimp only [revise] at hr
    split at hr
    · rename_i hvic
      exact absurd (h.victim _ hvic).1 hs
    · cases hr

theorem begun (h : p.Ledger wals targets) {change : ManifestChange} {data : FileManifest}
    (hr : p.revise change = some data) : (p.begun change data).Ledger wals targets :=
  { h with
    current := { h.current with
      victim := fun x hx =>
        h.current.victim x (begun_victim (show (p.begun change data).victim = some x from hx)).1 }
    pending := fun c hc => by
      cases hc
      exact h.revise_backs hr
    quiet := fun hs => by
      obtain ⟨hpin, hrot, hvic, hgar⟩ := h.quiet hs
      refine ⟨hpin, hrot, ?_, hgar⟩
      rw [show (p.begun change data).victim = if change = .retire then none else p.victim from rfl,
        hvic, ite_self]
    recovering := fun hs c hc => by
      cases hc
      exact h.revise_recovering hr hs
    completing := fun c hc hcomp => by
      cases hc
      obtain rfl : change = .complete := hcomp
      obtain ⟨⟨hs, himms, hout⟩, rfl⟩ :=
        Option.ite_none_right_eq_some.mp hr |>.imp_right Option.some.inj
      refine ⟨hs, himms, ?_, rfl, rfl, fun v hv => ?_⟩
      · rw [show (p.begun .complete _).outputs = p.outputs.filter _ from rfl, hout, List.filter_nil]
      · by_cases hret : v ∈ p.data.retiredIds
        exacts [.inr hret, .inl (List.mem_filter.mpr ⟨hv, decide_eq_true hret⟩)]
    completed := fun hs => by
      -- `startupGc` commits nothing that completes the recovery again
      rcases h.revise_recovering hr (by rw [show p.stage = .startupGc from hs]; decide) with
        rfl | ⟨outs, rfl⟩
      · have := (Option.ite_none_right_eq_some.mp hr).1.1
        rw [show p.stage = .startupGc from hs] at this
        cases this
      · dsimp only [revise] at hr
        split at hr
        · cases hr
        · have := (Option.ite_none_right_eq_some.mp hr).1.1
          rw [show p.stage = .startupGc from hs] at this
          exact absurd this (by decide)
    outputs := fun t ht => by
      obtain ⟨ht, hnew⟩ := List.mem_filter.mp ht
      obtain ⟨hlt, hcur, hgar, -⟩ := h.outputs t ht
      refine ⟨hlt, hcur, hgar, fun c hc => ?_⟩
      cases hc
      exact of_decide_eq_true hnew
    victim := fun x hx => h.victim x (begun_victim hx).1
    dropped := fun c hc t ht => by
      cases hc
      exact h.revise_dropped hr ht
    garbage := fun f hf => by
      have hd := h.garbage f hf
      obtain ⟨kind, id⟩ := f
      cases kind with
      | sst =>
        refine ⟨hd.1, fun c hc hnew => ?_, hd.2.2⟩
        cases hc
        rcases revise_tables hr hnew with hold | hout
        exacts [hd.1 hold, (h.outputs id hout).2.2.1 hf]
      | vlog => exact hd
      | wal => exact hd }

/-! #### A commit returns -/

theorem publish (h : p.Ledger wals targets) {c : FileCommit} (hc : p.commit = some c)
    (hfresh : ∀ id ∈ p.allocated, id ∉ p.data.tables ∧ id ∉ p.version.vlogs) :
    (p.publish c).Ledger wals targets := by
  obtain ⟨hb, hnext, hfloor⟩ := h.pending c hc
  have hcomp : c.change = .complete → p.stage = .recover := fun hcomp => (h.completing c hc hcomp).1
  have hstage : (p.publish c).stage = if c.change = .complete then .startupGc else p.stage := rfl
  have hrunning : (p.publish c).stage ≠ .running → p.stage ≠ .running := fun hs hrun => hs (by
    rw [hstage, if_neg (fun hcc => by rw [hcomp hcc] at hrun; cases hrun), hrun])
  -- the completion manifest makes the first state whose seqnos matter; its floor
  -- is the fresh WAL, which is empty
  have hdone : (p.publish c).stage.completed = true →
      (∀ w, c.data.walFloor ≤ w → wals w = []) ∧ (p.publish c).imms = [] ∨
      p.stage.completed = true := fun hcs => by
    by_cases hcc : c.change = .complete
    · obtain ⟨hs, himms, -, -, hwal, -⟩ := h.completing c hc hcc
      refine .inl ⟨fun w hw => h.silent (by rw [hs]; decide) w (hwal ▸ hw), ?_⟩
      dsimp only [FileProcess.publish]
      rw [hcc]
      exact himms
    · rw [hstage, if_neg hcc] at hcs
      exact .inr hcs
  have hmem : ∀ v, v ∈ (p.publish c).version.vlogs ↔ v ∈ p.version.vlogs ∧ v ∉ c.change.released :=
    fun v => by
    dsimp only [FileProcess.publish]
    rw [List.mem_filter, decide_eq_true_eq]
  have himms : ∀ i ∈ (p.publish c).imms, i ∈ p.imms := fun i hi => by
    dsimp only [FileProcess.publish] at hi
    split at hi
    exacts [(List.dropLast_sublist _).subset hi, hi]
  have hgarbage : ∀ f ∈ (p.publish c).garbage, f ∈ p.garbage ∨
      (∃ t ∈ c.change.dropped, f = (.sst, t)) ∨
      ∃ v ∈ c.change.released, f = (.vlog, v) := fun f hf => by
    simpa only [FileProcess.publish, List.mem_append, List.mem_map, or_assoc, eq_comm,
      Prod.forall] using hf
  have hcurrent : (p.publish c).backing.Backs wals c.data [] :=
    { hb with
      live := fun v hv =>
        ⟨(hmem v).mpr ⟨(hb.live v hv).1, (hb.live v hv).2.2⟩, (hb.live v hv).2.1, List.not_mem_nil⟩
      retired := fun v hv =>
        ⟨(hmem v).mpr ⟨(hb.retired v hv).1, (hb.retired v hv).2.2⟩, (hb.retired v hv).2.1,
        List.not_mem_nil⟩
      released := fun v hv => absurd hv List.not_mem_nil
      covered := fun v hv _ => hb.covered v ((hmem v).mp hv).1 ((hmem v).mp hv).2
      ptrs := fun w hw r hr v hv => ⟨(hmem v).mpr (hb.ptrs w hw r hr v hv), List.not_mem_nil⟩
      victim := fun x hx => ⟨(hb.victim x hx).1, List.not_mem_nil⟩
      seqnos := fun hcs w hw r hr => by
        rcases hdone hcs with ⟨hempty, -⟩ | hcs
        · rw [hempty w hw] at hr
          exact absurd hr List.not_mem_nil
        · exact hb.seqnos hcs w hw r hr }
  exact
  { h with
    current := hcurrent
    pending := fun c hc => by cases hc
    tables := rfl
    head_mem := (hmem _).mpr ⟨h.head_mem, fun hg => (hb.released _ hg).2 rfl⟩
    vlogs_le := fun v hv => h.vlogs_le v ((hmem v).mp hv).1
    imms := fun i hi => ⟨(h.imms i (himms i hi)).1, fun x hx =>
      ⟨((h.imms i (himms i hi)).2 x hx).1, fun hcs w hw r hr => by
        rcases hdone hcs with ⟨-, hnil⟩ | hcs
        · rw [hnil] at hi
          exact absurd hi List.not_mem_nil
        · exact ((h.imms i (himms i hi)).2 x hx).2 hcs w hw r hr⟩⟩
    visible := fun hcs w hw r hr => by
      rcases hdone hcs with ⟨hempty, -⟩ | hcs
      · rw [hempty w hw] at hr
        exact absurd hr List.not_mem_nil
      · exact h.visible hcs w (hfloor.trans hw) r hr
    silent := fun hs => h.silent (hrunning hs)
    quiet := fun hs => by
      obtain ⟨hpin, hrot, hvic, hgar⟩ := h.quiet (hrunning hs)
      refine ⟨hpin, hrot, hvic, List.eq_nil_iff_forall_not_mem.mpr fun f hf => ?_⟩
      have hnone : c.change.dropped = [] ∧ c.change.released = [] := by
        rcases h.recovering (hrunning hs) c hc with
          heq | ⟨outs, heq⟩ <;> rw [heq] <;> exact ⟨rfl, rfl⟩
      rcases hgarbage f hf with hf | ⟨t, ht, -⟩ | ⟨v, hv, -⟩
      · rw [hgar] at hf
        exact absurd hf List.not_mem_nil
      · rw [hnone.1] at ht
        exact absurd ht List.not_mem_nil
      · rw [hnone.2] at hv
        exact absurd hv List.not_mem_nil
    recovering := fun _ c hc => by cases hc
    completing := fun c hc => by cases hc
    completed := fun hs => by
      by_cases hcc : c.change = .complete
      · obtain ⟨-, -, hout, hnx, -, hcov⟩ := h.completing c hc hcc
        exact ⟨rfl, hout, hnx, fun v hv => hcov v ((hmem v).mp hv).1⟩
      · rw [hstage, if_neg hcc] at hs
        rw [(h.completed hs).1] at hc
        cases hc
    allocated := fun id hid => ⟨(h.allocated id hid).1, fun kind hf => by
      rcases hgarbage _ hf with hf | ⟨t, ht, heq⟩ | ⟨v, hv, heq⟩
      · exact (h.allocated id hid).2 kind hf
      · cases heq
        exact (hfresh id hid).1 (h.dropped c hc _ ht).1
      · cases heq
        exact (hfresh id hid).2 (hb.released _ hv).1⟩
    outputs := fun t ht => by
      obtain ⟨hlt, hold, hgar, hnew⟩ := h.outputs t ht
      refine ⟨hlt, hnew c hc, fun hf => ?_, fun c hc => by cases hc⟩
      rcases hgarbage _ hf with hf | ⟨t, ht, heq⟩ | ⟨v, hv, heq⟩
      · exact hgar hf
      · cases heq
        exact hold (h.dropped c hc _ ht).1
      · cases heq
    rotating := fun r hr => by
      obtain ⟨hrun, hrot⟩ := h.rotating r hr
      refine ⟨?_, hrot⟩
      rw [hstage, if_neg (fun hcc => by rw [hcomp hcc] at hrun; cases hrun)]
      exact hrun
    victim := fun x hx => by
      obtain ⟨hrun, hv, hne, hseq⟩ := h.victim x hx
      refine ⟨?_, (hmem _).mpr ⟨hv, (hb.victim x hx).2⟩, hne,
        fun seq hs w hw r hr => hseq seq hs w (hfloor.trans hw) r hr⟩
      rw [hstage, if_neg (fun hcc => by rw [hcomp hcc] at hrun; cases hrun)]
      exact hrun
    dropped := fun c hc => by cases hc
    garbage := fun f hf => by
      rcases hgarbage f hf with hf | ⟨t, ht, rfl⟩ | ⟨v, hv, rfl⟩
      · have hd := h.garbage f hf
        obtain ⟨kind, id⟩ := f
        cases kind with
        | sst => exact ⟨hd.2.1 c hc, fun c hc => (by cases hc), hd.2.2.trans_le hnext⟩
        | vlog => exact ⟨fun hv => hd.1 ((hmem id).mp hv).1, hd.2⟩
        | wal => exact hd
      · obtain ⟨hold, hnew⟩ := h.dropped c hc t ht
        exact ⟨hnew, fun c hc => (by cases hc), (h.current.tables_lt t hold).trans_le hnext⟩
      · obtain ⟨hv', hne⟩ := hb.released v hv
        exact ⟨fun hin => ((hmem v).mp hin).2 hv, lt_of_le_of_ne (h.vlogs_le v hv') hne⟩ }

theorem started (h : p.Ledger wals targets) (hs : p.stage = .startupGc) :
    Ledger { p with stage := .running } wals targets := by
  have hcs : p.stage.completed = true := by rw [hs]; rfl
  have hne : p.stage ≠ .running := by rw [hs]; decide
  obtain ⟨hnone, -⟩ := h.completed hs
  exact
  { h with
    current := { h.current with seqnos := fun _ => h.current.seqnos hcs }
    pending := fun c hc => by
      rw [show p.commit = some c from hc] at hnone
      cases hnone
    imms := fun i hi => ⟨(h.imms i hi).1, fun x hx =>
      ⟨((h.imms i hi).2 x hx).1, fun _ => ((h.imms i hi).2 x hx).2 hcs⟩⟩
    visible := fun _ => h.visible hcs
    silent := fun hs => absurd rfl hs
    quiet := fun hs => absurd rfl hs
    recovering := fun hs => absurd rfl hs
    completing := fun c hc => by
      rw [show p.commit = some c from hc] at hnone
      cases hnone
    completed := fun hs => by cases hs
    rotating := fun r hr => by
      have hnone := (h.quiet hne).2.1
      rw [show p.rotating = some r from hr] at hnone
      cases hnone
    victim := fun x hx => absurd (h.victim x hx).1 hne }

theorem repin (h : p.Ledger wals targets) {pinned : List FileVersion}
    (hpin : p.stage ≠ .running → pinned = []) :
    Ledger { p with pinned := pinned } wals targets :=
  { h with quiet := fun hs => ⟨hpin hs, (h.quiet hs).2⟩ }

theorem unlinkGarbage (h : p.Ledger wals targets) (f : StoreFile) :
    Ledger { p with garbage := p.garbage.filter (· ≠ f) } wals targets :=
  { h with
    quiet := fun hs => by
      obtain ⟨hpin, hrot, hvic, hgar⟩ := h.quiet hs
      refine ⟨hpin, hrot, hvic, ?_⟩
      rw [hgar]
      rfl
    allocated := fun id hid => ⟨(h.allocated id hid).1,
      fun kind hg => (h.allocated id hid).2 kind (List.mem_of_mem_filter hg)⟩
    outputs := fun t ht => by
      obtain ⟨hlt, hold, hgar, hnew⟩ := h.outputs t ht
      exact ⟨hlt, hold, fun hg => hgar (List.mem_of_mem_filter hg), hnew⟩
    garbage := fun g hg => h.garbage g (List.mem_of_mem_filter hg) }

end Ledger

/-! ### The start of a process -/

/-- The process that `open` goes on to, once its head and WAL are there. -/
def opened (p : FileProcess) : FileProcess :=
  match p.stage with
  | .createHead => { p with
      stage := .recover
      head := p.next
      wal := p.next + 1
      next := p.next + 2
      version := { p.version with vlogs := p.next :: p.version.vlogs } }
  | .createWal => { p with stage := .recover, wal := p.next, next := p.next + 1 }
  | _ => { p with stage := .recover }

theorem le_foldl_max {l : List ℕ} {a x : ℕ} (hx : x ∈ l ∨ x ≤ a) : x ≤ l.foldl max a := by
  induction l generalizing a with
  | nil => exact hx.resolve_left List.not_mem_nil
  | cons y l ih =>
    refine ih ?_
    rcases hx with hx | hx
    · rcases List.mem_cons.mp hx with rfl | hx
      exacts [.inr (le_max_right _ _), .inl hx]
    · exact .inr (hx.trans (le_max_left _ _))

theorem foldl_max_mono {l : List ℕ} {a b : ℕ} (h : a ≤ b) : l.foldl max a ≤ l.foldl max b := by
  induction l generalizing a b with
  | nil => exact h
  | cons y l ih => exact ih (by omega)

/-- What `open` takes from a sound directory backs its manifest. -/
theorem start_ledger (h : d.Sound wals targets)
    (hwritten : ∀ w, wals w ≠ [] → w ∈ targets) (k : ℕ) :
    (start d wals k).opened.Ledger wals targets := by
  have hlt : ∀ v ∈ d.liveVlogs, v < d.recoverNext := fun v hv => h.below (h.mem_files hv)
  have hnext : d.data.nextFileId ≤ d.recoverNext := StoreDir.recoverNext_spec.1.1
  have hvisible : d.data.lastFlushedSeqno ≤ (start d wals k).visible := le_foldl_max (.inr le_rfl)
  -- the two fresh ids are above every id that the directory holds
  have hbacks : (start d wals k).opened.backing.Backs wals d.data [] :=
    { next_le := hnext.trans (Nat.le_add_right _ 2)
      floor_wal := (h.floor.trans hnext).trans (Nat.le_add_right _ 1)
      floor_next := h.floor
      tables_lt := fun t ht => (h.tables t ht).2
      head_le := h.head
      live := fun v hv =>
        ⟨List.mem_cons_of_mem _ (StoreDir.mem_liveVlogs.mpr (.inl hv)), (h.live v hv).2,
        List.not_mem_nil⟩
      retired := fun v hv =>
        ⟨List.mem_cons_of_mem _ (StoreDir.mem_liveVlogs.mpr (.inr (.inl ⟨hv, (h.retired v hv).1⟩))),
        (h.retired v hv).2.ne, List.not_mem_nil⟩
      released := fun v hv => absurd hv List.not_mem_nil
      covered := fun v hv _ => by
        rcases List.mem_cons.mp hv with rfl | hv
        · exact .inr (.inr h.head)
        · rcases StoreDir.mem_liveVlogs.mp hv with hl | ⟨hr, -⟩ | ⟨-, hy, -⟩
          exacts [.inl hl, .inr (.inl hr), .inr (.inr hy.1)]
      ptrs := fun w hw r hr v hv => ⟨List.mem_cons_of_mem _ (h.ptr_mem hw hr hv), List.not_mem_nil⟩
      victim := fun x hx => by cases hx
      flushed := hvisible
      seqnos := fun hc => by cases hc }
  exact
  { current := hbacks
    pending := fun c hc => by cases hc
    tables := rfl
    head_mem := List.mem_cons_self
    vlogs_le := fun v hv => by
      rcases List.mem_cons.mp hv with rfl | hv
      exacts [le_rfl, (hlt v hv).le]
    head_lt := Nat.lt_add_of_pos_right (by decide)
    wal_lt := Nat.lt_succ_self _
    targets_le := fun w hw => (h.targets_lt w hw).le.trans (Nat.le_succ _)
    imms := fun i hi => by
      -- what was replayed is frozen under the newest WAL that was there
      obtain ⟨hi, hne⟩ : i = (d.walIds.getLast?.getD 0,
          some (((d.replayed wals k).map LogRecord.seqno).foldl max 0)) ∧
          d.replayed wals k ≠ [] := by
        change i ∈ (if d.replayed wals k = [] then [] else [_]) at hi
        split at hi
        exacts [absurd hi List.not_mem_nil, ⟨List.mem_singleton.mp hi, by assumption⟩]
      rw [hi]
      refine ⟨?_, fun x hx => ⟨?_, fun hc => by cases hc⟩⟩
      · refine lt_of_lt_of_le ?_ (Nat.le_succ _)
        cases hlast : d.walIds.getLast? with
        | none => exact Nat.lt_of_lt_of_le Nat.one_pos StoreDir.recoverNext_spec.1.2
        | some w => exact StoreDir.recoverNext_spec.2.2.1 w (StoreDir.Sound.mem_walIds.mp
          (List.mem_of_getLast? hlast)).1
      · cases hx
        exact foldl_max_mono (Nat.zero_le _)
    visible := fun hc => by cases hc
    silent := fun _ w hw => by
      by_contra hne
      exact absurd (h.targets_lt w (hwritten w hne)) (Nat.not_lt.mpr (Nat.le_of_succ_le hw))
    quiet := fun _ => ⟨rfl, rfl, rfl, rfl⟩
    recovering := fun _ c hc => by cases hc
    completing := fun c hc => by cases hc
    completed := fun hs => by cases hs
    allocated := fun id hid => absurd hid List.not_mem_nil
    outputs := fun t ht => absurd ht List.not_mem_nil
    rotating := fun r hr => by cases hr
    victim := fun x hx => by cases hx
    dropped := fun c hc => by cases hc
    garbage := fun f hf => absurd hf List.not_mem_nil }

end FileProcess

end Fluent31
