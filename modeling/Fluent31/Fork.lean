/-
Forking a store (`fork.rs`).

A fork is an archive of the state at a cut: the tables and value-log files of a view that
was taken under the manifest lock, while the cut was registered there, and a manifest
without WALs.  A cut at the flushed head takes the tables as they are.  A cut below it
rewrites them: one merge over the view's runs keeps the newest version of each key at or
below the cut, unless that is a tombstone.

* `SnapshotLoop.run_spec` — what the merge has kept after any part of its input;
* `writeSnapshotRun_spec` — the run it writes;
* `Archive.openDb_eq`, `Archive.Sound.wf` — the store that opens from an archive;
* `ForkCut.build` — what the builder leaves.
-/
import Fluent31.DefRecords

namespace Fluent31

open Mvcc Ordered

variable {opts : Options} {e : Entry} {id id' : ℕ}

/-! ### Fragments split by size alone -/

namespace FragmentWriter

variable {w : FragmentWriter}

/-- The current fragment is large enough. -/
def isLarge (opts : Options) (w : FragmentWriter) : Bool :=
  match w.builder with
  | some b => decide (opts.targetFileSize ≤ opts.tableFormat.estimatedSize b.entries)
  | none => false

/-- Add one version of a new user key. -/
def emitBySize (opts : Options) (w : FragmentWriter) (nextFileId : ℕ) (e : Entry) :
    Option (FragmentWriter × ℕ) :=
  (if w.isLarge opts then (w.close opts).map fun tables => ⟨tables, none⟩ else some w).bind fun w =>
    match w.builder with
    | some b => (b.add e).map fun b => (⟨w.tables, some b⟩, nextFileId)
    | none => ((TableBuilder.new nextFileId).add e).map fun b => (⟨w.tables, some b⟩,
      nextFileId + 1)

/-- On a new user key the size alone decides for the other writers as well. -/
theorem emitBySize_eq (hw : w.Ordered) (hnew : ∀ a ∈ w.entries, a.ukey ≠ e.ukey) :
    w.emitBySize opts id e = w.emit opts id e := by
  have hfull : w.isLarge opts = w.isFull opts e.ukey := by
    unfold isLarge isFull
    cases hb : w.builder with
    | none => rfl
    | some b =>
      have hne := (hw.builder b hb).1
      have hlast : e.ukey ≠ b.lastUkey := by
        unfold TableBuilder.lastUkey
        rw [List.getLast?_eq_getLast_of_ne_nil hne]
        refine (hnew _ (List.mem_append_right _ ?_)).symm
        rw [hb]
        exact List.getLast_mem hne
      simp only [hlast, ne_eq, not_false_eq_true, decide_true, Bool.and_true]
  exact congrArg (fun full : Bool =>
    (if full then (w.close opts).map fun tables => (⟨tables, none⟩ : FragmentWriter)
    else some w).bind _) hfull

end FragmentWriter

/-! ### The snapshot run -/

/-- The state of the loop of `write_snapshot_run`. -/
structure SnapshotLoop where
  writer : FragmentWriter
  curUkey : Option Bytes
  /-- The newest version of the key at or below the cut has been seen. -/
  emitted : Bool

namespace SnapshotLoop

def init : SnapshotLoop := ⟨.empty, none, false⟩

/-- One version read off the merge. -/
def step (opts : Options) (cut : ℕ) (l : SnapshotLoop) (nextFileId : ℕ) (e : Entry) :
    Option (SnapshotLoop × ℕ) :=
  let emitted := if l.curUkey = some e.ukey then l.emitted else false
  if e.seq ≤ cut ∧ emitted = false then
    if e.kind = .put then
      (l.writer.emitBySize opts nextFileId e).map fun r => (⟨r.1, some e.ukey, true⟩, r.2)
    else some (⟨l.writer, some e.ukey, true⟩, nextFileId)
  else some (⟨l.writer, some e.ukey, emitted⟩, nextFileId)

def run (opts : Options) (cut : ℕ) : SnapshotLoop → ℕ → List Entry → Option (SnapshotLoop × ℕ)
  | l, id, [] => some (l, id)
  | l, id, e :: es => (l.step opts cut id e).bind fun r => run opts cut r.1 r.2 es

/-- What the loop holds when it has read `done`. -/
structure Follows (cut : ℕ) (done : List Entry) (l : SnapshotLoop) : Prop where
  ordered : l.writer.Ordered
  entries : ∀ e, e ∈ l.writer.entries ↔ e.kind = .put ∧ IsNewest done e.ukey cut e
  cur : l.curUkey = done.getLast?.map Entry.ukey
  emitted : ∀ k, l.curUkey = some k → (l.emitted = true ↔ ∃ f ∈ done, f.ukey = k ∧ f.seq ≤ cut)

theorem follows_init (cut : ℕ) : Follows cut [] init where
  ordered := FragmentWriter.empty_ordered
  entries _ := ⟨fun h => absurd h List.not_mem_nil, fun h => absurd h.2.1 List.not_mem_nil⟩
  cur := rfl
  emitted _ h := absurd h (by simp [init])

variable {cut : ℕ} {done es : List Entry} {l l' : SnapshotLoop}

/-- Versions of one key come newest first. -/
theorem older_of_sorted (hs : Sorted (done ++ [e])) (hd : Distinct (done ++ [e])) {f : Entry}
    (hf : f ∈ done) (hk : f.ukey = e.ukey) : e.seq < f.seq := by
  have hlt : f.ikey < e.ikey := (List.pairwise_append.mp hs).2.2 f hf e (List.mem_singleton_self e)
  refine lt_of_le_of_ne (seq_ge_of_ikey_lt hlt hk) fun heq => ?_
  have hsame : e = f := hd e (List.mem_append_right _ (List.mem_singleton_self e)) f
    (List.mem_append_left _ hf) hk.symm heq
  exact absurd hlt (hsame ▸ lt_irrefl _)

/-- The next version is the newest of its key if no version before it is. -/
theorem isNewest_concat (hs : Sorted (done ++ [e])) (hd : Distinct (done ++ [e])) (x : Entry) :
    IsNewest (done ++ [e]) x.ukey cut x ↔ IsNewest done x.ukey cut x ∨
      (x = e ∧ e.seq ≤ cut ∧ ∀ f ∈ done, f.ukey = e.ukey → cut < f.seq) := by
  constructor
  · rintro ⟨hx, -, hle, hmax⟩
    rcases List.mem_append.mp hx with hx | hx
    · exact Or.inl ⟨hx, rfl, hle, fun f hf => hmax f (List.mem_append_left _ hf)⟩
    · obtain rfl := List.mem_singleton.mp hx
      refine Or.inr ⟨rfl, hle, fun f hf hk => ?_⟩
      by_contra hcut
      have h1 : f.seq ≤ x.seq := hmax f (List.mem_append_left _ hf) hk (not_lt.mp hcut)
      have h2 := older_of_sorted hs hd hf hk
      omega
  · rintro (⟨hx, -, hle, hmax⟩ | ⟨rfl, hle, hnone⟩)
    · refine ⟨List.mem_append_left _ hx, rfl, hle, fun f hf hk hfle => ?_⟩
      rcases List.mem_append.mp hf with hf | hf
      · exact hmax f hf hk hfle
      · obtain rfl := List.mem_singleton.mp hf
        exact le_of_lt (older_of_sorted hs hd hx hk.symm)
    · refine ⟨List.mem_append_right _ (List.mem_singleton_self x), rfl, hle, fun f hf hk hfle => ?_⟩
      rcases List.mem_append.mp hf with hf | hf
      · exact absurd hfle (not_le.mpr (hnone f hf hk))
      · exact le_of_eq (congrArg Entry.seq (List.mem_singleton.mp hf))

/-- Whether the newest version of the next key has been seen. -/
theorem Follows.seen (h : Follows cut done l) (hs : Sorted (done ++ [e])) :
    (if l.curUkey = some e.ukey then l.emitted else false) = true ↔ ∃ f ∈ done, f.ukey = e.ukey ∧
      f.seq ≤ cut := by
  by_cases hcur : l.curUkey = some e.ukey
  · rw [if_pos hcur]
    exact h.emitted _ hcur
  · rw [if_neg hcur]
    refine ⟨fun hc => absurd hc Bool.false_ne_true, ?_⟩
    rintro ⟨f, hf, hk, -⟩
    -- the last version read has the largest key so far
    exfalso
    rcases List.eq_nil_or_concat done with rfl | ⟨pre, x, rfl⟩
    · exact List.not_mem_nil hf
    · rw [List.concat_eq_append] at hf hs h
      rw [h.cur, List.getLast?_concat, Option.map_some, Option.some_inj] at hcur
      obtain ⟨hpre, -, hlast⟩ := List.pairwise_append.mp hs
      have hle : x.ukey ≤ e.ukey :=
        ukey_le_of_ikey_lt (hlast x (List.mem_append_right _ (List.mem_singleton_self x)) e
          (List.mem_singleton_self e))
      rcases List.mem_append.mp hf with hf | hf
      · have := ukey_le_of_ikey_lt
          ((List.pairwise_append.mp hpre).2.2 f hf x (List.mem_singleton_self x))
        exact hcur (le_antisymm hle (hk ▸ this))
      · exact hcur ((List.mem_singleton.mp hf) ▸ hk)

/-- The keys written so far are behind a key of which nothing was seen. -/
theorem Follows.behind (h : Follows cut done l) (hs : Sorted (done ++ [e])) :
    (∀ a ∈ l.writer.entries, a.ikey < e.ikey) ∧
      ((∀ f ∈ done, f.ukey = e.ukey → cut < f.seq) → ∀ a ∈ l.writer.entries, a.ukey ≠ e.ukey) := by
  refine ⟨fun a ha => ?_, fun hnone a ha hk => ?_⟩
  · exact (List.pairwise_append.mp hs).2.2 a ((h.entries a).mp ha).2.1 e (List.mem_singleton_self e)
  · obtain ⟨-, hmem, -, hle, -⟩ := (h.entries a).mp ha
    exact absurd hle (not_le.mpr (hnone a hmem hk))

/-- **One version read**: what is kept are still the newest puts. -/
theorem Follows.step (h : Follows cut done l) (hs : Sorted (done ++ [e]))
    (hd : Distinct (done ++ [e])) :
    (l.step opts cut id e).isSome ∧ ∀ l' id', l.step opts cut id e = some (l', id') →
      Follows cut (done ++ [e]) l' ∧ id ≤ id' := by
  have hseen := h.seen hs
  obtain ⟨hlt, hnew⟩ := h.behind hs
  have hcur : some e.ukey = (done ++ [e]).getLast?.map Entry.ukey := by
    rw [List.getLast?_concat, Option.map_some]
  unfold SnapshotLoop.step
  simp only
  generalize (if l.curUkey = some e.ukey then l.emitted else false) = emitted at hseen ⊢
  -- what the flag says after the version
  have hflag : ∀ b : Bool, (b = true ↔ emitted = true ∨ e.seq ≤ cut) → ∀ k, some e.ukey = some k →
      (b = true ↔ ∃ f ∈ done ++ [e], f.ukey = k ∧ f.seq ≤ cut) := by
    rintro b hb k hk
    obtain rfl := Option.some_inj.mp hk
    rw [hb, hseen]
    simp only [List.mem_append, List.mem_singleton, or_and_right, exists_or,
      exists_eq_left, true_and]
  split
  · rename_i hfirst
    obtain ⟨hle, hfalse⟩ := hfirst
    have hnone : ∀ f ∈ done, f.ukey = e.ukey → cut < f.seq := fun f hf hk => by
      by_contra hcut
      exact absurd (hseen.mpr ⟨f, hf, hk, not_lt.mp hcut⟩) (by simp [hfalse])
    split
    · -- a put is written
      rename_i hput
      rw [FragmentWriter.emitBySize_eq h.ordered (hnew hnone), Option.isSome_map]
      refine ⟨FragmentWriter.emit_isSome h.ordered hlt, fun l' id' heq => ?_⟩
      obtain ⟨⟨w, next⟩, hw, heq⟩ := Option.map_eq_some_iff.mp heq
      obtain ⟨rfl, rfl⟩ := Prod.mk.inj heq
      obtain ⟨hent, hord, hid⟩ :=
        FragmentWriter.emit_spec h.ordered (fun a ha => ukey_le_of_ikey_lt (hlt a ha)) hw
      refine ⟨⟨hord, fun x => ?_, hcur, hflag true ⟨fun _ => Or.inr hle, fun _ => rfl⟩⟩, hid⟩
      rw [hent, List.mem_append, List.mem_singleton, h.entries, isNewest_concat hs hd, and_or_left]
      refine or_congr_right ⟨fun hx => ?_, fun hx => hx.2.1⟩
      subst hx
      exact ⟨hput, rfl, hle, hnone⟩
    · -- a tombstone hides what is older
      rename_i hdelete
      refine ⟨rfl, fun l' id' heq => ?_⟩
      obtain ⟨rfl, rfl⟩ := Prod.mk.inj (Option.some_inj.mp heq)
      refine ⟨⟨h.ordered, fun x => ?_, hcur, hflag true ⟨fun _ => Or.inr hle, fun _ => rfl⟩⟩,
        le_rfl⟩
      rw [h.entries, isNewest_concat hs hd, and_or_left]
      refine ⟨Or.inl, fun hx => hx.resolve_right fun hx => ?_⟩
      exact hdelete (hx.2.1 ▸ hx.1)
  · rename_i hskip
    refine ⟨rfl, fun l' id' heq => ?_⟩
    obtain ⟨rfl, rfl⟩ := Prod.mk.inj (Option.some_inj.mp heq)
    have hflag' : emitted = true ↔ emitted = true ∨ e.seq ≤ cut := by
      refine ⟨Or.inl, fun hor => hor.elim (fun h => h) fun hle => ?_⟩
      by_contra hfalse
      exact hskip ⟨hle, by simpa using hfalse⟩
    refine ⟨⟨h.ordered, fun x => ?_, hcur, hflag emitted hflag'⟩, le_rfl⟩
    rw [h.entries, isNewest_concat hs hd, and_or_left]
    refine ⟨Or.inl, fun hx => hx.resolve_right ?_⟩
    rintro ⟨-, -, hle, hnone⟩
    obtain ⟨f, hf, hk, hfle⟩ := hseen.mp (hflag'.mpr (Or.inr hle))
    exact absurd hfle (not_le.mpr (hnone f hf hk))

/-- **The merge**: the loop ends, and it has kept the newest puts of what it has read. -/
theorem run_spec (h : Follows cut done l) (hs : Sorted (done ++ es)) (hd : Distinct (done ++ es)) :
    (run opts cut l id es).isSome ∧ ∀ l' id', run opts cut l id es = some (l', id') →
      Follows cut (done ++ es) l' ∧ id ≤ id' := by
  induction es generalizing done l id with
  | nil =>
    refine ⟨rfl, fun l' id' heq => ?_⟩
    obtain ⟨rfl, rfl⟩ := Prod.mk.inj (Option.some_inj.mp heq)
    exact ⟨by rwa [List.append_nil], le_rfl⟩
  | cons e es ih =>
    have hsplit : done ++ e :: es = (done ++ [e]) ++ es := by
      rw [List.append_assoc, List.singleton_append]
    rw [hsplit] at hs hd ⊢
    have hs₁ : Sorted (done ++ [e]) := (List.pairwise_append.mp hs).1
    have hd₁ : Distinct (done ++ [e]) := hd.mono fun x hx => List.mem_append_left _ hx
    have hsome : (l.step opts cut id e).isSome := (h.step hs₁ hd₁).1
    obtain ⟨⟨l₁, id₁⟩, hl₁⟩ := Option.isSome_iff_exists.mp hsome
    obtain ⟨hfollows, hid⟩ := (h.step hs₁ hd₁).2 l₁ id₁ hl₁
    have hrun : run opts cut l id (e :: es) = run opts cut l₁ id₁ es := by
      show (l.step opts cut id e).bind _ = _
      rw [hl₁, Option.bind_some]
    rw [hrun]
    refine ⟨(ih hfollows hs hd).1, fun l' id' heq => ?_⟩
    obtain ⟨hf, hle⟩ := (ih hfollows hs hd).2 l' id' heq
    exact ⟨hf, le_trans hid hle⟩

end SnapshotLoop

/-- `write_snapshot_run`: the levels of the state at `cut`, and the next file id.  The run
takes the first id, its fragments the following ones. -/
def writeSnapshotRun (opts : Options) (nextFileId : ℕ) (v : Version) (cut : ℕ) :
    Option (List (List Run) × ℕ) :=
  let merge := mergeAll Entry.ikey (v.runsNewestFirst.map Run.entries)
  (SnapshotLoop.run opts cut .init (nextFileId + 1) merge).bind fun r =>
    (r.1.writer.close opts).map fun tables =>
      (if tables.isEmpty then [] else [[⟨nextFileId, tables⟩]], r.2)

/-- **The snapshot run** holds the newest puts at or below the cut, in ordered fragments. -/
theorem writeSnapshotRun_spec {next cut : ℕ} {v : Version}
    (hm : RunningJob.Mergeable v.runsNewestFirst)
    (hd : Distinct (v.runsNewestFirst.flatMap Run.entries)) :
    ∃ levels next', writeSnapshotRun opts next v cut = some (levels, next') ∧ next < next' ∧
      levels.flatten.length ≤ 1 ∧ (∀ r ∈ levels.flatten, r.id = next ∧ r.Ordered) ∧
      ∀ e, e ∈ levels.flatten.flatMap Run.entries ↔
        e.kind = .put ∧ IsNewest (v.runsNewestFirst.flatMap Run.entries) e.ukey cut e := by
  -- the merge has the entries of the runs, so they are distinct as well
  have hmem : ∀ e, e ∈ mergeAll Entry.ikey (v.runsNewestFirst.map Run.entries) ↔
      e ∈ v.runsNewestFirst.flatMap Run.entries := fun e => by
    rw [mem_mergeAll, List.mem_flatMap]
    simp only [List.mem_map, exists_exists_and_eq_and]
  have hdist : Distinct ([] ++ mergeAll Entry.ikey (v.runsNewestFirst.map Run.entries)) :=
    hd.mono fun e he => (hmem e).mp he
  have hinit := SnapshotLoop.follows_init cut
  -- neither the loop nor the closing of the last fragment fails
  have hsome : (SnapshotLoop.run opts cut .init (next + 1)
      (mergeAll Entry.ikey (v.runsNewestFirst.map Run.entries))).isSome :=
    (SnapshotLoop.run_spec hinit hm.sorted hdist).1
  obtain ⟨⟨l, id⟩, hl⟩ := Option.isSome_iff_exists.mp hsome
  obtain ⟨hfollows, hid⟩ := (SnapshotLoop.run_spec hinit hm.sorted hdist).2 l id hl
  have hclosed : (l.writer.close opts).isSome := FragmentWriter.close_isSome hfollows.ordered
  obtain ⟨tables, ht⟩ := Option.isSome_iff_exists.mp hclosed
  have hentries := FragmentWriter.close_entries ht
  -- what the loop keeps are the newest puts of the merge
  have hkept : ∀ e, e ∈ tables.flatMap Table.entries ↔
      e.kind = .put ∧ IsNewest (v.runsNewestFirst.flatMap Run.entries) e.ukey cut e := fun e => by
    rw [hentries, hfollows.entries]
    refine and_congr_right fun _ => ?_
    rw [List.nil_append]
    exact ⟨fun h => Answers.congr (r := some e) hmem h, fun h =>
      Answers.congr (r := some e) (fun x => (hmem x).symm) h⟩
  have hwrite : writeSnapshotRun opts next v cut =
      some (if tables.isEmpty then [] else [[⟨next, tables⟩]], id) := by
    unfold writeSnapshotRun
    simp only
    rw [hl, Option.bind_some, ht, Option.map_some]
  refine ⟨_, id, hwrite, by omega, ?_⟩
  split
  · rename_i hempty
    rw [List.isEmpty_iff.mp hempty] at hkept
    exact ⟨Nat.zero_le _, fun r hr => absurd hr List.not_mem_nil, hkept⟩
  · refine ⟨le_rfl, fun r hr => ?_, fun e => ?_⟩
    · obtain rfl := List.mem_singleton.mp hr
      exact ⟨rfl, FragmentWriter.close_ordered hfollows.ordered ht⟩
    · rw [← hkept]
      show e ∈ [(⟨next, tables⟩ : Run)].flatMap Run.entries ↔ e ∈ (⟨next, tables⟩ : Run).entries
      rw [List.flatMap_singleton]

/-! ### Archives -/

/-- An archive: its tables, at their places in the manifest's levels, its value-log files
with their records, and the rest of its manifest. -/
structure Archive where
  levels : List (List Run)
  vlogs : List ℕ
  vlogHead : ℕ
  records : List VlogRecord
  manifest : Manifest

namespace Archive

variable (opts : Options) (a : Archive)

/-- What an open finds: at least one level, and no WAL, so that nothing is replayed and
the recovered memtable has the id 0. -/
def load : Db where
  mem := Memtable.new 0
  imms := []
  version := ⟨a.levels ++ List.replicate (1 - a.levels.length) [], a.vlogs, a.vlogHead⟩
  visibleSeqno := a.manifest.lastFlushedSeqno
  nextFileId := a.manifest.nextFileId
  wal := ⟨0, []⟩
  sealedWals := []
  vlog := ⟨a.records, a.vlogHead, 0⟩
  manifest := a.manifest
  snapshots := []
  defs := []
  published := []

/-- The first open of the archive. -/
def openDb : Option Db := a.load.reopen opts 0 0

/-- The store that opens, before its registry is loaded. -/
def opened : Db :=
  let next := a.load.diskNextFileId 0
  { a.load with
    mem := Memtable.new (next + 1)
    version :=
      { levels := a.load.version.levels ++
          List.replicate (opts.maxLevels - a.load.version.levels.length) []
        vlogs := a.vlogs ++ [next], vlogHeadId := next }
    nextFileId := next + 2
    wal := ⟨next + 1, []⟩
    vlog := a.load.vlog.rotate next
    manifest := { a.manifest with walFloor := next + 1, nextFileId := next + 2 } }

variable {a}

/-- **The open** replays nothing. -/
theorem openDb_eq (hpins : a.manifest.pins = []) :
    a.openDb opts = (a.opened opts).loadRegistry := by
  have hreplay : a.load.replayable = [] := by
    unfold Db.replayable
    exact List.flatMap_eq_nil_iff.mpr fun w hw =>
      congrArg Wal.records (List.mem_singleton.mp (List.mem_of_mem_filter hw))
  have hempty : a.load.recovered 0 = Memtable.new 0 := by
    unfold Db.recovered
    rw [hreplay]
    rfl
  have hseq : a.load.recoveredSeqno 0 = a.manifest.lastFlushedSeqno := by
    unfold Db.recoveredSeqno
    rw [hreplay]
    rfl
  have hpinned : (a.load.manifest.pins.all fun p => decide (p.2 ≤ a.load.recoveredSeqno 0)) =
      true := by
    rw [show a.load.manifest.pins = [] from hpins]
    rfl
  unfold openDb Db.reopen Db.recover
  simp only
  rw [if_pos hpinned, hempty, hseq, Option.bind_some]
  -- nothing is to be flushed, and the WAL there never was is below the floor
  have hdropped : (a.load.sealedWals ++ [a.load.wal]).filter
      (fun w => decide (a.load.diskNextFileId 0 + 1 ≤ w.id)) = [] :=
    List.filter_eq_nil_iff.mpr fun w hw => by
      rw [show w = ⟨0, []⟩ from List.mem_singleton.mp hw]
      simp
  have hsnap : a.load.manifest.pins.map Prod.snd = [] := congrArg (List.map Prod.snd) hpins
  unfold Db.completeOpen
  simp only [Memtable.isEmpty, Memtable.new_map, List.isEmpty_nil, if_true, Option.map_some,
    Option.bind_some, Db.deleteOldWals, hdropped, hsnap]
  exact congrArg Db.loadRegistry rfl

/-- What a fork puts into an archive. -/
structure Sound (a : Archive) : Prop where
  newer : a.levels.flatten.Pairwise fun r r' => Newer r.entries r'.entries
  ordered : ∀ r ∈ a.levels.flatten, r.Ordered
  tables_le : ∀ e ∈ a.levels.flatten.flatMap Run.entries, e.seq ≤ a.manifest.lastFlushedSeqno
  flushed_lt : a.manifest.lastFlushedSeqno < MAX_SEQNO
  distinct : a.records.Pairwise fun r r' => r.ptr ≠ r'.ptr
  files : ∀ r ∈ a.records, r.ptr.file ∈ a.vlogs
  runs_nodup : (a.levels.flatten.map Run.id).Nodup
  runs_lt : ∀ r ∈ a.levels.flatten, r.id < a.manifest.nextFileId
  pins : a.manifest.pins = []

theorem runs_opened (opts : Options) (a : Archive) :
    (a.opened opts).version.runsNewestFirst = a.levels.flatten :=
  (flatten_pad _ _).trans (flatten_pad _ _)

theorem stored_opened (opts : Options) (a : Archive) :
    e ∈ (a.opened opts).stored ↔ e ∈ a.levels.flatten.flatMap Run.entries := by
  rw [Db.mem_stored, Db.tableVersions, runs_opened]
  constructor
  · rintro (h | ⟨m, hm, -⟩ | h)
    · exact absurd h List.not_mem_nil
    · exact absurd hm List.not_mem_nil
    · exact h
  · exact fun h => Or.inr (Or.inr h)

/-- **The store that opens** is well formed. -/
theorem Sound.wf (h : a.Sound) : (a.opened opts).WF := by
  obtain ⟨-, hvlogs, hnext⟩ := lt_diskNextFileId a.load 0
  have hruns := runs_opened opts a
  -- `load` pads the levels to one at least
  have hlevels : a.load.version.levels ≠ [] := fun hnil => by
    have hlen := congrArg List.length hnil
    rw [show a.load.version.levels = a.levels ++ List.replicate (1 - a.levels.length) [] from rfl,
      List.length_append, List.length_replicate, List.length_nil] at hlen
    omega
  refine
    { recent := ⟨?_, fun r hr => h.ordered r (hruns ▸ hr)⟩
      tables_le := fun e he => h.tables_le e (by rwa [Db.tableVersions, hruns] at he)
      flushed_le := le_rfl
      visible_lt := h.flushed_lt
      replay := ?_
      covers_sealed := .nil
      covers_wal := ⟨rfl, fun e => by simp [opened, Wal.versions]⟩
      floor_le := le_rfl
      wals_sorted := List.pairwise_singleton _ _
      wal_lt := Nat.lt_succ_self _
      vlog := ⟨h.distinct, Nat.lt_succ_of_lt (Nat.lt_succ_self _),
        fun r hr hfile => ?_, fun r hr => ?_⟩
      vlogs := fun r hr => List.mem_append_left _ (h.files r hr)
      head := List.mem_append_right _ (List.mem_singleton_self _)
      vlogs_lt := fun id hid => ?_
      runs_nodup := by
        rw [hruns]
        exact h.runs_nodup
      runs_lt := fun r hr => ?_
      next_le := le_rfl
      levels := fun hnil => hlevels (List.append_eq_nil_iff.mp hnil).1 }
  · show ([Source.mem (Memtable.new _)] ++
      (a.opened opts).version.runsNewestFirst.map Source.run).Pairwise _
    -- the memtable is empty, so it is newer than every run
    rw [hruns, List.singleton_append]
    exact List.pairwise_cons.mpr
      ⟨fun _ _ _ hf => absurd hf List.not_mem_nil, List.pairwise_map.mpr h.newer⟩
  · rw [Db.replayable_eq le_rfl]
    rfl
  · -- the head is a fresh file, and no pointer names it
    exact absurd hfile (ne_of_lt (hvlogs _ (h.files r hr)))
  · exact lt_of_lt_of_le (hvlogs _ (h.files r hr)) (Nat.le_add_right _ 2)
  · rcases List.mem_append.mp hid with hid | hid
    · exact lt_of_lt_of_le (hvlogs id hid) (Nat.le_add_right _ 2)
    · rw [List.mem_singleton.mp hid]
      exact Nat.lt_succ_of_lt (Nat.lt_succ_self _)
  · exact lt_of_lt_of_le (h.runs_lt r (hruns ▸ hr)) (le_trans hnext (Nat.le_add_right _ 2))

end Archive

/-! ### The cut and the build -/

/-- The part of `create` that registers the cut. -/
def Db.registerCut (db : Db) (cut? : Option ℕ) : Except Error (ℕ × Db) :=
  let head := db.manifest.lastFlushedSeqno
  let cut := cut?.getD head
  if head < cut then
    .error (.invalidArgument (s!"cannot fork at seqno {cut}: beyond the flushed head {head} at " ++
      "the time of the cut (not committed before the fork began)"))
  else if cut < head then (db.tryRegisterSnapshotAt cut).map fun db => (cut, db)
  else .ok (cut, db.registerSnapshotAt cut)

/-- What the builder takes along. -/
structure ForkCut where
  seq : ℕ
  /-- The flushed head at the time of the cut. -/
  head : ℕ
  view : ReadView
  vlogHead : ℕ
  manifest : Manifest

/-- Register the cut and take the view, under the manifest lock. -/
def Service.pinCut (s : Service) (cut? : Option ℕ) : Except Error (ForkCut × Service) :=
  (s.engine.db.registerCut cut?).map fun r =>
    (⟨r.1, s.engine.db.manifest.lastFlushedSeqno, s.db.readView, s.vlogHead, s.engine.db.manifest⟩,
      { s with
        engine := { s.engine with db := r.2, handles := r.1 :: s.engine.handles }
        views := s.views ++ [(s.db.readView, r.1)] })

namespace ForkCut

variable (opts : Options) (c : ForkCut)

/-- The record lies in a file that is linked or copied; of the head, while it is appended
to, the part that was written is copied. -/
def copies (v : Vlog) (r : VlogRecord) : Bool :=
  decide (r.ptr.file ∈ c.view.version.vlogs ∧
    (r.ptr.file = c.vlogHead → c.vlogHead = v.headId → r.ptr.offset + r.ptr.len ≤ v.written))

/-- Build the archive, in a later state of the parent; the second result is the parent's
next file id. -/
def build (s : Service) : Option (Archive × ℕ) :=
  (if c.seq = c.head then some (c.view.version.levels, s.engine.db.nextFileId)
    else writeSnapshotRun opts s.engine.db.nextFileId c.view.version c.seq).bind fun r =>
    if ∀ id ∈ c.view.version.vlogs, id ∈ s.disk then
      let next := if c.seq = c.head then c.manifest.nextFileId else r.2
      some (⟨r.1, c.view.version.vlogs, c.vlogHead,
        s.engine.db.vlog.records.filter (c.copies s.engine.db.vlog), ⟨c.seq, next, next, []⟩⟩, r.2)
    else none

end ForkCut

/-! ### The registry of an open -/

theorem mapM_isSome {α β : Type} {f : α → Option β} {l : List α} (h : ∀ x ∈ l, (f x).isSome) :
    (l.mapM f).isSome := by
  induction l with
  | nil => rfl
  | cons x l ih =>
    obtain ⟨y, hy⟩ := Option.isSome_iff_exists.mp (h x List.mem_cons_self)
    obtain ⟨ys, hys⟩ := Option.isSome_iff_exists.mp (ih fun x hx => h x (List.mem_cons_of_mem _ hx))
    rw [List.mapM_cons, hy, hys]
    rfl

/-- The registry loads if all reads are answered and the definitions decode. -/
theorem Db.loadRegistry_isSome {db : Db} (h : ∀ k, ∃ x, db.getAtSeq k db.visibleSeqno = .ok x ∧
    (DEF_PREFIX <+: k → ∀ v, x = some v → (decodeDef v).isSome)) : db.loadRegistry.isSome := by
  unfold loadRegistry
  rw [Option.isSome_map]
  refine mapM_isSome fun k hk => ?_
  obtain ⟨hk, hlive⟩ := List.mem_filter.mp hk
  obtain ⟨x, hx, hdecode⟩ := h k
  have hpre := of_decide_eq_true (List.mem_filter.mp (mem_sortDedup.mp hk)).2
  -- a live key has a value
  obtain ⟨v, rfl⟩ : ∃ v, x = some v := by
    unfold getAtSeq at hx
    rw [min_self] at hx
    cases hfound : db.readView.getVersioned k db.visibleSeqno with
    | none =>
      rw [hfound] at hlive
      exact absurd hlive Bool.false_ne_true
    | some y =>
      rw [hfound] at hlive hx
      have hput : y.kind = .put := of_decide_eq_true hlive
      simp only [hput] at hx
      cases hresolve : db.resolveRepr k y.repr with
      | error err =>
        rw [hresolve] at hx
        exact absurd hx (by simp [Except.map])
      | ok w =>
        rw [hresolve] at hx
        exact ⟨w, (Except.ok.inj hx).symm⟩
  simp only [hx]
  exact hdecode hpre v rfl

end Fluent31
