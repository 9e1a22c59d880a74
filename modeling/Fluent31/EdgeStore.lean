/-
The edge replica's cache (`edge.rs`) and how it pulls a slice of its master
(`fluent-replication/src/client.rs`).

A pull asks the master for the tables of its tree that overlap the scope, copies
the files it does not have and installs the slice.  Every step of it may fail; a
file write may leave any prefix.  The directory is wiped when the replica attaches,
so after a crash nothing is kept.  A replica that attaches to another instance serves
the old cache until the new one has its slice, and both use one directory.

* `fetchChunks_eq` — a table that is fetched is the master's;
* `pullSlice_prefixes` — in a directory of the master's own every fragment stays a
  prefix of the master's table;
* `Replica.pull_heals_iff` — a pull whose requests succeed installs the slice if and
  only if no local file operation fails and every fragment it finds in place is
  whole; nothing cut short is ever served;
* `pull_stuck` — a fragment that a failed write cut short is skipped, and the install
  fails;
* `Replica.pull_mixed` — a fragment of another instance may be taken for the master's.

What the table reader makes of a file is a parameter; the master's tables carry
that it accepts them.
-/
import Fluent31.Grouping
import Fluent31.Proto
import Fluent31.Lib.MapM
import Fluent31.Lib.System

namespace Fluent31

open Checks (map_of_mapM_ok mapM_ok_left mapM_ok_right mapM_isOk)

/-- What the table reader makes of a file: its least and greatest user key. -/
abbrev TableReader := Bytes → Except Error (Bytes × Bytes)

variable {openTable : TableReader}

/-- A table file and its bounds. -/
structure TableFile (openTable : TableReader) where
  bytes : Bytes
  bounds : Bytes × Bytes
  opened : openTable bytes = .ok bounds

/-! ### Slices -/

structure SliceTable where
  id : ℕ
  size : ℕ
  minUkey : Bytes
  maxUkey : Bytes
  deriving DecidableEq

structure SliceRun where
  id : ℕ
  tables : List SliceTable
  deriving DecidableEq

structure SliceManifest where
  flushedSeqno : ℕ
  levels : List (List SliceRun)
  deriving DecidableEq

def SliceManifest.tables (m : SliceManifest) : List SliceTable :=
  m.levels.flatten.flatMap SliceRun.tables

def TableFile.advert (t : TableFile openTable) (id : ℕ) : SliceTable :=
  ⟨id, t.bytes.length, t.bounds.1, t.bounds.2⟩

/-- One store instance, by the tables it has ever had: a file is immutable and
its id not given again. -/
structure Master (openTable : TableReader) where
  table : ℕ → Option (TableFile openTable)

/-- The tables of a run that overlap the scope. -/
def Master.sliceRun (m : Master openTable) (lo : Bytes) (hi : Option Bytes) (ids : List ℕ) :
    List SliceTable :=
  ids.filterMap fun id => (m.table id).bind fun t =>
    if lo ≤ t.bounds.2 ∧ hi.all (fun h => decide (t.bounds.1 < h)) then some (t.advert id) else none

/-- `slice_manifest` of a tree given by the ids of its runs and tables. -/
def Master.sliceManifest (m : Master openTable) (flushed : ℕ) (tree : List (List (ℕ × List ℕ)))
    (lo : Bytes) (hi : Option Bytes) : SliceManifest :=
  ⟨flushed, tree.map fun runs => runs.filterMap fun r =>
    if (m.sliceRun lo hi r.2).isEmpty then none else some ⟨r.1, m.sliceRun lo hi r.2⟩⟩

/-- A slice of the master's tables. -/
def Master.Offers (m : Master openTable) (slice : SliceManifest) : Prop :=
  ∀ t ∈ slice.tables, ∃ f, m.table t.id = some f ∧ t = f.advert t.id

theorem Master.offers_sliceManifest (m : Master openTable) (flushed : ℕ)
    (tree : List (List (ℕ × List ℕ)))
    (lo : Bytes) (hi : Option Bytes) : m.Offers (m.sliceManifest flushed tree lo hi) := by
  intro t ht
  obtain ⟨run, hrun, ht⟩ := List.mem_flatMap.mp ht
  obtain ⟨runs, hruns, hrun⟩ := List.mem_flatten.mp hrun
  obtain ⟨ids, -, rfl⟩ := List.mem_map.mp hruns
  obtain ⟨r, -, hr⟩ := List.mem_filterMap.mp hrun
  obtain rfl : ⟨r.1, m.sliceRun lo hi r.2⟩ = run := by
    split at hr
    · exact absurd hr (by simp)
    · exact Option.some_inj.mp hr
  obtain ⟨id, -, hid⟩ := List.mem_filterMap.mp ht
  obtain ⟨f, hf, hid⟩ := Option.bind_eq_some_iff.mp hid
  split at hid
  · obtain rfl := Option.some_inj.mp hid
    exact ⟨f, hf, rfl⟩
  · exact absurd hid (by simp)

/-! ### The requests -/

def ST_ERR : ℕ := 0x01

def TABLE_CHUNK : ℕ := 2 ^ 20

/-- Why a pull failed. -/
inductive PullError
  /-- The referenced file left the live version. -/
  | gone (msg : String)
  | failed (e : Error)
  deriving DecidableEq

/-- Raw byte range of a table file; `len` is clamped to the file end. -/
def readChunk (bytes : Bytes) (off len : ℕ) : Except Error Bytes :=
  if bytes.length ≤ off then
    .error (.corruption s!"chunk offset {off} beyond table end {bytes.length}")
  else .ok ((bytes.drop off).take len)

/-- What the surroundings of one pull do: the master's tree at the time of the
snapshot, the requests that fail, and the file operations that fail. -/
structure PullEnv where
  lo : Bytes
  hi : Option Bytes
  flushed : ℕ
  tree : List (List (ℕ × List ℕ))
  snapshotFault : Option PullError := none
  /-- The request for a chunk of a table at an offset fails. -/
  fetchFault : ℕ → ℕ → Option PullError := fun _ _ => none
  /-- Writing a fragment fails after so many bytes, or before the file was created. -/
  writeFault : ℕ → Option (Option ℕ × String) := fun _ => none
  readFault : ℕ → Option String := fun _ => none
  /-- A superseded fragment cannot be removed. -/
  removeFault : ℕ → Bool := fun _ => false

/-- One `FETCH_TABLE` request, with the error an `ERR` reply turns into. -/
def fetchTableChunk (m : Master openTable) (env : PullEnv) (id off len : ℕ) :
    Except PullError Bytes :=
  match env.fetchFault id off with
  | some e => .error e
  | none =>
    match m.table id with
    | none => .error (.gone s!"table {id} left the live version")
    | some f =>
      match readChunk f.bytes off len with
      | .ok chunk => .ok chunk
      | .error e => .error (.failed (.io s!"status {ST_ERR}: {e.text}"))

/-- The loop of `pull_slice` over the chunks of one table; every round adds a byte
at least, so `t.size` rounds are enough. -/
def fetchChunks (m : Master openTable) (env : PullEnv) (t : SliceTable) :
    ℕ → Bytes → Except PullError Bytes
  | 0, bytes => .ok bytes
  | n + 1, bytes =>
    if bytes.length < t.size then
      (fetchTableChunk m env t.id bytes.length TABLE_CHUNK).bind fun chunk =>
        if chunk.isEmpty then .error (.failed (.io s!"empty chunk for fragment {t.id}"))
        else fetchChunks m env t n (bytes ++ chunk)
    else .ok bytes

def fetchTable (m : Master openTable) (env : PullEnv) (t : SliceTable) : Except PullError Bytes :=
  fetchChunks m env t t.size []

/-! ### The cache -/

structure EdgeTable (openTable : TableReader) extends TableFile openTable where
  id : ℕ

structure EdgeRun (openTable : TableReader) where
  id : ℕ
  tables : List (EdgeTable openTable)

structure EdgeStore (openTable : TableReader) where
  scopeLo : Bytes
  scopeHi : Option Bytes
  /-- The files `sst-<id>.tbl` in the directory. -/
  fragments : ℕ → Option Bytes := fun _ => none
  levels : List (List (EdgeRun openTable)) := []
  overlay : Memtable := .new 0
  flushed : ℕ := 0
  frontier : ℕ := 0

/-- What a run of the cache is a copy of. -/
def EdgeRun.advert (r : EdgeRun openTable) : SliceRun :=
  ⟨r.id, r.tables.map fun t => t.advert t.id⟩

namespace EdgeStore

variable (s : EdgeStore openTable)

/-- A fresh cache; the directory is wiped. -/
def attach (lo : Bytes) (hi : Option Bytes) : Except Error (EdgeStore openTable) :=
  let lo := if lo < USER_KEYSPACE_START then USER_KEYSPACE_START else lo
  if hi.any fun h => decide (h ≤ lo) then .error (.invalidArgument "empty edge scope [lo, hi)")
  else .ok { scopeLo := lo, scopeHi := hi }

def hasFragment (id : ℕ) : Bool := (s.fragments id).isSome

def inScope (key : Bytes) : Bool :=
  decide (s.scopeLo ≤ key) && s.scopeHi.all fun h => decide (key < h)

/-- Opens a fragment and checks it against what the slice says of it. -/
def openFragment (env : PullEnv) (t : SliceTable) : Except Error (EdgeTable openTable) :=
  match s.fragments t.id with
  | none => .error (.invalidArgument s!"fragment {t.id} not fetched before install")
  | some bytes =>
    match env.readFault t.id with
    | some msg => .error (.io msg)
    | none =>
      match h : openTable bytes with
      | .error e => .error e
      | .ok bounds =>
        if bytes.length ≠ t.size ∨ bounds.1 ≠ t.minUkey ∨ bounds.2 ≠ t.maxUkey then
          .error (.corruption s!"fragment {t.id} does not match its advertised size/bounds")
        else .ok ⟨⟨bytes, bounds, h⟩, t.id⟩

def openRun (env : PullEnv) (r : SliceRun) : Except Error (EdgeRun openTable) :=
  (r.tables.mapM (s.openFragment env)).map fun tables => ⟨r.id, tables⟩

/-- Install a freshly pulled slice. -/
def installSlice (env : PullEnv) (slice : SliceManifest) :
    Except Error Unit × EdgeStore openTable :=
  match slice.levels.mapM fun runs => runs.mapM (s.openRun env) with
  | .error e => (.error e, s)
  | .ok levels => (.ok (), { s with
      levels := levels
      overlay := (Memtable.new 0).insertAll
        (s.overlay.map.filter fun e => decide (slice.flushedSeqno < e.seq))
      flushed := slice.flushedSeqno
      frontier := max s.frontier slice.flushedSeqno
      fragments := fun id =>
        if id ∈ slice.tables.map SliceTable.id ∨ env.removeFault id then s.fragments id else none })

/-- The overlay's entry for a streamed op. -/
def overlayEntry (e : StreamEntry) : Except Error Entry :=
  match e.kind, e.value with
  | .put, some v => .ok ⟨e.key, e.seqno, .put, .inline v⟩
  | .delete, _ => .ok ⟨e.key, e.seqno, .delete, .empty⟩
  | .put, none => .error (.corruption "streamed Put without a resolved value")

/-- Inserts what is in scope, up to the first op without a value. -/
def insertStream (s : EdgeStore openTable) :
    List StreamEntry → Except Error Unit × EdgeStore openTable
  | [] => (.ok (), s)
  | e :: es =>
    if s.inScope e.key then
      match overlayEntry e with
      | .ok x => insertStream { s with overlay := s.overlay.insert x } es
      | .error err => (.error err, s)
    else insertStream s es

/-- Apply a batch from the master's stream. -/
def applyStream (entries : List StreamEntry) : Except Error Unit × EdgeStore openTable :=
  match entries with
  | [] => (.ok (), s)
  | _ :: _ =>
    match s.insertStream entries with
    | (.ok (), s) => (.ok (), { s with
        frontier := max s.frontier ((entries.map StreamEntry.commitSeqno).foldr max 0) })
    | (.error e, s) => (.error e, s)

/-- `std::fs::write`: the file is created or cut, then filled. -/
def writeFragment (env : PullEnv) (id : ℕ) (bytes : Bytes) :
    Except PullError Unit × EdgeStore openTable :=
  match env.writeFault id with
  | none => (.ok (), { s with fragments := Function.update s.fragments id (some bytes) })
  | some (left, msg) =>
    (.error (.failed (.io msg)), match left with
      | none => s
      | some n => { s with fragments := Function.update s.fragments id (some (bytes.take n)) })

/-- The loop of `pull_slice` over the tables of the slice. -/
def fetchFragments (m : Master openTable) (env : PullEnv) :
    List SliceTable → EdgeStore openTable → Except PullError Unit × EdgeStore openTable
  | [], s => (.ok (), s)
  | t :: ts, s =>
    if s.hasFragment t.id then fetchFragments m env ts s
    else
      match fetchTable m env t with
      | .error e => (.error e, s)
      | .ok bytes =>
        match s.writeFragment env t.id bytes with
        | (.ok (), s) => fetchFragments m env ts s
        | (.error e, s) => (.error e, s)

/-- Snapshot, fetch of the missing fragments, install. -/
def pullSlice (m : Master openTable) (env : PullEnv) :
    Except PullError Unit × EdgeStore openTable :=
  match env.snapshotFault with
  | some e => (.error e, s)
  | none =>
    let slice := m.sliceManifest env.flushed env.tree env.lo env.hi
    match fetchFragments m env slice.tables s with
    | (.error e, s) => (.error e, s)
    | (.ok (), s) =>
      match s.installSlice env slice with
      | (.error e, s) => (.error (.failed e), s)
      | (.ok (), s) => (.ok (), s)

end EdgeStore

/-! ### What a fetch brings -/

section Fetch

variable {m : Master openTable} {env : PullEnv} {t : SliceTable} {f : TableFile openTable}

theorem fetchTableChunk_ok (hf : m.table t.id = some f) {off : ℕ} {chunk : Bytes}
    (h : fetchTableChunk m env t.id off TABLE_CHUNK = .ok chunk) :
    chunk = (f.bytes.drop off).take TABLE_CHUNK := by
  unfold fetchTableChunk readChunk at h
  split at h
  · exact absurd h (by simp)
  simp only [hf] at h
  by_cases hoff : f.bytes.length ≤ off
  · rw [if_pos hoff] at h
    exact absurd h (by simp)
  · rw [if_neg hoff] at h
    exact (Except.ok.inj h).symm

theorem fetchTableChunk_isOk (hf : m.table t.id = some f) {off : ℕ} (hoff : off < f.bytes.length)
    (hok : env.fetchFault t.id off = none) :
    fetchTableChunk m env t.id off TABLE_CHUNK = .ok ((f.bytes.drop off).take TABLE_CHUNK) := by
  unfold fetchTableChunk readChunk
  rw [hok]
  simp only [hf]
  rw [if_neg (by omega)]

/-- The next chunk extends a prefix of the file. -/
theorem take_append_chunk {bytes : Bytes} (b : Bytes) (h : b <+: bytes) :
    b ++ (bytes.drop b.length).take TABLE_CHUNK <+: bytes := by
  obtain ⟨rest, rfl⟩ := h
  rw [List.drop_left]
  exact (List.prefix_append_right_inj b).mpr (List.take_prefix _ _)

/-- **What is fetched is the master's file.** -/
theorem fetchChunks_eq (hf : m.table t.id = some f) (ht : t.size = f.bytes.length) {n : ℕ}
    {bytes out : Bytes} (hn : t.size ≤ bytes.length + n) (hinit : bytes <+: f.bytes)
    (h : fetchChunks m env t n bytes = .ok out) :
    out = f.bytes := by
  induction n generalizing bytes with
  | zero =>
    obtain rfl := Except.ok.inj h
    exact hinit.eq_of_length_le (by omega)
  | succ n ih =>
    unfold fetchChunks at h
    split at h
    · cases hchunk : fetchTableChunk m env t.id bytes.length TABLE_CHUNK with
      | error e =>
        rw [hchunk] at h
        exact absurd h (by simp [Except.bind])
      | ok chunk =>
        rw [hchunk] at h
        simp only [Except.bind] at h
        split at h
        · exact absurd h (by simp)
        · rename_i hne
          have hpos : 0 < chunk.length := List.length_pos_iff.mpr fun h0 => hne (by rw [h0]; rfl)
          obtain rfl := fetchTableChunk_ok hf hchunk
          exact ih (by rw [List.length_append]; omega) (take_append_chunk bytes hinit) h
    · obtain rfl := Except.ok.inj h
      exact hinit.eq_of_length_le (by omega)

theorem fetchChunks_isOk (hf : m.table t.id = some f) (ht : t.size = f.bytes.length)
    (hok : ∀ off, env.fetchFault t.id off = none) (n : ℕ) {bytes : Bytes}
    (hinit : bytes <+: f.bytes) :
    ∃ out, fetchChunks m env t n bytes = .ok out := by
  induction n generalizing bytes with
  | zero => exact ⟨_, rfl⟩
  | succ n ih =>
    unfold fetchChunks
    by_cases hlt : bytes.length < t.size
    · rw [if_pos hlt, fetchTableChunk_isOk hf (by omega) (hok _), Except.bind, if_neg]
      · exact ih (take_append_chunk bytes hinit)
      · rw [List.isEmpty_iff, List.take_eq_nil_iff, List.drop_eq_nil_iff]
        unfold TABLE_CHUNK
        omega
    · exact ⟨_, if_neg hlt⟩

theorem fetchTable_eq (hf : m.table t.id = some f) (ht : t = f.advert t.id) {out : Bytes}
    (h : fetchTable m env t = .ok out) : out = f.bytes :=
  fetchChunks_eq hf (congrArg SliceTable.size ht) (by simp) (List.nil_prefix) h

theorem fetchTable_isOk (hf : m.table t.id = some f) (ht : t = f.advert t.id)
    (hok : ∀ off, env.fetchFault t.id off = none) : fetchTable m env t = .ok f.bytes := by
  obtain ⟨out, h⟩ := fetchChunks_isOk hf (congrArg SliceTable.size ht) hok t.size List.nil_prefix
  rw [fetchTable, h, fetchTable_eq hf ht h]

end Fetch

namespace EdgeStore

variable {m : Master openTable} {env : PullEnv} {s s' : EdgeStore openTable} {slice : SliceManifest}
  {ts : List SliceTable} {t : SliceTable} {r : Except PullError Unit}

/-! ### Fragments -/

/-- Every fragment is a prefix of the master's table. -/
def Prefixes (s : EdgeStore openTable) (m : Master openTable) : Prop :=
  ∀ id b, s.fragments id = some b → ∃ f, m.table id = some f ∧ b <+: f.bytes

/-- The fragment of a table, if there is one, is whole. -/
def Whole (s : EdgeStore openTable) (m : Master openTable) (t : SliceTable) : Prop :=
  ∀ b, s.fragments t.id = some b → ∃ f, m.table t.id = some f ∧ b = f.bytes

/-- Only absent fragments are written, and nothing else of the cache changes. -/
structure Fills (s s' : EdgeStore openTable) : Prop where
  kept : ∀ id b, s.fragments id = some b → s'.fragments id = some b
  levels : s'.levels = s.levels

theorem Fills.refl (s : EdgeStore openTable) : s.Fills s := ⟨fun _ _ h => h, rfl⟩

theorem Fills.trans {s'' : EdgeStore openTable} (h : s.Fills s') (h' : s'.Fills s'') :
    s.Fills s'' :=
  ⟨fun id b hb => h'.kept id b (h.kept id b hb), h'.levels.trans h.levels⟩

theorem hasFragment_false (h : ¬ s.hasFragment t.id = true) : s.fragments t.id = none :=
  Option.not_isSome_iff_eq_none.mp h

theorem fills_write {bytes : Bytes} (habsent : s.fragments t.id = none) :
    s.Fills (s.writeFragment env t.id bytes).2 := by
  have hupdate (b : Bytes) :
      s.Fills { s with fragments := Function.update s.fragments t.id (some b) } := by
    refine ⟨fun id b' hb' => ?_, rfl⟩
    have hne : id ≠ t.id := by
      rintro rfl
      exact absurd (habsent.symm.trans hb') (by simp)
    exact (Function.update_of_ne hne _ _).trans hb'
  unfold writeFragment
  split
  · exact hupdate _
  · split
    · exact .refl s
    · exact hupdate _

theorem prefixes_write {f : TableFile openTable} (h : s.Prefixes m) (hf : m.table t.id = some f) :
    (s.writeFragment env t.id f.bytes).2.Prefixes m := by
  have hupdate {b : Bytes} (hb : b <+: f.bytes) :
      Prefixes { s with fragments := Function.update s.fragments t.id (some b) } m := by
    intro id b' hb'
    by_cases hid : id = t.id
    · subst hid
      simp only [Function.update_self, Option.some.injEq] at hb'
      exact ⟨f, hf, hb' ▸ hb⟩
    · simp only [Function.update_of_ne hid] at hb'
      exact h id b' hb'
  unfold writeFragment
  split
  · exact hupdate (List.prefix_refl _)
  · split
    · exact h
    · exact hupdate (List.take_prefix _ _)

/-- A slice's tables are the master's. -/
def OfMaster (m : Master openTable) (ts : List SliceTable) : Prop :=
  ∀ t ∈ ts, ∃ f, m.table t.id = some f ∧ t = f.advert t.id

/-- **One round of the loop**: a fragment in place is skipped; an absent one is
fetched, written, and present afterwards if nothing failed. -/
theorem fetchFragments_cons {rest : List SliceTable} (hm : OfMaster m (t :: rest)) :
    (s.hasFragment t.id = true ∧ fetchFragments m env (t :: rest) s = fetchFragments m env rest s) ∨
    ∃ f s₁, m.table t.id = some f ∧ s.fragments t.id = none ∧ s.Fills s₁ ∧
      (s.Prefixes m → s₁.Prefixes m) ∧ ((∃ e, fetchFragments m env (t :: rest) s = (.error e, s₁)) ∧
          ((∃ off, env.fetchFault t.id off ≠ none) ∨ env.writeFault t.id ≠ none) ∨
        fetchFragments m env (t :: rest) s = fetchFragments m env rest s₁ ∧
        env.writeFault t.id = none ∧
          s₁.fragments = Function.update s.fragments t.id (some f.bytes)) := by
  obtain ⟨f, hf, ht⟩ := hm t List.mem_cons_self
  by_cases hhas : s.hasFragment t.id = true
  · exact Or.inl ⟨hhas, if_pos hhas⟩
  · -- absent: the table is fetched first, and written if all of it came
    have habsent := hasFragment_false hhas
    have hunfold : fetchFragments m env (t :: rest) s =
        match fetchTable m env t with
        | .error e => (.error e, s)
        | .ok bytes =>
          match s.writeFragment env t.id bytes with
          | (.ok (), s) => fetchFragments m env rest s
          | (.error e, s) => (.error e, s) := if_neg hhas
    cases hfetch : fetchTable m env t with
    | error e =>
      refine Or.inr ⟨f, s, hf, habsent, .refl s, id, Or.inl ⟨⟨e, ?_⟩, Or.inl ?_⟩⟩
      · rw [hunfold, hfetch]
      · -- without a fault at any offset the fetch succeeds
        by_contra hnone
        push Not at hnone
        exact absurd (hfetch.symm.trans (fetchTable_isOk hf ht hnone)) (by simp)
    | ok bytes =>
      obtain rfl := fetchTable_eq hf ht hfetch
      refine Or.inr ⟨f, (s.writeFragment env t.id f.bytes).2, hf, habsent, fills_write habsent,
        fun h => prefixes_write h hf, ?_⟩
      cases hwrite : env.writeFault t.id with
      | none =>
        have hcall : s.writeFragment env t.id f.bytes =
            (.ok (), { s with fragments := Function.update s.fragments t.id (some f.bytes) }) := by
          unfold writeFragment
          rw [hwrite]
        refine Or.inr ⟨?_, rfl, by rw [hcall]⟩
        rw [hunfold, hfetch]
        simp only [hcall]
      | some fault =>
        refine Or.inl ⟨?_, Or.inr (by simp)⟩
        -- the write fails: the loop ends, with what got written in place
        obtain ⟨left, msg⟩ := fault
        have hcall : s.writeFragment env t.id f.bytes =
            (.error (.failed (.io msg)), (s.writeFragment env t.id f.bytes).2) := by
          unfold writeFragment
          rw [hwrite]
        refine ⟨.failed (.io msg), ?_⟩
        rw [hunfold, hfetch]
        simp only
        rw [hcall]

/-- What the loop over the tables does, whatever fails. -/
theorem fetchFragments_fills (hm : OfMaster m ts) :
    s.Fills (fetchFragments m env ts s).2 ∧
      (s.Prefixes m → (fetchFragments m env ts s).2.Prefixes m) := by
  induction ts generalizing s with
  | nil => exact ⟨.refl s, id⟩
  | cons t rest ih =>
    have ih' := fun s => ih (s := s) fun x hx => hm x (List.mem_cons_of_mem _ hx)
    obtain ⟨-, heq⟩ | ⟨f, s₁, hf, -, hfills, hinit, ⟨⟨e, heq⟩, -⟩ | ⟨heq, -, -⟩⟩ :=
      fetchFragments_cons (s := s) hm
    · rw [heq]
      exact ih' s
    · rw [heq]
      exact ⟨hfills, hinit⟩
    · rw [heq]
      exact ⟨hfills.trans (ih' s₁).1, fun h => (ih' s₁).2 (hinit h)⟩

/-- A loop that succeeds has written whole every fragment that was absent. -/
theorem fetchFragments_ok (hm : OfMaster m ts) (h : fetchFragments m env ts s = (.ok (), s'))
    (ht : t ∈ ts) :
    (s.fragments t.id = none → env.writeFault t.id = none ∧ ∃ f, m.table t.id = some f ∧
      s'.fragments t.id = some f.bytes) := by
  induction ts generalizing s with
  | nil => exact absurd ht List.not_mem_nil
  | cons a rest ih =>
    intro habsent
    have hrest : OfMaster m rest := fun x hx => hm x (List.mem_cons_of_mem _ hx)
    obtain ⟨hhas, heq⟩ | ⟨f, s₁, hf, -, hfills, -, ⟨⟨e, heq⟩, -⟩ | ⟨heq, hwrite, hfrag⟩⟩ :=
      @fetchFragments_cons _ _ env s _ _ hm
    · obtain rfl | hin := List.mem_cons.mp ht
      · exact absurd hhas (by unfold hasFragment; rw [habsent]; simp)
      · exact ih hrest (heq ▸ h) hin habsent
    · exact absurd (heq.symm.trans h) (by simp)
    · rw [heq] at h
      by_cases hid : t.id = a.id
      · have hnow : s₁.fragments a.id = some f.bytes := by rw [hfrag, Function.update_self]
        have hkept := (@fetchFragments_fills _ _ env s₁ _ hrest).1.kept a.id f.bytes hnow
        rw [h] at hkept
        rw [hid]
        exact ⟨hwrite, f, hf, hkept⟩
      · obtain rfl | hin := List.mem_cons.mp ht
        · exact absurd rfl hid
        · exact ih hrest h hin (by rw [hfrag, Function.update_of_ne hid]; exact habsent)

/-- The loop succeeds if no request and no write of an absent fragment fails. -/
theorem fetchFragments_isOk (hm : OfMaster m ts)
    (hnet : ∀ t ∈ ts, s.fragments t.id = none → ∀ off, env.fetchFault t.id off = none)
    (hwrites : ∀ t ∈ ts, s.fragments t.id = none → env.writeFault t.id = none) :
    (fetchFragments m env ts s).1 = .ok () := by
  induction ts generalizing s with
  | nil => rfl
  | cons a rest ih =>
    have hrest : OfMaster m rest := fun x hx => hm x (List.mem_cons_of_mem _ hx)
    obtain ⟨-, heq⟩ | ⟨f, s₁, -, habsent, hfills, -, ⟨-, hfault⟩ | ⟨heq, -, -⟩⟩ :=
      fetchFragments_cons (s := s) hm
    · rw [heq]
      exact ih hrest (fun t ht => hnet t (List.mem_cons_of_mem _ ht))
        fun t ht => hwrites t (List.mem_cons_of_mem _ ht)
    · obtain ⟨off, hoff⟩ | hwrite := hfault
      · exact absurd (hnet a List.mem_cons_self habsent off) hoff
      · exact absurd (hwrites a List.mem_cons_self habsent) hwrite
    · -- what is absent after the round was absent before it
      have hback : ∀ t : SliceTable, s₁.fragments t.id = none → s.fragments t.id = none := by
        intro t hnone
        cases hb : s.fragments t.id with
        | none => rfl
        | some b => exact absurd (hnone.symm.trans (hfills.kept _ b hb)) (by simp)
      rw [heq]
      exact ih hrest (fun t ht h => hnet t (List.mem_cons_of_mem _ ht) (hback t h))
        fun t ht h => hwrites t (List.mem_cons_of_mem _ ht) (hback t h)

/-! ### Installing -/

theorem openFragment_ok {x : EdgeTable openTable} (h : s.openFragment env t = .ok x) :
    s.fragments t.id = some x.bytes ∧ env.readFault t.id = none ∧ x.advert x.id = t := by
  unfold openFragment at h
  split at h
  · exact absurd h (by simp)
  rename_i bytes hbytes
  split at h
  · exact absurd h (by simp)
  rename_i hread
  split at h
  · exact absurd h (by simp)
  rename_i bounds hopen
  split at h
  · exact absurd h (by simp)
  rename_i hmatch
  obtain rfl := Except.ok.inj h
  push Not at hmatch
  obtain ⟨hsize, hmin, hmax⟩ := hmatch
  refine ⟨hbytes, hread, ?_⟩
  unfold TableFile.advert
  simp only [hsize, hmin, hmax]

theorem openFragment_isOk {f : TableFile openTable} (hfrag : s.fragments t.id = some f.bytes)
    (hread : env.readFault t.id = none) (ht : t = f.advert t.id) :
    ∃ x, s.openFragment env t = .ok x := by
  unfold openFragment
  split
  · rename_i hnone
    exact absurd (hnone.symm.trans hfrag) (by simp)
  rename_i bytes hbytes
  obtain rfl := Option.some_inj.mp (hbytes.symm.trans hfrag)
  rw [hread]
  simp only
  split
  · rename_i e hopen
    exact absurd (hopen.symm.trans f.opened) (by simp)
  rename_i bounds hopen
  obtain rfl := Except.ok.inj (hopen.symm.trans f.opened)
  have hsize : f.bytes.length = t.size := (congrArg SliceTable.size ht).symm
  have hmin : f.bounds.1 = t.minUkey := (congrArg SliceTable.minUkey ht).symm
  have hmax : f.bounds.2 = t.maxUkey := (congrArg SliceTable.maxUkey ht).symm
  exact ⟨_, if_neg (by simp [hsize, hmin, hmax])⟩

theorem openRun_ok {run : SliceRun} {x : EdgeRun openTable} (h : s.openRun env run = .ok x) :
    x.advert = run ∧ (∀ t ∈ run.tables, ∃ y ∈ x.tables, s.openFragment env t = .ok y) ∧
      ∀ y ∈ x.tables, ∃ t ∈ run.tables, s.openFragment env t = .ok y := by
  unfold openRun at h
  cases hm : run.tables.mapM (s.openFragment env) with
  | error e =>
    rw [hm] at h
    exact absurd h (by simp [Except.map])
  | ok tables =>
    rw [hm] at h
    obtain rfl := Except.ok.inj h
    refine ⟨?_, fun t ht => mapM_ok_left hm ht, fun y hy => mapM_ok_right hm hy⟩
    unfold EdgeRun.advert
    rw [map_of_mapM_ok hm fun t y hy => (openFragment_ok hy).2.2]

/-- The tables a cache serves. -/
def tables (s : EdgeStore openTable) : List (EdgeTable openTable) :=
  s.levels.flatten.flatMap EdgeRun.tables

/-- **What an install does**: it opens the fragment of every table of the slice, and
serves exactly these. -/
theorem installSlice_ok (h : s.installSlice env slice = (.ok (), s')) :
    s'.levels.map (fun runs => runs.map EdgeRun.advert) = slice.levels ∧
      s'.flushed = slice.flushedSeqno ∧ (∀ t ∈ slice.tables, s'.fragments t.id = s.fragments t.id) ∧
      (∀ id b, s'.fragments id = some b → s.fragments id = some b) ∧
      (∀ t ∈ slice.tables, ∃ y ∈ s'.tables, s.openFragment env t = .ok y) ∧
      ∀ y ∈ s'.tables, ∃ t ∈ slice.tables, s.openFragment env t = .ok y := by
  unfold installSlice at h
  cases hm : slice.levels.mapM fun runs => runs.mapM (s.openRun env) with
  | error e =>
    rw [hm] at h
    exact absurd (congrArg Prod.fst h) (by simp)
  | ok levels =>
    rw [hm] at h
    obtain rfl := congrArg Prod.snd h
    refine ⟨map_of_mapM_ok hm fun runs out hruns => map_of_mapM_ok hruns fun r x hx =>
      (openRun_ok hx).1,
      rfl, fun t ht => if_pos (Or.inl (List.mem_map_of_mem ht)), fun id b hb => ?_,
        fun t ht => ?_, fun y hy => ?_⟩
    · simp only at hb
      split at hb
      · exact hb
      · exact absurd hb (by simp)
    · -- a table of the slice is opened with its run
      obtain ⟨run, hrun, ht⟩ := List.mem_flatMap.mp ht
      obtain ⟨runs, hruns, hrun⟩ := List.mem_flatten.mp hrun
      obtain ⟨out, hout, hrunsok⟩ := mapM_ok_left hm hruns
      obtain ⟨x, hx, hxok⟩ := mapM_ok_left hrunsok hrun
      obtain ⟨y, hy, hyok⟩ := (openRun_ok hxok).2.1 t ht
      exact ⟨y, List.mem_flatMap.mpr ⟨x, List.mem_flatten.mpr ⟨out, hout, hx⟩, hy⟩, hyok⟩
    · obtain ⟨x, hx, hy⟩ := List.mem_flatMap.mp hy
      obtain ⟨out, hout, hx⟩ := List.mem_flatten.mp hx
      obtain ⟨runs, hruns, hrunsok⟩ := mapM_ok_right hm hout
      obtain ⟨run, hrun, hxok⟩ := mapM_ok_right hrunsok hx
      obtain ⟨t, ht, hyok⟩ := (openRun_ok hxok).2.2 y hy
      exact ⟨t, List.mem_flatMap.mpr ⟨run, List.mem_flatten.mpr ⟨runs, hruns, hrun⟩, ht⟩, hyok⟩

theorem installSlice_isOk (h : ∀ t ∈ slice.tables, ∃ y, s.openFragment env t = .ok y) :
    (s.installSlice env slice).1 = .ok () := by
  have hruns : ∀ runs ∈ slice.levels, ∃ out, runs.mapM (s.openRun env) = .ok out := by
    refine fun runs hruns => mapM_isOk fun run hrun => ?_
    obtain ⟨tables, htables⟩ := mapM_isOk (l := run.tables) fun t ht =>
      h t (List.mem_flatMap.mpr ⟨run, List.mem_flatten.mpr ⟨runs, hruns, hrun⟩, ht⟩)
    exact ⟨⟨run.id, tables⟩, by unfold openRun; rw [htables]; rfl⟩
  obtain ⟨levels, hlevels⟩ := mapM_isOk hruns
  unfold installSlice
  rw [hlevels]

theorem installSlice_error {e : Error} (h : s.installSlice env slice = (.error e, s')) :
    s' = s := by
  unfold installSlice at h
  split at h
  · exact (congrArg Prod.snd h).symm
  · exact absurd (congrArg Prod.fst h) (by simp)

/-! ### One pull -/

/-- The slice the master offers to a pull. -/
abbrev offered (m : Master openTable) (env : PullEnv) : SliceManifest :=
  m.sliceManifest env.flushed env.tree env.lo env.hi

/-- No request of the pull fails. -/
structure Served (s : EdgeStore openTable) (m : Master openTable) (env : PullEnv) : Prop where
  snapshot : env.snapshotFault = none
  fetch : ∀ t ∈ (offered m env).tables, s.fragments t.id = none →
    ∀ off, env.fetchFault t.id off = none

/-- A fragment the pull finds in place is whole, and the files it writes and opens do
not fail it. -/
structure Sound (s : EdgeStore openTable) (m : Master openTable) (env : PullEnv) : Prop where
  whole : ∀ t ∈ (offered m env).tables, s.Whole m t
  writes : ∀ t ∈ (offered m env).tables, s.fragments t.id = none → env.writeFault t.id = none
  reads : ∀ t ∈ (offered m env).tables, env.readFault t.id = none

/-- The pull succeeds, the slice is installed, and its fragments are the master's
files. -/
structure Heals (s : EdgeStore openTable) (m : Master openTable) (env : PullEnv) : Prop where
  ok : (s.pullSlice m env).1 = .ok ()
  installed : (s.pullSlice m env).2.levels.map (fun runs => runs.map EdgeRun.advert) =
    (offered m env).levels
  flushed : (s.pullSlice m env).2.flushed = (offered m env).flushedSeqno
  fragments : ∀ t ∈ (offered m env).tables, ∃ f, m.table t.id = some f ∧
    (s.pullSlice m env).2.fragments t.id = some f.bytes

/-- Nothing but the master's files is served. -/
def ServesWhole (s : EdgeStore openTable) (m : Master openTable) : Prop :=
  ∀ y ∈ s.tables, ∃ f, m.table y.id = some f ∧ y.bytes = f.bytes

/-- A pull stops in its requests and writes, or ends with an install. -/
theorem pullSlice_cases (s : EdgeStore openTable) (m : Master openTable) (env : PullEnv) :
    (∃ e s₁, s.pullSlice m env = (.error e, s₁) ∧ s.Fills s₁ ∧ (s.Prefixes m → s₁.Prefixes m)) ∨
    ∃ s₁ s₂, s.Fills s₁ ∧ (s.Prefixes m → s₁.Prefixes m) ∧
      fetchFragments m env (offered m env).tables s = (.ok (), s₁) ∧
      s₁.installSlice env (offered m env) = (.ok (), s₂) ∧ s.pullSlice m env = (.ok (), s₂) := by
  have hspec := @fetchFragments_fills _ _ env s _
    (m.offers_sliceManifest env.flushed env.tree env.lo env.hi)
  unfold pullSlice
  cases env.snapshotFault with
  | some e => exact Or.inl ⟨e, s, rfl, .refl s, id⟩
  | none =>
    simp only
    cases hfetch : fetchFragments m env (offered m env).tables s with
    | mk r s₁ =>
      rw [hfetch] at hspec
      cases r with
      | error e => exact Or.inl ⟨e, s₁, rfl, hspec.1, hspec.2⟩
      | ok u =>
        simp only
        cases hinstall : s₁.installSlice env (offered m env) with
        | mk r s₂ =>
          cases r with
          | error e =>
            obtain rfl := installSlice_error hinstall
            exact Or.inl ⟨_, _, rfl, hspec.1, hspec.2⟩
          | ok u => exact Or.inr ⟨s₁, s₂, hspec.1, hspec.2, rfl, hinstall, rfl⟩

/-- A fragment that is opened under a slice of the master's is the master's file. -/
theorem opened_whole (hp : s.Prefixes m) {y : EdgeTable openTable} (ht : t ∈ (offered m env).tables)
    (hy : s.openFragment env t = .ok y) : ∃ f, m.table t.id = some f ∧ y.id = t.id ∧
      y.bytes = f.bytes := by
  obtain ⟨hfrag, -, hadvert⟩ := openFragment_ok hy
  obtain ⟨f, hf, hadvert'⟩ := m.offers_sliceManifest _ _ _ _ t ht
  obtain ⟨f', hf', hinit⟩ := hp _ _ hfrag
  obtain rfl := Option.some_inj.mp (hf'.symm.trans hf)
  have hsize : y.bytes.length = t.size := congrArg SliceTable.size hadvert
  have hsize' : t.size = f'.bytes.length := congrArg SliceTable.size hadvert'
  exact ⟨f', hf, congrArg SliceTable.id hadvert, hinit.eq_of_length_le (by omega)⟩

theorem pullSlice_prefixes (hp : s.Prefixes m) : (s.pullSlice m env).2.Prefixes m := by
  obtain ⟨e, s₁, heq, -, hinit⟩ | ⟨s₁, s₂, -, hinit, -, hinstall, heq⟩ := pullSlice_cases s m env
  · rw [heq]
    exact hinit hp
  · rw [heq]
    exact fun id b hb => hinit hp id b ((installSlice_ok hinstall).2.2.2.1 id b hb)

theorem pullSlice_servesWhole (hp : s.Prefixes m) (hs : s.ServesWhole m) :
    (s.pullSlice m env).2.ServesWhole m := by
  obtain ⟨e, s₁, heq, hfills, -⟩ | ⟨s₁, s₂, -, hinit, -, hinstall, heq⟩ := pullSlice_cases s m env
  · rw [heq]
    intro y hy
    unfold tables at hy
    rw [hfills.levels] at hy
    exact hs y hy
  · rw [heq]
    intro y hy
    obtain ⟨t, ht, hopen⟩ := (installSlice_ok hinstall).2.2.2.2.2 y hy
    obtain ⟨f, hf, hid, hbytes⟩ := opened_whole (hinit hp) ht hopen
    exact ⟨f, hid ▸ hf, hbytes⟩

/-- **When a pull heals the cache.** -/
theorem heals_iff (hnet : s.Served m env) : s.Heals m env ↔ s.Sound m env := by
  constructor
  · intro h
    obtain ⟨e, s₁, heq, -, -⟩ | ⟨s₁, s₂, hfills, -, hfetch, hinstall, heq⟩ :=
      pullSlice_cases s m env
    · exact absurd ((congrArg Prod.fst heq).symm.trans h.ok) (by simp)
    · obtain ⟨-, -, hkept, -, hopened, -⟩ := installSlice_ok hinstall
      refine ⟨fun t ht b hb => ?_, fun t ht habsent => ?_, fun t ht => ?_⟩
      · obtain ⟨f, hf, hfrag⟩ := h.fragments t ht
        rw [heq] at hfrag
        exact ⟨f, hf, Option.some_inj.mp
          (((hkept t ht).trans (hfills.kept _ b hb)).symm.trans hfrag)⟩
      · exact (fetchFragments_ok (m.offers_sliceManifest _ _ _ _) hfetch ht habsent).1
      · obtain ⟨y, -, hy⟩ := hopened t ht
        exact (openFragment_ok hy).2.1
  · intro h
    have hoffers := m.offers_sliceManifest env.flushed env.tree env.lo env.hi
    have hfetch : fetchFragments m env (offered m env).tables s =
        (.ok (), (fetchFragments m env (offered m env).tables s).2) :=
      Prod.ext (fetchFragments_isOk hoffers hnet.fetch h.writes) rfl
    -- every fragment of the slice is now whole, fetched or found so
    have hwhole : ∀ t ∈ (offered m env).tables, ∃ f, m.table t.id = some f ∧ t = f.advert t.id ∧
        (fetchFragments m env (offered m env).tables s).2.fragments t.id = some f.bytes := by
      intro t ht
      obtain ⟨f, hf, hadvert⟩ := hoffers t ht
      refine ⟨f, hf, hadvert, ?_⟩
      cases hb : s.fragments t.id with
      | none =>
        obtain ⟨-, f', hf', hfrag⟩ := fetchFragments_ok hoffers hfetch ht hb
        obtain rfl := Option.some_inj.mp (hf'.symm.trans hf)
        exact hfrag
      | some b =>
        obtain ⟨f', hf', rfl⟩ := h.whole t ht b hb
        obtain rfl := Option.some_inj.mp (hf'.symm.trans hf)
        exact (fetchFragments_fills (s := s) hoffers).1.kept _ _ hb
    have hinstall := installSlice_isOk (s := (fetchFragments m env (offered m env).tables s).2)
      fun t ht => by
        obtain ⟨f, -, hadvert, hfrag⟩ := hwhole t ht
        exact openFragment_isOk hfrag (h.reads t ht) hadvert
    obtain ⟨e, s₁, heq, -, -⟩ | ⟨s₁, s₂, -, -, hfetch', hinstall', heq⟩ := pullSlice_cases s m env
    · unfold pullSlice at heq
      rw [hnet.snapshot] at heq
      simp only at heq
      rw [hfetch] at heq
      simp only at heq
      split at heq
      · rename_i herr
        exact absurd ((congrArg Prod.fst herr).symm.trans hinstall) (by simp)
      · exact absurd (congrArg Prod.fst heq) (by simp)
    · obtain rfl := congrArg Prod.snd (hfetch.symm.trans hfetch')
      obtain ⟨hlevels, hflushed, hkept, -, -, -⟩ := installSlice_ok hinstall'
      refine ⟨by rw [heq], by rw [heq]; exact hlevels, by rw [heq]; exact hflushed, fun t ht => ?_⟩
      obtain ⟨f, hf, -, hfrag⟩ := hwhole t ht
      exact ⟨f, hf, by rw [heq]; exact (hkept t ht).trans hfrag⟩

/-- **A fragment cut short stays so**: the pull skips it, the install fails. -/
theorem pull_stuck (hp : s.Prefixes m) {b : Bytes} (ht : t ∈ (offered m env).tables)
    (hb : s.fragments t.id = some b) (hcut : ¬ s.Whole m t) :
    (∃ e, (s.pullSlice m env).1 = .error e) ∧ (s.pullSlice m env).2.fragments t.id = some b := by
  obtain ⟨e, s₁, heq, hfills, -⟩ | ⟨s₁, s₂, hfills, hinit, -, hinstall, -⟩ :=
    pullSlice_cases s m env
  · rw [heq]
    exact ⟨⟨e, rfl⟩, hfills.kept _ b hb⟩
  · obtain ⟨y, -, hy⟩ := (installSlice_ok hinstall).2.2.2.2.1 t ht
    obtain ⟨f, hf, -, hbytes⟩ := opened_whole (hinit hp) ht hy
    have hfrag := (openFragment_ok hy).1
    refine absurd (fun b' hb' => ⟨f, hf, ?_⟩) hcut
    rw [← hbytes]
    exact Option.some_inj.mp ((hfills.kept _ b' hb').symm.trans hfrag)

/-- `pull_slice_with_retries`: each attempt with whether the replica is shutting
down by then. -/
def pullSliceWithRetries (m : Master openTable) :
    List (Bool × PullEnv) → Option PullError → EdgeStore openTable →
      Except PullError Unit × EdgeStore openTable
  | [], last, s => (.error (last.getD (.failed (.io "slice pull kept racing compaction"))), s)
  | (stop, env) :: rest, last, s =>
    if stop then (.ok (), s)
    else
      match s.pullSlice m env with
      | (.ok (), s) => (.ok (), s)
      | (.error (.gone _), s) => pullSliceWithRetries m rest last s
      | (.error e, s) => pullSliceWithRetries m rest (some e) s

/-- Retries do not get past a fragment cut short. -/
theorem retries_stuck {attempts : List (Bool × PullEnv)} (hp : s.Prefixes m)
    (hruns : ∀ a ∈ attempts, a.1 = false)
    (ht : ∀ a ∈ attempts, t ∈ (offered m a.2).tables) {b : Bytes}
    (hb : s.fragments t.id = some b) (hcut : ¬ s.Whole m t) (last : Option PullError) :
    ∃ e, (pullSliceWithRetries m attempts last s).1 = .error e := by
  induction attempts generalizing s last with
  | nil => exact ⟨_, rfl⟩
  | cons a rest ih =>
    obtain ⟨stop, env⟩ := a
    obtain rfl : stop = false := hruns _ List.mem_cons_self
    obtain ⟨⟨e, herr⟩, hkept⟩ := pull_stuck hp (ht _ List.mem_cons_self) hb hcut
    have ih' := ih (s := (s.pullSlice m env).2) (pullSlice_prefixes hp)
      (fun a ha => hruns a (List.mem_cons_of_mem _ ha))
      (fun a ha => ht a (List.mem_cons_of_mem _ ha)) hkept
      fun hwhole => hcut fun b' hb' => hwhole b' (hkept.trans (hb.symm.trans hb'))
    unfold pullSliceWithRetries
    rw [if_neg Bool.false_ne_true, show s.pullSlice m env =
      (.error e, (s.pullSlice m env).2) from Prod.ext herr rfl]
    cases e with
    | gone msg => exact ih' last
    | failed err => exact ih' _

/-- What is served has the size and bounds of the master's file. -/
def ServesSized (s : EdgeStore openTable) (m : Master openTable) : Prop :=
  ∀ y ∈ s.tables, ∃ f, m.table y.id = some f ∧ y.advert y.id = f.advert y.id

/-- Whatever is in the directory, an install checks size and bounds. -/
theorem pullSlice_servesSized (hs : s.ServesSized m) : (s.pullSlice m env).2.ServesSized m := by
  obtain ⟨e, s₁, heq, hfills, -⟩ | ⟨s₁, s₂, -, -, -, hinstall, heq⟩ := pullSlice_cases s m env
  · rw [heq]
    intro y hy
    unfold tables at hy
    rw [hfills.levels] at hy
    exact hs y hy
  · rw [heq]
    intro y hy
    obtain ⟨t, ht, hopen⟩ := (installSlice_ok hinstall).2.2.2.2.2 y hy
    have hadvert := (openFragment_ok hopen).2.2
    obtain ⟨f, hf, hoffer⟩ := m.offers_sliceManifest _ _ _ _ t ht
    have hid : y.id = t.id := congrArg SliceTable.id hadvert
    exact ⟨f, hid ▸ hf, hid ▸ hadvert.trans hoffer⟩

theorem pullSlice_error {e : PullError} (h : (s.pullSlice m env).1 = .error e) :
    (s.pullSlice m env).2.levels = s.levels := by
  obtain ⟨e, s₁, heq, hfills, -⟩ | ⟨s₁, s₂, -, -, -, -, heq⟩ := pullSlice_cases s m env
  · rw [heq]
    exact hfills.levels
  · rw [heq] at h
    exact absurd h (by simp)

end EdgeStore

/-! ### The replica over its life -/

/-- A master and the cache of its tables. -/
structure Attachment (openTable : TableReader) where
  master : Master openTable
  store : EdgeStore openTable

namespace Attachment

variable (a : Attachment openTable) (env : PullEnv)

/-- The same cache over what the directory has now. -/
def withFragments (fragments : ℕ → Option Bytes) : Attachment openTable :=
  { a with store := { a.store with fragments := fragments } }

def pull : Attachment openTable := { a with store := (a.store.pullSlice a.master env).2 }

end Attachment

/-- A replica serves its current attachment.  A new one is made beside it, in the same
directory, and takes its place once its slice is pulled. -/
structure Replica (openTable : TableReader) where
  current : Attachment openTable
  fresh : Option (Attachment openTable) := none
  up : Bool := false

inductive ReplicaAction (openTable : TableReader)
  /-- `attach_store`: the directory is wiped for an instance; the files named fail to be
  wiped, and the attach with them. -/
  | attach (master : Master openTable) (lo : Bytes) (hi : Option Bytes) (left : Option (ℕ → Bool))
  /-- One attempt to pull the slice. -/
  | pull (env : PullEnv)
  /-- The attempts of a new attachment are used up. -/
  | abandon
  /-- The replica shuts down between two attempts, and they end as if they had
  succeeded. -/
  | stop
  | apply (entries : List StreamEntry)
  | crash

namespace Replica

def step (s : Replica openTable) : ReplicaAction openTable → Option (Replica openTable)
  | .attach m lo hi left =>
    match EdgeStore.attach lo hi, left with
    | .error _, _ => some { s with fresh := none }
    | .ok _, some left => some { s with
        current := s.current.withFragments fun id => if left id then
          s.current.store.fragments id else none
        fresh := none }
    | .ok store, none =>
      some { s with current := s.current.withFragments fun _ => none, fresh := some ⟨m, store⟩ }
  | .pull env =>
    match s.fresh with
    | some a =>
      match a.store.pullSlice a.master env with
      | (.ok (), store) => some { current := ⟨a.master, store⟩, fresh := none, up := true }
      | (.error _, store) => some { s with
          current := s.current.withFragments store.fragments, fresh := some ⟨a.master, store⟩ }
    | none => if s.up then some { s with current := s.current.pull env } else none
  | .abandon => s.fresh.map fun _ => { s with fresh := none }
  | .stop => s.fresh.map fun a => { current := a, fresh := none, up := false }
  | .apply entries =>
    if s.up ∧ s.fresh.isNone then some { s with
      current := { s.current with store := (s.current.store.applyStream entries).2 } }
    else none
  | .crash => some { s with fresh := none, up := false }

/-- The caches there are: the one that is served and the one that is made. -/
def attachments (s : Replica openTable) : List (Attachment openTable) := s.current :: s.fresh.toList

/-- A pull of the served cache finds prefixes of its own master's files only, and not
what a new attachment to another instance left when it was given up. -/
def Unmixed (s : Replica openTable) (action : ReplicaAction openTable) : Prop :=
  ∀ env, action = .pull env → s.fresh = none → s.current.store.Prefixes s.current.master

end Replica

/-- A replica's life, across attachments. -/
def replica (m₀ : Master openTable) : System (Replica openTable) (ReplicaAction openTable) where
  init := { current := ⟨m₀, { scopeLo := [], scopeHi := none }⟩ }
  step := Replica.step

namespace Replica

variable {m₀ : Master openTable} {s s' : Replica openTable} {a : Attachment openTable}
    {env : PullEnv}

theorem insertStream_frame {store : EdgeStore openTable} (es : List StreamEntry) :
    (store.insertStream es).2.fragments = store.fragments ∧
      (store.insertStream es).2.levels = store.levels := by
  induction es generalizing store with
  | nil => exact ⟨rfl, rfl⟩
  | cons e es ih =>
    unfold EdgeStore.insertStream
    split
    · split
      · exact ih
      · exact ⟨rfl, rfl⟩
    · exact ih

theorem applyStream_frame {store : EdgeStore openTable} (es : List StreamEntry) :
    (store.applyStream es).2.fragments = store.fragments ∧
      (store.applyStream es).2.levels = store.levels := by
  unfold EdgeStore.applyStream
  split
  · exact ⟨rfl, rfl⟩
  · rename_i e rest
    have hframe := @insertStream_frame _ store (e :: rest)
    split
    · rename_i t ht
      rw [ht] at hframe
      exact hframe
    · rename_i err t ht
      rw [ht] at hframe
      exact hframe

theorem attach_fresh {lo : Bytes} {hi : Option Bytes} {store : EdgeStore openTable}
    (h : EdgeStore.attach lo hi = .ok store) : store.fragments = (fun _ => none) ∧
      store.levels = [] := by
  unfold EdgeStore.attach at h
  generalize (if lo < USER_KEYSPACE_START then USER_KEYSPACE_START else lo) = lo' at h
  simp only at h
  split at h
  · exact absurd h (by simp)
  · obtain rfl := Except.ok.inj h
    exact ⟨rfl, rfl⟩

/-- A property of the tables a cache serves; one that serves none has it. -/
structure Kept (P : EdgeStore openTable → Master openTable → Prop) : Prop where
  congr : ∀ {t t' : EdgeStore openTable} {m}, t'.levels = t.levels → P t m → P t' m
  empty : ∀ {t : EdgeStore openTable} {m}, t.levels = [] → P t m

theorem kept_servesSized : @Kept openTable EdgeStore.ServesSized where
  congr heq h y hy := h y (by unfold EdgeStore.tables at hy ⊢; rwa [heq] at hy)
  empty heq y hy := absurd hy (by simp [EdgeStore.tables, heq])

theorem kept_servesWhole : @Kept openTable EdgeStore.ServesWhole where
  congr heq h y hy := h y (by unfold EdgeStore.tables at hy ⊢; rwa [heq] at hy)
  empty heq y hy := absurd hy (by simp [EdgeStore.tables, heq])

/-- The served tables have the property; the cache that is made serves none yet, over a
directory that holds prefixes of its master's files. -/
structure Inv (P : EdgeStore openTable → Master openTable → Prop) (s : Replica openTable) :
    Prop where
  served : P s.current.store s.current.master
  prefixes : ∀ a ∈ s.fresh, a.store.Prefixes a.master
  unserved : ∀ a ∈ s.fresh, a.store.levels = []

theorem Inv.step {P : EdgeStore openTable → Master openTable → Prop} (hP : Kept P) (h : s.Inv P)
    {action : ReplicaAction openTable}
    (hfresh : ∀ (a : Attachment openTable) env, a.store.Prefixes a.master → P a.store a.master →
      P (a.pull env).store a.master)
    (hpull : ∀ env, action = .pull env → s.fresh = none →
      P (s.current.pull env).store s.current.master)
    (hs : s.step action = some s') : s'.Inv P := by
  -- a cache that is served reads no name in the directory again
  have hover (fragments : ℕ → Option Bytes) :
      P (s.current.withFragments fragments).store s.current.master :=
    hP.congr (t := s.current.store) rfl h.served
  -- a step that leaves no cache in the making
  have hsettled {c : Attachment openTable} {up : Bool} (hc : P c.store c.master) :
      Inv P { current := c, fresh := none, up := up } := ⟨hc, by simp, by simp⟩
  cases action with
  | attach m lo hi left =>
    unfold Replica.step at hs
    simp only at hs
    split at hs
    · exact Option.some_inj.mp hs ▸ hsettled h.served
    · exact Option.some_inj.mp hs ▸ hsettled (hover _)
    · rename_i store hattach
      obtain rfl := Option.some_inj.mp hs
      obtain ⟨hfrag, hlevels⟩ := attach_fresh hattach
      refine ⟨hover _, fun a ha => ?_, fun a ha => ?_⟩
      · obtain rfl := Option.some_inj.mp ha
        exact fun id b hb => absurd (hfrag ▸ hb) (by simp)
      · obtain rfl := Option.some_inj.mp ha
        exact hlevels
  | pull env =>
    unfold Replica.step at hs
    simp only at hs
    split at hs
    · rename_i a ha
      have hprefixes := h.prefixes a ha
      split at hs
      · rename_i store hcall
        obtain rfl := Option.some_inj.mp hs
        have hserved := hfresh a env hprefixes (hP.empty (h.unserved a ha))
        unfold Attachment.pull at hserved
        rw [hcall] at hserved
        exact hsettled hserved
      · rename_i e store hcall
        obtain rfl := Option.some_inj.mp hs
        have hstore : (a.store.pullSlice a.master env).2 = store := congrArg Prod.snd hcall
        refine ⟨hover _, fun b hb => ?_, fun b hb => ?_⟩
        · obtain rfl := Option.some_inj.mp hb
          exact hstore ▸ EdgeStore.pullSlice_prefixes hprefixes
        · obtain rfl := Option.some_inj.mp hb
          show store.levels = []
          rw [← hstore, EdgeStore.pullSlice_error (congrArg Prod.fst hcall)]
          exact h.unserved a ha
    · rename_i hnone
      obtain ⟨-, hs⟩ := Option.ite_none_right_eq_some.mp hs
      obtain rfl := Option.some_inj.mp hs
      rw [hnone]
      exact hsettled (hpull env rfl hnone)
  | abandon =>
    obtain ⟨a, -, rfl⟩ := Option.map_eq_some_iff.mp hs
    exact hsettled h.served
  | stop =>
    obtain ⟨a, ha, rfl⟩ := Option.map_eq_some_iff.mp hs
    exact hsettled (hP.empty (h.unserved a ha))
  | apply entries =>
    obtain ⟨⟨-, hnone⟩, hs⟩ := Option.ite_none_right_eq_some.mp hs
    obtain rfl := Option.some_inj.mp hs
    rw [Option.isNone_iff_eq_none.mp hnone]
    exact hsettled (hP.congr (applyStream_frame entries).2 h.served)
  | crash =>
    obtain rfl := Option.some_inj.mp hs
    exact hsettled h.served

theorem Inv.init {P : EdgeStore openTable → Master openTable → Prop} (hP : Kept P) :
    (replica m₀).init.Inv P :=
  ⟨hP.empty rfl, by simp [replica], by simp [replica]⟩

theorem inv_sized (h : (replica m₀).Reachable s) : s.Inv EdgeStore.ServesSized :=
  h.invariant (Inv.init kept_servesSized) fun hinv _ hs =>
    hinv.step kept_servesSized (fun _ _ _ hserves => EdgeStore.pullSlice_servesSized hserves)
      (fun _ _ _ => EdgeStore.pullSlice_servesSized hinv.served) hs

theorem inv_whole (h : (replica m₀).Reaches Unmixed s) : s.Inv EdgeStore.ServesWhole :=
  h.invariant (Inv.init kept_servesWhole) fun hinv hok hs =>
    hinv.step kept_servesWhole
      (fun _ _ hprefixes hserves => EdgeStore.pullSlice_servesWhole hprefixes hserves)
      (fun env haction hnone => EdgeStore.pullSlice_servesWhole (hok env haction hnone) hinv.served)
      hs

theorem Inv.attached {P : EdgeStore openTable → Master openTable → Prop} (hP : Kept P) (h : s.Inv P)
    (ha : a ∈ s.attachments) : P a.store a.master := by
  rcases List.mem_cons.mp ha with rfl | ha
  · exact h.served
  · exact hP.empty (h.unserved a (Option.mem_toList.mp ha))

/-- **When a pull heals the cache.**  Whatever earlier pulls, crashes and attachments
left, a pull all of whose requests succeed ends with the slice installed and every
fragment the master's file exactly if its file operations succeed and every fragment
it finds is whole.  What is served has the size and bounds of the master's files, so
that no fragment cut short is ever served; and it is the master's files, as long as no
pull runs over what an attachment to another instance left. -/
theorem pull_heals_iff (h : (replica m₀).Reachable s) (ha : a ∈ s.attachments)
    (hnet : a.store.Served a.master env) :
    (a.pull env).store.ServesSized a.master ∧
      ((replica m₀).Reaches Unmixed s → a.store.Prefixes a.master →
        (a.pull env).store.ServesWhole a.master) ∧
      (a.store.Heals a.master env ↔ a.store.Sound a.master env) :=
  ⟨EdgeStore.pullSlice_servesSized ((inv_sized h).attached kept_servesSized ha),
    fun hrun hprefixes =>
      EdgeStore.pullSlice_servesWhole hprefixes ((inv_whole hrun).attached kept_servesWhole ha),
    EdgeStore.heals_iff hnet⟩

/-- A reader of three-byte files, whose bounds are the first and the last byte. -/
def endsReader : TableReader
  | [a, _, b] => .ok ([a], [b])
  | _ => .error (.corruption "table smaller than footer")

/-- A master with one table, of id 7. -/
def oneTable (v : Byte) : Master endsReader where
  table id := if id = 7 then some ⟨[byte 100, v, byte 101], ([byte 100], [byte 101]), rfl⟩ else none

/-- A pull of that table. -/
def onePull : PullEnv where
  lo := []
  hi := none
  flushed := 5
  tree := [[(3, [7])]]

/-- The disk is full after the first byte of the fragment. -/
def diskFull : PullEnv :=
  { onePull with writeFault := fun _ => some (some 1, "no space left on device") }

/-- The fragment is written and cannot be opened. -/
def unreadable : PullEnv := { onePull with readFault := fun _ => some "input/output error" }

/-- A cache that has nothing yet. -/
def emptyCache (v : Byte) : Attachment endsReader :=
  ⟨oneTable v, { scopeLo := USER_KEYSPACE_START, scopeHi := none }⟩

theorem pull_heals_fresh : ∃ s a, ((replica (oneTable 1)).Reachable s ∧ a ∈ s.attachments ∧
      a.store.Served a.master onePull) ∧
    (a.pull onePull).store.ServesSized a.master ∧
    ((replica (oneTable 1)).Reaches Unmixed s → a.store.Prefixes a.master →
      (a.pull onePull).store.ServesWhole a.master) ∧
    (a.store.Heals a.master onePull ↔ a.store.Sound a.master onePull) := by
  obtain ⟨s, hs⟩ : ∃ s, (replica (oneTable 1)).step (replica (oneTable 1)).init
      (.attach (oneTable 1) [] none none) = some s ∧ s.fresh = some (emptyCache 1) := ⟨_, rfl, rfl⟩
  have hreach : (replica (oneTable 1)).Reachable s := .step .init trivial hs.1
  have hmem : emptyCache 1 ∈ s.attachments := by
    unfold attachments
    rw [hs.2]
    exact List.mem_cons_of_mem _ (List.mem_singleton.mpr rfl)
  have hnet : (emptyCache 1).store.Served (emptyCache 1).master onePull := ⟨rfl, fun _ _ _ _ => rfl⟩
  exact ⟨s, _, ⟨hreach, hmem, hnet⟩, pull_heals_iff hreach hmem hnet⟩

/-- After a write that failed halfway, a pull without any fault takes the fragment
for complete and fails to install it. -/
theorem pull_not_healed : ∃ s a, (replica (oneTable 1)).Reachable s ∧ a ∈ s.attachments ∧
    a.store.Served a.master onePull ∧ a.store.hasFragment 7 = true ∧
    (a.store.pullSlice a.master onePull).1 =
      .error (.failed (.corruption "table smaller than footer")) ∧
    ¬ a.store.Heals a.master onePull := by
  obtain ⟨s, hs, hfresh⟩ : ∃ s, (replica (oneTable 1)).run
      [.attach (oneTable 1) [] none none, .pull diskFull]
      (replica (oneTable 1)).init = some s ∧ s.fresh = some ((emptyCache 1).pull diskFull) :=
        ⟨_, rfl, rfl⟩
  have hfails : (((emptyCache 1).pull diskFull).store.pullSlice (oneTable 1) onePull).1 =
      .error (.failed (.corruption "table smaller than footer")) := by decide +kernel
  refine ⟨s, (emptyCache 1).pull diskFull, System.reachable_of_run hs, ?_,
    ⟨rfl, fun _ _ _ _ => rfl⟩,
    by decide +kernel, hfails, fun h => absurd (h.ok.symm.trans hfails) (by simp)⟩
  unfold attachments
  rw [hfresh]
  exact List.mem_cons_of_mem _ (List.mem_singleton.mpr rfl)

/-- An attachment to another instance fetches a table and is given up; the first
instance is back, and its pull takes the table of that id for its own. -/
theorem pull_mixed : ∃ s, (replica (oneTable 1)).Reachable s ∧ s.fresh = none ∧
    s.current.store.Served s.current.master onePull ∧
    (s.current.store.pullSlice s.current.master onePull).1 = .ok () ∧
    ¬ (s.current.pull onePull).store.ServesWhole s.current.master := by
  obtain ⟨s, hs, hfresh, hmaster, hok, hserved⟩ : ∃ s, (replica (oneTable 1)).run
      [.attach (oneTable 1) [] none none, .pull onePull, .attach (oneTable 2) [] none none,
        .pull unreadable, .abandon]
      (replica (oneTable 1)).init = some s ∧ s.fresh = none ∧ s.current.master = oneTable 1 ∧
        (s.current.store.pullSlice s.current.master onePull).1 = .ok () ∧
        (s.current.pull onePull).store.tables.map (fun y => (y.id, y.bytes)) =
          [(7, [byte 100, 2, byte 101])] :=
    ⟨_, rfl, rfl, rfl, by decide +kernel, by decide +kernel⟩
  refine ⟨s, System.reachable_of_run hs, hfresh, ⟨rfl, fun _ _ _ _ => rfl⟩, hok, fun h => ?_⟩
  obtain ⟨y, hy, heq⟩ :=
    List.mem_map.mp (hserved ▸ List.mem_singleton_self (7, [byte 100, 2, byte 101]))
  obtain ⟨hid, hbytes⟩ := Prod.mk.inj heq
  obtain ⟨f, hf, hfile⟩ := h y hy
  rw [hmaster, hid] at hf
  obtain rfl := Option.some_inj.mp hf
  exact absurd (hbytes.symm.trans hfile) (by decide)

end Replica

end Fluent31
