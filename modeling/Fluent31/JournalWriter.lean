/-
The directory of the journal and its writer (`journal.rs`).

A call of the writer is the list of operations it makes on the directory and of
the calls to the observer between them, in order, so that a crash or a failed
operation is a cut of that list.  The directory keeps apart what is synced: a
power loss may take the rest of a file's bytes, files whose entry no sync of the
directory has made durable, and removals.

* `Tidy` — what every cut of every call leaves: sealed files are whole, every
  file opens with its header or holds no record;
* `Tidy.cutAt` — a plan of legal operations keeps it wherever it is cut;
* `Tidy.powerLoss` — and so does a power loss;
* `Legible.readAllRecords`, `gapless_of_readAllRecords` — the whole journal reads
  back exactly when no file is missing.
-/
import Fluent31.Journal
import Mathlib.Data.List.Chain
import Mathlib.Data.List.Nodup

namespace Fluent31

namespace Journal

/-! ### Directories -/

structure LogFile where
  id : ℕ
  bytes : Bytes
  /-- How many of them are on disk. -/
  synced : ℕ
  /-- What `set_len` dropped since the last sync. -/
  cutOff : Bytes
  /-- Its directory entry is on disk. -/
  linked : Bool
  deriving DecidableEq

/-- The log files in the order of their ids, and those whose removal is not yet
on disk. -/
structure LogDir where
  files : List LogFile
  gone : List LogFile
  deriving DecidableEq

/-- A call to the observer. -/
inductive Report
  | attached (files : List (ℕ × ℕ))
  | appended (file durableLen : ℕ)
  | rotated (sealedFile sealedLen nextFile : ℕ)
  | pruned (anchor : ℕ)
  | stopped (error : Option String)
  deriving DecidableEq

inductive Op
  | create (id : ℕ)
  | write (id : ℕ) (data : Bytes)
  | setLen (id len : ℕ)
  | syncFile (id : ℕ)
  | remove (id : ℕ)
  | syncDir
  | tell (report : Report)
  deriving DecidableEq

namespace LogFile

variable (f : LogFile)

def write (data : Bytes) : LogFile := { f with bytes := f.bytes ++ data }

def setLen (len : ℕ) : LogFile :=
  { f with
    bytes := f.bytes.take len
    synced := min f.synced len
    cutOff := f.bytes.drop len ++ f.cutOff }

def sync : LogFile := { f with synced := f.bytes.length, cutOff := [] }

/-- What a power loss leaves of the file: at least what is synced. -/
def lose (len : ℕ) : LogFile :=
  let left := (f.bytes ++ f.cutOff).take (max f.synced len)
  { f with bytes := left, synced := left.length, cutOff := [], linked := true }

@[simp] theorem write_id (data : Bytes) : (f.write data).id = f.id := rfl
@[simp] theorem setLen_id (len : ℕ) : (f.setLen len).id = f.id := rfl
@[simp] theorem sync_id : f.sync.id = f.id := rfl
@[simp] theorem lose_id (len : ℕ) : (f.lose len).id = f.id := rfl

end LogFile

namespace LogDir

variable (d : LogDir)

def modify (id : ℕ) (g : LogFile → LogFile) : LogDir :=
  { d with files := d.files.map fun f => if f.id = id then g f else f }

def apply : Op → LogDir
  | .create id =>
    { d with files := d.files.filter (fun f => decide (f.id < id)) ++
        ⟨id, [], 0, [], false⟩ :: d.files.filter fun f => decide (id < f.id) }
  | .write id data => d.modify id fun f => f.write data
  | .setLen id len => d.modify id fun f => f.setLen len
  | .syncFile id => d.modify id LogFile.sync
  | .remove id =>
    { files := d.files.filter fun f => decide (f.id ≠ id)
      gone := d.gone ++ d.files.filter fun f => decide (f.id = id) }
  | .syncDir => { files := d.files.map fun f => { f with linked := true }, gone := [] }
  | .tell _ => d

def applyAll (ops : List Op) : LogDir := ops.foldl apply d

/-- An operation that does not come to its end: `m` bytes of a write. -/
def part (op : Op) (m : ℕ) : LogDir :=
  match op with
  | .write id data => d.modify id fun f => f.write (data.take m)
  | _ => d

/-- A list of operations cut after `n`, and `m` bytes into the next. -/
def cutAt : LogDir → List Op → ℕ → ℕ → LogDir
  | d, [], _, _ => d
  | d, op :: _, 0, m => d.part op m
  | d, op :: ops, n + 1, m => (d.apply op).cutAt ops n m

/-- What a power loss leaves: `survives` says which of the undecided directory
entries, `len` how much of each file. -/
def powerLoss (survives : ℕ → Bool) (len : ℕ → ℕ) : LogDir where
  files := (d.gone.filter (fun f => survives f.id) ++ d.files.filter fun f =>
    f.linked || survives f.id).map
    fun f => f.lose (len f.id)
  gone := []

/-- `list_log_files`. -/
def listLogFiles : List (ℕ × ℕ) := d.files.map fun f => (f.id, f.bytes.length)

@[simp] theorem applyAll_nil : d.applyAll [] = d := rfl

@[simp] theorem applyAll_cons (op : Op) (ops : List Op) :
    d.applyAll (op :: ops) = (d.apply op).applyAll ops := rfl

@[simp] theorem applyAll_append (ops ops' : List Op) :
    d.applyAll (ops ++ ops') = (d.applyAll ops).applyAll ops' := List.foldl_append ..

end LogDir

/-! ### The writer -/

structure LogWriter where
  fileId : ℕ
  bytesInFile : ℕ
  rotateAt : ℕ
  source : Source
  appendedBytes : ℕ
  deriving DecidableEq

section

variable (crc : Bytes → Fin (2 ^ 32))

/-- `read_header` on the bytes of a file. -/
def readHeader (bytes : Bytes) : Except JournalError Source :=
  match (readRecords crc bytes).1 with
  | [] => .error (corrupt "journal file has no header")
  | first :: _ => parseHeader first

namespace LogWriter

variable (w : LogWriter)

def appendRaw (payload : Bytes) : List Op × LogWriter :=
  ([.write w.fileId (frame crc payload)],
    { w with
      bytesInFile := w.bytesInFile + (frame crc payload).length
      appendedBytes := w.appendedBytes + (frame crc payload).length })

def rotate : List Op × LogWriter :=
  let next := LogWriter.appendRaw crc { w with fileId := w.fileId + 1, bytesInFile := 0 }
    (headerPayload w.source)
  (.syncFile w.fileId :: .create (w.fileId + 1) ::
    (next.1 ++ [.syncFile (w.fileId + 1), .tell (.rotated w.fileId w.bytesInFile (w.fileId + 1))]),
      next.2)

def maybeRotate : List Op × LogWriter :=
  if w.rotateAt ≤ w.bytesInFile then w.rotate crc else ([], w)

def append (payload : Bytes) : List Op × LogWriter :=
  let written := w.appendRaw crc payload
  let rotated := written.2.maybeRotate crc
  (written.1 ++ rotated.1, rotated.2)

/-- One call after the other. -/
def each (call : LogWriter → Bytes → List Op × LogWriter) :
    LogWriter → List Bytes → List Op × LogWriter
  | w, [] => ([], w)
  | w, p :: ps =>
    let first := call w p
    let rest := each call first.2 ps
    (first.1 ++ rest.1, rest.2)

def reportDurable : Op := .tell (.appended w.fileId w.bytesInFile)

def sync : Op := .syncFile w.fileId

/-- `LogWriter::open`. -/
def openDir (d : LogDir) (source : Source) (rotateAt : ℕ) :
    Except JournalError (List Op × LogWriter) :=
  match d.files with
  | [] =>
    let header := LogWriter.appendRaw crc ⟨1, 0, rotateAt, source, 0⟩ (headerPayload source)
    .ok (.create 1 :: (header.1 ++ [.syncFile 1]), header.2)
  | first :: rest =>
    (readHeader crc first.bytes).bind fun recorded =>
    if recorded ≠ source then
      .error (.store (.invalidArgument
        ("journal dir belongs to store " ++ hex recorded ++ " but this store is " ++ hex source)))
    else
      let last := rest.getLast?.getD first
      let cleanLen := (readRecords crc last.bytes).2
      .ok (if cleanLen < last.bytes.length then
        [.setLen last.id cleanLen, .syncFile last.id] else [],
        ⟨last.id, cleanLen, rotateAt, source, 0⟩)

end LogWriter

/-! ### Reading the whole journal -/

/-- The check of a file's first record against the store known so far. -/
def checkHead (id : ℕ) (known : Option Source) : List Bytes → Except JournalError (Option Source)
  | [] => .ok known
  | head :: _ =>
    if head.head? ≠ some TAG_HEADER then
      .error (corrupt s!"journal file {id} does not open with a header")
    else
      (parseHeader head).bind fun recorded =>
      if recorded ≠ known.getD recorded then
        .error (.provenanceMismatch (s!"journal file {id} belongs to store " ++ hex recorded ++
          " but the journal opened as " ++ hex (known.getD recorded)))
      else .ok (some (known.getD recorded))

/-- The loop of `read_all_records`. -/
def readFiles (last : ℕ) : ℕ → Option Source → List LogFile → Except JournalError (List Bytes)
  | _, _, [] => .ok []
  | expected, known, f :: rest =>
    if f.id ≠ expected then
      .error (.journalGap
        (s!"journal file {expected} is missing ({expected - 1} then " ++ toString f.id ++
          " on disk)"))
    else if (readRecords crc f.bytes).2 < f.bytes.length ∧ f.id ≠ last then
      .error (corrupt ("journal file " ++ toString f.id ++ " ends torn but is not the newest"))
    else
      (checkHead f.id known (readRecords crc f.bytes).1).bind fun known =>
      (readFiles last (f.id + 1) known rest).map fun records =>
        (readRecords crc f.bytes).1 ++ records

def readAllRecords (d : LogDir) : Except JournalError (List Bytes) :=
  match d.files with
  | [] => .error (corrupt "no journal files found")
  | first :: rest => readFiles crc (rest.getLast?.getD first).id first.id none (first :: rest)

/-- The records of the files, each read as far as it is clean. -/
def LogDir.records (d : LogDir) : List Bytes := d.files.flatMap fun f => (readRecords crc f.bytes).1

end

/-! ### What a crash can leave -/

section

variable {crc : Bytes → Fin (2 ^ 32)} {source : Source} {d : LogDir}

/-- Records of a file: none, or a header and behind it none. -/
structure Opens (source : Source) (ps : List Bytes) : Prop where
  fits : ∀ p ∈ ps, Fits p
  header : ps = [] ∨ ∃ data, ps = headerPayload source :: data ∧ ∀ p ∈ data,
    p.head? ≠ some TAG_HEADER

theorem Opens.take {ps : List Bytes} (h : Opens source ps) (k : ℕ) : Opens source (ps.take k) := by
  refine ⟨fun p hp => h.fits p (List.mem_of_mem_take hp), ?_⟩
  rcases h.header with rfl | ⟨data, rfl, hdata⟩
  · exact .inl List.take_nil
  · cases k with
    | zero => exact .inl rfl
    | succ k =>
      exact .inr ⟨data.take k, List.take_succ_cons, fun p hp => hdata p (List.mem_of_mem_take hp)⟩

/-- The bytes are those of such records, and a part of a frame. -/
def Shaped (crc : Bytes → Fin (2 ^ 32)) (source : Source) (bytes : Bytes) : Prop :=
  ∃ ps rest, bytes = frames crc ps ++ rest ∧ Partial crc rest ∧ Opens source ps

theorem Shaped.take {bytes : Bytes} (h : Shaped crc source bytes) (n : ℕ) :
    Shaped crc source (bytes.take n) := by
  obtain ⟨ps, rest, rfl, hrest, hopens⟩ := h
  obtain ⟨k, rest', hrest', htake⟩ := take_frames hopens.fits hrest n
  exact ⟨ps.take k, rest', htake, hrest', hopens.take k⟩

theorem Shaped.left {bytes more : Bytes} (h : Shaped crc source (bytes ++ more)) :
    Shaped crc source bytes := by
  have := h.take bytes.length
  rwa [List.take_left] at this

theorem shaped_nil : Shaped crc source [] := ⟨[], [], rfl, partial_nil, by simp, .inl rfl⟩

theorem Shaped.readRecords {bytes : Bytes} (h : Shaped crc source bytes) :
    Opens source (readRecords crc bytes).1 ∧
      bytes.take (readRecords crc bytes).2 = frames crc (readRecords crc bytes).1 ∧
      (readRecords crc bytes).2 = (frames crc (readRecords crc bytes).1).length := by
  obtain ⟨ps, rest, rfl, hrest, hopens⟩ := h
  rw [readRecords_frames hopens.fits hrest]
  exact ⟨hopens, List.take_left, rfl⟩

/-- The file ends with a record. -/
def LogFile.Whole (crc : Bytes → Fin (2 ^ 32)) (source : Source) (f : LogFile) : Prop :=
  ∃ ps, f.bytes = frames crc ps ∧ Opens source ps

/-- Complete, and all of it on disk. -/
structure LogFile.Sealed (crc : Bytes → Fin (2 ^ 32)) (source : Source) (f : LogFile) : Prop where
  synced : f.synced = f.bytes.length
  cutOff : f.cutOff = []
  whole : f.Whole crc source

theorem LogFile.Whole.shaped {f : LogFile} (h : f.Whole crc source) :
    Shaped crc source f.bytes := by
  obtain ⟨ps, hps, hopens⟩ := h
  exact ⟨ps, [], by rw [hps, List.append_nil], partial_nil, hopens⟩

theorem readRecords_whole {ps : List Bytes} (h : ∀ p ∈ ps, Fits p) :
    Journal.readRecords crc (frames crc ps) = (ps, (frames crc ps).length) := by
  have hnil : Partial crc [] := partial_nil
  have := readRecords_frames h hnil
  rwa [List.append_nil] at this

theorem LogFile.Whole.clean {f : LogFile} (h : f.Whole crc source) :
    (Journal.readRecords crc f.bytes).2 = f.bytes.length := by
  obtain ⟨ps, hps, hopens⟩ := h
  rw [hps, readRecords_whole hopens.fits]

theorem LogFile.Sealed.shaped {f : LogFile} (h : f.Sealed crc source) :
    Shaped crc source (f.bytes ++ f.cutOff) := by
  rw [h.cutOff, List.append_nil]
  exact h.whole.shaped

theorem LogFile.Sealed.sync {f : LogFile} (h : f.Sealed crc source) : f.sync.Sealed crc source :=
  ⟨rfl, rfl, h.whole⟩

theorem LogFile.Sealed.lose {f : LogFile} (h : f.Sealed crc source) (len : ℕ) :
    (f.lose len).Sealed crc source := by
  have hleft : (f.lose len).bytes = f.bytes := by
    show (f.bytes ++ f.cutOff).take (max f.synced len) = f.bytes
    rw [h.cutOff, List.append_nil, List.take_of_length_le]
    have := h.synced
    omega
  obtain ⟨ps, hps, hopens⟩ := h.whole
  exact ⟨rfl, rfl, ps, hleft.trans hps, hopens⟩

/-- **The invariant of the directory**: all files but the newest are sealed. -/
structure LogDir.Tidy (crc : Bytes → Fin (2 ^ 32)) (source : Source) (d : LogDir) : Prop where
  asc : (d.gone ++ d.files).Pairwise fun f g => f.id < g.id
  shaped : ∀ f ∈ d.files, Shaped crc source (f.bytes ++ f.cutOff)
  sealedFiles : ∀ f ∈ d.files, ∀ g ∈ d.files, f.id < g.id → f.Sealed crc source
  gone : ∀ f ∈ d.gone, f.Sealed crc source
  present : d.files = [] → d.gone = []

/-- An operation the directory is ready for. -/
def LogDir.Legal (crc : Bytes → Fin (2 ^ 32)) (source : Source) (d : LogDir) : Op → Prop
  | .create id => (∀ f ∈ d.gone ++ d.files, f.id < id) ∧ ∀ f ∈ d.files, f.Sealed crc source
  | .write id data => ∃ older f ps p, d.files = older ++ [f] ∧ f.id = id ∧ f.cutOff = [] ∧
      f.bytes = frames crc ps ∧ data = frame crc p ∧ Opens source (ps ++ [p])
  | .setLen id _ => ∃ older f, d.files = older ++ [f] ∧ f.id = id
  | .remove id => ∃ f rest, d.files = f :: rest ∧ rest ≠ [] ∧ f.id = id
  | _ => True

/-- Every operation of the plan is legal where it is made. -/
def LogDir.Plan (crc : Bytes → Fin (2 ^ 32)) (source : Source) : LogDir → List Op → Prop
  | _, [] => True
  | d, op :: ops => d.Legal crc source op ∧ (d.apply op).Plan crc source ops

theorem LogDir.Plan.append {ops ops' : List Op} (h : d.Plan crc source ops)
    (h' : (d.applyAll ops).Plan crc source ops') : d.Plan crc source (ops ++ ops') := by
  induction ops generalizing d with
  | nil => exact h'
  | cons op ops ih => exact ⟨h.1, ih h.2 h'⟩

namespace LogDir

/-- A change of one file that keeps its place. -/
theorem Tidy.modify (h : d.Tidy crc source) (id : ℕ) {g : LogFile → LogFile}
    (hid : ∀ f, (g f).id = f.id)
    (hshaped : ∀ f ∈ d.files, f.id = id → Shaped crc source ((g f).bytes ++ (g f).cutOff))
    (hsealed : ∀ f ∈ d.files, f.id = id → (∃ f' ∈ d.files, f.id < f'.id) →
      (g f).Sealed crc source) :
    (d.modify id g).Tidy crc source := by
  -- the ids stay, and with them the order
  have hkeep : ∀ f : LogFile, (if f.id = id then g f else f).id = f.id := fun f => by
    split
    · exact hid f
    · rfl
  refine ⟨?_, fun f hf => ?_, fun f hf f' hf' hlt => ?_, h.gone, fun hnil =>
    h.present (List.map_eq_nil_iff.mp hnil)⟩
  · have hasc := List.pairwise_append.mp h.asc
    refine List.pairwise_append.mpr ⟨hasc.1, List.pairwise_map.mpr ?_, fun a ha b hb => ?_⟩
    · exact hasc.2.1.imp fun hab => by rwa [hkeep, hkeep]
    · obtain ⟨b₀, hb₀, rfl⟩ := List.mem_map.mp hb
      rw [hkeep]
      exact hasc.2.2 a ha b₀ hb₀
  · obtain ⟨f₀, hf₀, rfl⟩ := List.mem_map.mp hf
    by_cases heq : f₀.id = id
    · rw [if_pos heq]
      exact hshaped f₀ hf₀ heq
    · rw [if_neg heq]
      exact h.shaped f₀ hf₀
  · obtain ⟨f₀, hf₀, rfl⟩ := List.mem_map.mp hf
    obtain ⟨f₁, hf₁, rfl⟩ := List.mem_map.mp hf'
    rw [hkeep, hkeep] at hlt
    by_cases heq : f₀.id = id
    · rw [if_pos heq]
      exact hsealed f₀ hf₀ heq ⟨f₁, hf₁, hlt⟩
    · rw [if_neg heq]
      exact h.sealedFiles f₀ hf₀ f₁ hf₁ hlt

/-- The last file is the newest. -/
theorem Tidy.le_last (h : d.Tidy crc source) {older : List LogFile} {f : LogFile}
    (hfiles : d.files = older ++ [f]) :
    ∀ g ∈ d.files, g.id ≤ f.id := by
  intro g hg
  have hasc := (List.pairwise_append.mp h.asc).2.1
  rw [hfiles] at hasc hg
  rcases List.mem_append.mp hg with hg | hg
  · exact ((List.pairwise_append.mp hasc).2.2 g hg f (List.mem_singleton_self f)).le
  · rw [List.mem_singleton.mp hg]

theorem Tidy.eq_of_id (h : d.Tidy crc source) {f g : LogFile} (hf : f ∈ d.files) (hg : g ∈ d.files)
    (hid : f.id = g.id) : f = g := by
  have hnodup : (d.files.map LogFile.id).Nodup :=
    List.pairwise_map.mpr ((List.pairwise_append.mp h.asc).2.1.imp fun hlt => hlt.ne)
  exact List.inj_on_of_nodup_map hnodup hf hg hid

/-- A change of the newest file. -/
theorem Tidy.modify_last (h : d.Tidy crc source) {older : List LogFile} {f : LogFile}
    (hfiles : d.files = older ++ [f]) {g : LogFile → LogFile} (hid : ∀ f, (g f).id = f.id)
    (hshaped : Shaped crc source ((g f).bytes ++ (g f).cutOff)) :
    (d.modify f.id g).Tidy crc source := by
  have hf : f ∈ d.files := by
    rw [hfiles]
    exact List.mem_append_right _ (List.mem_singleton_self f)
  refine h.modify f.id hid (fun f' hf' heq => ?_) (fun f' hf' heq hlt => ?_)
  · rw [h.eq_of_id hf' hf heq]
    exact hshaped
  · obtain ⟨f'', hf'', hlt⟩ := hlt
    have := h.le_last hfiles f'' hf''
    omega

theorem files_create {id : ℕ} (hnew : ∀ f ∈ d.files, f.id < id) :
    (d.apply (.create id)).files = d.files ++ [⟨id, [], 0, [], false⟩] := by
  have hbelow : d.files.filter (fun f => decide (f.id < id)) = d.files :=
    List.filter_eq_self.mpr fun f hf => decide_eq_true (hnew f hf)
  have habove : d.files.filter (fun f => decide (id < f.id)) = [] :=
    List.filter_eq_nil_iff.mpr fun f hf => by
      have := hnew f hf
      rw [decide_eq_true_eq]
      omega
  show d.files.filter _ ++ _ :: d.files.filter _ = _
  rw [hbelow, habove]

/-- Every legal operation keeps the directory tidy. -/
theorem Tidy.apply (h : d.Tidy crc source) {op : Op} (hlegal : d.Legal crc source op) :
    (d.apply op).Tidy crc source := by
  have hasc := List.pairwise_append.mp h.asc
  cases op with
  | create id =>
    obtain ⟨hnew, hsealed⟩ := hlegal
    have hfiles := files_create fun f hf => hnew f (List.mem_append_right _ hf)
    refine ⟨?_, ?_, ?_, h.gone, fun hnil => ?_⟩
    · rw [hfiles]
      show (d.gone ++ (d.files ++ _)).Pairwise _
      rw [← List.append_assoc]
      refine List.pairwise_append.mpr ⟨h.asc, List.pairwise_singleton .., fun f hf g hg => ?_⟩
      rw [List.mem_singleton.mp hg]
      exact hnew f hf
    · rw [hfiles]
      intro f hf
      rcases List.mem_append.mp hf with hf | hf
      · exact h.shaped f hf
      · rw [List.mem_singleton.mp hf]
        exact shaped_nil
    · rw [hfiles]
      intro f hf g hg hlt
      rcases List.mem_append.mp hf with hf | hf
      · exact hsealed f hf
      · rw [List.mem_singleton.mp hf] at hlt
        rcases List.mem_append.mp hg with hg | hg
        · -- the new file is behind all, so none is sealed by it
          have hbelow := hnew g (List.mem_append_right _ hg)
          exact absurd hlt (by simp only; omega)
        · rw [List.mem_singleton.mp hg] at hlt
          exact absurd hlt (lt_irrefl id)
    · rw [hfiles] at hnil
      exact absurd hnil (by simp)
  | write id data =>
    obtain ⟨older, f, ps, p, hfiles, rfl, hcut, hbytes, rfl, hopens⟩ := hlegal
    refine h.modify_last hfiles (fun f => rfl) ⟨ps ++ [p], [], ?_, partial_nil, hopens⟩
    show f.bytes ++ frame crc p ++ f.cutOff = _
    rw [hcut, hbytes, frames_append, frames_singleton]
  | setLen id len =>
    obtain ⟨older, f, hfiles, rfl⟩ := hlegal
    refine h.modify_last hfiles (fun f => rfl) ?_
    show Shaped crc source (f.bytes.take len ++ (f.bytes.drop len ++ f.cutOff))
    rw [← List.append_assoc, List.take_append_drop]
    exact h.shaped f (by rw [hfiles]; exact List.mem_append_right _ (List.mem_singleton_self f))
  | syncFile id =>
    refine h.modify id (fun f => rfl) (fun f hf _ => ?_) (fun f hf _ hlt => ?_)
    · show Shaped crc source (f.bytes ++ [])
      rw [List.append_nil]
      exact (h.shaped f hf).left
    · obtain ⟨f', hf', hlt⟩ := hlt
      exact (h.sealedFiles f hf f' hf' hlt).sync
  | remove id =>
    obtain ⟨f, rest, hfiles, hne, rfl⟩ := hlegal
    rw [hfiles] at hasc
    obtain ⟨hfirst, hrest⟩ := List.pairwise_cons.mp hasc.2.1
    -- only the oldest file is removed, and never the last
    have hkept : d.files.filter (fun g => decide (g.id ≠ f.id)) = rest := by
      rw [hfiles, List.filter_cons_of_neg (by simp)]
      exact List.filter_eq_self.mpr fun g hg => decide_eq_true (hfirst g hg).ne'
    have hgone : d.files.filter (fun g => decide (g.id = f.id)) = [f] := by
      rw [hfiles, List.filter_cons_of_pos (by simp)]
      exact congrArg _ (List.filter_eq_nil_iff.mpr fun g hg => by
        rw [decide_eq_true_eq]
        exact (hfirst g hg).ne')
    have hmem : ∀ g ∈ rest, g ∈ d.files := fun g hg => by
      rw [hfiles]
      exact List.mem_cons_of_mem _ hg
    obtain ⟨g, hg⟩ := List.exists_mem_of_ne_nil rest hne
    refine ⟨?_, fun f' hf' => ?_, fun f' hf' g' hg' => ?_, fun f' hf' => ?_, fun hnil => ?_⟩
    · show (d.gone ++ d.files.filter _ ++ d.files.filter _).Pairwise _
      rw [hgone, hkept, List.append_assoc]
      have := h.asc
      rwa [hfiles] at this
    · rw [show (d.apply (.remove f.id)).files = rest from hkept] at hf'
      exact h.shaped f' (hmem f' hf')
    · rw [show (d.apply (.remove f.id)).files = rest from hkept] at hf' hg'
      exact h.sealedFiles f' (hmem f' hf') g' (hmem g' hg')
    · rw [show (d.apply (.remove f.id)).gone = d.gone ++ [f] from congrArg _ hgone] at hf'
      rcases List.mem_append.mp hf' with hf' | hf'
      · exact h.gone f' hf'
      · rw [List.mem_singleton.mp hf']
        exact h.sealedFiles f (by rw [hfiles]; exact List.mem_cons_self) g (hmem g hg) (hfirst g hg)
    · rw [show (d.apply (.remove f.id)).files = rest from hkept] at hnil
      exact absurd hnil hne
  | syncDir =>
    refine ⟨?_, fun f hf => ?_, fun f hf g hg hlt => ?_, fun f hf => absurd hf List.not_mem_nil,
      fun _ => rfl⟩
    · exact List.pairwise_map.mpr hasc.2.1
    · obtain ⟨f₀, hf₀, rfl⟩ := List.mem_map.mp hf
      exact h.shaped f₀ hf₀
    · obtain ⟨f₀, hf₀, rfl⟩ := List.mem_map.mp hf
      obtain ⟨g₀, hg₀, rfl⟩ := List.mem_map.mp hg
      have hsealed := h.sealedFiles f₀ hf₀ g₀ hg₀ hlt
      exact ⟨hsealed.synced, hsealed.cutOff, hsealed.whole⟩
  | tell r => exact h

theorem Tidy.part (h : d.Tidy crc source) {op : Op} (hlegal : d.Legal crc source op) (m : ℕ) :
    (d.part op m).Tidy crc source := by
  cases op with
  | write id data =>
    obtain ⟨older, f, ps, p, hfiles, rfl, hcut, hbytes, rfl, hopens⟩ := hlegal
    refine h.modify_last hfiles (fun f => rfl) ?_
    have hwhole : Shaped crc source (frames crc (ps ++ [p])) :=
      ⟨ps ++ [p], [], (List.append_nil _).symm, partial_nil, hopens⟩
    have htake : f.bytes ++ (frame crc p).take m ++ f.cutOff = (frames crc (ps ++ [p])).take
        (f.bytes.length + m) := by
      rw [hcut, hbytes, frames_append, List.take_length_add_append, List.append_nil,
        frames_singleton]
    show Shaped crc source (f.bytes ++ (frame crc p).take m ++ f.cutOff)
    rw [htake]
    exact hwhole.take _
  | _ => exact h

theorem Tidy.applyAll (h : d.Tidy crc source) {ops : List Op} (hplan : d.Plan crc source ops) :
    (d.applyAll ops).Tidy crc source := by
  induction ops generalizing d with
  | nil => exact h
  | cons op ops ih => exact ih (h.apply hplan.1) hplan.2

/-- A plan keeps the directory tidy wherever it is cut. -/
theorem Tidy.cutAt (h : d.Tidy crc source) {ops : List Op}
    (hplan : d.Plan crc source ops) (n m : ℕ) :
    (d.cutAt ops n m).Tidy crc source := by
  induction ops generalizing d n with
  | nil =>
    rw [LogDir.cutAt]
    exact h
  | cons op ops ih =>
    cases n with
    | zero => exact h.part hplan.1 m
    | succ n => exact ih (h.apply hplan.1) hplan.2 n

/-- And so does a power loss. -/
theorem Tidy.powerLoss (h : d.Tidy crc source) (survives : ℕ → Bool) (len : ℕ → ℕ) :
    (d.powerLoss survives len).Tidy crc source := by
  obtain ⟨left, hleft⟩ : ∃ left, left = d.gone.filter (fun f => survives f.id) ++
      d.files.filter (fun f => f.linked || survives f.id) := ⟨_, rfl⟩
  have hsub : left.Sublist (d.gone ++ d.files) := by
    rw [hleft]
    exact List.Sublist.append List.filter_sublist List.filter_sublist
  have hmem : ∀ f ∈ left, f ∈ d.gone ∨ f ∈ d.files :=
    fun f hf => List.mem_append.mp (hsub.subset hf)
  have hbelow := (List.pairwise_append.mp h.asc).2.2
  show LogDir.Tidy crc source ⟨_, []⟩
  rw [← hleft]
  refine ⟨?_, fun f hf => ?_, fun f hf g hg hlt => ?_, fun f hf => absurd hf List.not_mem_nil,
    fun _ => rfl⟩
  · exact List.pairwise_map.mpr (h.asc.sublist hsub)
  · obtain ⟨f₀, hf₀, rfl⟩ := List.mem_map.mp hf
    show Shaped crc source (List.take _ _ ++ [])
    rw [List.append_nil]
    refine Shaped.take ?_ _
    rcases hmem f₀ hf₀ with hgone | hfile
    · exact (h.gone f₀ hgone).shaped
    · exact h.shaped f₀ hfile
  · obtain ⟨f₀, hf₀, rfl⟩ := List.mem_map.mp hf
    obtain ⟨g₀, hg₀, rfl⟩ := List.mem_map.mp hg
    refine LogFile.Sealed.lose ?_ _
    rcases hmem f₀ hf₀ with hgone | hfile
    · exact h.gone f₀ hgone
    · rcases hmem g₀ hg₀ with hgone | hfile'
      · -- a removed file is older than those present
        have := hbelow g₀ hgone f₀ hfile
        exact absurd hlt (by simp only [LogFile.lose_id]; omega)
      · exact h.sealedFiles f₀ hfile g₀ hfile' hlt

end LogDir

/-! ### The calls of the writer -/

theorem files_modify_last {older : List LogFile} {f : LogFile} (hfiles : d.files = older ++ [f])
    (hbelow : ∀ g ∈ older, g.id < f.id) (g : LogFile → LogFile) :
    (d.modify f.id g).files = older ++ [g f] := by
  have hkeep : older.map (fun f' => if f'.id = f.id then g f' else f') = older := by
    refine (List.map_congr_left fun f' hf' => ?_).trans (List.map_id older)
    exact if_neg (hbelow f' hf').ne
  show d.files.map _ = _
  rw [hfiles, List.map_append, hkeep, List.map_singleton, if_pos rfl]

/-- The writer is at the end of the newest file, behind the records `ps`. -/
structure Active (crc : Bytes → Fin (2 ^ 32)) (d : LogDir) (w : LogWriter) (older : List LogFile)
    (ps : List Bytes) :
    Prop where
  files : ∃ synced cutOff linked,
    d.files = older ++ [⟨w.fileId, frames crc ps, synced, cutOff, linked⟩]
  below : ∀ f ∈ older, f.id < w.fileId
  length : w.bytesInFile = (frames crc ps).length

variable {w : LogWriter} {older : List LogFile} {ps : List Bytes}

theorem Active.appendRaw (h : Active crc d w older ps) (p : Bytes) :
    Active crc (d.applyAll (w.appendRaw crc p).1) (w.appendRaw crc p).2 older (ps ++ [p]) := by
  obtain ⟨synced, cutOff, linked, hfiles⟩ := h.files
  refine ⟨⟨synced, cutOff, linked, ?_⟩, h.below, ?_⟩
  · show (d.modify w.fileId fun f => f.write (frame crc p)).files = _
    rw [files_modify_last hfiles h.below, frames_append, frames_singleton]
    rfl
  · show w.bytesInFile + (frame crc p).length = _
    rw [h.length, frames_append, frames_singleton, List.length_append]

theorem Active.plan_appendRaw (h : Active crc d w older ps)
    (hcut : ∀ f ∈ d.files, f.cutOff = []) {p : Bytes}
    (hopens : Opens source (ps ++ [p])) : d.Plan crc source (w.appendRaw crc p).1 := by
  obtain ⟨synced, cutOff, linked, hfiles⟩ := h.files
  refine ⟨⟨older, _, ps, p, hfiles, rfl, ?_, rfl, rfl, hopens⟩, trivial⟩
  exact hcut _ (by rw [hfiles]; exact List.mem_append_right _ (List.mem_singleton_self _))

theorem Active.sync (h : Active crc d w older ps) : ∃ linked, (d.apply w.sync).files =
    older ++ [⟨w.fileId, frames crc ps, (frames crc ps).length, [], linked⟩] := by
  obtain ⟨synced, cutOff, linked, hfiles⟩ := h.files
  exact ⟨linked, files_modify_last hfiles h.below _⟩

theorem Active.synced (h : Active crc d w older ps) : Active crc (d.apply w.sync) w older ps := by
  obtain ⟨linked, hfiles⟩ := h.sync
  exact ⟨⟨_, _, linked, hfiles⟩, h.below, h.length⟩

/-- A rotation seals the file and opens the next with its header. -/
theorem Active.rotate (h : Active crc d w older ps) : ∃ linked,
    Active crc (d.applyAll (w.rotate crc).1) (w.rotate crc).2
      (older ++ [⟨w.fileId, frames crc ps, (frames crc ps).length, [], linked⟩])
      [headerPayload w.source] := by
  obtain ⟨linked, hsync⟩ := h.sync
  refine ⟨linked, ?_⟩
  have hbelow : ∀ f ∈ (d.apply w.sync).files, f.id < w.fileId + 1 := by
    rw [hsync]
    intro f hf
    rcases List.mem_append.mp hf with hf | hf
    · exact (h.below f hf).trans (Nat.lt_succ_self _)
    · rw [List.mem_singleton.mp hf]
      exact Nat.lt_succ_self _
  have hcreate := LogDir.files_create hbelow
  rw [hsync] at hcreate hbelow
  have hempty : Active crc ((d.apply w.sync).apply (.create (w.fileId + 1)))
      { w with fileId := w.fileId + 1, bytesInFile := 0 }
      (older ++ [⟨w.fileId, frames crc ps, (frames crc ps).length, [], linked⟩]) [] :=
    ⟨⟨0, [], false, hcreate⟩, hbelow, rfl⟩
  exact (hempty.appendRaw (headerPayload w.source)).synced

theorem opens_header (source : Source) : Opens source [headerPayload source] :=
  ⟨fun p hp => List.mem_singleton.mp hp ▸ fits_headerPayload source, .inr ⟨[], rfl, by simp⟩⟩

theorem Active.plan_rotate (h : Active crc d w older ps) (ht : d.Tidy crc w.source)
    (hopens : Opens w.source ps) :
    d.Plan crc w.source (w.rotate crc).1 := by
  obtain ⟨linked, hsync⟩ := h.sync
  have hbelow := (List.pairwise_append.mp ht.asc).2.2
  obtain ⟨synced, cutOff, linked', hfiles⟩ := h.files
  have hlast : ∀ f ∈ d.gone ++ (d.apply w.sync).files, f.id < w.fileId + 1 := by
    rw [hsync]
    intro f hf
    rcases List.mem_append.mp hf with hf | hf
    · have := hbelow f hf ⟨w.fileId, frames crc ps, synced, cutOff, linked'⟩
        (by rw [hfiles]; exact List.mem_append_right _ (List.mem_singleton_self _))
      exact Nat.lt_succ_of_lt this
    · rcases List.mem_append.mp hf with hf | hf
      · exact (h.below f hf).trans (Nat.lt_succ_self _)
      · rw [List.mem_singleton.mp hf]
        exact Nat.lt_succ_self _
  have hsealed : ∀ f ∈ (d.apply w.sync).files, f.Sealed crc w.source := by
    rw [hsync]
    intro f hf
    rcases List.mem_append.mp hf with hf | hf
    · exact ht.sealedFiles f (by rw [hfiles]; exact List.mem_append_left _ hf) _
        (by rw [hfiles]; exact List.mem_append_right _ (List.mem_singleton_self _)) (h.below f hf)
    · rw [List.mem_singleton.mp hf]
      exact ⟨rfl, rfl, ps, rfl, hopens⟩
  refine ⟨trivial, ⟨hlast, hsealed⟩, ?_, trivial, trivial, trivial⟩
  have hcreate := LogDir.files_create fun f hf => hlast f (List.mem_append_right _ hf)
  exact ⟨_, _, [], headerPayload w.source, hcreate, rfl, rfl, rfl, rfl, opens_header w.source⟩

/-! ### Reading the directory -/

/-- No file is missing between the first and the last. -/
def LogDir.Gapless (d : LogDir) : Prop := d.files.IsChain fun f g => g.id = f.id + 1

instance (d : LogDir) : Decidable d.Gapless := inferInstanceAs (Decidable (List.IsChain _ _))

/-- The check of the header of a file of this store. -/
theorem checkHead_of_opens {ps : List Bytes} (h : Opens source ps) (id : ℕ) {known : Option Source}
    (hknown : ∀ k ∈ known, k = source) :
    ∃ known', checkHead id known ps = .ok known' ∧ ∀ k ∈ known', k = source := by
  rcases h.header with rfl | ⟨data, rfl, -⟩
  · exact ⟨known, rfl, hknown⟩
  · have hsource : known.getD source = source := by
      cases hk : known with
      | none => rfl
      | some k => exact hknown k hk
    refine ⟨some source, ?_, fun k hk => (Option.some_inj.mp hk).symm⟩
    simp only [checkHead, parseHeader_headerPayload, Except.bind, hsource]
    simp [headerPayload]

/-- Files of one store, all but the last clean, read back if none is missing. -/
theorem readFiles_spec {last : ℕ} {fs : List LogFile}
    (hshaped : ∀ f ∈ fs, Shaped crc source f.bytes)
    (hclean : ∀ f ∈ fs, f.id ≠ last → (Journal.readRecords crc f.bytes).2 = f.bytes.length)
    {expected : ℕ} (hchain : fs.IsChain fun f g => g.id = f.id + 1)
    (hfirst : ∀ f ∈ fs.head?, f.id = expected)
    {known : Option Source} (hknown : ∀ k ∈ known, k = source) :
    readFiles crc last expected known fs =
      .ok (fs.flatMap fun f => (Journal.readRecords crc f.bytes).1) := by
  induction fs generalizing expected known with
  | nil => rfl
  | cons f fs ih =>
    obtain ⟨known', hcheck, hknown'⟩ :=
      checkHead_of_opens (hshaped f List.mem_cons_self).readRecords.1 f.id hknown
    have hid : f.id = expected := hfirst f rfl
    have htorn : ¬ ((Journal.readRecords crc f.bytes).2 < f.bytes.length ∧ f.id ≠ last) := by
      rintro ⟨hlt, hne⟩
      exact absurd (hclean f List.mem_cons_self hne) hlt.ne
    have hnext : ∀ g ∈ fs.head?, g.id = f.id + 1 := fun g hg => by
      cases fs with
      | nil => exact absurd hg (by simp)
      | cons g' fs =>
        obtain rfl := Option.some_inj.mp hg
        exact (List.isChain_cons_cons.mp hchain).1
    have hrest := ih (fun g hg => hshaped g (List.mem_cons_of_mem _ hg))
      (fun g hg => hclean g (List.mem_cons_of_mem _ hg)) hchain.tail hnext hknown'
    rw [readFiles, if_neg (not_not.mpr hid), if_neg htorn, hcheck]
    show Except.map _ (readFiles crc last (f.id + 1) known' fs) = _
    rw [hrest]
    rfl

theorem readFiles_ok {last expected : ℕ} {known : Option Source} {fs : List LogFile}
    {out : List Bytes} (h : readFiles crc last expected known fs = .ok out) :
    fs.IsChain (fun f g => g.id = f.id + 1) ∧ (∀ f ∈ fs.head?, f.id = expected) ∧
      ∀ f ∈ fs, ∀ p ∈ (Journal.readRecords crc f.bytes).1.head?, p.head? = some TAG_HEADER := by
  induction fs generalizing expected known out with
  | nil => exact ⟨List.IsChain.nil, by simp, by simp⟩
  | cons f fs ih =>
    rw [readFiles] at h
    split at h
    · exact absurd h (by simp)
    · rename_i hid
      split at h
      · exact absurd h (by simp)
      · cases hcheck : checkHead f.id known (Journal.readRecords crc f.bytes).1 with
        | error e =>
          rw [hcheck] at h
          exact absurd h (by simp [Except.bind])
        | ok known' =>
          rw [hcheck] at h
          cases hrest : readFiles crc last (f.id + 1) known' fs with
          | error e =>
            rw [show Except.bind (.ok known') _ = Except.map _
              (readFiles crc last (f.id + 1) known' fs) from rfl, hrest] at h
            exact absurd h (by simp [Except.map])
          | ok out' =>
            -- this file was accepted, and the rest is read behind its id
            obtain ⟨hchain, hfirst, hheads⟩ := ih hrest
            refine ⟨?_, fun g hg => ?_, fun g hg p hp => ?_⟩
            · cases fs with
              | nil => exact List.IsChain.singleton _
              | cons g fs => exact List.isChain_cons_cons.mpr ⟨hfirst g rfl, hchain⟩
            · rw [← Option.some_inj.mp hg]
              exact not_not.mp hid
            · rcases List.mem_cons.mp hg with rfl | hg
              · cases hps : (Journal.readRecords crc g.bytes).1 with
                | nil =>
                  rw [hps] at hp
                  exact absurd hp (by simp)
                | cons q qs =>
                  rw [hps] at hp hcheck
                  rw [← Option.some_inj.mp hp]
                  by_contra hne
                  rw [checkHead, if_pos hne] at hcheck
                  exact absurd hcheck (by simp)
              · exact hheads g hg p hp

namespace LogDir

theorem getLast_getD {first last : LogFile} {rest older : List LogFile}
    (h : first :: rest = older ++ [last]) :
    rest.getLast?.getD first = last := by
  have := congrArg List.getLast? h
  rw [List.getLast?_cons, List.getLast?_append, List.getLast?_singleton] at this
  exact Option.some_inj.mp this

/-- Every file can be read, and every one but the newest to its end. -/
structure Legible (crc : Bytes → Fin (2 ^ 32)) (source : Source) (d : LogDir) : Prop where
  shaped : ∀ f ∈ d.files, Shaped crc source f.bytes
  clean : ∀ f ∈ d.files, ∀ g ∈ d.files, f.id < g.id →
    (Journal.readRecords crc f.bytes).2 = f.bytes.length

theorem Tidy.legible (h : d.Tidy crc source) : d.Legible crc source :=
  ⟨fun f hf => (h.shaped f hf).left, fun f hf g hg hlt => (h.sealedFiles f hf g hg hlt).whole.clean⟩

/-- **A directory without gaps reads back.** -/
theorem Legible.readAllRecords (h : d.Legible crc source) (hgapless : d.Gapless)
    (hne : d.files ≠ []) :
    readAllRecords crc d = .ok (d.records crc) := by
  have hasc : d.files.Pairwise fun f g => f.id < g.id := by
    refine List.isChain_iff_pairwise.mp (hgapless.imp fun f g hfg => ?_)
    omega
  obtain ⟨older, last, hfiles⟩ : ∃ older last, d.files = older ++ [last] :=
    (List.eq_nil_or_concat' d.files).resolve_left hne
  have hmem : last ∈ d.files := by
    rw [hfiles]
    exact List.mem_append_right _ (List.mem_singleton_self _)
  have hbelow : ∀ f ∈ d.files, f.id ≠ last.id → f.id < last.id := by
    rw [hfiles] at hasc ⊢
    intro f hf hne
    rcases List.mem_append.mp hf with hf | hf
    · exact (List.pairwise_append.mp hasc).2.2 f hf last (List.mem_singleton_self last)
    · exact absurd (congrArg LogFile.id (List.mem_singleton.mp hf)) hne
  unfold Journal.readAllRecords records
  cases hd : d.files with
  | nil => exact absurd hd hne
  | cons first rest =>
    rw [Gapless, hd] at hgapless
    show readFiles crc (rest.getLast?.getD first).id first.id none (first :: rest) = _
    rw [getLast_getD (hd.symm.trans hfiles)]
    refine readFiles_spec (fun f hf => h.shaped f (hd ▸ hf)) (fun f hf hne => ?_)
      hgapless (fun f hf => by rw [← Option.some_inj.mp hf]) (by simp)
    exact h.clean f (hd ▸ hf) last hmem (hbelow f (hd ▸ hf) hne)

/-- What the reader returns proves of the files. -/
theorem gapless_of_readAllRecords {out : List Bytes} (h : readAllRecords crc d = .ok out) :
    d.Gapless ∧
    ∀ f ∈ d.files, ∀ p ∈ (Journal.readRecords crc f.bytes).1.head?, p.head? = some TAG_HEADER := by
  unfold Journal.readAllRecords at h
  cases hd : d.files with
  | nil =>
    rw [hd] at h
    exact absurd h (by simp)
  | cons first rest =>
    rw [hd] at h
    obtain ⟨hchain, -, hheads⟩ := readFiles_ok h
    exact ⟨by rwa [Gapless, hd], hheads⟩

end LogDir

end

end Journal

end Fluent31
