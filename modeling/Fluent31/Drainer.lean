/-
The journal's drainer (`journal.rs`).

Every call of the drainer is a plan of operations on the directory.  A run
attaches a drainer, lets it write changes and compact, and stops it; any call
may fail or be killed at any operation, and a power loss may follow.  When a
compaction falls due is left open, as `request_checkpoint` leaves it.

* `Ready` — what a drainer relies on between its calls;
* `sound` — the directory is tidy in every state of every run, and an attached
  drainer is ready.
-/
import Fluent31.JournalWriter
import Fluent31.JournalRebuild
import Fluent31.Lib.System

namespace Fluent31

namespace Journal

section

variable (crc : Bytes → Fin (2 ^ 32))

namespace LogWriter

variable (w : LogWriter)

def writeBaseSnapshot (base : Base) : List Op × LogWriter :=
  let written := each (fun w p => w.appendRaw crc p) w base.payloads
  let rotated := written.2.maybeRotate crc
  (written.1 ++ written.2.sync :: rotated.1, rotated.2)

/-! ### The drainer's calls -/

def writeDeltas (changes : List Change) : List Op × LogWriter :=
  let written := each (fun w p => w.append crc p) w (changes.map encodeDelta)
  (written.1 ++ [written.2.sync, written.2.reportDurable], written.2)

def writeBase (base : Base) : List Op × LogWriter :=
  let written := w.writeBaseSnapshot crc base
  (written.1 ++ [written.2.reportDurable], written.2)

/-- `prune_files_below`. -/
def pruneFilesBelow (d : LogDir) (keepFrom : ℕ) : List Op :=
  let removed := (d.files.takeWhile fun f => decide (f.id < keepFrom)).map fun f => Op.remove f.id
  removed ++ if removed = [] then [] else [.syncDir]

/-- A compaction up to the removal of what it supersedes. -/
def rebase (base : Base) : List Op × LogWriter :=
  let rotated := w.rotate crc
  let written := rotated.2.writeBaseSnapshot crc base
  (rotated.1 ++ (written.1 ++ [.syncDir, written.2.reportDurable]), written.2)

def compact (d : LogDir) (base : Base) : List Op × LogWriter :=
  let anchorFile := (w.rotate crc).2.fileId
  let rebased := w.rebase crc base
  (rebased.1 ++ (pruneFilesBelow (d.applyAll rebased.1) anchorFile ++ [.tell (.pruned anchorFile)]),
    rebased.2)

/-- The end of `run`: the final flush. -/
def detach : List Op × LogWriter := ([w.sync, w.reportDurable, .tell (.stopped none)], w)

/-- `attach_observed`, up to the drainer's first turn. -/
def attach (d : LogDir) (source : Source) (rotateAt : ℕ) (base : Base) :
    Except JournalError (List Op × LogWriter) :=
  if rotateAt = 0 then .error (.store (.invalidArgument "journal rotate_bytes must be > 0"))
  else
    (openDir crc d source rotateAt).map fun opened =>
      let found := d.applyAll opened.1
      let based := if d.files = [] then
        opened.2.writeBase crc base else opened.2.compact crc found base
      (opened.1 ++ .tell (.attached found.listLogFiles) :: based.1, based.2)

end LogWriter

/-- What becomes of a call. -/
inductive Outcome
  | done
  /-- An operation fails: the drainer records the error and stops. -/
  | failed (ops bytes : ℕ) (error : String)
  /-- The process dies. -/
  | killed (ops bytes : ℕ)
  deriving DecidableEq

inductive Event
  | attach (rotateAt : ℕ) (base : Base) (outcome : Outcome)
  | writeDeltas (changes : List Change) (outcome : Outcome)
  /-- A due or a requested compaction, or the healing of a lag. -/
  | compact (base : Base) (outcome : Outcome)
  | detach (outcome : Outcome)
  | powerLoss (survives : ℕ → Bool) (len : ℕ → ℕ)

/-- A call to the observer, with the directory it is made over. -/
def Op.told (d : LogDir) : Op → List (Report × LogDir)
  | .tell report => [(report, d)]
  | _ => []

def tells : LogDir → List Op → List (Report × LogDir)
  | _, [] => []
  | d, op :: ops => op.told d ++ tells (d.apply op) ops

/-- The directory, the drainer attached to it, and what its observer has heard. -/
structure State where
  dir : LogDir
  writer : Option LogWriter
  told : List (Report × LogDir)
  deriving DecidableEq

namespace State

variable (s : State)

/-- A plan carried out as far as its outcome says; `w` is the drainer it leaves
when it is done, and `noisy` whether its failure is reported. -/
def carry (ops : List Op) (w : Option LogWriter) (noisy : Bool) : Outcome → State
  | .done => ⟨s.dir.applyAll ops, w, s.told ++ tells s.dir ops⟩
  | .failed n m error =>
    let dir := s.dir.cutAt ops n m
    ⟨dir, none, s.told ++ tells s.dir (ops.take n) ++ if noisy then
      [(.stopped (some error), dir)] else []⟩
  | .killed n m => ⟨s.dir.cutAt ops n m, none, s.told ++ tells s.dir (ops.take n)⟩

variable (source : Source)

def step : Event → Option State
  | .attach rotateAt base outcome =>
    if s.writer.isSome then none
    else match LogWriter.attach crc s.dir source rotateAt base with
      | .error _ => some { s with told := [] }
      | .ok attached =>
        some ({ s with told := [] }.carry attached.1 (some attached.2) false outcome)
  | .writeDeltas changes outcome =>
    s.writer.map fun w =>
      s.carry (w.writeDeltas crc changes).1 (some (w.writeDeltas crc changes).2) true outcome
  | .compact base outcome =>
    s.writer.map fun w =>
      s.carry (w.compact crc s.dir base).1 (some (w.compact crc s.dir base).2) true outcome
  | .detach outcome => s.writer.map fun w => s.carry w.detach.1 none true outcome
  | .powerLoss survives len => some ⟨s.dir.powerLoss survives len, none, s.told⟩

end State

/-- The runs of the drainers of one store on one directory. -/
def drainers (source : Source) (d : LogDir) : System State Event :=
  ⟨⟨d, none, []⟩, fun s a => s.step crc source a⟩

/-- The runs from an empty directory on. -/
def journal (source : Source) : System State Event := drainers crc source ⟨[], []⟩

end

/-! ### What a drainer relies on -/

section

variable {crc : Bytes → Fin (2 ^ 32)} {source : Source} {d : LogDir} {w : LogWriter}

/-- No truncation waits for its sync. -/
def LogDir.Settled (d : LogDir) : Prop := ∀ f ∈ d.files, f.cutOff = []

theorem LogDir.Settled.modify (h : d.Settled) (id : ℕ) {g : LogFile → LogFile}
    (hg : ∀ f, f.cutOff = [] → (g f).cutOff = []) : (d.modify id g).Settled := by
  intro f hf
  obtain ⟨f₀, hf₀, rfl⟩ := List.mem_map.mp hf
  split
  · exact hg f₀ (h f₀ hf₀)
  · exact h f₀ hf₀

theorem LogDir.Settled.apply (h : d.Settled) {op : Op} (hop : ∀ id len, op ≠ .setLen id len) :
    (d.apply op).Settled := by
  cases op with
  | create id =>
    intro f hf
    rcases List.mem_append.mp hf with hf | hf
    · exact h f (List.mem_filter.mp hf).1
    · rcases List.mem_cons.mp hf with rfl | hf
      · rfl
      · exact h f (List.mem_filter.mp hf).1
  | write id data => exact h.modify id fun f hf => hf
  | setLen id len => exact absurd rfl (hop id len)
  | syncFile id => exact h.modify id fun f hf => rfl
  | remove id => exact fun f hf => h f (List.mem_filter.mp hf).1
  | syncDir =>
    intro f hf
    obtain ⟨f₀, hf₀, rfl⟩ := List.mem_map.mp hf
    exact h f₀ hf₀
  | tell report => exact h

theorem LogDir.Settled.applyAll (h : d.Settled) {ops : List Op}
    (hops : ∀ op ∈ ops, ∀ id len, op ≠ .setLen id len) :
    (d.applyAll ops).Settled := by
  induction ops generalizing d with
  | nil => exact h
  | cons op ops ih =>
    exact ih (h.apply (hops op List.mem_cons_self)) fun op' hop' =>
      hops op' (List.mem_cons_of_mem _ hop')

/-- **Between its calls** the drainer stands at the end of a file that opens with
its header. -/
structure Ready (crc : Bytes → Fin (2 ^ 32)) (source : Source) (d : LogDir) (w : LogWriter) :
    Prop where
  tidy : d.Tidy crc source
  settled : d.Settled
  source_eq : w.source = source
  active : ∃ older data, Active crc d w older (headerPayload source :: data) ∧
    Opens source (headerPayload source :: data)

/-- A call whose every operation is legal and that leaves the drainer ready. -/
structure Carries (crc : Bytes → Fin (2 ^ 32)) (source : Source) (d : LogDir)
    (call : List Op × LogWriter) :
    Prop where
  plan : d.Plan crc source call.1
  ready : Ready crc source (d.applyAll call.1) call.2

theorem Carries.append {call next : List Op × LogWriter} (h : Carries crc source d call)
    (h' : Carries crc source (d.applyAll call.1) next) :
    Carries crc source d (call.1 ++ next.1, next.2) := by
  refine ⟨h.plan.append h'.plan, ?_⟩
  rw [LogDir.applyAll_append]
  exact h'.ready

theorem Ready.nothing (h : Ready crc source d w) : Carries crc source d ([], w) := ⟨trivial, h⟩

theorem Ready.sync (h : Ready crc source d w) : Carries crc source d ([w.sync], w) := by
  obtain ⟨older, data, hactive, hopens⟩ := h.active
  have htidy : (d.apply w.sync).Tidy crc source := h.tidy.apply trivial
  have hsettled : (d.apply w.sync).Settled := h.settled.apply (by simp [LogWriter.sync])
  exact ⟨⟨trivial, trivial⟩, htidy, hsettled, h.source_eq, older, data, hactive.synced, hopens⟩

theorem Ready.syncDir (h : Ready crc source d w) : Carries crc source d ([.syncDir], w) := by
  obtain ⟨older, data, hactive, hopens⟩ := h.active
  have htidy : (d.apply .syncDir).Tidy crc source := h.tidy.apply trivial
  have hsettled : (d.apply .syncDir).Settled := h.settled.apply (by simp)
  refine ⟨⟨trivial, trivial⟩, htidy, hsettled, h.source_eq,
    older.map fun f => { f with linked := true }, data, ⟨?_, ?_, hactive.length⟩, hopens⟩
  · obtain ⟨synced, cutOff, linked, hfiles⟩ := hactive.files
    refine ⟨synced, cutOff, true, ?_⟩
    show d.files.map _ = _
    rw [hfiles, List.map_append, List.map_singleton]
  · intro f hf
    obtain ⟨f₀, hf₀, rfl⟩ := List.mem_map.mp hf
    exact hactive.below f₀ hf₀

theorem Ready.tell (h : Ready crc source d w) (report : Report) :
    Carries crc source d ([.tell report], w) :=
  ⟨⟨trivial, trivial⟩, h⟩

theorem Ready.reportDurable (h : Ready crc source d w) :
    Carries crc source d ([w.reportDurable], w) := h.tell _

theorem Opens.append {ps : List Bytes} (h : Opens source (headerPayload source :: ps)) {p : Bytes}
    (hfits : Fits p)
    (hhead : p.head? ≠ some TAG_HEADER) : Opens source (headerPayload source :: (ps ++ [p])) := by
  refine ⟨fun q hq => ?_, .inr ⟨ps ++ [p], rfl, fun q hq => ?_⟩⟩
  · rw [← List.cons_append] at hq
    rcases List.mem_append.mp hq with hq | hq
    · exact h.fits q hq
    · rwa [List.mem_singleton.mp hq]
  · rcases List.mem_append.mp hq with hq | hq
    · obtain ⟨data, hdata, hheads⟩ := h.header.resolve_left (by simp)
      rw [(List.cons.inj hdata).2] at hq
      exact hheads q hq
    · rwa [List.mem_singleton.mp hq]

theorem Ready.appendRaw (h : Ready crc source d w) {p : Bytes} (hfits : Fits p)
    (hhead : p.head? ≠ some TAG_HEADER) :
    Carries crc source d (w.appendRaw crc p) := by
  obtain ⟨older, data, hactive, hopens⟩ := h.active
  have hopens' := hopens.append hfits hhead
  have hplan : d.Plan crc source (w.appendRaw crc p).1 :=
    hactive.plan_appendRaw h.settled (by rwa [List.cons_append])
  exact ⟨hplan, h.tidy.applyAll hplan, h.settled.applyAll (by simp [LogWriter.appendRaw]),
    h.source_eq, older, data ++ [p], hactive.appendRaw p, hopens'⟩

/-- A rotation readies the drainer even of a file without a header. -/
theorem Active.carries_rotate {older : List LogFile} {ps : List Bytes} (h : Active crc d w older ps)
    (ht : d.Tidy crc source) (hsource : w.source = source) (hopens : Opens source ps) :
    Carries crc source d (w.rotate crc) := by
  subst hsource
  have hplan := h.plan_rotate ht hopens
  obtain ⟨linked, hactive⟩ := h.rotate
  have hsettled : (d.apply w.sync).Settled := by
    obtain ⟨linked, hsync⟩ := h.sync
    obtain ⟨synced, cutOff, linked', hfiles⟩ := h.files
    intro f hf
    rw [hsync] at hf
    rcases List.mem_append.mp hf with hf | hf
    · exact (ht.sealedFiles f (by rw [hfiles]; exact List.mem_append_left _ hf) _
        (by rw [hfiles]; exact List.mem_append_right _ (List.mem_singleton_self _))
        (h.below f hf)).cutOff
    · rw [List.mem_singleton.mp hf]
  refine ⟨hplan, ht.applyAll hplan, ?_, rfl, _, [], hactive, opens_header _⟩
  have hrest : ∀ op ∈ (w.rotate crc).1.tail, ∀ id len, op ≠ .setLen id len := by
    simp [LogWriter.rotate, LogWriter.appendRaw]
  exact hsettled.applyAll hrest

theorem Ready.rotate (h : Ready crc source d w) : Carries crc source d (w.rotate crc) := by
  obtain ⟨older, data, hactive, hopens⟩ := h.active
  exact hactive.carries_rotate h.tidy h.source_eq hopens

theorem Ready.maybeRotate (h : Ready crc source d w) :
    Carries crc source d (w.maybeRotate crc) := by
  unfold LogWriter.maybeRotate
  split
  · exact h.rotate
  · exact h.nothing

theorem Ready.append (h : Ready crc source d w) {p : Bytes} (hfits : Fits p)
    (hhead : p.head? ≠ some TAG_HEADER) :
    Carries crc source d (w.append crc p) :=
  (h.appendRaw hfits hhead).append (h.appendRaw hfits hhead).ready.maybeRotate

theorem Ready.each {call : LogWriter → Bytes → List Op × LogWriter} {ps : List Bytes}
    (hcall : ∀ {d : LogDir} {w : LogWriter}, Ready crc source d w →
      ∀ p ∈ ps, Carries crc source d (call w p))
    (h : Ready crc source d w) : Carries crc source d (LogWriter.each call w ps) := by
  induction ps generalizing d w with
  | nil => exact h.nothing
  | cons p ps ih =>
    have hfirst := hcall h p List.mem_cons_self
    exact hfirst.append (ih (fun hr q hq => hcall hr q (List.mem_cons_of_mem _ hq)) hfirst.ready)

theorem Base.fits {base : Base} {p : Bytes} (hp : p ∈ base.payloads) :
    Fits p ∧ p.head? ≠ some TAG_HEADER := by
  have hrecord : ∀ r : Record, Fits r.encode ∧ r.encode.head? ≠ some TAG_HEADER :=
    fun r => ⟨r.fits_encode, r.head_encode⟩
  rcases List.mem_cons.mp hp with rfl | hp
  · exact hrecord (.checkpoint base.seq)
  · rcases List.mem_append.mp hp with hp | hp
    · obtain ⟨kv, -, rfl⟩ := List.mem_map.mp hp
      exact hrecord (.base kv)
    · rw [List.mem_singleton.mp hp]
      exact hrecord (.baseEnd base.seq)

theorem Ready.writePayloads (h : Ready crc source d w) (base : Base) :
    Carries crc source d (LogWriter.each (fun w p => w.appendRaw crc p) w base.payloads) :=
  h.each fun hr _ hp => hr.appendRaw (Base.fits hp).1 (Base.fits hp).2

theorem Ready.writeBaseSnapshot (h : Ready crc source d w) (base : Base) :
    Carries crc source d (w.writeBaseSnapshot crc base) := by
  have hwritten := h.writePayloads base
  have hsync := hwritten.append hwritten.ready.sync
  have hrotate := hsync.append hsync.ready.maybeRotate
  rw [List.append_assoc] at hrotate
  exact hrotate

theorem Ready.writeDeltas (h : Ready crc source d w) (changes : List Change) :
    Carries crc source d (w.writeDeltas crc changes) := by
  have hwritten : Carries crc source d
      (LogWriter.each (fun w p => w.append crc p) w (changes.map encodeDelta)) :=
    h.each fun hr p hp => by
      obtain ⟨c, -, rfl⟩ := List.mem_map.mp hp
      exact hr.append (Record.fits_encode (.delta c)) (Record.head_encode (.delta c))
  have hsync := hwritten.append hwritten.ready.sync
  have htell := hsync.append hsync.ready.reportDurable
  rw [List.append_assoc] at htell
  exact htell

theorem Ready.writeBase (h : Ready crc source d w) (base : Base) :
    Carries crc source d (w.writeBase crc base) :=
  (h.writeBaseSnapshot base).append (h.writeBaseSnapshot base).ready.reportDurable

theorem Ready.detach (h : Ready crc source d w) : Carries crc source d w.detach :=
  h.sync.append (h.sync.ready.reportDurable.append (h.sync.ready.tell (.stopped none)))

/-- Files below one that stays are removed from the oldest on. -/
theorem Ready.remove (h : Ready crc source d w) {keepFrom : ℕ} (hkeep : keepFrom ≤ w.fileId) :
    Carries crc source d
      ((d.files.takeWhile fun f => decide (f.id < keepFrom)).map (fun f => Op.remove f.id), w) := by
  obtain ⟨older, data, hactive, hopens⟩ := h.active
  induction older generalizing d with
  | nil =>
    obtain ⟨synced, cutOff, linked, hfiles⟩ := hactive.files
    rw [hfiles, List.nil_append, List.takeWhile_cons_of_neg (by simpa using hkeep)]
    exact h.nothing
  | cons f older ih =>
    obtain ⟨synced, cutOff, linked, hfiles⟩ := hactive.files
    by_cases hlt : f.id < keepFrom
    · rw [hfiles, List.cons_append, List.takeWhile_cons_of_pos (by simpa using hlt), List.map_cons]
      -- the oldest file is not the last one, so it may go
      have hlegal : d.Legal crc source (.remove f.id) := ⟨f, _, hfiles, by simp, rfl⟩
      have hrest : (d.apply (.remove f.id)).files = older ++
          [⟨w.fileId, frames crc (headerPayload source :: data), synced, cutOff, linked⟩] := by
        have hasc := (List.pairwise_append.mp h.tidy.asc).2.1
        rw [hfiles] at hasc
        show d.files.filter _ = _
        rw [hfiles, List.cons_append, List.filter_cons_of_neg (by simp)]
        exact List.filter_eq_self.mpr fun g hg =>
          decide_eq_true ((List.pairwise_cons.mp hasc).1 g hg).ne'
      have hready : Ready crc source (d.apply (.remove f.id)) w :=
        ⟨h.tidy.apply hlegal, h.settled.apply (by simp), h.source_eq, older, data,
          ⟨⟨synced, cutOff, linked, hrest⟩, fun g hg => hactive.below g (List.mem_cons_of_mem _ hg),
            hactive.length⟩,
          hopens⟩
      have hnext := ih hready ⟨⟨synced, cutOff, linked, hrest⟩,
        fun g hg => hactive.below g (List.mem_cons_of_mem _ hg), hactive.length⟩
      rw [hrest] at hnext
      exact ⟨⟨hlegal, hnext.plan⟩, hnext.ready⟩
    · rw [hfiles, List.cons_append, List.takeWhile_cons_of_neg (by simpa using hlt)]
      exact h.nothing

theorem Ready.pruneFilesBelow (h : Ready crc source d w) {keepFrom : ℕ}
    (hkeep : keepFrom ≤ w.fileId) :
    Carries crc source d (LogWriter.pruneFilesBelow d keepFrom, w) := by
  have hremove := h.remove hkeep
  unfold LogWriter.pruneFilesBelow
  simp only
  split
  · exact hremove.append hremove.ready.nothing
  · exact hremove.append hremove.ready.syncDir

theorem le_fileId_maybeRotate (w : LogWriter) : w.fileId ≤ (w.maybeRotate crc).2.fileId := by
  unfold LogWriter.maybeRotate
  split
  · exact Nat.le_succ _
  · exact le_rfl

theorem le_fileId_each {call : LogWriter → Bytes → List Op × LogWriter}
    (hcall : ∀ w p, w.fileId ≤ (call w p).2.fileId)
    (w : LogWriter) (ps : List Bytes) : w.fileId ≤ (LogWriter.each call w ps).2.fileId := by
  induction ps generalizing w with
  | nil => exact le_rfl
  | cons p ps ih => exact (hcall w p).trans (ih _)

theorem le_fileId_rebase (w : LogWriter) (base : Base) :
    (w.rotate crc).2.fileId ≤ (w.rebase crc base).2.fileId :=
  (le_fileId_each (fun _ _ => le_rfl) _ _).trans (le_fileId_maybeRotate _)

theorem Carries.rebase (hrotate : Carries crc source d (w.rotate crc)) (base : Base) :
    Carries crc source d (w.rebase crc base) := by
  have hwritten := hrotate.ready.writeBaseSnapshot base
  have hdir := hwritten.append hwritten.ready.syncDir
  have hreport := hdir.append hdir.ready.reportDurable
  rw [List.append_assoc] at hreport
  exact hrotate.append hreport

/-- A compaction, given that the rotation at its start is one. -/
theorem Carries.compact (hrotate : Carries crc source d (w.rotate crc)) (base : Base) :
    Carries crc source d (w.compact crc d base) := by
  have hrebase := hrotate.rebase base
  have hprune := hrebase.ready.pruneFilesBelow (le_fileId_rebase w base)
  exact hrebase.append (hprune.append (hprune.ready.tell _))

theorem Ready.compact (h : Ready crc source d w) (base : Base) :
    Carries crc source d (w.compact crc d base) :=
  h.rotate.compact base

/-! ### Opening -/

/-- An empty directory gets a first file with a header. -/
theorem carries_create (ht : d.Tidy crc source) (hnil : d.files = []) (rotateAt : ℕ) :
    LogWriter.openDir crc d source rotateAt = .ok
        (.create 1 :: ((LogWriter.appendRaw crc ⟨1, 0, rotateAt, source, 0⟩
          (headerPayload source)).1 ++ [.syncFile 1]),
          (LogWriter.appendRaw crc ⟨1, 0, rotateAt, source, 0⟩ (headerPayload source)).2) ∧
      Carries crc source d
        (.create 1 :: ((LogWriter.appendRaw crc ⟨1, 0, rotateAt, source, 0⟩
          (headerPayload source)).1 ++ [.syncFile 1]),
          (LogWriter.appendRaw crc ⟨1, 0, rotateAt, source, 0⟩ (headerPayload source)).2) ∧
      Active crc (d.applyAll (.create 1 ::
          ((LogWriter.appendRaw crc ⟨1, 0, rotateAt, source, 0⟩ (headerPayload source)).1 ++
            [.syncFile 1])))
        (LogWriter.appendRaw crc ⟨1, 0, rotateAt, source, 0⟩ (headerPayload source)).2 []
          [headerPayload source] := by
  refine ⟨by unfold LogWriter.openDir; rw [hnil], ?_⟩
  have hcreate : (d.apply (.create 1)).files = d.files ++ [⟨1, [], 0, [], false⟩] :=
    LogDir.files_create (by rw [hnil]; simp)
  rw [hnil, List.nil_append] at hcreate
  have hempty : Active crc (d.apply (.create 1)) ⟨1, 0, rotateAt, source, 0⟩ [] [] :=
    ⟨⟨0, [], false, hcreate⟩, by simp, rfl⟩
  -- there is no file yet, so the id 1 is fresh
  have hlegal : d.Legal crc source (.create 1) := by
    refine ⟨?_, ?_⟩
    · rw [ht.present hnil, hnil]
      simp
    · rw [hnil]
      simp
  have hsettled : (d.apply (.create 1)).Settled := by
    intro f hf
    rw [hcreate] at hf
    rw [List.mem_singleton.mp hf]
  have hplan := hempty.plan_appendRaw hsettled (opens_header source)
  have hready : Ready crc source ((d.apply (.create 1)).applyAll
      (LogWriter.appendRaw crc ⟨1, 0, rotateAt, source, 0⟩ (headerPayload source)).1)
      (LogWriter.appendRaw crc ⟨1, 0, rotateAt, source, 0⟩ (headerPayload source)).2 :=
    ⟨(ht.apply hlegal).applyAll hplan, hsettled.applyAll (by simp [LogWriter.appendRaw]),
      rfl, [], [], hempty.appendRaw _, opens_header source⟩
  -- the call is the creation, the append of the header and its sync
  have hcall : d.applyAll (.create 1 ::
      ((LogWriter.appendRaw crc ⟨1, 0, rotateAt, source, 0⟩ (headerPayload source)).1 ++
        [.syncFile 1])) =
      ((d.apply (.create 1)).applyAll
        (LogWriter.appendRaw crc ⟨1, 0, rotateAt, source, 0⟩ (headerPayload source)).1).apply
          (.syncFile 1) := by
    rw [LogDir.applyAll_cons, LogDir.applyAll_append]
    rfl
  refine ⟨⟨⟨hlegal, hplan.append hready.sync.plan⟩, ?_⟩, ?_⟩
  · rw [hcall]
    exact hready.sync.ready
  · rw [hcall]
    exact (hempty.appendRaw (headerPayload source)).synced

/-- Opening a directory with files drops the torn end of the newest. -/
theorem openDir_spec (ht : d.Tidy crc source) {older : List LogFile} {last : LogFile}
    (hfiles : d.files = older ++ [last]) {rotateAt : ℕ} {call : List Op × LogWriter}
    (hopen : LogWriter.openDir crc d source rotateAt = .ok call) :
    d.Plan crc source call.1 ∧ call.2.source = source ∧ call.2.fileId = last.id ∧
      call.2.rotateAt = rotateAt ∧
      Active crc (d.applyAll call.1) call.2 older (readRecords crc last.bytes).1 ∧
      call.1 = if (readRecords crc last.bytes).2 < last.bytes.length then
        [.setLen last.id (readRecords crc last.bytes).2, .syncFile last.id] else [] := by
  have hmem : last ∈ d.files := by
    rw [hfiles]
    exact List.mem_append_right _ (List.mem_singleton_self _)
  have hbelow : ∀ f ∈ older, f.id < last.id := by
    have hasc := (List.pairwise_append.mp ht.asc).2.1
    rw [hfiles] at hasc
    exact fun f hf => (List.pairwise_append.mp hasc).2.2 f hf last (List.mem_singleton_self last)
  obtain ⟨-, hclean, hlength⟩ := (ht.shaped last hmem).left.readRecords
  unfold LogWriter.openDir at hopen
  cases hd : d.files with
  | nil =>
    rw [hd] at hmem
    exact absurd hmem List.not_mem_nil
  | cons first rest =>
    rw [hd] at hopen
    simp only [LogDir.getLast_getD (hd.symm.trans hfiles)] at hopen
    cases hheader : readHeader crc first.bytes with
    | error e =>
      rw [hheader] at hopen
      exact absurd hopen (by simp [Except.bind])
    | ok recorded =>
      rw [hheader, Except.bind] at hopen
      split at hopen
      · exact absurd hopen (by simp)
      · obtain rfl := Except.ok.inj hopen
        by_cases htorn : (readRecords crc last.bytes).2 < last.bytes.length
        · rw [if_pos htorn]
          refine ⟨⟨⟨older, last, hfiles, rfl⟩, trivial, trivial⟩, rfl, rfl, rfl,
            ⟨⟨(last.bytes.take (readRecords crc last.bytes).2).length, [], last.linked, ?_⟩, hbelow,
              hlength⟩, rfl⟩
          -- what is kept of the last file is what its records take up
          have hcut := files_modify_last hfiles hbelow fun f =>
            f.setLen (readRecords crc last.bytes).2
          have hsync := files_modify_last
            (d := d.apply (.setLen last.id (readRecords crc last.bytes).2)) hcut hbelow LogFile.sync
          rw [← hclean]
          exact hsync
        · -- nothing is torn, so the records are the whole file
          have hwhole : last.bytes = frames crc (readRecords crc last.bytes).1 := by
            rw [← hclean, List.take_of_length_le (not_lt.mp htorn)]
          rw [if_neg htorn]
          refine ⟨trivial, rfl, rfl, rfl,
            ⟨⟨last.synced, last.cutOff, last.linked, ?_⟩, hbelow, hlength⟩, rfl⟩
          rw [LogDir.applyAll_nil, ← hwhole, hfiles]

/-- What is told in between changes no directory. -/
theorem Carries.behind {report : Report} {ops : List Op} {next : List Op × LogWriter}
    (h : Carries crc source (d.applyAll ops) next) (hplan : d.Plan crc source ops) :
    Carries crc source d (ops ++ .tell report :: next.1, next.2) := by
  refine ⟨hplan.append ⟨trivial, h.plan⟩, ?_⟩
  rw [LogDir.applyAll_append]
  exact h.ready

theorem carries_attach (ht : d.Tidy crc source) {rotateAt : ℕ} {base : Base}
    {call : List Op × LogWriter}
    (hattach : LogWriter.attach crc d source rotateAt base = .ok call) :
    Carries crc source d call := by
  unfold LogWriter.attach at hattach
  split at hattach
  · exact absurd hattach (by simp)
  · rcases List.eq_nil_or_concat' d.files with hnil | ⟨older, last, hfiles⟩
    · obtain ⟨hopen, hcarries, -⟩ := carries_create ht hnil rotateAt
      rw [hopen] at hattach
      obtain rfl := Except.ok.inj hattach
      simp only [if_pos hnil]
      exact (hcarries.ready.writeBase base).behind hcarries.plan
    · cases hopen : LogWriter.openDir crc d source rotateAt with
      | error e =>
        rw [hopen] at hattach
        exact absurd hattach (by simp [Except.map])
      | ok opened =>
        rw [hopen] at hattach
        obtain rfl := Except.ok.inj hattach
        obtain ⟨hplan, hsource, -, -, hactive, -⟩ := openDir_spec ht hfiles hopen
        have hlast : last ∈ d.files := by
          rw [hfiles]
          exact List.mem_append_right _ (List.mem_singleton_self _)
        have hopens := (ht.shaped last hlast).left.readRecords.1
        have hrotate := hactive.carries_rotate (ht.applyAll hplan) hsource hopens
        simp only [if_neg (show d.files ≠ [] by rw [hfiles]; simp)]
        exact (hrotate.compact base).behind hplan

end

/-! ### Runs -/

section

variable {crc : Bytes → Fin (2 ^ 32)} {source : Source} {s s' : State}

/-- The directory is tidy, and the drainer attached to it is ready. -/
structure State.Sound (crc : Bytes → Fin (2 ^ 32)) (source : Source) (s : State) : Prop where
  tidy : s.dir.Tidy crc source
  ready : ∀ w ∈ s.writer, Ready crc source s.dir w

theorem State.Sound.carry (h : s.dir.Tidy crc source) {call : List Op × LogWriter}
    (hcall : Carries crc source s.dir call) {w : Option LogWriter} (hw : w = some call.2 ∨ w = none)
    (noisy : Bool)
    (outcome : Outcome) : (s.carry call.1 w noisy outcome).Sound crc source := by
  cases outcome with
  | done =>
    refine ⟨hcall.ready.tidy, fun w' hw' => ?_⟩
    rcases hw with rfl | rfl
    · rw [← Option.some_inj.mp hw']
      exact hcall.ready
    · exact absurd hw' (by simp [State.carry])
  | failed n m error =>
    exact ⟨h.cutAt hcall.plan n m, fun w hw => absurd hw (by simp [State.carry])⟩
  | killed n m => exact ⟨h.cutAt hcall.plan n m, fun w hw => absurd hw (by simp [State.carry])⟩

theorem step_sound {a : Event} (h : s.Sound crc source) (hs : s.step crc source a = some s') :
    s'.Sound crc source := by
  cases a with
  | attach rotateAt base outcome =>
    simp only [State.step] at hs
    split at hs
    · exact absurd hs (by simp)
    · rename_i hnone
      cases hattach : LogWriter.attach crc s.dir source rotateAt base with
      | error e =>
        rw [hattach] at hs
        obtain rfl := Option.some_inj.mp hs
        exact ⟨h.tidy, h.ready⟩
      | ok call =>
        rw [hattach] at hs
        obtain rfl := Option.some_inj.mp hs
        have hcarries := carries_attach h.tidy hattach
        exact State.Sound.carry (s := { s with told := [] }) h.tidy hcarries
          (Or.inl rfl) false outcome
  | writeDeltas changes outcome =>
    obtain ⟨w, hw, rfl⟩ := Option.map_eq_some_iff.mp hs
    exact State.Sound.carry h.tidy ((h.ready w hw).writeDeltas changes) (Or.inl rfl) true outcome
  | compact base outcome =>
    obtain ⟨w, hw, rfl⟩ := Option.map_eq_some_iff.mp hs
    exact State.Sound.carry h.tidy ((h.ready w hw).compact base) (Or.inl rfl) true outcome
  | detach outcome =>
    obtain ⟨w, hw, rfl⟩ := Option.map_eq_some_iff.mp hs
    exact State.Sound.carry h.tidy (h.ready w hw).detach (Or.inr rfl) true outcome
  | powerLoss survives len =>
    obtain rfl := Option.some_inj.mp hs
    exact ⟨h.tidy.powerLoss survives len, fun w hw => absurd hw (by simp)⟩

/-- **Every directory a run leaves is tidy.** -/
theorem sound (h : (journal crc source).Reachable s) : s.Sound crc source :=
  h.invariant ⟨⟨List.Pairwise.nil, by simp [journal, drainers], by simp [journal, drainers],
    by simp [journal, drainers], fun _ => rfl⟩, by simp [journal, drainers]⟩
    fun h _ hs => step_sound h hs

end

end Journal

end Fluent31
