/-
Lazy-leveling compaction (`compaction.rs`).

`pick` chooses a tier merge, a bottom splice or a deepen; a rewrite runs in
bounded slices (`runSlice`) and installs its output when the merge is
exhausted (`install`).  `Scheduler` is the one executor: the active job, the
suspended ones, and the work picked but not started.  Each of its functions is
one atomic piece of `Scheduler::step`; flushes and commits may fall between
any two of them.
-/
import Fluent31.Store

namespace Fluent31

open Ordered

inductive JobKind
  /-- The output run lands at the front of the target level. -/
  | tier
  /-- The output is spliced between the base run's untouched fragments to form
  the new base run at the back of the level. -/
  | bottomSplice (baseId : ℕ) (keepLeft keepRight : List Table) (newRunId : ℕ)

structure Job where
  level : ℕ
  target : ℕ
  inputs : List Run
  /-- Runs that will sit behind the output. -/
  older : List Run
  kind : JobKind

/-- Could a run behind the output hold `ukey`? -/
def Job.olderMayContain (job : Job) (ukey : Bytes) : Bool :=
  job.older.any fun r => r.mayContainUkey ukey

/-- What the picker chose. -/
inductive Work
  | rewrite (job : Job)
  | deepen (level : ℕ) (inputs : List Run)

/-- A rewrite in flight: the merge cursor over its inputs, the output so far,
and the state of the drop rule for the current user key. -/
structure RunningJob where
  job : Job
  watermark : ℕ
  merge : List (List Entry)
  runId : ℕ
  writer : FragmentWriter
  curUkey : Option Bytes
  keptLeW : Bool

/-- Levels never grow past this by deepening. -/
def MAX_DYNAMIC_LEVELS : ℕ := 16

def saturatingMul (a b : ℕ) : ℕ := min (a * b) (2 ^ 64 - 1)

/-- Per-level byte budget of deepening decisions. -/
def levelTargetBytes (opts : Options) (level : ℕ) : ℕ :=
  let unit := max (saturatingMul opts.memtableSize opts.l0CompactionTrigger) 1
  (List.range level).foldl (fun acc _ => saturatingMul acc (max opts.tierWidth 2)) unit

/-! ### The picker -/

namespace Version

variable (v : Version)

def level (i : ℕ) : List Run := v.levels[i]?.getD []

def last : ℕ := v.levels.length - 1

/-- Merge the whole of `level` into the level below. -/
def pickTier (level : ℕ) : Job where
  level := level
  target := level + 1
  inputs := v.level level
  older := (v.levels.drop (level + 1)).flatten
  kind := .tier

/-- Normal-trigger work strictly above `before`. -/
def pickBefore (opts : Options) (before : ℕ) : Option Job :=
  ((List.range (min v.last before)).find? fun i =>
    decide ((if i = 0 then opts.l0CompactionTrigger else opts.tierWidth) ≤ (v.level i).length)).map
      v.pickTier

/-- The oldest non-base run of the bottom merges into the base run, of which
only the overlapped fragments are rewritten. -/
def pickSplice (newRunId : ℕ) (upper base : Run) : Option Job :=
  match (upper.tables.map Table.minUkey).min?, (upper.tables.map Table.maxUkey).max? with
  | some lo, some hi =>
    let left (t : Table) : Bool := decide (t.maxUkey < lo)
    let right (t : Table) : Bool := decide (hi < t.minUkey)
    some
      { level := v.last
        target := v.last
        inputs := [upper, ⟨base.id, base.tables.filter fun t => !left t && !right t⟩]
        older := []
        kind := .bottomSplice base.id (base.tables.filter left)
          (base.tables.filter fun t => !left t && right t) newRunId }
  | _, _ => none

end Version

namespace Db

variable (opts : Options) (db : Db)

def allocFileId : Db := { db with nextFileId := db.nextFileId + 1 }

/-- The next piece of work, in priority order: tier merges from the top, then
deepening, then the bottom splice. -/
def pick (force : Bool) : Option (Work × Db) :=
  let v := db.version
  let bottom := v.level v.last
  match (List.range v.last).find? fun i => decide
      ((if force then 2 else if i = 0 then opts.l0CompactionTrigger else opts.tierWidth) ≤
        (v.level i).length) with
  | some i => some (.rewrite (v.pickTier i), db)
  | none =>
    let bottomBytes := (bottom.map Run.size).sum
    let oneLevelTreeWithWork := v.last = 0 ∧ 2 ≤ bottom.length
    let bottomOverBudget := force = false ∧ levelTargetBytes opts v.last < bottomBytes
    if v.levels.length < MAX_DYNAMIC_LEVELS ∧ bottom ≠ [] ∧
        (oneLevelTreeWithWork ∨ bottomOverBudget) then
      some (.deepen v.last bottom, db)
    else
      match bottom.reverse with
      | base :: upper :: _ =>
        (v.pickSplice db.nextFileId upper base).map fun job => (.rewrite job, db.allocFileId)
      | _ => none

/-! ### Installation -/

/-- Move the bottom's runs into a level created below it. -/
def installDeepen (level : ℕ) (inputs : List Run) : Db :=
  let ids := inputs.map Run.id
  let levels := (db.version.levels.modify level fun l => l.filter fun r => decide (r.id ∉ ids)) ++
    [inputs]
  { db with
    version := { db.version with levels := levels }
    manifest := { db.manifest with nextFileId := db.nextFileId } }

/-- The levels after a job's inputs made way for its output. -/
def installLevels (job : Job) (output : Option Run) : List (List Run) :=
  let ids := job.inputs.map Run.id
  let levels := db.version.levels.modify job.level fun l => l.filter fun r => decide (r.id ∉ ids)
  match job.kind with
  | .tier =>
    match output with
    | some run => levels.modify job.target fun l => run :: l
    | none => levels
  | .bottomSplice baseId keepLeft keepRight newRunId =>
    let levels := levels.modify job.level fun l => l.filter fun r => decide (r.id ≠ baseId)
    let tables := keepLeft ++ (output.map Run.tables).getD [] ++ keepRight
    if tables.isEmpty then levels else levels.modify job.level fun l => l ++ [⟨newRunId, tables⟩]

def install (job : Job) (output : Option Run) : Db :=
  { db with
    version := { db.version with levels := db.installLevels job output }
    manifest := { db.manifest with nextFileId := db.nextFileId } }

end Db

/-! ### Slices -/

namespace RunningJob

/-- Open the merge cursor; the watermark is sampled here, after the pick. -/
def new (db : Db) (job : Job) : RunningJob × Db :=
  (⟨job, db.watermark, job.inputs.map Run.entries, db.nextFileId, .empty, none, false⟩,
    db.allocFileId)

/-- The drop rule for a version: whether it is kept, and whether the newest
version at or below the watermark has been seen. -/
def verdict (j : RunningJob) (e : Entry) : Bool × Bool :=
  let kept := if j.curUkey = some e.ukey then j.keptLeW else false
  if j.watermark < e.seq then (true, kept)
  else if kept then (false, true)
  else (!(decide (e.kind = .delete) && !j.job.olderMayContain e.ukey), true)

/-- One version read off the merge and, if kept, written. -/
def consume (opts : Options) (j : RunningJob) (nextFileId : ℕ) (e : Entry)
    (merge : List (List Entry)) : Option (RunningJob × ℕ) :=
  let (keep, kept) := j.verdict e
  (if keep then j.writer.emit opts nextFileId e else some (j.writer, nextFileId)).map fun r =>
    ({ j with merge := merge, writer := r.1, curUkey := some e.ukey, keptLeW := kept }, r.2)

/-- Process versions until the budget is spent at a user-key boundary (false)
or the merge is exhausted (true). -/
def sliceLoop (opts : Options) : ℕ → RunningJob → ℕ → ℕ → Option (RunningJob × ℕ × Bool)
  | 0, j, _, id => some (j, id, true)
  | fuel + 1, j, processed, id =>
    match popLeast Entry.ikey j.merge with
    | none => some (j, id, true)
    | some (e, merge) =>
      if max opts.compactionSliceBytes 1 ≤ processed ∧ j.curUkey ≠ some e.ukey then
        some (j, id, false)
      else
        (j.consume opts id e merge).bind fun r =>
          sliceLoop opts fuel r.1 (processed + (e.ikeyLen + e.repr.encode.length)) r.2

/-- One scheduling quantum; no job is left once the output is installed. -/
def runSlice (opts : Options) (db : Db) (j : RunningJob) : Option (Db × Option RunningJob) :=
  (sliceLoop opts j.merge.flatten.length j 0 db.nextFileId).bind fun r =>
    let (j, id, exhausted) := r
    let db := { db with nextFileId := id }
    if exhausted then
      (j.writer.close opts).map fun tables =>
        (db.install j.job (if tables.isEmpty then none else some ⟨j.runId, tables⟩), none)
    else some (db, some j)

end RunningJob

/-! ### The scheduler -/

structure Scheduler where
  active : Option RunningJob
  /-- Innermost first. -/
  suspended : List RunningJob
  /-- Work picked and not yet started. -/
  pending : Option Work
  force : Bool

namespace Scheduler

variable (opts : Options) (db : Db) (s : Scheduler)

def new (force : Bool) : Scheduler := ⟨none, [], none, force⟩

/-- A level above the active job that crossed its trigger takes over. -/
def preempt : Option Scheduler :=
  match s.active, s.pending with
  | some deep, none =>
    match db.version.pickBefore opts deep.job.level with
    | some job => some ⟨none, deep :: s.suspended, some (.rewrite job), s.force⟩
    | none => some s
  | _, _ => none

/-- With nothing active: work above the innermost suspended job, then that job,
then whatever the picker wants; `none` when nothing is runnable. -/
def schedule : Option (Scheduler × Db) :=
  match s.active, s.pending with
  | none, none =>
    match s.suspended with
    | [] => (db.pick opts s.force).map fun r => (⟨none, [], some r.1, s.force⟩, r.2)
    | deep :: rest =>
      match db.version.pickBefore opts deep.job.level with
      | some job => some (⟨none, deep :: rest, some (.rewrite job), s.force⟩, db)
      | none => some (⟨some deep, rest, none, s.force⟩, db)
  | _, _ => none

/-- Start the picked work: a rewrite becomes the active job, a deepen installs
right here. -/
def start : Option (Scheduler × Db) :=
  match s.active, s.pending with
  | none, some (.rewrite job) =>
    let (j, db) := RunningJob.new db job
    some (⟨some j, s.suspended, none, s.force⟩, db)
  | none, some (.deepen level inputs) =>
    some (⟨none, s.suspended, none, s.force⟩, db.installDeepen level inputs)
  | _, _ => none

/-- Run one slice of the active job. -/
def slice : Option (Scheduler × Db) :=
  match s.active with
  | some j => (j.runSlice opts db).map fun r => (⟨r.2, s.suspended, s.pending, s.force⟩, r.1)
  | none => none

end Scheduler

end Fluent31
