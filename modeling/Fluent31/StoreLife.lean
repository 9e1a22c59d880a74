/-
A store can be opened again (`db.rs`, `wal.rs`).

The life of a store's WAL files over many processes.  A process runs on the write
path until it ends or crashes, which leaves anything of the WAL it appends to; an
open replays what it finds, truncates a torn tail, starts a fresh WAL and lifts
the manifest's floor, and may fail or crash behind any of these steps.  Recovery
takes a torn tail only in the newest WAL; in any other it refuses to open.

The store that an open arrives at is any with nothing in its WAL.  A WAL that
recovery has read counts as durable.

* `Replays` — no torn WAL is met before the newest;
* `Replays.not_damaged` — then recovery does not refuse;
* `WalDir.open_replays` — an open that stops anywhere keeps that;
* `reopenable` — in every life in which no rotation seals a WAL with a failed
  append and none fails behind its new WAL file, all WALs but the newest are
  clean, and recovery never refuses;
* `sealed_torn` — a flush of a degraded store seals a torn WAL;
* `behind_orphan` — a rotation that failed behind its new WAL file leaves a newer
  WAL than the append target, which can tear.
-/
import Fluent31.Lib.Distinct
import Fluent31.SealedWals

namespace Fluent31

/-! ### Recovery -/

inductive ReplayError
  /-- A WAL that is not the newest has a torn tail. -/
  | sealedDamaged (wal offset : ℕ)
  | other (err : Error)
  deriving DecidableEq

section

variable (crc : Bytes → Fin (2 ^ 32))

/-- The records of one WAL up to the first that `check` says to stop at: its
value never became durable. -/
def replayRecords (check : Bytes → Except Error Bool) :
    List Bytes → Except Error (List Bytes × Bool)
  | [] => .ok ([], false)
  | p :: rest => do
    if ← check p then return ([], true)
    let r ← replayRecords check rest
    return (p :: r.1, r.2)

/-- The replay of the WAL files in ascending order of their ids: the records,
and where the newest is to be truncated. -/
def replayWals (check : Bytes → Except Error Bool) :
    List (ℕ × Bytes) → Except ReplayError (List Bytes × Option (ℕ × ℕ))
  | [] => .ok ([], none)
  | (id, bytes) :: rest =>
    match replayRecords check (readWal crc bytes).1 with
    | .error e => .error (.other e)
    | .ok (records, true) => .ok (records, none)
    | .ok (records, false) =>
      match (readWal crc bytes).2 with
      | .clean => (replayWals check rest).map fun r => (records ++ r.1, r.2)
      | .torn len =>
        if rest = [] then .ok (records, some (id, len)) else .error (.sealedDamaged id len)

end

/-- What an open finds: the WAL files in ascending order of their ids, the
manifest's floor, and the records that point to values which did not last. -/
structure WalDir where
  files : List (ℕ × Bytes)
  floor : ℕ
  lost : Bytes → Bool

/-- What an open does to it. -/
inductive OpenStep
  /-- Cut a torn WAL to its valid prefix, and sync it. -/
  | truncate (wal len : ℕ)
  | createWal (id : ℕ)
  /-- A manifest with this floor. -/
  | commit (floor : ℕ)
  | deleteOldWals
  deriving DecidableEq

namespace WalDir

variable (crc : Bytes → Fin (2 ^ 32)) (d : WalDir)

/-- The WALs to replay. -/
def wals : List (ℕ × Bytes) := d.files.filter fun f => decide (d.floor ≤ f.1)

/-- What recovery says to a record; `bad` are those that do not decode or point to
files it does not know. -/
def check (bad : Bytes → Option Error) (p : Bytes) : Except Error Bool :=
  match bad p with
  | some err => .error err
  | none => .ok (d.lost p)

def replay (bad : Bytes → Option Error) : Except ReplayError (List Bytes × Option (ℕ × ℕ)) :=
  replayWals crc (d.check bad) d.wals

def perform : OpenStep → WalDir
  | .truncate wal len =>
    { d with files := d.files.map fun f => if f.1 = wal then (f.1, f.2.take len) else f }
  | .createWal id => { d with files := d.files ++ [(id, [])] }
  | .commit floor => { d with floor := floor }
  | .deleteOldWals => { d with files := d.wals }

def performAll (steps : List OpenStep) : WalDir := steps.foldl perform d

/-- The id of the newest WAL to replay. -/
def newest : ℕ := (d.wals.getLast?.map Prod.fst).getD 0

/-- What an open does after a replay.  The recovered memtable is flushed first,
which lifts the floor over the replayed WALs. -/
def openSteps (fresh : ℕ) (replayed : List Bytes × Option (ℕ × ℕ)) : List OpenStep :=
  (replayed.2.map fun t => OpenStep.truncate t.1 t.2).toList ++ [.createWal fresh] ++
    (if replayed.1 = [] then [] else [.commit (max d.floor (d.newest + 1)), .deleteOldWals]) ++
    [.commit fresh, .deleteOldWals]

/-- A crash: the newest file becomes `image`, and more values are lost. -/
def crash (image : Option Bytes) (lost : Bytes → Bool) : WalDir where
  files := d.files.dropLast ++ (d.files.getLast?.bind fun f => image.map fun b => (f.1, b)).toList
  floor := d.floor
  lost := fun p => d.lost p || lost p

end WalDir

/-! ### The system -/

/-- The files of a process that ends: the append target becomes `image`. -/
def WritePath.dir (s : WritePath) (image : Option Bytes) (lost : Bytes → Bool) : WalDir where
  files := (List.range s.store.db.nextFileId).filterMap fun id =>
    (if id = s.store.db.wal.id then image else (s.store.files id).map WalFile.bytes).map
      fun b => (id, b)
  floor := s.store.db.manifest.walFloor
  lost := lost

inductive Life
  | running (s : WritePath)
  /-- No process has the store open. -/
  | closed (d : WalDir)

inductive LifeAction
  | path (a : PathAction)
  /-- The process ends, or the machine does. -/
  | crash (image : Option Bytes) (lost : Bytes → Bool)
  /-- An open with `fresh` as the id of its WAL, which fails or crashes after so
  many steps, or arrives at the store `db`. -/
  | reopen (bad : Bytes → Option Error) (fresh : ℕ) (stop : Option ℕ) (db : Db)

namespace Life

variable (crc : Bytes → Fin (2 ^ 32)) (opts : Options)

instance (db : Db) : Decidable db.Opened :=
  decidable_of_iff (db.wal.records = [] ∧ db.sealedWals = [] ∧ db.mem.map = [] ∧ db.imms = [] ∧
      db.mem.walId = db.wal.id ∧ db.manifest.walFloor ≤ db.wal.id ∧ db.wal.id < db.nextFileId)
    ⟨fun ⟨h₁, h₂, h₃, h₄, h₅, h₆, h₇⟩ => ⟨h₁, h₂, h₃, h₄, h₅, h₆, h₇⟩,
      fun h => ⟨h.records, h.sealedWals, h.mem, h.imms, h.mem_wal, h.floor_le, h.wal_lt⟩⟩

def step : Life → LifeAction → Option Life
  | .running s, .path a => (s.step crc opts a).map .running
  | .running s, .crash image lost => some (.closed (s.dir image lost))
  | .closed d, .crash image lost => some (.closed (d.crash image lost))
  | .closed d, .reopen bad fresh stop db =>
    if ∀ f ∈ d.files, f.1 < fresh then
      match d.replay crc bad with
      | .error _ => some (.closed d)
      | .ok replayed =>
        match stop with
        | some k => some (.closed (d.performAll ((d.openSteps fresh replayed).take k)))
        | none =>
          if db.Opened ∧ db.wal.id = fresh ∧ db.manifest.walFloor = fresh then
            some (.running (.opened db))
          else none
    else none
  | _, _ => none

/-- The process seals no WAL with a failed append, and no rotation of it fails
behind its new WAL file. -/
def Careful : Life → LifeAction → Prop
  | .running s, .path a => s.Careful opts a
  | _, _ => True

instance (l : Life) (a : LifeAction) : Decidable (Careful opts l a) :=
  match l, a with
  | .running s, .path a => inferInstanceAs (Decidable (s.Careful opts a))
  | .running _, .crash _ _ | .running _, .reopen _ _ _ _ | .closed _, _ => .isTrue trivial

end Life

/-- The life of a store, from an empty directory on. -/
def storeLife (crc : Bytes → Fin (2 ^ 32)) (opts : Options) : System Life LifeAction :=
  ⟨.closed ⟨[], 0, fun _ => false⟩, Life.step crc opts⟩

variable {crc : Bytes → Fin (2 ^ 32)} {opts : Options}

/-! ### What recovery can replay -/

/-- A replay meets no torn WAL before the newest: those before it are clean, or
it stops earlier, at a record whose value is lost. -/
inductive Replays (crc : Bytes → Fin (2 ^ 32)) (lost : Bytes → Bool) : List (ℕ × Bytes) → Prop
  | nil : Replays crc lost []
  | newest (a : ℕ × Bytes) : Replays crc lost [a]
  | halt (a : ℕ × Bytes) (rest : List (ℕ × Bytes)) : (∃ p ∈ (readWal crc a.2).1, lost p = true) →
      Replays crc lost (a :: rest)
  | clean (a : ℕ × Bytes) {rest : List (ℕ × Bytes)} : (readWal crc a.2).2 = .clean →
    Replays crc lost rest →
      Replays crc lost (a :: rest)

variable {lost lost' : Bytes → Bool} {wals : List (ℕ × Bytes)} {d : WalDir}

/-- A replay that goes through all records of a WAL came by no lost value. -/
theorem replayRecords_through {check : Bytes → Except Error Bool} {ps : List Bytes}
    {records : List Bytes}
    (h : replayRecords check ps = .ok (records, false)) : ∀ p ∈ ps, check p = .ok false := by
  induction ps generalizing records with
  | nil => exact fun p hp => absurd hp List.not_mem_nil
  | cons p ps ih =>
    rw [replayRecords] at h
    obtain ⟨stop, hstop, h⟩ := Checks.bind_eq_ok.mp h
    cases stop with
    | true => exact absurd (congrArg Prod.snd (Except.ok.inj h)) (by simp)
    | false =>
      obtain ⟨r, hr, h⟩ := Checks.bind_eq_ok.mp h
      obtain ⟨-, hfalse⟩ := Prod.mk.inj (Except.ok.inj h)
      obtain ⟨rs, b⟩ := r
      obtain rfl : b = false := hfalse
      exact List.forall_mem_cons.mpr ⟨hstop, ih hr⟩

/-- One that stops has come to a lost value. -/
theorem replayRecords_stopped {check : Bytes → Except Error Bool} {ps : List Bytes}
    {records : List Bytes}
    (h : replayRecords check ps = .ok (records, true)) : ∃ p ∈ ps, check p = .ok true := by
  induction ps generalizing records with
  | nil => exact absurd (congrArg Prod.snd (Except.ok.inj h)) (by simp)
  | cons p ps ih =>
    rw [replayRecords] at h
    obtain ⟨stop, hstop, h⟩ := Checks.bind_eq_ok.mp h
    cases stop with
    | true => exact ⟨p, List.mem_cons_self, hstop⟩
    | false =>
      obtain ⟨r, hr, h⟩ := Checks.bind_eq_ok.mp h
      obtain ⟨-, htrue⟩ := Prod.mk.inj (Except.ok.inj h)
      obtain ⟨rs, b⟩ := r
      obtain rfl : b = true := htrue
      obtain ⟨q, hq, hcheck⟩ := ih hr
      exact ⟨q, List.mem_cons_of_mem _ hq, hcheck⟩

theorem WalDir.lost_of_check {bad : Bytes → Option Error} {p : Bytes} {b : Bool}
    (h : d.check bad p = .ok b) :
    d.lost p = b := by
  unfold check at h
  split at h
  · exact absurd h (by simp)
  · exact Except.ok.inj h

/-- **Recovery does not refuse** what it can replay. -/
theorem Replays.not_damaged (h : Replays crc d.lost wals) (bad : Bytes → Option Error)
    (id len : ℕ) :
    replayWals crc (d.check bad) wals ≠ .error (.sealedDamaged id len) := by
  induction h with
  | nil => exact fun h => by cases h
  | newest a =>
    unfold replayWals
    split
    · simp
    · simp
    · split
      · simp [replayWals, Except.map]
      · simp
  | halt a rest hlost =>
    unfold replayWals
    split
    · simp
    · simp
    · rename_i records hrecords
      obtain ⟨p, hp, hlost⟩ := hlost
      have hkept := WalDir.lost_of_check (replayRecords_through hrecords p hp)
      exact absurd (hlost.symm.trans hkept) (by decide)
  | @clean a rest hclean _ ih =>
    unfold replayWals
    split
    · simp
    · simp
    · rw [hclean]
      simp only
      cases hrest : replayWals crc (d.check bad) rest with
      | error err => exact fun heq => ih (hrest.trans (congrArg _ (Except.error.inj heq)))
      | ok r => simp [Except.map]

/-- The newest WAL may become anything, and more values may be lost. -/
theorem Replays.replace {l : List (ℕ × Bytes)} {a : ℕ × Bytes} (h : Replays crc lost (l ++ [a]))
    (hlost : ∀ p, lost p = true → lost' p = true) (x : Option (ℕ × Bytes)) :
    Replays crc lost' (l ++ x.toList) := by
  induction l with
  | nil =>
    cases x with
    | none => exact .nil
    | some b => exact .newest b
  | cons b l ih =>
    generalize hrest : l ++ [a] = rest at ih
    rw [List.cons_append, hrest] at h
    rw [List.cons_append]
    cases h with
    | newest => exact absurd hrest (by simp)
    | halt _ _ hp =>
      obtain ⟨p, hp, hl⟩ := hp
      exact .halt b _ ⟨p, hp, hlost p hl⟩
    | clean _ hclean h => exact .clean b hclean (ih h)

/-- Without lost values, all WALs but the newest are clean. -/
theorem Replays.clean_of_lt (h : Replays crc lost wals) (hlost : ∀ p, lost p = false)
    (hsorted : wals.Pairwise fun a b => a.1 < b.1) {a : ℕ × Bytes} (ha : a ∈ wals)
    (hlt : ∃ b ∈ wals, a.1 < b.1) : (readWal crc a.2).2 = .clean := by
  induction h with
  | nil => exact absurd ha List.not_mem_nil
  | newest c =>
    obtain ⟨b, hb, hlt⟩ := hlt
    rw [List.mem_singleton.mp ha, List.mem_singleton.mp hb] at hlt
    exact absurd hlt (lt_irrefl _)
  | halt c rest hp =>
    obtain ⟨p, -, hp⟩ := hp
    exact absurd (hp.symm.trans (hlost p)) (by decide)
  | @clean c rest hclean _ ih =>
    obtain ⟨hhead, htail⟩ := List.pairwise_cons.mp hsorted
    rcases List.mem_cons.mp ha with rfl | hrest
    · exact hclean
    · obtain ⟨b, hb, hlt⟩ := hlt
      rcases List.mem_cons.mp hb with rfl | hb
      · exact absurd hlt (lt_asymm (hhead a hrest))
      · exact ih htail hrest ⟨b, hb, hlt⟩

theorem replays_of_clean (hsorted : wals.Pairwise fun a b => a.1 < b.1)
    (h : ∀ a ∈ wals, (∃ b ∈ wals, a.1 < b.1) → (readWal crc a.2).2 = .clean) :
    Replays crc lost wals := by
  induction wals with
  | nil => exact .nil
  | cons a rest ih =>
    obtain ⟨hhead, htail⟩ := List.pairwise_cons.mp hsorted
    cases rest with
    | nil => exact .newest a
    | cons b rest =>
      have hclean := h a List.mem_cons_self
        ⟨b, List.mem_cons_of_mem _ List.mem_cons_self, hhead b List.mem_cons_self⟩
      refine .clean a hclean (ih htail fun c hc hlt => ?_)
      obtain ⟨e, he, hlt⟩ := hlt
      exact h c (List.mem_cons_of_mem _ hc) ⟨e, List.mem_cons_of_mem _ he, hlt⟩

/-! ### An open -/

/-- A replay that truncates nothing can be followed by another WAL. -/
theorem replays_of_replayed {bad : Bytes → Option Error} {records : List Bytes}
    (h : replayWals crc (d.check bad) wals = .ok (records, none)) (x : ℕ × Bytes) :
    Replays crc d.lost (wals ++ [x]) := by
  induction wals generalizing records with
  | nil => exact .newest x
  | cons a rest ih =>
    unfold replayWals at h
    split at h
    · exact absurd h (by simp)
    · rename_i hstopped
      obtain ⟨p, hp, hcheck⟩ := replayRecords_stopped hstopped
      exact .halt a _ ⟨p, hp, WalDir.lost_of_check hcheck⟩
    · split at h
      · rename_i hclean
        obtain ⟨r, hr, heq⟩ := Checks.map_eq_ok.mp h
        obtain ⟨rs, t⟩ := r
        obtain rfl : t = none := (Prod.mk.inj heq).2
        exact .clean a hclean (ih hr)
      · split at h
        · exact absurd (congrArg Prod.snd (Except.ok.inj h)) (by simp)
        · exact absurd h (by simp)

/-- After its truncation, any other can be. -/
theorem replays_of_truncated {bad : Bytes → Option Error} {records : List Bytes} {wal len : ℕ}
    (hsorted : wals.Pairwise fun a b => a.1 < b.1)
    (h : replayWals crc (d.check bad) wals = .ok (records, some (wal, len))) (x : ℕ × Bytes) :
    wal ∈ wals.map Prod.fst ∧
      Replays crc d.lost
        ((wals.map fun f => if f.1 = wal then (f.1, f.2.take len) else f) ++ [x]) := by
  induction wals generalizing records with
  | nil => exact absurd (congrArg Prod.snd (Except.ok.inj h)) (by simp)
  | cons a rest ih =>
    obtain ⟨hhead, htail⟩ := List.pairwise_cons.mp hsorted
    unfold replayWals at h
    split at h
    · exact absurd h (by simp)
    · exact absurd (congrArg Prod.snd (Except.ok.inj h)) (by simp)
    · split at h
      · rename_i hclean
        obtain ⟨r, hr, heq⟩ := Checks.map_eq_ok.mp h
        obtain ⟨rs, t⟩ := r
        obtain rfl : t = some (wal, len) := (Prod.mk.inj heq).2
        obtain ⟨hmem, hrest⟩ := ih htail hr
        obtain ⟨b, hb, hid⟩ := List.mem_map.mp hmem
        have hne : a.1 ≠ wal := fun heq => absurd (hhead b hb) (by omega)
        refine ⟨List.mem_cons_of_mem _ hmem, ?_⟩
        rw [List.map_cons, if_neg hne]
        exact .clean a hclean hrest
      · split at h
        · rename_i n htorn hnil
          obtain ⟨-, htrunc⟩ := Prod.mk.inj (Except.ok.inj h)
          obtain ⟨rfl, rfl⟩ := Prod.mk.inj (Option.some.inj htrunc)
          subst hnil
          refine ⟨List.mem_cons_self, ?_⟩
          rw [List.map_cons, if_pos rfl]
          exact .clean _ (congrArg Prod.snd (readWal_truncate (Prod.ext rfl htorn))) (.newest x)
        · exact absurd h (by simp)

/-- A step behind the creation of the fresh WAL: a floor it lifts is above all
other files. -/
def OpenStep.Settles (d : WalDir) (fresh : ℕ) : OpenStep → Prop
  | .commit floor => ∀ f ∈ d.files, f.1 = fresh ∨ f.1 < floor
  | .deleteOldWals => True
  | .truncate _ _ | .createWal _ => False

/-- The directory is in order: its files rise, and recovery can replay it. -/
structure WalDir.Sound (crc : Bytes → Fin (2 ^ 32)) (d : WalDir) : Prop where
  sorted : d.files.Pairwise fun a b => a.1 < b.1
  replays : Replays crc d.lost d.wals

namespace WalDir

theorem performAll_append (steps steps' : List OpenStep) :
    d.performAll (steps ++ steps') = (d.performAll steps).performAll steps' := List.foldl_append ..

theorem mem_wals {f : ℕ × Bytes} : f ∈ d.wals ↔ f ∈ d.files ∧ d.floor ≤ f.1 := by
  rw [wals, List.mem_filter, decide_eq_true_eq]

theorem le_newest (h : d.files.Pairwise fun a b => a.1 < b.1) {f : ℕ × Bytes} (hf : f ∈ d.wals) :
    f.1 ≤ d.newest := by
  have hsorted : d.wals.Pairwise fun a b => a.1 < b.1 := h.filter _
  obtain ⟨init, last, hsplit⟩ : ∃ init last, d.wals = init ++ [last] :=
    ⟨_, _, (List.dropLast_append_getLast (List.ne_nil_of_mem hf)).symm⟩
  rw [newest, hsplit, List.getLast?_concat]
  rw [hsplit] at hf hsorted
  rcases List.mem_append.mp hf with hf | hf
  · exact le_of_lt ((List.pairwise_append.mp hsorted).2.2 f hf last (List.mem_singleton_self _))
  · rw [List.mem_singleton.mp hf]
    exact le_rfl

/-- The truncation of a torn tail, before the fresh WAL is there. -/
theorem truncated (h : d.Sound crc) {bad : Bytes → Option Error} {records : List Bytes}
    {torn : Option (ℕ × ℕ)} (hreplay : d.replay crc bad = .ok (records, torn)) :
    ∃ d₁ : WalDir, d.performAll (torn.map fun t => OpenStep.truncate t.1 t.2).toList = d₁ ∧
      d₁.files.map Prod.fst = d.files.map Prod.fst ∧ d₁.floor = d.floor ∧ d₁.lost = d.lost ∧
      ∀ x, Replays crc d.lost (d₁.wals ++ [x]) := by
  cases torn with
  | none => exact ⟨d, rfl, rfl, rfl, rfl, fun x => replays_of_replayed hreplay x⟩
  | some t =>
    obtain ⟨wal, len⟩ := t
    have hfst : ∀ f : ℕ × Bytes, (if f.1 = wal then (f.1, f.2.take len) else f).1 = f.1 :=
      fun f => by
      split <;> rfl
    refine ⟨d.perform (.truncate wal len), rfl, ?_, rfl, rfl, fun x => ?_⟩
    · show (d.files.map _).map Prod.fst = _
      rw [List.map_map]
      exact List.map_congr_left fun f _ => hfst f
    · have hwals : (d.perform (.truncate wal len)).wals =
          d.wals.map fun f => if f.1 = wal then (f.1, f.2.take len) else f := by
        show (d.files.map _).filter _ = (d.files.filter _).map _
        rw [List.filter_map]
        refine congrArg _ (List.filter_congr fun f _ => ?_)
        exact congrArg (fun n => decide (d.floor ≤ n)) (hfst f)
      rw [hwals]
      exact (replays_of_truncated (h.sorted.filter _) hreplay x).2

/-- One WAL at most is at the floor or above it. -/
theorem replays_of_one {fresh : ℕ} (hsorted : d.files.Pairwise fun a b => a.1 < b.1)
    (hone : ∀ f ∈ d.wals, f.1 = fresh) : Replays crc lost d.wals := by
  have hwals : d.wals.Pairwise fun a b => a.1 < b.1 := hsorted.filter _
  cases hlist : d.wals with
  | nil => exact .nil
  | cons a rest =>
    cases rest with
    | nil => exact .newest a
    | cons b rest =>
      rw [hlist] at hwals hone
      have hlt := (List.pairwise_cons.mp hwals).1 b List.mem_cons_self
      rw [hone a List.mem_cons_self, hone b (List.mem_cons_of_mem _ List.mem_cons_self)] at hlt
      exact absurd hlt (lt_irrefl _)

theorem settle {steps : List OpenStep} {fresh : ℕ} (h : d.Sound crc)
    (hsteps : ∀ step ∈ steps, step.Settles d fresh) : (d.performAll steps).Sound crc := by
  induction steps generalizing d with
  | nil => exact h
  | cons step steps ih =>
    obtain ⟨hstep, hrest⟩ := List.forall_mem_cons.mp hsteps
    show ((d.perform step).performAll steps).Sound crc
    have hsub : ∀ {d' : WalDir}, (∀ f ∈ d'.files, f ∈ d.files) → ∀ s ∈ steps, s.Settles d' fresh :=
      fun hfiles s hs => by
        have hsettles := hrest s hs
        cases s with
        | commit floor => exact fun f hf => hsettles f (hfiles f hf)
        | deleteOldWals => trivial
        | truncate | createWal => exact hsettles.elim
    cases step with
    | truncate | createWal => exact hstep.elim
    | commit floor =>
      have hone : ∀ f ∈ (d.perform (.commit floor)).wals, f.1 = fresh := fun f hf => by
        obtain ⟨hfile, hle⟩ := mem_wals.mp hf
        exact (hstep f hfile).resolve_right (not_lt.mpr hle)
      exact ih ⟨h.sorted, replays_of_one h.sorted hone⟩ (hsub fun f hf => hf)
    | deleteOldWals =>
      refine ih ⟨h.sorted.filter _, ?_⟩ (hsub fun f hf => (mem_wals.mp hf).1)
      have hwals : (d.perform .deleteOldWals).wals = d.wals :=
        List.filter_eq_self.mpr fun f hf => decide_eq_true (mem_wals.mp hf).2
      rw [hwals]
      exact h.replays

/-- **An open that stops anywhere** leaves a directory that recovery can replay. -/
theorem open_sound (h : d.Sound crc) {bad : Bytes → Option Error} {fresh : ℕ}
    (hfresh : ∀ f ∈ d.files, f.1 < fresh)
    {replayed : List Bytes × Option (ℕ × ℕ)} (hreplay : d.replay crc bad = .ok replayed) (k : ℕ) :
    (d.performAll ((d.openSteps fresh replayed).take k)).Sound crc := by
  obtain ⟨records, torn⟩ := replayed
  obtain ⟨d₁, hd₁, hids, hfloor, hlost, hready⟩ := truncated h hreplay
  have hmem : ∀ {f : ℕ × Bytes}, f ∈ d₁.files → ∃ g ∈ d.files, g.1 = f.1 := fun {f} hf => by
    obtain ⟨g, hg, heq⟩ := List.mem_map.mp (hids ▸ List.mem_map_of_mem hf)
    exact ⟨g, hg, heq⟩
  have hsorted₁ : d₁.files.Pairwise fun a b => a.1 < b.1 := by
    rw [← List.pairwise_map (f := Prod.fst) (R := fun a b => a < b), hids]
    exact List.pairwise_map.mpr h.sorted
  have hsound₁ : d₁.Sound crc := by
    refine ⟨hsorted₁, ?_⟩
    have hnone := (hready (0, [])).replace (fun _ => id) none
    rwa [hlost, ← List.append_nil d₁.wals]
  -- the fresh WAL is the newest file
  have hsound₂ : (d₁.perform (.createWal fresh)).Sound crc := by
    refine ⟨List.pairwise_append.mpr ⟨hsorted₁, List.pairwise_singleton _ _, fun f hf g hg => ?_⟩,
      ?_⟩
    · obtain ⟨f', hf', heq⟩ := hmem hf
      rw [List.mem_singleton.mp hg, ← heq]
      exact hfresh f' hf'
    · show Replays crc d₁.lost ((d₁.files ++ [(fresh, [])]).filter _)
      rw [List.filter_append, List.filter_cons, hlost]
      split
      · exact hready (fresh, [])
      · rw [List.filter_nil, List.append_nil]
        exact hlost ▸ hsound₁.replays
  have hsettles : ∀ floor, (∀ f ∈ d.files, f.1 < floor) → (OpenStep.commit floor).Settles
      (d₁.perform (.createWal fresh))
      fresh := fun floor hbelow f hf => by
    rcases List.mem_append.mp hf with hf | hf
    · obtain ⟨g, hg, heq⟩ := hmem hf
      exact Or.inr (heq ▸ hbelow g hg)
    · exact Or.inl (by rw [List.mem_singleton.mp hf])
  -- the floor of the recovery flush is above what was replayed, and above the old one
  have hflush : ∀ f ∈ d.files, f.1 < max d.floor (d.newest + 1) := fun f hf => by
    by_cases hle : d.floor ≤ f.1
    · exact lt_max_of_lt_right (Nat.lt_succ_of_le (le_newest h.sorted (mem_wals.mpr ⟨hf, hle⟩)))
    · exact lt_max_of_lt_left (not_le.mp hle)
  unfold openSteps
  generalize hpre : (torn.map fun t => OpenStep.truncate t.1 t.2).toList = pre at hd₁
  generalize htail : (if records = [] then
    [] else [OpenStep.commit (max d.floor (d.newest + 1)), .deleteOldWals]) ++
    [.commit fresh, .deleteOldWals] = tail
  have htail' : ∀ step ∈ tail, step.Settles (d₁.perform (.createWal fresh)) fresh :=
    fun step hs => by
    rw [← htail] at hs
    rcases List.mem_append.mp hs with hs | hs
    · split at hs
      · exact absurd hs List.not_mem_nil
      · rcases List.mem_pair.mp hs with rfl | rfl
        · exact hsettles _ hflush
        · trivial
    · rcases List.mem_pair.mp hs with rfl | rfl
      · exact hsettles fresh hfresh
      · trivial
  have hsteps : pre ++ [.createWal fresh] ++ (if records = [] then [] else
      [OpenStep.commit (max d.floor (d.newest + 1)), .deleteOldWals]) ++
        [.commit fresh, .deleteOldWals] = pre ++ .createWal fresh :: tail := by
    rw [← htail]
    simp only [List.append_assoc, List.cons_append, List.nil_append]
  rw [hsteps, List.take_append, performAll_append]
  rcases Nat.lt_or_ge k pre.length with hlt | hge
  · -- it stops before the truncation
    have hlen : pre.length ≤ 1 := by
      rw [← hpre]
      cases torn <;> simp
    obtain rfl : k = 0 := by omega
    rw [Nat.zero_sub, List.take_zero, List.take_zero]
    exact h
  · rw [List.take_of_length_le hge, hd₁]
    cases k - pre.length with
    | zero => exact hsound₁
    | succ k =>
      show ((d₁.perform (.createWal fresh)).performAll (tail.take k)).Sound crc
      exact settle hsound₂ fun step hs => htail' step (List.mem_of_mem_take hs)

/-- So does a crash. -/
theorem crash_sound (h : d.Sound crc) (image : Option Bytes) (lost : Bytes → Bool) :
    (d.crash image lost).Sound crc := by
  have hlost : ∀ p, d.lost p = true → (d.crash image lost).lost p = true := fun p hp => by
    show (d.lost p || lost p) = true
    rw [hp, Bool.true_or]
  cases hlast : d.files.getLast? with
  | none =>
    have hnil : d.files = [] := List.getLast?_eq_none_iff.mp hlast
    have hfiles : (d.crash image lost).files = [] := by
      show d.files.dropLast ++ _ = []
      rw [hlast, hnil]
      rfl
    refine ⟨by rw [hfiles]; exact .nil, ?_⟩
    rw [wals, hfiles]
    exact .nil
  | some last =>
    obtain ⟨init, hinit⟩ := List.getLast?_eq_some_iff.mp hlast
    have hfiles : (d.crash image lost).files = init ++ (image.map fun b => (last.1, b)).toList := by
      show d.files.dropLast ++ _ = _
      rw [hlast, hinit, List.dropLast_concat]
      rfl
    have hsorted := List.pairwise_append.mp (hinit ▸ h.sorted)
    refine ⟨?_, ?_⟩
    · rw [hfiles]
      refine List.pairwise_append.mpr ⟨hsorted.1, ?_, fun f hf g hg => ?_⟩
      · cases image with
        | none => exact .nil
        | some b => exact List.pairwise_singleton _ _
      · obtain ⟨b, -, rfl⟩ := Option.map_eq_some_iff.mp (Option.mem_toList.mp hg)
        exact hsorted.2.2 f hf last (List.mem_singleton_self _)
    · have hold := h.replays
      rw [wals, hinit, List.filter_append] at hold
      rw [wals, hfiles, List.filter_append]
      show Replays crc _ (init.filter (fun f => decide (d.floor ≤ f.1)) ++
        (image.map fun b => (last.1, b)).toList.filter fun f => decide (d.floor ≤ f.1))
      by_cases hle : d.floor ≤ last.1
      · have hkept : [last].filter (fun f => decide (d.floor ≤ f.1)) = [last] := by simp [hle]
        have hnew : (image.map fun b => (last.1, b)).toList.filter
            (fun f => decide (d.floor ≤ f.1)) = (image.map fun b => (last.1, b)).toList := by
          cases image <;> simp [hle]
        rw [hkept] at hold
        rw [hnew]
        exact hold.replace hlost _
      · -- the newest file is not replayed
        have hbelow : ∀ f ∈ init, ¬ d.floor ≤ f.1 := fun f hf hge =>
          hle (le_trans hge (le_of_lt (hsorted.2.2 f hf last (List.mem_singleton_self _))))
        have hnone : init.filter (fun f => decide (d.floor ≤ f.1)) = [] :=
          List.filter_eq_nil_iff.mpr fun f hf => by simpa using hbelow f hf
        have hnew : (image.map fun b => (last.1, b)).toList.filter
            (fun f => decide (d.floor ≤ f.1)) = [] := by
          cases image <;> simp [hle]
        rw [hnone, hnew]
        exact .nil

end WalDir

/-! ### Every life -/

namespace WalStore.Clean

variable {s : WalStore} {torn : Bool}

/-- No WAL is newer than the append target. -/
theorem none_newer (h : s.Clean crc torn) {id : ℕ} (hlt : s.db.wal.id < id) :
    s.files id = none := by
  cases hf : s.files id with
  | none => rfl
  | some f =>
    obtain ⟨w, hw, rfl⟩ := h.known id f hf
    rcases WalStore.mem_wals.mp hw with hw | rfl
    · exact absurd (h.tidy.sealed_lt hw) (by omega)
    · exact absurd hlt (lt_irrefl _)

/-- Every other WAL ends on a record boundary. -/
theorem others_clean (h : s.Clean crc torn) {id : ℕ} {f : WalFile} (hf : s.files id = some f)
    (hne : id ≠ s.db.wal.id) : (readWal crc f.bytes).2 = .clean := by
  obtain ⟨w, hw, rfl⟩ := h.known id f hf
  rcases WalStore.mem_wals.mp hw with hsealed | rfl
  · obtain ⟨f', hf', hholds⟩ := h.sealedWals w hsealed
    rw [hf] at hf'
    rw [Option.some_inj.mp hf']
    exact hholds.clean (h.fits w hw)
  · exact absurd rfl hne

end WalStore.Clean

/-- **A crash** leaves a directory that recovery can replay. -/
theorem WritePath.dir_sound {s : WritePath} (h : s.store.Clean crc s.torn) (image : Option Bytes)
    (lost : Bytes → Bool) : (s.dir image lost).Sound crc := by
  have hsorted : (s.dir image lost).files.Pairwise fun a b => a.1 < b.1 := by
    refine List.pairwise_filterMap.mpr (List.pairwise_lt_range.imp fun hlt a ha b hb => ?_)
    obtain ⟨_, -, rfl⟩ := Option.map_eq_some_iff.mp ha
    obtain ⟨_, -, rfl⟩ := Option.map_eq_some_iff.mp hb
    exact hlt
  have hfile : ∀ {a : ℕ × Bytes}, a ∈ (s.dir image lost).files → a.1 ≠ s.store.db.wal.id →
      ∃ f, s.store.files a.1 = some f ∧ f.bytes = a.2 := fun {a} ha hne => by
    obtain ⟨id, -, ha⟩ := List.mem_filterMap.mp ha
    obtain ⟨b, hb, rfl⟩ := Option.map_eq_some_iff.mp ha
    rw [if_neg hne] at hb
    exact Option.map_eq_some_iff.mp hb
  refine ⟨hsorted, replays_of_clean (hsorted.filter _) fun a ha hlt => ?_⟩
  obtain ⟨b, hb, hlt⟩ := hlt
  have ha := (WalDir.mem_wals.mp ha).1
  have hb := (WalDir.mem_wals.mp hb).1
  -- the newest there can be is the append target
  have hle : b.1 ≤ s.store.db.wal.id := by
    by_contra hgt
    obtain ⟨f, hf, -⟩ := hfile hb (by omega)
    rw [h.none_newer (not_le.mp hgt)] at hf
    exact absurd hf (Option.some_ne_none f).symm
  have hne : a.1 ≠ s.store.db.wal.id := by omega
  obtain ⟨f, hf, hbytes⟩ := hfile ha hne
  rw [← hbytes]
  exact h.others_clean hf hne

namespace Life

/-- What holds all along. -/
def Inv (crc : Bytes → Fin (2 ^ 32)) : Life → Prop
  | .running s => s.store.Clean crc s.torn
  | .closed d => d.Sound crc

theorem inv_step {l l' : Life} {a : LifeAction} (h : l.Inv crc) (hok : l.Careful opts a)
    (hs : l.step crc opts a = some l') : l'.Inv crc := by
  cases l with
  | running s =>
    cases a with
    | path a =>
      obtain ⟨s', hs', rfl⟩ := Option.map_eq_some_iff.mp hs
      exact WritePath.step_clean h hok hs'
    | crash image lost =>
      obtain rfl := Option.some_inj.mp hs
      exact WritePath.dir_sound h image lost
    | reopen bad fresh stop db => exact absurd hs (Option.some_ne_none l').symm
  | closed d =>
    cases a with
    | path a => exact absurd hs (Option.some_ne_none l').symm
    | crash image lost =>
      obtain rfl := Option.some_inj.mp hs
      exact WalDir.crash_sound h image lost
    | reopen bad fresh stop db =>
      obtain ⟨hfresh, hs⟩ := Option.ite_none_right_eq_some.mp hs
      split at hs
      · obtain rfl := Option.some_inj.mp hs
        exact h
      · rename_i replayed hreplay
        cases stop with
        | some k =>
          obtain rfl := Option.some_inj.mp hs
          exact WalDir.open_sound h hfresh hreplay k
        | none =>
          obtain ⟨⟨hdb, -, -⟩, hs⟩ := Option.ite_none_right_eq_some.mp hs
          obtain rfl := Option.some_inj.mp hs
          exact WritePath.opened_clean crc hdb

theorem inv_of_reaches {l : Life} (h : (storeLife crc opts).Reaches (Careful opts) l) : l.Inv crc :=
  h.invariant ⟨.nil, .nil⟩ fun hi hok hs => inv_step hi hok hs

end Life

/-- **A store can be opened again**, over any number of processes, crashes and
opens that fail, when no rotation seals a WAL with a failed append and none fails
behind its new WAL file.  While a process runs no WAL is newer than the append
target and every other one is clean; what an open finds it does not refuse, and
if no value was lost all WALs but the newest are clean. -/
theorem reopenable {l : Life} (h : (storeLife crc opts).Reaches (Life.Careful opts) l) :
    (∀ s, l = .running s → (∀ id, s.store.db.wal.id < id → s.store.files id = none) ∧
      ∀ id f, s.store.files id = some f → id ≠ s.store.db.wal.id →
        (readWal crc f.bytes).2 = .clean) ∧
    ∀ d, l = .closed d →
      ((∀ p, d.lost p = false) → ∀ a ∈ d.wals, (∃ b ∈ d.wals, a.1 < b.1) →
        (readWal crc a.2).2 = .clean) ∧
      ∀ bad id len, d.replay crc bad ≠ .error (.sealedDamaged id len) := by
  have hinv := Life.inv_of_reaches h
  constructor
  · rintro s rfl
    exact ⟨fun id hlt => hinv.none_newer hlt, fun id f hf hne => hinv.others_clean hf hne⟩
  · rintro d rfl
    exact ⟨fun hlost a ha hlt => hinv.replays.clean_of_lt hlost (hinv.sorted.filter _) ha hlt,
      fun bad id len => hinv.replays.not_damaged bad id len⟩

/-! ### Concrete lives -/

namespace Life

def dir? : Life → Option WalDir
  | .closed d => some d
  | .running _ => none

theorem eq_closed {l : Life} {p : WalDir → Bool} (h : l.dir?.any p = true) :
    ∃ d, l = .closed d ∧ p d = true := by
  cases l with
  | running s => exact absurd h Bool.false_ne_true
  | closed d => exact ⟨d, rfl, h⟩

/-- A new store is opened, and runs so until it crashes. -/
def crashing (as : List PathAction) (image : Bytes) : List LifeAction :=
  .reopen (fun _ => none) (Db.init relaxedOptions).wal.id none (Db.init relaxedOptions) ::
    as.map .path ++ [.crash (some image) fun _ => false]

end Life

/-- A write, a flush call, and a write whose WAL append fails.  The first open
after the crash truncates the torn WAL and starts a fresh one, of which a second
crash leaves a byte. -/
def flushThenTorn : List LifeAction :=
  Life.crashing [.check (.direct (smallWrite 1 1)), .apply 0 .none, .forceRotate none,
    .check (.direct (smallWrite 2 2)), .apply 0 tornFault] [byte 1] ++
  [.reopen (fun _ => none) 9 (some 2) (Db.init relaxedOptions), .crash (some [byte 1])
    fun _ => false]

/-- Three WALs to replay, of which the newest is torn. -/
theorem reopenable_of_torn :
    ∃ d, (storeLife crc32 relaxedOptions).Reaches (Life.Careful relaxedOptions) (.closed d) ∧
    d.wals.map Prod.fst = [2, 3, 9] ∧ d.files.getLast? = some (9, [byte 1]) ∧
    ∀ bad id len, d.replay crc32 bad ≠ .error (.sealedDamaged id len) := by
  have hrun : ((storeLife crc32 relaxedOptions).replay (Life.Careful relaxedOptions) flushThenTorn
      (storeLife crc32 relaxedOptions).init).any (fun l => decide ((l.dir?.any fun d => decide
        (d.wals.map Prod.fst = [2, 3, 9] ∧ d.files.getLast? = some (9, [byte 1]))) =
          true)) = true := by
    decide +kernel
  obtain ⟨l, hreach, hdir⟩ := System.exists_reaches hrun
  obtain ⟨d, rfl, hd⟩ := Life.eq_closed hdir
  obtain ⟨hwals, hnewest⟩ := of_decide_eq_true hd
  exact ⟨d, hreach, hwals, hnewest, ((reopenable hreach).2 d rfl).2⟩

/-- A write, one whose WAL append fails after three bytes, and a flush call. -/
def tornThenFlush : List LifeAction :=
  Life.crashing [.check (.direct (smallWrite 1 1)), .apply 0 .none,
    .check (.direct (smallWrite 2 2)), .apply 0 tornFault, .forceRotate none] []

/-- **A flush seals a torn WAL**, and the store cannot be opened again. -/
theorem sealed_torn : ∃ d, (storeLife crc32 relaxedOptions).Reachable (.closed d) ∧
    d.replay crc32 (fun _ => none) = .error (.sealedDamaged 2 26) := by
  have hrun : ((storeLife crc32 relaxedOptions).run tornThenFlush
      (storeLife crc32 relaxedOptions).init).any (fun l => decide ((l.dir?.any fun d => decide
        (d.replay crc32 (fun _ => none) = .error (.sealedDamaged 2 26))) = true)) = true := by
    decide +kernel
  obtain ⟨l, hreach, hdir⟩ := System.exists_reachable hrun
  obtain ⟨d, rfl, hd⟩ := Life.eq_closed hdir
  exact ⟨d, hreach, of_decide_eq_true hd⟩

/-- A write, a flush call whose rotation fails, and another write; the crash
leaves one byte of the append target. -/
def writeBehindOrphan (op : RotateOp) : List LifeAction :=
  Life.crashing [.check (.direct (smallWrite 1 1)), .apply 0 .none,
    .forceRotate (some (op, "device")),
    .check (.direct (smallWrite 2 2)), .apply 0 .none] [byte 1]

/-- A rotation that fails behind its new WAL file leaves a newer WAL than the
append target, which takes another write and may tear. -/
theorem behind_orphan : ∀ op ∈ [RotateOp.dupWal, .syncWalDir], ∃ d,
    (storeLife crc32 relaxedOptions).Reachable (.closed d) ∧
      d.replay crc32 (fun _ => none) = .error (.sealedDamaged 2 0) := by
  intro op hop
  have hrun : ((storeLife crc32 relaxedOptions).run (writeBehindOrphan op)
      (storeLife crc32 relaxedOptions).init).any (fun l => decide ((l.dir?.any fun d => decide
        (d.replay crc32 (fun _ => none) = .error (.sealedDamaged 2 0))) = true)) = true := by
    rcases List.mem_pair.mp hop with rfl | rfl
    · decide +kernel
    · decide +kernel
  obtain ⟨l, hreach, hdir⟩ := System.exists_reachable hrun
  obtain ⟨d, rfl, hd⟩ := Life.eq_closed hdir
  exact ⟨d, hreach, of_decide_eq_true hd⟩

end Fluent31
