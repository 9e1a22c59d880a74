/-
Manifest commits on a failing file system (`db.rs`, `manifest.rs`, `io/mod.rs`).

`ManifestState::commit` writes `MANIFEST-<gen>`, syncs it and the directory,
replaces CURRENT (tmp, sync, rename, directory sync), and then sweeps older
generations.  Every step may fail, the process may die and the power may go at
any point.  Directory operations reach the disk in order, those since the last
directory sync maybe not; an unsynced file holds anything written to it since
its last sync.

* `manifest_named` — CURRENT names a complete manifest at every moment and
  after every crash, in every run in which no commit starts after one that
  failed behind the rename;
* `manifest_torn` — the retry after such a commit truncates the manifest CURRENT
  names.
-/
import Fluent31.Lib.System
import Mathlib.Logic.Function.Basic

namespace Fluent31

/-- The file operations of `manifest::save`, in order; from `createTmp` on they
are those of `atomic_write`. -/
inductive SaveStep
  /-- Create or truncate `MANIFEST-<gen>`. -/
  | create
  | write
  | sync
  | syncDir
  | createTmp
  | writeTmp
  | syncTmp
  | rename
  | syncCurrent
  deriving DecidableEq

namespace SaveStep

def next : SaveStep → Option SaveStep
  | create => some write
  | write => some sync
  | sync => some syncDir
  | syncDir => some createTmp
  | createTmp => some writeTmp
  | writeTmp => some syncTmp
  | syncTmp => some rename
  | rename => some syncCurrent
  | syncCurrent => none

/-- How many steps come before. -/
def index : SaveStep → ℕ
  | create => 0
  | write => 1
  | sync => 2
  | syncDir => 3
  | createTmp => 4
  | writeTmp => 5
  | syncTmp => 6
  | rename => 7
  | syncCurrent => 8

end SaveStep

/-- The names in the store directory: the generation CURRENT names (`none` when
its text is incomplete) and the manifests that are there. -/
structure DirImage where
  current : Option ℕ
  linked : List ℕ
  deriving DecidableEq

def DirImage.link (im : DirImage) (gen : ℕ) : DirImage :=
  if gen ∈ im.linked then im else { im with linked := gen :: im.linked }

inductive CommitPhase (α : Type)
  | idle
  | saving (data : α) (step : SaveStep)
  /-- Deleting stale generations, after a commit or (`opening`) at open. -/
  | sweeping (opening : Bool)

structure ManifestState (α : Type) where
  gen : ℕ
  data : α
  phase : CommitPhase α

structure ManifestDir (α : Type) where
  view : DirImage
  /-- What a power loss may leave of the names: the last synced image and every
  later one. -/
  images : List DirImage
  /-- A manifest's data; `none` while the file is incomplete. -/
  content : ℕ → Option α
  /-- What a power loss may leave of a manifest. -/
  leaves : ℕ → List (Option α)
  /-- The text of CURRENT.tmp, and whether it is synced. -/
  tmp : Option ℕ
  tmpSynced : Bool
  /-- The process, when there is one. -/
  state : Option (ManifestState α)
  /-- The data of the last commit that returned `Ok`, and of the commits since. -/
  committed : α
  attempts : List α

inductive ManifestAction (α : Type)
  | begin (data : α)
  /-- The next file operation of the commit. -/
  | op (ok : Bool)
  | remove (gen : ℕ)
  | swept
  /-- The process dies. -/
  | kill
  /-- The power goes: one image and one content for each manifest is left. -/
  | lose (i : ℕ) (pick : ℕ → ℕ)
  | open

namespace ManifestDir

variable {α : Type} (s : ManifestDir α)

/-- A directory operation. -/
def rename (im : DirImage) : ManifestDir α := { s with view := im, images := s.images ++ [im] }

/-- A write to a manifest. -/
def put (gen : ℕ) (c : Option α) : ManifestDir α :=
  { s with
    content := Function.update s.content gen c
    leaves := Function.update s.leaves gen (s.leaves gen ++ [c]) }

/-- A file operation that succeeds. -/
def perform (gen : ℕ) (data : α) : SaveStep → ManifestDir α
  | .create => (s.put gen none).rename (s.view.link gen)
  | .write => s.put gen (some data)
  | .sync => { s with leaves := Function.update s.leaves gen [s.content gen] }
  | .syncDir | .syncCurrent => { s with images := [s.view] }
  | .createTmp => { s with tmp := none, tmpSynced := false }
  | .writeTmp => { s with tmp := some gen }
  | .syncTmp => { s with tmpSynced := true }
  | .rename =>
    (if s.tmpSynced then s else s.rename { s.view with current := none }).rename
      { s.view with current := s.tmp }

/-- What a power loss leaves of a manifest. -/
def left (pick : ℕ → ℕ) (gen : ℕ) : Option α := (s.leaves gen)[pick gen]?.getD (s.content gen)

def step : ManifestAction α → Option (ManifestDir α)
  | .begin data =>
    match s.state with
    | some ⟨gen, old, .idle⟩ =>
      some
        { s with state := some ⟨gen, old, .saving data .create⟩, attempts := s.attempts ++ [data] }
    | _ => none
  | .op ok =>
    match s.state with
    | some ⟨gen, old, .saving data step⟩ =>
      if ok = true then
        match step.next with
        | some step' =>
          some { s.perform (gen + 1) data step with state := some ⟨gen, old, .saving data step'⟩ }
        | none =>
          some { s.perform (gen + 1) data step with
            state := some ⟨gen + 1, data, .sweeping false⟩
            committed := data
            attempts := [] }
      else some { s with state := some ⟨gen, old, .idle⟩ }
    | _ => none
  | .remove stale =>
    match s.state with
    | some ⟨gen, _, .sweeping opening⟩ =>
      if (if opening = true then stale ≠ gen else stale < gen) ∧ stale ∈ s.view.linked then
        some (s.rename { s.view with linked := s.view.linked.erase stale })
      else none
    | _ => none
  | .swept =>
    match s.state with
    | some ⟨gen, data, .sweeping _⟩ => some { s with state := some ⟨gen, data, .idle⟩ }
    | _ => none
  | .kill => some { s with state := none }
  | .lose i pick =>
    (s.images[i]?).map fun im =>
      { s with
        view := im
        images := [im]
        content := s.left pick
        leaves := fun gen => [s.left pick gen]
        tmp := none
        tmpSynced := false
        state := none }
  | .open =>
    match s.state with
    | some _ => none
    | none =>
      s.view.current.bind fun gen =>
        if gen ∈ s.view.linked then
          (s.content gen).map fun data => { s with state := some ⟨gen, data, .sweeping true⟩ }
        else none

/-- A store directory after `init_fresh`. -/
def fresh (data : α) : ManifestDir α where
  view := ⟨some 1, [1]⟩
  images := [⟨some 1, [1]⟩]
  content := Function.update (fun _ => none) 1 (some data)
  leaves := Function.update (fun _ => [none]) 1 [some data]
  tmp := none
  tmpSynced := false
  state := none
  committed := data
  attempts := []

/-- No commit starts while CURRENT names a newer generation than the engine's,
which is what a commit that fails behind the rename leaves. -/
def Unflipped (s : ManifestDir α) : ManifestAction α → Prop
  | .begin _ => ∀ st ∈ s.state.toList, s.view.current = some st.gen
  | _ => True

instance (s : ManifestDir α) (a : ManifestAction α) : Decidable (s.Unflipped a) := by
  unfold Unflipped
  split <;> infer_instance

end ManifestDir

/-- Manifest commits as a transition system. -/
def manifestDir {α : Type} (data : α) : System (ManifestDir α) (ManifestAction α) :=
  ⟨ManifestDir.fresh data, ManifestDir.step⟩

/-! ### The invariant -/

variable {α : Type} {s s' : ManifestDir α}

/-- The image's CURRENT names a complete manifest of the last acknowledged
commit or a later one, and no power loss can spoil it. -/
def ManifestDir.Named (s : ManifestDir α) (im : DirImage) : Prop :=
  ∃ gen data, im.current = some gen ∧ gen ∈ im.linked ∧ s.content gen = some data ∧
    s.leaves gen = [some data] ∧ data ∈ s.committed :: s.attempts

/-- How far a commit of generation `gen + 1` is. -/
structure ManifestDir.Saving (s : ManifestDir α) (gen : ℕ) (data : α) (step : SaveStep) : Prop where
  attempted : data ∈ s.attempts
  current : step.index ≤ 7 → s.view.current = some gen
  linked : 1 ≤ step.index → gen + 1 ∈ s.view.linked
  written : 2 ≤ step.index → s.content (gen + 1) = some data
  synced : 3 ≤ step.index → s.leaves (gen + 1) = [some data]
  tmp : 6 ≤ step.index → step.index ≤ 7 → s.tmp = some (gen + 1)
  tmpSynced : step.index = 7 → s.tmpSynced = true
  flipped : step.index = 8 → s.view.current = some (gen + 1)

/-- What holds of the process. -/
def ManifestDir.Phased (s : ManifestDir α) (st : ManifestState α) : Prop :=
  match st.phase with
  | .idle => s.view.current = some st.gen ∨ s.view.current = some (st.gen + 1)
  | .saving data step => s.Saving st.gen data step
  | .sweeping _ => s.view.current = some st.gen

structure ManifestDir.Sound (s : ManifestDir α) : Prop where
  named : ∀ im ∈ s.images, s.Named im
  view : s.view ∈ s.images
  newest : ∀ im ∈ s.images, ∀ gen live, im.current = some gen →
    s.view.current = some live → gen ≤ live
  phased : ∀ st ∈ s.state, s.Phased st

namespace ManifestDir

theorem Named.mono {im : DirImage} (h : s.Named im) (hcontent : s'.content = s.content)
    (hleaves : s'.leaves = s.leaves)
    (hdata : ∀ d ∈ s.committed :: s.attempts, d ∈ s'.committed :: s'.attempts) :
    s'.Named im := by
  obtain ⟨gen, data, hcur, hlink, hcont, hleave, hmem⟩ := h
  exact ⟨gen, data, hcur, hlink, hcontent ▸ hcont, hleaves ▸ hleave, hdata _ hmem⟩

/-- Images that name another manifest do not see a write. -/
theorem Named.put {im : DirImage} (h : s.Named im) {gen : ℕ} (hne : im.current ≠ some gen)
    (c : Option α) :
    (s.put gen c).Named im := by
  obtain ⟨g, data, hcur, hlink, hcont, hleave, hmem⟩ := h
  have hg : g ≠ gen := fun heq => hne (heq ▸ hcur)
  exact ⟨g, data, hcur, hlink, (Function.update_of_ne hg ..).trans hcont,
    (Function.update_of_ne hg ..).trans hleave, hmem⟩

theorem mem_link {im : DirImage} {gen g : ℕ} :
    g ∈ (im.link gen).linked ↔ g = gen ∨ g ∈ im.linked := by
  unfold DirImage.link
  split
  · rename_i hmem
    exact ⟨Or.inr, fun h => h.elim (fun heq => heq ▸ hmem) id⟩
  · exact List.mem_cons

theorem link_current (im : DirImage) (gen : ℕ) : (im.link gen).current = im.current := by
  unfold DirImage.link
  split <;> rfl

namespace Sound

theorem fresh (data : α) : Sound (ManifestDir.fresh data) where
  named := by
    intro im him
    obtain rfl := List.mem_singleton.mp him
    exact ⟨1, data, rfl, List.mem_cons_self, rfl, rfl, List.mem_cons_self⟩
  view := List.mem_cons_self
  newest := by
    intro im him gen live hgen hlive
    obtain rfl := List.mem_singleton.mp him
    exact Nat.le_of_eq (Option.some_inj.mp (hgen.symm.trans hlive))
  phased := fun st hst => absurd hst (by simp [ManifestDir.fresh])

/-- While CURRENT names the engine's generation, no image names the next one. -/
theorem ne_next (h : s.Sound) {gen : ℕ} (hcur : s.view.current = some gen) :
    ∀ im ∈ s.images, im.current ≠ some (gen + 1) := by
  intro im him heq
  have := h.newest im him _ _ heq hcur
  omega

/-- A directory operation that keeps CURRENT and does not take its manifest away. -/
theorem relinked (h : s.Sound) {im : DirImage} (hcur : im.current = s.view.current)
    (hlink : ∀ g, s.view.current = some g → g ∈ im.linked) : ∀ im' ∈ s.images ++ [im], s.Named im' ∧
      ∀ gen live, im'.current = some gen → im.current = some live → gen ≤ live := by
  intro im' him'
  rcases List.mem_append.mp him' with him' | him'
  · exact ⟨h.named im' him', fun gen live hgen hlive => h.newest im' him' gen live hgen
      (hcur ▸ hlive)⟩
  · obtain rfl := List.mem_singleton.mp him'
    obtain ⟨g, data, hg, -, hcont, hleave, hmem⟩ := h.named s.view h.view
    refine ⟨⟨g, data, hcur.trans hg, hlink g hg, hcont, hleave, hmem⟩,
      fun gen live hgen hlive => ?_⟩
    exact Nat.le_of_eq (Option.some_inj.mp (hgen.symm.trans hlive))

/-- The file operations of a commit. -/
theorem performed (h : s.Sound) {gen : ℕ} {old data : α} {step step' : SaveStep}
    (hst : s.state = some ⟨gen, old, .saving data step⟩) (hnext : step.next = some step') :
    Sound { s.perform (gen + 1) data step with state := some ⟨gen, old, .saving data step'⟩ } := by
  have hsaving : s.Saving gen data step := h.phased _ (Option.mem_def.mpr hst)
  cases step with
  | create =>
    obtain rfl := Option.some_inj.mp hnext
    have hcur := hsaving.current (by decide)
    -- a new name: CURRENT keeps the one it has
    have hnamed := h.relinked (link_current s.view (gen + 1)) fun g hg => by
      obtain ⟨g', -, hg', hlink, -⟩ := h.named s.view h.view
      obtain rfl := Option.some_inj.mp (hg.symm.trans hg')
      exact mem_link.mpr (Or.inr hlink)
    refine ⟨fun im him => ?_, List.mem_append_right _ List.mem_cons_self,
      fun im him => (hnamed im him).2, fun st hs => ?_⟩
    · refine ((hnamed im him).1.put ?_ none).mono rfl rfl fun d hd => hd
      rcases List.mem_append.mp him with him | him
      · exact h.ne_next hcur im him
      · rw [List.mem_singleton.mp him, link_current]
        exact h.ne_next hcur _ h.view
    · obtain rfl := Option.some_inj.mp hs
      exact ⟨hsaving.attempted, fun _ => (link_current _ _).trans hcur, fun _ =>
        mem_link.mpr (Or.inl rfl),
        by simp [SaveStep.index], by simp [SaveStep.index], by simp [SaveStep.index],
        by simp [SaveStep.index], by simp [SaveStep.index]⟩
  | write =>
    obtain rfl := Option.some_inj.mp hnext
    have hcur := hsaving.current (by decide)
    refine ⟨fun im him => ?_, h.view, h.newest, fun st hs => ?_⟩
    · exact ((h.named im him).put (h.ne_next hcur im him) (some data)).mono rfl rfl fun d hd => hd
    · obtain rfl := Option.some_inj.mp hs
      exact ⟨hsaving.attempted, fun _ => hcur, fun _ => hsaving.linked (by decide),
        fun _ => Function.update_self .., by simp [SaveStep.index], by simp [SaveStep.index],
        by simp [SaveStep.index], by simp [SaveStep.index]⟩
  | sync =>
    obtain rfl := Option.some_inj.mp hnext
    have hcur := hsaving.current (by decide)
    have hwritten := hsaving.written (by decide)
    refine ⟨fun im him => ?_, h.view, h.newest, fun st hs => ?_⟩
    · -- the file that is synced is not the one CURRENT names
      obtain ⟨g, d, hg, hlink, hcont, hleave, hmem⟩ := h.named im him
      have hne : g ≠ gen + 1 := fun heq => h.ne_next hcur im him (heq ▸ hg)
      exact ⟨g, d, hg, hlink, hcont, (Function.update_of_ne hne ..).trans hleave, hmem⟩
    · obtain rfl := Option.some_inj.mp hs
      exact ⟨hsaving.attempted, fun _ => hcur, fun _ => hsaving.linked (by decide),
        fun _ => hwritten,
        fun _ => (Function.update_self ..).trans (by rw [hwritten]), by simp [SaveStep.index],
        by simp [SaveStep.index], by simp [SaveStep.index]⟩
  | syncDir =>
    obtain rfl := Option.some_inj.mp hnext
    refine ⟨fun im him => ?_, List.mem_cons_self,
      fun im him gen live hgen hlive => ?_, fun st hs => ?_⟩
    · obtain rfl := List.mem_singleton.mp him
      exact (h.named _ h.view).mono rfl rfl fun d hd => hd
    · obtain rfl := List.mem_singleton.mp him
      exact Nat.le_of_eq (Option.some_inj.mp (hgen.symm.trans hlive))
    · obtain rfl := Option.some_inj.mp hs
      exact ⟨hsaving.attempted, fun _ => hsaving.current (by decide), fun _ =>
        hsaving.linked (by decide),
        fun _ => hsaving.written (by decide), fun _ => hsaving.synced (by decide),
        by simp [SaveStep.index], by simp [SaveStep.index], by simp [SaveStep.index]⟩
  | createTmp =>
    obtain rfl := Option.some_inj.mp hnext
    refine ⟨fun im him => (h.named im him).mono rfl rfl fun d hd => hd, h.view, h.newest,
      fun st hs => ?_⟩
    obtain rfl := Option.some_inj.mp hs
    exact ⟨hsaving.attempted, fun _ => hsaving.current (by decide), fun _ =>
      hsaving.linked (by decide),
      fun _ => hsaving.written (by decide), fun _ => hsaving.synced (by decide),
      by simp [SaveStep.index], by simp [SaveStep.index], by simp [SaveStep.index]⟩
  | writeTmp =>
    obtain rfl := Option.some_inj.mp hnext
    refine ⟨fun im him => (h.named im him).mono rfl rfl fun d hd => hd, h.view, h.newest,
      fun st hs => ?_⟩
    obtain rfl := Option.some_inj.mp hs
    exact ⟨hsaving.attempted, fun _ => hsaving.current (by decide), fun _ =>
      hsaving.linked (by decide),
      fun _ => hsaving.written (by decide), fun _ => hsaving.synced (by decide), fun _ _ => rfl,
      by simp [SaveStep.index], by simp [SaveStep.index]⟩
  | syncTmp =>
    obtain rfl := Option.some_inj.mp hnext
    refine ⟨fun im him => (h.named im him).mono rfl rfl fun d hd => hd, h.view, h.newest,
      fun st hs => ?_⟩
    obtain rfl := Option.some_inj.mp hs
    exact ⟨hsaving.attempted, fun _ => hsaving.current (by decide), fun _ =>
      hsaving.linked (by decide),
      fun _ => hsaving.written (by decide), fun _ => hsaving.synced (by decide),
      fun _ _ => hsaving.tmp (by decide) (by decide), fun _ => rfl, by simp [SaveStep.index]⟩
  | rename =>
    obtain rfl := Option.some_inj.mp hnext
    have hcur := hsaving.current (by decide)
    have htmp := hsaving.tmp (by decide) (by decide)
    -- the new image names the new generation, whose file is linked, written and synced
    have hperform : s.perform (gen + 1) data .rename =
        s.rename { s.view with current := some (gen + 1) } := by
      rw [perform, if_pos (hsaving.tmpSynced rfl), htmp]
    rw [hperform]
    refine ⟨fun im him => ?_, List.mem_append_right _ List.mem_cons_self,
      fun im him g live hg hlive => ?_,
      fun st hs => ?_⟩
    · rcases List.mem_append.mp him with him | him
      · exact (h.named im him).mono rfl rfl fun d hd => hd
      · obtain rfl := List.mem_singleton.mp him
        exact ⟨gen + 1, data, rfl, hsaving.linked (by decide), hsaving.written (by decide),
          hsaving.synced (by decide), List.mem_cons_of_mem _ hsaving.attempted⟩
    · obtain rfl := Option.some_inj.mp hlive
      rcases List.mem_append.mp him with him | him
      · exact Nat.le_trans (h.newest im him g gen hg hcur) (Nat.le_succ _)
      · obtain rfl := List.mem_singleton.mp him
        exact Nat.le_of_eq (Option.some_inj.mp hg).symm
    · obtain rfl := Option.some_inj.mp hs
      exact ⟨hsaving.attempted, by simp [SaveStep.index], fun _ => hsaving.linked (by decide),
        fun _ => hsaving.written (by decide), fun _ => hsaving.synced (by decide),
        by simp [SaveStep.index], by simp [SaveStep.index], fun _ => rfl⟩
  | syncCurrent => exact absurd hnext (by simp [SaveStep.next])

end Sound

theorem sound_step (h : s.Sound) {a : ManifestAction α} (hok : s.Unflipped a)
    (hs : s.step a = some s') :
    s'.Sound := by
  have hattempts : ∀ data, ∀ d ∈ s.committed :: s.attempts,
      d ∈ s.committed :: (s.attempts ++ [data]) := by
    intro data d hd
    rcases List.mem_cons.mp hd with rfl | hd
    · exact List.mem_cons_self
    · exact List.mem_cons_of_mem _ (List.mem_append_left _ hd)
  cases a with
  | begin data =>
    simp only [ManifestDir.step] at hs
    split at hs
    · rename_i gen old hst
      obtain rfl := Option.some_inj.mp hs
      refine ⟨fun im him => (h.named im him).mono rfl rfl (hattempts data), h.view, h.newest,
        fun st hst' => ?_⟩
      obtain rfl := Option.some_inj.mp hst'
      have hcur : s.view.current = some gen := hok _ (Option.mem_toList.mpr hst)
      exact ⟨List.mem_append_right _ List.mem_cons_self, fun _ => hcur, by simp [SaveStep.index],
        by simp [SaveStep.index], by simp [SaveStep.index], by simp [SaveStep.index],
        by simp [SaveStep.index], by simp [SaveStep.index]⟩
    · exact absurd hs (by simp)
  | op ok =>
    simp only [ManifestDir.step] at hs
    split at hs
    · rename_i gen old data step hst
      have hsaving : s.Saving gen data step := h.phased _ (Option.mem_def.mpr hst)
      split at hs
      · split at hs
        · rename_i step' hnext
          exact Option.some_inj.mp hs ▸ h.performed hst hnext
        · rename_i hnext
          obtain rfl : step = .syncCurrent := by
            cases step <;> first | rfl | exact absurd hnext (by simp [SaveStep.next])
          obtain rfl := Option.some_inj.mp hs
          have hcur := hsaving.flipped rfl
          refine ⟨fun im him => ?_, List.mem_cons_self,
            fun im him g live hg hlive => ?_, fun st hst' => ?_⟩
          · obtain rfl := List.mem_singleton.mp him
            obtain ⟨g, d, hg, hlink, hcont, hleave, -⟩ := h.named _ h.view
            obtain rfl := Option.some_inj.mp (hg.symm.trans hcur)
            obtain rfl := Option.some_inj.mp (hcont.symm.trans (hsaving.written (by decide)))
            exact ⟨_, _, hg, hlink, hcont, hleave, List.mem_cons_self⟩
          · obtain rfl := List.mem_singleton.mp him
            exact Nat.le_of_eq (Option.some_inj.mp (hg.symm.trans hlive))
          · obtain rfl := Option.some_inj.mp hst'
            exact hcur
      · obtain rfl := Option.some_inj.mp hs
        refine ⟨h.named, h.view, h.newest, fun st hst' => ?_⟩
        obtain rfl := Option.some_inj.mp hst'
        -- a commit that fails behind the rename leaves CURRENT ahead
        by_cases hflip : step.index ≤ 7
        · exact Or.inl (hsaving.current hflip)
        · exact Or.inr (hsaving.flipped (by cases step <;> simp [SaveStep.index] at hflip ⊢))
    · exact absurd hs (by simp)
  | remove stale =>
    simp only [ManifestDir.step] at hs
    split at hs
    · rename_i gen data opening hst
      simp only [Option.ite_none_right_eq_some] at hs
      obtain ⟨⟨hstale, -⟩, hs⟩ := hs
      obtain rfl := Option.some_inj.mp hs
      have hcur : s.view.current = some gen := h.phased _ (Option.mem_def.mpr hst)
      have hne : gen ≠ stale := by
        rintro rfl
        cases opening <;> simp at hstale
      have hcurrent : { s.view with linked := s.view.linked.erase stale }.current =
        s.view.current := rfl
      have hnamed := h.relinked hcurrent fun g hg => by
        obtain ⟨g', -, hg', hlink, -⟩ := h.named s.view h.view
        obtain rfl := Option.some_inj.mp (hg.symm.trans hg')
        obtain rfl := Option.some_inj.mp (hg.symm.trans hcur)
        exact (List.mem_erase_of_ne hne).mpr hlink
      refine ⟨fun im him => (hnamed im him).1.mono rfl rfl fun d hd => hd,
        List.mem_append_right _ List.mem_cons_self, fun im him => (hnamed im him).2,
          fun st hst' => ?_⟩
      obtain rfl := Option.some_inj.mp (hst.symm.trans hst')
      exact hcur
    · exact absurd hs (by simp)
  | swept =>
    simp only [ManifestDir.step] at hs
    split at hs
    · rename_i gen data opening hst
      obtain rfl := Option.some_inj.mp hs
      refine ⟨h.named, h.view, h.newest, fun st hst' => ?_⟩
      obtain rfl := Option.some_inj.mp hst'
      have hcur : s.view.current = some gen := h.phased _ (Option.mem_def.mpr hst)
      exact Or.inl hcur
    · exact absurd hs (by simp)
  | kill =>
    obtain rfl := Option.some_inj.mp hs
    exact ⟨h.named, h.view, h.newest, fun st hst' => absurd hst' (by simp)⟩
  | lose i pick =>
    obtain ⟨im, him, rfl⟩ := Option.map_eq_some_iff.mp hs
    refine ⟨fun im' him' => ?_, List.mem_cons_self, fun im' him' gen live hgen hlive => ?_,
      fun st hst' => absurd hst' (by simp)⟩
    · obtain rfl := List.mem_singleton.mp him'
      obtain ⟨gen, data, hcur, hlink, hcont, hleave, hmem⟩ := h.named im' (List.mem_of_getElem? him)
      have hleft : s.left pick gen = some data := by
        unfold left
        rw [hleave, hcont]
        cases pick gen <;> rfl
      exact ⟨gen, data, hcur, hlink, hleft, congrArg (fun c => [c]) hleft, hmem⟩
    · obtain rfl := List.mem_singleton.mp him'
      exact Nat.le_of_eq (Option.some_inj.mp (hgen.symm.trans hlive))
  | «open» =>
    simp only [ManifestDir.step] at hs
    split at hs
    · exact absurd hs (by simp)
    · obtain ⟨gen, hcur, hs⟩ := Option.bind_eq_some_iff.mp hs
      simp only [Option.ite_none_right_eq_some] at hs
      obtain ⟨data, -, rfl⟩ := Option.map_eq_some_iff.mp hs.2
      refine ⟨h.named, h.view, h.newest, fun st hst' => ?_⟩
      obtain rfl := Option.some_inj.mp hst'
      exact hcur

end ManifestDir

open ManifestDir in
/-- **Manifest commits are atomic over retries**, in every run in which no
commit starts after one that failed behind the rename.  Whatever CURRENT says,
now and after a power loss, it names a complete manifest of the last commit
that returned `Ok` or of a later one, and a restart loads it; a commit does not
write to a manifest that CURRENT may name, and a sweep does not delete the one
it names. -/
theorem manifest_named {data : α} (h : (manifestDir data).Reaches Unflipped s) :
    s.view ∈ s.images ∧ (∀ im ∈ s.images, s.Named im) ∧
    (s.state = none → (s.step .open).isSome = true) ∧
    (∀ gen old d step, s.state = some ⟨gen, old, .saving d step⟩ → step = .create ∨ step = .write →
      ∀ im ∈ s.images, im.current ≠ some (gen + 1)) ∧
    ∀ gen, (s.step (.remove gen)).isSome = true → s.view.current ≠ some gen := by
  have hsound : s.Sound :=
    h.invariant (Sound.fresh data) fun hs hok hstep => sound_step hs hok hstep
  refine ⟨hsound.view, hsound.named, fun hstate => ?_,
    fun gen old d step hst hstep => ?_, fun gen hsome => ?_⟩
  · obtain ⟨gen, d, hcur, hlink, hcont, -⟩ := hsound.named _ hsound.view
    simp [ManifestDir.step, hstate, hcur, hlink, hcont]
  · have hsaving : s.Saving gen d step := hsound.phased _ (Option.mem_def.mpr hst)
    exact hsound.ne_next (hsaving.current (by rcases hstep with rfl | rfl <;> decide))
  · obtain ⟨s', hs⟩ := Option.isSome_iff_exists.mp hsome
    simp only [ManifestDir.step] at hs
    split at hs
    · rename_i live d opening hst
      simp only [Option.ite_none_right_eq_some] at hs
      have hcur : s.view.current = some live := hsound.phased _ (Option.mem_def.mpr hst)
      rw [hcur]
      rintro heq
      obtain rfl := Option.some_inj.mp heq
      have hstale := hs.1.1
      cases opening <;> simp at hstale
    · exact absurd hs (by simp)

/-- The file operations of one commit. -/
def commitOps (ok : List Bool) : List (ManifestAction ℕ) := ok.map .op

/-- A commit fails behind the rename, and the power goes in front of its last
directory sync. -/
theorem manifest_named_of_flipped :
    ∃ s : ManifestDir ℕ, s.view.current = some 2 ∧ s.Named s.view := by
  have hrun : ((manifestDir 10).replay ManifestDir.Unflipped ([.open, .swept, .begin 11] ++
      commitOps (List.replicate 8 true ++ [false]) ++ [.lose 1 (fun _ => 0)])
        (manifestDir 10).init).any
      (fun s => decide (s.view.current = some 2)) = true := by
    decide +kernel
  obtain ⟨s, hreach, hcur⟩ := System.exists_reaches hrun
  obtain ⟨hview, hnamed, -⟩ := manifest_named hreach
  exact ⟨s, hcur, hnamed _ hview⟩

/-- A commit fails at its last directory sync, after CURRENT was replaced; the
retry truncates the manifest that CURRENT names. -/
theorem manifest_torn : ¬ ∀ (data : ℕ) (s : ManifestDir ℕ), (manifestDir data).Reachable s →
    ∃ gen d, s.view.current = some gen ∧ s.content gen = some d := by
  intro hall
  have hrun : ((manifestDir 10).run ([.open, .swept, .begin 11] ++
      commitOps (List.replicate 8 true ++ [false]) ++ [.begin 12, .op true])
        (manifestDir 10).init).any
      (fun s => decide (s.view.current.bind s.content = none)) = true := by
    decide +kernel
  obtain ⟨s, hreach, hnone⟩ := System.exists_reachable hrun
  obtain ⟨gen, d, hcur, hcont⟩ := hall 10 s hreach
  rw [hcur, Option.bind_some, hcont] at hnone
  exact absurd hnone (by simp)

end Fluent31
