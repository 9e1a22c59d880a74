/-
What a compaction slice writes (`RunningJob::run_slice`).

`survivors` reads the drop rule as a function on the merged versions.  A
running job keeps, over any number of slices, that what it has written and
what it will still write are together the survivors of its inputs
(`RunningJob.Progress`).

* `survivors_gone` — a version the rule drops is shadowed at or below the
  watermark, or is a tombstone no run behind the output lies under;
* `sliceLoop_spec` — a slice keeps the progress of its job, and an exhausted
  one has written all survivors.
-/
import Fluent31.Compaction

namespace Fluent31

open Ordered Mvcc

/-- The drop rule: whether a version is kept, and whether the newest version of
its key at or below the watermark has been seen. -/
def dropRule (job : Job) (watermark : ℕ) (cur : Option Bytes) (seen : Bool) (e : Entry) :
    Bool × Bool :=
  let seen := if cur = some e.ukey then seen else false
  if watermark < e.seq then (true, seen)
  else if seen then (false, true)
  else (!(decide (e.kind = .delete) && !job.olderMayContain e.ukey), true)

/-- What the drop rule keeps of the merged versions. -/
def survivors (job : Job) (watermark : ℕ) : Option Bytes → Bool → List Entry → List Entry
  | _, _, [] => []
  | cur, seen, e :: l =>
    let (keep, seen) := dropRule job watermark cur seen e
    if keep then e :: survivors job watermark (some e.ukey) seen l
    else survivors job watermark (some e.ukey) seen l

variable {job : Job} {w : ℕ} {cur : Option Bytes} {seen : Bool} {l : List Entry} {e f : Entry}

theorem survivors_sublist : (survivors job w cur seen l).Sublist l := by
  induction l generalizing cur seen with
  | nil => exact .slnil
  | cons a l ih =>
    simp only [survivors]
    split
    · exact ih.cons_cons a
    · exact ih.cons a

/-- Merged versions: grouped by user key, newest first. -/
def Grouped (l : List Entry) : Prop :=
  l.Pairwise fun a b => a.ukey < b.ukey ∨ a.ukey = b.ukey ∧ b.seq < a.seq

/-- Once the newest version of the current key at or below the watermark has
been seen, only versions above the watermark follow. -/
theorem survivors_seen {k : Bytes} (hg : Grouped l) (hk : ∀ a ∈ l, k ≤ a.ukey)
    (hf : f ∈ survivors job w (some k) true l) (hfk : f.ukey = k) : w < f.seq := by
  induction l with
  | nil => exact absurd hf List.not_mem_nil
  | cons a l ih =>
    obtain ⟨ha, hl⟩ := List.pairwise_cons.mp hg
    by_cases hak : a.ukey = k
    · subst hak
      have hrest : f ∈ survivors job w (some a.ukey) true l → w < f.seq := fun hf =>
        ih hl (fun b hb => hk b (List.mem_cons_of_mem _ hb)) hf
      simp only [survivors, dropRule, if_true] at hf
      by_cases hw : w < a.seq
      · simp only [if_pos hw, if_true] at hf
        rcases List.mem_cons.mp hf with rfl | hf
        · exact hw
        · exact hrest hf
      · simp only [if_neg hw, Bool.false_eq_true, if_false] at hf
        exact hrest hf
    · -- later versions belong to larger keys
      have hlt : k < a.ukey := lt_of_le_of_ne (hk a List.mem_cons_self) fun h => hak h.symm
      rcases List.mem_cons.mp (survivors_sublist.subset hf) with rfl | hf
      · exact absurd hfk hak
      · rcases ha f hf with h | ⟨h, -⟩
        · exact absurd (hfk ▸ h) (not_lt_of_gt hlt)
        · exact absurd (h.trans hfk) hak

/-- **What the drop rule drops.** -/
theorem survivors_gone_from (hg : Grouped l) (he : e ∈ l) (hgone : e ∉ survivors job w cur seen l) :
    e.seq ≤ w ∧
      ((cur = some e.ukey ∧ seen = true) ∨
      (∃ f ∈ l, f.ukey = e.ukey ∧ e.seq < f.seq ∧ f.seq ≤ w) ∨
      (e.kind = .delete ∧ job.olderMayContain e.ukey = false ∧
        ∀ f ∈ survivors job w cur seen l, f.ukey = e.ukey → w < f.seq)) := by
  induction l generalizing cur seen with
  | nil => exact absurd he List.not_mem_nil
  | cons a l ih =>
    obtain ⟨ha, hl⟩ := List.pairwise_cons.mp hg
    -- the rest's verdict, with the rule's state after `a`
    have hrest : ∀ {seen'}, e ∈ l → e ∉ survivors job w (some a.ukey) seen' l →
        e.seq ≤ w ∧ ((a.ukey = e.ukey ∧ seen' = true) ∨
          (∃ f ∈ a :: l, f.ukey = e.ukey ∧ e.seq < f.seq ∧ f.seq ≤ w) ∨
          (e.kind = .delete ∧ job.olderMayContain e.ukey = false ∧
            ∀ f ∈ survivors job w (some a.ukey) seen' l, f.ukey = e.ukey → w < f.seq)) := by
      intro seen' hel hgone'
      obtain ⟨hle, ⟨hcur, hs⟩ | ⟨f, hf, hkey⟩ | hdead⟩ := ih hl hel hgone'
      · exact ⟨hle, Or.inl ⟨Option.some_inj.mp hcur, hs⟩⟩
      · exact ⟨hle, Or.inr (Or.inl ⟨f, List.mem_cons_of_mem _ hf, hkey⟩)⟩
      · exact ⟨hle, Or.inr (Or.inr hdead)⟩
    simp only [survivors, dropRule] at hgone ⊢
    by_cases hw : w < a.seq
    · -- above the watermark: kept verbatim
      simp only [if_pos hw, if_true] at hgone ⊢
      obtain ⟨hea, hgone⟩ := not_or.mp (fun h => hgone (List.mem_cons.mpr h))
      have hel := (List.mem_cons.mp he).resolve_left hea
      obtain ⟨hle, ⟨hak, hs⟩ | hshadow | ⟨hd, ho, hall⟩⟩ := hrest hel hgone
      · by_cases hc : cur = some a.ukey
        · rw [if_pos hc] at hs
          exact ⟨hle, Or.inl ⟨hc.trans (by rw [hak]), hs⟩⟩
        · rw [if_neg hc] at hs
          exact absurd hs (by simp)
      · exact ⟨hle, Or.inr (Or.inl hshadow)⟩
      · refine ⟨hle, Or.inr (Or.inr ⟨hd, ho, fun f hf hfk => ?_⟩)⟩
        rcases List.mem_cons.mp hf with rfl | hf
        · exact hw
        · exact hall f hf hfk
    · have haw : a.seq ≤ w := not_lt.mp hw
      simp only [if_neg hw] at hgone ⊢
      by_cases hs : (if cur = some a.ukey then seen else false) = true
      · -- shadowed by a version seen before
        simp only [hs, if_true, Bool.false_eq_true, if_false] at hgone ⊢
        have hcur : cur = some a.ukey ∧ seen = true := by
          by_cases hc : cur = some a.ukey
          · exact ⟨hc, by simpa [hc] using hs⟩
          · simp [hc] at hs
        rcases List.mem_cons.mp he with rfl | hel
        · exact ⟨haw, Or.inl hcur⟩
        · obtain ⟨hle, ⟨hak, -⟩ | hrest'⟩ := hrest hel hgone
          · exact ⟨hle, Or.inl ⟨hcur.1.trans (by rw [hak]), hcur.2⟩⟩
          · exact ⟨hle, Or.inr hrest'⟩
      · -- the newest version at or below the watermark
        simp only [hs, Bool.false_eq_true, if_false] at hgone ⊢
        have hshadow : e ∈ l → a.ukey = e.ukey →
            ∃ f ∈ a :: l, f.ukey = e.ukey ∧ e.seq < f.seq ∧ f.seq ≤ w := by
          intro hel hak
          rcases ha e hel with hlt | ⟨-, hlt⟩
          · exact absurd hak (ne_of_lt hlt)
          · exact ⟨a, List.mem_cons_self, hak, hlt, haw⟩
        split at hgone
        · rename_i hkeep
          simp only [hkeep, if_true]
          obtain ⟨hea, hgone⟩ := not_or.mp (fun h => hgone (List.mem_cons.mpr h))
          have hel := (List.mem_cons.mp he).resolve_left hea
          by_cases hak : a.ukey = e.ukey
          · exact ⟨(hrest hel hgone).1, Or.inr (Or.inl (hshadow hel hak))⟩
          · obtain ⟨hle, ⟨hak', -⟩ | hsh | ⟨hd, ho, hall⟩⟩ := hrest hel hgone
            · exact absurd hak' hak
            · exact ⟨hle, Or.inr (Or.inl hsh)⟩
            · refine ⟨hle, Or.inr (Or.inr ⟨hd, ho, fun f hf hfk => ?_⟩)⟩
              rcases List.mem_cons.mp hf with rfl | hf
              · exact absurd hfk hak
              · exact hall f hf hfk
        · rename_i hdrop
          simp only [hdrop]
          rcases List.mem_cons.mp he with rfl | hel
          · have hd : e.kind = .delete ∧ job.olderMayContain e.ukey = false := by simpa using hdrop
            refine ⟨haw, Or.inr (Or.inr ⟨hd.1, hd.2, fun f hf hfk => ?_⟩)⟩
            refine survivors_seen hl (fun b hb => ?_) hf hfk
            rcases ha b hb with hlt | ⟨heq, -⟩
            · exact le_of_lt hlt
            · exact le_of_eq heq
          · obtain ⟨hle, ⟨hak, -⟩ | hrest'⟩ := hrest hel hgone
            · exact ⟨hle, Or.inr (Or.inl (hshadow hel hak))⟩
            · exact ⟨hle, Or.inr hrest'⟩

/-- From the start of a job nothing has been seen yet. -/
theorem survivors_gone (hg : Grouped l) (he : e ∈ l) (hgone : e ∉ survivors job w none false l) :
    e.seq ≤ w ∧ ((∃ f ∈ l, f.ukey = e.ukey ∧ e.seq < f.seq ∧ f.seq ≤ w) ∨
      (e.kind = .delete ∧ job.olderMayContain e.ukey = false ∧
        ∀ f ∈ survivors job w none false l, f.ukey = e.ukey → w < f.seq)) := by
  obtain ⟨hle, ⟨hcur, -⟩ | hrest⟩ := survivors_gone_from hg he hgone
  · exact absurd hcur (by simp)
  · exact ⟨hle, hrest⟩

/-! ### Slices -/

namespace RunningJob

/-- What was written and what is still to be written are together the
survivors of the inputs. -/
structure Progress (j : RunningJob) : Prop where
  ordered : j.writer.Ordered
  children : ∀ c ∈ j.merge, Sorted c
  sorted : Sorted (j.writer.entries ++ mergeAll Entry.ikey j.merge)
  written : j.writer.entries ++
      survivors j.job j.watermark j.curUkey j.keptLeW (mergeAll Entry.ikey j.merge) =
    survivors j.job j.watermark none false (mergeAll Entry.ikey (j.job.inputs.map Run.entries))

/-- What a slice leaves alone. -/
structure Same (j j' : RunningJob) : Prop where
  job : j'.job = j.job
  watermark : j'.watermark = j.watermark
  runId : j'.runId = j.runId

variable {opts : Options} {j j' : RunningJob} {id id' : ℕ} {merge : List (List Entry)}

/-- One version read off the merge. -/
theorem consume_spec (h : j.Progress) (hpop : popLeast Entry.ikey j.merge = some (e, merge))
    (hc : j.consume opts id e merge = some (j', id')) :
    j.Same j' ∧ j'.Progress ∧ j'.merge = merge ∧ id ≤ id' := by
  have hmerge := mergeAll_of_pop hpop
  have hsorted := h.sorted
  have hwritten := h.written
  rw [hmerge] at hsorted hwritten
  have hchildren := (popLeast_least h.children hpop).2
  have hverdict : j.verdict e = dropRule j.job j.watermark j.curUkey j.keptLeW e := rfl
  unfold consume at hc
  rw [hverdict] at hc
  simp only [survivors] at hwritten
  generalize dropRule j.job j.watermark j.curUkey j.keptLeW e = verdict at hc hwritten
  obtain ⟨keep, seen⟩ := verdict
  obtain ⟨⟨w', id₁⟩, hemit, heq⟩ := Option.map_eq_some_iff.mp hc
  obtain ⟨rfl, rfl⟩ := Prod.mk.inj heq
  cases keep with
  | true =>
    simp only [if_true] at hemit hwritten
    -- what was kept so far is no larger, so the entry may follow it
    have hle : ∀ a ∈ j.writer.entries, a.ukey ≤ e.ukey := fun a ha =>
      ukey_le_of_ikey_lt ((List.pairwise_append.mp hsorted).2.2 a ha e List.mem_cons_self)
    obtain ⟨hent, hord, hid⟩ := FragmentWriter.emit_spec h.ordered hle hemit
    refine ⟨⟨rfl, rfl, rfl⟩, ⟨hord, hchildren, ?_, ?_⟩, rfl, hid⟩
    · show Sorted (w'.entries ++ mergeAll Entry.ikey merge)
      rw [hent, List.append_assoc]
      exact hsorted
    · show w'.entries ++ survivors j.job j.watermark (some e.ukey) seen _ = _
      rw [hent, List.append_assoc]
      exact hwritten
  | false =>
    simp only [Bool.false_eq_true, if_false, Option.some.injEq, Prod.mk.injEq] at hemit hwritten
    obtain ⟨rfl, rfl⟩ := hemit
    exact ⟨⟨rfl, rfl, rfl⟩, ⟨h.ordered, hchildren,
      hsorted.sublist ((List.sublist_cons_self _ _).append_left _), hwritten⟩, rfl, le_rfl⟩

theorem Same.trans {j'' : RunningJob} (h : j.Same j') (h' : j'.Same j'') : j.Same j'' :=
  ⟨h'.job.trans h.job, h'.watermark.trans h.watermark, h'.runId.trans h.runId⟩

/-- **A slice** keeps the progress of its job; an exhausted one has nothing
left to merge. -/
theorem sliceLoop_spec {fuel processed : ℕ} {exhausted : Bool} (h : j.Progress)
    (hfuel : j.merge.flatten.length ≤ fuel)
    (hs : sliceLoop opts fuel j processed id = some (j', id', exhausted)) :
    j.Same j' ∧ j'.Progress ∧ id ≤ id' ∧
      (exhausted = true → mergeAll Entry.ikey j'.merge = []) := by
  induction fuel generalizing j processed id with
  | zero =>
    simp only [sliceLoop, Option.some.injEq, Prod.mk.injEq] at hs
    obtain ⟨rfl, rfl, rfl⟩ := hs
    refine ⟨⟨rfl, rfl, rfl⟩, h, le_rfl, fun _ => mergeAll_of_none ?_⟩
    exact popLeast_eq_none.mpr (List.length_eq_zero_iff.mp (Nat.le_zero.mp hfuel))
  | succ fuel ih =>
    unfold sliceLoop at hs
    cases hpop : popLeast Entry.ikey j.merge with
    | none =>
      simp only [hpop, Option.some.injEq, Prod.mk.injEq] at hs
      obtain ⟨rfl, rfl, rfl⟩ := hs
      exact ⟨⟨rfl, rfl, rfl⟩, h, le_rfl, fun _ => mergeAll_of_none hpop⟩
    | some r =>
      obtain ⟨e, merge⟩ := r
      simp only [hpop] at hs
      split at hs
      · -- the budget is spent at a key boundary
        simp only [Option.some.injEq, Prod.mk.injEq] at hs
        obtain ⟨rfl, rfl, rfl⟩ := hs
        exact ⟨⟨rfl, rfl, rfl⟩, h, le_rfl, fun hc => absurd hc (by simp)⟩
      · obtain ⟨⟨j₁, id₁⟩, hc, hrest⟩ := Option.bind_eq_some_iff.mp hs
        obtain ⟨hsame, hprog, hmerge, hid⟩ := consume_spec h hpop hc
        have hlen : j₁.merge.flatten.length ≤ fuel := by
          have := (popLeast_perm hpop).length_eq
          rw [List.length_cons] at this
          rw [hmerge]
          omega
        obtain ⟨hsame', hprog', hid', hdone⟩ := ih hprog hlen hrest
        exact ⟨hsame.trans hsame', hprog', le_trans hid hid', hdone⟩

/-- Versions still to be read off the merge. -/
def remaining (j : RunningJob) : ℕ := j.merge.flatten.length

/-- A slice that does not exhaust the merge has read some of it. -/
theorem sliceLoop_remaining {fuel processed : ℕ} {exhausted : Bool}
    (hs : sliceLoop opts fuel j processed id = some (j', id', exhausted)) :
    j'.remaining ≤ j.remaining ∧
      (processed = 0 → exhausted = false → j'.remaining < j.remaining) := by
  induction fuel generalizing j processed id with
  | zero =>
    simp only [sliceLoop, Option.some.injEq, Prod.mk.injEq] at hs
    obtain ⟨rfl, -, rfl⟩ := hs
    exact ⟨le_rfl, fun _ h => Bool.noConfusion h⟩
  | succ fuel ih =>
    unfold sliceLoop at hs
    cases hpop : popLeast Entry.ikey j.merge with
    | none =>
      simp only [hpop, Option.some.injEq, Prod.mk.injEq] at hs
      obtain ⟨rfl, -, rfl⟩ := hs
      exact ⟨le_rfl, fun _ h => Bool.noConfusion h⟩
    | some r =>
      obtain ⟨e, merge⟩ := r
      simp only [hpop] at hs
      split at hs
      · rename_i hspent
        simp only [Option.some.injEq, Prod.mk.injEq] at hs
        obtain ⟨rfl, -, rfl⟩ := hs
        refine ⟨le_rfl, fun hzero _ => ?_⟩
        -- no slice is spent before it has read anything
        have : 1 ≤ processed := le_trans (le_max_right _ _) hspent.1
        omega
      · obtain ⟨⟨j₁, id₁⟩, hc, hrest⟩ := Option.bind_eq_some_iff.mp hs
        have hmerge : j₁.merge = merge := by
          unfold consume at hc
          obtain ⟨r, -, heq⟩ := Option.map_eq_some_iff.mp hc
          rw [← (Prod.mk.inj heq).1]
        have hlen : j₁.remaining + 1 = j.remaining := by
          unfold remaining
          rw [hmerge]
          exact (popLeast_perm hpop).length_eq
        have hle : j'.remaining ≤ j₁.remaining := (ih hrest).1
        exact ⟨by omega, fun _ _ => by omega⟩

/-- On its inputs' merge a slice never trips an assertion. -/
theorem sliceLoop_isSome {fuel processed : ℕ} (h : j.Progress) :
    (sliceLoop opts fuel j processed id).isSome := by
  induction fuel generalizing j processed id with
  | zero => rfl
  | succ fuel ih =>
    unfold sliceLoop
    cases hpop : popLeast Entry.ikey j.merge with
    | none => rfl
    | some r =>
      obtain ⟨e, merge⟩ := r
      simp only
      split
      · rfl
      · have hsome : (j.consume opts id e merge).isSome := by
          unfold consume
          generalize j.verdict e = verdict
          obtain ⟨keep, seen⟩ := verdict
          simp only [Option.isSome_map]
          split
          · refine FragmentWriter.emit_isSome h.ordered fun a ha => ?_
            have hsorted := h.sorted
            rw [mergeAll_of_pop hpop] at hsorted
            exact (List.pairwise_append.mp hsorted).2.2 a ha e List.mem_cons_self
          · rfl
        obtain ⟨⟨j₁, id₁⟩, hc⟩ := Option.isSome_iff_exists.mp hsome
        rw [hc]
        exact ih (consume_spec h hpop hc).2.1

/-! ### Starting a job -/

/-- Inputs a job can merge: ordered runs without a common internal key. -/
structure Mergeable (inputs : List Run) : Prop where
  ordered : ∀ r ∈ inputs, r.Ordered
  disjoint : inputs.Pairwise fun r r' => ∀ a ∈ r.entries, ∀ b ∈ r'.entries, a.ikey ≠ b.ikey

theorem Mergeable.sorted {inputs : List Run} (h : Mergeable inputs) :
    Sorted (mergeAll Entry.ikey (inputs.map Run.entries)) := by
  refine sortedBy_mergeAll (fun c hc => ?_) (List.pairwise_map.mpr h.disjoint)
  obtain ⟨r, hr, rfl⟩ := List.mem_map.mp hc
  exact (h.ordered r hr).sorted_entries

theorem progress_new {db : Db} (h : Mergeable job.inputs) : (RunningJob.new db job).1.Progress := by
  refine ⟨FragmentWriter.empty_ordered, fun c hc => ?_, h.sorted, rfl⟩
  obtain ⟨r, hr, rfl⟩ := List.mem_map.mp hc
  exact (h.ordered r hr).sorted_entries

/-- An exhausted job's fragments hold the survivors, in order. -/
theorem Progress.close {tables : List Table} (h : j.Progress)
    (hdone : mergeAll Entry.ikey j.merge = []) (hclose : j.writer.close opts = some tables) :
    (⟨j.runId, tables⟩ : Run).Ordered ∧ (⟨j.runId, tables⟩ : Run).entries =
      survivors j.job j.watermark none false
        (mergeAll Entry.ikey (j.job.inputs.map Run.entries)) := by
  refine ⟨FragmentWriter.close_ordered h.ordered hclose, ?_⟩
  have hw := h.written
  rw [hdone] at hw
  rw [← hw]
  show tables.flatMap Table.entries = _
  rw [FragmentWriter.close_entries hclose]
  exact (List.append_nil _).symm

end RunningJob

end Fluent31
