/-
Writing a run as bounded fragments (`build_run_from_mem` of `db.rs`, the output
side of `run_slice` of `compaction.rs`).

Both writers feed versions in internal-key order to a table builder and cut a
new fragment when the current one is large enough, but only where the user key
changes.  `FragmentWriter` is that loop's state.

* `emit_entries`, `close_entries` — nothing is lost or reordered;
* `emit_ordered`, `close_ordered` — the fragments come out key-ordered with
  disjoint user-key ranges, whatever the size estimates say;
* `emit_isSome`, `close_isSome` — on sorted input no assertion fails.
-/
import Fluent31.Version
import Fluent31.Batch

namespace Fluent31

open Ordered

/-- Finished fragments and the one being built. -/
structure FragmentWriter where
  tables : List Table
  builder : Option TableBuilder

namespace FragmentWriter

def empty : FragmentWriter := ⟨[], none⟩

/-- The current fragment is large enough and `ukey` starts a new user key. -/
def isFull (opts : Options) (w : FragmentWriter) (ukey : Bytes) : Bool :=
  match w.builder with
  | some b =>
    decide (opts.targetFileSize ≤ opts.tableFormat.estimatedSize b.entries) &&
      decide (ukey ≠ b.lastUkey)
  | none => false

/-- Finish the current fragment, if any. -/
def close (opts : Options) (w : FragmentWriter) : Option (List Table) :=
  match w.builder with
  | some b => (b.finish opts.tableFormat opts.bloomBitsPerKey).map fun t => w.tables ++ [t]
  | none => some w.tables

/-- Add one version; a new fragment takes its id from the counter. -/
def emit (opts : Options) (w : FragmentWriter) (nextFileId : ℕ) (e : Entry) :
    Option (FragmentWriter × ℕ) :=
  (if w.isFull opts e.ukey then (w.close opts).map fun tables => ⟨tables, none⟩
    else some w).bind fun w =>
    match w.builder with
    | some b => (b.add e).map fun b => (⟨w.tables, some b⟩, nextFileId)
    | none => ((TableBuilder.new nextFileId).add e).map fun b => (⟨w.tables, some b⟩,
      nextFileId + 1)

/-- Everything written so far, in order. -/
def entries (w : FragmentWriter) : List Entry :=
  w.tables.flatMap Table.entries ++ (w.builder.map TableBuilder.entries).getD []

/-- Finished fragments are ordered, the one being built lies behind them and
is not empty, and there is one as soon as there is any. -/
structure Ordered (w : FragmentWriter) : Prop where
  tables : w.tables.Pairwise fun t t' => t.maxUkey < t'.minUkey
  builder : ∀ b ∈ w.builder, b.entries ≠ [] ∧ ∀ t ∈ w.tables, ∀ e ∈ b.entries, t.maxUkey < e.ukey
  none : w.builder = none → w.tables = []

variable {opts : Options} {w w' : FragmentWriter} {e : Entry} {id id' : ℕ} {tables : List Table}

theorem empty_ordered : empty.Ordered :=
  ⟨List.Pairwise.nil, fun _ hb => absurd hb (by simp [empty]), fun _ => rfl⟩

theorem close_entries (h : w.close opts = some tables) :
    tables.flatMap Table.entries = w.entries := by
  unfold close at h
  unfold entries
  cases hb : w.builder with
  | none =>
    rw [hb] at h
    rw [← Option.some_inj.mp h]
    simp
  | some b =>
    rw [hb] at h
    obtain ⟨t, ht, rfl⟩ := Option.map_eq_some_iff.mp h
    simp [(TableBuilder.finish_eq_some ht).2]

theorem close_ordered (hw : w.Ordered) (h : w.close opts = some tables) :
    tables.Pairwise fun t t' => t.maxUkey < t'.minUkey := by
  unfold close at h
  cases hb : w.builder with
  | none =>
    rw [hb] at h
    rw [← Option.some_inj.mp h]
    exact hw.tables
  | some b =>
    rw [hb] at h
    obtain ⟨t, ht, rfl⟩ := Option.map_eq_some_iff.mp h
    refine List.pairwise_append.mpr ⟨hw.tables, List.pairwise_singleton _ _, fun a ha t' ht' => ?_⟩
    rw [List.mem_singleton.mp ht']
    obtain ⟨e, he, hmin⟩ := t.exists_minUkey
    rw [(TableBuilder.finish_eq_some ht).2] at he
    rw [← hmin]
    exact (hw.builder b hb).2 a ha e he

theorem close_isSome (hw : w.Ordered) : (w.close opts).isSome := by
  unfold close
  cases hb : w.builder with
  | none => rfl
  | some b =>
    have : (b.finish opts.tableFormat opts.bloomBitsPerKey).isSome :=
      TableBuilder.finish_isSome (hw.builder b hb).1
    simpa using this

/-- A full fragment holds only smaller user keys than the next version. -/
theorem lastUkey_lt {b : TableBuilder} (hne : b.entries ≠ [])
    (hle : ∀ a ∈ b.entries, a.ukey ≤ e.ukey)
    (hnew : e.ukey ≠ b.lastUkey) : ∀ a ∈ b.entries, a.ukey < e.ukey := by
  intro a ha
  have hlast : b.lastUkey = (b.entries.getLast hne).ukey := by
    unfold TableBuilder.lastUkey
    rw [List.getLast?_eq_getLast_of_ne_nil hne]
    rfl
  have hmax : a.ukey ≤ b.lastUkey := by
    rw [hlast]
    have hs := b.sorted
    rw [← List.dropLast_concat_getLast hne] at ha hs
    rcases List.mem_append.mp ha with ha | ha
    · exact ukey_le_of_ikey_lt ((List.pairwise_append.mp hs).2.2 a ha _ (List.mem_singleton_self _))
    · rw [List.mem_singleton.mp ha]
  have hlt : b.lastUkey < e.ukey := by
    refine lt_of_le_of_ne ?_ fun h => hnew h.symm
    rw [hlast]
    exact hle _ (List.getLast_mem hne)
  exact lt_of_le_of_lt hmax hlt

/-- What `emit` starts from: the writer itself, or the one just cut. -/
theorem emit_cut (hw : w.Ordered) (hle : ∀ a ∈ w.entries, a.ukey ≤ e.ukey)
    {w₁ : FragmentWriter}
    (h : (if w.isFull opts e.ukey then (w.close opts).map fun tables => ⟨tables, none⟩
      else some w) = some w₁) :
    w₁.entries = w.entries ∧ (w₁ = w ∨ w₁.builder = none ∧
      (w₁.tables.Pairwise fun t t' => t.maxUkey < t'.minUkey) ∧
      ∀ t ∈ w₁.tables, t.maxUkey < e.ukey) := by
  split at h
  · rename_i hfull
    obtain ⟨tables, ht, rfl⟩ := Option.map_eq_some_iff.mp h
    have hent := close_entries ht
    refine ⟨by simp [entries, hent], Or.inr ⟨rfl, close_ordered hw ht, fun t htm => ?_⟩⟩
    unfold isFull at hfull
    cases hb : w.builder with
    | none => simp [hb] at hfull
    | some b =>
      rw [hb, Bool.and_eq_true, decide_eq_true_eq, decide_eq_true_eq] at hfull
      -- a full fragment is cut only where the key changes
      obtain ⟨hne, hbehind⟩ := hw.builder b hb
      have hlt := lastUkey_lt hne
        (fun a ha => hle a (List.mem_append_right _ (by simpa [hb] using ha))) hfull.2
      unfold close at ht
      rw [hb] at ht
      obtain ⟨t', ht', rfl⟩ := Option.map_eq_some_iff.mp ht
      rcases List.mem_append.mp htm with htm | htm
      · obtain ⟨a, ha⟩ := List.exists_mem_of_ne_nil _ hne
        exact lt_trans (hbehind t htm a ha) (hlt a ha)
      · rw [List.mem_singleton.mp htm]
        obtain ⟨a, ha, hmax⟩ := t'.exists_maxUkey
        rw [(TableBuilder.finish_eq_some ht').2] at ha
        exact hmax ▸ hlt a ha
  · obtain rfl := Option.some_inj.mp h
    exact ⟨rfl, Or.inl rfl⟩

/-- **One version written**: it comes last, and the fragments stay ordered. -/
theorem emit_spec (hw : w.Ordered) (hle : ∀ a ∈ w.entries, a.ukey ≤ e.ukey)
    (h : w.emit opts id e = some (w', id')) :
    w'.entries = w.entries ++ [e] ∧ w'.Ordered ∧ id ≤ id' := by
  unfold emit at h
  obtain ⟨w₁, hw₁, hadd⟩ := Option.bind_eq_some_iff.mp h
  clear h
  obtain ⟨hent, hcut⟩ := emit_cut hw hle hw₁
  rw [← hent]
  cases hb : w₁.builder with
  | some b =>
    -- the current fragment goes on
    rcases hcut with rfl | ⟨hnone, -⟩
    · rw [hb] at hadd
      obtain ⟨b', hb', heq⟩ := Option.map_eq_some_iff.mp hadd
      obtain ⟨rfl, rfl⟩ := Prod.mk.inj heq
      obtain ⟨-, hentries⟩ := TableBuilder.add_eq_some hb'
      obtain ⟨hne, hbehind⟩ := hw.builder b hb
      refine ⟨by simp [entries, hb, hentries], ⟨hw.tables, ?_, fun hc =>
        absurd hc (by simp)⟩, le_rfl⟩
      intro c hc
      obtain rfl := Option.some_inj.mp hc
      rw [hentries]
      refine ⟨by simp, fun t ht a ha => ?_⟩
      rcases List.mem_append.mp ha with ha | ha
      · exact hbehind t ht a ha
      · rw [List.mem_singleton.mp ha]
        obtain ⟨c, hc⟩ := List.exists_mem_of_ne_nil _ hne
        exact lt_of_lt_of_le (hbehind t ht c hc)
          (hle c (List.mem_append_right _ (by simpa [hb] using hc)))
    · rw [hb] at hnone
      exact absurd hnone (by simp)
  | none =>
    rw [hb] at hadd
    obtain ⟨b', hb', heq⟩ := Option.map_eq_some_iff.mp hadd
    obtain ⟨rfl, rfl⟩ := Prod.mk.inj heq
    obtain ⟨-, hentries⟩ := TableBuilder.add_eq_some hb'
    have hone : b'.entries = [e] := by simpa [TableBuilder.new] using hentries
    have htables : (w₁.tables.Pairwise fun t t' => t.maxUkey < t'.minUkey) ∧
        ∀ t ∈ w₁.tables, t.maxUkey < e.ukey := by
      rcases hcut with rfl | ⟨-, hpair, hlt⟩
      · exact ⟨hw.tables, by simp [hw.none hb]⟩
      · exact ⟨hpair, hlt⟩
    refine ⟨by simp [entries, hb, hone], ⟨htables.1, ?_, fun hc => absurd hc (by simp)⟩,
      Nat.le_succ _⟩
    intro c hc
    obtain rfl := Option.some_inj.mp hc
    rw [hone]
    refine ⟨by simp, fun t ht a ha => ?_⟩
    rw [List.mem_singleton.mp ha]
    exact htables.2 t ht

/-- On strictly increasing input `emit` never fails. -/
theorem emit_isSome (hw : w.Ordered) (hlt : ∀ a ∈ w.entries, a.ikey < e.ikey) :
    (w.emit opts id e).isSome := by
  have hle : ∀ a ∈ w.entries, a.ukey ≤ e.ukey := fun a ha => ukey_le_of_ikey_lt (hlt a ha)
  unfold emit
  have hsome : ∃ w₁, (if w.isFull opts e.ukey then (w.close opts).map fun tables =>
      (⟨tables, none⟩ : FragmentWriter) else some w) = some w₁ := by
    split
    · obtain ⟨tables, ht⟩ : ∃ tables, w.close opts = some tables :=
        Option.isSome_iff_exists.mp (close_isSome hw)
      exact ⟨_, by rw [ht]; rfl⟩
    · exact ⟨w, rfl⟩
  obtain ⟨w₁, hw₁⟩ := hsome
  obtain ⟨hent, -⟩ := emit_cut hw hle hw₁
  simp only [hw₁, Option.bind_some]
  cases hb : w₁.builder with
  | none =>
    have : ((TableBuilder.new id).add e).isSome :=
      TableBuilder.add_isSome (by simp [TableBuilder.new])
    simpa using this
  | some b =>
    have : (b.add e).isSome := TableBuilder.add_isSome fun a ha =>
      hlt a (hent ▸ List.mem_append_right _ (by simpa [hb] using ha))
    simpa using this

/-- Feed a list of versions. -/
def emitAll (opts : Options) : FragmentWriter → ℕ → List Entry → Option (FragmentWriter × ℕ)
  | w, id, [] => some (w, id)
  | w, id, e :: es => (w.emit opts id e).bind fun r => emitAll opts r.1 r.2 es

theorem emitAll_spec {es : List Entry} (hw : w.Ordered) (hs : Sorted (w.entries ++ es))
    (h : w.emitAll opts id es = some (w', id')) :
    w'.entries = w.entries ++ es ∧ w'.Ordered ∧ id ≤ id' := by
  induction es generalizing w id with
  | nil =>
    obtain ⟨rfl, rfl⟩ := Prod.mk.inj (Option.some_inj.mp h)
    exact ⟨by simp, hw, le_rfl⟩
  | cons e es ih =>
    obtain ⟨⟨w₁, id₁⟩, h₁, hrest⟩ := Option.bind_eq_some_iff.mp h
    have hle : ∀ a ∈ w.entries, a.ukey ≤ e.ukey := fun a ha =>
      ukey_le_of_ikey_lt ((List.pairwise_append.mp hs).2.2 a ha e List.mem_cons_self)
    obtain ⟨hent, hord, hid⟩ := emit_spec hw hle h₁
    obtain ⟨hent', hord', hid'⟩ := ih hord (by simpa [hent] using hs) hrest
    exact ⟨by simp [hent', hent], hord', le_trans hid hid'⟩

theorem emitAll_isSome {es : List Entry} (hw : w.Ordered) (hs : Sorted (w.entries ++ es)) :
    (w.emitAll opts id es).isSome := by
  induction es generalizing w id with
  | nil => rfl
  | cons e es ih =>
    have hlt : ∀ a ∈ w.entries, a.ikey < e.ikey := fun a ha =>
      (List.pairwise_append.mp hs).2.2 a ha e List.mem_cons_self
    obtain ⟨⟨w₁, id₁⟩, h₁⟩ : ∃ r, w.emit opts id e = some r :=
      Option.isSome_iff_exists.mp (emit_isSome hw hlt)
    obtain ⟨hent, hord, -⟩ := emit_spec hw (fun a ha => ukey_le_of_ikey_lt (hlt a ha)) h₁
    show ((w.emit opts id e).bind fun r => emitAll opts r.1 r.2 es).isSome
    rw [h₁]
    exact ih hord (by simpa [hent] using hs)

end FragmentWriter

/-- `build_run_from_mem`: the memtable as a run, with its largest seqno; the
run takes the first id, its fragments the following ones. -/
def buildRunFromMem (opts : Options) (nextFileId : ℕ) (imm : Memtable) :
    Option (Run × ℕ × ℕ) :=
  (FragmentWriter.empty.emitAll opts (nextFileId + 1) imm.map).bind fun r =>
    (r.1.close opts).map fun tables =>
      (⟨nextFileId, tables⟩, (imm.map.map Entry.seq).foldr max 0, r.2)

theorem buildRunFromMem_isSome (opts : Options) (nextFileId : ℕ) (imm : Memtable) :
    (buildRunFromMem opts nextFileId imm).isSome := by
  have hs : Sorted (FragmentWriter.empty.entries ++ imm.map) := imm.sorted
  obtain ⟨⟨w, id⟩, hw⟩ : ∃ r, FragmentWriter.empty.emitAll opts (nextFileId + 1) imm.map = some r :=
    Option.isSome_iff_exists.mp (FragmentWriter.emitAll_isSome FragmentWriter.empty_ordered hs)
  obtain ⟨-, hord, -⟩ := FragmentWriter.emitAll_spec FragmentWriter.empty_ordered hs hw
  unfold buildRunFromMem
  rw [hw, Option.bind_some, Option.isSome_map]
  exact FragmentWriter.close_isSome hord

/-- The run holds the memtable's versions, in ordered fragments. -/
theorem buildRunFromMem_spec {opts : Options} {nextFileId : ℕ} {imm : Memtable} {run : Run}
    {maxSeq next : ℕ} (h : buildRunFromMem opts nextFileId imm = some (run, maxSeq, next)) :
    run.entries = imm.map ∧ run.Ordered ∧ run.id = nextFileId ∧ nextFileId < next ∧
      maxSeq = (imm.map.map Entry.seq).foldr max 0 := by
  obtain ⟨⟨w, id⟩, hw, h⟩ := Option.bind_eq_some_iff.mp h
  obtain ⟨tables, ht, heq⟩ := Option.map_eq_some_iff.mp h
  simp only [Prod.mk.injEq] at heq
  obtain ⟨rfl, rfl, rfl⟩ := heq
  obtain ⟨hent, hord, hid⟩ :=
    FragmentWriter.emitAll_spec FragmentWriter.empty_ordered imm.sorted hw
  refine ⟨?_, FragmentWriter.close_ordered hord ht, rfl, by omega, rfl⟩
  rw [Run.entries, FragmentWriter.close_entries ht, hent]
  rfl

end Fluent31
