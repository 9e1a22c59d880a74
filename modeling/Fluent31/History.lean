/-
The sequential history of a store.

Commits take consecutive seqnos, so the log of a store is one sequence of ops
numbered from 1.  `stateAfter log s` replays it up to seqno `s`; it is what a
read at `s` has to return.

* `Contiguous` — the numbering, with its append and split rules;
* `stateAfter_of_newest`, `stateAfter_of_none` — the state after `s` at a key
  is decided by the newest version of the key at or below `s`.
-/
import Fluent31.Vlog
import Mathlib.Data.List.Induction

namespace Fluent31

open Mvcc

/-! ### Contiguous numbering -/

/-- Non-empty batches numbered without a gap: the first starts at `n`, the next
free number is `m`. -/
def Contiguous : ℕ → List (ℕ × List EncEntry) → ℕ → Prop
  | n, [], m => n = m
  | n, (base, es) :: rest, m => base = n ∧ es ≠ [] ∧ Contiguous (n + es.length) rest m

/-- The versions of numbered batches. -/
def batchVersions (batches : List (ℕ × List EncEntry)) : List Entry :=
  batches.flatMap fun r => versionsFrom r.1 r.2

variable {n m k : ℕ} {xs ys : List (ℕ × List EncEntry)} {e f : Entry}

@[simp] theorem batchVersions_nil : batchVersions [] = [] := rfl

@[simp] theorem batchVersions_append :
    batchVersions (xs ++ ys) = batchVersions xs ++ batchVersions ys :=
  List.flatMap_append

theorem Contiguous.le (h : Contiguous n xs m) : n ≤ m := by
  induction xs generalizing n with
  | nil => exact le_of_eq h
  | cons r xs ih => exact le_trans (Nat.le_add_right _ _) (ih h.2.2)

theorem contiguous_append :
    Contiguous n (xs ++ ys) m ↔ ∃ k, Contiguous n xs k ∧ Contiguous k ys m := by
  induction xs generalizing n with
  | nil => exact ⟨fun h => ⟨n, rfl, h⟩, fun ⟨k, hk, h⟩ => hk ▸ h⟩
  | cons r xs ih =>
    constructor
    · rintro ⟨hb, hne, h⟩
      obtain ⟨k, hx, hy⟩ := ih.mp h
      exact ⟨k, ⟨hb, hne, hx⟩, hy⟩
    · rintro ⟨k, ⟨hb, hne, hx⟩, hy⟩
      exact ⟨hb, hne, ih.mpr ⟨k, hx, hy⟩⟩

theorem Contiguous.unique {m' : ℕ} (h : Contiguous n xs m) (h' : Contiguous n xs m') : m = m' := by
  induction xs generalizing n with
  | nil => exact h.symm.trans h'
  | cons r xs ih => exact ih h.2.2 h'.2.2

theorem Contiguous.start_unique {n' : ℕ} (h : Contiguous n xs m) (h' : Contiguous n' xs m) :
    n = n' := by
  cases xs with
  | nil => exact (show n = m from h).trans (show n' = m from h').symm
  | cons r xs => exact h.1.symm.trans h'.1

theorem Contiguous.singleton {es : List EncEntry} (hne : es ≠ []) :
    Contiguous n [(n, es)] (n + es.length) := ⟨rfl, hne, rfl⟩

/-- A batch is numbered inside the range. -/
theorem Contiguous.mem (h : Contiguous n xs m) {base : ℕ} {es : List EncEntry}
    (hr : (base, es) ∈ xs) : n ≤ base ∧ base + es.length ≤ m ∧ es ≠ [] := by
  induction xs generalizing n with
  | nil => exact absurd hr List.not_mem_nil
  | cons r xs ih =>
    obtain ⟨rbase, res⟩ := r
    obtain ⟨rfl, hne, hrest⟩ := h
    rcases List.mem_cons.mp hr with heq | hr
    · obtain ⟨rfl, rfl⟩ := Prod.mk.inj heq
      exact ⟨le_rfl, hrest.le, hne⟩
    · obtain ⟨h1, h2, h3⟩ := ih hrest hr
      exact ⟨le_trans (Nat.le_add_right _ _) h1, h2, h3⟩

theorem Contiguous.seq_mem (h : Contiguous n xs m) (he : e ∈ batchVersions xs) :
    n ≤ e.seq ∧ e.seq < m := by
  obtain ⟨⟨base, es⟩, hr, he⟩ := List.mem_flatMap.mp he
  obtain ⟨h1, h2, -⟩ := h.mem hr
  obtain ⟨h3, h4⟩ := seq_of_mem_versionsFrom he
  exact ⟨le_trans h1 h3, lt_of_lt_of_le h4 h2⟩

theorem Contiguous.pairwise_seq (h : Contiguous n xs m) :
    (batchVersions xs).Pairwise fun a b => a.seq < b.seq := by
  induction xs generalizing n with
  | nil => exact List.Pairwise.nil
  | cons r xs ih =>
    obtain ⟨base, es⟩ := r
    obtain ⟨rfl, -, hrest⟩ := h
    refine List.pairwise_append.mpr ⟨pairwise_versionsFrom _ _, ih hrest, fun a ha b hb => ?_⟩
    have h1 := (seq_of_mem_versionsFrom ha).2
    have h2 := (hrest.seq_mem hb).1
    exact lt_of_lt_of_le h1 h2

/-- In a list of rising numbers one number names one member. -/
theorem eq_of_pairwise_lt {α : Type*} {l : List α} {f : α → ℕ} (h : l.Pairwise fun a b => f a < f b)
    {a b : α} (ha : a ∈ l) (hb : b ∈ l) (hs : f a = f b) : a = b := by
  induction l with
  | nil => exact absurd ha List.not_mem_nil
  | cons x l ih =>
    obtain ⟨hx, hl⟩ := List.pairwise_cons.mp h
    rcases List.mem_cons.mp ha with hax | hal <;> rcases List.mem_cons.mp hb with hbx | hbl
    · rw [hax, hbx]
    · exact absurd hs (by rw [hax]; exact ne_of_lt (hx b hbl))
    · exact absurd hs.symm (by rw [hbx]; exact ne_of_lt (hx a hal))
    · exact ih hl hal hbl

theorem Contiguous.distinct (h : Contiguous n xs m) : Distinct (batchVersions xs) :=
  fun _ he _ hf _ hs => eq_of_pairwise_lt h.pairwise_seq he hf hs

/-- The seqnos of the batches end right below the next free number. -/
theorem Contiguous.exists_last (h : Contiguous n xs m) (hne : xs ≠ []) :
    ∃ e ∈ batchVersions xs, e.seq + 1 = m := by
  induction xs generalizing n with
  | nil => exact absurd rfl hne
  | cons r xs ih =>
    obtain ⟨base, es⟩ := r
    obtain ⟨rfl, hes, hrest⟩ := h
    by_cases hxs : xs = []
    · subst hxs
      obtain ⟨e, he⟩ : ∃ e, es[es.length - 1]? = some e :=
        ⟨_, List.getElem?_eq_getElem (Nat.sub_one_lt (List.length_pos_iff.mpr hes).ne')⟩
      refine ⟨e.at (base + (es.length - 1)), List.mem_flatMap.mpr
        ⟨_, List.mem_cons_self, mem_versionsFrom.mpr ⟨_, e, he, rfl⟩⟩, ?_⟩
      have hpos := List.length_pos_iff.mpr hes
      have hm : base + es.length = m := hrest
      show base + (es.length - 1) + 1 = m
      omega
    · obtain ⟨e, he, hm⟩ := ih hrest hxs
      exact ⟨e, List.mem_append_right _ he, hm⟩

/-! ### Commits and replay -/

/-- A committed entry: the ops it was submitted with, the trigger events it
captured, and what was stored for both. -/
structure CommitRec where
  ops : List BatchOp
  /-- The snapshot and conflict keys of a transaction. -/
  validate : Option (ℕ × List Bytes)
  capture : Bool
  base : ℕ
  events : List BatchOp
  entries : List EncEntry

namespace CommitRec

/-- All ops of the commit, in seqno order. -/
def fullOps (c : CommitRec) : List BatchOp := c.ops ++ c.events

def batch (c : CommitRec) : ℕ × List EncEntry := (c.base, c.entries)

/-- The commit's ops with their seqnos. -/
def numbered (c : CommitRec) : List (BatchOp × ℕ) := c.fullOps.zipIdx c.base

end CommitRec

/-- The versions ever written. -/
def historyOf (log : List CommitRec) : List Entry := batchVersions (log.map CommitRec.batch)

/-- One op applied to a key-value map. -/
def applyOp (m : Bytes → Option Bytes) (op : BatchOp) : Bytes → Option Bytes :=
  fun k => if k = op.key then op.value? else m k

/-- Replay numbered ops up to seqno `s`. -/
def replay (ops : List (BatchOp × ℕ)) (s : ℕ) : Bytes → Option Bytes :=
  (ops.filter fun p => decide (p.2 ≤ s)).foldl (fun m p => applyOp m p.1) fun _ => none

/-- The key-value map after the op with seqno `s`. -/
def stateAfter (log : List CommitRec) (s : ℕ) : Bytes → Option Bytes :=
  replay (log.flatMap CommitRec.numbered) s

theorem replay_concat (ops : List (BatchOp × ℕ)) (p : BatchOp × ℕ) (s : ℕ) :
    replay (ops ++ [p]) s = if p.2 ≤ s then applyOp (replay ops s) p.1 else replay ops s := by
  unfold replay
  rw [List.filter_append, List.foldl_append]
  by_cases h : p.2 ≤ s
  · rw [if_pos h, List.filter_cons_of_pos (by simpa using h)]
    rfl
  · rw [if_neg h, List.filter_cons_of_neg (by simpa using h)]
    rfl

/-- Without an op on `k` at or below `s` the key is absent. -/
theorem replay_of_none {ops : List (BatchOp × ℕ)} {k : Bytes} {s : ℕ}
    (h : ∀ p ∈ ops, p.1.key = k → s < p.2) : replay ops s k = none := by
  induction ops using List.reverseRecOn with
  | nil => rfl
  | append_singleton ops p ih =>
    rw [replay_concat]
    split
    · rename_i hle
      have hk : k ≠ p.1.key := fun hk =>
        absurd (h p (List.mem_append_right _ (List.mem_singleton_self _)) hk.symm) (by omega)
      rw [applyOp, if_neg hk]
      exact ih fun q hq => h q (List.mem_append_left _ hq)
    · exact ih fun q hq => h q (List.mem_append_left _ hq)

/-- The last op on `k` at or below `s` decides. -/
theorem replay_of_last {ops : List (BatchOp × ℕ)} {p : BatchOp × ℕ} {s : ℕ}
    (hpair : ops.Pairwise fun a b => a.2 < b.2) (hp : p ∈ ops) (hle : p.2 ≤ s)
    (hmax : ∀ q ∈ ops, q.1.key = p.1.key → q.2 ≤ s → q.2 ≤ p.2) :
    replay ops s p.1.key = p.1.value? := by
  induction ops using List.reverseRecOn with
  | nil => exact absurd hp List.not_mem_nil
  | append_singleton ops q ih =>
    obtain ⟨hops, -, hlast⟩ := List.pairwise_append.mp hpair
    have hql : q ∈ ops ++ [q] := List.mem_append_right _ (List.mem_singleton_self _)
    rw [replay_concat]
    rcases List.mem_append.mp hp with hp | hp
    · have hlt : p.2 < q.2 := hlast p hp q (List.mem_singleton_self _)
      have hrec := ih hops hp fun r hr => hmax r (List.mem_append_left _ hr)
      split
      · rename_i hqs
        have hk : p.1.key ≠ q.1.key := fun hk =>
          absurd (hmax q hql hk.symm hqs) (by omega)
        rw [applyOp, if_neg hk]
        exact hrec
      · exact hrec
    · rw [List.mem_singleton.mp hp] at hle ⊢
      rw [if_pos hle, applyOp, if_pos rfl]

/-! ### Replay and versions -/

/-- The log's batches encode its ops in the value log. -/
def LogEncodes (v : Vlog) (log : List CommitRec) : Prop :=
  ∀ c ∈ log, v.Encodes c.fullOps c.entries

variable {v : Vlog} {log : List CommitRec} {key : Bytes} {s : ℕ}

/-- Every version of the history is an op of the log, and conversely. -/
theorem mem_historyOf (h : LogEncodes v log) {e : Entry} :
    e ∈ historyOf log → ∃ p ∈ log.flatMap CommitRec.numbered,
      p.2 = e.seq ∧ p.1.key = e.ukey ∧ p.1.kind = e.kind ∧ v.Holds e.ukey e.repr p.1.value? := by
  intro he
  obtain ⟨r, hr, he⟩ := List.mem_flatMap.mp he
  obtain ⟨c, hc, rfl⟩ := List.mem_map.mp hr
  obtain ⟨i, enc, henc, rfl⟩ := mem_versionsFrom.mp he
  obtain ⟨op, hop, hkind, hkey, hholds⟩ := (h c hc).getElem? henc
  refine ⟨(op, c.base + i), List.mem_flatMap.mpr ⟨c, hc, ?_⟩, rfl, hkey.symm, hkind.symm, ?_⟩
  · exact List.mk_mem_zipIdx_iff_le_and_getElem?_sub.mpr
      ⟨Nat.le_add_right _ _, by simpa using hop⟩
  · show v.Holds enc.key enc.repr op.value?
    rw [hkey]
    exact hholds

theorem exists_version_of_numbered (h : LogEncodes v log) {p : BatchOp × ℕ}
    (hp : p ∈ log.flatMap CommitRec.numbered) :
    ∃ e ∈ historyOf log, e.seq = p.2 ∧ e.ukey = p.1.key := by
  obtain ⟨c, hc, hp⟩ := List.mem_flatMap.mp hp
  obtain ⟨op, n⟩ := p
  obtain ⟨hle, hop⟩ := List.mk_mem_zipIdx_iff_le_and_getElem?_sub.mp hp
  have hlen := (h c hc).length_eq
  have hi : n - c.base < c.entries.length := by
    rw [hlen]
    exact (List.getElem?_eq_some_iff.mp hop).1
  have henc := List.getElem?_eq_getElem hi
  obtain ⟨op', hop', -, hkey, -⟩ := (h c hc).getElem? henc
  have hsame : op' = op := Option.some_inj.mp (hop'.symm.trans hop)
  refine ⟨(c.entries[n - c.base]).at (c.base + (n - c.base)), ?_, ?_, by rw [← hsame]; exact hkey⟩
  · exact List.mem_flatMap.mpr ⟨c.batch, List.mem_map_of_mem hc,
      mem_versionsFrom.mpr ⟨_, _, henc, rfl⟩⟩
  · show c.base + (n - c.base) = n
    omega

theorem pairwise_numbered (h : LogEncodes v log) {n m : ℕ}
    (hc : Contiguous n (log.map CommitRec.batch) m) :
    (log.flatMap CommitRec.numbered).Pairwise fun a b => a.2 < b.2 := by
  induction log generalizing n with
  | nil => exact List.Pairwise.nil
  | cons c log ih =>
    obtain ⟨hbase, hne, hrest⟩ := hc
    have hlog : LogEncodes v log := fun d hd => h d (List.mem_cons_of_mem _ hd)
    have hlen := (h c List.mem_cons_self).length_eq
    refine List.pairwise_append.mpr ⟨?_, ih hlog hrest, fun a ha b hb => ?_⟩
    · unfold CommitRec.numbered
      rw [List.pairwise_iff_getElem]
      intro i j hi hj hij
      simp only [List.getElem_zipIdx]
      omega
    · obtain ⟨e, he, hseq, -⟩ := exists_version_of_numbered hlog hb
      have hb' := (hrest.seq_mem he).1
      obtain ⟨op, n'⟩ := a
      obtain ⟨hle, hop⟩ := List.mk_mem_zipIdx_iff_le_and_getElem?_sub.mp ha
      have hi := (List.getElem?_eq_some_iff.mp hop).1
      have hbatch : c.batch.2.length = c.fullOps.length := hlen
      have hb0 : c.base = n := hbase
      simp only
      omega

/-- **Replay by versions**: the newest version at or below `s` decides. -/
theorem stateAfter_of_newest (h : LogEncodes v log) {n m : ℕ}
    (hc : Contiguous n (log.map CommitRec.batch) m) {e : Entry}
    (he : IsNewest (historyOf log) key s e) :
    ∃ op : BatchOp, op.kind = e.kind ∧ v.Holds key e.repr op.value? ∧
      stateAfter log s key = op.value? := by
  obtain ⟨hmem, hkey, hs, hmax⟩ := he
  obtain ⟨p, hp, hseq, hpk, hkind, hholds⟩ := mem_historyOf h hmem
  have hk : e.ukey = key := hkey
  refine ⟨p.1, hkind, hk ▸ hholds, ?_⟩
  rw [← hk, ← hpk]
  refine replay_of_last (pairwise_numbered h hc) hp (hseq ▸ hs) fun q hq hqk hqs => ?_
  obtain ⟨f, hf, hfseq, hfk⟩ := exists_version_of_numbered h hq
  rw [hseq, ← hfseq]
  exact hmax f hf (hfk.trans (hqk.trans (hpk.trans hk))) (le_of_eq_of_le hfseq hqs)

theorem stateAfter_of_none (h : LogEncodes v log) (hn : Answers (historyOf log) key s none) :
    stateAfter log s key = none := by
  refine replay_of_none fun p hp hk => ?_
  obtain ⟨e, he, hseq, hek⟩ := exists_version_of_numbered h hp
  rw [← hseq]
  exact hn e he (hek.trans hk)

end Fluent31
