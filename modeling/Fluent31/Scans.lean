/-
Scans (`iter.rs`): windows of visible entries, their pointers resolved.

`DbIterator` pulls a window of entries, serves what it can from the cache and
reads the rest file by file, in whatever order a hash map gives the files.

* `pullWindow_spec`, `serve_spec`, `readGroup_spec` — the stages of a fill keep
  every entry at its place, on the way to its value;
* `scans_eq` — the iterators over any sources give the map at the snapshot,
  forward, reversed and resolved.
-/
import Fluent31.Iterators
import Fluent31.Lib.MapM
import Fluent31.Lib.Overlay
import Fluent31.Vlog

namespace Fluent31

open Ordered Cursors Mvcc
open Checks (mapM_of_forall₂)

/-! ### Resolving windows -/

def PREFETCH_ENTRIES : ℕ := 32
def PREFETCH_BYTES : ℕ := 256 * 2 ^ 10

inductive Pending
  | ready (value : Bytes)
  | ptr (p : ValuePtr)

/-- What a fill finds around it: the value log, the cached records by file and
offset, and the order a hash map is walked in. -/
structure FillEnv where
  vlog : Vlog
  cache : ℕ → ℕ → Option (Bytes × Bytes)
  arrange : List (ℕ × List ℕ) → List (ℕ × List ℕ)

/-- Pull a window of at most `n` more entries. -/
def pullWindow : ℕ → ℕ → MvccIter → Except Error (MvccIter × Bool × List (Bytes × Pending))
  | 0, _, mvcc => .ok (mvcc, false, [])
  | n + 1, bytes, mvcc =>
    if PREFETCH_BYTES ≤ bytes then .ok (mvcc, false, [])
    else match mvcc.nextVisible with
      | (mvcc, none) => .ok (mvcc, true, [])
      | (mvcc, some (key, repr)) =>
        match repr with
        | .empty => .error (.corruption "short read while decoding")
        | .inline v => do
          let (mvcc, exhausted, window) ← pullWindow n (bytes + (key.length + v.length)) mvcc
          .ok (mvcc, exhausted, (key, .ready v) :: window)
        | .ptr p => do
          let (mvcc, exhausted, window) ← pullWindow n (bytes + (key.length + p.len)) mvcc
          .ok (mvcc, exhausted, (key, .ptr p) :: window)

/-- The value of a record, when it is `key`'s. -/
def recordValueFor (hit : Bytes × Bytes) (key : Bytes) : Except Error Bytes :=
  if hit.1 = key then .ok hit.2
  else .error (.corruption "vlog record key mismatch (dangling pointer)")

/-- Serve a pointer from the cache. -/
def FillEnv.serve (env : FillEnv) : Bytes × Pending → Except Error (Bytes × Pending)
  | (key, .ready v) => .ok (key, .ready v)
  | (key, .ptr p) =>
    match env.cache p.file p.offset with
    | some hit => do
      let v ← recordValueFor hit key
      .ok (key, .ready v)
    | none => .ok (key, .ptr p)

/-- Add an index to the group of its file. -/
def pushIdx (file i : ℕ) : List (ℕ × List ℕ) → List (ℕ × List ℕ)
  | [] => [(file, [i])]
  | (f, idxs) :: groups =>
    if f = file then (f, idxs ++ [i]) :: groups else (f, idxs) :: pushIdx file i groups

def groupEntry (groups : List (ℕ × List ℕ)) : (Bytes × Pending) × ℕ → List (ℕ × List ℕ)
  | ((_, .ready _), _) => groups
  | ((_, .ptr p), i) => pushIdx p.file i groups

/-- The indices of the unresolved pointers, grouped by file. -/
def byFile (window : List (Bytes × Pending)) : List (ℕ × List ℕ) :=
  window.zipIdx.foldl groupEntry []

/-- The reads of a group. -/
def groupItems (window : List (Bytes × Pending)) (idxs : List ℕ) : List (ℕ × ValuePtr × Bytes) :=
  idxs.filterMap fun i => match window[i]? with
    | some (key, Pending.ptr p) => some (i, p, key)
    | _ => none

/-- Put the values read back in their places. -/
def fillIn (window : List (Bytes × Pending)) (values : List (ℕ × Bytes)) : List (Bytes × Pending) :=
  values.foldl (fun window x => window.modify x.1 fun w => (w.1, .ready x.2)) window

/-- One batched read of a file. -/
def FillEnv.readGroup (env : FillEnv) (vlogs : List ℕ) (window : List (Bytes × Pending))
    (group : ℕ × List ℕ) :
    Except Error (List (Bytes × Pending)) :=
  if group.1 ∈ vlogs then do
    let values ← (groupItems window group.2).mapM fun x => do
      let v ← env.vlog.readValue x.2.1 x.2.2
      .ok (x.1, v)
    .ok (fillIn window values)
  else .error (.corruption ("pointer into unknown vlog file " ++ toString group.1))

/-- The value an entry of a window has in the end. -/
def readyValue : Bytes × Pending → Except Error (Bytes × Bytes)
  | (key, .ready v) => .ok (key, v)
  | (_, .ptr _) => .error (.background "internal error: entered unreachable code")

structure DbIterator where
  mvcc : MvccIter
  /-- The value-log files of the view. -/
  vlogs : List ℕ
  ready : List (Bytes × Bytes)
  exhausted : Bool
  errored : Bool

namespace DbIterator

def new (children : List ChildIter) (rounds : ℕ) (vlogs : List ℕ) (snap : ℕ) (lo : Bytes)
    (hi : Option Bytes) (reverse : Bool) : DbIterator :=
  let merge := MergeIterator.new children reverse
  let mvcc := if reverse then MvccIter.rev (.new merge rounds snap lo hi) else .fwd
    (.new merge rounds snap lo hi)
  ⟨mvcc, vlogs, [], false, false⟩

def fill (env : FillEnv) (it : DbIterator) : Except Error DbIterator :=
  if it.exhausted then .ok it
  else do
    let (mvcc, exhausted, window) ← pullWindow PREFETCH_ENTRIES 0 it.mvcc
    let window ← window.mapM env.serve
    let window ← (env.arrange (byFile window)).foldlM (env.readGroup it.vlogs) window
    let ready ← window.mapM readyValue
    .ok { it with mvcc := mvcc, exhausted := exhausted, ready := it.ready ++ ready }

def pop (it : DbIterator) : DbIterator × Option (Except Error (Bytes × Bytes)) :=
  match it.ready with
  | [] => (it, none)
  | x :: ready => ({ it with ready := ready }, some (.ok x))

def next (env : FillEnv) (it : DbIterator) : DbIterator × Option (Except Error (Bytes × Bytes)) :=
  if it.errored then (it, none)
  else if it.ready = [] then
    match it.fill env with
    | .error err => ({ it with errored := true }, some (.error err))
    | .ok it => it.pop
  else it.pop

end DbIterator

/-! ### Windows -/

/-- A stored pair and the pair it stands for. -/
def Resolves (log : Vlog) (vlogs : List ℕ) (x : Bytes × ReprRef) (y : Bytes × Bytes) : Prop :=
  x.1 = y.1 ∧ log.Holds x.1 x.2 (some y.2) ∧ ∀ p, x.2 = .ptr p → p.file ∈ vlogs

/-- The log still holds what it held, nothing else is cached, and a hash map
is walked in some order. -/
structure FillEnv.Serves (env : FillEnv) (log : Vlog) : Prop where
  wf : ∃ next, env.vlog.WF next
  kept : ∀ r ∈ log.records, r ∈ env.vlog.records
  hit : ∀ r ∈ env.vlog.records, ∀ hit, env.cache r.ptr.file r.ptr.offset = some hit →
    hit = (r.key, r.value)
  arrange : ∀ groups, (env.arrange groups).Perm groups

/-- An entry of a window is on the way to its pair. -/
def Shown (records : List VlogRecord) (vlogs : List ℕ) (w : Bytes × Pending) (y : Bytes × Bytes) :
    Prop :=
  w.1 = y.1 ∧ match w.2 with
    | .ready v => v = y.2
    | .ptr p => p.file ∈ vlogs ∧ ⟨p, y.1, y.2⟩ ∈ records

/-- The unresolved pointers of a window are those of the groups, each in the
group of its file. -/
structure FileGroups (window : List (Bytes × Pending)) (groups : List (ℕ × List ℕ)) : Prop where
  files : groups.Pairwise fun g g' => g.1 ≠ g'.1
  nonempty : ∀ g ∈ groups, g.2 ≠ []
  mem : ∀ g ∈ groups, ∀ i, i ∈ g.2 ↔ ∃ key p, window[i]? = some (key, .ptr p) ∧ p.file = g.1
  all : ∀ (i : ℕ) key p, window[i]? = some (key, Pending.ptr p) → ∃ g ∈ groups, g.1 = p.file

section Windows

variable {log : Vlog} {vlogs : List ℕ} {env : FillEnv} {window : List (Bytes × Pending)}
  {values : List (Bytes × Bytes)}

/-- **Pulling** takes a window off the pairs to come. -/
theorem pullWindow_spec {n bytes : ℕ} {mvcc : MvccIter} {pairs : List (Bytes × ReprRef)}
    (hyields : Yields (Pulls MvccIter.nextVisible) mvcc pairs)
    (hpairs : List.Forall₂ (Resolves log vlogs) pairs values) :
    ∃ mvcc' exhausted window front back, pullWindow n bytes mvcc = .ok (mvcc', exhausted, window) ∧
      values = front ++ back ∧ List.Forall₂ (Shown log.records vlogs) window front ∧
      (if exhausted then back = []
        else ∃ pairs', Yields (Pulls MvccIter.nextVisible) mvcc' pairs' ∧
          List.Forall₂ (Resolves log vlogs) pairs' back) ∧
      (0 < n → bytes < PREFETCH_BYTES → front = [] → exhausted = true) := by
  induction n generalizing bytes mvcc pairs values with
  | zero =>
    exact ⟨mvcc, false, [], [], values, rfl, rfl, .nil, ⟨pairs, hyields, hpairs⟩,
      fun h => absurd h (lt_irrefl 0)⟩
  | succ n ih =>
    rw [pullWindow]
    by_cases hbytes : PREFETCH_BYTES ≤ bytes
    · rw [if_pos hbytes]
      exact ⟨mvcc, false, [], [], values, rfl, rfl, .nil, ⟨pairs, hyields, hpairs⟩,
        fun _ h => absurd h (not_lt.mpr hbytes)⟩
    rw [if_neg hbytes]
    cases hpairs with
    | nil =>
      -- the scan is over: the window ends, and says so
      have hnone : mvcc.nextVisible = (mvcc.nextVisible.1, none) := Prod.ext rfl (hyields _ _ rfl)
      rw [hnone]
      exact ⟨_, true, [], [], [], rfl, rfl, .nil, rfl, fun _ _ _ => rfl⟩
    | @cons x y pairs values hxy hpairs =>
      -- one pair is pulled, and the rest of the window follows it
      obtain ⟨hout, hrest⟩ := hyields mvcc.nextVisible.1 mvcc.nextVisible.2 rfl
      have hsome : mvcc.nextVisible = (mvcc.nextVisible.1, some x) := Prod.ext rfl hout
      obtain ⟨key, repr⟩ := x
      obtain ⟨hkey, hholds, hfile⟩ := hxy
      rw [hsome]
      cases repr with
      | empty => exact absurd hholds (by simp [Vlog.Holds])
      | inline v =>
        obtain ⟨mvcc', exhausted, window, front, back, hpull, hvalues, hshown, hback, -⟩ :=
          @ih _ (bytes + (key.length + v.length)) _ _ hrest hpairs
        refine ⟨mvcc', exhausted, (key, .ready v) :: window, y :: front, back, ?_, ?_,
          .cons ?_ hshown, hback, fun _ _ h => absurd h (by simp)⟩
        · simp only [hpull]
          rfl
        · rw [hvalues, List.cons_append]
        · exact ⟨hkey, (Option.some_inj.mp hholds).symm⟩
      | ptr p =>
        obtain ⟨mvcc', exhausted, window, front, back, hpull, hvalues, hshown, hback, -⟩ :=
          @ih _ (bytes + (key.length + p.len)) _ _ hrest hpairs
        refine ⟨mvcc', exhausted, (key, .ptr p) :: window, y :: front, back, ?_, ?_,
          .cons ?_ hshown, hback, fun _ _ h => absurd h (by simp)⟩
        · simp only [hpull]
          rfl
        · rw [hvalues, List.cons_append]
        · obtain ⟨w, hw, hmem⟩ := hholds
          obtain rfl := Option.some_inj.mp hw
          exact ⟨hkey, hfile p rfl, hkey ▸ hmem⟩

/-- Serving from the cache. -/
theorem serve_spec (h : env.Serves log) {w : Bytes × Pending} {y : Bytes × Bytes}
    (hw : Shown env.vlog.records vlogs w y) :
    ∃ w', env.serve w = .ok w' ∧ Shown env.vlog.records vlogs w' y := by
  obtain ⟨key, pending⟩ := w
  cases pending with
  | ready v => exact ⟨_, rfl, hw⟩
  | ptr p =>
    obtain ⟨hkey, hfile, hmem⟩ := hw
    simp only at hkey
    unfold FillEnv.serve
    simp only
    cases hhit : env.cache p.file p.offset with
    | none => exact ⟨_, rfl, hkey, hfile, hmem⟩
    | some hit =>
      obtain rfl := h.hit _ hmem hit hhit
      refine ⟨(key, .ready y.2), ?_, hkey, rfl⟩
      simp only [recordValueFor, if_pos hkey.symm]
      rfl

/-- An index goes to the group of its file, the last one of it, or starts it. -/
theorem mem_pushIdx {file i : ℕ} {groups : List (ℕ × List ℕ)}
    (hd : groups.Pairwise fun g g' => g.1 ≠ g'.1) {g : ℕ × List ℕ} (h : g ∈ pushIdx file i groups) :
    (g.1 ≠ file ∧ g ∈ groups) ∨ g.1 = file ∧ ((∃ idxs, (file, idxs) ∈ groups ∧ g.2 = idxs ++ [i]) ∨
      (∀ g' ∈ groups, g'.1 ≠ file) ∧ g.2 = [i]) := by
  induction groups with
  | nil =>
    obtain rfl := List.mem_singleton.mp h
    exact Or.inr ⟨rfl, Or.inr ⟨fun g' hg' => absurd hg' List.not_mem_nil, rfl⟩⟩
  | cons g₀ groups ih =>
    obtain ⟨f, idxs⟩ := g₀
    obtain ⟨hhead, htail⟩ := List.pairwise_cons.mp hd
    rw [pushIdx] at h
    by_cases hf : f = file
    · subst hf
      rw [if_pos rfl] at h
      rcases List.mem_cons.mp h with rfl | h
      · exact Or.inr ⟨rfl, Or.inl ⟨idxs, List.mem_cons_self, rfl⟩⟩
      · exact Or.inl ⟨(hhead g h).symm, List.mem_cons_of_mem _ h⟩
    · rw [if_neg hf] at h
      rcases List.mem_cons.mp h with rfl | h
      · exact Or.inl ⟨hf, List.mem_cons_self⟩
      · rcases ih htail h with ⟨hne, hg⟩ | ⟨hg, ⟨idxs', hmem, heq⟩ | ⟨hnone, heq⟩⟩
        · exact Or.inl ⟨hne, List.mem_cons_of_mem _ hg⟩
        · exact Or.inr ⟨hg, Or.inl ⟨idxs', List.mem_cons_of_mem _ hmem, heq⟩⟩
        · refine Or.inr ⟨hg, Or.inr ⟨fun g' hg' => ?_, heq⟩⟩
          rcases List.mem_cons.mp hg' with rfl | hg'
          · exact hf
          · exact hnone g' hg'

theorem pairwise_pushIdx {file i : ℕ} {groups : List (ℕ × List ℕ)}
    (hd : groups.Pairwise fun g g' => g.1 ≠ g'.1) :
    (pushIdx file i groups).Pairwise fun g g' => g.1 ≠ g'.1 := by
  induction groups with
  | nil => exact List.pairwise_singleton _ _
  | cons g₀ groups ih =>
    obtain ⟨f, idxs⟩ := g₀
    obtain ⟨hhead, htail⟩ := List.pairwise_cons.mp hd
    rw [pushIdx]
    by_cases hf : f = file
    · rw [if_pos hf]
      exact List.pairwise_cons.mpr ⟨hhead, htail⟩
    · rw [if_neg hf]
      refine List.pairwise_cons.mpr ⟨fun g hg => ?_, ih htail⟩
      rcases mem_pushIdx htail hg with ⟨-, hg⟩ | ⟨hg, -⟩
      · exact hhead g hg
      · exact fun heq => hf (heq.trans hg)

theorem exists_pushIdx (file i : ℕ) (groups : List (ℕ × List ℕ)) :
    (∃ g ∈ pushIdx file i groups, g.1 = file) ∧
      ∀ g ∈ groups, ∃ g' ∈ pushIdx file i groups, g'.1 = g.1 := by
  induction groups with
  | nil => exact ⟨⟨_, List.mem_singleton_self _, rfl⟩, fun g hg => absurd hg List.not_mem_nil⟩
  | cons g₀ groups ih =>
    obtain ⟨f, idxs⟩ := g₀
    obtain ⟨⟨g, hg, hfile⟩, hrest⟩ := ih
    rw [pushIdx]
    by_cases hf : f = file
    · rw [if_pos hf]
      refine ⟨⟨_, List.mem_cons_self, hf⟩, fun g hg => ?_⟩
      rcases List.mem_cons.mp hg with rfl | hg
      · exact ⟨_, List.mem_cons_self, rfl⟩
      · exact ⟨g, List.mem_cons_of_mem _ hg, rfl⟩
    · rw [if_neg hf]
      refine ⟨⟨g, List.mem_cons_of_mem _ hg, hfile⟩, fun g hg => ?_⟩
      rcases List.mem_cons.mp hg with rfl | hg
      · exact ⟨_, List.mem_cons_self, rfl⟩
      · obtain ⟨g', hg', heq⟩ := hrest g hg
        exact ⟨g', List.mem_cons_of_mem _ hg', heq⟩

theorem getElem?_snoc {α : Type} {l : List α} {a x : α} {i : ℕ} :
    (l ++ [a])[i]? = some x ↔ l[i]? = some x ∨ i = l.length ∧ a = x := by
  by_cases hi : i < l.length
  · rw [List.getElem?_append_left hi]
    exact (or_iff_left fun h => absurd h.1 (ne_of_lt hi)).symm
  · rw [List.getElem?_append_right (not_lt.mp hi), List.getElem?_eq_none (not_lt.mp hi)]
    rcases Nat.eq_or_lt_of_le (not_lt.mp hi) with heq | hlt
    · simp [heq]
    · rw [List.getElem?_eq_none (by simp only [List.length_singleton]; omega)]
      simp only [reduceCtorEq, false_or, false_iff, not_and]
      exact fun heq => absurd heq (by omega)

/-- One more entry of the window. -/
theorem FileGroups.snoc {groups : List (ℕ × List ℕ)} (h : FileGroups window groups)
    (w : Bytes × Pending) :
    FileGroups (window ++ [w]) (groupEntry groups (w, window.length)) := by
  obtain ⟨key, pending⟩ := w
  cases pending with
  | ready v =>
    -- an inline value is in no group
    have hget : ∀ {i : ℕ} {k p}, (window ++ [(key, Pending.ready v)])[i]? = some (k, .ptr p) ↔
        window[i]? = some (k, .ptr p) := by
      intro i k p
      rw [getElem?_snoc]
      exact or_iff_left fun h => absurd h.2 (by simp)
    exact ⟨h.files, h.nonempty, fun g hg i => by simp only [hget, h.mem g hg i],
      fun i k p hi => h.all i k p (hget.mp hi)⟩
  | ptr p =>
    -- a pointer joins the group of its file, or opens one
    refine ⟨pairwise_pushIdx h.files, fun g hg => ?_, fun g hg i => ?_, fun i k q hi => ?_⟩
    · rcases mem_pushIdx h.files hg with ⟨-, hg⟩ | ⟨-, ⟨idxs, -, heq⟩ | ⟨-, heq⟩⟩
      · exact h.nonempty g hg
      · simp [heq]
      · simp [heq]
    · have hget : (∃ k q, (window ++ [(key, Pending.ptr p)])[i]? = some (k, .ptr q) ∧
        q.file = g.1) ↔
          (∃ k q, window[i]? = some (k, .ptr q) ∧ q.file = g.1) ∨ i = window.length ∧
            p.file = g.1 := by
        simp only [getElem?_snoc]
        constructor
        · rintro ⟨k, q, hi | ⟨rfl, heq⟩, hq⟩
          · exact Or.inl ⟨k, q, hi, hq⟩
          · obtain rfl := Pending.ptr.inj (Prod.mk.inj heq).2
            exact Or.inr ⟨rfl, hq⟩
        · rintro (⟨k, q, hi, hq⟩ | ⟨rfl, hq⟩)
          · exact ⟨k, q, Or.inl hi, hq⟩
          · exact ⟨key, p, Or.inr ⟨rfl, rfl⟩, hq⟩
      rw [hget]
      rcases mem_pushIdx h.files hg with ⟨hne, hg⟩ | ⟨hfile, ⟨idxs, hmem, heq⟩ | ⟨hnone, heq⟩⟩
      · rw [h.mem g hg i]
        exact (or_iff_left fun hi => hne hi.2.symm).symm
      · rw [heq, List.mem_append, h.mem _ hmem i, List.mem_singleton, hfile]
        exact or_congr_right (and_iff_left rfl).symm
      · rw [heq, List.mem_singleton, hfile]
        refine ⟨fun hi => Or.inr ⟨hi, rfl⟩, ?_⟩
        rintro (⟨k, q, hi, hq⟩ | ⟨hi, -⟩)
        · obtain ⟨g', hg', hfile'⟩ := h.all i k q hi
          exact absurd (hfile'.trans hq) (hnone g' hg')
        · exact hi
    · obtain ⟨hnew, hold⟩ := exists_pushIdx p.file window.length groups
      rcases getElem?_snoc.mp hi with hi | ⟨-, heq⟩
      · obtain ⟨g, hg, hfile⟩ := h.all i k q hi
        obtain ⟨g', hg', heq⟩ := hold g hg
        exact ⟨g', hg', heq.trans hfile⟩
      · obtain rfl := Pending.ptr.inj (Prod.mk.inj heq).2
        exact hnew

theorem fileGroups_byFile (window : List (Bytes × Pending)) :
    FileGroups window (byFile window) := by
  -- the entries already grouped are a prefix of the window
  have hinit : ∀ (rest front : List (Bytes × Pending)) groups, FileGroups front groups →
      FileGroups (front ++ rest) ((rest.zipIdx front.length).foldl groupEntry groups) := by
    intro rest
    induction rest with
    | nil =>
      intro front groups h
      rwa [List.append_nil]
    | cons w rest ih =>
      intro front groups h
      have hnext := ih (front ++ [w]) _ (h.snoc w)
      rwa [List.append_assoc, List.length_append] at hnext
  exact hinit window [] []
    ⟨.nil, fun g hg => absurd hg List.not_mem_nil, fun g hg => absurd hg List.not_mem_nil,
    fun i k p hi => absurd hi (by simp)⟩

theorem FileGroups.perm {groups groups' : List (ℕ × List ℕ)} (h : FileGroups window groups)
    (hperm : groups'.Perm groups) : FileGroups window groups' :=
  ⟨h.files.perm hperm.symm fun hne => hne.symm, fun g hg => h.nonempty g (hperm.mem_iff.mp hg),
    fun g hg => h.mem g (hperm.mem_iff.mp hg), fun i k p hi => by
      obtain ⟨g, hg, hfile⟩ := h.all i k p hi
      exact ⟨g, hperm.mem_iff.mpr hg, hfile⟩⟩

/-- Values put back at the places they belong to. -/
theorem fillIn_spec {records : List VlogRecord} {found : List (ℕ × Bytes)}
    (hshown : List.Forall₂ (Shown records vlogs) window values)
    (hfound : ∀ x ∈ found, ∃ key, values[x.1]? = some (key, x.2)) :
    List.Forall₂ (Shown records vlogs) (fillIn window found) values ∧
      ∀ i, (i ∉ found.map Prod.fst → (fillIn window found)[i]? = window[i]?) ∧
        (i ∈ found.map Prod.fst → ∀ key p, (fillIn window found)[i]? ≠ some (key, .ptr p)) := by
  induction found generalizing window with
  | nil => exact ⟨hshown, fun i => ⟨fun _ => rfl, fun hi => absurd hi List.not_mem_nil⟩⟩
  | cons x found ih =>
    obtain ⟨key, hvalue⟩ := hfound x List.mem_cons_self
    -- the value belongs to its place, so the window still shows the same
    have hshown' : List.Forall₂ (Shown records vlogs) (window.modify x.1 fun w => (w.1, .ready x.2))
        values := by
      rw [List.forall₂_iff_get] at hshown ⊢
      refine ⟨by rw [List.length_modify]; exact hshown.1, fun i hi hi' => ?_⟩
      rw [List.length_modify] at hi
      have hw := hshown.2 i hi hi'
      simp only [List.get_eq_getElem, List.getElem_modify] at hw ⊢
      split
      · rename_i heq
        subst heq
        have hget := List.getElem?_eq_some_iff.mp hvalue
        exact ⟨hw.1, by rw [hget.2]⟩
      · exact hw
    obtain ⟨hall, hplaces⟩ := ih hshown' fun y hy => hfound y (List.mem_cons_of_mem _ hy)
    refine ⟨hall, fun i => ⟨fun hi => ?_, fun hi key p hptr => ?_⟩⟩
    · rw [List.map_cons, List.mem_cons, not_or] at hi
      rw [show fillIn window (x :: found) =
        fillIn (window.modify x.1 fun w => (w.1, .ready x.2)) found from rfl,
        (hplaces i).1 hi.2, List.getElem?_modify_ne _ _ (Ne.symm hi.1)]
    · by_cases hmem : i ∈ found.map Prod.fst
      · exact (hplaces i).2 hmem key p hptr
      · rw [show fillIn window (x :: found) =
          fillIn (window.modify x.1 fun w => (w.1, .ready x.2)) found from rfl,
          (hplaces i).1 hmem] at hptr
        rw [List.map_cons, List.mem_cons] at hi
        obtain rfl := hi.resolve_right hmem
        rw [List.getElem?_modify_eq] at hptr
        obtain ⟨w, -, hw⟩ := Option.map_eq_some_iff.mp hptr
        exact absurd (Prod.mk.inj hw).2 (by simp)

/-- **One batched read** resolves the pointers of its group. -/
theorem readGroup_spec (h : env.Serves log) {g : ℕ × List ℕ} {groups : List (ℕ × List ℕ)}
    (hshown : List.Forall₂ (Shown env.vlog.records vlogs) window values)
    (hg : FileGroups window (g :: groups)) :
    ∃ window', env.readGroup vlogs window g = .ok window' ∧
      List.Forall₂ (Shown env.vlog.records vlogs) window' values ∧ FileGroups window' groups := by
  have hmem := hg.mem g List.mem_cons_self
  have hvalue : ∀ (i : ℕ) key p, window[i]? = some (key, Pending.ptr p) →
      ∃ v, values[i]? = some (key, v) ∧ p.file ∈ vlogs ∧ ⟨p, key, v⟩ ∈ env.vlog.records := by
    intro i key p hi
    obtain ⟨hlen, hget⟩ := List.getElem?_eq_some_iff.mp hi
    have hlen' : i < values.length := hshown.length_eq ▸ hlen
    have hrel := (List.forall₂_iff_get.mp hshown).2 i hlen hlen'
    simp only [List.get_eq_getElem, hget] at hrel
    obtain ⟨hkey, hfile, hrec⟩ := hrel
    simp only at hkey
    refine ⟨values[i].2, ?_, hfile, hkey ▸ hrec⟩
    rw [hkey]
    exact List.getElem?_eq_getElem hlen'
  have hitem : ∀ x ∈ groupItems window g.2, x.1 ∈ g.2 ∧
      window[x.1]? = some (x.2.2, .ptr x.2.1) := by
    intro x hx
    obtain ⟨i, hi, hsome⟩ := List.mem_filterMap.mp hx
    split at hsome
    · rename_i key p hget
      obtain rfl := Option.some_inj.mp hsome
      exact ⟨hi, hget⟩
    · exact absurd hsome (by simp)
  have hread : ∀ x z : ℕ × ValuePtr × Bytes, (x = z ∧ x ∈ groupItems window g.2) →
      ∃ y, (do let v ← env.vlog.readValue x.2.1 x.2.2; .ok (x.1, v) : Except Error (ℕ × Bytes)) =
        .ok y ∧ y.1 = z.1 ∧ values[y.1]? = some (z.2.2, y.2) := by
    rintro x _ ⟨rfl, hx⟩
    obtain ⟨v, hv, -, hrec⟩ := hvalue _ _ _ (hitem x hx).2
    obtain ⟨next, hwf⟩ := h.wf
    refine ⟨(x.1, v), ?_, rfl, hv⟩
    rw [hwf.readValue_eq hrec]
    rfl
  obtain ⟨found, hfound, hrel⟩ := mapM_of_forall₂ hread
    (l := groupItems window g.2) (List.forall₂_same.mpr fun x hx => ⟨rfl, hx⟩)
  have hplace : ∀ x ∈ found, ∃ key, values[x.1]? = some (key, x.2) := by
    intro x hx
    obtain ⟨i, hi⟩ := List.mem_iff_get.mp hx
    have := (List.forall₂_iff_get.mp hrel).2 i i.2 (hrel.length_eq ▸ i.2)
    rw [hi] at this
    exact ⟨_, this.2⟩
  have hindices : ∀ i, i ∈ found.map Prod.fst ↔ i ∈ g.2 := by
    have hmap : List.Forall₂ (· = ·) (found.map Prod.fst)
        ((groupItems window g.2).map Prod.fst) := by
      rw [List.forall₂_map_left_iff, List.forall₂_map_right_iff]
      exact hrel.imp fun _ _ hxy => hxy.1
    rw [List.forall₂_eq_eq_eq] at hmap
    intro i
    rw [hmap, List.mem_map]
    constructor
    · rintro ⟨x, hx, rfl⟩
      exact (hitem x hx).1
    · intro hi
      obtain ⟨key, p, hget, -⟩ := (hmem i).mp hi
      exact ⟨(i, p, key), List.mem_filterMap.mpr ⟨i, hi, by rw [hget]⟩, rfl⟩
  obtain ⟨hshown', hplaces⟩ := fillIn_spec hshown hplace
  have hfile : g.1 ∈ vlogs := by
    obtain ⟨i, idxs, hidx⟩ := List.exists_cons_of_ne_nil (hg.nonempty g List.mem_cons_self)
    obtain ⟨key, p, hget, heq⟩ := (hmem i).mp (hidx ▸ List.mem_cons_self)
    obtain ⟨-, -, hin, -⟩ := hvalue _ _ _ hget
    exact heq ▸ hin
  refine ⟨fillIn window found, ?_, hshown', (List.pairwise_cons.mp hg.files).2,
    fun g' hg' => hg.nonempty g' (List.mem_cons_of_mem _ hg'),
      fun g' hg' i => ?_, fun i key p hi => ?_⟩
  · unfold FillEnv.readGroup
    rw [if_pos hfile]
    simp only [hfound]
    rfl
  · rw [hg.mem g' (List.mem_cons_of_mem _ hg') i]
    by_cases hi : i ∈ found.map Prod.fst
    · -- the entries read back belong to this file alone
      obtain ⟨key, p, hget, heq⟩ := (hmem i).mp ((hindices i).mp hi)
      constructor
      · rintro ⟨key', p', hget', heq'⟩
        rw [hget] at hget'
        obtain rfl := Pending.ptr.inj (Prod.mk.inj (Option.some_inj.mp hget')).2
        exact absurd (heq.symm.trans heq') ((List.pairwise_cons.mp hg.files).1 g' hg')
      · rintro ⟨key', p', hget', -⟩
        exact absurd hget' ((hplaces i).2 hi key' p')
    · rw [(hplaces i).1 hi]
  · by_cases hin : i ∈ found.map Prod.fst
    · exact absurd hi ((hplaces i).2 hin key p)
    · rw [(hplaces i).1 hin] at hi
      obtain ⟨g', hg', heq⟩ := hg.all i key p hi
      rcases List.mem_cons.mp hg' with rfl | hg'
      · exact absurd ((hindices i).mpr ((hmem i).mpr ⟨key, p, hi, heq.symm⟩)) hin
      · exact ⟨g', hg', heq⟩

/-- All groups, in whatever order. -/
theorem readGroups_spec (h : env.Serves log) {groups : List (ℕ × List ℕ)}
    (hshown : List.Forall₂ (Shown env.vlog.records vlogs) window values)
    (hg : FileGroups window groups) :
    ∃ window', groups.foldlM (env.readGroup vlogs) window = .ok window' ∧
      List.Forall₂ (fun w y => w = (y.1, Pending.ready y.2)) window' values := by
  induction groups generalizing window with
  | nil =>
    refine ⟨window, rfl, ?_⟩
    rw [List.forall₂_iff_get] at hshown ⊢
    refine ⟨hshown.1, fun i hi hi' => ?_⟩
    obtain ⟨hkey, hpending⟩ := hshown.2 i hi hi'
    cases hw : window.get ⟨i, hi⟩ with
    | mk key pending =>
      rw [hw] at hkey hpending
      cases pending with
      | ready v => exact Prod.ext hkey (congrArg Pending.ready hpending)
      | ptr p =>
        have hget : window[i]? = some (key, .ptr p) := by
          rw [List.getElem?_eq_getElem hi]
          exact congrArg some hw
        obtain ⟨g, hg', -⟩ := hg.all i key p hget
        exact absurd hg' List.not_mem_nil
  | cons g groups ih =>
    obtain ⟨window', hread, hshown', hg'⟩ := readGroup_spec h hshown hg
    obtain ⟨out, hout, hready⟩ := ih hshown' hg'
    refine ⟨out, ?_, hready⟩
    rw [List.foldlM_cons, hread]
    exact hout

theorem Shown.mono {records records' : List VlogRecord} (hsub : ∀ r ∈ records, r ∈ records')
    {w : Bytes × Pending} {y : Bytes × Bytes} (h : Shown records vlogs w y) :
    Shown records' vlogs w y := by
  obtain ⟨key, pending⟩ := w
  cases pending with
  | ready v => exact h
  | ptr p => exact ⟨h.1, h.2.1, hsub _ h.2.2⟩

end Windows

namespace DbIterator

variable {log : Vlog} {it : DbIterator} {l : List (Bytes × Bytes)}

/-- A pull, with whatever the fill finds around it. -/
def Pulls (log : Vlog) (it it' : DbIterator) (a : Option (Except Error (Bytes × Bytes))) : Prop :=
  ∃ env : FillEnv, env.Serves log ∧ it.next env = (it', a)

/-- The pairs the visibility pass has yet to hand out stand for `l`. -/
def Comes (log : Vlog) (it : DbIterator) (l : List (Bytes × Bytes)) : Prop :=
  if it.exhausted then l = []
  else ∃ pairs, Yields (Fluent31.Pulls MvccIter.nextVisible) it.mvcc pairs ∧
    List.Forall₂ (Resolves log it.vlogs) pairs l

/-- **A fill** moves a window of pairs from those to come to those ready. -/
theorem fill_spec {env : FillEnv} (h : env.Serves log) (hl : Comes log it l) :
    ∃ it' front back, it.fill env = .ok it' ∧ l = front ++ back ∧ it'.ready = it.ready ++ front ∧
      it'.errored = it.errored ∧ Comes log it' back ∧ (front = [] → back = []) := by
  unfold Comes at hl
  unfold fill
  by_cases hex : it.exhausted = true
  · rw [if_pos hex] at hl ⊢
    subst hl
    refine ⟨it, [], [], rfl, rfl, (List.append_nil _).symm, rfl, ?_, fun _ => rfl⟩
    unfold Comes
    rw [if_pos hex]
  · rw [if_neg hex] at hl ⊢
    obtain ⟨pairs, hyields, hpairs⟩ := hl
    obtain ⟨mvcc, exhausted, window, front, back, hpull, hl, hshown, hback, hsome⟩ :=
      @pullWindow_spec _ _ _ PREFETCH_ENTRIES 0 _ _ hyields hpairs
    obtain ⟨served, hserved, hshown⟩ := mapM_of_forall₂ (fun w y hw => serve_spec h hw)
      (hshown.imp fun w y hw => hw.mono h.kept)
    obtain ⟨settled, hsettled, hready⟩ :=
      readGroups_spec h hshown ((fileGroups_byFile served).perm (h.arrange _))
    obtain ⟨ready, hvalues, heq⟩ :=
      mapM_of_forall₂ (f := readyValue) (R := fun w y => w = (y.1, .ready y.2))
      (fun w y hw => ⟨y, by rw [hw]; rfl, rfl⟩) hready
    rw [List.forall₂_eq_eq_eq] at heq
    subst heq
    refine ⟨{ it with mvcc := mvcc, exhausted := exhausted, ready := it.ready ++ ready }, ready,
      back, ?_, hl, rfl, rfl, hback, fun hnil => ?_⟩
    · simp only [hpull, bind, Except.bind, hserved, hsettled, hvalues]
    · rw [if_pos (hsome (by decide) (by decide) hnil)] at hback
      exact hback

/-- The iterator has `l` left to hand out. -/
def Remains (log : Vlog) (it : DbIterator) (l : List (Except Error (Bytes × Bytes))) : Prop :=
  it.errored = false ∧ ∃ back, Comes log it back ∧ l = (it.ready ++ back).map .ok

theorem pop_spec {back : List (Bytes × Bytes)} {l : List (Except Error (Bytes × Bytes))}
    (herr : it.errored = false) (hback : Comes log it back) (hsome : it.ready = [] → back = [])
    (hl : l = (it.ready ++ back).map .ok) : it.pop.2 = l.head? ∧ Remains log it.pop.1 l.tail := by
  subst hl
  unfold pop
  cases hready : it.ready with
  | nil =>
    obtain rfl := hsome hready
    exact ⟨rfl, herr, [], hback, by rw [hready]; rfl⟩
  | cons x ready => exact ⟨rfl, herr, back, hback, rfl⟩

/-- **One pull** hands out the next pair; after the last, nothing any more. -/
theorem Remains.next {l : List (Except Error (Bytes × Bytes))} {env : FillEnv}
    (h : Remains log it l)
    (henv : env.Serves log) : (it.next env).2 = l.head? ∧ Remains log (it.next env).1 l.tail := by
  obtain ⟨herr, back, hback, rfl⟩ := h
  unfold DbIterator.next
  rw [herr, if_neg Bool.false_ne_true]
  by_cases hready : it.ready = []
  · obtain ⟨filled, front, back', hfill, rfl, hready', herr', hback', hsome⟩ := fill_spec henv hback
    rw [if_pos hready, hfill]
    have hrest : it.ready ++ (front ++ back') = filled.ready ++ back' := by
      rw [hready', List.append_assoc]
    refine pop_spec (herr'.trans herr) hback' (fun hnil => hsome ?_) (congrArg _ hrest)
    rw [hready', hready] at hnil
    exact hnil
  · rw [if_neg hready]
    exact pop_spec herr hback (fun hnil => absurd hnil hready) rfl

theorem Remains.yields {l : List (Except Error (Bytes × Bytes))} (h : Remains log it l) :
    Yields (Pulls log) it l := by
  refine Yields.of_remains (R := Remains log) ?_ h
  rintro it l hl it' a ⟨env, henv, hnext⟩
  obtain ⟨ha, hrest⟩ := hl.next henv
  rw [hnext] at ha hrest
  exact ⟨ha, fun _ => hrest⟩

end DbIterator

/-! ### Scans -/

/-- All versions the sources hold. -/
def versions (sources : List BlockedSource) : List Entry := sources.flatMap BlockedSource.entries

def children (sources : List BlockedSource) : List ChildIter := sources.map BlockedSource.iter

/-- Within the bounds. -/
def within (lo : Bytes) (hi : Option Bytes) (e : Entry) : Bool :=
  MvccForward.below hi e && decide (lo ≤ e.ukey)

section Scan

variable {sources : List BlockedSource} {merged : List Entry} {lo : Bytes} {hi : Option Bytes}

/-- The newest seek target of a key stands before all its versions. -/
theorem seek_max_le_iff {e : Entry} (h : e.seq ≤ MAX_SEQNO) :
    makeSeekIkey lo MAX_SEQNO ≤ e.ikey ↔ lo ≤ e.ukey := by
  rw [seek_le_iff, and_iff_left h, le_iff_lt_or_eq]

theorem le_seek_max_iff {e : Entry} (h : e.seq ≤ MAX_SEQNO) :
    e.ikey ≤ makeSeekIkey lo MAX_SEQNO ↔ e.ukey < lo := by
  have hne : e.ikey ≠ makeSeekIkey lo MAX_SEQNO := by
    intro heq
    have htrailer : packTrailer e.seq e.kind.toNat = packTrailer MAX_SEQNO SEEK_KIND :=
      congrArg OrderDual.ofDual (congrArg Prod.snd (congrArg ofLex heq))
    have := e.kind.toNat_le
    simp only [packTrailer, SEEK_KIND] at htrailer
    omega
  rw [← not_le, ← seek_max_le_iff h, not_le]
  exact ⟨fun hle => lt_of_le_of_ne hle hne, le_of_lt⟩

theorem below_of_le {e f : Entry} (h : e.ukey ≤ f.ukey) (hf : MvccForward.below hi f = true) :
    MvccForward.below hi e = true := by
  cases hi with
  | none => rfl
  | some hi =>
    simp only [MvccForward.below, Option.any_some, Bool.not_eq_true', decide_eq_false_iff_not,
      not_le] at hf ⊢
    exact lt_of_le_of_lt h hf

/-- What the forward pass is shown. -/
theorem forward_bounds (h : Sorted merged) (hseq : ∀ e ∈ merged, e.seq ≤ MAX_SEQNO) :
    (merged.dropWhile fun e => decide (e.ikey < makeSeekIkey lo MAX_SEQNO)).takeWhile
      (MvccForward.below hi) = merged.filter (within lo hi) := by
  rw [dropWhile_eq_filter h, takeWhile_of_antitone, List.filter_filter]
  · refine List.filter_congr fun e he => ?_
    rw [within, decide_eq_decide.mpr (seek_max_le_iff (hseq e he))]
  · exact (h.sublist List.filter_sublist).imp fun hlt hf => below_of_le (ukey_le_of_ikey_lt hlt) hf

/-- What the reverse pass is shown. -/
theorem reverse_bounds {shown : List Entry} (h : Sorted merged)
    (hshown : shown = merged.filter (MvccForward.below hi)) :
    (shown.reverse.takeWhile fun e => decide (lo ≤ e.ukey)) =
      (merged.filter (within lo hi)).reverse := by
  subst hshown
  rw [takeWhile_of_antitone, List.filter_reverse, List.filter_filter]
  · exact congrArg List.reverse (List.filter_congr fun e _ => Bool.and_comm _ _)
  · rw [List.pairwise_reverse]
    exact (h.sublist List.filter_sublist).imp fun hlt he =>
      decide_eq_true (le_trans (of_decide_eq_true he) (ukey_le_of_ikey_lt hlt))

theorem within_iff {e : Entry} :
    within lo hi e = true ↔ lo ≤ e.ukey ∧ ∀ h, hi = some h → e.ukey < h := by
  cases hi with
  | none => simp [within, MvccForward.below]
  | some hi => simp [within, MvccForward.below, and_comm]

/-- The newest versions within bounds. -/
theorem isNewest_within {k : Bytes} {snap : ℕ} {e : Entry} {all : List Entry}
    (hmem : ∀ e, e ∈ merged ↔ e ∈ all) :
    IsNewest (merged.filter (within lo hi)) k snap e ↔
      (lo ≤ k ∧ ∀ h, hi = some h → k < h) ∧ IsNewest all k snap e := by
  constructor
  · rintro ⟨he, hk, hseq, hmax⟩
    obtain ⟨he, hin⟩ := List.mem_filter.mp he
    have hbounds := within_iff.mp hin
    rw [show e.ukey = k from hk] at hbounds
    refine ⟨hbounds, (hmem e).mp he, hk, hseq, fun f hf hfk =>
      hmax f (List.mem_filter.mpr ⟨(hmem f).mpr hf, ?_⟩) hfk⟩
    rw [within_iff, show f.ukey = k from hfk]
    exact hbounds
  · rintro ⟨hbounds, he, hk, hseq, hmax⟩
    refine ⟨List.mem_filter.mpr ⟨(hmem e).mpr he, ?_⟩, hk, hseq, fun f hf =>
      hmax f ((hmem f).mp (List.mem_filter.mp hf).1)⟩
    rw [within_iff, show e.ukey = k from hk]
    exact hbounds

theorem forall₂_covers (hsorted : ∀ src ∈ sources, Sorted src.entries) :
    List.Forall₂ Covers (children sources) (sources.map BlockedSource.entries) := by
  rw [children, List.forall₂_map_left_iff, List.forall₂_map_right_iff, List.forall₂_same]
  exact fun src hsrc => BlockedSource.covers (hsorted src hsrc)

/-- The pairs the passes over the sources have to hand out. -/
theorem scan_remains {sources : List BlockedSource} (hsorted : ∀ src ∈ sources, Sorted src.entries)
    (hdistinct : sources.Pairwise fun a b => ∀ x ∈ a.entries, ∀ y ∈ b.entries, x.ikey ≠ y.ikey)
    (hseq : ∀ e ∈ versions sources, e.seq ≤ MAX_SEQNO) (snap : ℕ) (lo : Bytes) (hi : Option Bytes) :
    ∃ pairs : List (Bytes × ReprRef), (pairs.Pairwise fun x y => x.1 < y.1) ∧
      (∀ k r, (k, r) ∈ pairs ↔ (lo ≤ k ∧ ∀ h, hi = some h → k < h) ∧
        ∃ e, IsNewest (versions sources) k snap e ∧ e.kind = .put ∧ e.repr = r) ∧
      (MvccForward.new (.new (children sources) false) (versions sources).length snap lo hi).Remains
        pairs ∧
      (MvccReverse.new (.new (children sources) true) (versions sources).length snap lo hi).Remains
        pairs.reverse := by
  let lists := sources.map BlockedSource.entries
  let merged := mergeAll Entry.ikey lists
  have hlists : ∀ l ∈ lists, SortedBy Entry.ikey l := by
    intro l hl
    obtain ⟨src, hsrc, rfl⟩ := List.mem_map.mp hl
    exact hsorted src hsrc
  have hmerged : Sorted merged := sortedBy_mergeAll hlists (List.pairwise_map.mpr hdistinct)
  have hperm : merged.Perm lists.flatten := perm_mergeAll lists
  -- the merge has the versions of all sources, each once and in order
  have hmem : ∀ e, e ∈ merged ↔ e ∈ versions sources := fun e => by
    rw [hperm.mem_iff, versions, List.flatMap_def]
  have hlen : merged.length = (versions sources).length := by
    rw [hperm.length_eq, versions, List.flatMap_def]
  have hseqs : ∀ e ∈ merged, e.seq ≤ MAX_SEQNO := fun e he => hseq e ((hmem e).mp he)
  have hcovers := forall₂_covers hsorted
  have hin : Sorted (merged.filter (within lo hi)) := hmerged.sublist List.filter_sublist
  refine ⟨visibleFrom snap none (merged.filter (within lo hi)), sorted_visibleFrom hin (by simp),
    fun k r => ?_, ?_, ?_⟩
  · rw [mem_visibleFrom hin (by simp)]
    simp only [isNewest_within hmem]
    constructor
    · rintro ⟨-, e, ⟨hbounds, he⟩, hput⟩
      exact ⟨hbounds, e, he, hput⟩
    · rintro ⟨hbounds, e, he, hput⟩
      exact ⟨by simp, e, ⟨hbounds, he⟩, hput⟩
  · -- forward: from the lower bound on, up to the first key out of bounds
    refine ⟨rfl, _, Merging.shows_seek hcovers hlists hmerged hperm _ none, ?_, ?_⟩
    · exact hlen ▸ (List.dropWhile_sublist _).length_le
    · exact congrArg _ (forward_bounds hmerged hseqs)
  · -- in reverse: from the upper bound on, or from the end, down to the lower bound
    have hpairs : ∀ shown : List Entry, shown = merged.filter (MvccForward.below hi) →
        reverseFrom snap none none (shown.reverse.takeWhile fun e => decide (lo ≤ e.ukey)) =
          (visibleFrom snap none (merged.filter (within lo hi))).reverse := by
      intro shown hshown
      rw [reverse_bounds hmerged hshown, reverseFrom_eq hin]
    cases hi with
    | none =>
      refine ⟨_, Merging.shows_seekToLast hcovers hlists hmerged hperm none, ?_, hpairs merged ?_⟩
      · rw [List.length_reverse]
        exact le_of_eq hlen
      · exact (List.filter_eq_self.mpr fun e _ => rfl).symm
    | some hi =>
      refine ⟨_, Merging.shows_seekForPrev hcovers hlists hmerged hperm _ none, ?_, hpairs _ ?_⟩
      · rw [List.length_reverse]
        exact hlen ▸ (List.takeWhile_sublist _).length_le
      · rw [show Cursor.key ChildIter = Entry.ikey from rfl, takeWhile_eq_filter hmerged]
        refine List.filter_congr fun e he => ?_
        rw [decide_eq_decide.mpr (le_seek_max_iff (hseqs e he))]
        show decide (e.ukey < hi) = !decide (hi ≤ e.ukey)
        rw [← decide_not, decide_eq_decide, not_le]

/-- The iterator over passes that have pairs to hand out. -/
theorem DbIterator.remains_new {log : Vlog} {vlogs : List ℕ} {snap n : ℕ}
    {pairs : List (Bytes × ReprRef)} {values : List (Bytes × Bytes)} {cs : List ChildIter}
    (hforward : (MvccForward.new (.new cs false) n snap lo hi).Remains pairs)
    (hreverse : (MvccReverse.new (.new cs true) n snap lo hi).Remains pairs.reverse)
    (hvalues : List.Forall₂ (Resolves log vlogs) pairs values) :
    Remains log (.new cs n vlogs snap lo hi false) (values.map .ok) ∧
      Remains log (.new cs n vlogs snap lo hi true) (values.reverse.map .ok) :=
  ⟨⟨rfl, values, ⟨pairs, MvccIter.yields_fwd hforward.yields, hvalues⟩, rfl⟩,
    rfl, values.reverse,
      ⟨pairs.reverse, MvccIter.yields_rev hreverse.yields, List.forall₂_reverse_iff.mpr hvalues⟩,
    rfl⟩

/-- **Scans.**  Over any sorted sources without a common internal key, the
forward pass hands out, in ascending key order, the keys within bounds whose
newest version at the snapshot is a put; the reverse pass the same in
descending order; and the iterator the same with the values they stand for,
however its windows fall. -/
theorem scans_eq (sources : List BlockedSource) (hsorted : ∀ src ∈ sources, Sorted src.entries)
    (hdistinct : sources.Pairwise fun a b => ∀ x ∈ a.entries, ∀ y ∈ b.entries, x.ikey ≠ y.ikey)
    (hseq : ∀ e ∈ versions sources, e.seq ≤ MAX_SEQNO) (snap : ℕ) (lo : Bytes) (hi : Option Bytes) :
    ∃ pairs : List (Bytes × ReprRef), (pairs.Pairwise fun x y => x.1 < y.1) ∧
      (∀ k r, (k, r) ∈ pairs ↔ (lo ≤ k ∧ ∀ h, hi = some h → k < h) ∧
        ∃ e, IsNewest (versions sources) k snap e ∧ e.kind = .put ∧ e.repr = r) ∧
      Yields (Pulls MvccForward.nextVisible)
        (.new (.new (children sources) false) (versions sources).length snap lo hi) pairs ∧
      Yields (Pulls MvccReverse.nextVisible)
        (.new (.new (children sources) true) (versions sources).length snap lo hi) pairs.reverse ∧
      ∀ log vlogs values, List.Forall₂ (Resolves log vlogs) pairs values →
        Yields (DbIterator.Pulls log)
          (.new (children sources) (versions sources).length vlogs snap lo hi false)
          (values.map .ok) ∧
        Yields (DbIterator.Pulls log)
          (.new (children sources) (versions sources).length vlogs snap lo hi true)
          (values.reverse.map .ok) := by
  obtain ⟨pairs, hpairs, hmem, hforward, hreverse⟩ := scan_remains hsorted hdistinct hseq snap lo hi
  refine ⟨pairs, hpairs, hmem, hforward.yields, hreverse.yields, fun log vlogs values hvalues => ?_⟩
  obtain ⟨hfwd, hrev⟩ := DbIterator.remains_new hforward hreverse hvalues
  exact ⟨hfwd.yields, hrev.yields⟩

/-- A memtable over a run of two tables: the deletion of a key of the run, and a put
whose value is in the log. -/
def sampleSources : List BlockedSource :=
  [.mem ⟨[⟨[3], 2, .delete, .empty⟩, ⟨[4], 3, .put, .ptr ⟨6, 0, 24⟩⟩], 0, 1,
      List.pairwise_pair.mpr (ikey_lt_of_ukey_lt (by decide))⟩,
    .run twoTables]

def sampleLog : Vlog := ⟨[⟨⟨6, 0, 24⟩, [4], [7]⟩], 6, 24⟩

/-- The pairs from key `[1]` up to `[5]`, exclusive. -/
def samplePairs : List (Bytes × ReprRef) := [([1], .inline []), ([4], .ptr ⟨6, 0, 24⟩)]

theorem mem_samplePairs {k : Bytes} {r : ReprRef} : (k, r) ∈ samplePairs ↔
    ([1] ≤ k ∧ ∀ h, some ([5] : Bytes) = some h → k < h) ∧
      ∃ e, IsNewest (versions sampleSources) k 3 e ∧ e.kind = .put ∧ e.repr = r := by
  constructor
  · intro h
    rcases List.mem_pair.mp h with heq | heq <;> obtain ⟨rfl, rfl⟩ := Prod.mk.inj heq
    · exact ⟨⟨le_refl _, fun h hh => Option.some_inj.mp hh ▸ by decide⟩,
        ⟨[1], 1, .put, .inline []⟩, ⟨by decide, rfl, by decide, by decide⟩, rfl, rfl⟩
    · exact ⟨⟨by decide, fun h hh => Option.some_inj.mp hh ▸ by decide⟩,
        ⟨[4], 3, .put, .ptr ⟨6, 0, 24⟩⟩, ⟨by decide, rfl, by decide, by decide⟩, rfl, rfl⟩
  · rintro ⟨⟨-, hhi⟩, e, ⟨hmem, rfl, -, hmax⟩, hkind, rfl⟩
    have hlt := hhi _ rfl
    have hall : ∀ e ∈ versions sampleSources, e.ukey < [5] → e.kind = .put →
        (∀ f ∈ versions sampleSources, f.ukey = e.ukey → f.seq ≤ 3 → f.seq ≤ e.seq) →
        (e.ukey, e.repr) ∈ samplePairs := by decide
    exact hall e hmem hlt hkind hmax

/-- Bounds, a tombstone over an older run, and a value in the log. -/
theorem scans_of_sample :
    Yields (Pulls MvccForward.nextVisible)
        (.new (.new (children sampleSources) false) 5 3 [1] (some [5])) samplePairs ∧
      Yields (Pulls MvccReverse.nextVisible)
        (.new (.new (children sampleSources) true) 5 3 [1] (some [5])) samplePairs.reverse ∧
      Yields (DbIterator.Pulls sampleLog)
        (.new (children sampleSources) 5 [6] 3 [1] (some [5]) false)
        [.ok ([1], []), .ok ([4], [7])] ∧
      Yields (DbIterator.Pulls sampleLog)
        (.new (children sampleSources) 5 [6] 3 [1] (some [5]) true)
        [.ok ([4], [7]), .ok ([1], [])] := by
  obtain ⟨pairs, hpairs, hmem, hforward, hreverse, hvalues⟩ := scans_eq sampleSources (by
      intro src hsrc
      rcases List.mem_pair.mp hsrc with rfl | rfl
      · exact List.pairwise_pair.mpr (ikey_lt_of_ukey_lt (by decide))
      · exact sorted_twoTables)
    (by decide) (by decide) 3 [1] (some [5])
  obtain rfl : pairs = samplePairs :=
    Overlay.eq_of_mem_iff (μ := fun k : Bytes => k) hpairs (List.pairwise_pair.mpr (by decide))
      fun x => (hmem x.1 x.2).trans mem_samplePairs.symm
  obtain ⟨hfwd, hrev⟩ := hvalues sampleLog [6] [([1], []), ([4], [7])]
    (.cons ⟨rfl, rfl, by simp⟩ (.cons ⟨rfl, ⟨_, rfl, List.mem_singleton.mpr rfl⟩, by simp⟩ .nil))
  exact ⟨hforward, hreverse, hfwd, hrev⟩

end Scan

end Fluent31
