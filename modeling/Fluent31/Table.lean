/-
Sorted-run table files (`table/`, `bloom.rs`).

A table holds a non-empty list of versions in internal-key order with a bloom
filter over its user keys; both facts are fields, so a table that breaks them
cannot be built.  `TableBuilder` takes versions in strictly increasing order
and refuses others, as its assertions do.

* `Bloom.mayContain_build` — the filter has no false negatives;
* `Table.answers_get` — the filtered lookup answers for the table's versions;
* `TableBuilder.finish_eq_some` — a finished table holds what was added.

How many bytes a block or a file takes depends on the block codec and the
compressor; `TableFormat` leaves both as parameters.
-/
import Fluent31.Memtable

namespace Fluent31

open Ordered Mvcc

/-! ### Bloom filters -/

/-- FNV-1a over the key. -/
def fnv1a (key : Bytes) : ℕ :=
  key.foldl (fun h b => (h ^^^ b.val) * 0x100000001b3 % 2 ^ 64) 0xcbf29ce484222325

/-- The 64-bit probe hash: FNV-1a through the murmur3 finalizer. -/
def hash64 (key : Bytes) : ℕ :=
  let h := fnv1a key
  let h := h ^^^ h >>> 33
  let h := h * 0xff51afd7ed558ccd % 2 ^ 64
  let h := h ^^^ h >>> 33
  let h := h * 0xc4ceb9fe1a85ec53 % 2 ^ 64
  h ^^^ h >>> 33

/-- A filter of `nbits` bits, of which those in `ones` are set. -/
structure Bloom where
  k : ℕ
  nbits : ℕ
  ones : List ℕ

namespace Bloom

/-- The bits hash `h` probes: double hashing with wrapping addition. -/
def probes (k nbits h : ℕ) : List ℕ :=
  (List.range k).map fun i => (h + i * (h >>> 33 ||| 1)) % 2 ^ 64 % nbits

def build (hashes : List ℕ) (bitsPerKey : ℕ) : Bloom :=
  let nbytes := (max (max hashes.length 1 * bitsPerKey) 64 + 7) / 8
  let k := min (max (bitsPerKey * 69 / 100) 1) 30
  ⟨k, nbytes * 8, hashes.flatMap (probes k (nbytes * 8))⟩

def mayContain (f : Bloom) (h : ℕ) : Bool :=
  if 30 < f.k then true else (probes f.k f.nbits h).all fun bit => bit ∈ f.ones

/-- **No false negatives.** -/
theorem mayContain_build {hashes : List ℕ} {bitsPerKey h : ℕ} (hh : h ∈ hashes) :
    (build hashes bitsPerKey).mayContain h = true := by
  unfold mayContain
  split
  · rfl
  · rw [List.all_eq_true]
    intro bit hbit
    exact decide_eq_true (List.mem_flatMap.mpr ⟨h, hh, hbit⟩)

end Bloom

/-! ### Tables -/

structure Table where
  id : ℕ
  size : ℕ
  entries : List Entry
  filter : Bloom
  sorted : Sorted entries
  nonempty : entries ≠ []
  covered : ∀ e ∈ entries, filter.mayContain (hash64 e.ukey) = true

namespace Table

variable (t : Table)

/-- The user key of the first internal key of the stats block. -/
def minUkey : Bytes := (t.entries.head t.nonempty).ukey

/-- The user key of the last internal key of the stats block. -/
def maxUkey : Bytes := (t.entries.getLast t.nonempty).ukey

/-- The largest seqno of the stats block. -/
def maxSeq : ℕ := (t.entries.map Entry.seq).foldr max 0

/-- Key range first, then the filter. -/
def mayContainUkey (ukey : Bytes) : Bool :=
  if ukey < t.minUkey ∨ t.maxUkey < ukey then false
  else t.filter.mayContain (hash64 ukey)

/-- Newest version of `ukey` with seqno at most `seq` in this table. -/
def get (ukey : Bytes) (seq : ℕ) : Option Entry :=
  if t.mayContainUkey ukey then seekVersion t.entries ukey seq else none

variable {t}

theorem minUkey_le {e : Entry} (he : e ∈ t.entries) : t.minUkey ≤ e.ukey := by
  obtain ⟨a, l, hl⟩ := List.exists_cons_of_ne_nil t.nonempty
  have hs := t.sorted
  simp only [minUkey, hl, List.head_cons] at he ⊢
  rw [hl] at hs
  rcases List.mem_cons.mp he with rfl | he
  · exact le_rfl
  · exact ukey_le_of_ikey_lt ((List.pairwise_cons.mp hs).1 e he)

theorem le_maxUkey {e : Entry} (he : e ∈ t.entries) : e.ukey ≤ t.maxUkey := by
  have hs := t.sorted
  rw [← List.dropLast_concat_getLast t.nonempty] at he hs
  rcases List.mem_append.mp he with he | he
  · exact ukey_le_of_ikey_lt ((List.pairwise_append.mp hs).2.2 e he _ (List.mem_singleton_self _))
  · exact le_of_eq (by rw [List.mem_singleton.mp he]; rfl)

theorem exists_minUkey (t : Table) : ∃ e ∈ t.entries, e.ukey = t.minUkey :=
  ⟨_, List.head_mem t.nonempty, rfl⟩

theorem exists_maxUkey (t : Table) : ∃ e ∈ t.entries, e.ukey = t.maxUkey :=
  ⟨_, List.getLast_mem t.nonempty, rfl⟩

theorem minUkey_le_maxUkey (t : Table) : t.minUkey ≤ t.maxUkey :=
  le_maxUkey (List.head_mem t.nonempty)

/-- The table provably lacks the keys its range and filter exclude. -/
theorem mayContainUkey_of_mem {e : Entry} (he : e ∈ t.entries) :
    t.mayContainUkey e.ukey = true := by
  unfold mayContainUkey
  rw [if_neg]
  · exact t.covered e he
  · rintro (h | h)
    · exact absurd (minUkey_le he) (not_le_of_gt h)
    · exact absurd (le_maxUkey he) (not_le_of_gt h)

theorem answers_get (t : Table) (k : Bytes) (s : ℕ) : Answers t.entries k s (t.get k s) := by
  unfold get
  split
  · exact answers_seekVersion t.sorted k s
  · rename_i hno
    intro f hf hk
    exact absurd (hk ▸ mayContainUkey_of_mem hf) hno

end Table

/-! ### Building -/

/-- Sizes that depend on the block codec and the compressor: of the blocks
written while `entries` were added, and of the finished file. -/
structure TableFormat where
  estimatedSize : List Entry → ℕ
  fileSize : List Entry → ℕ

/-- One hash for each run of equal user keys. -/
def keyHashes : List Entry → List ℕ
  | [] => []
  | [e] => [hash64 e.ukey]
  | e :: f :: l =>
    if e.ukey = f.ukey then keyHashes (f :: l) else hash64 e.ukey :: keyHashes (f :: l)

theorem mem_keyHashes {l : List Entry} {e : Entry} (he : e ∈ l) : hash64 e.ukey ∈ keyHashes l := by
  induction l generalizing e with
  | nil => exact absurd he List.not_mem_nil
  | cons a l ih =>
    cases l with
    | nil =>
      rw [List.mem_singleton.mp he, keyHashes]
      exact List.mem_singleton_self _
    | cons b l =>
      unfold keyHashes
      split
      · rename_i hab
        rcases List.mem_cons.mp he with rfl | he
        · rw [hab]
          exact ih List.mem_cons_self
        · exact ih he
      · rcases List.mem_cons.mp he with rfl | he
        · exact List.mem_cons_self
        · exact List.mem_cons_of_mem _ (ih he)

structure TableBuilder where
  id : ℕ
  entries : List Entry
  sorted : Sorted entries

namespace TableBuilder

def new (id : ℕ) : TableBuilder := ⟨id, [], sorted_nil⟩

/-- User key of the last entry added. -/
def lastUkey (b : TableBuilder) : Bytes := (b.entries.getLast?.map Entry.ukey).getD []

theorem sorted_concat {l : List Entry} {e : Entry} (h : Sorted l)
    (hlast : ∀ a ∈ l.getLast?, a.ikey < e.ikey) : Sorted (l ++ [e]) := by
  refine List.pairwise_append.mpr ⟨h, List.pairwise_singleton _ _, fun a ha b hb => ?_⟩
  rw [List.mem_singleton.mp hb]
  rcases List.eq_nil_or_concat l with rfl | ⟨l', c, rfl⟩
  · exact absurd ha List.not_mem_nil
  · have hc : c.ikey < e.ikey := hlast c (by simp)
    rw [List.concat_eq_append] at ha h
    rcases List.mem_append.mp ha with ha | ha
    · exact lt_trans ((List.pairwise_append.mp h).2.2 a ha c (List.mem_singleton_self _)) hc
    · rwa [List.mem_singleton.mp ha]

/-- Append one version; `none` is the failed order assertion. -/
def add (b : TableBuilder) (e : Entry) : Option TableBuilder :=
  if h : ∀ a ∈ b.entries.getLast?, a.ikey < e.ikey then
    some ⟨b.id, b.entries ++ [e], sorted_concat b.sorted h⟩
  else none

/-- Finalize; `none` is the failed assertion that the table is not empty. -/
def finish (fmt : TableFormat) (bitsPerKey : ℕ) (b : TableBuilder) : Option Table :=
  if h : b.entries ≠ [] then
    some ⟨b.id, fmt.fileSize b.entries, b.entries, Bloom.build (keyHashes b.entries) bitsPerKey,
      b.sorted, h, fun _ he => Bloom.mayContain_build (mem_keyHashes he)⟩
  else none

theorem add_eq_some {b b' : TableBuilder} {e : Entry} (h : b.add e = some b') :
    b'.id = b.id ∧ b'.entries = b.entries ++ [e] := by
  unfold add at h
  split at h
  · obtain rfl := Option.some_inj.mp h
    exact ⟨rfl, rfl⟩
  · exact absurd h (by simp)

theorem add_isSome {b : TableBuilder} {e : Entry} (h : ∀ a ∈ b.entries, a.ikey < e.ikey) :
    (b.add e).isSome := by
  unfold add
  split
  · rfl
  · rename_i hno
    exact absurd (fun a ha => h a (List.mem_of_getLast? ha)) hno

theorem finish_eq_some {fmt : TableFormat} {n : ℕ} {b : TableBuilder} {t : Table}
    (h : b.finish fmt n = some t) : t.id = b.id ∧ t.entries = b.entries := by
  unfold finish at h
  split at h
  · obtain rfl := Option.some_inj.mp h
    exact ⟨rfl, rfl⟩
  · exact absurd h (by simp)

theorem finish_isSome {fmt : TableFormat} {n : ℕ} {b : TableBuilder} (h : b.entries ≠ []) :
    (b.finish fmt n).isSome := by
  unfold finish
  rw [dif_pos h]
  rfl

end TableBuilder

end Fluent31
