/-
The order of internal keys and the search it carries (`types.rs`, `memtable.rs`).

`cmp_ikey` compares user keys and then trailers the other way round.  On keys with a
trailer it is a total order; the seek target of a user key and a seqno stands right
before the versions of the key from the seqno down.

* `cmpIkey_eq`, `ikeyOrder_injective` — the comparison is that of a linear order in
  which no two keys are one;
* `findFrom_seek` — what a search from the seek target comes by;
* `Memtable.get_eq` — the lookup of a memtable;
* `internal_key_order` — all of it.
-/
import Fluent31.SstRoundTrip

namespace Fluent31

namespace Sst

open Ordered Mvcc

/-- The internal-key comparator: user key ascending, then trailer descending. -/
def cmpIkey (a b : Bytes) : Ordering :=
  (cmp (ikeyUkey a) (ikeyUkey b)).then (cmp (ikeyTrailer b) (ikeyTrailer a))

/-- The key is long enough to have a trailer. -/
def HasTrailer (ikey : Bytes) : Prop := TRAILER_LEN ≤ ikey.length

/-- A place to search from: the first key at or after `target`. -/
def findFrom (target : Bytes) (keys : List Bytes) : Option Bytes :=
  keys.find? fun k => decide (cmpIkey target k ≠ .gt)

variable {a b c : Bytes}

/-- However byte strings are decided to be in order. -/
theorem cmp_bytes (x y : Bytes) : cmp x y = @cmp Bytes _ LinearOrder.toDecidableLT x y := by
  unfold cmp
  congr

/-- The comparator is the order of keys. -/
theorem cmpIkey_eq (a b : Bytes) : cmpIkey a b = cmp (ikeyOrder a) (ikeyOrder b) := by
  unfold cmpIkey
  rw [cmp_bytes]
  rcases lt_trichotomy (ikeyUkey a) (ikeyUkey b) with h | h | h
  · have hlt : ikeyOrder a < ikeyOrder b := Prod.Lex.lt_iff.mpr (Or.inl h)
    rw [h.cmp_eq_lt, hlt.cmp_eq_lt]
    rfl
  · rw [h.cmp_eq_eq]
    rcases lt_trichotomy (ikeyTrailer b) (ikeyTrailer a) with h' | h' | h'
    · have hlt : ikeyOrder a < ikeyOrder b := Prod.Lex.lt_iff.mpr (Or.inr ⟨h, h'⟩)
      rw [h'.cmp_eq_lt, hlt.cmp_eq_lt]
      rfl
    · have heq : ikeyOrder a = ikeyOrder b := by
        unfold ikeyOrder
        rw [h, h']
      rw [h'.cmp_eq_eq, heq.cmp_eq_eq]
      rfl
    · have hlt : ikeyOrder b < ikeyOrder a := Prod.Lex.lt_iff.mpr (Or.inr ⟨h.symm, h'⟩)
      rw [h'.cmp_eq_gt, hlt.cmp_eq_gt]
      rfl
  · have hlt : ikeyOrder b < ikeyOrder a := Prod.Lex.lt_iff.mpr (Or.inl h)
    rw [h.cmp_eq_gt, hlt.cmp_eq_gt]
    rfl

theorem cmpIkey_ne_gt : cmpIkey a b ≠ .gt ↔ ikeyOrder a ≤ ikeyOrder b := by
  rw [cmpIkey_eq, ne_eq, cmp_eq_gt_iff, not_lt]

/-- **User key and trailer** are all of a key. -/
theorem ikeyOrder_injective (ha : HasTrailer a) (hb : HasTrailer b)
    (h : ikeyOrder a = ikeyOrder b) : a = b := by
  obtain ⟨hukey, htrailer⟩ := Prod.mk.inj h
  have htrailer : ikeyTrailer a = ikeyTrailer b := htrailer
  have hlen : ∀ k : Bytes, HasTrailer k → (k.drop (k.length - TRAILER_LEN)).reverse.length =
      TRAILER_LEN := by
    intro k hk
    rw [List.length_reverse, List.length_drop]
    exact Nat.sub_sub_self hk
  have hbytes : (a.drop (a.length - TRAILER_LEN)).reverse =
      (b.drop (b.length - TRAILER_LEN)).reverse := by
    have hput := putLe_readLe (a.drop (a.length - TRAILER_LEN)).reverse
    have hput' := putLe_readLe (b.drop (b.length - TRAILER_LEN)).reverse
    rw [hlen a ha] at hput
    rw [hlen b hb] at hput'
    rw [← hput, ← hput']
    exact congrArg (putLe TRAILER_LEN) htrailer
  rw [← List.take_append_drop (a.length - TRAILER_LEN) a, ← List.take_append_drop
    (b.length - TRAILER_LEN) b, List.reverse_injective hbytes]
  exact congrArg (· ++ _) hukey

/-- Made keys: by user key, then newest first, then puts before deletes. -/
theorem cmpIkey_makeIkey {u u' : Bytes} {s s' : ℕ} (kind kind' : ValueKind) (hs : s ≤ MAX_SEQNO)
    (hs' : s' ≤ MAX_SEQNO) :
    cmpIkey (makeIkey u s kind) (makeIkey u' s' kind') = .lt ↔
      u < u' ∨ u = u' ∧ (s' < s ∨ s' = s ∧ kind'.toNat < kind.toNat) := by
  have hkind := kind.toNat_le
  have hkind' := kind'.toNat_le
  have horder : ∀ {u : Bytes} {s : ℕ} (kind : ValueKind), s ≤ MAX_SEQNO → kind.toNat ≤ 1 →
      ikeyOrder (makeIkey u s kind) = Fluent31.makeIkey u s kind := by
    intro u s kind hs hkind
    rw [ikeyOrder, makeIkey, ikeyUkey_append, ikeyTrailer_append _ (packTrailer_lt hs (by omega))]
    rfl
  rw [cmpIkey_eq, cmp_eq_lt_iff, horder kind hs hkind, horder kind' hs' hkind']
  have htrailer : packTrailer s' kind'.toNat < packTrailer s kind.toNat ↔ s' < s ∨ s' = s ∧
      kind'.toNat < kind.toNat := by
    unfold packTrailer
    omega
  rw [← htrailer]
  exact Prod.Lex.lt_iff

/-- A seek target stands at or before a key with a larger user key, or with the same
one and no newer seqno. -/
theorem seek_le_ikey {k : Bytes} {s : ℕ} (hs : s ≤ MAX_SEQNO) :
    ikeyOrder (makeSeekIkey k s) ≤ ikeyOrder a ↔ k < ikeyUkey a ∨ k = ikeyUkey a ∧
      ikeySeqno a ≤ s := by
  have htrailer : ikeyTrailer a ≤ packTrailer s SEEK_KIND ↔ ikeySeqno a ≤ s := by
    unfold packTrailer ikeySeqno SEEK_KIND
    omega
  rw [ikeyOrder_makeSeekIkey k hs, ← htrailer]
  exact Prod.Lex.le_iff

/-- What a search from the seek target of `u` and `s` has to come by: the newest version
of `u` at or below `s`, and if there is none, a larger user key or the end. -/
def SeekFinds (keys : List Bytes) (u : Bytes) (s : ℕ) : Option Bytes → Prop
  | none => ∀ k ∈ keys, ikeyUkey k < u ∨ ikeyUkey k = u ∧ s < ikeySeqno k
  | some k => k ∈ keys ∧
      (ikeyUkey k = u ∧ ikeySeqno k ≤ s ∧
        (∀ k' ∈ keys, ikeyUkey k' = u → ikeySeqno k' ≤ s → ikeySeqno k' ≤ ikeySeqno k) ∨
        u < ikeyUkey k ∧ ∀ k' ∈ keys, ikeyUkey k' = u → s < ikeySeqno k')

/-- **The seek primitive.** -/
theorem findFrom_seek {keys : List Bytes} (h : keys.Pairwise fun a b => cmpIkey a b ≠ .gt)
    (u : Bytes) {s : ℕ}
    (hs : s ≤ MAX_SEQNO) : SeekFinds keys u s (findFrom (makeSeekIkey u s) keys) := by
  unfold findFrom
  cases hfind : keys.find? (fun k => decide (cmpIkey (makeSeekIkey u s) k ≠ .gt)) with
  | none =>
    intro k hk
    have hno := List.find?_eq_none.mp hfind k hk
    rw [decide_eq_true_eq, cmpIkey_ne_gt, seek_le_ikey hs, not_or, not_lt] at hno
    obtain ⟨hle, hver⟩ := hno
    rcases lt_or_eq_of_le hle with hlt | heq
    · exact Or.inl hlt
    · exact Or.inr ⟨heq, not_le.mp fun hle' => hver ⟨heq.symm, hle'⟩⟩
  | some k =>
    obtain ⟨hp, pre, post, rfl, hpre⟩ := List.find?_eq_some_iff_append.mp hfind
    have hp := (seek_le_ikey hs).mp (cmpIkey_ne_gt.mp (of_decide_eq_true hp))
    -- versions of the key from the seqno down come after `k`, or are `k`
    have hafter : ∀ k' ∈ pre ++ k :: post, ikeyUkey k' = u → ikeySeqno k' ≤ s →
        ikeyOrder k ≤ ikeyOrder k' := by
      intro k' hk' hu hle
      rcases List.mem_append.mp hk' with hk' | hk'
      · have hno := hpre k' hk'
        rw [Bool.not_eq_true', decide_eq_false_iff_not, cmpIkey_ne_gt, seek_le_ikey hs] at hno
        exact absurd (Or.inr ⟨hu.symm, hle⟩) hno
      · rcases List.mem_cons.mp hk' with rfl | hk'
        · exact le_rfl
        · exact cmpIkey_ne_gt.mp ((List.pairwise_cons.mp (List.pairwise_append.mp h).2.1).1 k' hk')
    refine ⟨by simp, ?_⟩
    rcases hp with hlt | ⟨heq, hseq⟩
    · refine Or.inr ⟨hlt, fun k' hk' hu => not_le.mp fun hle => ?_⟩
      rcases Prod.Lex.le_iff.mp (hafter k' hk' hu hle) with hlt' | ⟨heq', -⟩
      · exact absurd (hlt.trans hlt') (hu ▸ lt_irrefl _)
      · exact absurd (heq'.trans hu) (ne_of_gt hlt)
    · refine Or.inl ⟨heq.symm, hseq, fun k' hk' hu hle => ?_⟩
      rcases Prod.Lex.le_iff.mp (hafter k' hk' hu hle) with hlt' | ⟨-, htrailer⟩
      · have hlt' : ikeyUkey k < ikeyUkey k' := hlt'
        rw [← heq, hu] at hlt'
        exact absurd hlt' (lt_irrefl _)
      · exact Nat.div_le_div_right htrailer

/-! ### Memtables -/

/-- The skip list of a memtable, in the order of internal keys, with the bytes charged. -/
structure Memtable where
  map : List RawEntry
  bytes : ℕ

namespace Memtable

def empty : Memtable := ⟨[], 0⟩

/-- An entry with the same key is replaced. -/
def insert (mt : Memtable) (ikey repr : Bytes) : Memtable where
  map := insertBy RawEntry.key ⟨ikey, repr⟩ mt.map
  bytes := mt.bytes + (ikey.length + repr.length + ENTRY_OVERHEAD)

/-- Newest version of `ukey` with seqno at most `seq`, if any. -/
def get (mt : Memtable) (ukey : Bytes) (seq : ℕ) : Option (ValueKind × ℕ × Bytes) :=
  let target := makeSeekIkey ukey seq
  match mt.map.find? fun e => decide (cmpIkey target e.ikey ≠ .gt) with
  | none => none
  | some e =>
    if ikeyUkey e.ikey ≠ ukey then none
    else
      match ikeyKind e.ikey with
      | .ok kind => some (kind, ikeySeqno e.ikey, e.repr)
      | .error _ => none

/-- A memtable after insertions. -/
def ofInserts (es : List RawEntry) : Memtable :=
  es.foldl (fun mt e => mt.insert e.ikey e.repr) empty

/-- The last insertion under a key. -/
def lastInsert (es : List RawEntry) (ikey : Bytes) : Option RawEntry :=
  es.reverse.find? fun e => decide (e.ikey = ikey)

variable {es : List RawEntry}

theorem ofInserts_concat (es : List RawEntry) (e : RawEntry) :
    (ofInserts (es ++ [e])).map = insertBy RawEntry.key e (ofInserts es).map := by
  unfold ofInserts
  rw [List.foldl_append]
  rfl

theorem lastInsert_concat (es : List RawEntry) (e : RawEntry) (ikey : Bytes) :
    lastInsert (es ++ [e]) ikey = if e.ikey = ikey then some e else lastInsert es ikey := by
  unfold lastInsert
  rw [List.reverse_append, List.reverse_singleton, List.singleton_append, List.find?_cons]
  by_cases h : e.ikey = ikey <;> simp [h]

/-- **The map** is sorted and holds the last insertion under every key. -/
theorem ofInserts_spec (h : ∀ e ∈ es, HasTrailer e.ikey) :
    SortedBy RawEntry.key (ofInserts es).map ∧
    ∀ e, e ∈ (ofInserts es).map ↔ lastInsert es e.ikey = some e := by
  induction es using List.reverseRecOn with
  | nil => exact ⟨List.Pairwise.nil, fun e =>
    ⟨fun he => absurd he List.not_mem_nil, fun he => nomatch he⟩⟩
  | append_singleton es e ih =>
    obtain ⟨hsorted, hmem⟩ := ih fun f hf => h f (List.mem_append_left _ hf)
    have he : HasTrailer e.ikey := h e (by simp)
    rw [ofInserts_concat]
    refine ⟨sortedBy_insertBy hsorted, fun f => ?_⟩
    rw [mem_insertBy hsorted, lastInsert_concat, hmem]
    by_cases heq : e.ikey = f.ikey
    · rw [if_pos heq]
      constructor
      · rintro (rfl | ⟨-, hne⟩)
        · rfl
        · exact absurd (congrArg ikeyOrder heq).symm hne
      · exact fun hf => Or.inl (Option.some.inj hf).symm
    · rw [if_neg heq]
      constructor
      · rintro (rfl | ⟨hf, -⟩)
        · exact absurd rfl heq
        · exact hf
      · intro hf
        have hfmem : f ∈ es := List.mem_reverse.mp (List.mem_of_find?_eq_some hf)
        exact Or.inr ⟨hf, fun hk =>
          heq (ikeyOrder_injective (h f (List.mem_append_left _ hfmem)) he hk).symm⟩

/-- **The lookup of a memtable.** -/
theorem get_eq (h : ∀ e ∈ es, e.WellFormed) (u : Bytes) {s : ℕ} (hs : s ≤ MAX_SEQNO) :
    (ofInserts es).get u s = (newest (ofInserts es).map u s).map fun e =>
      (e.kind, e.seq, e.repr) := by
  obtain ⟨hsorted, hmem⟩ := ofInserts_spec fun e he => (h e he).length_ikey
  have hwf : ∀ e ∈ (ofInserts es).map, e.WellFormed := fun e he =>
    h e (List.mem_reverse.mp (List.mem_of_find?_eq_some ((hmem e).mp he)))
  have hnot : (fun e : RawEntry => !decide (cmpIkey (makeSeekIkey u s) e.ikey ≠ .gt)) =
      fun e => decide (e.key < ikeyOrder (makeSeekIkey u s)) := by
    funext e
    rw [← decide_not, decide_eq_decide, cmpIkey_ne_gt, not_le]
    rfl
  unfold get
  rw [newest_eq hsorted hwf u hs]
  simp only [List.find?_eq_head?_dropWhile_not, hnot]
  cases hhead : ((ofInserts es).map.dropWhile fun e =>
    decide (e.key < ikeyOrder (makeSeekIkey u s))).head? with
  | none => rfl
  | some e =>
    have hmem : e ∈ (ofInserts es).map :=
      (List.dropWhile_sublist _).subset (List.mem_of_head? hhead)
    by_cases hu : e.ukey = u
    · have hukey : ¬ ikeyUkey e.ikey ≠ u := not_not.mpr hu
      simp only [if_neg hukey, ikeyKind_eq (hwf e hmem)]
      rw [Option.filter_some_pos (by simpa using hu)]
      rfl
    · have hukey : ikeyUkey e.ikey ≠ u := hu
      simp only [if_pos hukey]
      rw [Option.filter_some_neg (by simpa using hu)]
      rfl

/-- What is found is the newest version inserted, with the value inserted last. -/
theorem get_answers (h : ∀ e ∈ es, e.WellFormed) (u : Bytes) {s : ℕ} (hs : s ≤ MAX_SEQNO) :
    ∃ r, (ofInserts es).get u s = r.map (fun e => (e.kind, e.seq, e.repr)) ∧ Answers es u s r ∧
      ∀ e, r = some e → lastInsert es e.ikey = some e := by
  obtain ⟨hsorted, hmem⟩ := ofInserts_spec fun e he => (h e he).length_ikey
  have hin : ∀ e ∈ (ofInserts es).map, e ∈ es := fun e he =>
    List.mem_reverse.mp (List.mem_of_find?_eq_some ((hmem e).mp he))
  -- every key inserted is there
  have hall : ∀ f ∈ es, ∃ f' ∈ (ofInserts es).map, f'.ikey = f.ikey := by
    intro f hf
    cases hlast : lastInsert es f.ikey with
    | none => exact absurd (decide_eq_true rfl) (List.find?_eq_none.mp hlast f
      (List.mem_reverse.mpr hf))
    | some f' =>
      have hkey : f'.ikey = f.ikey := of_decide_eq_true
        (List.find?_some (p := fun e : RawEntry => decide (e.ikey = f.ikey)) hlast)
      exact ⟨f', (hmem f').mpr (by rw [hkey, hlast]), hkey⟩
  have hanswers := answers_newest hsorted (fun e he => h e (hin e he)) u s
  refine ⟨newest (ofInserts es).map u s, get_eq h u hs, ?_, fun e he =>
    (hmem e).mp (List.mem_of_find?_eq_some he)⟩
  cases hnew : newest (ofInserts es).map u s with
  | none =>
    rw [hnew] at hanswers
    intro f hf hu
    obtain ⟨f', hf', hkey⟩ := hall f hf
    have hlt := hanswers f' hf' ((congrArg ikeyUkey hkey).trans hu)
    exact lt_of_lt_of_eq hlt (congrArg ikeySeqno hkey)
  | some e =>
    rw [hnew] at hanswers
    obtain ⟨he, hu, hle, hmax⟩ := hanswers
    refine ⟨hin e he, hu, hle, fun f hf hfu hfs => ?_⟩
    obtain ⟨f', hf', hkey⟩ := hall f hf
    have hseq : f'.seq = f.seq := congrArg ikeySeqno hkey
    have hbound := hmax f' hf' ((congrArg ikeyUkey hkey).trans hfu) (hseq.trans_le hfs)
    exact (le_of_eq hseq.symm).trans hbound

end Memtable

/-- The comparator is a total order on the keys that have a trailer. -/
structure TotalOrder : Prop where
  eq_iff : ∀ a b, HasTrailer a → HasTrailer b → (cmpIkey a b = .eq ↔ a = b)
  swap : ∀ a b, (cmpIkey a b).swap = cmpIkey b a
  trans : ∀ a b c, cmpIkey a b ≠ .gt → cmpIkey b c ≠ .gt → cmpIkey a c ≠ .gt

theorem totalOrder : TotalOrder where
  eq_iff a b ha hb := by
    rw [cmpIkey_eq, cmp_eq_eq_iff]
    exact ⟨ikeyOrder_injective ha hb, congrArg ikeyOrder⟩
  swap a b := by rw [cmpIkey_eq, cmpIkey_eq, cmp_swap]
  trans a b c hab hbc := cmpIkey_ne_gt.mpr ((cmpIkey_ne_gt.mp hab).trans (cmpIkey_ne_gt.mp hbc))

/-- **Internal keys**: the total order, by user key and then newest first; what a search
from a seek target comes by in any sorted sequence; and the lookup of a memtable. -/
theorem internal_key_order {u u' : Bytes} {s s' : ℕ} (hs : s ≤ MAX_SEQNO) (hs' : s' ≤ MAX_SEQNO) :
    TotalOrder ∧
      (∀ kind kind', cmpIkey (makeIkey u s kind) (makeIkey u' s' kind') = .lt ↔
        u < u' ∨ u = u' ∧ (s' < s ∨ s' = s ∧ kind'.toNat < kind.toNat)) ∧
      (∀ keys : List Bytes, (keys.Pairwise fun a b => cmpIkey a b ≠ .gt) →
        SeekFinds keys u s (findFrom (makeSeekIkey u s) keys)) ∧
      ∀ es : List RawEntry, (∀ e ∈ es, e.WellFormed) → ∃ r,
        (Memtable.ofInserts es).get u s = r.map (fun e => (e.kind, e.seq, e.repr)) ∧
        Answers es u s r ∧
          ∀ e, r = some e → Memtable.lastInsert es e.ikey = some e :=
  ⟨totalOrder, fun kind kind' => cmpIkey_makeIkey kind kind' hs hs', fun _ h =>
    findFrom_seek h u hs, fun _ h => Memtable.get_answers h u hs⟩

/-- A key and one that it begins, at the largest seqno. -/
theorem internal_key_order_prefix :
    cmpIkey (makeIkey [97] MAX_SEQNO .put) (makeIkey [97, 0] 0 .delete) = .lt ∧
      (Memtable.ofInserts [⟨makeIkey [97] MAX_SEQNO .put, [0, 1]⟩,
        ⟨makeIkey [97, 0] 4 .put, [0, 2]⟩]).get [97] MAX_SEQNO = some (.put, MAX_SEQNO, [0, 1]) ∧
      SeekFinds [makeIkey [97] 5 .put, makeIkey [97, 0] 4 .put] [97] MAX_SEQNO
        (findFrom (makeSeekIkey [97] MAX_SEQNO) [makeIkey [97] 5 .put, makeIkey [97, 0] 4 .put]) :=
  have horder := @internal_key_order [97] [97, 0] MAX_SEQNO 0 le_rfl (Nat.zero_le _)
  ⟨(horder.2.1 .put .delete).mpr
    (Or.inl (by decide)), by decide +kernel, horder.2.2.1 _ (by decide +kernel)⟩

end Sst

end Fluent31
