/-
The bytes of a filter block (`bloom.rs`).

The first byte is the number of probes, the others are the bits.  Double hashing
with wrapping addition gives the bits of a key; a filter too short to have bits, or
with more probes than the builder writes, excludes nothing.

* `mayContain_build` — the filter has no false negatives.
-/
import Fluent31.Table
import Mathlib.Data.Nat.Bitwise

namespace Fluent31

namespace Sst

namespace Filter

/-- Set a bit of a bitmap. -/
def setBit (bitmap : Bytes) (bit : ℕ) : Bytes :=
  bitmap.modify (bit / 8) fun b => byte (b.val ||| 1 <<< (bit % 8))

/-- A bit that is asked for is below the number of bits, so its byte is there. -/
def isSet (bitmap : Bytes) (bit : ℕ) : Bool := (bitmap.getD (bit / 8) 0).val &&& 1 <<< (bit % 8) ≠ 0

/-- The step from a probe to the next. -/
def delta (h : ℕ) : ℕ := h >>> 33 ||| 1

/-- Set the bits of `k` probes from `g` on. -/
def setProbes (nbits delta : ℕ) : ℕ → ℕ → Bytes → Bytes
  | 0, _, bitmap => bitmap
  | k + 1, g, bitmap => setProbes nbits delta k ((g + delta) % 2 ^ 64) (setBit bitmap (g % nbits))

/-- Whether the bits of `k` probes from `g` on are set. -/
def probesSet (nbits delta : ℕ) (bitmap : Bytes) : ℕ → ℕ → Bool
  | 0, _ => true
  | k + 1, g => isSet bitmap (g % nbits) && probesSet nbits delta bitmap k ((g + delta) % 2 ^ 64)

def nbytes (n bitsPerKey : ℕ) : ℕ := (max (max n 1 * bitsPerKey) 64 + 7) / 8

/-- The probe count, `0.69` bits of every one; the product is cut to a whole number
and is no whole number before the bound is reached. -/
def probeCount (bitsPerKey : ℕ) : ℕ := min (max (bitsPerKey * 69 / 100) 1) 30

def build (hashes : List ℕ) (bitsPerKey : ℕ) : Bytes :=
  let nbits := nbytes hashes.length bitsPerKey * 8
  let k := probeCount bitsPerKey
  byte k :: hashes.foldl (fun bitmap h => setProbes nbits (delta h) k h bitmap)
    (List.replicate (nbytes hashes.length bitsPerKey) 0)

def mayContain (filter : Bytes) (h : ℕ) : Bool :=
  match filter with
  | [] => true
  | k :: bitmap =>
    if bitmap.length < 1 then true
    else if 30 < k.val then true
    else probesSet (bitmap.length * 8) (delta h) bitmap k.val h

variable {bitmap : Bytes} {bit other nbits d k g h : ℕ}

@[simp] theorem length_setBit (bitmap : Bytes) (bit : ℕ) :
    (setBit bitmap bit).length = bitmap.length :=
  List.length_modify _ _ _

theorem isSet_eq (bitmap : Bytes) (bit : ℕ) :
    isSet bitmap bit = (bitmap.getD (bit / 8) 0).val.testBit (bit % 8) := by
  have hpos : 0 < 2 ^ (bit % 8) := Nat.two_pow_pos _
  unfold isSet
  rw [Nat.one_shiftLeft, Nat.and_two_pow]
  cases (bitmap.getD (bit / 8) 0).val.testBit (bit % 8) <;> simp

/-- The byte of a bit that was set. -/
theorem getD_setBit (hbit : bit / 8 < bitmap.length) (i : ℕ) :
    ((setBit bitmap bit).getD i 0).val =
      if i = bit / 8 then (bitmap.getD i 0).val ||| 2 ^ (bit % 8) else (bitmap.getD i 0).val := by
  unfold setBit
  rw [List.getD_eq_getElem?_getD, List.getD_eq_getElem?_getD, List.getElem?_modify]
  by_cases hi : i = bit / 8
  · subst hi
    have hlt : (bitmap[bit / 8].val ||| 2 ^ (bit % 8)) < 2 ^ 8 :=
      Nat.or_lt_two_pow bitmap[bit / 8].isLt
        (Nat.pow_lt_pow_right (by decide) (Nat.mod_lt _ (by decide)))
    rw [if_pos rfl, List.getElem?_eq_getElem hbit]
    simpa [Nat.one_shiftLeft] using hlt
  · simp [hi, Ne.symm hi]

theorem isSet_setBit (hbit : bit / 8 < bitmap.length) : isSet (setBit bitmap bit) bit = true := by
  rw [isSet_eq, getD_setBit hbit, if_pos rfl, Nat.testBit_or, Nat.testBit_two_pow_self,
    Bool.or_true]

/-- A set bit stays set. -/
theorem isSet_setBit_of_isSet (hbit : bit / 8 < bitmap.length) (h : isSet bitmap other = true) :
    isSet (setBit bitmap bit) other = true := by
  rw [isSet_eq] at h ⊢
  rw [getD_setBit hbit]
  split
  · rw [Nat.testBit_or, h, Bool.true_or]
  · exact h

@[simp] theorem length_setProbes (nbits d k g : ℕ) (bitmap : Bytes) :
    (setProbes nbits d k g bitmap).length = bitmap.length := by
  induction k generalizing g bitmap with
  | zero => rfl
  | succ k ih => rw [setProbes, ih, length_setBit]

/-- A probe stays inside the bitmap. -/
theorem probe_lt (hnbits : nbits = bitmap.length * 8) (hpos : 0 < nbits) (g : ℕ) :
    g % nbits / 8 < bitmap.length := by
  have hlt := Nat.mod_lt g hpos
  omega

theorem isSet_setProbes_of_isSet (hnbits : nbits = bitmap.length * 8) (hpos : 0 < nbits)
    (h : isSet bitmap other = true) : isSet (setProbes nbits d k g bitmap) other = true := by
  induction k generalizing g bitmap with
  | zero => exact h
  | succ k ih =>
    exact ih (by rwa [length_setBit]) (isSet_setBit_of_isSet (probe_lt hnbits hpos g) h)

theorem probesSet_of_isSet {bitmap' : Bytes}
    (h : ∀ bit, isSet bitmap bit = true → isSet bitmap' bit = true)
    (hset : probesSet nbits d bitmap k g = true) : probesSet nbits d bitmap' k g = true := by
  induction k generalizing g with
  | zero => rfl
  | succ k ih =>
    obtain ⟨hbit, hrest⟩ := Bool.and_eq_true_iff.mp hset
    exact Bool.and_eq_true_iff.mpr ⟨h _ hbit, ih hrest⟩

theorem probesSet_setProbes (hnbits : nbits = bitmap.length * 8) (hpos : 0 < nbits) :
    probesSet nbits d (setProbes nbits d k g bitmap) k g = true := by
  induction k generalizing g bitmap with
  | zero => rfl
  | succ k ih =>
    have hlen : nbits = (setBit bitmap (g % nbits)).length * 8 := by rwa [length_setBit]
    exact Bool.and_eq_true_iff.mpr
      ⟨@isSet_setProbes_of_isSet (setBit bitmap (g % nbits)) _ _ _ _ _ hlen hpos
        (isSet_setBit (probe_lt hnbits hpos g)), ih hlen⟩

/-- The bits of every hash that was added, and those set before. -/
theorem setAll_spec {hashes : List ℕ} (hnbits : nbits = bitmap.length * 8) (hpos : 0 < nbits) :
    let out := hashes.foldl (fun bitmap h => setProbes nbits (delta h) k h bitmap) bitmap
    out.length = bitmap.length ∧ (∀ bit, isSet bitmap bit = true → isSet out bit = true) ∧
      ∀ h ∈ hashes, probesSet nbits (delta h) out k h = true := by
  induction hashes generalizing bitmap with
  | nil => exact ⟨rfl, fun _ h => h, fun h hh => absurd hh List.not_mem_nil⟩
  | cons a hashes ih =>
    have hlen := length_setProbes nbits (delta a) k a bitmap
    obtain ⟨hout, hkeep, hall⟩ := ih (by rwa [hlen])
    refine ⟨hout.trans hlen, fun bit hbit => hkeep bit (isSet_setProbes_of_isSet hnbits hpos hbit),
      fun h hh => ?_⟩
    rcases List.mem_cons.mp hh with rfl | hh
    · exact probesSet_of_isSet hkeep (probesSet_setProbes hnbits hpos)
    · exact hall h hh

theorem nbytes_pos (n bitsPerKey : ℕ) : 0 < nbytes n bitsPerKey := by
  unfold nbytes
  omega

/-- **No false negatives.** -/
theorem mayContain_build {hashes : List ℕ} (bitsPerKey : ℕ) (hh : h ∈ hashes) :
    mayContain (build hashes bitsPerKey) h = true := by
  have hpos := nbytes_pos hashes.length bitsPerKey
  obtain ⟨hlen, -, hall⟩ := @setAll_spec (List.replicate (nbytes hashes.length bitsPerKey) 0)
    (nbytes hashes.length bitsPerKey * 8) (probeCount bitsPerKey) hashes
    (by rw [List.length_replicate]) (by omega)
  have hk : (byte (probeCount bitsPerKey)).val = probeCount bitsPerKey := by
    rw [val_byte]
    unfold probeCount
    omega
  rw [List.length_replicate] at hlen
  unfold mayContain build
  simp only [hlen, hk]
  rw [if_neg (by omega)]
  split
  · rfl
  · exact hall h hh

end Filter

end Sst

end Fluent31
