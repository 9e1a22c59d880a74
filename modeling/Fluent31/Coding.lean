/-
Byte strings and the little-endian and varint primitives of `coding.rs`.

A byte is a number below 256 and a byte string a list of them; strings are
compared lexicographically, as `[u8]` is.  `putUvarint` is the LEB128 coder
and `readUvarint` the checked decoder every on-disk format goes through;
`readUvarint_putUvarint` is their round trip on 64-bit values.
-/
import Mathlib.Algebra.Order.Ring.Nat
import Mathlib.Order.Nat
import Mathlib.Data.List.Lex
import Mathlib.Order.Fin.Basic
import Mathlib.Tactic.Common

abbrev Byte := Fin 256

abbrev Bytes := List Byte

namespace Fluent31

instance instNeZeroByte : NeZero (256 : ℕ) := ⟨by decide⟩

instance instLawfulBEqBytes : LawfulBEq Bytes := inferInstance

/-- The low byte of `n`. -/
def byte (n : ℕ) : Byte := Fin.ofNat 256 n

@[simp] theorem val_byte (n : ℕ) : (byte n).val = n % 256 := rfl

/-- The `n` low bytes of `v`, least significant first. -/
def putLe : ℕ → ℕ → Bytes
  | 0, _ => []
  | n + 1, v => byte v :: putLe n (v / 256)

def putU32 (v : ℕ) : Bytes := putLe 4 v

def putU64 (v : ℕ) : Bytes := putLe 8 v

/-- The `n` low bytes of `v`, most significant first. -/
def putBe (n v : ℕ) : Bytes := (putLe n v).reverse

@[simp] theorem length_putLe (n v : ℕ) : (putLe n v).length = n := by
  induction n generalizing v with
  | zero => rfl
  | succ n ih => simp [putLe, ih]

@[simp] theorem length_putBe (n v : ℕ) : (putBe n v).length = n := by simp [putBe]

/-- The number a little-endian byte string spells. -/
def readLe : Bytes → ℕ
  | [] => 0
  | b :: bs => b.val + 256 * readLe bs

theorem readLe_lt (bs : Bytes) : readLe bs < 256 ^ bs.length := by
  induction bs with
  | nil => exact Nat.one_pos
  | cons b bs ih =>
    have hb : b.val < 256 := b.isLt
    rw [readLe, List.length_cons, Nat.pow_succ]
    omega

theorem readLe_putLe {n v : ℕ} (h : v < 256 ^ n) : readLe (putLe n v) = v := by
  induction n generalizing v with
  | zero => simp_all [putLe, readLe]
  | succ n ih =>
    have hdiv : v / 256 < 256 ^ n := by
      rw [Nat.div_lt_iff_lt_mul (by omega)]
      rwa [Nat.pow_succ] at h
    simp only [putLe, readLe, ih hdiv, val_byte]
    omega

theorem putLe_readLe (bs : Bytes) : putLe bs.length (readLe bs) = bs := by
  induction bs with
  | nil => rfl
  | cons b bs ih =>
    have hb := b.isLt
    have hbyte : byte (b.val + 256 * readLe bs) = b := Fin.ext (by rw [val_byte]; omega)
    rw [List.length_cons, readLe, putLe, hbyte,
      show (b.val + 256 * readLe bs) / 256 = readLe bs by omega, ih]

theorem putLe_injective {n v w : ℕ} (hv : v < 256 ^ n) (hw : w < 256 ^ n)
    (h : putLe n v = putLe n w) : v = w := by
  rw [← readLe_putLe hv, ← readLe_putLe hw, h]

/-! ### Varints -/

/-- The LEB128 coder, at most `fuel` bytes of it. -/
def putUvarintUpTo : ℕ → ℕ → Bytes
  | 0, _ => []
  | fuel + 1, v =>
    if 128 ≤ v then byte (v % 128 + 128) :: putUvarintUpTo fuel (v / 128) else [byte v]

/-- A 64-bit value takes at most ten groups of seven bits. -/
def putUvarint (v : ℕ) : Bytes := putUvarintUpTo 10 v

/-- The decoder's loop: `shift` counts the bits read so far. -/
def readUvarintFrom (shift : ℕ) : Bytes → Option (ℕ × Bytes)
  | [] => none
  | b :: rest =>
    if shift = 63 ∧ 1 < b.val then none
    else if b.val < 128 then some (b.val * 2 ^ shift, rest)
    else if 63 < shift + 7 then none
    else (readUvarintFrom (shift + 7) rest).map fun r => (b.val % 128 * 2 ^ shift + r.1, r.2)

def readUvarint (bs : Bytes) : Option (ℕ × Bytes) := readUvarintFrom 0 bs

/-- `shift` bits read and `fuel` groups left: ten groups in all. -/
theorem readUvarintFrom_putUvarintUpTo {fuel shift v : ℕ} {rest : Bytes}
    (hgroups : shift + 7 * fuel = 70) (hv : v * 2 ^ shift < 2 ^ 64) (hfuel : 0 < fuel) :
    readUvarintFrom shift (putUvarintUpTo fuel v ++ rest) = some (v * 2 ^ shift, rest) := by
  induction fuel generalizing shift v with
  | zero => omega
  | succ fuel ih =>
    have hpos : 0 < 2 ^ shift := Nat.two_pow_pos shift
    -- in the last group only one bit of the value is left
    have hlast : shift = 63 → v ≤ 1 := by
      rintro rfl
      omega
    simp only [putUvarintUpTo]
    by_cases hbig : 128 ≤ v
    · have hshift : shift ≠ 63 := fun h => by have := hlast h; omega
      have hshift' : shift + 7 ≤ 63 := by omega
      have hmul : v / 128 * 2 ^ (shift + 7) ≤ v * 2 ^ shift := by
        rw [Nat.pow_add, Nat.mul_comm (2 ^ shift), ← Nat.mul_assoc]
        exact Nat.mul_le_mul_right _ (Nat.div_mul_le_self v 128)
      have hbyte : (byte (v % 128 + 128)).val = v % 128 + 128 := by
        rw [val_byte]
        omega
      rw [if_pos hbig, List.cons_append, readUvarintFrom, hbyte]
      rw [if_neg (by omega), if_neg (by omega), if_neg (by omega),
        ih (by omega) (by omega) (by omega), Option.map_some]
      congr 2
      rw [Nat.pow_add, show (v % 128 + 128) % 128 = v % 128 by omega,
        ← Nat.mul_assoc, Nat.mul_right_comm, ← Nat.add_mul]
      congr 1
      omega
    · have hbyte : (byte v).val = v := by
        rw [val_byte]
        omega
      rw [if_neg hbig, List.singleton_append, readUvarintFrom, hbyte]
      rw [if_neg (fun h => by have := hlast h.1; omega), if_pos (by omega)]

/-- **Varint round trip** on 64-bit values. -/
theorem readUvarint_putUvarint {v : ℕ} (hv : v < 2 ^ 64) (rest : Bytes) :
    readUvarint (putUvarint v ++ rest) = some (v, rest) := by
  have h : readUvarintFrom 0 (putUvarintUpTo 10 v ++ rest) = some (v * 2 ^ 0, rest) :=
    readUvarintFrom_putUvarintUpTo rfl (by omega) (by omega)
  simpa [readUvarint, putUvarint] using h

theorem length_putUvarintUpTo_le (fuel v : ℕ) : (putUvarintUpTo fuel v).length ≤ fuel := by
  induction fuel generalizing v with
  | zero => exact le_rfl
  | succ fuel ih =>
    simp only [putUvarintUpTo]
    split
    · simpa using ih (v / 128)
    · simp

/-- A value below `128 ^ n` takes at most `n` bytes. -/
theorem length_putUvarintUpTo_le_of_lt {fuel n v : ℕ} (hn : 0 < n) (hv : v < 128 ^ n) :
    (putUvarintUpTo fuel v).length ≤ n := by
  induction fuel generalizing n v with
  | zero => exact Nat.zero_le _
  | succ fuel ih =>
    simp only [putUvarintUpTo]
    split
    · rename_i hbig
      obtain ⟨m, rfl⟩ : ∃ m, n = m + 1 := ⟨n - 1, by omega⟩
      have hm : 0 < m := by
        rcases Nat.eq_zero_or_pos m with rfl | hm
        · simp at hv
          omega
        · exact hm
      have hdiv : v / 128 < 128 ^ m := by
        rw [Nat.div_lt_iff_lt_mul (by omega)]
        rwa [Nat.pow_succ] at hv
      simpa using ih hm hdiv
    · exact hn

theorem length_putUvarint_le {n v : ℕ} (hn : 0 < n) (hv : v < 128 ^ n) :
    (putUvarint v).length ≤ n :=
  length_putUvarintUpTo_le_of_lt hn hv

theorem le_length_putUvarintUpTo {fuel n v : ℕ} (hn : n < fuel) (hv : 128 ^ n ≤ v) :
    n + 1 ≤ (putUvarintUpTo fuel v).length := by
  induction n generalizing fuel v with
  | zero =>
    obtain ⟨fuel, rfl⟩ := Nat.exists_eq_add_one_of_ne_zero hn.ne'
    simp only [putUvarintUpTo]
    split <;> exact Nat.succ_pos _
  | succ n ih =>
    obtain ⟨fuel, rfl⟩ := Nat.exists_eq_add_one_of_ne_zero (Nat.ne_zero_of_lt hn)
    have hge : 128 ≤ v := le_trans (Nat.le_self_pow n.succ_ne_zero 128) hv
    have hdiv : 128 ^ n ≤ v / 128 :=
      (Nat.le_div_iff_mul_le (by decide)).mpr (by rwa [← Nat.pow_succ])
    simp only [putUvarintUpTo, if_pos hge]
    exact Nat.succ_le_succ (ih (Nat.lt_of_succ_lt_succ hn) hdiv)

theorem le_length_putUvarint {n v : ℕ} (hn : n < 10) (hv : 128 ^ n ≤ v) :
    n + 1 ≤ (putUvarint v).length :=
  le_length_putUvarintUpTo hn hv

theorem length_putUvarint_pos (v : ℕ) : 0 < (putUvarint v).length := by
  show 0 < (if 128 ≤ v then byte (v % 128 + 128) :: putUvarintUpTo 9 (v / 128) else [byte v]).length
  split
  · exact Nat.succ_pos _
  · exact Nat.succ_pos _

/-- A length-prefixed byte string. -/
def putLenPrefixed (bs : Bytes) : Bytes := putUvarint bs.length ++ bs

/-- A length-prefixed byte string off the front; `none` when it is cut short. -/
def readLenPrefixed (bs : Bytes) : Option (Bytes × Bytes) :=
  (readUvarint bs).bind fun r =>
    if r.2.length < r.1 then none else some (r.2.take r.1, r.2.drop r.1)

theorem readLenPrefixed_putLenPrefixed {bs : Bytes} (h : bs.length < 2 ^ 64) (rest : Bytes) :
    readLenPrefixed (putLenPrefixed bs ++ rest) = some (bs, rest) := by
  unfold readLenPrefixed putLenPrefixed
  rw [List.append_assoc, readUvarint_putUvarint h, Option.bind_some, if_neg (by simp)]
  simp

end Fluent31
