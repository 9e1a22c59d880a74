/-
The cursor every on-disk decoder goes through (`coding.rs`).

A reader walks a buffer by index, so a read ends with a value, with an error of
the engine, or in a panic: an index out of range, or a loop that has not ended.
The position never leaves the buffer, and a buffer's length is a machine word.

* `inverts_u64`, `inverts_uvarint`, `inverts_lenPrefixed`, … — what the coders
  wrote is read back;
* `avoids_u64`, `avoids_uvarint`, `avoids_lenPrefixed`, … — no read panics,
  whatever is in the buffer.
-/
import Fluent31.TriggerQueue
import Fluent31.Lib.Codec

namespace Fluent31

open Decoder

/-- How a decoder ends without a value. -/
inductive Halt
  | error (e : Error)
  | panic

/-- Index a buffer by a range. -/
def slice (buf : Bytes) (lo hi : ℕ) : Except Halt Bytes :=
  if lo ≤ hi ∧ hi ≤ buf.length then .ok ((buf.drop lo).take (hi - lo)) else .error .panic

theorem slice_eq {buf : Bytes} {lo hi : ℕ} (hlo : lo ≤ hi) (hhi : hi ≤ buf.length) :
    slice buf lo hi = .ok ((buf.drop lo).take (hi - lo)) := if_pos ⟨hlo, hhi⟩

/-- An array of `n` bytes from a slice that is to have that length. -/
def array (n : ℕ) (bs : Bytes) : Except Halt Bytes :=
  if bs.length = n then .ok bs else .error .panic

structure Reader where
  buf : Bytes
  pos : ℕ
  inside : pos ≤ buf.length
  word : buf.length < 2 ^ 64

namespace Reader

/-- What is still to be read. -/
def rest (r : Reader) : Bytes := r.buf.drop r.pos

def remaining (r : Reader) : ℕ := r.buf.length - r.pos

def advance (r : Reader) (n : ℕ) (h : n ≤ r.remaining) : Reader :=
  ⟨r.buf, r.pos + n, by have := r.inside; unfold remaining at h; omega, r.word⟩

def bytes (n : ℕ) : Decoder Reader Halt Bytes := fun r =>
  if h : r.remaining < n then .error (.error shortRead)
  else (slice r.buf r.pos (r.pos + n)).map fun out => (out, r.advance n (by omega))

/-- A little-endian number of `n` bytes. -/
def number (n : ℕ) : Decoder Reader Halt ℕ := do
  let bs ← bytes n
  let a ← array n bs
  pure (readLe a)

def u32 : Decoder Reader Halt ℕ := number 4

def u64 : Decoder Reader Halt ℕ := number 8

def u8 : Decoder Reader Halt ℕ := do
  match ← bytes 1 with
  | [] => throw .panic
  | b :: _ => pure b.val

/-- The varint loop, with `groups` turns left. -/
def uvarintLoop : ℕ → ℕ → ℕ → Decoder Reader Halt ℕ
  | 0, _, _ => throw .panic
  | groups + 1, shift, v => do
    let b ← u8
    if shift = 63 ∧ 1 < b then throw (.error (.corruption "uvarint overflow"))
    -- the groups of seven bits do not overlap
    else if b < 128 then pure (v + b % 128 * 2 ^ shift)
    else if 63 < shift + 7 then throw (.error (.corruption "uvarint too long"))
    else uvarintLoop groups (shift + 7) (v + b % 128 * 2 ^ shift)

def uvarint : Decoder Reader Halt ℕ := uvarintLoop 10 0 0

def lenPrefixed : Decoder Reader Halt Bytes := do
  let n ← uvarint
  let r ← get
  if r.remaining < n then throw (.error (.corruption "length prefix beyond buffer"))
  else bytes n

/-- Decode from the start of a buffer; no buffer is longer than a machine word
counts. -/
def decodeAll {α : Type} (p : Decoder Reader Halt α) (buf : Bytes) : Except Halt α :=
  if h : buf.length < 2 ^ 64 then (p.run ⟨buf, 0, Nat.zero_le _, h⟩).map Prod.fst else .error .panic

variable {r r' : Reader} {n : ℕ}

@[simp] theorem length_rest (r : Reader) : r.rest.length = r.remaining := List.length_drop

@[simp] theorem rest_advance (h : n ≤ r.remaining) : (r.advance n h).rest = r.rest.drop n := by
  unfold rest advance
  rw [List.drop_drop]

theorem run_bytes (h : n ≤ r.remaining) : (bytes n).run r = .ok (r.rest.take n, r.advance n h) := by
  have hinside := r.inside
  have hslice : slice r.buf r.pos (r.pos + n) = .ok (r.rest.take n) := by
    unfold remaining at h
    unfold slice rest
    rw [if_pos (by omega), Nat.add_sub_cancel_left]
  show (if h : r.remaining < n then _ else _) = _
  rw [dif_neg (by omega), hslice]
  rfl

theorem run_bytes_short (h : r.remaining < n) :
    (bytes n).run r = .error (.error shortRead) := dif_pos h

theorem run_bytes_eq_ok {bs : Bytes} (h : (bytes n).run r = .ok (bs, r')) :
    bs.length = n ∧ r'.remaining + n = r.remaining := by
  rcases lt_or_ge r.remaining n with hlt | hge
  · rw [run_bytes_short hlt] at h
    exact nomatch h
  · rw [run_bytes hge] at h
    obtain ⟨rfl, rfl⟩ := Prod.mk.inj (Except.ok.inj h)
    refine ⟨List.length_take_of_le (by rwa [length_rest]), ?_⟩
    rw [← length_rest (r.advance n hge), rest_advance, List.length_drop, length_rest]
    omega

theorem run_number (h : n ≤ r.remaining) :
    (number n).run r = .ok (readLe (r.rest.take n), r.advance n h) := by
  have hlen : (r.rest.take n).length = n := List.length_take_of_le (by rwa [length_rest])
  unfold number
  rw [run_bind, run_bytes h, Except.bind]
  simp only
  rw [array, if_pos hlen]
  rfl

theorem run_number_short (h : r.remaining < n) : (number n).run r = .error (.error shortRead) := by
  unfold number
  rw [run_bind, run_bytes_short h]
  rfl

theorem run_u8 {b : Byte} {bs : Bytes} (h : r.rest = b :: bs) :
    ∃ r', u8.run r = .ok (b.val, r') ∧ r'.rest = bs := by
  have hlen : 1 ≤ r.remaining := by
    rw [← length_rest, h]
    exact Nat.succ_pos _
  refine ⟨r.advance 1 hlen, ?_, by rw [rest_advance, h]; rfl⟩
  unfold u8
  rw [run_bind, run_bytes hlen, h]
  rfl

theorem run_u8_short (h : r.rest = []) : u8.run r = .error (.error shortRead) := by
  have hlen : r.remaining < 1 := by
    rw [← length_rest, h]
    exact Nat.one_pos
  unfold u8
  rw [run_bind, run_bytes_short hlen]
  rfl

/-! ### Reading back -/

theorem inverts_bytes (n : ℕ) : Inverts rest (fun bs : Bytes => bs) (·.length = n) (bytes n) := by
  intro bs hbs r more hr
  have hlen : n ≤ r.remaining := by
    rw [← length_rest, hr, List.length_append, hbs]
    exact Nat.le_add_right _ _
  refine ⟨r.advance n hlen, ?_, ?_⟩
  · rw [run_bytes hlen, hr, List.take_left' hbs]
  · rw [rest_advance, hr, List.drop_left' hbs]

theorem inverts_number (n : ℕ) : Inverts rest (putLe n) (· < 256 ^ n) (number n) := by
  intro v hv r more hr
  have hlen : n ≤ r.remaining := by
    rw [← length_rest, hr, List.length_append, length_putLe]
    exact Nat.le_add_right _ _
  refine ⟨r.advance n hlen, ?_, ?_⟩
  · rw [run_number hlen, hr, List.take_left' (length_putLe n v), readLe_putLe hv]
  · rw [rest_advance, hr, List.drop_left' (length_putLe n v)]

theorem inverts_u32 : Inverts rest putU32 (· < 2 ^ 32) u32 := inverts_number 4

theorem inverts_u64 : Inverts rest putU64 (· < 2 ^ 64) u64 := inverts_number 8

theorem inverts_u8 : Inverts rest (fun k => [byte k]) (· < 256) u8 := by
  intro k hk r more hr
  obtain ⟨r', hrun, hrest⟩ := run_u8 (b := byte k) hr
  rw [val_byte, Nat.mod_eq_of_lt hk] at hrun
  exact ⟨r', hrun, hrest⟩

/-- The loop agrees with the decoder of byte strings. -/
theorem run_uvarintLoop {groups shift v w : ℕ} {bs more : Bytes} (hgroups : shift + 7 * groups = 70)
    (hpos : 0 < groups) (hr : r.rest = bs) (h : uvarintFrom shift bs = .ok (w, more)) :
    ∃ r', (uvarintLoop groups shift v).run r = .ok (v + w, r') ∧ r'.rest = more := by
  induction bs generalizing groups shift v w r with
  | nil => cases h
  | cons b bs ih =>
    have hb := b.isLt
    obtain ⟨t, hrun, ht⟩ := run_u8 hr
    obtain ⟨groups, rfl⟩ := Nat.exists_eq_succ_of_ne_zero hpos.ne'
    unfold uvarintFrom at h
    split at h
    · cases h
    · rename_i hover
      unfold uvarintLoop
      rw [run_bind, hrun, Except.bind]
      simp only
      rw [if_neg hover]
      split at h
      · -- the last group
        rename_i hlt
        obtain ⟨rfl, rfl⟩ := Prod.mk.inj (Except.ok.inj h)
        rw [if_pos hlt, Nat.mod_eq_of_lt hlt]
        exact ⟨t, rfl, ht⟩
      · -- another group follows
        rename_i hge
        split at h
        · cases h
        · rename_i hshift
          rw [if_neg hge, if_neg hshift]
          cases hnext : uvarintFrom (shift + 7) bs with
          | error e =>
            rw [hnext] at h
            cases h
          | ok out =>
            rw [hnext] at h
            obtain ⟨rfl, rfl⟩ := Prod.mk.inj (Except.ok.inj h)
            obtain ⟨r', hrun', hrest'⟩ :=
              @ih _ groups _ (v + b.val % 128 * 2 ^ shift) _ (by omega) (by omega) ht hnext
            exact ⟨r', by rw [hrun', Nat.add_assoc], hrest'⟩

theorem inverts_uvarint : Inverts rest putUvarint (· < 2 ^ 64) uvarint := by
  intro v hv r more hr
  have hgroups : 0 + 7 * 10 = 70 := rfl
  obtain ⟨r', hrun, hrest⟩ :=
    run_uvarintLoop (v := 0) hgroups (by decide) hr (uvarintFrom_putUvarint hv more)
  rw [Nat.zero_add] at hrun
  exact ⟨r', hrun, hrest⟩

theorem inverts_lenPrefixed : Inverts rest putLenPrefixed (·.length < 2 ^ 64) lenPrefixed := by
  refine inverts_uvarint.bind (f := List.length) (fun bs h => h) fun n hn => ?_
  intro bs hbs r more hr
  have hlen : n ≤ r.remaining := by
    rw [← length_rest, hr, List.length_append, hbs.2]
    exact Nat.le_add_right _ _
  obtain ⟨r', hrun, hrest⟩ := inverts_bytes n hbs.2 hr
  refine ⟨r', ?_, hrest⟩
  show (if r.remaining < n then _ else bytes n : Decoder Reader Halt Bytes).run r = _
  rw [if_neg (by omega), hrun]

/-- A list under its count, a varint. -/
def counted {α : Type} (p : Decoder Reader Halt α) : Decoder Reader Halt (List α) := do
  let n ← uvarint
  times p n

/-! ### Cut buffers -/

theorem local_number (n : ℕ) : Local rest (number n) := by
  intro r v r' hrun t more ht
  rcases lt_or_ge r.remaining n with hlt | hge
  · rw [run_number_short hlt] at hrun
    exact nomatch hrun
  · rw [run_number hge] at hrun
    obtain ⟨rfl, rfl⟩ := Prod.mk.inj (Except.ok.inj hrun)
    have hlen : n ≤ r.rest.length := by rwa [length_rest]
    have hge' : n ≤ t.remaining := by
      rw [← length_rest, ht, List.length_append]
      omega
    refine ⟨t.advance n hge', ?_, ?_⟩
    · rw [run_number hge', ht, List.take_append_of_le_length hlen]
    · rw [rest_advance, rest_advance, ht, List.drop_append_of_le_length hlen]

theorem takes_number (n : ℕ) : Takes rest n (number n) := by
  intro r v r' hrun
  rcases lt_or_ge r.remaining n with hlt | hge
  · rw [run_number_short hlt] at hrun
    exact nomatch hrun
  · rw [run_number hge] at hrun
    obtain ⟨rfl, rfl⟩ := Prod.mk.inj (Except.ok.inj hrun)
    rw [rest_advance, List.length_drop, length_rest]
    omega

theorem local_u8 : Local rest u8 := by
  intro r v r' hrun t more ht
  cases hr : r.rest with
  | nil =>
    rw [run_u8_short hr] at hrun
    exact nomatch hrun
  | cons b bs =>
    obtain ⟨u, hu, hbs⟩ := run_u8 hr
    obtain ⟨rfl, rfl⟩ := Prod.mk.inj (Except.ok.inj (hu.symm.trans hrun))
    rw [hr, List.cons_append] at ht
    obtain ⟨t', hrun', ht'⟩ := run_u8 ht
    exact ⟨t', hrun', by rw [ht', hbs]⟩

theorem takes_u8 : Takes rest 1 u8 := by
  intro r v r' hrun
  cases hr : r.rest with
  | nil =>
    rw [run_u8_short hr] at hrun
    exact nomatch hrun
  | cons b bs =>
    obtain ⟨u, hu, hbs⟩ := run_u8 hr
    obtain ⟨rfl, rfl⟩ := Prod.mk.inj (Except.ok.inj (hu.symm.trans hrun))
    rw [hbs, List.length_cons]

theorem local_uvarintLoop (groups shift v : ℕ) : Local rest (uvarintLoop groups shift v) := by
  induction groups generalizing shift v with
  | zero => exact Local.throw _
  | succ groups ih =>
    refine local_u8.bind fun b => ?_
    split
    · exact Local.throw _
    · split
      · exact Local.pure _
      · split
        · exact Local.throw _
        · exact ih _ _

theorem takes_uvarintLoop (groups shift v : ℕ) : Takes rest 1 (uvarintLoop groups shift v) := by
  induction groups generalizing shift v with
  | zero => exact Takes.throw _ _
  | succ groups ih =>
    refine takes_u8.bind (n := 0) fun b => ?_
    split
    · exact Takes.throw _ _
    · split
      · exact Takes.pure _
      · split
        · exact Takes.throw _ _
        · exact (ih _ _).mono (Nat.zero_le _)

theorem local_uvarint : Local rest uvarint := local_uvarintLoop 10 0 0

theorem takes_uvarint : Takes rest 1 uvarint := takes_uvarintLoop 10 0 0

/-! ### Values -/

theorem yields_bytes (n : ℕ) : Yields (bytes n) (·.length = n) :=
  fun _ _ _ hrun => (run_bytes_eq_ok hrun).1

theorem yields_number (n : ℕ) : Yields (number n) (· < 256 ^ n) := by
  intro r v r' hrun
  rcases lt_or_ge r.remaining n with hlt | hge
  · rw [run_number_short hlt] at hrun
    exact nomatch hrun
  · rw [run_number hge] at hrun
    obtain ⟨rfl, -⟩ := Prod.mk.inj (Except.ok.inj hrun)
    have hlen : (r.rest.take n).length = n := List.length_take_of_le (by rwa [length_rest])
    have hlt := readLe_lt (r.rest.take n)
    rwa [hlen] at hlt

theorem yields_u64 : Yields u64 (· < 2 ^ 64) := yields_number 8

/-- The groups read so far are below the next one's place. -/
theorem yields_uvarintLoop {groups shift v : ℕ} (hv : v < 2 ^ shift)
    (hshift : shift + 7 * groups = 70) :
    Yields (uvarintLoop groups shift v) (· < 2 ^ 64) := by
  induction groups generalizing shift v with
  | zero => exact .throw _
  | succ groups ih =>
    refine (show Yields u8 fun _ => True from fun _ _ _ _ => trivial).bind fun b _ => ?_
    have hgroup : v + b % 128 * 2 ^ shift < 2 ^ (shift + 7) := by
      have hle : b % 128 * 2 ^ shift ≤ 127 * 2 ^ shift := Nat.mul_le_mul_right _ (by omega)
      rw [Nat.pow_add]
      omega
    split
    · exact .throw _
    · rename_i hover
      split
      · rename_i hlt
        refine .pure ?_
        rcases Nat.lt_or_ge shift 63 with hlow | hhigh
        · have hle : 2 ^ (shift + 7) ≤ 2 ^ 64 := Nat.pow_le_pow_right (by decide) (by omega)
          exact lt_of_lt_of_le hgroup hle
        · -- the last group has one bit
          obtain rfl : shift = 63 := by omega
          have hbit : b * 2 ^ 63 ≤ 1 * 2 ^ 63 := Nat.mul_le_mul_right _ (by omega)
          have htwice : 2 ^ 64 = 2 ^ 63 + 1 * 2 ^ 63 := by decide
          rw [Nat.mod_eq_of_lt hlt, htwice]
          exact Nat.add_lt_add_of_lt_of_le hv hbit
      · split
        · exact .throw _
        · exact ih hgroup (by omega)

theorem yields_uvarint : Yields uvarint (· < 2 ^ 64) := yields_uvarintLoop (by decide) rfl

theorem yields_lenPrefixed : Yields lenPrefixed (·.length < 2 ^ 64) := by
  refine yields_uvarint.bind fun n hn => ?_
  refine (show Yields (get : Decoder Reader Halt Reader) fun _ => True from fun _ _ _ _ =>
    trivial).bind fun r _ => ?_
  split
  · exact .throw _
  · intro r bs r' hrun
    show bs.length < 2 ^ 64
    rw [yields_bytes n hrun]
    exact hn

theorem yields_counted {α : Type} {p : Decoder Reader Halt α} {ok : α → Prop} (hp : Yields p ok) :
    Yields (counted p) fun as => as.length < 2 ^ 64 ∧ ∀ a ∈ as, ok a :=
  yields_uvarint.bind fun n hn => by
    intro r as r' hrun
    obtain ⟨hlen, hall⟩ := hp.times n hrun
    exact ⟨by rw [hlen]; exact hn, hall⟩

/-! ### No panics -/

theorem avoids_bytes (n : ℕ) : Avoids (bytes n) .panic := by
  intro r h
  rcases lt_or_ge r.remaining n with hlt | hge
  · rw [run_bytes_short hlt] at h
    exact nomatch h
  · rw [run_bytes hge] at h
    exact nomatch h

theorem avoids_number (n : ℕ) : Avoids (number n) .panic := by
  intro r h
  rcases lt_or_ge r.remaining n with hlt | hge
  · rw [run_number_short hlt] at h
    exact nomatch h
  · rw [run_number hge] at h
    exact nomatch h

theorem avoids_u32 : Avoids u32 .panic := avoids_number 4

theorem avoids_u64 : Avoids u64 .panic := avoids_number 8

theorem avoids_u8 : Avoids u8 .panic := by
  intro r h
  cases hr : r.rest with
  | nil =>
    rw [run_u8_short hr] at h
    exact nomatch h
  | cons b bs =>
    obtain ⟨r', hrun, -⟩ := run_u8 hr
    rw [hrun] at h
    exact nomatch h

/-- Ten turns take all the bits there can be. -/
theorem avoids_uvarintLoop {groups shift : ℕ} (hgroups : shift + 7 * groups = 70)
    (hpos : 0 < groups) (v : ℕ) :
    Avoids (uvarintLoop groups shift v) .panic := by
  induction groups generalizing shift v with
  | zero => exact absurd hpos (lt_irrefl 0)
  | succ groups ih =>
    refine avoids_u8.bind fun b => ?_
    split
    · exact Avoids.throw (by simp)
    · split
      · exact Avoids.pure _ _
      · split
        · exact Avoids.throw (by simp)
        · exact ih (by omega) (by omega) _

theorem avoids_uvarint : Avoids uvarint .panic := avoids_uvarintLoop rfl (by decide) 0

theorem avoids_lenPrefixed : Avoids lenPrefixed .panic := by
  refine avoids_uvarint.bind fun n r h => ?_
  have h : (if r.remaining < n then throw (.error (.corruption "length prefix beyond buffer"))
      else bytes n : Decoder Reader Halt Bytes).run r = .error .panic := h
  split at h
  · exact Avoids.throw (by simp) r h
  · exact avoids_bytes n r h

theorem avoids_counted {α : Type} {p : Decoder Reader Halt α} (hp : Avoids p .panic) :
    Avoids (counted p) .panic :=
  avoids_uvarint.bind fun n => hp.times n

theorem decodeAll_ne_panic {α : Type} {p : Decoder Reader Halt α} (hp : Avoids p .panic)
    {buf : Bytes} (h : buf.length < 2 ^ 64) : decodeAll p buf ≠ .error .panic := by
  unfold decodeAll
  rw [dif_pos h]
  intro heq
  cases hrun : p.run ⟨buf, 0, Nat.zero_le _, h⟩ with
  | error e =>
    rw [hrun] at heq
    obtain rfl : e = .panic := Except.error.inj heq
    exact hp _ hrun
  | ok out =>
    rw [hrun] at heq
    exact nomatch heq

theorem decodeAll_of_inverts {α : Type} {enc : α → Bytes} {ok : α → Prop}
    {p : Decoder Reader Halt α} (hp : Inverts rest enc ok p) {a : α} (ha : ok a) {more : Bytes}
    (h : (enc a ++ more).length < 2 ^ 64) :
    decodeAll p (enc a ++ more) = .ok a := by
  obtain ⟨r', hrun, -⟩ := hp ha (s := ⟨enc a ++ more, 0, Nat.zero_le _, h⟩) rfl
  unfold decodeAll
  rw [dif_pos h, hrun]
  rfl

end Reader

end Fluent31
