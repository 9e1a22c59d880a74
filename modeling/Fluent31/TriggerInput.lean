/-
The input of a drain at its two ends (`trigger.rs`, `fluent-guest/src/lib.rs`).

The runner packs a prefix of a queue into the input of an invocation, and the
guest parses it: touched keys behind varint lengths, or changes behind a count
with `u32` lengths.  A position of the guest is a `usize` of `bits` bits; a sum
that overflows it traps where overflow checks are on.

* `packEvents_spec` — what is packed: a prefix of the queue, frame by frame;
* `parseTriggerKeys_overflow_iff`, `parseChanges_overflow_iff` — the inputs on
  which a parser overflows;
* `trigger_input_iff` — the guest gets what was consumed, and its parsers return
  on every input without a length that overreaches.
-/
import Fluent31.GuestScan
import Fluent31.TriggerSweep

namespace Fluent31

open GuestScan (readVarintFrom)

/-! ### The guest's positions -/

/-- A computation of the guest: an early `None`, or a trap. -/
abbrev GuestParse (α : Type) := OptionT (Except GuestStop) α

def addOverflow : GuestStop := .trap "attempt to add with overflow"

section Parse

variable (bits : ℕ)

/-- A sum of two positions. -/
def addUsize (a b : ℕ) : GuestParse ℕ :=
  OptionT.mk (if 2 ^ bits ≤ a + b then .error addOverflow else .ok (some (a + b)))

/-- `input.get(start..stop)`. -/
def getRange (input : Bytes) (start stop : ℕ) : GuestParse Bytes :=
  OptionT.mk (.ok
    (if start ≤ stop ∧ stop ≤ input.length then some ((input.take stop).drop start) else none))

/-- `input.get(i)`. -/
def getAt (input : Bytes) (i : ℕ) : GuestParse Byte := OptionT.mk (.ok input[i]?)

/-! ### Touched keys -/

/-- The loop of `parse_trigger_keys`, at most that many rounds of it. -/
def keysFrom (input : Bytes) : ℕ → ℕ → List Bytes → Except GuestStop (Option (List Bytes))
  | 0, _, _ => .error .running
  | rounds + 1, pos, keys =>
    if pos < input.length then
      match readVarintFrom input 10 0 0 pos with
      | (none, _) => .ok none
      | (some len, pos) =>
        if 2 ^ bits ≤ len then .ok none
        else if 2 ^ bits ≤ pos + len then .error addOverflow
        else if input.length < pos + len then .ok none
        else keysFrom input rounds (pos + len) (keys ++ [(input.drop pos).take len])
    else .ok (some keys)

/-- `parse_trigger_keys`; a round takes a byte at least. -/
def parseTriggerKeys (input : Bytes) : Except GuestStop (Option (List Bytes)) :=
  keysFrom bits input (input.length + 1) 0 []

end Parse

/-! ### Changes -/

/-- One committed change, as it is delivered. -/
inductive Change
  | put (seqno : ℕ) (key : Bytes) (value : Option Bytes)
  | delete (seqno : ℕ) (key : Bytes)
  deriving DecidableEq, Repr

section Parse

variable (bits : ℕ)

/-- The closure `u32_at`. -/
def u32At (input : Bytes) (pos : ℕ) : GuestParse (ℕ × ℕ) := do
  let stop ← addUsize bits pos 4
  let b ← getRange input pos stop
  return (readLe b, stop)

/-- The rest of a change behind its key, which ends at `pos`. -/
def changeOfKind (input : Bytes) (seqno kind : ℕ) (key : Bytes) (pos : ℕ) :
    GuestParse (Change × ℕ) :=
  if kind = 0 then do
    let (vlen, vstart) ← u32At bits input pos
    let vend ← addUsize bits vstart vlen
    let value ← getRange input vstart vend
    return (.put seqno key (some value), vend)
  else if kind = 2 then return (.put seqno key none, pos)
  else if kind = 1 then return (.delete seqno key, pos)
  else failure

/-- One round of `parse_changes`: the change at `pos`, and where it ends. -/
def changeAt (input : Bytes) (pos : ℕ) : GuestParse (Change × ℕ) := do
  let seqEnd ← addUsize bits pos 8
  let seq ← getRange input pos seqEnd
  let kindPos ← addUsize bits pos 8
  let kind ← getAt input kindPos
  let lenPos ← addUsize bits pos 9
  let (klen, kstart) ← u32At bits input lenPos
  let kend ← addUsize bits kstart klen
  let key ← getRange input kstart kend
  changeOfKind bits input (readLe seq) kind.val key kend

def changesFrom (input : Bytes) : ℕ → ℕ → List Change → GuestParse (List Change)
  | 0, pos, out => if pos = input.length then return out else failure
  | n + 1, pos, out => do
    let (c, pos) ← changeAt bits input pos
    changesFrom input n pos (out ++ [c])

/-- `parse_changes`. -/
def parseChanges (input : Bytes) : GuestParse (List Change) := do
  let (count, pos) ← u32At bits input 0
  changesFrom bits input count pos []

end Parse

/-! ### Lengths that overreach -/

/-- Bytes the varint loop reads to their end, with their value. -/
def IsVarint (vb : Bytes) (v : ℕ) : Prop := readVarintFrom vb 10 0 0 0 = (some v, vb.length)

/-- Behind some complete keys, from offset `off` on, a length that leads past the
last position. -/
inductive KeysOverreach (bits : ℕ) : ℕ → Bytes → Prop
  | here {off : ℕ} {vb tail : Bytes} {len : ℕ} :
      IsVarint vb len → len < 2 ^ bits → 2 ^ bits ≤ off + vb.length + len →
        KeysOverreach bits off (vb ++ tail)
  | later {off : ℕ} {vb key tail : Bytes} :
      IsVarint vb key.length → KeysOverreach bits (off + vb.length + key.length) tail →
      KeysOverreach bits off (vb ++ (key ++ tail))

/-- The varint loop reads from its position on. -/
theorem readVarintFrom_append (done rest : Bytes) (groups shift v : ℕ) :
    readVarintFrom (done ++ rest) groups shift v done.length =
      ((readVarintFrom rest groups shift v 0).1,
        done.length + (readVarintFrom rest groups shift v 0).2) := by
  induction groups generalizing done rest shift v with
  | zero => rfl
  | succ groups ih =>
    cases rest with
    | nil =>
      have hnone : (done ++ [])[done.length]? = none := List.getElem?_eq_none (by simp)
      rw [readVarintFrom, readVarintFrom, hnone]
      rfl
    | cons b rest =>
      have hget : (done ++ b :: rest)[done.length]? = some b := by simp
      rw [readVarintFrom, readVarintFrom, hget]
      show (if b.val < 128 then _ else if 63 < shift + 7 then _ else _) = _
      rw [List.getElem?_cons_zero]
      by_cases hlast : b.val < 128
      · simp only [if_pos hlast]
      · simp only [if_neg hlast]
        by_cases hlong : 63 < shift + 7
        · simp only [if_pos hlong]
        · simp only [if_neg hlong]
          have hdone := ih (done ++ [b]) rest (shift + 7) (v + b.val % 128 * 2 ^ shift % 2 ^ 64)
          have hone := ih [b] rest (shift + 7) (v + b.val % 128 * 2 ^ shift % 2 ^ 64)
          rw [List.append_assoc, List.length_append, List.length_singleton] at hdone
          change readVarintFrom (b :: rest) groups (shift + 7) _ 1 = _ at hone
          change readVarintFrom (done ++ b :: rest) groups (shift + 7) _
            (done.length + 1) = _ at hdone
          rw [hdone, hone]
          exact Prod.ext rfl (Nat.add_assoc _ _ _)

/-- What it has read is what it needs. -/
theorem readVarintFrom_take {rest : Bytes} {groups shift v w p : ℕ}
    (h : readVarintFrom rest groups shift v 0 = (some w, p)) :
    0 < p ∧ p ≤ rest.length ∧ ∀ tail, readVarintFrom (rest.take p ++ tail) groups shift v 0 =
      (some w, p) := by
  induction groups generalizing rest shift v w p with
  | zero => exact absurd (congrArg Prod.fst h) (Option.some_ne_none w).symm
  | succ groups ih =>
    cases rest with
    | nil => exact absurd (congrArg Prod.fst h) (Option.some_ne_none w).symm
    | cons b rest =>
      have hread : ∀ more, readVarintFrom (b :: more) (groups + 1) shift v 0 =
          if b.val < 128 then (some (v + b.val % 128 * 2 ^ shift % 2 ^ 64), 1)
          else if 63 < shift + 7 then (none, 1)
          else readVarintFrom (b :: more) groups (shift + 7)
            (v + b.val % 128 * 2 ^ shift % 2 ^ 64) 1 :=
        fun more => rfl
      rw [hread] at h
      by_cases hlast : b.val < 128
      · rw [if_pos hlast] at h
        obtain ⟨hw, rfl⟩ := Prod.mk.inj h
        refine ⟨Nat.one_pos, Nat.succ_le_succ (Nat.zero_le _), fun tail => ?_⟩
        show readVarintFrom (b :: ([] ++ tail)) (groups + 1) shift v 0 = _
        rw [hread, if_pos hlast, hw]
      · rw [if_neg hlast] at h
        by_cases hlong : 63 < shift + 7
        · rw [if_pos hlong] at h
          exact absurd (congrArg Prod.fst h) (Option.some_ne_none w).symm
        · rw [if_neg hlong] at h
          have hone : ∀ more, readVarintFrom (b :: more) groups (shift + 7) _ 1 = _ :=
            fun more => readVarintFrom_append [b] more groups (shift + 7)
              (v + b.val % 128 * 2 ^ shift % 2 ^ 64)
          rw [hone] at h
          generalize hinner : readVarintFrom rest groups (shift + 7)
            (v + b.val % 128 * 2 ^ shift % 2 ^ 64) 0 = r at h
          obtain ⟨w', q⟩ := r
          obtain ⟨hw, hq⟩ := Prod.mk.inj h
          change w' = some w at hw
          change 1 + q = p at hq
          subst hw hq
          obtain ⟨-, hle, hmore⟩ := ih hinner
          refine ⟨by omega, by rw [List.length_cons]; omega, fun tail => ?_⟩
          rw [Nat.add_comm 1, List.take_succ_cons, List.cons_append, hread, if_neg hlast,
            if_neg hlong, hone, hmore tail, List.length_singleton, Nat.add_comm 1]

theorem IsVarint.read {vb : Bytes} {v : ℕ} (h : IsVarint vb v) (tail : Bytes) :
    readVarintFrom (vb ++ tail) 10 0 0 0 = (some v, vb.length) := by
  have hmore := (readVarintFrom_take h).2.2 tail
  rwa [List.take_length] at hmore

theorem isVarint_take {rest : Bytes} {v p : ℕ} (h : readVarintFrom rest 10 0 0 0 = (some v, p)) :
    IsVarint (rest.take p) v := by
  obtain ⟨-, hle, hmore⟩ := readVarintFrom_take h
  have hnil := hmore []
  rw [List.append_nil] at hnil
  rwa [IsVarint, List.length_take, Nat.min_eq_left hle]

/-- The first length overreaches, or one behind the key it announces. -/
theorem keysOverreach_iff {bits off : ℕ} {rest : Bytes} : KeysOverreach bits off rest ↔
    ∃ len p, readVarintFrom rest 10 0 0 0 = (some len, p) ∧
      (len < 2 ^ bits ∧ 2 ^ bits ≤ off + p + len ∨
        p + len ≤ rest.length ∧ KeysOverreach bits (off + p + len) (rest.drop (p + len))) := by
  constructor
  · intro h
    cases h with
    | here hvarint hlen hover => exact ⟨_, _, hvarint.read _, Or.inl ⟨hlen, hover⟩⟩
    | later hvarint hlater =>
      rename_i vb key tail
      refine ⟨_, _, hvarint.read _, Or.inr ⟨?_, ?_⟩⟩
      · rw [List.length_append, List.length_append]
        omega
      · rw [← List.drop_drop, List.drop_left, List.drop_left]
        exact hlater
  · rintro ⟨len, p, hread, ⟨hlen, hover⟩ | ⟨hle, hlater⟩⟩
    · have hp := (readVarintFrom_take hread).2.1
      rw [← List.take_append_drop p rest]
      refine .here (isVarint_take hread) hlen ?_
      rwa [List.length_take, Nat.min_eq_left hp]
    · have hkey : ((rest.drop p).take len).length = len := by
        rw [List.length_take, List.length_drop]
        omega
      have hvb : (rest.take p).length = p := by
        rw [List.length_take]
        omega
      have hsplit : rest = rest.take p ++ ((rest.drop p).take len ++ rest.drop (p + len)) := by
        rw [← List.drop_drop, List.take_append_drop, List.take_append_drop]
      rw [hsplit]
      refine .later (hkey.symm ▸ isVarint_take hread) ?_
      rwa [hvb, hkey]

/-- The loop overflows exactly when what is left overreaches, and else returns. -/
theorem keysFrom_spec {bits rounds : ℕ} {done rest : Bytes} (keys : List Bytes)
    (hrounds : rest.length < rounds) (hroom : (done ++ rest).length < 2 ^ bits) :
    (keysFrom bits (done ++ rest) rounds done.length keys = .error addOverflow ∧
      KeysOverreach bits done.length rest) ∨
      ((∃ r, keysFrom bits (done ++ rest) rounds done.length keys = .ok r) ∧
        ¬ KeysOverreach bits done.length rest) := by
  induction rounds generalizing done rest keys with
  | zero => omega
  | succ rounds ih =>
    rw [keysFrom]
    have hlen : (done ++ rest).length = done.length + rest.length := List.length_append
    by_cases hin : done.length < (done ++ rest).length
    · rw [if_pos hin, readVarintFrom_append]
      rcases hread : readVarintFrom rest 10 0 0 0 with ⟨_ | len, p⟩
      · refine Or.inr ⟨⟨none, rfl⟩, fun h => ?_⟩
        obtain ⟨len, p', hread', -⟩ := keysOverreach_iff.mp h
        exact absurd (congrArg Prod.fst (hread.symm.trans hread')) (Option.some_ne_none len).symm
      · obtain ⟨hpos, hp, -⟩ := readVarintFrom_take hread
        have hiff : KeysOverreach bits done.length rest ↔ len < 2 ^ bits ∧
            2 ^ bits ≤ done.length + p + len ∨
            p + len ≤ rest.length ∧ KeysOverreach bits (done.length + p + len)
              (rest.drop (p + len)) := by
          rw [keysOverreach_iff]
          constructor
          · rintro ⟨len', p', hread', h⟩
            obtain ⟨heq, rfl⟩ := Prod.mk.inj (hread.symm.trans hread')
            obtain rfl := Option.some.inj heq
            exact h
          · exact fun h => ⟨len, p, hread, h⟩
        rw [hiff]
        dsimp only
        by_cases hwide : 2 ^ bits ≤ len
        · rw [if_pos hwide]
          exact Or.inr ⟨⟨none, rfl⟩, by rintro (⟨hlt, -⟩ | ⟨hle, -⟩) <;> omega⟩
        rw [if_neg hwide]
        by_cases hover : 2 ^ bits ≤ done.length + p + len
        · rw [if_pos hover]
          exact Or.inl ⟨rfl, Or.inl ⟨not_le.mp hwide, hover⟩⟩
        rw [if_neg hover]
        by_cases hshort : (done ++ rest).length < done.length + p + len
        · rw [if_pos hshort]
          exact Or.inr ⟨⟨none, rfl⟩, by rintro (⟨-, hle⟩ | ⟨hle, -⟩) <;> omega⟩
        · rw [if_neg hshort]
          have htake : (rest.take (p + len)).length = p + len := by
            rw [List.length_take]
            omega
          have hdrop : (rest.drop (p + len)).length < rounds := by
            rw [List.length_drop]
            omega
          have hsplit : done ++ rest = (done ++ rest.take (p + len)) ++ rest.drop (p + len) := by
            rw [List.append_assoc, List.take_append_drop]
          have hoff : (done ++ rest.take (p + len)).length = done.length + p + len := by
            rw [List.length_append, htake, Nat.add_assoc]
          have hnext := @ih (done ++ rest.take (p + len)) (rest.drop (p + len))
            (keys ++ [((done ++ rest).drop (done.length + p)).take len]) hdrop (hsplit ▸ hroom)
          rw [← hsplit, hoff] at hnext
          refine hnext.imp (fun h => ⟨h.1, Or.inr ⟨by omega, h.2⟩⟩) fun h => ⟨h.1, ?_⟩
          rintro (⟨-, hle⟩ | ⟨-, hlater⟩)
          · omega
          · exact h.2 hlater
    · -- nothing is left
      rw [if_neg hin]
      refine Or.inr ⟨⟨_, rfl⟩, fun h => ?_⟩
      obtain rfl : rest = [] := List.length_eq_zero_iff.mp (by omega)
      obtain ⟨len, p, hread, -⟩ := keysOverreach_iff.mp h
      exact absurd (congrArg Prod.fst hread) (Option.some_ne_none len).symm

/-- **Touched keys** make the parser overflow exactly when a length overreaches. -/
theorem parseTriggerKeys_overflow_iff {bits : ℕ} {input : Bytes} (hroom : input.length < 2 ^ bits) :
    (∃ r, parseTriggerKeys bits input = .ok r) ↔ ¬ KeysOverreach bits 0 input := by
  have hspec := @keysFrom_spec bits (input.length + 1) [] input [] (Nat.lt_succ_self _) hroom
  rcases hspec with ⟨herr, hover⟩ | ⟨hok, hnot⟩
  · refine iff_of_false ?_ (not_not.mpr hover)
    rintro ⟨r, hr⟩
    exact absurd (hr.symm.trans herr) (by simp)
  · exact iff_of_true hok hnot

/-- The keys that are packed are the keys that are parsed. -/
theorem keysFrom_frames {bits : ℕ} {done : Bytes} (users keys : List Bytes) {rounds : ℕ}
    (hroom : (done ++ users.flatMap putLenPrefixed).length < 2 ^ bits)
    (hlong : (done ++ users.flatMap putLenPrefixed).length < 2 ^ 64)
    (hrounds : users.length < rounds) :
    keysFrom bits (done ++ users.flatMap putLenPrefixed) rounds done.length keys =
      .ok (some (keys ++ users)) := by
  induction users generalizing done keys rounds with
  | nil =>
    obtain ⟨rounds, rfl⟩ := Nat.exists_eq_succ_of_ne_zero hrounds.ne'
    rw [keysFrom, if_neg (by simp), List.append_nil]
  | cons u users ih =>
    obtain ⟨rounds, rfl⟩ := Nat.exists_eq_succ_of_ne_zero (Nat.ne_of_gt (Nat.zero_lt_of_lt hrounds))
    rw [List.flatMap_cons] at hroom hlong ⊢
    have hpos := length_putUvarint_pos u.length
    have hlen : (done ++ (putLenPrefixed u ++ users.flatMap putLenPrefixed)).length =
        done.length + (putUvarint u.length).length + u.length +
          (users.flatMap putLenPrefixed).length := by
      rw [List.length_append, List.length_append, putLenPrefixed, List.length_append]
      omega
    have hdrop : (done ++ (putLenPrefixed u ++ users.flatMap putLenPrefixed)).drop done.length =
        putUvarintUpTo 10 u.length ++ (u ++ users.flatMap putLenPrefixed) := by
      rw [List.drop_left, putLenPrefixed, List.append_assoc]
      rfl
    have hread : readVarintFrom (done ++ (putLenPrefixed u ++ users.flatMap putLenPrefixed)) 10 0 0
        done.length = (some (0 + u.length * 2 ^ 0), done.length + (putUvarint u.length).length) :=
      GuestScan.readVarintFrom_putUvarintUpTo rfl (by decide) (by omega) hdrop
    rw [Nat.pow_zero, Nat.mul_one, Nat.zero_add] at hread
    have htake : ((done ++ (putLenPrefixed u ++ users.flatMap putLenPrefixed)).drop
        (done.length + (putUvarint u.length).length)).take u.length = u := by
      rw [← List.drop_drop, hdrop, show putUvarintUpTo 10 u.length = putUvarint u.length from rfl,
        List.drop_left, List.take_left]
    have hsplit : done ++ (putLenPrefixed u ++ users.flatMap putLenPrefixed) =
        (done ++ putLenPrefixed u) ++ users.flatMap putLenPrefixed := (List.append_assoc _ _ _).symm
    have hoff : (done ++ putLenPrefixed u).length = done.length + (putUvarint u.length).length +
        u.length := by
      rw [List.length_append, putLenPrefixed, List.length_append, Nat.add_assoc]
    rw [keysFrom, if_pos (by omega), hread]
    dsimp only
    rw [if_neg (by omega), if_neg (by omega), if_neg (by omega), htake]
    have hnext := @ih (done ++ putLenPrefixed u) (keys ++ [u]) rounds (hsplit ▸ hroom)
      (hsplit ▸ hlong) (Nat.lt_of_succ_lt_succ hrounds)
    rw [← hsplit, hoff, List.append_assoc] at hnext
    exact hnext

theorem parseTriggerKeys_frames {bits : ℕ} (users : List Bytes)
    (hroom : (users.flatMap putLenPrefixed).length < 2 ^ bits)
    (hlong : (users.flatMap putLenPrefixed).length < 2 ^ 64) :
    parseTriggerKeys bits (users.flatMap putLenPrefixed) = .ok (some users) := by
  have hrounds : users.length ≤ (users.flatMap putLenPrefixed).length := by
    rw [List.length_flatMap]
    refine (List.length_le_sum_of_one_le _ fun n hn => ?_).trans_eq' (List.length_map _)
    obtain ⟨u, -, rfl⟩ := List.mem_map.mp hn
    have hpos := length_putUvarint_pos u.length
    rw [putLenPrefixed, List.length_append]
    omega
  exact @keysFrom_frames bits [] users [] _ hroom hlong (Nat.lt_succ_of_le hrounds)

/-! ### Reading at a position -/

section Parse

variable {bits : ℕ}

theorem addUsize_of_lt {a b : ℕ} (h : a + b < 2 ^ bits) : addUsize bits a b = pure (a + b) := by
  rw [addUsize, if_neg (not_le.mpr h)]
  rfl

theorem addUsize_of_le {a b : ℕ} (h : 2 ^ bits ≤ a + b) :
    addUsize bits a b = OptionT.mk (.error addOverflow) := by
  rw [addUsize, if_pos h]

theorem getRange_of_lt {input : Bytes} {start stop : ℕ} (h : input.length < stop) :
    getRange input start stop = OptionT.mk (.ok none) := by
  rw [getRange, if_neg fun hle => absurd hle.2 (not_le.mpr h)]

theorem getRange_mid (done mid tail : Bytes) :
    getRange (done ++ (mid ++ tail)) done.length (done.length + mid.length) = pure mid := by
  have hrange : done.length ≤ done.length + mid.length ∧
      done.length + mid.length ≤ (done ++ (mid ++ tail)).length := by
    rw [List.length_append, List.length_append]
    omega
  rw [getRange, if_pos hrange, List.take_length_add_append, List.drop_left, List.take_left]
  rfl

/-- The rest of a computation behind an early `None`, and behind a trap. -/
theorem none_bind {α β : Type} (f : α → GuestParse β) :
    ((OptionT.mk (.ok none) : GuestParse α) >>= f) = OptionT.mk (.ok none) := rfl

theorem trap_bind {α β : Type} (stop : GuestStop) (f : α → GuestParse β) :
    ((OptionT.mk (.error stop) : GuestParse α) >>= f) = OptionT.mk (.error stop) := rfl

theorem u32At_mid (done w tail : Bytes) (hw : w.length = 4)
    (hroom : (done ++ (w ++ tail)).length < 2 ^ bits) :
    u32At bits (done ++ (w ++ tail)) done.length = pure (readLe w, done.length + 4) := by
  have hlen : done.length + 4 < 2 ^ bits := by
    rw [List.length_append, List.length_append] at hroom
    omega
  have hmid := getRange_mid done w tail
  rw [hw] at hmid
  unfold u32At
  rw [addUsize_of_lt hlen, pure_bind, hmid, pure_bind]

theorem u32At_short {input : Bytes} {pos : ℕ} (hpos : pos ≤ input.length)
    (h : input.length < pos + 4)
    (hroom : input.length + 4 < 2 ^ bits) : u32At bits input pos = OptionT.mk (.ok none) := by
  unfold u32At
  rw [addUsize_of_lt (by omega), pure_bind, getRange_of_lt h, none_bind]

/-! ### One change -/

theorem changeAt_short {input : Bytes} {pos : ℕ} (hpos : pos ≤ input.length)
    (h : input.length < pos + 13)
    (hroom : input.length + 13 < 2 ^ bits) : changeAt bits input pos = OptionT.mk (.ok none) := by
  unfold changeAt
  rw [addUsize_of_lt (by omega), pure_bind]
  by_cases h8 : input.length < pos + 8
  · rw [getRange_of_lt h8, none_bind]
  · have hget : ∃ seq, getRange input pos (pos + 8) = pure seq := by
      rw [getRange, if_pos ⟨Nat.le_add_right _ _, not_lt.mp h8⟩]
      exact ⟨_, rfl⟩
    obtain ⟨seq, hseq⟩ := hget
    rw [hseq, pure_bind, pure_bind]
    by_cases h9 : input.length < pos + 9
    · rw [getAt, List.getElem?_eq_none (by omega), none_bind]
    · obtain ⟨kind, hkind⟩ : ∃ kind, input[pos + 8]? = some kind :=
        ⟨_, List.getElem?_eq_getElem (by omega)⟩
      have hat : getAt input (pos + 8) = pure kind := by
        rw [getAt, hkind]
        rfl
      rw [hat, pure_bind, addUsize_of_lt (by omega), pure_bind, u32At_short (by omega) (by omega)
        (by omega), none_bind]

/-- Behind a whole header, the key and what its kind brings. -/
theorem changeAt_header (done seq : Bytes) (kind : Byte) (kl tail : Bytes) (hseq : seq.length = 8)
    (hkl : kl.length = 4) (hroom : (done ++ (seq ++ kind :: (kl ++ tail))).length < 2 ^ bits) :
    changeAt bits (done ++ (seq ++ kind :: (kl ++ tail))) done.length =
      addUsize bits (done.length + 13) (readLe kl) >>= fun kend =>
        getRange (done ++ (seq ++ kind :: (kl ++ tail))) (done.length + 13) kend >>= fun key =>
          changeOfKind bits (done ++ (seq ++ kind :: (kl ++ tail)))
            (readLe seq) kind.val key kend := by
  have hlen : (done ++ (seq ++ kind :: (kl ++ tail))).length = done.length + 13 + tail.length := by
    simp only [List.length_append, List.length_cons, hseq, hkl]
    omega
  have hrange : getRange (done ++ (seq ++ kind :: (kl ++ tail))) done.length
      (done.length + 8) = pure seq := by
    have hmid := getRange_mid done seq (kind :: (kl ++ tail))
    rwa [hseq] at hmid
  have hat : getAt (done ++ (seq ++ kind :: (kl ++ tail))) (done.length + 8) = pure kind := by
    have hget : (done ++ (seq ++ kind :: (kl ++ tail)))[done.length + 8]? = some kind := by
      rw [List.getElem?_append_right (by omega), Nat.add_sub_cancel_left, List.getElem?_append_right
        (by omega), hseq]
      rfl
    rw [getAt, hget]
    rfl
  have hsplit : done ++ (seq ++ kind :: (kl ++ tail)) = (done ++ (seq ++ [kind])) ++
      (kl ++ tail) := by simp
  have hoff : (done ++ (seq ++ [kind])).length = done.length + 9 := by
    rw [List.length_append, List.length_append, hseq]
    rfl
  have hu32 : u32At bits (done ++ (seq ++ kind :: (kl ++ tail))) (done.length + 9) =
      pure (readLe kl, done.length + 13) := by
    have hmid := @u32At_mid bits (done ++ (seq ++ [kind])) kl tail hkl (hsplit ▸ hroom)
    rwa [← hsplit, hoff] at hmid
  unfold changeAt
  rw [addUsize_of_lt (by omega), pure_bind, hrange, pure_bind, pure_bind, hat, pure_bind,
    addUsize_of_lt (by omega), pure_bind, hu32, pure_bind]

/-- A key that is there. -/
theorem changeAt_key (done seq : Bytes) (kind : Byte) (key tail : Bytes) (hseq : seq.length = 8)
    (hkey : key.length < 2 ^ 32)
    (hroom : (done ++ (seq ++ kind :: (putU32 key.length ++ (key ++ tail)))).length < 2 ^ bits) :
    changeAt bits (done ++ (seq ++ kind :: (putU32 key.length ++ (key ++ tail)))) done.length =
      changeOfKind bits (done ++ (seq ++ kind :: (putU32 key.length ++ (key ++ tail))))
        (readLe seq) kind.val key (done.length + 13 + key.length) := by
  have hlen : (done ++ (seq ++ kind :: (putU32 key.length ++ (key ++ tail)))).length =
      done.length + 13 + key.length + tail.length := by
    simp only [List.length_append, List.length_cons, length_putU32, hseq]
    omega
  have hsplit : done ++ (seq ++ kind :: (putU32 key.length ++ (key ++ tail))) =
      (done ++ (seq ++ kind :: putU32 key.length)) ++ (key ++ tail) := by simp
  have hoff : (done ++ (seq ++ kind :: putU32 key.length)).length = done.length + 13 := by
    simp only [List.length_append, List.length_cons, length_putU32, hseq]
  have hrange : getRange (done ++ (seq ++ kind :: (putU32 key.length ++ (key ++ tail))))
      (done.length + 13) (done.length + 13 + key.length) = pure key := by
    have hmid := getRange_mid (done ++ (seq ++ kind :: putU32 key.length)) key tail
    rwa [← hsplit, hoff] at hmid
  have hread : readLe (putU32 key.length) = key.length := readLe_putLe (by omega)
  rw [changeAt_header done seq kind (putU32 key.length) (key ++ tail) hseq
    (length_putU32 _) hroom, hread, addUsize_of_lt (by omega), pure_bind, hrange, pure_bind]

/-- The value of a put, behind a key. -/
theorem changeOfKind_put (done : Bytes) (w tail : Bytes) (hw : w.length = 4) (seqno : ℕ)
    (key : Bytes) (hroom : (done ++ (w ++ tail)).length < 2 ^ bits) :
    changeOfKind bits (done ++ (w ++ tail)) seqno 0 key done.length =
      addUsize bits (done.length + 4) (readLe w) >>= fun vend =>
        getRange (done ++ (w ++ tail)) (done.length + 4) vend >>= fun value =>
          pure (.put seqno key (some value), vend) := by
  rw [changeOfKind, if_pos rfl, u32At_mid done w tail hw hroom, pure_bind]

end Parse

/-! ### Every input of changes -/

/-- The lengths fit their fields. -/
def Change.Sized : Change → Prop
  | put seqno key value =>
    seqno < 2 ^ 64 ∧ key.length < 2 ^ 32 ∧ ∀ v, value = some v → v.length < 2 ^ 32
  | delete seqno key => seqno < 2 ^ 64 ∧ key.length < 2 ^ 32

/-- How a change is framed. -/
def Change.frame : Change → Bytes
  | put seqno key (some value) =>
    putU64 seqno ++ byte 0 :: (putU32 key.length ++ (key ++ (putU32 value.length ++ value)))
  | put seqno key none => putU64 seqno ++ byte 2 :: (putU32 key.length ++ key)
  | delete seqno key => putU64 seqno ++ byte 1 :: (putU32 key.length ++ key)

/-- Behind some complete changes, with so many announced, a length of a key or of
a value that leads past the last position. -/
inductive ChangesOverreach (bits : ℕ) : ℕ → ℕ → Bytes → Prop
  | key {n off klen : ℕ} {seq tail : Bytes} {kind : Byte} :
      seq.length = 8 → klen < 2 ^ 32 → 2 ^ bits ≤ off + 13 + klen →
      ChangesOverreach bits (n + 1) off (seq ++ kind :: (putU32 klen ++ tail))
  | value {n off vlen : ℕ} {seq key tail : Bytes} :
      seq.length = 8 → key.length < 2 ^ 32 → vlen < 2 ^ 32 →
        2 ^ bits ≤ off + 13 + key.length + 4 + vlen →
      ChangesOverreach bits (n + 1) off
        (seq ++ byte 0 :: (putU32 key.length ++ (key ++ (putU32 vlen ++ tail))))
  | later {n off : ℕ} {c : Change} {tail : Bytes} :
      c.Sized → ChangesOverreach bits n (off + c.frame.length) tail →
      ChangesOverreach bits (n + 1) off (c.frame ++ tail)

section Parse

variable {bits : ℕ}

theorem Change.length_frame (c : Change) : 13 ≤ c.frame.length := by
  cases c with
  | put seqno key value =>
    cases value with
    | none =>
      simp only [frame, List.length_append, List.length_cons, length_putU32, putU64, length_putLe]
      omega
    | some value =>
      simp only [frame, List.length_append, List.length_cons, length_putU32, putU64, length_putLe]
      omega
  | delete seqno key =>
    simp only [frame, List.length_append, List.length_cons, length_putU32, putU64, length_putLe]
    omega

/-- A framed change is read. -/
theorem changeAt_frame {c : Change} (h : c.Sized) (done tail : Bytes)
    (hroom : (done ++ (c.frame ++ tail)).length < 2 ^ bits) :
    changeAt bits (done ++ (c.frame ++ tail)) done.length =
      pure (c, done.length + c.frame.length) := by
  have hu64 : ∀ seqno, (putU64 seqno).length = 8 := fun seqno => length_putLe 8 seqno
  have hread : ∀ {seqno}, seqno < 2 ^ 64 → readLe (putU64 seqno) = seqno :=
    fun hs => readLe_putLe (by omega)
  cases c with
  | put seqno key value =>
    obtain ⟨hs, hkey, hvalue⟩ := h
    cases value with
    | none =>
      have hsplit : done ++ ((Change.put seqno key none).frame ++ tail) =
          done ++ (putU64 seqno ++ byte 2 :: (putU32 key.length ++ (key ++ tail))) := by
            simp [Change.frame]
      have hlen : done.length + (Change.put seqno key none).frame.length = done.length + 13 +
          key.length := by
        simp only [Change.frame, List.length_append, List.length_cons, length_putU32, hu64]
        omega
      rw [hsplit] at hroom ⊢
      rw [changeAt_key done (putU64 seqno) (byte 2) key tail (hu64 seqno) hkey hroom,
        hread hs, hlen]
      rfl
    | some value =>
      have hv := hvalue value rfl
      have hsplit : done ++ ((Change.put seqno key (some value)).frame ++ tail) =
          done ++ (putU64 seqno ++ byte 0 ::
            (putU32 key.length ++ (key ++ (putU32 value.length ++ (value ++ tail))))) := by
        simp [Change.frame]
      have hlen : done.length + (Change.put seqno key (some value)).frame.length =
          done.length + 13 + key.length + 4 + value.length := by
        simp only [Change.frame, List.length_append, List.length_cons, length_putU32, hu64]
        omega
      rw [hsplit] at hroom ⊢
      rw [changeAt_key done (putU64 seqno) (byte 0) key _ (hu64 seqno) hkey hroom, hread hs, hlen]
      -- the bytes up to the end of the key, then up to the value
      have hkeyEnd : done ++ (putU64 seqno ++ byte 0 ::
          (putU32 key.length ++ (key ++ (putU32 value.length ++ (value ++ tail))))) =
          (done ++ (putU64 seqno ++ byte 0 :: (putU32 key.length ++ key))) ++
            (putU32 value.length ++ (value ++ tail)) := by
        simp
      have hoff : (done ++ (putU64 seqno ++ byte 0 :: (putU32 key.length ++ key))).length =
          done.length + 13 + key.length := by
        simp only [List.length_append, List.length_cons, length_putU32, hu64]
        omega
      have hvalStart : (done ++ (putU64 seqno ++ byte 0 :: (putU32 key.length ++ key))) ++
          (putU32 value.length ++ (value ++ tail)) = (done ++ (putU64 seqno ++ byte 0 ::
            (putU32 key.length ++ (key ++ putU32 value.length)))) ++ (value ++ tail) := by
        simp
      have hoff' : (done ++
          (putU64 seqno ++ byte 0 :: (putU32 key.length ++ (key ++ putU32 value.length)))).length =
          done.length + 13 + key.length + 4 := by
        simp only [List.length_append, List.length_cons, length_putU32, hu64]
        omega
      have hroom' : done.length + 13 + key.length + 4 + value.length < 2 ^ bits := by
        simp only [List.length_append, List.length_cons, length_putU32, hu64] at hroom
        omega
      have hput := changeOfKind_put (done ++ (putU64 seqno ++ byte 0 :: (putU32 key.length ++ key)))
        (putU32 value.length) (value ++ tail) (length_putU32 _) seqno key (hkeyEnd ▸ hroom)
      have hmid := getRange_mid
        (done ++ (putU64 seqno ++ byte 0 :: (putU32 key.length ++ (key ++ putU32 value.length))))
        value tail
      rw [← hvalStart, hoff'] at hmid
      have hvread : readLe (putU32 value.length) = value.length := readLe_putLe (by omega)
      rw [hoff, hvread, addUsize_of_lt hroom', pure_bind, hmid, pure_bind] at hput
      rw [hkeyEnd]
      exact hput
  | delete seqno key =>
    obtain ⟨hs, hkey⟩ := h
    have hsplit : done ++ ((Change.delete seqno key).frame ++ tail) =
        done ++ (putU64 seqno ++ byte 1 :: (putU32 key.length ++ (key ++ tail))) := by
          simp [Change.frame]
    have hlen : done.length + (Change.delete seqno key).frame.length = done.length + 13 +
        key.length := by
      simp only [Change.frame, List.length_append, List.length_cons, length_putU32, hu64]
      omega
    rw [hsplit] at hroom ⊢
    rw [changeAt_key done (putU64 seqno) (byte 1) key tail (hu64 seqno) hkey hroom, hread hs, hlen]
    rfl

/-- An overreaching length makes the loop overflow, when it is reached. -/
theorem changesFrom_overreach {n off : ℕ} {rest : Bytes} (h : ChangesOverreach bits n off rest)
    (done : Bytes)
    (hoff : done.length = off) (hroom : (done ++ rest).length < 2 ^ bits) (out : List Change) :
    changesFrom bits (done ++ rest) n off out = OptionT.mk (.error addOverflow) := by
  have hread : ∀ {v : ℕ}, v < 2 ^ 32 → readLe (putU32 v) = v := fun hv => readLe_putLe (by omega)
  induction h generalizing done out with
  | key hseq hklen hover =>
    subst hoff
    rw [changesFrom, changeAt_header done _ _ _ _ hseq (length_putU32 _) hroom, hread hklen,
      addUsize_of_le hover, trap_bind, trap_bind]
  | @value n off vlen seq key tail hseq hkey hvlen hover =>
    subst hoff
    -- the bytes up to the end of the key
    have hsplit : done ++ (seq ++ byte 0 :: (putU32 key.length ++ (key ++ (putU32 vlen ++ tail)))) =
        (done ++ (seq ++ byte 0 :: (putU32 key.length ++ key))) ++ (putU32 vlen ++ tail) := by simp
    have hend : (done ++ (seq ++ byte 0 :: (putU32 key.length ++ key))).length = done.length + 13 +
        key.length := by
      simp only [List.length_append, List.length_cons, length_putU32, hseq]
      omega
    have hput := changeOfKind_put (done ++ (seq ++ byte 0 :: (putU32 key.length ++ key)))
      (putU32 vlen) tail (length_putU32 _) (readLe seq) key (hsplit ▸ hroom)
    rw [hend, hread hvlen, addUsize_of_le hover, trap_bind, ← hsplit] at hput
    have hkind : (byte 0).val = 0 := rfl
    rw [changesFrom, changeAt_key done seq (byte 0) key _ hseq hkey hroom, hkind, hput, trap_bind]
  | @later n off c tail hsized _ ih =>
    subst hoff
    have hnext := ih (done ++ c.frame) List.length_append (by rwa [List.append_assoc]) (out ++ [c])
    rw [List.append_assoc] at hnext
    rw [changesFrom, changeAt_frame hsized done tail hroom, pure_bind]
    exact hnext

theorem exists_putU32 {bs : Bytes} (h : bs.length = 4) : ∃ v < 2 ^ 32, bs = putU32 v := by
  have hlt := readLe_lt bs
  have hput := putLe_readLe bs
  rw [h] at hlt hput
  exact ⟨readLe bs, by omega, hput.symm⟩

/-- What is at a position: nothing whole, a framed change, or a length that
overreaches. -/
theorem changeAt_cases {done rest : Bytes} (hroom : (done ++ rest).length + 17 < 2 ^ bits) :
    changeAt bits (done ++ rest) done.length = OptionT.mk (.ok none) ∨
      (∃ c tail, Change.Sized c ∧ rest = c.frame ++ tail) ∨
        ∀ n, ChangesOverreach bits (n + 1) done.length rest := by
  have hlen : (done ++ rest).length = done.length + rest.length := List.length_append
  by_cases hheader : rest.length < 13
  · exact Or.inl (changeAt_short (by omega) (by omega) (by omega))
  -- a whole header
  obtain ⟨seq, kind, kl, tail, hseq, hkl, rfl⟩ : ∃ seq kind kl tail, seq.length = 8 ∧
      kl.length = 4 ∧ rest = seq ++ kind :: (kl ++ tail) := by
    obtain ⟨kind, more, hmore⟩ :=
      List.exists_cons_of_length_pos (l := rest.drop 8) (by rw [List.length_drop]; omega)
    have hlenMore := congrArg List.length hmore
    rw [List.length_drop, List.length_cons] at hlenMore
    refine ⟨rest.take 8, kind, more.take 4, more.drop 4, ?_, ?_, ?_⟩
    · rw [List.length_take]
      omega
    · rw [List.length_take]
      omega
    · rw [List.take_append_drop, ← hmore, List.take_append_drop]
  obtain ⟨klen, hklen, rfl⟩ := exists_putU32 hkl
  have hread : ∀ {v : ℕ}, v < 2 ^ 32 → readLe (putU32 v) = v := fun hv => readLe_putLe (by omega)
  by_cases hover : 2 ^ bits ≤ done.length + 13 + klen
  · exact Or.inr (Or.inr fun n => .key hseq hklen hover)
  by_cases hkey : tail.length < klen
  · left
    have hshort : (done ++ (seq ++ kind :: (putU32 klen ++ tail))).length < done.length +
        13 + klen := by
      simp only [List.length_append, List.length_cons, length_putU32, hseq]
      omega
    rw [changeAt_header done seq kind _ tail hseq hkl (by omega), hread hklen,
      addUsize_of_lt (not_le.mp hover), pure_bind, getRange_of_lt hshort, none_bind]
  -- a whole key
  obtain ⟨key, tail, rfl, rfl⟩ : ∃ key tail', key.length = klen ∧ tail = key ++ tail' :=
    ⟨tail.take klen,
      tail.drop klen, by rw [List.length_take]; omega, (List.take_append_drop _ _).symm⟩
  have hat := @changeAt_key bits done seq kind key tail hseq hklen (by omega)
  have hseqno : readLe seq < 2 ^ 64 := (readLe_lt seq).trans_eq (by rw [hseq]; rfl)
  have hputSeq : putU64 (readLe seq) = seq := by rw [putU64, ← hseq, putLe_readLe]
  by_cases hzero : kind = byte 0
  · subst hzero
    have hsplit : done ++ (seq ++ byte 0 :: (putU32 key.length ++ (key ++ tail))) =
        (done ++ (seq ++ byte 0 :: (putU32 key.length ++ key))) ++ tail := by simp
    have hend : (done ++ (seq ++ byte 0 :: (putU32 key.length ++ key))).length = done.length + 13 +
        key.length := by
      simp only [List.length_append, List.length_cons, length_putU32, hseq]
      omega
    have hwhole : (done ++ (seq ++ byte 0 :: (putU32 key.length ++ (key ++ tail)))).length =
        done.length + 13 + key.length + tail.length := by
      rw [hsplit, List.length_append, hend]
    by_cases hfour : tail.length < 4
    · left
      rw [hat, changeOfKind, if_pos (show (byte 0).val = 0 from rfl), u32At_short (by omega)
        (by omega) (by omega), none_bind]
    obtain ⟨vl, tail, hvl, rfl⟩ : ∃ vl tail', vl.length = 4 ∧ tail = vl ++ tail' :=
      ⟨tail.take 4, tail.drop 4, by rw [List.length_take]; omega, (List.take_append_drop _ _).symm⟩
    obtain ⟨vlen, hvlen, rfl⟩ := exists_putU32 hvl
    by_cases hvover : 2 ^ bits ≤ done.length + 13 + key.length + 4 + vlen
    · exact Or.inr (Or.inr fun n => .value hseq hklen hvlen hvover)
    have hmore : (putU32 vlen ++ tail).length = 4 + tail.length := by rw [List.length_append, hvl]
    rw [hmore] at hwhole
    by_cases hvalue : tail.length < vlen
    · left
      have hput := @changeOfKind_put bits (done ++ (seq ++ byte 0 :: (putU32 key.length ++ key)))
        (putU32 vlen) tail hvl (readLe seq) key (by rw [← hsplit]; omega)
      rw [hend, hread hvlen, addUsize_of_lt (not_le.mp hvover), pure_bind, ← hsplit,
        getRange_of_lt (by omega), none_bind] at hput
      rw [hat]
      exact hput
    · -- a whole value
      refine Or.inr (Or.inl ⟨.put (readLe seq) key (some (tail.take vlen)), tail.drop vlen, ?_, ?_⟩)
      · refine ⟨hseqno, hklen, fun v hv => ?_⟩
        rw [← Option.some.inj hv, List.length_take]
        omega
      · have htake : (tail.take vlen).length = vlen := by
          rw [List.length_take]
          omega
        simp only [Change.frame, hputSeq, htake, List.append_assoc, List.cons_append,
          List.take_append_drop]
  by_cases htwo : kind = byte 2
  · subst htwo
    refine Or.inr (Or.inl
      ⟨.put (readLe seq) key none, tail, ⟨hseqno, hklen, fun v hv => by cases hv⟩, ?_⟩)
    simp only [Change.frame, hputSeq, List.append_assoc, List.cons_append]
  by_cases hone : kind = byte 1
  · subst hone
    refine Or.inr (Or.inl ⟨.delete (readLe seq) key, tail, ⟨hseqno, hklen⟩, ?_⟩)
    simp only [Change.frame, hputSeq, List.append_assoc, List.cons_append]
  · -- no kind at all
    left
    have hval : ∀ {k : ℕ}, k < 256 → kind ≠ byte k → kind.val ≠ k := fun hk hne heq =>
      hne (Fin.ext (heq.trans ((val_byte _).trans (Nat.mod_eq_of_lt hk)).symm))
    rw [hat, changeOfKind, if_neg (hval (by omega) hzero), if_neg (hval (by omega) htwo),
      if_neg (hval (by omega) hone)]
    rfl

/-- The loop returns, or what is left overreaches. -/
theorem changesFrom_returns {n : ℕ} {done rest : Bytes}
    (hroom : (done ++ rest).length + 17 < 2 ^ bits)
    (out : List Change) : (∃ r, (changesFrom bits (done ++ rest) n done.length out).run = .ok r) ∨
      ChangesOverreach bits n done.length rest := by
  induction n generalizing done rest out with
  | zero =>
    left
    rw [changesFrom]
    by_cases hend : done.length = (done ++ rest).length
    · rw [if_pos hend]
      exact ⟨_, rfl⟩
    · rw [if_neg hend]
      exact ⟨_, rfl⟩
  | succ n ih =>
    rcases changeAt_cases hroom with hnone | ⟨c, tail, hsized, rfl⟩ | hover
    · left
      rw [changesFrom, hnone, none_bind]
      exact ⟨_, rfl⟩
    · rw [changesFrom, changeAt_frame hsized done tail (by omega), pure_bind]
      have hnext := @ih (done ++ c.frame) tail (by rwa [List.append_assoc]) (out ++ [c])
      rw [List.append_assoc, List.length_append] at hnext
      exact hnext.imp_right fun h => .later hsized h
    · exact Or.inr (hover n)

/-- The input announces changes, and one of them overreaches. -/
def CountedOverreach (bits : ℕ) (input : Bytes) : Prop :=
  ∃ count rest, count < 2 ^ 32 ∧ input = putU32 count ++ rest ∧ ChangesOverreach bits count 4 rest

/-- **Changes** make the parser overflow exactly when a length overreaches. -/
theorem parseChanges_overflow_iff {input : Bytes} (hroom : input.length + 17 < 2 ^ bits) :
    (∃ r, (parseChanges bits input).run = .ok r) ↔ ¬ CountedOverreach bits input := by
  have hshort : ∀ count : ℕ, (putU32 count).length = 4 := length_putU32
  by_cases hfour : input.length < 4
  · -- not even a count
    have hnone : parseChanges bits input = OptionT.mk (.ok none) := by
      unfold parseChanges
      rw [u32At_short (Nat.zero_le _) (by omega) (by omega), none_bind]
    refine iff_of_true ⟨none, congrArg OptionT.run hnone⟩ ?_
    rintro ⟨count, rest, -, rfl, -⟩
    rw [List.length_append, hshort] at hfour
    omega
  obtain ⟨count, hcount, hput⟩ := @exists_putU32 (input.take 4) (by rw [List.length_take]; omega)
  obtain ⟨rest, rfl⟩ : ∃ rest, input = putU32 count ++ rest :=
    ⟨input.drop 4, by rw [← hput, List.take_append_drop]⟩
  have hu32 : u32At bits (putU32 count ++ rest) 0 = pure (count, 4) := by
    have hmid := @u32At_mid bits [] (putU32 count) rest (hshort count)
      (by rw [List.nil_append]; omega)
    rwa [putU32, readLe_putLe (by omega : count < 256 ^ 4)] at hmid
  have hparse : parseChanges bits (putU32 count ++ rest) = changesFrom bits
      (putU32 count ++ rest) count 4 [] := by
    unfold parseChanges
    rw [hu32, pure_bind]
  rw [hparse]
  constructor
  · rintro ⟨r, hr⟩ ⟨count', rest', hcount', heq, hover⟩
    obtain ⟨hput, rfl⟩ := List.append_inj heq ((hshort count).trans (hshort count').symm)
    have hcount'' : count = count' := by
      have hread := congrArg readLe hput
      rwa [putU32, putU32, readLe_putLe (by omega), readLe_putLe (by omega)] at hread
    subst hcount''
    have herr := changesFrom_overreach hover (putU32 count) (hshort count) (by omega) []
    rw [herr] at hr
    exact absurd hr (by simp [OptionT.run, OptionT.mk])
  · intro hnot
    have hreturns := @changesFrom_returns bits count (putU32 count) rest hroom []
    rw [hshort] at hreturns
    exact hreturns.resolve_right fun hover => hnot ⟨count, rest, hcount, rfl, hover⟩

/-- Framed changes are parsed. -/
theorem changesFrom_frames (changes : List Change) (hsized : ∀ c ∈ changes, c.Sized) (done : Bytes)
    (hroom : (done ++ changes.flatMap Change.frame).length < 2 ^ bits) (out : List Change) :
    changesFrom bits (done ++ changes.flatMap Change.frame) changes.length done.length out =
      pure (out ++ changes) := by
  induction changes generalizing done out with
  | nil =>
    rw [List.length_nil, changesFrom, List.append_nil, if_pos (by simp)]
  | cons c changes ih =>
    have hnext := ih (fun c' hc' => hsized c' (List.mem_cons_of_mem c hc')) (done ++ c.frame)
      (by rwa [List.append_assoc, ← List.flatMap_cons]) (out ++ [c])
    rw [List.append_assoc, List.append_assoc, List.length_append, ← List.flatMap_cons] at hnext
    rw [List.flatMap_cons] at hroom hnext ⊢
    rw [List.length_cons, changesFrom, changeAt_frame (hsized c List.mem_cons_self) done _ hroom,
      pure_bind]
    exact hnext

theorem parseChanges_frames (changes : List Change) (hsized : ∀ c ∈ changes, c.Sized)
    (hcount : changes.length < 2 ^ 32)
    (hroom : (putU32 changes.length ++ changes.flatMap Change.frame).length < 2 ^ bits) :
    parseChanges bits (putU32 changes.length ++ changes.flatMap Change.frame) = pure changes := by
  have hfour : (putU32 changes.length).length = 4 := length_putU32 _
  have hu32 : u32At bits (putU32 changes.length ++ changes.flatMap Change.frame) 0 =
      pure (changes.length, 4) := by
    have hmid := @u32At_mid bits [] (putU32 changes.length)
      (changes.flatMap Change.frame) hfour hroom
    rwa [putU32, readLe_putLe (by omega : changes.length < 256 ^ 4)] at hmid
  have hfrom := changesFrom_frames changes hsized (putU32 changes.length) hroom []
  rw [hfour] at hfrom
  unfold parseChanges
  rw [hu32, pure_bind]
  exact hfrom

end Parse

/-! ### The round trip -/

/-- The user's part of a queue key. -/
def userKeyOf (d : TriggerDef) (k : Bytes) : Bytes := k.drop (queuePrefix d.name).length

/-- The change a queue entry stands for. -/
def changeOfEvent (d : TriggerDef) (k v : Bytes) : Except Error Change :=
  if (userKeyOf d k).length ≠ 8 then .error (.corruption "change event key is not a seqno")
  else
    (decodeChangeRecord v).map fun r =>
      let seqno := readLe (userKeyOf d k).reverse
      if r.1 = CHANGE_PUT then .put seqno r.2.1 (some r.2.2)
      else if r.1 = CHANGE_DELETE then .delete seqno r.2.1
      else .put seqno r.2.1 none

/-- The change an op commits at `seq`, with values up to `inlineCap` inline. -/
def changeOfOp (op : BatchOp) (seq inlineCap : ℕ) : Change :=
  match op with
  | .put key value => .put seq key (if value.length ≤ inlineCap then some value else none)
  | .delete key => .delete seq key

/-- A captured event stands for the change of its op. -/
theorem changeOfEvent_capture {d : TriggerDef} {op : BatchOp}
    (hkey : op.key.length < 2 ^ 64) {seq : ℕ} (hseq : seq < 2 ^ 64) (inlineCap : ℕ) :
    changeOfEvent d (sysTriggerChangeKey d.name seq) (encodeChangeRecord op inlineCap) =
      .ok (changeOfOp op seq inlineCap) := by
  have huser : userKeyOf d (sysTriggerChangeKey d.name seq) = putBe 8 seq :=
    drop_queuePrefix d.name (putBe 8 seq)
  have hread : readLe (putBe 8 seq).reverse = seq := by
    rw [putBe, List.reverse_reverse, readLe_putLe (by omega)]
  rw [changeOfEvent, huser, length_putBe, if_neg (by simp), decodeChangeRecord_encode hkey, hread]
  cases op with
  | put key value =>
    by_cases hinline : value.length ≤ inlineCap
    · simp [changeOf, changeOfOp, hinline, Except.map, BatchOp.key]
    · simp [changeOf, changeOfOp, hinline, Except.map, BatchOp.key, CHANGE_PUT, CHANGE_DELETE,
        CHANGE_PUT_ELIDED]
  | delete key => simp [changeOf, changeOfOp, Except.map, BatchOp.key, CHANGE_PUT, CHANGE_DELETE]

/-- A record has one of the three kinds. -/
theorem decodeChangeRecord_kind {v : Bytes} {r : ℕ × Bytes × Bytes}
    (h : decodeChangeRecord v = .ok r) :
    r.1 ≤ CHANGE_PUT_ELIDED := by
  unfold decodeChangeRecord at h
  split at h
  · exact absurd h (by simp)
  split at h
  · exact absurd h (by simp)
  split at h
  · exact absurd h (by simp)
  split at h
  · exact absurd h (by simp)
  rename_i hkind
  rcases huv : uvarintFrom 0 _ with err | lr
  · rw [huv] at h
    exact absurd h (by simp [Except.bind])
  rw [huv] at h
  change (if _ then _ else if _ then _ else _) = _ at h
  split at h
  · exact absurd h (by simp)
  split at h
  · exact absurd h (by simp)
  · rw [← Except.ok.inj h]
    exact not_lt.mp hkind

/-- An entry is framed as the change it stands for. -/
theorem frameChange_eq (d : TriggerDef) (k v : Bytes) :
    frameChange d k v = (changeOfEvent d k v).map Change.frame := by
  unfold frameChange changeOfEvent userKeyOf
  by_cases hlen : (k.drop (queuePrefix d.name).length).length ≠ 8
  · rw [if_pos hlen, if_pos hlen]
    rfl
  rw [if_neg hlen, if_neg hlen]
  cases hr : decodeChangeRecord v with
  | error err => rfl
  | ok r =>
    obtain ⟨kind, key, value⟩ := r
    have hkind : kind ≤ 2 := decodeChangeRecord_kind hr
    have hcases : kind = 0 ∨ kind = 1 ∨ kind = 2 := by omega
    rcases hcases with rfl | rfl | rfl <;>
      simp [Except.map, Change.frame, CHANGE_PUT, CHANGE_DELETE]

theorem changeOfEvent_sized {d : TriggerDef} {k v : Bytes} {c : Change}
    (h : changeOfEvent d k v = .ok c) (hframe : c.frame.length < 2 ^ 32) : c.Sized := by
  have hu64 : ∀ seqno, (putU64 seqno).length = 8 := fun seqno => length_putLe 8 seqno
  unfold changeOfEvent at h
  by_cases hlen : (userKeyOf d k).length ≠ 8
  · rw [if_pos hlen] at h
    exact absurd h (by simp)
  rw [if_neg hlen] at h
  have hseq : readLe (userKeyOf d k).reverse < 2 ^ 64 := by
    have hlt := readLe_lt (userKeyOf d k).reverse
    rw [List.length_reverse, not_not.mp hlen] at hlt
    omega
  cases hr : decodeChangeRecord v with
  | error err =>
    rw [hr] at h
    exact absurd h (by simp [Except.map])
  | ok r =>
    rw [hr] at h
    replace h := Except.ok.inj h
    dsimp only at h
    split at h
    · subst h
      simp only [Change.frame, List.length_append, List.length_cons, length_putU32, hu64] at hframe
      refine ⟨hseq, by omega, fun v hv => ?_⟩
      rw [← Option.some.inj hv]
      omega
    split at h
    · subst h
      simp only [Change.frame, List.length_append, List.length_cons, length_putU32, hu64] at hframe
      exact ⟨hseq, by omega⟩
    · subst h
      simp only [Change.frame, List.length_append, List.length_cons, length_putU32, hu64] at hframe
      exact ⟨hseq, by omega, fun v hv => by cases hv⟩

/-- What keys mode consumes, its user keys are parsed. -/
theorem packTouchedKeys_parse {opts : Options} {d : TriggerDef} {queue : List (Bytes × Bytes)}
    {input : Bytes}
    {consume : List Bytes} (h : packTouchedKeys opts d queue = .ok (input, consume)) :
    ∃ n ≤ queue.length, consume = (queue.take n).map Prod.fst ∧ n ≤ opts.triggerBatch ∧
      input.length ≤ opts.maxWasmInput ∧
      ∀ {bits : ℕ}, input.length < 2 ^ bits → input.length < 2 ^ 64 →
        parseTriggerKeys bits input = .ok (some (consume.map (userKeyOf d))) := by
  obtain ⟨n, hn, hconsume, hbatch, hsize, frames, hframes, hinput⟩ := packEvents_spec h
  rw [List.nil_append] at hconsume hinput
  have hpacked : input = (consume.map (userKeyOf d)).flatMap putLenPrefixed := by
    have hmap : frames = (queue.take n).map fun e => putLenPrefixed (userKeyOf d e.1) := by
      rw [← List.forall₂_eq_eq_eq, List.forall₂_map_right_iff]
      exact hframes.flip.imp fun f e hf => (Except.ok.inj hf).symm
    rw [hinput, hmap, hconsume, List.map_map, List.flatMap, List.map_map]
    rfl
  refine ⟨n, hn, hconsume, ?_, ?_, fun hroom hlong => ?_⟩
  · have hle := hbatch (Nat.zero_le _)
    rw [hconsume, List.length_map, List.length_take] at hle
    omega
  · rcases Nat.eq_zero_or_pos n with rfl | hpos
    · -- nothing is packed
      rw [hpacked, hconsume]
      exact Nat.zero_le _
    · exact hsize hpos
  · rw [hpacked] at hroom hlong ⊢
    exact parseTriggerKeys_frames _ hroom hlong

theorem exists_changes {d : TriggerDef} {entries : List (Bytes × Bytes)} {frames : List Bytes}
    (h : List.Forall₂ (fun e f => frameChange d e.1 e.2 = .ok f) entries frames) :
    ∃ changes, List.Forall₂ (fun e c => changeOfEvent d e.1 e.2 = .ok c) entries changes ∧
      frames = changes.map Change.frame := by
  induction h with
  | nil => exact ⟨[], .nil, rfl⟩
  | @cons e f es fs hf _ ih =>
    obtain ⟨changes, hchanges, rfl⟩ := ih
    rw [frameChange_eq] at hf
    cases hc : changeOfEvent d e.1 e.2 with
    | error err =>
      rw [hc] at hf
      exact absurd hf (by simp [Except.map])
    | ok c =>
      rw [hc] at hf
      exact ⟨c :: changes, .cons hc hchanges, congrArg (· :: _) (Except.ok.inj hf).symm⟩

/-- What changes mode consumes, its changes are parsed. -/
theorem packChanges_parse {opts : Options} {d : TriggerDef} {queue : List (Bytes × Bytes)}
    {input : Bytes} {consume : List Bytes} (h : packChanges opts d queue = .ok (input, consume)) :
    ∃ n ≤ queue.length, consume = (queue.take n).map Prod.fst ∧ n ≤ opts.triggerBatch ∧
      (0 < n → input.length ≤ opts.maxWasmInput) ∧
      ∃ changes, List.Forall₂ (fun e c => changeOfEvent d e.1 e.2 = .ok c) (queue.take n) changes ∧
        ∀ {bits : ℕ}, input.length < 2 ^ bits → input.length < 2 ^ 32 →
          (parseChanges bits input).run = .ok (some changes) := by
  unfold packChanges at h
  cases hpack : packEvents opts (frameChange d) (putU32 0) [] queue with
  | error err =>
    rw [hpack] at h
    exact absurd h (by simp [Except.map])
  | ok r =>
    obtain ⟨packed, consumed⟩ := r
    rw [hpack] at h
    obtain ⟨rfl, rfl⟩ := Prod.mk.inj (Except.ok.inj h)
    obtain ⟨n, hn, hconsume, hbatch, hsize, frames, hframes, hinput⟩ := packEvents_spec hpack
    rw [List.nil_append] at hconsume
    -- every entry is framed as its change
    obtain ⟨changes, hchanges, hframed⟩ := exists_changes hframes
    have hdrop : packed.drop 4 = changes.flatMap Change.frame := by
      rw [hinput, hframed, ← length_putU32 0, List.drop_left]
      rfl
    have hlen : consumed.length = changes.length := by
      rw [hconsume, List.length_map, hchanges.length_eq]
    have hwhole : packed.length = (putU32 consumed.length ++ packed.drop 4).length := by
      rw [hdrop, hinput, hframed, List.length_append, List.length_append, length_putU32,
        length_putU32]
      rfl
    refine ⟨n, hn, hconsume, ?_, fun hpos => hwhole ▸ hsize hpos, changes, hchanges,
      fun hroom hfits => ?_⟩
    · have hle := hbatch (Nat.zero_le _)
      rw [hconsume, List.length_map, List.length_take] at hle
      omega
    · rw [hdrop, hlen] at hroom hfits ⊢
      rw [List.length_append] at hfits
      -- a change is no longer than the input it is in
      have hframe : ∀ c ∈ changes, c.frame.length ≤ (changes.flatMap Change.frame).length := by
        intro c hc
        rw [List.length_flatMap]
        exact List.single_le_sum (fun _ _ => Nat.zero_le _) _ (List.mem_map_of_mem hc)
      have hsized : ∀ c ∈ changes, c.Sized := by
        intro c hc
        obtain ⟨i, hi, rfl⟩ := List.getElem_of_mem hc
        have hevent := hchanges.get (i := i) (hchanges.length_eq ▸ hi) hi
        have hle := hframe _ hc
        exact changeOfEvent_sized hevent (by omega)
      have hcount : changes.length ≤ (changes.flatMap Change.frame).length := by
        rw [List.length_flatMap]
        refine (List.length_le_sum_of_one_le _ fun m hm => ?_).trans_eq' (List.length_map _)
        obtain ⟨c, -, rfl⟩ := List.mem_map.mp hm
        have h13 := c.length_frame
        omega
      rw [parseChanges_frames changes hsized (by omega) hroom]
      rfl

/-! ### The statement -/

/-- **The input of a drain.**  What is packed is a prefix of the queue within the
batch and the size, a parser gets back what was consumed, and on a buffer of its
address space it returns unless a length overreaches. -/
theorem trigger_input_iff (bits : ℕ) (hbits : 32 ≤ bits) (opts : Options) (d : TriggerDef)
    (queue : List (Bytes × Bytes)) :
    (∀ input consume, packTouchedKeys opts d queue = .ok (input, consume) →
      ∃ n ≤ queue.length, consume = (queue.take n).map Prod.fst ∧ n ≤ opts.triggerBatch ∧
        input.length ≤ opts.maxWasmInput ∧
        (input.length < 2 ^ 32 → parseTriggerKeys bits input =
          .ok (some (consume.map (userKeyOf d))))) ∧
    (∀ input consume, packChanges opts d queue = .ok (input, consume) →
      ∃ n ≤ queue.length, consume = (queue.take n).map Prod.fst ∧ n ≤ opts.triggerBatch ∧
        (0 < n → input.length ≤ opts.maxWasmInput) ∧
        ∃ changes, List.Forall₂ (fun e c => changeOfEvent d e.1 e.2 = .ok c)
          (queue.take n) changes ∧
          (input.length < 2 ^ 32 → (parseChanges bits input).run = .ok (some changes))) ∧
    (∀ op seq inlineCap, op.key.length < 2 ^ 64 → seq < 2 ^ 64 →
      changeOfEvent d (sysTriggerChangeKey d.name seq) (encodeChangeRecord op inlineCap) =
        .ok (changeOfOp op seq inlineCap)) ∧
    ∀ input : Bytes, input.length < 2 ^ (bits - 1) →
      ((∃ r, parseTriggerKeys bits input = .ok r) ↔ ¬ KeysOverreach bits 0 input) ∧
      ((∃ r, (parseChanges bits input).run = .ok r) ↔ ¬ CountedOverreach bits input) := by
  have hpow : 2 ^ 32 ≤ 2 ^ bits := Nat.pow_le_pow_right (by decide) hbits
  refine ⟨fun input consume h => ?_,
    fun input consume h => ?_, fun op seq inlineCap hkey hseq => ?_, fun input hinput => ?_⟩
  · obtain ⟨n, hn, hconsume, hbatch, hsize, hparse⟩ := packTouchedKeys_parse h
    exact ⟨n, hn, hconsume, hbatch, hsize, fun hfits => hparse (by omega) (by omega)⟩
  · obtain ⟨n, hn, hconsume, hbatch, hsize, changes, hchanges, hparse⟩ := packChanges_parse h
    exact ⟨n, hn, hconsume, hbatch, hsize, changes, hchanges, fun hfits => hparse (by omega) hfits⟩
  · exact changeOfEvent_capture hkey hseq inlineCap
  · -- half of the positions are beyond every buffer
    have hdouble : 2 ^ bits = 2 ^ (bits - 1) + 2 ^ (bits - 1) := by
      conv_lhs => rw [show bits = bits - 1 + 1 by omega, Nat.pow_succ]
      omega
    have hhalf : 2 ^ 31 ≤ 2 ^ (bits - 1) := Nat.pow_le_pow_right (by decide) (by omega)
    exact ⟨parseTriggerKeys_overflow_iff (by omega), parseChanges_overflow_iff (by omega)⟩

/-- A guest of 32 bits and a queue of two touched keys. -/
theorem trigger_input_iff_two : parseTriggerKeys 32 [1, 7, 0] = .ok (some [[7], []]) := by
  have hpack : packTouchedKeys (Options.default plainFormat) touchTrigger
      [(sysTriggerEventKey touchTrigger.name [7], []),
        (sysTriggerEventKey touchTrigger.name [], [])] =
        .ok ([1, 7, 0], [sysTriggerEventKey touchTrigger.name [7],
          sysTriggerEventKey touchTrigger.name []]) := by decide +kernel
  obtain ⟨n, -, -, -, -, hparse⟩ :=
    (trigger_input_iff 32 (by decide) (Options.default plainFormat) touchTrigger
    [(sysTriggerEventKey touchTrigger.name [7], []),
      (sysTriggerEventKey touchTrigger.name [], [])]).1 _ _ hpack
  exact hparse (by decide)

/-- Five bytes announce a key of 2³² − 1 bytes: the sum with its position
overflows where the parser should report malformed input. -/
theorem parse_trigger_keys_overflows :
    ¬ ∀ input : Bytes, input.length < 2 ^ (32 - 1) → ∃ r, parseTriggerKeys 32 input = .ok r := by
  intro h
  obtain ⟨r, hr⟩ := h [255, 255, 255, 255, 15] (by decide)
  have htrap : parseTriggerKeys 32 [255, 255, 255, 255, 15] = .error addOverflow := by
    decide +kernel
  exact absurd (hr.symm.trans htrap) (by simp)

end Fluent31
