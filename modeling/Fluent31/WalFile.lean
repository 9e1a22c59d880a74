/-
WAL files as bytes (`wal.rs`, `io/std_io.rs`).

A record is framed with its length and checksum; `readWal` is the recovery
reader, which stops at the first bytes that do not form a record.  An append
that fails leaves some of the frame behind and does not move the append offset,
so the next append overwrites it.  The checksum is a parameter.

* `readWal_frames` — framed records, and what a failed append left behind them,
  read back as the records;
* `readWal_truncate` — cut to its valid prefix, a torn file is clean.
-/
import Fluent31.Batch

namespace Fluent31

section

variable (crc : Bytes → Fin (2 ^ 32))

/-- `[len u32][crc u32][payload]`. -/
def frame (payload : Bytes) : Bytes :=
  putU32 payload.length ++ (putU32 (crc payload).val ++ payload)

inductive WalTail
  /-- The file ends on a record boundary. -/
  | clean
  /-- The bytes behind the valid prefix are no record. -/
  | torn (validLen : ℕ)
  deriving DecidableEq

/-- The reader's loop; every turn takes a header, so `fuel` can be the length. -/
def readRecords : ℕ → ℕ → Bytes → List Bytes × WalTail
  | 0, pos, buf => ([], if buf = [] then .clean else .torn pos)
  | fuel + 1, pos, buf =>
    if buf = [] then ([], .clean)
    else if buf.length < 8 then ([], .torn pos)
    else
      let len := readLe (buf.take 4)
      let sum := readLe ((buf.drop 4).take 4)
      if len = 0 ∧ sum = 0 then ([], .torn pos)
      else if WAL_RECORD_LIMIT < len ∨ buf.length - 8 < len then ([], .torn pos)
      else
        let payload := (buf.drop 8).take len
        if (crc payload).val ≠ sum then ([], .torn pos)
        else
          let r := readRecords fuel (pos + 8 + len) (buf.drop (8 + len))
          (payload :: r.1, r.2)

def readWal (buf : Bytes) : List Bytes × WalTail := readRecords crc buf.length 0 buf

/-- The bytes of a WAL with these payloads. -/
def frames (payloads : List Bytes) : Bytes := payloads.flatMap (frame crc)

variable {crc}

@[simp] theorem length_putU32 (v : ℕ) : (putU32 v).length = 4 := length_putLe 4 v

@[simp] theorem length_frame (payload : Bytes) :
    (frame crc payload).length = 8 + payload.length := by
  simp only [frame, List.length_append, length_putU32]
  omega

variable (crc) in
theorem take_four_frame (payload rest : Bytes) :
    (frame crc payload ++ rest).take 4 = putU32 payload.length := by
  unfold frame
  rw [List.append_assoc, List.take_left' (length_putU32 _)]

theorem drop_four_frame (payload rest : Bytes) :
    (frame crc payload ++ rest).drop 4 = putU32 (crc payload).val ++ (payload ++ rest) := by
  unfold frame
  rw [List.append_assoc, List.drop_left' (length_putU32 _), List.append_assoc]

theorem drop_eight_frame (payload rest : Bytes) :
    (frame crc payload ++ rest).drop 8 = payload ++ rest := by
  rw [show 8 = 4 + 4 from rfl, ← List.drop_drop, drop_four_frame, List.drop_left' (length_putU32 _)]

/-- What may lie behind the last record: nothing, or a part of a frame. -/
def Remnant (crc : Bytes → Fin (2 ^ 32)) (rest : Bytes) : Prop :=
  rest = [] ∨ ∃ payload, 0 < payload.length ∧ payload.length < WAL_RECORD_LIMIT ∧
    rest <+: frame crc payload ∧ rest.length < (frame crc payload).length

/-- Bytes no record is read from. -/
def Stops (crc : Bytes → Fin (2 ^ 32)) (rest : Bytes) : Prop :=
  ∀ fuel pos, rest.length ≤ fuel → readRecords crc fuel pos rest =
    ([], if rest = [] then .clean else .torn pos)

/-- A part of a frame ends the reading. -/
theorem Remnant.stops {rest : Bytes} (h : Remnant crc rest) : Stops crc rest := by
  intro fuel pos hfuel
  cases fuel with
  | zero => rfl
  | succ fuel =>
    unfold readRecords
    by_cases hnil : rest = []
    · rw [if_pos hnil, if_pos hnil]
    · obtain ⟨payload, hpos, hlimit, hinit, hlt⟩ := h.resolve_left hnil
      rw [if_neg hnil, if_neg hnil]
      by_cases hshort : rest.length < 8
      · rw [if_pos hshort]
      · -- the header is whole: it announces more than there is
        have hlen : readLe (rest.take 4) = payload.length := by
          obtain ⟨tail, htail⟩ := hinit
          have htake : rest.take 4 = (frame crc payload).take 4 := by
            rw [← htail, List.take_append_of_le_length (by omega)]
          have hfour := take_four_frame crc payload []
          rw [List.append_nil] at hfour
          rw [htake, hfour, putU32, readLe_putLe]
          unfold WAL_RECORD_LIMIT at hlimit
          omega
        rw [length_frame] at hlt
        simp only [hlen]
        rw [if_neg hshort, if_neg (by omega), if_pos (by omega)]

theorem Stops.nil (crc : Bytes → Fin (2 ^ 32)) : Stops crc [] := Remnant.stops (Or.inl rfl)

/-- So do zero bytes: their header announces an empty record. -/
theorem stops_zeros (crc : Bytes → Fin (2 ^ 32)) (m : ℕ) :
    Stops crc (List.replicate m (byte 0)) := by
  intro fuel pos hfuel
  cases fuel with
  | zero => rfl
  | succ fuel =>
    unfold readRecords
    by_cases hnil : List.replicate m (byte 0) = []
    · rw [if_pos hnil, if_pos hnil]
    · rw [if_neg hnil, if_neg hnil]
      by_cases hshort : (List.replicate m (byte 0)).length < 8
      · rw [if_pos hshort]
      · rw [List.length_replicate] at hshort
        have hlen : (List.replicate m (byte 0)).take 4 = [byte 0, byte 0, byte 0, byte 0] := by
          rw [List.take_replicate, show min 4 m = 4 by omega]
          rfl
        have hsum : ((List.replicate m (byte 0)).drop 4).take 4 =
            [byte 0, byte 0, byte 0, byte 0] := by
          rw [List.drop_replicate, List.take_replicate, show min 4 (m - 4) = 4 by omega]
          rfl
        rw [if_neg (by rwa [List.length_replicate])]
        simp only [hlen, hsum]
        rw [if_pos ⟨rfl, rfl⟩]

/-- **Reading back**: framed records, and whatever a failed append left behind
them. -/
theorem readRecords_frames {payloads : List Bytes} {rest : Bytes}
    (h : ∀ p ∈ payloads, 0 < p.length ∧ p.length < WAL_RECORD_LIMIT)
    (hrest : Stops crc rest) {fuel : ℕ} (pos : ℕ)
    (hfuel : (frames crc payloads ++ rest).length ≤ fuel) :
    readRecords crc fuel pos (frames crc payloads ++ rest) =
      (payloads, if rest = [] then .clean else .torn (pos + (frames crc payloads).length)) := by
  induction payloads generalizing fuel pos with
  | nil => exact hrest fuel pos hfuel
  | cons p payloads ih =>
    obtain ⟨hpos, hlimit⟩ := h p List.mem_cons_self
    have hsplit : frames crc (p :: payloads) ++ rest = frame crc p ++
        (frames crc payloads ++ rest) := by
      rw [frames, List.flatMap_cons, List.append_assoc]
      rfl
    rw [hsplit] at hfuel ⊢
    rw [List.length_append, length_frame] at hfuel
    obtain ⟨fuel, rfl⟩ := Nat.exists_eq_succ_of_ne_zero (show fuel ≠ 0 by omega)
    -- the header of the first frame is the length and checksum of its payload
    have hlen : readLe ((frame crc p ++ (frames crc payloads ++ rest)).take 4) = p.length := by
      rw [take_four_frame, putU32, readLe_putLe]
      unfold WAL_RECORD_LIMIT at hlimit
      omega
    have hsum : readLe (((frame crc p ++ (frames crc payloads ++ rest)).drop 4).take 4) =
        (crc p).val := by
      rw [drop_four_frame, List.take_left' (length_putU32 _), putU32, readLe_putLe (crc p).isLt]
    have hpayload : ((frame crc p ++ (frames crc payloads ++ rest)).drop 8).take p.length = p := by
      rw [drop_eight_frame, List.take_left]
    have hdrop : (frame crc p ++ (frames crc payloads ++ rest)).drop (8 + p.length) =
        frames crc payloads ++ rest := by
      rw [← List.drop_drop, drop_eight_frame, List.drop_left]
    have hnext := ih (fun q hq => h q (List.mem_cons_of_mem _ hq)) (pos + 8 + p.length)
      (by omega : (frames crc payloads ++ rest).length ≤ fuel)
    unfold readRecords
    have htotal : (frame crc p ++ (frames crc payloads ++ rest)).length =
        8 + p.length + (frames crc payloads ++ rest).length := by
      rw [List.length_append, length_frame]
    have hcons : frame crc p ++ (frames crc payloads ++ rest) ≠ [] := by
      intro hnil
      rw [hnil, List.length_nil] at htotal
      omega
    rw [if_neg hcons, if_neg (by omega)]
    simp only [hlen, hsum, hpayload, hdrop, hnext]
    rw [if_neg (by omega), if_neg (by omega), if_neg (by simp)]
    have hlength : (frames crc (p :: payloads)).length = 8 + p.length +
        (frames crc payloads).length := by
      rw [frames, List.flatMap_cons, List.length_append, length_frame]
      rfl
    rw [hlength, show pos + 8 + p.length + (frames crc payloads).length =
      pos + (8 + p.length + (frames crc payloads).length) by omega]

theorem readWal_frames {payloads : List Bytes} {rest : Bytes}
    (h : ∀ p ∈ payloads, 0 < p.length ∧ p.length < WAL_RECORD_LIMIT) (hrest : Stops crc rest) :
    readWal crc (frames crc payloads ++ rest) =
      (payloads, if rest = [] then .clean else .torn (frames crc payloads).length) := by
  have hread := readRecords_frames h hrest 0 le_rfl
  rw [Nat.zero_add] at hread
  exact hread

/-- **Truncating**: cut to its valid prefix, a torn file reads as the records
before the damage, and ends on a boundary. -/
theorem readRecords_truncate {fuel pos n : ℕ} {buf : Bytes} {records : List Bytes}
    (hfuel : buf.length ≤ fuel) (h : readRecords crc fuel pos buf = (records, .torn n)) :
    pos ≤ n ∧ n - pos ≤ buf.length ∧ ∀ fuel' pos', n - pos ≤ fuel' →
      readRecords crc fuel' pos' (buf.take (n - pos)) = (records, .clean) := by
  -- nothing is left
  have hstop : ∀ {pos : ℕ} {buf : Bytes} {records : List Bytes},
      (([], WalTail.torn pos) : List Bytes × WalTail) = (records, .torn n) →
      pos ≤ n ∧ n - pos ≤ buf.length ∧ ∀ fuel' pos', n - pos ≤ fuel' →
        readRecords crc fuel' pos' (buf.take (n - pos)) = (records, .clean) :=
          fun {_ buf _} heq => by
    obtain ⟨rfl, htail⟩ := Prod.mk.inj heq
    obtain rfl := WalTail.torn.inj htail
    refine ⟨le_rfl, by omega, fun fuel' pos' _ => ?_⟩
    rw [Nat.sub_self, List.take_zero]
    cases fuel' <;> rfl
  induction fuel generalizing pos buf records with
  | zero =>
    obtain rfl := List.length_eq_zero_iff.mp (Nat.le_zero.mp hfuel)
    exact absurd (congrArg Prod.snd h) (by simp [readRecords])
  | succ fuel ih =>
    unfold readRecords at h
    by_cases hnil : buf = []
    · rw [if_pos hnil] at h
      exact absurd (congrArg Prod.snd h) (by simp)
    rw [if_neg hnil] at h
    by_cases hshort : buf.length < 8
    · rw [if_pos hshort] at h
      exact hstop h
    rw [if_neg hshort] at h
    simp only at h
    by_cases hzero : readLe (buf.take 4) = 0 ∧ readLe ((buf.drop 4).take 4) = 0
    · rw [if_pos hzero] at h
      exact hstop h
    rw [if_neg hzero] at h
    by_cases hlong : WAL_RECORD_LIMIT < readLe (buf.take 4) ∨ buf.length - 8 < readLe (buf.take 4)
    · rw [if_pos hlong] at h
      exact hstop h
    rw [if_neg hlong] at h
    by_cases hsum : (crc ((buf.drop 8).take (readLe (buf.take 4)))).val ≠
      readLe ((buf.drop 4).take 4)
    · rw [if_pos hsum] at h
      exact hstop h
    rw [if_neg hsum] at h
    -- a record is read, and the rest is torn
    generalize hlen : readLe (buf.take 4) = len at h hzero hlong hsum
    obtain ⟨rfl, htail⟩ := Prod.mk.inj h
    have hdrop : (buf.drop (8 + len)).length = buf.length - (8 + len) := List.length_drop
    obtain ⟨hle, hin, hrest⟩ := ih (by omega) (Prod.ext rfl htail)
    refine ⟨by omega, by omega, fun fuel' pos' hfuel' => ?_⟩
    obtain ⟨m, hm⟩ : ∃ m, n - pos = 8 + len + m := ⟨n - (pos + 8 + len), by omega⟩
    rw [hm] at hfuel' ⊢
    obtain ⟨fuel', rfl⟩ := Nat.exists_eq_succ_of_ne_zero (show fuel' ≠ 0 by omega)
    have hlength : (buf.take (8 + len + m)).length = 8 + len + m := by
      rw [List.length_take]
      omega
    have hfour : (buf.take (8 + len + m)).take 4 = buf.take 4 := by
      rw [List.take_take, Nat.min_eq_left (by omega)]
    have hcrc : ((buf.take (8 + len + m)).drop 4).take 4 = (buf.drop 4).take 4 := by
      rw [List.drop_take, List.take_take, Nat.min_eq_left (by omega)]
    have hpayload : ((buf.take (8 + len + m)).drop 8).take len = (buf.drop 8).take len := by
      rw [List.drop_take, List.take_take, Nat.min_eq_left (by omega)]
    have hremain : (buf.take (8 + len + m)).drop (8 + len) = (buf.drop (8 + len)).take m := by
      rw [List.drop_take, Nat.add_sub_cancel_left]
    have hnext := hrest fuel' (pos' + 8 + len) (by omega)
    rw [show n - (pos + 8 + len) = m by omega] at hnext
    have hcons : buf.take (8 + len + m) ≠ [] := List.ne_nil_of_length_pos (by omega)
    rw [readRecords, if_neg hcons, if_neg (by omega)]
    simp only [hfour, hcrc, hlen, hpayload, hremain, hnext]
    rw [if_neg hzero, if_neg (by omega), if_neg hsum]

theorem readWal_truncate {buf : Bytes} {records : List Bytes} {len : ℕ}
    (h : readWal crc buf = (records, .torn len)) :
    readWal crc (buf.take len) = (records, .clean) := by
  obtain ⟨-, hle, hread⟩ := readRecords_truncate le_rfl h
  rw [Nat.sub_zero] at hle hread
  refine hread _ 0 ?_
  rw [List.length_take]
  omega

end

/-- One byte of the checksum, bit by bit. -/
def crcByte (h : ℕ) (b : Byte) : ℕ :=
  Nat.iterate (fun x => if x % 2 = 1 then (x / 2) ^^^ 0xEDB88320 else x / 2) 8 (h ^^^ b.val)

/-- The checksum the engine uses (`coding.rs`), computed by a library there. -/
def crc32 (data : Bytes) : Fin (2 ^ 32) :=
  Fin.ofNat _ (data.foldl crcByte 0xFFFFFFFF ^^^ 0xFFFFFFFF)

example : crc32 ([49, 50, 51, 52, 53, 54, 55, 56, 57].map byte) = 0xCBF43926 := by decide +kernel

/-! ### Files -/

/-- Positioned write. -/
def writeAt (bytes : Bytes) (off : ℕ) (data : Bytes) : Bytes :=
  bytes.take off ++ (data ++ bytes.drop (off + data.length))

/-- A WAL file with its writer's append offset. -/
structure WalFile where
  bytes : Bytes
  off : ℕ
  deriving DecidableEq

namespace WalFile

variable (crc : Bytes → Fin (2 ^ 32)) (w : WalFile)

/-- `append_record`. -/
def append (payload : Bytes) : WalFile :=
  { w with
    bytes := writeAt w.bytes w.off (frame crc payload)
    off := w.off + (frame crc payload).length }

/-- An append that fails after `len` bytes, short of the whole frame. -/
def appendTorn (payload : Bytes) (len : ℕ) : WalFile :=
  { w with bytes := writeAt w.bytes w.off ((frame crc payload).dropLast.take len) }

variable {crc} {w}

/-- The file holds the records with nothing behind them, and the writer is at
its end. -/
def Holds (crc : Bytes → Fin (2 ^ 32)) (w : WalFile) (payloads : List Bytes) : Prop :=
  w.bytes = frames crc payloads ∧ w.off = (frames crc payloads).length

theorem Holds.append {payloads : List Bytes} (h : w.Holds crc payloads) (payload : Bytes) :
    (w.append crc payload).Holds crc (payloads ++ [payload]) := by
  obtain ⟨hbytes, hoff⟩ := h
  have hframes : frames crc (payloads ++ [payload]) = frames crc payloads ++ frame crc payload := by
    simp [frames]
  refine ⟨?_, ?_⟩
  · show writeAt w.bytes w.off (frame crc payload) = _
    rw [writeAt, hbytes, hoff, List.take_length, List.drop_eq_nil_of_le (by omega), hframes,
      List.append_nil]
  · show w.off + (frame crc payload).length = _
    rw [hoff, hframes, List.length_append]

theorem Holds.appendAll {payloads : List Bytes} (h : w.Holds crc payloads) (new : List Bytes) :
    (new.foldl (WalFile.append crc) w).Holds crc (payloads ++ new) := by
  induction new generalizing w payloads with
  | nil => rwa [List.append_nil]
  | cons p new ih =>
    rw [List.foldl_cons, show payloads ++ p :: new = payloads ++ [p] ++ new by simp]
    exact ih (h.append p)

/-- A failed append leaves a remnant behind the records. -/
theorem Holds.appendTorn {payloads : List Bytes} (h : w.Holds crc payloads) {payload : Bytes}
    (hpos : 0 < payload.length) (hlimit : payload.length < WAL_RECORD_LIMIT) (len : ℕ) :
    ∃ rest, Remnant crc rest ∧ (w.appendTorn crc payload len).bytes =
      frames crc payloads ++ rest := by
  obtain ⟨hbytes, hoff⟩ := h
  refine ⟨(frame crc payload).dropLast.take len, Or.inr ⟨payload, hpos, hlimit, ?_, ?_⟩, ?_⟩
  · exact (List.take_prefix _ _).trans (List.dropLast_prefix _)
  · rw [List.length_take, List.length_dropLast, length_frame]
    omega
  · show writeAt w.bytes w.off _ = _
    rw [writeAt, hbytes, hoff, List.take_length, List.drop_eq_nil_of_le (by omega), List.append_nil]

end WalFile

end Fluent31
