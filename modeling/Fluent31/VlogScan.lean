/-
Value-log records as bytes: append, dereference and scan (`vlog.rs`).

A record is `[crc32c u32][klen varint][vlen varint][key][value]`, the checksum
over everything behind it.  The scan recomputes the extent of each record from
its varints, whatever they say.  The checksum is a parameter.

* `parseRecords_take` — a file cut anywhere scans as the records wholly before
  the cut;
* `parseRecord_ne_panic`, `parseRecords_ne_panic` — no bytes make a parser
  index out of range, overflow or loop.
-/
import Fluent31.Reader
import Fluent31.Vlog
import Fluent31.WalFile
import Fluent31.Lib.Blocks
import Fluent31.Lib.System

namespace Fluent31

open Decoder

section

variable (crc : Bytes → Fin (2 ^ 32))

/-- What the checksum covers. -/
def recordBody (key value : Bytes) : Bytes :=
  putUvarint key.length ++ (putUvarint value.length ++ (key ++ value))

def encodeRecord (key value : Bytes) : Bytes :=
  putU32 (crc (recordBody key value)).val ++ recordBody key value

/-- The checksum and the two lengths. -/
def recordHeader : Decoder Reader Halt (ℕ × ℕ × ℕ) := do
  let sum ← Reader.u32
  let klen ← Reader.uvarint
  let vlen ← Reader.uvarint
  pure (sum, klen, vlen)

def isEmpty : Decoder Reader Halt Bool := do
  let r ← get
  pure (r.remaining == 0)

/-- What is behind the checksum, to the end of the buffer. -/
def recordFields : Decoder Reader Halt (Bytes × Bytes) := do
  let klen ← Reader.uvarint
  let vlen ← Reader.uvarint
  let key ← Reader.bytes klen
  let value ← Reader.bytes vlen
  let done ← isEmpty
  if done then pure (key, value) else throw (.error (.corruption "vlog record trailing bytes"))

/-- Parse a full record; the checksum is verified first. -/
def parseRecord (bytes : Bytes) : Except Halt (Bytes × Bytes) :=
  Reader.decodeAll (do
    let sum ← Reader.u32
    let body ← slice bytes 4 bytes.length
    if (crc body).val ≠ sum then throw (.error (.corruption "vlog record crc mismatch"))
    else recordFields) bytes

/-- The value, if the record is `expectKey`'s. -/
def valueFor (bytes expectKey : Bytes) : Except Halt Bytes :=
  (parseRecord crc bytes).bind fun r =>
    if r.1 ≠ expectKey then
      .error (.error (.corruption "vlog record key mismatch (dangling pointer)"))
    else .ok r.2

/-- `checked_add` on machine words. -/
def checkedAdd (a b : ℕ) : Option ℕ := if a + b < 2 ^ 64 then some (a + b) else none

/-- A sum of machine words, which panics when it overflows. -/
def wordAdd (a b : ℕ) : Except Halt ℕ := if a + b < 2 ^ 64 then .ok (a + b) else .error .panic

/-- The header of the record at the front, and how long it is. -/
def scanHeader (rest : Bytes) : Except Halt ((ℕ × ℕ × ℕ) × ℕ) :=
  Reader.decodeAll (do
    let h ← recordHeader
    let r ← get
    pure (h, rest.length - r.remaining)) rest

/-- One turn of the scan: extent, key and value length of the record at the
front, if there is one. -/
def scanRecord (rest : Bytes) : Except Halt (Option (ℕ × Bytes × ℕ)) :=
  match scanHeader rest with
  | .error .panic => .error .panic
  | .error (.error _) => .ok none
  | .ok ((sum, klen, vlen), header) =>
    match ((checkedAdd header klen).bind fun t => checkedAdd t vlen).filter
        fun t => decide (t ≤ rest.length) && decide (t ≤ 2 ^ 32 - 1) with
    | none => .ok none
    | some total => do
      let body ← slice rest 4 total
      if (crc body).val ≠ sum then .ok none
      else
        let stop ← wordAdd header klen
        let key ← slice rest header stop
        .ok (some (total, key, vlen % 2 ^ 32))

structure ScannedRecord where
  offset : ℕ
  len : ℕ
  key : Bytes
  vlen : ℕ
  deriving DecidableEq

/-- The scan's loop from `pos` on, with `turns` turns left. -/
def scanFrom (buf : Bytes) : ℕ → ℕ → Except Halt (List ScannedRecord × ℕ)
  | 0, _ => .error .panic
  | turns + 1, pos =>
    if pos < buf.length then do
      let rest ← slice buf pos buf.length
      match ← scanRecord crc rest with
      | none => .ok ([], pos)
      | some (total, key, vlen) =>
        let next ← wordAdd pos total
        let out ← scanFrom buf turns next
        .ok (⟨pos, total, key, vlen⟩ :: out.1, out.2)
    else .ok ([], pos)

/-- `parse_records`; every turn takes a byte at least. -/
def parseRecords (buf : Bytes) : Except Halt (List ScannedRecord × ℕ) :=
  scanFrom crc buf (buf.length + 1) 0

/-- `sample_records`: the scan of at most `maxBytes` off the front of the file. -/
def sampleRecords (file : Bytes) (maxBytes : ℕ) : Except Halt (List ScannedRecord × ℕ) :=
  parseRecords crc (file.take (min file.length maxBytes))

/-- `scan_records`. -/
def scanRecords (file : Bytes) : Except Halt (List ScannedRecord × ℕ) := parseRecords crc file

end

variable {crc : Bytes → Fin (2 ^ 32)} {key value bytes rest more : Bytes}

theorem length_encodeRecord (crc : Bytes → Fin (2 ^ 32)) (key value : Bytes) :
    (encodeRecord crc key value).length = Vlog.recordLen key value := by
  unfold encodeRecord recordBody Vlog.recordLen putU32
  simp only [List.length_append, length_putLe]
  omega

/-! ### Dereferencing -/

theorem inverts_recordFields {r : Reader} (hkey : key.length < 2 ^ 64)
    (hvalue : value.length < 2 ^ 64)
    (hr : r.rest = recordBody key value) : ∃ r', recordFields.run r = .ok ((key, value), r') := by
  obtain ⟨r₁, hrun₁, hr₁⟩ := Reader.inverts_uvarint hkey hr
  obtain ⟨r₂, hrun₂, hr₂⟩ := Reader.inverts_uvarint hvalue hr₁
  obtain ⟨r₃, hrun₃, hr₃⟩ := Reader.inverts_bytes key.length rfl hr₂
  obtain ⟨r₄, hrun₄, hr₄⟩ :=
    Reader.inverts_bytes value.length rfl (hr₃.trans (List.append_nil value).symm)
  have hdone : isEmpty.run r₄ = .ok (true, r₄) := by
    have hnone : r₄.remaining = 0 := by rw [← Reader.length_rest, hr₄, List.length_nil]
    show Except.ok (r₄.remaining == 0, r₄) = _
    rw [hnone]
    rfl
  refine ⟨r₄, ?_⟩
  unfold recordFields
  rw [run_bind_eq_ok]
  refine ⟨_, _, hrun₁, run_bind_eq_ok.mpr ⟨_, _, hrun₂, run_bind_eq_ok.mpr ⟨_, _, hrun₃, ?_⟩⟩⟩
  exact run_bind_eq_ok.mpr ⟨_, _, hrun₄, run_bind_eq_ok.mpr ⟨_, _, hdone, rfl⟩⟩

theorem parseRecord_encode (h : Vlog.recordLen key value < 2 ^ 64) :
    parseRecord crc (encodeRecord crc key value) = .ok (key, value) := by
  have hlen := length_encodeRecord crc key value
  have hfour : (putU32 (crc (recordBody key value)).val).length = 4 := length_putLe 4 _
  have hslice : slice (encodeRecord crc key value) 4 (encodeRecord crc key value).length =
      .ok (recordBody key value) := by
    rw [slice_eq (by rw [hlen]; unfold Vlog.recordLen; omega) le_rfl, List.take_of_length_le
      (by rw [List.length_drop]), encodeRecord, List.drop_left' hfour]
  have hfits : key.length < 2 ^ 64 ∧ value.length < 2 ^ 64 := by
    unfold Vlog.recordLen at h
    omega
  obtain ⟨r₁, hrun₁, hr₁⟩ := Reader.inverts_u32 (crc (recordBody key value)).isLt
    (s := ⟨encodeRecord crc key value, 0, Nat.zero_le _, by rwa [hlen]⟩) rfl
  obtain ⟨r₂, hrun₂⟩ := inverts_recordFields hfits.1 hfits.2 hr₁
  unfold parseRecord Reader.decodeAll
  rw [dif_pos (by rwa [hlen]), run_bind, hrun₁, hslice]
  show (StateT.run (if (crc (recordBody key value)).val ≠ (crc (recordBody key value)).val then
    _ else recordFields) r₁).map Prod.fst = _
  rw [if_neg (not_not.mpr rfl), hrun₂]
  rfl

theorem avoids_recordFields : Avoids recordFields .panic := by
  refine Reader.avoids_uvarint.bind fun klen => Reader.avoids_uvarint.bind fun vlen =>
    (Reader.avoids_bytes klen).bind fun key => (Reader.avoids_bytes vlen).bind fun value =>
    Avoids.bind (fun r h => nomatch h) fun done => ?_
  split
  · exact Avoids.pure _ _
  · exact Avoids.throw (by simp)

theorem parseRecord_ne_panic (h : bytes.length < 2 ^ 64) :
    parseRecord crc bytes ≠ .error .panic := by
  unfold parseRecord Reader.decodeAll
  rw [dif_pos h, run_bind]
  cases hrun : Reader.u32.run ⟨bytes, 0, Nat.zero_le _, h⟩ with
  | error e =>
    intro heq
    obtain rfl : e = .panic := Except.error.inj heq
    exact Reader.avoids_u32 _ hrun
  | ok out =>
    -- a checksum was read, so the buffer reaches behind it
    have hlen : 4 ≤ bytes.length := by
      have htakes := Reader.takes_number 4 hrun
      have hstart : (Reader.rest ⟨bytes, 0, Nat.zero_le _, h⟩).length = bytes.length := rfl
      omega
    rw [slice_eq hlen le_rfl]
    show (StateT.run (if (crc _).val ≠ out.1 then _ else recordFields) out.2).map Prod.fst ≠ _
    intro heq
    split at heq
    · exact nomatch heq
    · cases hfields : recordFields.run out.2 with
      | error e =>
        rw [hfields] at heq
        obtain rfl : e = .panic := Except.error.inj heq
        exact avoids_recordFields _ hfields
      | ok f =>
        rw [hfields] at heq
        exact nomatch heq

/-! ### Scanning -/

theorem scanHeader_encode (h : (encodeRecord crc key value ++ more).length < 2 ^ 64) :
    scanHeader (encodeRecord crc key value ++ more) =
      .ok (((crc (recordBody key value)).val, key.length, value.length),
        Vlog.recordLen key value - key.length - value.length) := by
  have hlen := length_encodeRecord crc key value
  have hfits : key.length < 2 ^ 64 ∧ value.length < 2 ^ 64 := by
    rw [List.length_append, hlen] at h
    unfold Vlog.recordLen at h
    omega
  obtain ⟨r₁, hrun₁, hr₁⟩ := Reader.inverts_u32 (crc (recordBody key value)).isLt
    (s := ⟨encodeRecord crc key value ++ more, 0, Nat.zero_le _, h⟩)
    (List.append_assoc _ _ _)
  rw [recordBody, List.append_assoc] at hr₁
  obtain ⟨r₂, hrun₂, hr₂⟩ := Reader.inverts_uvarint hfits.1 hr₁
  rw [List.append_assoc] at hr₂
  obtain ⟨r₃, hrun₃, hr₃⟩ := Reader.inverts_uvarint hfits.2 hr₂
  have hheader : (encodeRecord crc key value ++ more).length - r₃.remaining =
      Vlog.recordLen key value - key.length - value.length := by
    rw [← Reader.length_rest, hr₃, List.length_append, List.length_append, List.length_append, hlen]
    omega
  have hrun : recordHeader.run ⟨encodeRecord crc key value ++ more, 0, Nat.zero_le _, h⟩ =
      .ok (((crc (recordBody key value)).val, key.length, value.length), r₃) :=
    run_bind_eq_ok.mpr
      ⟨_, _, hrun₁, run_bind_eq_ok.mpr ⟨_, _, hrun₂, run_bind_eq_ok.mpr ⟨_, _, hrun₃, rfl⟩⟩⟩
  unfold scanHeader Reader.decodeAll
  rw [dif_pos h, run_bind, hrun, ← hheader]
  rfl

theorem takes_recordHeader : Takes Reader.rest 4 recordHeader :=
  (Reader.takes_number 4).bind fun _ =>
    (Takes.bind (m := 0) (n := 0) (Reader.takes_uvarint.mono (Nat.zero_le _))
    fun _ => Takes.bind (m := 0) (n := 0) (Reader.takes_uvarint.mono (Nat.zero_le _)) fun _ =>
      Takes.pure _)

theorem local_recordHeader : Local Reader.rest recordHeader :=
  (Reader.local_number 4).bind fun _ => Reader.local_uvarint.bind fun _ =>
    Reader.local_uvarint.bind fun _ => Local.pure _

theorem avoids_recordHeader : Avoids recordHeader .panic :=
  Reader.avoids_u32.bind fun _ => Reader.avoids_uvarint.bind fun _ =>
    Reader.avoids_uvarint.bind fun _ =>
    Avoids.pure _ _

theorem scanHeader_eq_ok {h : ℕ × ℕ × ℕ} {header : ℕ} : scanHeader rest = .ok (h, header) ↔
    ∃ (hw : rest.length < 2 ^ 64) (r : Reader), recordHeader.run ⟨rest, 0, Nat.zero_le _, hw⟩ =
      .ok (h, r) ∧ header = rest.length - r.remaining := by
  unfold scanHeader Reader.decodeAll
  split
  · rename_i hw
    rw [run_bind]
    cases hrun : recordHeader.run ⟨rest, 0, Nat.zero_le _, hw⟩ with
    | error e => exact ⟨fun heq => (nomatch heq), fun ⟨_, _, hrun', _⟩ =>
      (nomatch hrun.symm.trans hrun')⟩
    | ok out =>
      constructor
      · intro heq
        obtain ⟨rfl, rfl⟩ := Prod.mk.inj (Except.ok.inj heq)
        exact ⟨hw, out.2, hrun, rfl⟩
      · rintro ⟨_, r, hrun', rfl⟩
        obtain rfl := Except.ok.inj (hrun.symm.trans hrun')
        rfl
  · exact ⟨fun heq => (nomatch heq), fun ⟨hw, _⟩ => absurd hw ‹_›⟩

/-- A header that is read lies in the buffer, behind the checksum. -/
theorem scanHeader_bounds {h : ℕ × ℕ × ℕ} {header : ℕ} (heq : scanHeader rest = .ok (h, header)) :
    rest.length < 2 ^ 64 ∧ 4 ≤ header ∧ header ≤ rest.length := by
  obtain ⟨hw, r, hrun, rfl⟩ := scanHeader_eq_ok.mp heq
  have htakes := takes_recordHeader hrun
  have hstart : (Reader.rest ⟨rest, 0, Nat.zero_le _, hw⟩).length = rest.length := rfl
  rw [Reader.length_rest] at htakes
  exact ⟨hw, by omega, Nat.sub_le _ _⟩

theorem scanHeader_ne_panic (h : rest.length < 2 ^ 64) : scanHeader rest ≠ .error .panic := by
  refine Reader.decodeAll_ne_panic (avoids_recordHeader.bind fun header => ?_) h
  exact fun r heq => nomatch heq

/-- What the checked sum of the three lengths is, if it stays in the buffer. -/
theorem total_eq_some {header klen vlen total bound : ℕ} :
    ((checkedAdd header klen).bind fun t => checkedAdd t vlen).filter
        (fun t => decide (t ≤ bound) && decide (t ≤ 2 ^ 32 - 1)) = some total ↔
      total = header + klen + vlen ∧ total < 2 ^ 64 ∧ total ≤ bound ∧ total ≤ 2 ^ 32 - 1 := by
  rw [Option.filter_eq_some_iff, Option.bind_eq_some_iff, Bool.and_eq_true, decide_eq_true_iff,
    decide_eq_true_iff]
  unfold checkedAdd
  constructor
  · rintro ⟨⟨t, ht, htotal⟩, hbound⟩
    split at ht
    · obtain rfl := Option.some_inj.mp ht
      split at htotal
      · obtain rfl := Option.some_inj.mp htotal
        exact ⟨rfl, by assumption, hbound⟩
      · exact nomatch htotal
    · exact nomatch ht
  · rintro ⟨rfl, hword, hbound⟩
    exact ⟨⟨header + klen, if_pos (by omega), if_pos hword⟩, hbound⟩

/-- A turn, once the header is read. -/
theorem scanRecord_of_header {sum klen vlen header : ℕ}
    (h : scanHeader rest = .ok ((sum, klen, vlen), header)) :
    scanRecord crc rest =
      if header + klen + vlen ≤ rest.length ∧ header + klen + vlen ≤ 2 ^ 32 - 1 then
        if (crc ((rest.drop 4).take (header + klen + vlen - 4))).val ≠ sum then .ok none
        else .ok (some (header + klen + vlen, (rest.drop header).take klen, vlen % 2 ^ 32))
      else .ok none := by
  obtain ⟨hw, hfour, hheader⟩ := scanHeader_bounds h
  unfold scanRecord
  rw [h]
  simp only
  by_cases hfits : header + klen + vlen ≤ rest.length ∧ header + klen + vlen ≤ 2 ^ 32 - 1
  · rw [total_eq_some.mpr ⟨rfl, by omega, hfits⟩, if_pos hfits]
    simp only
    rw [slice_eq (by omega) hfits.1]
    show (if _ then _ else _) = _
    split
    · rfl
    · rw [wordAdd, if_pos (by omega)]
      show Except.bind (slice rest header (header + klen)) _ = _
      rw [slice_eq (by omega) (by omega), Nat.add_sub_cancel_left]
      rfl
  · rw [if_neg hfits]
    cases htotal : ((checkedAdd header klen).bind fun t => checkedAdd t vlen).filter
        (fun t => decide (t ≤ rest.length) && decide (t ≤ 2 ^ 32 - 1)) with
    | none => rfl
    | some total =>
      obtain ⟨rfl, -, hbound⟩ := total_eq_some.mp htotal
      exact absurd hbound hfits

theorem scanRecord_encode (hfits : Vlog.recordLen key value ≤ 2 ^ 32 - 1)
    (h : (encodeRecord crc key value ++ more).length < 2 ^ 64) :
    scanRecord crc (encodeRecord crc key value ++ more) =
      .ok (some (Vlog.recordLen key value, key, value.length)) := by
  have hlen := length_encodeRecord crc key value
  have hfour : (putU32 (crc (recordBody key value)).val).length = 4 := length_putLe 4 _
  have hsum : Vlog.recordLen key value - key.length - value.length + key.length + value.length =
      Vlog.recordLen key value := by
    unfold Vlog.recordLen
    omega
  have hbody : ((encodeRecord crc key value ++ more).drop 4).take (Vlog.recordLen key value - 4) =
      recordBody key value := by
    have hbodyLen : (recordBody key value).length = Vlog.recordLen key value - 4 := by
      rw [← hlen, encodeRecord, List.length_append, hfour, Nat.add_sub_cancel_left]
    rw [encodeRecord, List.append_assoc, List.drop_left' hfour, List.take_left' hbodyLen]
  have hkey : ((encodeRecord crc key value ++ more).drop
      (Vlog.recordLen key value - key.length - value.length)).take key.length = key := by
    have hhead : (putU32 (crc (recordBody key value)).val ++
        (putUvarint key.length ++ putUvarint value.length)).length =
        Vlog.recordLen key value - key.length - value.length := by
      rw [List.length_append, List.length_append, hfour]
      unfold Vlog.recordLen
      omega
    have hsplit : encodeRecord crc key value ++ more =
        (putU32 (crc (recordBody key value)).val ++
          (putUvarint key.length ++ putUvarint value.length)) ++ (key ++ (value ++ more)) := by
      unfold encodeRecord
      nth_rewrite 2 [recordBody]
      simp only [List.append_assoc]
    rw [hsplit, List.drop_left' hhead, List.take_left]
  have hvalue : value.length ≤ Vlog.recordLen key value := by
    unfold Vlog.recordLen
    omega
  rw [scanRecord_of_header (scanHeader_encode h), hsum, hbody, hkey, List.length_append, hlen,
    if_pos ⟨Nat.le_add_right _ _, hfits⟩, if_neg (not_not.mpr rfl), Nat.mod_eq_of_lt (by omega)]

/-- A part of a record is none. -/
theorem scanRecord_cut (hinit : rest <+: encodeRecord crc key value)
    (hlt : rest.length < (encodeRecord crc key value).length)
    (h : (encodeRecord crc key value).length < 2 ^ 64) :
    scanRecord crc rest = .ok none := by
  obtain ⟨more, hmore⟩ := hinit
  have hshort : rest.length < 2 ^ 64 := hlt.trans h
  cases hheader : scanHeader rest with
  | error e =>
    cases e with
    | panic => exact absurd hheader (scanHeader_ne_panic hshort)
    | error e =>
      unfold scanRecord
      rw [hheader]
  | ok out =>
    obtain ⟨⟨sum, klen, vlen⟩, header⟩ := out
    -- the whole record reads the same lengths, so they reach beyond the cut
    obtain ⟨_, r, hrun, rfl⟩ := scanHeader_eq_ok.mp hheader
    have hfull := scanHeader_encode (by rwa [List.append_nil])
    rw [List.append_nil] at hfull
    obtain ⟨_, t, hrunt, ht⟩ := scanHeader_eq_ok.mp hfull
    obtain ⟨t', hrunt', ht'⟩ :=
      local_recordHeader hrun (t := ⟨encodeRecord crc key value, 0, Nat.zero_le _, h⟩) hmore.symm
    obtain ⟨hlens, rfl⟩ := Prod.mk.inj (Except.ok.inj (hrunt.symm.trans hrunt'))
    obtain ⟨-, hlens⟩ := Prod.mk.inj hlens
    obtain ⟨rfl, rfl⟩ := Prod.mk.inj hlens
    have hrest := congrArg List.length ht'
    have htotal := congrArg List.length hmore
    have hremaining := takes_recordHeader hrun
    have hstart : (Reader.rest ⟨rest, 0, Nat.zero_le _, hshort⟩).length = rest.length := rfl
    rw [Reader.length_rest, List.length_append, Reader.length_rest] at hrest
    rw [List.length_append, length_encodeRecord] at htotal
    rw [Reader.length_rest, hstart] at hremaining
    rw [length_encodeRecord] at ht
    rw [scanRecord_of_header hheader, if_neg]
    have hlen : key.length + value.length + 4 ≤ Vlog.recordLen key value := by
      unfold Vlog.recordLen
      omega
    have hbound : t.remaining ≤ Vlog.recordLen key value := by omega
    have hleft : key.length + value.length = t.remaining := by omega
    rw [length_encodeRecord] at hlt
    omega

/-- **A turn** ends in a record that lies in the buffer, or in none; never in a
panic. -/
theorem scanRecord_cases (h : rest.length < 2 ^ 64) :
    scanRecord crc rest = .ok none ∨ ∃ total key vlen, scanRecord crc rest =
      .ok (some (total, key, vlen)) ∧ 0 < total ∧ total ≤ rest.length := by
  cases hheader : scanHeader rest with
  | error e =>
    cases e with
    | panic => exact absurd hheader (scanHeader_ne_panic h)
    | error e =>
      left
      unfold scanRecord
      rw [hheader]
  | ok out =>
    obtain ⟨⟨sum, klen, vlen⟩, header⟩ := out
    obtain ⟨-, hfour, -⟩ := scanHeader_bounds hheader
    rw [scanRecord_of_header hheader]
    split
    · rename_i hfits
      split
      · exact Or.inl rfl
      · exact Or.inr ⟨_, _, _, rfl, by omega, hfits.1⟩
    · exact Or.inl rfl

/-! ### Files -/

/-- The records of a file, from `pos` on. -/
def scannedFrom : ℕ → List (Bytes × Bytes) → List ScannedRecord
  | _, [] => []
  | pos, r :: rs =>
    ⟨pos, Vlog.recordLen r.1 r.2, r.1, r.2.length⟩ :: scannedFrom (pos + Vlog.recordLen r.1 r.2) rs

/-- The bytes of a file of these records. -/
def recordBytes (crc : Bytes → Fin (2 ^ 32)) (rs : List (Bytes × Bytes)) : Bytes :=
  rs.flatMap fun r => encodeRecord crc r.1 r.2

/-- **The loop** ends, whatever the bytes are: every turn moves it on. -/
theorem scanFrom_ne_panic {buf : Bytes} {turns pos : ℕ} (hbuf : buf.length < 2 ^ 64)
    (hpos : pos ≤ buf.length)
    (hturns : buf.length < pos + turns) : scanFrom crc buf turns pos ≠ .error .panic := by
  induction turns generalizing pos with
  | zero => omega
  | succ turns ih =>
    unfold scanFrom
    split
    · rename_i hlt
      rw [slice_eq hpos le_rfl, List.take_of_length_le (by rw [List.length_drop])]
      have hrest : (buf.drop pos).length = buf.length - pos := List.length_drop
      show Except.bind (scanRecord crc (buf.drop pos)) _ ≠ _
      obtain hnone | ⟨total, key, vlen, hsome, htotal, hle⟩ :=
        @scanRecord_cases crc (buf.drop pos) (by omega)
      · rw [hnone]
        exact fun h => nomatch h
      · rw [hsome]
        show Except.bind (wordAdd pos total) _ ≠ _
        rw [wordAdd, if_pos (by omega)]
        show Except.bind (scanFrom crc buf turns (pos + total)) _ ≠ _
        have hnext := @ih (pos + total) (by omega) (by omega)
        intro h
        cases hscan : scanFrom crc buf turns (pos + total) with
        | error e =>
          rw [hscan] at h
          obtain rfl : e = .panic := Except.error.inj h
          exact hnext hscan
        | ok out =>
          rw [hscan] at h
          exact nomatch h
    · exact fun h => nomatch h

theorem parseRecords_ne_panic {buf : Bytes} (h : buf.length < 2 ^ 64) :
    parseRecords crc buf ≠ .error .panic :=
  scanFrom_ne_panic h (Nat.zero_le _) (by omega)

/-- The loop over whole records and something that is none. -/
theorem scanFrom_records {rs : List (Bytes × Bytes)} {pre tail : Bytes} {turns : ℕ}
    (hfits : ∀ r ∈ rs, Vlog.recordLen r.1 r.2 ≤ 2 ^ 32 - 1)
    (htail : tail = [] ∨ scanRecord crc tail = .ok none)
    (hbuf : (pre ++ (recordBytes crc rs ++ tail)).length < 2 ^ 64)
    (hturns : (pre ++ (recordBytes crc rs ++ tail)).length < pre.length + turns) :
    scanFrom crc (pre ++ (recordBytes crc rs ++ tail)) turns pre.length =
      .ok (scannedFrom pre.length rs, pre.length + (recordBytes crc rs).length) := by
  induction rs generalizing pre turns with
  | nil =>
    obtain ⟨turns, rfl⟩ := Nat.exists_eq_succ_of_ne_zero (n := turns) (by
      rintro rfl
      rw [List.length_append] at hturns
      omega)
    unfold scanFrom
    split
    · rw [slice_eq (by rw [List.length_append]; omega) le_rfl, List.take_of_length_le
        (by rw [List.length_drop]), List.drop_left]
      -- the end of the buffer, or bytes that are no record
      rcases htail with rfl | hnone
      · rename_i hlt
        rw [List.length_append] at hlt
        exact absurd hlt (by simp [recordBytes])
      · show Except.bind (scanRecord crc tail) _ = _
        rw [hnone]
        rfl
    · rfl
  | cons r rs ih =>
    obtain ⟨turns, rfl⟩ := Nat.exists_eq_succ_of_ne_zero (n := turns) (by
      rintro rfl
      rw [List.length_append] at hturns
      omega)
    have hlen := length_encodeRecord crc r.1 r.2
    have hpos := Vlog.recordLen_pos r.1 r.2
    have hsplit : recordBytes crc (r :: rs) ++ tail =
        encodeRecord crc r.1 r.2 ++ (recordBytes crc rs ++ tail) := List.append_assoc _ _ _
    rw [hsplit] at hbuf hturns ⊢
    have htotal : (pre ++ (encodeRecord crc r.1 r.2 ++ (recordBytes crc rs ++ tail))).length =
        pre.length + (Vlog.recordLen r.1 r.2 + (recordBytes crc rs ++ tail).length) := by
      rw [List.length_append, List.length_append, hlen]
    -- the first record is read, and the scan goes on behind it
    have hscan := @scanRecord_encode crc _ _ (recordBytes crc rs ++ tail)
      (hfits r List.mem_cons_self) (by rw [List.length_append, hlen]; omega)
    have hpre : (pre ++ encodeRecord crc r.1 r.2).length = pre.length + Vlog.recordLen r.1 r.2 := by
      rw [List.length_append, hlen]
    have hnext := @ih (pre ++ encodeRecord crc r.1 r.2) turns
      (fun x hx => hfits x (List.mem_cons_of_mem _ hx))
      (by rw [List.append_assoc]; exact hbuf) (by rw [List.append_assoc, hpre]; omega)
    rw [List.append_assoc, hpre] at hnext
    unfold scanFrom
    rw [if_pos (by omega), slice_eq (by omega) le_rfl, List.take_of_length_le
      (by rw [List.length_drop]), List.drop_left]
    show Except.bind (scanRecord crc _) _ = _
    rw [hscan]
    show Except.bind (wordAdd _ _) _ = _
    rw [wordAdd, if_pos (by omega)]
    show Except.bind (scanFrom crc _ turns (pre.length + Vlog.recordLen r.1 r.2)) _ = _
    rw [hnext]
    have hend : (recordBytes crc (r :: rs)).length = Vlog.recordLen r.1 r.2 +
        (recordBytes crc rs).length := by
      rw [recordBytes, List.flatMap_cons, List.length_append, hlen]
      rfl
    rw [hend, ← Nat.add_assoc]
    rfl

/-- **A file cut anywhere** scans as the records wholly before the cut. -/
theorem parseRecords_take {rs : List (Bytes × Bytes)}
    (hfits : ∀ r ∈ rs, Vlog.recordLen r.1 r.2 ≤ 2 ^ 32 - 1)
    (hsize : (recordBytes crc rs).length < 2 ^ 64) (n : ℕ) :
    parseRecords crc ((recordBytes crc rs).take n) =
      .ok (scannedFrom 0 (rs.take (wholeBlocks (fun r => encodeRecord crc r.1 r.2) rs n)),
        (recordBytes crc
          (rs.take (wholeBlocks (fun r => encodeRecord crc r.1 r.2) rs n))).length) := by
  obtain ⟨tail, htake, htail⟩ :=
    take_flatMap (fun r : Bytes × Bytes => encodeRecord crc r.1 r.2) rs n
  have hcut : (recordBytes crc rs).take n =
      recordBytes crc (rs.take (wholeBlocks (fun r => encodeRecord crc r.1 r.2) rs n)) ++
        tail := htake
  have hnone : tail = [] ∨ scanRecord crc tail = .ok none := by
    refine htail.imp id fun ⟨r, hr, hinit, hlt⟩ => scanRecord_cut hinit hlt ?_
    have hrec := hfits r hr
    rw [length_encodeRecord]
    omega
  have hshort : ((recordBytes crc rs).take n).length < 2 ^ 64 := by
    rw [List.length_take]
    omega
  have hscan := @scanFrom_records crc _ [] _ (((recordBytes crc rs).take n).length + 1)
    (fun r hr => hfits r (List.mem_of_mem_take hr)) hnone (by rwa [← hcut])
    (by rw [List.nil_append, ← hcut, List.length_nil]; omega)
  rw [List.nil_append, ← hcut, List.length_nil, Nat.zero_add] at hscan
  exact hscan

/-! ### Appending and reading -/

/-- A record the file was given: its pointer, key and value. -/
structure Handed where
  ptr : ValuePtr
  key : Bytes
  value : Bytes
  deriving DecidableEq

def Handed.entry (a : Handed) : Bytes × Bytes := (a.key, a.value)

/-- What the scan makes of it. -/
def Handed.scanned (a : Handed) : ScannedRecord := ⟨a.ptr.offset, a.ptr.len, a.key, a.value.length⟩

/-- A value-log file with the records cached of it, by offset, and what it has
been given. -/
structure VlogFile where
  bytes : Bytes
  cache : ℕ → Option Bytes
  handed : List Handed

namespace VlogFile

variable (crc) (id : ℕ)

/-- `append`; a record that a pointer cannot span is refused. -/
def append (s : VlogFile) (key value : Bytes) : Except Error ValuePtr × VlogFile :=
  let record := encodeRecord crc key value
  if 2 ^ 32 - 1 < record.length then
    (.error (.invalidArgument "vlog record exceeds 4 GiB pointer limit"), s)
  else
    let p : ValuePtr := ⟨id, s.bytes.length, record.length⟩
    (.ok p, { s with bytes := s.bytes ++ record, handed := s.handed ++ [⟨p, key, value⟩] })

/-- `read_exact_at`. -/
def readExactAt (s : VlogFile) (off len : ℕ) : Except Halt Bytes :=
  if off + len ≤ s.bytes.length then .ok ((s.bytes.drop off).take len)
  else .error (.error (.io "failed to fill whole buffer"))

/-- `read_value`, with or without the cache, which takes small records. -/
def readValue (s : VlogFile) (cached : Bool) (p : ValuePtr) (expectKey : Bytes) :
    Except Halt Bytes × VlogFile :=
  match if cached then s.cache p.offset else none with
  | some hit => (valueFor crc hit expectKey, s)
  | none =>
    match s.readExactAt p.offset p.len with
    | .error e => (.error e, s)
    | .ok buf =>
      match valueFor crc buf expectKey with
      | .error e => (.error e, s)
      | .ok value => (.ok value,
          if cached && decide (buf.length ≤ 2 ^ 16) then
            { s with cache := Function.update s.cache p.offset (some buf) }
          else s)

inductive Action
  | append (key value : Bytes)
  | read (cached : Bool) (p : ValuePtr) (expectKey : Bytes)
  /-- The cache drops what it has at an offset. -/
  | evict (off : ℕ)

/-- A file's length is a 64-bit number. -/
def step (s : VlogFile) : Action → Option VlogFile
  | .append key value =>
    if (s.append crc id key value).2.bytes.length < 2 ^ 64 then
      some (s.append crc id key value).2 else none
  | .read cached p expectKey => some (s.readValue crc cached p expectKey).2
  | .evict off => some { s with cache := Function.update s.cache off none }

end VlogFile

/-- A new file under appends, reads and evictions in any order. -/
def vlogFile (crc : Bytes → Fin (2 ^ 32)) (id : ℕ) : System VlogFile VlogFile.Action :=
  ⟨⟨[], fun _ => none, []⟩, VlogFile.step crc id⟩

/-- A buffer that parses is its header, its key and its value. -/
theorem parseRecord_extent {r : Bytes × Bytes} (h : parseRecord crc bytes = .ok r) :
    ∃ sum header, scanHeader bytes = .ok ((sum, r.1.length, r.2.length), header) ∧
      bytes.length = header + r.1.length + r.2.length := by
  unfold parseRecord Reader.decodeAll at h
  split at h
  · rename_i hw
    cases hrun : StateT.run (do
        let sum ← Reader.u32
        let body ← slice bytes 4 bytes.length
        if (crc body).val ≠ sum then throw (.error (.corruption "vlog record crc mismatch"))
        else recordFields : Decoder Reader Halt (Bytes × Bytes)) ⟨bytes, 0, Nat.zero_le _, hw⟩ with
    | error e =>
      rw [hrun] at h
      exact nomatch h
    | ok out =>
      rw [hrun] at h
      obtain rfl : out.1 = r := Except.ok.inj h
      obtain ⟨sum, r₁, hrun₁, hrun⟩ := run_bind_eq_ok.mp hrun
      obtain ⟨body, r₁', hslice, hrun⟩ := run_bind_eq_ok.mp hrun
      obtain rfl : r₁ = r₁' := by
        cases hs : slice bytes 4 bytes.length with
        | error e =>
          rw [hs] at hslice
          exact nomatch hslice
        | ok b =>
          rw [hs] at hslice
          exact (Prod.mk.inj (Except.ok.inj hslice)).2
      split at hrun
      · exact nomatch hrun
      · -- the fields are read one by one: the header, the key, the value
        obtain ⟨klen, r₂, hrun₂, hrun⟩ := run_bind_eq_ok.mp hrun
        obtain ⟨vlen, r₃, hrun₃, hrun⟩ := run_bind_eq_ok.mp hrun
        obtain ⟨key, r₄, hrun₄, hrun⟩ := run_bind_eq_ok.mp hrun
        obtain ⟨value, r₅, hrun₅, hrun⟩ := run_bind_eq_ok.mp hrun
        obtain ⟨done, r₆, hdone, hrun⟩ := run_bind_eq_ok.mp hrun
        obtain ⟨rfl, rfl⟩ := Prod.mk.inj (Except.ok.inj hdone)
        split at hrun
        · rename_i hempty
          have hpair : (key, value) = out.1 := (Prod.mk.inj (Except.ok.inj hrun)).1
          obtain ⟨hkey, hr₄⟩ := Reader.run_bytes_eq_ok hrun₄
          obtain ⟨hvalue, hr₅⟩ := Reader.run_bytes_eq_ok hrun₅
          have hzero : r₅.remaining = 0 := beq_iff_eq.mp hempty
          have htakes := takes_recordHeader (run_bind_eq_ok.mpr
            ⟨_, _, hrun₁, run_bind_eq_ok.mpr ⟨_, _, hrun₂, run_bind_eq_ok.mpr ⟨_, _, hrun₃, rfl⟩⟩⟩)
          have hstart : (Reader.rest ⟨bytes, 0, Nat.zero_le _, hw⟩).length = bytes.length := rfl
          rw [← hpair, hkey, hvalue]
          refine ⟨sum, bytes.length - r₃.remaining, scanHeader_eq_ok.mpr ⟨hw, r₃, run_bind_eq_ok.mpr
            ⟨_, _, hrun₁, run_bind_eq_ok.mpr ⟨_, _, hrun₂, run_bind_eq_ok.mpr ⟨_, _, hrun₃, rfl⟩⟩⟩,
              rfl⟩, ?_⟩
          rw [Reader.length_rest] at htakes
          omega
        · exact nomatch hrun
  · exact nomatch h

/-- Whatever the lengths in it, a whole record is all that parses at its place. -/
theorem eq_encodeRecord_of_parse {hit : Bytes} {r : Bytes × Bytes}
    (hparse : parseRecord crc hit = .ok r) (hinit : hit <+: encodeRecord crc key value ++ more)
    (h : (encodeRecord crc key value ++ more).length < 2 ^ 64) :
    hit = encodeRecord crc key value := by
  obtain ⟨sum, header, hheader, hextent⟩ := parseRecord_extent hparse
  obtain ⟨_, r₁, hrun, rfl⟩ := scanHeader_eq_ok.mp hheader
  obtain ⟨rest, hrest⟩ := hinit
  obtain ⟨_, t, hrunt, ht⟩ := scanHeader_eq_ok.mp (scanHeader_encode h)
  -- more bytes behind it do not change the header
  obtain ⟨t', hrunt', ht'⟩ := local_recordHeader hrun
    (t := ⟨encodeRecord crc key value ++ more, 0, Nat.zero_le _, h⟩) hrest.symm
  obtain ⟨hlens, rfl⟩ := Prod.mk.inj (Except.ok.inj (hrunt.symm.trans hrunt'))
  obtain ⟨-, hlens⟩ := Prod.mk.inj hlens
  obtain ⟨hkey, hvalue⟩ := Prod.mk.inj hlens
  have hlen := length_encodeRecord crc key value
  have hsame : hit.length = (encodeRecord crc key value).length := by
    have hleft := congrArg List.length ht'
    have htotal := congrArg List.length hrest
    have htakes := takes_recordHeader hrunt
    have hstart : (Reader.rest ⟨encodeRecord crc key value ++ more, 0, Nat.zero_le _, h⟩).length =
        (encodeRecord crc key value ++ more).length := rfl
    rw [Reader.length_rest, List.length_append, Reader.length_rest] at hleft
    rw [Reader.length_rest, hstart] at htakes
    rw [List.length_append, List.length_append] at htotal
    rw [List.length_append] at htakes ht
    have hbound : key.length + value.length ≤ Vlog.recordLen key value := by
      unfold Vlog.recordLen
      omega
    omega
  have hpre : hit <+: encodeRecord crc key value ++ more := ⟨rest, hrest⟩
  exact (List.prefix_of_prefix_length_le hpre (List.prefix_append _ _) hsame.le).eq_of_length hsame

theorem valueFor_encode (h : Vlog.recordLen key value < 2 ^ 64) (expectKey : Bytes) :
    valueFor crc (encodeRecord crc key value) expectKey =
      if key ≠ expectKey then
        .error (.error (.corruption "vlog record key mismatch (dangling pointer)"))
      else .ok value := by
  unfold valueFor
  rw [parseRecord_encode h]
  rfl

theorem valueFor_ne_panic (h : bytes.length < 2 ^ 64) (expectKey : Bytes) :
    valueFor crc bytes expectKey ≠ .error .panic := by
  intro heq
  unfold valueFor at heq
  cases hparse : parseRecord crc bytes with
  | error e =>
    rw [hparse] at heq
    obtain rfl : e = .panic := Except.error.inj heq
    exact parseRecord_ne_panic h hparse
  | ok r =>
    rw [hparse] at heq
    have heq : (if r.1 ≠ expectKey then _ else _ : Except Halt Bytes) = _ := heq
    split at heq
    · exact nomatch heq
    · exact nomatch heq

/-- No bytes are the record of two keys. -/
theorem valueFor_other {expectKey : Bytes} (hvalue : valueFor crc bytes key = .ok value)
    (hne : expectKey ≠ key) :
    ∃ e, valueFor crc bytes expectKey = .error (.error e) := by
  obtain ⟨r, hparse, hr⟩ := bind_eq_ok.mp hvalue
  split at hr
  · exact nomatch hr
  · rename_i hkey
    refine ⟨.corruption "vlog record key mismatch (dangling pointer)", ?_⟩
    unfold valueFor
    rw [hparse]
    exact if_pos fun h => hne (h.symm.trans (not_not.mp hkey))

namespace VlogFile

variable {s s' : VlogFile} {id : ℕ}

/-- The file holds the records it was given where their pointers say, and the
cache holds records of the file. -/
structure Sound (crc : Bytes → Fin (2 ^ 32)) (s : VlogFile) : Prop where
  bytes : s.bytes = recordBytes crc (s.handed.map Handed.entry)
  size : s.bytes.length < 2 ^ 64
  fits : ∀ a ∈ s.handed, Vlog.recordLen a.key a.value ≤ 2 ^ 32 - 1
  scanned : s.handed.map Handed.scanned = scannedFrom 0 (s.handed.map Handed.entry)
  placed : ∀ a ∈ s.handed, a.ptr.len = Vlog.recordLen a.key a.value ∧
    ∃ more, s.bytes.drop a.ptr.offset = encodeRecord crc a.key a.value ++ more
  cache : ∀ off hit, s.cache off = some hit → hit <+: s.bytes.drop off ∧
    ∃ r, parseRecord crc hit = .ok r

/-- The byte at which the first `k` records end. -/
def recordEnd (crc : Bytes → Fin (2 ^ 32)) (s : VlogFile) (k : ℕ) : ℕ :=
  (recordBytes crc ((s.handed.take k).map Handed.entry)).length

/-- The bytes a read looks at. -/
def record (s : VlogFile) (cached : Bool) (p : ValuePtr) : Except Halt Bytes :=
  match if cached then s.cache p.offset else none with
  | some hit => .ok hit
  | none => s.readExactAt p.offset p.len

theorem readValue_fst (s : VlogFile) (cached : Bool) (p : ValuePtr) (expectKey : Bytes) :
    (s.readValue crc cached p expectKey).1 = (s.record cached p).bind fun buf =>
      valueFor crc buf expectKey := by
  unfold readValue record
  split
  · rfl
  · cases s.readExactAt p.offset p.len with
    | error e => rfl
    | ok buf =>
      show Prod.fst (match valueFor crc buf expectKey with
        | .error e => _
        | .ok value => _) = valueFor crc buf expectKey
      cases valueFor crc buf expectKey with
      | error e => rfl
      | ok value => rfl

/-- A read changes at most the cache, by a record it has read. -/
theorem readValue_snd (s : VlogFile) (cached : Bool) (p : ValuePtr) (expectKey : Bytes) :
    (s.readValue crc cached p expectKey).2 = s ∨
      ∃ buf value, s.readExactAt p.offset p.len = .ok buf ∧ valueFor crc buf expectKey = .ok value ∧
        (s.readValue crc cached p expectKey).2 =
          { s with cache := Function.update s.cache p.offset (some buf) } := by
  unfold readValue
  split
  · exact Or.inl rfl
  · split
    · exact Or.inl rfl
    · rename_i buf hbuf
      split
      · exact Or.inl rfl
      · rename_i value hvalue
        simp only
        split
        · exact Or.inr ⟨buf, value, hbuf, hvalue, rfl⟩
        · exact Or.inl rfl

/-- **Dereferencing** a pointer the file handed out looks at its record. -/
theorem Sound.record_handed (h : s.Sound crc) {a : Handed} (ha : a ∈ s.handed) (cached : Bool) :
    s.record cached a.ptr = .ok (encodeRecord crc a.key a.value) := by
  obtain ⟨hlen, more, hdrop⟩ := h.placed a ha
  have hsize := h.size
  have hdropLen : (s.bytes.drop a.ptr.offset).length < 2 ^ 64 := by
    rw [List.length_drop]
    omega
  have henc := length_encodeRecord crc a.key a.value
  have hread : s.readExactAt a.ptr.offset a.ptr.len = .ok (encodeRecord crc a.key a.value) := by
    have htotal := congrArg List.length hdrop
    have hpos := Vlog.recordLen_pos a.key a.value
    rw [List.length_drop, List.length_append, henc] at htotal
    unfold readExactAt
    rw [if_pos (by omega), hdrop, List.take_left' (by rw [henc, hlen])]
  unfold record
  split
  · rename_i hit hhit
    cases cached with
    | false => exact nomatch hhit
    | true =>
      obtain ⟨hinit, r, hparse⟩ := h.cache _ _ hhit
      rw [hdrop] at hinit hdropLen
      rw [eq_encodeRecord_of_parse hparse hinit hdropLen]
  · exact hread

theorem scannedFrom_append (crc : Bytes → Fin (2 ^ 32)) (pos : ℕ) (rs : List (Bytes × Bytes))
    (r : Bytes × Bytes) :
    scannedFrom pos (rs ++ [r]) = scannedFrom pos rs ++
      [⟨pos + (recordBytes crc rs).length, Vlog.recordLen r.1 r.2, r.1, r.2.length⟩] := by
  induction rs generalizing pos with
  | nil => rfl
  | cons x rs ih =>
    have hlen : (recordBytes crc (x :: rs)).length = Vlog.recordLen x.1 x.2 +
        (recordBytes crc rs).length := by
      rw [recordBytes, List.flatMap_cons, List.length_append, length_encodeRecord]
      rfl
    rw [List.cons_append, scannedFrom, scannedFrom, ih, List.cons_append, hlen, Nat.add_assoc]

theorem Sound.append (h : s.Sound crc) {key value : Bytes}
    (hsize : (s.append crc id key value).2.bytes.length < 2 ^ 64) :
    (s.append crc id key value).2.Sound crc := by
  revert hsize
  unfold VlogFile.append
  simp only
  split
  · exact fun _ => h
  · rename_i hfits
    have hlen := length_encodeRecord crc key value
    intro hsize
    have hentries :
        (s.handed ++
          [(⟨⟨id, s.bytes.length, (encodeRecord crc key value).length⟩, key, value⟩ : Handed)]).map
        Handed.entry = s.handed.map Handed.entry ++ [(key, value)] := by rw [List.map_append]; rfl
    refine ⟨?_, hsize, ?_, ?_, ?_, fun off hit hhit => ?_⟩
    · show s.bytes ++ encodeRecord crc key value = _
      rw [hentries, recordBytes, List.flatMap_append, ← recordBytes, ← h.bytes,
        List.flatMap_singleton]
    · rintro a ha
      rcases List.mem_append.mp ha with ha | ha
      · exact h.fits a ha
      · obtain rfl := List.mem_singleton.mp ha
        show Vlog.recordLen key value ≤ _
        omega
    · show (s.handed ++ _).map Handed.scanned = scannedFrom 0 ((s.handed ++ _).map Handed.entry)
      rw [hentries, scannedFrom_append crc, ← h.bytes, List.map_append, h.scanned,
        Nat.zero_add, ← hlen]
      rfl
    · intro a ha
      rcases List.mem_append.mp ha with ha | ha
      · obtain ⟨hptr, more, hdrop⟩ := h.placed a ha
        have hpos := Vlog.recordLen_pos a.key a.value
        -- a record placed before lies in the old bytes, so the new one is behind it
        have hinside : a.ptr.offset ≤ s.bytes.length := by
          have htotal := congrArg List.length hdrop
          rw [List.length_drop, List.length_append, length_encodeRecord] at htotal
          omega
        refine ⟨hptr, more ++ encodeRecord crc key value, ?_⟩
        show (s.bytes ++ encodeRecord crc key value).drop a.ptr.offset = _
        rw [List.drop_append_of_le_length hinside, hdrop, List.append_assoc]
      · obtain rfl := List.mem_singleton.mp ha
        refine ⟨hlen, [], ?_⟩
        show (s.bytes ++ encodeRecord crc key value).drop s.bytes.length = _
        rw [List.drop_left, List.append_nil]
    · -- what the cache has is a prefix of the bytes, and stays one
      obtain ⟨hinit, hparse⟩ := h.cache off hit hhit
      refine ⟨hinit.trans ?_, hparse⟩
      show _ <+: (s.bytes ++ encodeRecord crc key value).drop off
      rw [List.drop_append]
      exact List.prefix_append _ _

theorem Sound.step {a : Action} (h : s.Sound crc) (hstep : s.step crc id a = some s') :
    s'.Sound crc := by
  cases a with
  | append key value =>
    dsimp only [VlogFile.step] at hstep
    split at hstep
    · obtain rfl := Option.some_inj.mp hstep
      exact h.append ‹_›
    · exact nomatch hstep
  | read cached p expectKey =>
    obtain rfl := Option.some_inj.mp hstep
    rcases s.readValue_snd cached p expectKey with hsame | ⟨buf, value, hbuf, hvalue, hcached⟩
    · rw [hsame]
      exact h
    · rw [hcached]
      refine ⟨h.bytes, h.size, h.fits, h.scanned, h.placed, fun off hit hhit => ?_⟩
      by_cases hoff : off = p.offset
      · subst hoff
        obtain rfl : buf = hit := by simpa using hhit
        unfold readExactAt at hbuf
        split at hbuf
        · obtain rfl := Except.ok.inj hbuf
          obtain ⟨r, hparse, -⟩ := bind_eq_ok.mp hvalue
          exact ⟨List.take_prefix _ _, r, hparse⟩
        · exact nomatch hbuf
      · exact h.cache off hit (by simpa [Function.update_of_ne hoff] using hhit)
  | evict off =>
    obtain rfl := Option.some_inj.mp hstep
    refine ⟨h.bytes, h.size, h.fits, h.scanned, h.placed, fun off' hit hhit => ?_⟩
    by_cases hoff : off' = off
    · subst hoff
      simp at hhit
    · exact h.cache off' hit (by simpa [Function.update_of_ne hoff] using hhit)

theorem scannedFrom_take (pos k : ℕ) (rs : List (Bytes × Bytes)) :
    scannedFrom pos (rs.take k) = (scannedFrom pos rs).take k := by
  induction rs generalizing pos k with
  | nil => rw [List.take_nil, scannedFrom, List.take_nil]
  | cons r rs ih =>
    cases k with
    | zero => rfl
    | succ k => rw [List.take_succ_cons, scannedFrom, scannedFrom, List.take_succ_cons, ih]

/-- A cut of the file scans as the records it leaves whole. -/
theorem Sound.parseRecords_take (h : s.Sound crc) (n : ℕ) : ∃ k ≤ s.handed.length,
    (∀ j ≤ s.handed.length, j ≤ k ↔ s.recordEnd crc j ≤ n) ∧
      parseRecords crc (s.bytes.take n) =
        .ok ((s.handed.take k).map Handed.scanned, s.recordEnd crc k) := by
  have hfits : ∀ r ∈ s.handed.map Handed.entry, Vlog.recordLen r.1 r.2 ≤ 2 ^ 32 - 1 := by
    intro r hr
    obtain ⟨a, ha, rfl⟩ := List.mem_map.mp hr
    exact h.fits a ha
  have hsize := h.size
  have hlen : (s.handed.map Handed.entry).length = s.handed.length := List.length_map _
  rw [h.bytes] at hsize ⊢
  refine ⟨wholeBlocks (fun r => encodeRecord crc r.1 r.2) (s.handed.map Handed.entry) n,
    (wholeBlocks_le _ _ _).trans_eq hlen, fun j hj => ?_, ?_⟩
  · rw [le_wholeBlocks_iff (hj.trans_eq hlen.symm), recordEnd, ← List.map_take]
    rfl
  · rw [Fluent31.parseRecords_take hfits hsize, recordEnd, scannedFrom_take, ← h.scanned,
      List.map_take, List.map_take]

theorem recordEnd_length (h : s.Sound crc) : s.recordEnd crc s.handed.length = s.bytes.length := by
  rw [recordEnd, List.take_length, ← h.bytes]

theorem sound_of_reachable (h : (vlogFile crc id).Reachable s) : s.Sound crc :=
  h.invariant ⟨rfl, Nat.two_pow_pos 64, fun _ ha => absurd ha List.not_mem_nil, rfl, fun _ ha =>
    absurd ha List.not_mem_nil, fun _ _ hhit => nomatch hhit⟩ fun hs _ hstep => hs.step hstep

end VlogFile

/-- **The scan law** of a value-log file under any appends and reads: a scan of the
file cut anywhere lists the records wholly before the cut as their pointers do,
every pointer reads back its value and nothing under another key, and no bytes
make a parser panic. -/
theorem vlog_scan {id : ℕ} {s : VlogFile} (h : (vlogFile crc id).Reachable s) :
    (∀ n ≤ s.bytes.length, ∃ k ≤ s.handed.length,
      (∀ j ≤ s.handed.length, j ≤ k ↔ s.recordEnd crc j ≤ n) ∧
      parseRecords crc (s.bytes.take n) =
        .ok ((s.handed.take k).map Handed.scanned, s.recordEnd crc k)) ∧
    (∀ maxBytes, sampleRecords crc s.bytes maxBytes = parseRecords crc (s.bytes.take maxBytes)) ∧
    scanRecords crc s.bytes = .ok (s.handed.map Handed.scanned, s.bytes.length) ∧
    (∀ a ∈ s.handed, ∀ cached, (s.readValue crc cached a.ptr a.key).1 = .ok a.value ∧
      ∀ key, key ≠ a.key → ∃ e, (s.readValue crc cached a.ptr key).1 = .error (.error e)) ∧
    (∀ cached p key value, (s.readValue crc cached p key).1 = .ok value →
      ∀ key', key' ≠ key → ∃ e, (s.readValue crc cached p key').1 = .error (.error e)) ∧
    ∀ bytes : Bytes, bytes.length < 2 ^ 64 → parseRecords crc bytes ≠ .error .panic ∧
      parseRecord crc bytes ≠ .error .panic ∧ ∀ key, valueFor crc bytes key ≠ .error .panic := by
  have hsound := VlogFile.sound_of_reachable h
  refine ⟨fun n _ => hsound.parseRecords_take n, fun maxBytes => ?_, ?_, fun a ha cached => ?_,
    fun cached p key value hvalue key' hne => ?_, fun bytes hbytes =>
    ⟨parseRecords_ne_panic hbytes, parseRecord_ne_panic hbytes, fun key =>
      valueFor_ne_panic hbytes key⟩⟩
  · unfold sampleRecords
    rw [Nat.min_comm, ← List.take_eq_take_min]
  · obtain ⟨k, hk, hcount, hscan⟩ := hsound.parseRecords_take s.bytes.length
    have hall : k = s.handed.length :=
      le_antisymm hk ((hcount _ le_rfl).mpr (VlogFile.recordEnd_length hsound).le)
    rw [List.take_length, hall, List.take_length, VlogFile.recordEnd_length hsound] at hscan
    exact hscan
  · have hfits := hsound.fits a ha
    have hword : Vlog.recordLen a.key a.value < 2 ^ 64 := by omega
    simp only [VlogFile.readValue_fst, hsound.record_handed ha cached]
    refine ⟨?_, fun key hne => ⟨.corruption "vlog record key mismatch (dangling pointer)", ?_⟩⟩
    · show valueFor crc _ a.key = _
      rw [valueFor_encode hword, if_neg (not_not.mpr rfl)]
    · show valueFor crc _ key = _
      rw [valueFor_encode hword, if_pos hne.symm]
  · rw [VlogFile.readValue_fst] at hvalue ⊢
    obtain ⟨buf, hbuf, hvalue⟩ := bind_eq_ok.mp hvalue
    obtain ⟨e, he⟩ := valueFor_other hvalue hne
    exact ⟨e, by rw [hbuf]; exact he⟩

theorem vlog_scan_two : ∃ s, (vlogFile crc32 7).Reachable s ∧
    s.handed = [⟨⟨7, 0, 9⟩, [1], [2, 3]⟩, ⟨⟨7, 9, 7⟩, [4], []⟩] ∧
    scanRecords crc32 s.bytes = .ok ([⟨0, 9, [1], 2⟩, ⟨9, 7, [4], 0⟩], s.bytes.length) := by
  have hrun : ((vlogFile crc32 7).run [.append [1] [2, 3], .append [4] [], .read true ⟨7, 9, 7⟩ [4]]
      (vlogFile crc32 7).init).any (fun s =>
        decide (s.handed = [⟨⟨7, 0, 9⟩, [1], [2, 3]⟩, ⟨⟨7, 9, 7⟩, [4], []⟩])) = true := by
          decide +kernel
  obtain ⟨s, hreach, hhanded⟩ := System.exists_reachable hrun
  have hscan := (vlog_scan hreach).2.2.1
  rw [hhanded] at hscan
  exact ⟨s, hreach, hhanded, hscan⟩

end Fluent31
