/-
The log files of the journal (`journal.rs`).

A log file is a sequence of framed records, the first of them a header that
names the store.  `readRecords` parses the bytes of a file up to the first that
are no record, `readAllRecords` all the files of a directory in order.  The
checksum is a parameter.

* `readRecords_frames` — framed records, and a part of a frame behind them,
  read back as the records;
* `take_frames` — what is left of a file that loses its end;
* `parseHeader_headerPayload` — the round trip of headers.
-/
import Fluent31.WalFile
import Fluent31.TriggerQueue
import Fluent31.Proto

namespace Fluent31

/-- The errors of the journal. -/
inductive JournalError
  | store (err : Error)
  | provenanceMismatch (msg : String)
  | journalGap (msg : String)
  deriving DecidableEq

namespace Journal

def corrupt (msg : String) : JournalError := .store (.corruption msg)

/-! ### Records -/

def MAGIC : ℕ := 0xf115e73110c70001
def FORMAT : Byte := 1

def TAG_HEADER : Byte := 0
def TAG_CHECKPOINT : Byte := 1
def TAG_BASE : Byte := 2
def TAG_BASE_END : Byte := 3
def TAG_DELTA : Byte := 4

def INSTANCE_ID_LEN : ℕ := 16

/-- The instance id a header records. -/
abbrev Source := { id : InstanceId // id.length = INSTANCE_ID_LEN }

/-- What the header of a store without an identity records. -/
def noStore : Source := ⟨List.replicate INSTANCE_ID_LEN 0, rfl⟩

def hexDigit (n : ℕ) : Char := Char.ofNat (if n < 10 then 48 + n else 87 + n)

def hex (source : Source) : String :=
  String.ofList (source.val.flatMap fun b => [hexDigit (b.val / 16), hexDigit (b.val % 16)])

def headerPayload (source : Source) : Bytes :=
  TAG_HEADER :: FORMAT :: (putU64 MAGIC ++ source.val)

/-- The rest of a header behind its format byte. -/
def parseSource (rest : Bytes) : Except JournalError Source :=
  if rest.length < 8 then .error (.store shortRead)
  else if readLe (rest.take 8) ≠ MAGIC then .error (corrupt "bad journal magic")
  else if h : (rest.drop 8).length < INSTANCE_ID_LEN then .error (.store shortRead)
  else .ok ⟨(rest.drop 8).take INSTANCE_ID_LEN, by rw [List.length_take]; omega⟩

def parseHeader : Bytes → Except JournalError Source
  | [] => .error (.store shortRead)
  | tag :: rest =>
    if tag ≠ TAG_HEADER then .error (corrupt "journal does not start with a header")
    else match rest with
      | [] => .error (.store shortRead)
      | format :: rest =>
        if format ≠ FORMAT then .error (corrupt "unsupported journal format") else parseSource rest

/-- A header parses to the store it names. -/
@[simp] theorem parseHeader_headerPayload (source : Source) :
    parseHeader (headerPayload source) = .ok source := by
  have hmagic : (putU64 MAGIC).length = 8 := length_putLe 8 MAGIC
  have htake : (putU64 MAGIC ++ source.val).take 8 = putU64 MAGIC := List.take_left' hmagic
  have hdrop : (putU64 MAGIC ++ source.val).drop 8 = source.val := List.drop_left' hmagic
  have hread : readLe (putU64 MAGIC) = MAGIC := readLe_putLe (by decide)
  have hparse : parseSource (putU64 MAGIC ++ source.val) = .ok source := by
    unfold parseSource
    rw [if_neg (by rw [List.length_append, hmagic]; omega), htake, hread, if_neg (by simp)]
    rw [dif_neg (by rw [hdrop, source.property]; omega)]
    refine congrArg Except.ok (Subtype.ext ?_)
    show ((putU64 MAGIC ++ source.val).drop 8).take INSTANCE_ID_LEN = source.val
    rw [hdrop, List.take_of_length_le (by rw [source.property])]
  simp only [parseHeader, headerPayload, ne_eq, not_true, if_false, hparse]

/-- A key and its value, as far as a commit admits them. -/
structure KeyValue where
  key : Bytes
  value : Bytes
  admitted : key.length + value.length < WAL_RECORD_LIMIT
  deriving DecidableEq

def encodeCheckpoint (seq : ℕ) : Bytes := TAG_CHECKPOINT :: putU64 seq

def encodeBase (kv : KeyValue) : Bytes :=
  TAG_BASE :: (putLenPrefixed kv.key ++ putLenPrefixed kv.value)

def encodeBaseEnd (seq : ℕ) : Bytes := TAG_BASE_END :: putU64 seq

/-- A change the stream delivers, as far as a commit admits it. -/
structure Change where
  seqno : ℕ
  kind : ValueKind
  key : Bytes
  value : Option Bytes
  admitted : key.length + (value.getD []).length < WAL_RECORD_LIMIT
  deriving DecidableEq

def encodeDelta (c : Change) : Bytes :=
  TAG_DELTA :: (putU64 c.seqno ++ byte c.kind.toNat ::
    (putLenPrefixed c.key ++ (c.value.map putLenPrefixed).getD []))

/-- A record that is no header. -/
inductive Record
  | checkpoint (seq : ℕ)
  | base (kv : KeyValue)
  | baseEnd (seq : ℕ)
  | delta (c : Change)
  deriving DecidableEq

def Record.encode : Record → Bytes
  | checkpoint seq => encodeCheckpoint seq
  | base kv => encodeBase kv
  | baseEnd seq => encodeBaseEnd seq
  | delta c => encodeDelta c

/-- A payload whose length the frame can state, and that is not taken for the
end of the file. -/
def Fits (payload : Bytes) : Prop := 0 < payload.length ∧ payload.length < 2 ^ 32

instance (payload : Bytes) : Decidable (Fits payload) := inferInstanceAs (Decidable (_ ∧ _))

theorem fits_headerPayload (source : Source) : Fits (headerPayload source) := by
  have hlen : (headerPayload source).length = 26 := by
    simp only [headerPayload, List.length_cons, List.length_append, putU64, length_putLe,
      source.property]
    rfl
  unfold Fits
  omega

theorem length_putLenPrefixed_lt {bs : Bytes} (h : bs.length < WAL_RECORD_LIMIT) :
    (putLenPrefixed bs).length ≤ 5 + bs.length := by
  have hinit : (putUvarint bs.length).length ≤ 5 :=
    length_putUvarint_le (by decide) (by unfold WAL_RECORD_LIMIT at h; omega)
  rw [putLenPrefixed, List.length_append]
  omega

theorem Record.fits_encode (r : Record) : Fits r.encode := by
  have hlimit : WAL_RECORD_LIMIT = 1073741824 := rfl
  cases r with
  | checkpoint seq =>
    simp [Fits, encode, encodeCheckpoint, putU64]
  | base kv =>
    have hadmitted := kv.admitted
    have hkey : (putLenPrefixed kv.key).length ≤ 5 + kv.key.length :=
      length_putLenPrefixed_lt (by omega)
    have hvalue : (putLenPrefixed kv.value).length ≤ 5 + kv.value.length :=
      length_putLenPrefixed_lt (by omega)
    simp only [Fits, encode, encodeBase, List.length_cons, List.length_append]
    omega
  | baseEnd seq =>
    simp [Fits, encode, encodeBaseEnd, putU64]
  | delta c =>
    have hadmitted := c.admitted
    have hkey : (putLenPrefixed c.key).length ≤ 5 + c.key.length :=
      length_putLenPrefixed_lt (by omega)
    have hvalue : ((c.value.map putLenPrefixed).getD []).length ≤ 5 + (c.value.getD []).length := by
      cases hv : c.value with
      | none => simp
      | some v =>
        rw [hv, Option.getD_some] at hadmitted
        exact length_putLenPrefixed_lt (by omega)
    simp only [Fits, encode, encodeDelta, List.length_cons, List.length_append, putU64,
      length_putLe]
    omega

theorem Record.head_encode (r : Record) : r.encode.head? ≠ some TAG_HEADER := by
  cases r <;> simp [encode, encodeCheckpoint, encodeBase, encodeBaseEnd, encodeDelta, TAG_HEADER,
    TAG_CHECKPOINT, TAG_BASE, TAG_BASE_END, TAG_DELTA]

/-! ### The bytes of a file -/

section

variable (crc : Bytes → Fin (2 ^ 32))

/-- `read_records`: the records of a file, and the length of the clean prefix
they occupy.  Every turn takes a frame, so `fuel` can be the length. -/
def readFrames : ℕ → Bytes → List Bytes × ℕ
  | 0, _ => ([], 0)
  | fuel + 1, bytes =>
    if bytes.length < 8 then ([], 0)
    else
      let len := readLe (bytes.take 4)
      let sum := readLe ((bytes.drop 4).take 4)
      if len = 0 ∨ bytes.length < 8 + len then ([], 0)
      else
        let body := (bytes.drop 8).take len
        if (crc body).val ≠ sum then ([], 0)
        else
          let r := readFrames fuel (bytes.drop (8 + len))
          (body :: r.1, 8 + len + r.2)

def readRecords (bytes : Bytes) : List Bytes × ℕ := readFrames crc bytes.length bytes

variable {crc}

/-- A part of a frame, short of the whole. -/
def Partial (crc : Bytes → Fin (2 ^ 32)) (rest : Bytes) : Prop :=
  ∃ payload, Fits payload ∧ rest <+: frame crc payload ∧ rest.length < (frame crc payload).length

theorem partial_nil : Partial crc [] := by
  refine ⟨[0], by decide, List.nil_prefix, ?_⟩
  rw [length_frame, List.length_nil]
  omega

theorem Partial.take {rest : Bytes} (h : Partial crc rest) (n : ℕ) : Partial crc (rest.take n) := by
  obtain ⟨payload, hfits, hinit, hlt⟩ := h
  refine ⟨payload, hfits, (List.take_prefix n rest).trans hinit, ?_⟩
  rw [List.length_take]
  omega

theorem readFrames_partial {rest : Bytes} (h : Partial crc rest) (fuel : ℕ) :
    readFrames crc fuel rest = ([], 0) := by
  cases fuel with
  | zero => rfl
  | succ fuel =>
    obtain ⟨payload, hfits, ⟨tail, htail⟩, hlt⟩ := h
    unfold readFrames
    by_cases hshort : rest.length < 8
    · rw [if_pos hshort]
    · -- the frame's header is whole: it announces more than there is
      have hlen : readLe (rest.take 4) = payload.length := by
        have hfour := take_four_frame crc payload []
        rw [List.append_nil, ← htail, List.take_append_of_le_length (by omega)] at hfour
        have hbound := hfits.2
        rw [hfour, putU32, readLe_putLe (by omega)]
      rw [length_frame] at hlt
      simp only [hlen]
      rw [if_neg hshort, if_pos (Or.inr (by omega))]

theorem frames_cons (p : Bytes) (ps : List Bytes) :
    frames crc (p :: ps) = frame crc p ++ frames crc ps := rfl

theorem frames_append (ps qs : List Bytes) :
    frames crc (ps ++ qs) = frames crc ps ++ frames crc qs := by
  rw [frames, List.flatMap_append]
  rfl

theorem frames_singleton (p : Bytes) : frames crc [p] = frame crc p := List.append_nil _

/-- The reader takes one frame. -/
theorem readFrames_frame {p : Bytes} (hfits : Fits p) (rest : Bytes) (fuel : ℕ) :
    readFrames crc (fuel + 1) (frame crc p ++ rest) =
      (p :: (readFrames crc fuel rest).1, 8 + p.length + (readFrames crc fuel rest).2) := by
  have hlen : readLe ((frame crc p ++ rest).take 4) = p.length := by
    have hbound := hfits.2
    rw [take_four_frame, putU32, readLe_putLe (by omega)]
  have hsum : readLe (((frame crc p ++ rest).drop 4).take 4) = (crc p).val := by
    rw [drop_four_frame, List.take_left' (length_putU32 _), putU32, readLe_putLe (crc p).isLt]
  have hbody : ((frame crc p ++ rest).drop 8).take p.length = p := by
    rw [drop_eight_frame, List.take_left]
  have hdrop : (frame crc p ++ rest).drop (8 + p.length) = rest := by
    rw [← List.drop_drop, drop_eight_frame, List.drop_left]
  have htotal : (frame crc p ++ rest).length = 8 + p.length + rest.length := by
    rw [List.length_append, length_frame]
  have hpos := hfits.1
  rw [readFrames, if_neg (by omega)]
  simp only [hlen, hsum, hbody, hdrop]
  rw [if_neg (by omega), if_neg (by simp)]

/-- **Reading back**: framed records, and a part of a frame behind them. -/
theorem readFrames_frames {ps : List Bytes} (h : ∀ p ∈ ps, Fits p) {rest : Bytes}
    (hrest : Partial crc rest) {fuel : ℕ} (hfuel : (frames crc ps ++ rest).length ≤ fuel) :
    readFrames crc fuel (frames crc ps ++ rest) = (ps, (frames crc ps).length) := by
  induction ps generalizing fuel with
  | nil => exact readFrames_partial hrest fuel
  | cons p ps ih =>
    rw [frames_cons, List.append_assoc] at hfuel ⊢
    rw [List.length_append, length_frame] at hfuel
    obtain ⟨fuel, rfl⟩ := Nat.exists_eq_succ_of_ne_zero (show fuel ≠ 0 by omega)
    rw [readFrames_frame (h p List.mem_cons_self),
      ih (fun q hq => h q (List.mem_cons_of_mem _ hq)) (by omega), List.length_append, length_frame]

theorem readRecords_frames {ps : List Bytes} (h : ∀ p ∈ ps, Fits p) {rest : Bytes}
    (hrest : Partial crc rest) :
    readRecords crc (frames crc ps ++ rest) = (ps, (frames crc ps).length) :=
  readFrames_frames h hrest le_rfl

/-- A file of framed records that loses its end. -/
theorem take_frames {ps : List Bytes} (h : ∀ p ∈ ps, Fits p) {rest : Bytes}
    (hrest : Partial crc rest) (n : ℕ) :
    ∃ (k : ℕ) (rest' : Bytes), Partial crc rest' ∧
      (frames crc ps ++ rest).take n = frames crc (ps.take k) ++ rest' := by
  induction ps generalizing n with
  | nil => exact ⟨0, rest.take n, hrest.take n, rfl⟩
  | cons p ps ih =>
    rw [frames_cons, List.append_assoc]
    rcases Nat.lt_or_ge n (frame crc p).length with hn | hn
    · refine ⟨0, (frame crc p).take n, ⟨p, h p List.mem_cons_self, List.take_prefix _ _, ?_⟩, ?_⟩
      · rw [List.length_take]
        omega
      · rw [List.take_append_of_le_length hn.le]
        rfl
    · obtain ⟨k, rest', hrest', hk⟩ :=
        ih (fun q hq => h q (List.mem_cons_of_mem _ hq)) (n - (frame crc p).length)
      refine ⟨k + 1, rest', hrest', ?_⟩
      rw [List.take_append, List.take_of_length_le hn, hk, List.take_succ_cons, frames_cons,
        List.append_assoc]

end

end Journal

end Fluent31
