/-
The replication wire format (`fluent-replication/src/proto.rs`).

A frame is `[u32 frame_len][u64 request_id][u8 opcode|status][payload]`, and a
blob inside a payload `[u32 len][bytes]`; every length is cast to 32 bits where
it is written.

* `decodeHello_encode` — the greeting decodes to itself;
* `decodeStreamBatch_encode` — a stream batch decodes to itself, whatever its
  entries, as long as no length in it is cut by its cast;
* `readFrame_response` — so does a frame read off the front of a byte stream.
-/
import Fluent31.Subscription
import Mathlib.Algebra.Order.BigOperators.Group.List
import Mathlib.Algebra.Order.Group.Nat

namespace Fluent31

/-! ### Frames -/

/-- Bytes of `[request_id][opcode]` after the length field. -/
def FRAME_OVERHEAD : ℕ := 8 + 1

/-- A blob field; its length is cast to 32 bits. -/
def putBlob (b : Bytes) : Bytes := putU32 b.length ++ b

/-- One response frame; its length is cast to 32 bits. -/
def response (requestId status : ℕ) (payload : Bytes) : Bytes :=
  putU32 (FRAME_OVERHEAD + payload.length) ++ (putU64 requestId ++ (byte status :: payload))

def PUSH_STREAM : ℕ := 0x10
def PUSH_PING : ℕ := 0x11
def PUSH_LAGGED : ℕ := 0x12

/-! ### The payload reader -/

namespace Rd

def u8 : Bytes → Except String (ℕ × Bytes)
  | [] => .error "truncated payload"
  | b :: rest => .ok (b.val, rest)

/-- An `n`-byte number. -/
def le (n : ℕ) (bs : Bytes) : Except String (ℕ × Bytes) :=
  if bs.length < n then .error "truncated payload" else .ok (readLe (bs.take n), bs.drop n)

def u32 (bs : Bytes) : Except String (ℕ × Bytes) := le 4 bs

def u64 (bs : Bytes) : Except String (ℕ × Bytes) := le 8 bs

/-- A blob field. -/
def blob (bs : Bytes) : Except String (Bytes × Bytes) :=
  (u32 bs).bind fun r =>
    if r.2.length < r.1 then .error "truncated payload" else .ok (r.2.take r.1, r.2.drop r.1)

def done (bs : Bytes) : Except String Unit :=
  if bs.isEmpty then .ok () else .error "trailing bytes in payload"

theorem le_putLe {n v : ℕ} (h : v < 256 ^ n) (rest : Bytes) :
    le n (putLe n v ++ rest) = .ok (v, rest) := by
  have hlen : (putLe n v).length = n := length_putLe n v
  unfold le
  rw [if_neg (by rw [List.length_append, hlen]; omega), List.take_left' hlen, List.drop_left' hlen,
    readLe_putLe h]

theorem u32_putU32 {v : ℕ} (h : v < 2 ^ 32) (rest : Bytes) :
    u32 (putU32 v ++ rest) = .ok (v, rest) :=
  le_putLe h rest

theorem u64_putU64 {v : ℕ} (h : v < 2 ^ 64) (rest : Bytes) :
    u64 (putU64 v ++ rest) = .ok (v, rest) :=
  le_putLe h rest

theorem blob_putBlob {b : Bytes} (h : b.length < 2 ^ 32) (rest : Bytes) :
    blob (putBlob b ++ rest) = .ok (b, rest) := by
  unfold blob putBlob
  rw [List.append_assoc, u32_putU32 h, Except.bind, if_neg (by rw [List.length_append]; omega),
    List.take_left, List.drop_left]

end Rd

/-! ### Greeting -/

/-- The 128-bit identity of a store. -/
abbrev InstanceId := Bytes

def OP_HELLO : ℕ := 0x00
def OP_SNAPSHOT : ℕ := 0x01
def OP_FETCH_TABLE : ℕ := 0x02
def OP_FETCH_VALUE : ℕ := 0x03

def ST_OK : ℕ := 0x00
def ST_NO_IDENTITY : ℕ := 0x03

/-- A continuation byte of a multi-byte character, in `[lo, hi]`. -/
def byteWithin (b : Byte) (lo hi : ℕ) : Bool := decide (lo ≤ b.val) && decide (b.val ≤ hi)

/-- Well-formed UTF-8: no overlong forms, no surrogates, nothing above U+10FFFF. -/
def isUtf8 : Bytes → Bool
  | [] => true
  | a :: rest =>
    if a.val < 0x80 then isUtf8 rest
    else match rest with
      | [] => false
      | b :: rest =>
        if byteWithin a 0xC2 0xDF then byteWithin b 0x80 0xBF && isUtf8 rest
        else match rest with
          | [] => false
          | c :: rest =>
            if byteWithin a 0xE0 0xEF then
              byteWithin b (if a.val = 0xE0 then 0xA0 else 0x80)
                (if a.val = 0xED then 0x9F else 0xBF) && byteWithin c 0x80 0xBF && isUtf8 rest
            else match rest with
              | [] => false
              | d :: rest =>
                byteWithin a 0xF0 0xF4 &&
                  byteWithin b (if a.val = 0xF0 then 0x90 else 0x80)
                    (if a.val = 0xF4 then 0x8F else 0xBF) &&
                  byteWithin c 0x80 0xBF && byteWithin d 0x80 0xBF && isUtf8 rest

theorem isUtf8_of_ascii {bs : Bytes} (h : ∀ b ∈ bs, b.val < 0x80) : isUtf8 bs = true := by
  induction bs with
  | nil => rfl
  | cons b bs ih =>
    have hrest := ih fun c hc => h c (List.mem_cons_of_mem _ hc)
    unfold isUtf8
    rw [if_pos (h b List.mem_cons_self), hrest]

/-- The answer to HELLO; the name is kept as its bytes. -/
structure Hello where
  version : ℕ
  name : Bytes
  instanceId : InstanceId
  visibleSeqno : ℕ
  deriving DecidableEq

/-- `[u32 version][blob name][16B instance_id][u64 visible]`. -/
def encodeHello (h : Hello) : Bytes :=
  putU32 h.version ++ (putBlob h.name ++ (h.instanceId ++ putU64 h.visibleSeqno))

/-- A field of `n` bytes. -/
def Rd.blobExact (n : ℕ) (bs : Bytes) : Except String (Bytes × Bytes) :=
  if bs.length < n then .error "truncated payload" else .ok (bs.take n, bs.drop n)

def decodeHello (payload : Bytes) : Except String Hello :=
  (Rd.u32 payload).bind fun version =>
  (Rd.blob version.2).bind fun name =>
  if isUtf8 name.1 then
    (Rd.blobExact 16 name.2).bind fun id =>
    (Rd.u64 id.2).bind fun visible =>
    (Rd.done visible.2).map fun _ => ⟨version.1, name.1, id.1, visible.1⟩
  else .error "name not UTF-8"

/-- A greeting the server can send. -/
structure Hello.Sendable (h : Hello) : Prop where
  version : h.version < 2 ^ 32
  name : isUtf8 h.name = true ∧ h.name.length < 2 ^ 32
  instanceId : h.instanceId.length = 16
  visible : h.visibleSeqno < 2 ^ 64

/-- **Round trip** of greetings. -/
theorem decodeHello_encode {h : Hello} (hs : h.Sendable) : decodeHello (encodeHello h) = .ok h := by
  have hid := hs.instanceId
  have hexact : Rd.blobExact 16 (h.instanceId ++ putU64 h.visibleSeqno) =
      .ok (h.instanceId, putU64 h.visibleSeqno) := by
    unfold Rd.blobExact
    rw [if_neg (by rw [List.length_append, hid]; omega), List.take_left' hid, List.drop_left' hid]
  have hvisible : Rd.u64 (putU64 h.visibleSeqno) = .ok (h.visibleSeqno, []) := by
    have := Rd.u64_putU64 hs.visible []
    rwa [List.append_nil] at this
  unfold decodeHello encodeHello
  rw [Rd.u32_putU32 hs.version, Except.bind]
  simp only
  rw [Rd.blob_putBlob hs.name.2, Except.bind]
  simp only
  rw [if_pos hs.name.1, hexact, Except.bind]
  simp only
  rw [hvisible]
  rfl

/-! ### Stream batches -/

namespace StreamEntry

/-- `[u8 kind][u64 seqno][u64 commit_seqno][blob key]`, plus `[blob value]` for
puts. -/
def encode (e : StreamEntry) : Bytes :=
  byte e.kind.toNat :: (putU64 e.seqno ++ (putU64 e.commitSeqno ++ (putBlob e.key ++
    match e.kind with
    | .put => putBlob (e.value.getD [])
    | .delete => [])))

/-- The bytes the entry takes in a frame. -/
def frameBytes (e : StreamEntry) : ℕ :=
  21 + e.key.length + match e.kind with
    | .put => 4 + (e.value.getD []).length
    | .delete => 0

/-- A put carries its value, a delete none, and the seqnos are 64-bit numbers. -/
structure Typed (e : StreamEntry) : Prop where
  value : e.value.isSome = true ↔ e.kind = .put
  seqno : e.seqno < 2 ^ 64
  commitSeqno : e.commitSeqno < 2 ^ 64

theorem length_encode (e : StreamEntry) : e.encode.length = e.frameBytes := by
  unfold encode frameBytes
  cases e.kind with
  | put =>
    simp only [putU64, putBlob, putU32, List.length_cons, List.length_append, length_putLe]
    omega
  | delete =>
    simp only [putU64, putBlob, putU32, List.length_cons, List.length_append, length_putLe,
      List.length_nil]
    omega

/-- One entry off the front of a payload. -/
def decode (bs : Bytes) : Except String (StreamEntry × Bytes) :=
  (Rd.u8 bs).bind fun k =>
    let kind? : Except String ValueKind :=
      match k.1 with
      | 0 => .ok .delete
      | 1 => .ok .put
      | k => .error s!"bad stream entry kind {k}"
    kind?.bind fun kind =>
    (Rd.u64 k.2).bind fun seqno =>
    (Rd.u64 seqno.2).bind fun commitSeqno =>
    (Rd.blob commitSeqno.2).bind fun key =>
    match kind with
    | .put => (Rd.blob key.2).bind fun value =>
        .ok (⟨key.1, seqno.1, commitSeqno.1, .put, some value.1⟩, value.2)
    | .delete => .ok (⟨key.1, seqno.1, commitSeqno.1, .delete, none⟩, key.2)

theorem decode_encode {e : StreamEntry} (h : e.Typed) (hfits : e.frameBytes < 2 ^ 32)
    (rest : Bytes) :
    decode (e.encode ++ rest) = .ok (e, rest) := by
  obtain ⟨key, seqno, commitSeqno, kind, value⟩ := e
  obtain ⟨hvalue, hseqno, hcommit⟩ := h
  cases kind with
  | put =>
    obtain ⟨v, rfl⟩ := Option.isSome_iff_exists.mp (hvalue.mpr rfl)
    have hfits' : 21 + key.length + (4 + v.length) < 2 ^ 32 := hfits
    have hkey : key.length < 2 ^ 32 := by omega
    have hv : v.length < 2 ^ 32 := by omega
    unfold decode encode
    simp only [ValueKind.toNat, List.cons_append, List.append_assoc, Rd.u8, Except.bind,
      show (byte 1).val = 1 from rfl, Rd.u64_putU64 hseqno, Rd.u64_putU64 hcommit,
      Rd.blob_putBlob hkey, Option.getD_some, Rd.blob_putBlob hv]
  | delete =>
    obtain rfl : value = none := by
      cases value with
      | none => rfl
      | some v => exact absurd (hvalue.mp rfl) (by simp)
    have hfits' : 21 + key.length + 0 < 2 ^ 32 := hfits
    have hkey : key.length < 2 ^ 32 := by omega
    unfold decode encode
    simp only [ValueKind.toNat, List.cons_append, List.append_assoc, Rd.u8, Except.bind,
      show (byte 0).val = 0 from rfl, Rd.u64_putU64 hseqno, Rd.u64_putU64 hcommit,
      Rd.blob_putBlob hkey, List.nil_append]

end StreamEntry

/-- `[u32 count]`, then the entries. -/
def encodeStreamBatch (entries : List StreamEntry) : Bytes :=
  putU32 entries.length ++ entries.flatMap StreamEntry.encode

/-- The decoder's loop. -/
def decodeEntries : ℕ → Bytes → Except String (List StreamEntry × Bytes)
  | 0, bs => .ok ([], bs)
  | count + 1, bs =>
    (StreamEntry.decode bs).bind fun e => (decodeEntries count e.2).map fun out =>
      (e.1 :: out.1, out.2)

def decodeStreamBatch (payload : Bytes) : Except String (List StreamEntry) :=
  (Rd.u32 payload).bind fun count =>
    (decodeEntries count.1 count.2).bind fun out => (Rd.done out.2).map fun _ => out.1

theorem length_encodeStreamBatch (es : List StreamEntry) :
    (encodeStreamBatch es).length = 4 + (es.map StreamEntry.frameBytes).sum := by
  unfold encodeStreamBatch
  rw [List.length_append, List.length_flatMap, putU32, length_putLe]
  exact congrArg (4 + ·) (congrArg List.sum (List.map_congr_left fun e _ => e.length_encode))

theorem decodeEntries_encode {es : List StreamEntry} (htyped : ∀ e ∈ es, e.Typed)
    (hfits : ∀ e ∈ es, e.frameBytes < 2 ^ 32) (rest : Bytes) :
    decodeEntries es.length (es.flatMap StreamEntry.encode ++ rest) = .ok (es, rest) := by
  induction es with
  | nil => rfl
  | cons e es ih =>
    rw [List.flatMap_cons, List.append_assoc, List.length_cons, decodeEntries,
      StreamEntry.decode_encode (htyped e List.mem_cons_self) (hfits e List.mem_cons_self),
        Except.bind,
      ih (fun x hx => htyped x (List.mem_cons_of_mem _ hx)) fun x hx =>
        hfits x (List.mem_cons_of_mem _ hx)]
    rfl

theorem length_le_sum_frameBytes (es : List StreamEntry) :
    es.length ≤ (es.map StreamEntry.frameBytes).sum := by
  induction es with
  | nil => exact le_rfl
  | cons e es ih =>
    have hpos : 0 < e.frameBytes := by
      unfold StreamEntry.frameBytes
      omega
    rw [List.map_cons, List.sum_cons, List.length_cons]
    omega

/-- **Round trip** of stream batches whose encoding is below 4 GiB. -/
theorem decodeStreamBatch_encode {es : List StreamEntry} (htyped : ∀ e ∈ es, e.Typed)
    (hfits : (encodeStreamBatch es).length < 2 ^ 32) :
    decodeStreamBatch (encodeStreamBatch es) = .ok es := by
  rw [length_encodeStreamBatch] at hfits
  have hcount : es.length < 2 ^ 32 := by
    have := length_le_sum_frameBytes es
    omega
  have heach : ∀ e ∈ es, e.frameBytes < 2 ^ 32 := fun e he => by
    have hmem : e.frameBytes ∈ es.map StreamEntry.frameBytes := List.mem_map_of_mem he
    have := List.le_sum_of_mem hmem
    omega
  have hloop := decodeEntries_encode htyped heach []
  rw [List.append_nil] at hloop
  unfold decodeStreamBatch encodeStreamBatch
  rw [Rd.u32_putU32 hcount, Except.bind]
  simp only [hloop, Except.bind]
  rfl

/-! ### The client's side -/

/-- What a push-only connection delivers. -/
inductive PushFrame
  | batch (entries : List StreamEntry)
  | ping
  | lagged
  deriving DecidableEq

/-- `read_exact`: `n` bytes off the front of what arrives. -/
def readExact (n : ℕ) (bs : Bytes) : Except String (Bytes × Bytes) :=
  if bs.length < n then .error "failed to fill whole buffer" else .ok (bs.take n, bs.drop n)

/-- One frame off the front of a byte stream: request id, opcode, payload. -/
def readFrameBlocking (bs : Bytes) : Except String ((ℕ × ℕ × Bytes) × Bytes) :=
  (readExact 4 bs).bind fun len =>
    let frameLen := readLe len.1
    if frameLen < FRAME_OVERHEAD then .error s!"bad frame_len {frameLen}"
    else (readExact frameLen len.2).map fun rest =>
      ((readLe (rest.1.take 8), readLe ((rest.1.drop 8).take 1), rest.1.drop 9), rest.2)

/-- The next pushed frame. -/
def nextPush (bs : Bytes) : Except String (PushFrame × Bytes) :=
  (readFrameBlocking bs).bind fun r =>
    let (id, op, payload) := r.1
    if id ≠ 0 then .error s!"push frame with request id {id}"
    else if op = PUSH_STREAM then (decodeStreamBatch payload).map fun es => (.batch es, r.2)
    else if op = PUSH_PING then .ok (.ping, r.2)
    else if op = PUSH_LAGGED then .ok (.lagged, r.2)
    else .error s!"unknown push opcode {op}"

theorem readExact_append {n : ℕ} {bs rest : Bytes} (h : bs.length = n) :
    readExact n (bs ++ rest) = .ok (bs, rest) := by
  unfold readExact
  rw [if_neg (by rw [List.length_append, h]; omega), List.take_left' h, List.drop_left' h]

/-- **A frame is read back** off the front of the stream, unless its length is cut
by the cast. -/
theorem readFrame_response {id status : ℕ} {payload : Bytes} (hid : id < 2 ^ 64)
    (hstatus : status < 256) (hfits : FRAME_OVERHEAD + payload.length < 2 ^ 32) (rest : Bytes) :
    readFrameBlocking (response id status payload ++ rest) = .ok ((id, status, payload), rest) := by
  have hlen : (putU64 id ++ byte status :: payload).length = FRAME_OVERHEAD + payload.length := by
    rw [List.length_append, List.length_cons, putU64, length_putLe]
    unfold FRAME_OVERHEAD
    omega
  have hinit : readLe (putU32 (FRAME_OVERHEAD + payload.length)) = FRAME_OVERHEAD +
      payload.length :=
    readLe_putLe hfits
  have hid' : (putU64 id).length = 8 := length_putLe 8 id
  unfold readFrameBlocking response
  rw [List.append_assoc, readExact_append (show (putU32 _).length = 4 from length_putLe 4 _),
    Except.bind]
  simp only [hinit]
  rw [if_neg (by omega), readExact_append hlen]
  have hdrop : (putU64 id ++ byte status :: payload).drop 8 = byte status :: payload :=
    List.drop_left' hid'
  have hdrop9 : (putU64 id ++ byte status :: payload).drop 9 = payload := by
    rw [show (9 : ℕ) = 8 + 1 from rfl, ← List.drop_drop, hdrop]
    rfl
  have hread : readLe (putU64 id) = id := readLe_putLe hid
  simp only [Except.map, List.take_left' hid', hdrop, hdrop9, hread]
  have hbyte : readLe ((byte status :: payload).take 1) = status := by
    show (byte status).val + 256 * 0 = status
    rw [val_byte]
    omega
  rw [hbyte]

end Fluent31
