/-
Manifest files as bytes (`manifest.rs`, `coding.rs`).

`MANIFEST-<gen>` is `[magic u64][format u32][payload][crc32c u32]`; the identity
sections exist from format 2 on and the pin list from format 3 on, and the
encoder selects the lowest format that carries the manifest.  The checksum is a
parameter.

* `decode_encodeAs` — what a manifest written at any format decodes to;
* `decode_ne_panic` — no bytes make the decoder index out of range;
* `decode_holdable` — what is decoded can be written again;
* `manifest_round_trip` — the two together, and loading what was saved.
-/
import Fluent31.Reader
import Fluent31.WalFile
import Fluent31.Proto

namespace Fluent31

open Decoder

def MANIFEST_MAGIC : ℕ := 0xf115e7313aa10001
def MANIFEST_FORMAT : ℕ := 1
def MANIFEST_FORMAT_IDENTITY : ℕ := 2
def MANIFEST_FORMAT_PINS : ℕ := 3
def INSTANCE_ID_LEN : ℕ := 16

/-- A durable named pin; the name is kept as its bytes, as all names here. -/
structure PinInfo where
  name : Bytes
  seqno : ℕ
  createdUnixMs : ℕ
  deriving DecidableEq

structure RunMeta where
  id : ℕ
  tableIds : List ℕ
  deriving DecidableEq

structure StoreIdentity where
  name : Bytes
  instanceId : InstanceId
  parent : Option (InstanceId × ℕ)
  deriving DecidableEq

structure PendingFork where
  parentInstanceId : InstanceId
  cutSeqno : ℕ
  name : Bytes
  deriving DecidableEq

structure ManifestData where
  nextFileId : ℕ
  lastFlushedSeqno : ℕ
  walFloor : ℕ
  levels : List (List RunMeta)
  vlogLive : List ℕ
  vlogHead : ℕ
  vlogRetired : List (ℕ × ℕ)
  discard : List (ℕ × ℕ)
  identity : Option StoreIdentity
  pendingFork : Option PendingFork
  pins : List PinInfo
  deriving DecidableEq

/-! ### Encoding -/

/-- A list under its count. -/
def putList {α : Type} (enc : α → Bytes) (as : List α) : Bytes :=
  putUvarint as.length ++ as.flatMap enc

/-- A value behind a byte that says whether there is one. -/
def putOptional {α : Type} (enc : α → Bytes) : Option α → Bytes
  | some a => [byte 1] ++ enc a
  | none => [byte 0]

def putPair (p : ℕ × ℕ) : Bytes := putU64 p.1 ++ putU64 p.2

def RunMeta.encode (r : RunMeta) : Bytes := putU64 r.id ++ putList putU64 r.tableIds

def StoreIdentity.encode (id : StoreIdentity) : Bytes :=
  putLenPrefixed id.name ++
    (id.instanceId ++ putOptional (fun p : InstanceId × ℕ => p.1 ++ putU64 p.2) id.parent)

def PendingFork.encode (pf : PendingFork) : Bytes :=
  putLenPrefixed pf.name ++ (pf.parentInstanceId ++ putU64 pf.cutSeqno)

def PinInfo.encode (pin : PinInfo) : Bytes :=
  putLenPrefixed pin.name ++ (putU64 pin.seqno ++ putU64 pin.createdUnixMs)

namespace ManifestData

/-- The sections of a format. -/
def payloadAs (format : ℕ) (m : ManifestData) : Bytes :=
  putU64 m.nextFileId ++ (putU64 m.lastFlushedSeqno ++
    (putU64 m.walFloor ++ (putList (putList RunMeta.encode) m.levels ++
    (putList putU64 m.vlogLive ++ (putU64 m.vlogHead ++ (putList putPair m.vlogRetired ++
      (putList putPair m.discard ++
        ((if MANIFEST_FORMAT_IDENTITY ≤ format then
            putOptional StoreIdentity.encode m.identity ++ putOptional PendingFork.encode
              m.pendingFork
          else []) ++
        (if MANIFEST_FORMAT_PINS ≤ format then putList PinInfo.encode m.pins else [])))))))))

/-- The lowest format that carries the manifest. -/
def format (m : ManifestData) : ℕ :=
  if ¬ m.pins.isEmpty then MANIFEST_FORMAT_PINS
  else if m.identity.isSome ∨ m.pendingFork.isSome then MANIFEST_FORMAT_IDENTITY
  else MANIFEST_FORMAT

variable (crc : Bytes → Fin (2 ^ 32))

/-- The manifest at a given format. -/
def encodeAs (format : ℕ) (m : ManifestData) : Bytes :=
  let out := putU64 MANIFEST_MAGIC ++ (putU32 format ++ m.payloadAs format)
  out ++ putU32 (crc out).val

def encode (m : ManifestData) : Bytes := m.encodeAs crc m.format

end ManifestData

/-! ### Decoding -/

namespace Reader

def pair : Decoder Reader Halt (ℕ × ℕ) := do
  let a ← u64
  let b ← u64
  pure (a, b)

def instanceId : Decoder Reader Halt InstanceId := do
  let bs ← bytes INSTANCE_ID_LEN
  array INSTANCE_ID_LEN bs

/-- A length-prefixed name. -/
def name (what : String) : Decoder Reader Halt Bytes := do
  let bs ← lenPrefixed
  if isUtf8 bs then pure bs else throw (.error (.corruption (what ++ " name is not UTF-8")))

/-- A value behind a byte that says whether there is one. -/
def optional {α : Type} (present : ℕ → Bool) (p : Decoder Reader Halt α) :
    Decoder Reader Halt (Option α) := do
  let flag ← u8
  if present flag then
    let a ← p
    pure (some a)
  else pure none

end Reader

def RunMeta.decode : Decoder Reader Halt RunMeta := do
  let id ← Reader.u64
  let tableIds ← Reader.counted Reader.u64
  pure ⟨id, tableIds⟩

def parentFields : Decoder Reader Halt (InstanceId × ℕ) := do
  let id ← Reader.instanceId
  let cut ← Reader.u64
  pure (id, cut)

def StoreIdentity.decode : Decoder Reader Halt StoreIdentity := do
  let name ← Reader.name "store"
  let instanceId ← Reader.instanceId
  let parent ← Reader.optional (· != 0) parentFields
  pure ⟨name, instanceId, parent⟩

def PendingFork.decode : Decoder Reader Halt PendingFork := do
  let name ← Reader.name "fork"
  let parentInstanceId ← Reader.instanceId
  let cutSeqno ← Reader.u64
  pure ⟨parentInstanceId, cutSeqno, name⟩

def PinInfo.decode : Decoder Reader Halt PinInfo := do
  let name ← Reader.name "pin"
  let seqno ← Reader.u64
  let createdUnixMs ← Reader.u64
  pure ⟨name, seqno, createdUnixMs⟩

namespace ManifestData

/-- The identity sections, from format 2 on. -/
def identitySections (format : ℕ) :
    Decoder Reader Halt (Option StoreIdentity × Option PendingFork) :=
  if MANIFEST_FORMAT_IDENTITY ≤ format then do
    let identity ← Reader.optional (· == 1) StoreIdentity.decode
    let pendingFork ← Reader.optional (· == 1) PendingFork.decode
    pure (identity, pendingFork)
  else pure (none, none)

/-- The pin list, from format 3 on. -/
def pinSection (format : ℕ) : Decoder Reader Halt (List PinInfo) :=
  if MANIFEST_FORMAT_PINS ≤ format then Reader.counted PinInfo.decode else pure []

/-- The sections of a format. -/
def sections (format : ℕ) : Decoder Reader Halt ManifestData := do
  let nextFileId ← Reader.u64
  let lastFlushedSeqno ← Reader.u64
  let walFloor ← Reader.u64
  let levels ← Reader.counted (Reader.counted RunMeta.decode)
  let vlogLive ← Reader.counted Reader.u64
  let vlogHead ← Reader.u64
  let vlogRetired ← Reader.counted Reader.pair
  let discard ← Reader.counted Reader.pair
  let ids ← identitySections format
  let pins ← pinSection format
  pure ⟨nextFileId, lastFlushedSeqno, walFloor, levels, vlogLive, vlogHead, vlogRetired, discard,
    ids.1, ids.2, pins⟩

/-- What is between the checksum and the start. -/
def fields : Decoder Reader Halt ManifestData := do
  let magic ← Reader.u64
  if magic ≠ MANIFEST_MAGIC then throw (.error (.corruption "bad manifest magic"))
  else
    let format ← Reader.u32
    if MANIFEST_FORMAT ≤ format ∧ format ≤ MANIFEST_FORMAT_PINS then sections format
    else throw (.error (.corruption s!"unsupported manifest format {format}"))

/-- What is behind the sections of a manifest is not looked at. -/
def decode (crc : Bytes → Fin (2 ^ 32)) (buf : Bytes) : Except Halt ManifestData :=
  if buf.length < 16 then .error (.error (.corruption "manifest too small"))
  else do
    let bodyEnd := buf.length - 4
    let tail ← slice buf bodyEnd buf.length
    let stored ← array 4 tail
    let body ← slice buf 0 bodyEnd
    if (crc body).val ≠ readLe stored then .error (.error (.corruption "manifest crc mismatch"))
    else Reader.decodeAll fields body

end ManifestData

/-! ### What a manifest can hold -/

/-- A vector of such values. -/
def Listed {α : Type} (ok : α → Prop) (as : List α) : Prop := as.length < 2 ^ 64 ∧ ∀ a ∈ as, ok a

/-- A string: its bytes are UTF-8. -/
def IsName (bs : Bytes) : Prop := bs.length < 2 ^ 64 ∧ isUtf8 bs = true

structure RunMeta.Holdable (r : RunMeta) : Prop where
  id : r.id < 2 ^ 64
  tableIds : Listed (· < 2 ^ 64) r.tableIds

structure StoreIdentity.Holdable (id : StoreIdentity) : Prop where
  name : IsName id.name
  instanceId : id.instanceId.length = INSTANCE_ID_LEN
  parent : ∀ p ∈ id.parent, p.1.length = INSTANCE_ID_LEN ∧ p.2 < 2 ^ 64

structure PendingFork.Holdable (pf : PendingFork) : Prop where
  name : IsName pf.name
  parentInstanceId : pf.parentInstanceId.length = INSTANCE_ID_LEN
  cutSeqno : pf.cutSeqno < 2 ^ 64

structure PinInfo.Holdable (pin : PinInfo) : Prop where
  name : IsName pin.name
  seqno : pin.seqno < 2 ^ 64
  createdUnixMs : pin.createdUnixMs < 2 ^ 64

/-- The numbers are 64-bit ones, the ids 16 bytes long and the names strings. -/
structure ManifestData.Holdable (m : ManifestData) : Prop where
  nextFileId : m.nextFileId < 2 ^ 64
  lastFlushedSeqno : m.lastFlushedSeqno < 2 ^ 64
  walFloor : m.walFloor < 2 ^ 64
  levels : Listed (Listed RunMeta.Holdable) m.levels
  vlogLive : Listed (· < 2 ^ 64) m.vlogLive
  vlogHead : m.vlogHead < 2 ^ 64
  vlogRetired : Listed (fun p => p.1 < 2 ^ 64 ∧ p.2 < 2 ^ 64) m.vlogRetired
  discard : Listed (fun p => p.1 < 2 ^ 64 ∧ p.2 < 2 ^ 64) m.discard
  identity : ∀ id ∈ m.identity, id.Holdable
  pendingFork : ∀ pf ∈ m.pendingFork, pf.Holdable
  pins : Listed PinInfo.Holdable m.pins

/-! ### No panics -/

namespace Reader

theorem avoids_instanceId : Avoids instanceId .panic := by
  intro r h
  unfold instanceId at h
  rw [run_bind] at h
  rcases lt_or_ge r.remaining INSTANCE_ID_LEN with hlt | hge
  · rw [run_bytes_short hlt] at h
    cases h
  · have hlen : (r.rest.take INSTANCE_ID_LEN).length = INSTANCE_ID_LEN :=
      List.length_take_of_le (by rwa [length_rest])
    rw [run_bytes hge, Except.bind] at h
    simp only [array, if_pos hlen] at h
    cases h

theorem avoids_name (what : String) : Avoids (name what) .panic := by
  refine avoids_lenPrefixed.bind fun bs => ?_
  split
  · exact Avoids.pure _ _
  · exact Avoids.throw (by simp)

theorem avoids_optional {α : Type} {present : ℕ → Bool} {p : Decoder Reader Halt α}
    (hp : Avoids p .panic) :
    Avoids (optional present p) .panic := by
  refine avoids_u8.bind fun flag => ?_
  split
  · exact hp.bind fun _ => Avoids.pure _ _
  · exact Avoids.pure _ _

end Reader

theorem avoids_parentFields : Avoids parentFields .panic :=
  Reader.avoids_instanceId.bind fun _ => Reader.avoids_u64.bind fun _ => Avoids.pure _ _

theorem avoids_storeIdentity : Avoids StoreIdentity.decode .panic :=
  (Reader.avoids_name "store").bind fun _ => Reader.avoids_instanceId.bind fun _ =>
    (Reader.avoids_optional avoids_parentFields).bind fun _ => Avoids.pure _ _

theorem avoids_pendingFork : Avoids PendingFork.decode .panic :=
  (Reader.avoids_name "fork").bind fun _ => Reader.avoids_instanceId.bind fun _ =>
    Reader.avoids_u64.bind fun _ =>
    Avoids.pure _ _

theorem avoids_pinInfo : Avoids PinInfo.decode .panic :=
  (Reader.avoids_name "pin").bind fun _ => Reader.avoids_u64.bind fun _ =>
    Reader.avoids_u64.bind fun _ =>
    Avoids.pure _ _

/-! ### Decoded values -/

namespace Reader

theorem yields_pair : Yields pair fun p => p.1 < 2 ^ 64 ∧ p.2 < 2 ^ 64 :=
  yields_u64.bind fun _ ha => yields_u64.bind fun _ hb => .pure ⟨ha, hb⟩

theorem yields_instanceId : Yields instanceId (·.length = INSTANCE_ID_LEN) := by
  intro r id r' hrun
  obtain ⟨bs, t, hbytes, harray⟩ := run_bind_eq_ok.mp hrun
  have hlen := yields_bytes _ hbytes
  simp only [array, if_pos hlen] at harray
  obtain ⟨rfl, -⟩ := Prod.mk.inj (Except.ok.inj harray)
  exact hlen

theorem yields_name (what : String) : Yields (name what) IsName := by
  refine yields_lenPrefixed.bind fun bs hbs => ?_
  split
  · rename_i hutf8
    exact .pure ⟨hbs, hutf8⟩
  · exact .throw _

theorem yields_optional {α : Type} {present : ℕ → Bool} {p : Decoder Reader Halt α} {ok : α → Prop}
    (hp : Yields p ok) : Yields (optional present p) fun o => ∀ a ∈ o, ok a := by
  refine (show Yields u8 fun _ => True from fun _ _ _ _ => trivial).bind fun flag _ => ?_
  split
  · exact hp.bind fun a ha => .pure fun b hb => Option.mem_some.mp hb ▸ ha
  · exact .pure fun b hb => absurd hb (by simp)

end Reader

open Reader in
theorem yields_runMeta : Yields RunMeta.decode RunMeta.Holdable :=
  yields_u64.bind fun _ hid => (yields_counted yields_u64).bind fun _ htables =>
    .pure ⟨hid, htables⟩

open Reader in
theorem yields_storeIdentity : Yields StoreIdentity.decode StoreIdentity.Holdable :=
  (yields_name "store").bind fun _ hname => yields_instanceId.bind fun _ hid =>
    (yields_optional (yields_instanceId.bind fun a ha => yields_u64.bind fun b hb =>
      Yields.pure (a := (a, b))
        ⟨ha, hb⟩)).bind fun _ hparent => .pure ⟨hname, hid, hparent⟩

open Reader in
theorem yields_pendingFork : Yields PendingFork.decode PendingFork.Holdable :=
  (yields_name "fork").bind fun _ hname => yields_instanceId.bind fun _ hid =>
    yields_u64.bind fun _ hcut =>
    .pure ⟨hname, hid, hcut⟩

open Reader in
theorem yields_pinInfo : Yields PinInfo.decode PinInfo.Holdable :=
  (yields_name "pin").bind fun _ hname => yields_u64.bind fun _ hseqno =>
    yields_u64.bind fun _ hcreated =>
    .pure ⟨hname, hseqno, hcreated⟩

/-! ### Round trips -/

namespace Reader

variable {α : Type} {enc : α → Bytes} {ok : α → Prop} {p : Decoder Reader Halt α}

theorem inverts_counted (hp : Inverts rest enc ok p) :
    Inverts rest (putList enc) (Listed ok) (counted p) :=
  inverts_uvarint.bind (f := List.length) (fun _ h => h.1) fun n _ =>
    (hp.times n).mono fun _ h => ⟨h.2, h.1.2⟩

theorem inverts_optional {present : ℕ → Bool} (h1 : present 1 = true) (h0 : present 0 = false)
    (hp : Inverts rest enc ok p) :
    Inverts rest (putOptional enc) (fun o => ∀ a ∈ o, ok a) (optional present p) := by
  intro o ho r more hr
  cases o with
  | none =>
    obtain ⟨t, hrun, ht⟩ := inverts_u8 (a := 0) (by decide) hr
    refine ⟨t, ?_, ht⟩
    unfold optional
    rw [run_bind, hrun, Except.bind]
    simp only [h0]
    rfl
  | some a =>
    rw [putOptional, List.append_assoc] at hr
    obtain ⟨t, hrun, ht⟩ := inverts_u8 (a := 1) (by decide) hr
    obtain ⟨t', hrun', ht'⟩ := hp (ho a rfl) ht
    refine ⟨t', ?_, ht'⟩
    unfold optional
    rw [run_bind, hrun, Except.bind]
    simp only [h1, if_true]
    exact run_bind_eq_ok.mpr ⟨a, t', hrun', rfl⟩

theorem inverts_pair : Inverts rest putPair (fun p => p.1 < 2 ^ 64 ∧ p.2 < 2 ^ 64) pair := by
  refine inverts_u64.bind (f := Prod.fst) (fun p h => h.1) fun a _ => ?_
  refine inverts_u64.last (f := Prod.snd) (fun p h => h.1.2) fun b _ p h => ?_
  obtain ⟨⟨-, rfl⟩, rfl⟩ := h
  rfl

theorem inverts_instanceId :
    Inverts rest (fun id : InstanceId => id) (·.length = INSTANCE_ID_LEN) instanceId := by
  intro id hid r more hr
  obtain ⟨t, hrun, ht⟩ := inverts_bytes INSTANCE_ID_LEN hid hr
  refine ⟨t, ?_, ht⟩
  unfold instanceId
  rw [run_bind, hrun, Except.bind]
  simp only [array, if_pos hid]
  rfl

theorem inverts_name (what : String) : Inverts rest putLenPrefixed IsName (name what) := by
  intro bs hbs r more hr
  obtain ⟨t, hrun, ht⟩ := inverts_lenPrefixed hbs.1 hr
  refine ⟨t, ?_, ht⟩
  unfold name
  rw [run_bind, hrun, Except.bind]
  simp only [if_pos hbs.2]
  rfl

end Reader

theorem inverts_runMeta : Inverts Reader.rest RunMeta.encode RunMeta.Holdable RunMeta.decode := by
  refine Reader.inverts_u64.bind (f := RunMeta.id) (fun r h => h.id) fun id _ => ?_
  refine (Reader.inverts_counted Reader.inverts_u64).last (f := RunMeta.tableIds)
    (fun r h => h.1.tableIds) fun ids _ r h => ?_
  obtain ⟨⟨-, rfl⟩, rfl⟩ := h
  rfl

theorem inverts_parentFields : Inverts Reader.rest (fun p : InstanceId × ℕ => p.1 ++ putU64 p.2)
    (fun p => p.1.length = INSTANCE_ID_LEN ∧ p.2 < 2 ^ 64) parentFields := by
  refine Reader.inverts_instanceId.bind (f := Prod.fst) (fun p h => h.1) fun id _ => ?_
  refine Reader.inverts_u64.last (f := Prod.snd) (fun p h => h.1.2) fun cut _ p h => ?_
  obtain ⟨⟨-, rfl⟩, rfl⟩ := h
  rfl

theorem inverts_storeIdentity :
    Inverts Reader.rest StoreIdentity.encode StoreIdentity.Holdable StoreIdentity.decode := by
  refine (Reader.inverts_name "store").bind (f := StoreIdentity.name) (fun id h => h.name)
    fun name _ => ?_
  refine Reader.inverts_instanceId.bind (f := StoreIdentity.instanceId) (fun id h => h.1.instanceId)
    fun inst _ => ?_
  refine (Reader.inverts_optional (by decide) (by decide) inverts_parentFields).last
    (f := StoreIdentity.parent) (fun id h => h.1.1.parent) fun parent _ id h => ?_
  obtain ⟨⟨⟨-, rfl⟩, rfl⟩, rfl⟩ := h
  rfl

theorem inverts_pendingFork :
    Inverts Reader.rest PendingFork.encode PendingFork.Holdable PendingFork.decode := by
  refine (Reader.inverts_name "fork").bind (f := PendingFork.name) (fun pf h => h.name)
    fun name _ => ?_
  refine Reader.inverts_instanceId.bind (f := PendingFork.parentInstanceId)
    (fun pf h => h.1.parentInstanceId) fun inst _ => ?_
  refine Reader.inverts_u64.last (f := PendingFork.cutSeqno) (fun pf h => h.1.1.cutSeqno)
    fun cut _ pf h => ?_
  obtain ⟨⟨⟨-, rfl⟩, rfl⟩, rfl⟩ := h
  rfl

theorem inverts_pinInfo : Inverts Reader.rest PinInfo.encode PinInfo.Holdable PinInfo.decode := by
  refine (Reader.inverts_name "pin").bind (f := PinInfo.name) (fun pin h => h.name) fun name _ => ?_
  refine Reader.inverts_u64.bind (f := PinInfo.seqno) (fun pin h => h.1.seqno) fun seqno _ => ?_
  refine Reader.inverts_u64.last (f := PinInfo.createdUnixMs) (fun pin h => h.1.1.createdUnixMs)
    fun ms _ pin h => ?_
  obtain ⟨⟨⟨-, rfl⟩, rfl⟩, rfl⟩ := h
  rfl

namespace ManifestData

/-- The format has the sections the manifest uses. -/
structure CarriedBy (m : ManifestData) (format : ℕ) : Prop where
  identity : format < MANIFEST_FORMAT_IDENTITY → (m.identity, m.pendingFork) = (none, none)
  pins : format < MANIFEST_FORMAT_PINS → m.pins = []

theorem inverts_identitySections (format : ℕ) : Inverts Reader.rest
    (fun ids : Option StoreIdentity × Option PendingFork =>
      if MANIFEST_FORMAT_IDENTITY ≤ format then
      putOptional StoreIdentity.encode ids.1 ++ putOptional PendingFork.encode ids.2 else [])
    (fun ids => ((∀ id ∈ ids.1, id.Holdable) ∧ ∀ pf ∈ ids.2, pf.Holdable) ∧
      (format < MANIFEST_FORMAT_IDENTITY → ids = (none, none))) (identitySections format) := by
  unfold identitySections
  split
  · refine (Reader.inverts_optional (by decide) (by decide) inverts_storeIdentity).bind
      (f := Prod.fst) (fun ids h => h.1.1) fun identity _ => ?_
    refine (Reader.inverts_optional (by decide) (by decide) inverts_pendingFork).last
      (f := Prod.snd) (fun ids h => h.1.1.2) fun pendingFork _ ids h => ?_
    obtain ⟨⟨-, rfl⟩, rfl⟩ := h
    rfl
  · exact Inverts.pure fun ids h => h.2 (by omega)

theorem inverts_pinSection (format : ℕ) : Inverts Reader.rest
    (fun pins : List PinInfo => if MANIFEST_FORMAT_PINS ≤ format then
      putList PinInfo.encode pins else [])
    (fun pins => Listed PinInfo.Holdable pins ∧ (format < MANIFEST_FORMAT_PINS → pins = []))
    (pinSection format) := by
  unfold pinSection
  split
  · exact (Reader.inverts_counted inverts_pinInfo).mono fun pins h => h.1
  · exact Inverts.pure fun pins h => h.2 (by omega)

theorem inverts_sections (format : ℕ) : Inverts Reader.rest (payloadAs format)
    (fun m => m.Holdable ∧ m.CarriedBy format) (sections format) := by
  unfold sections
  refine Reader.inverts_u64.bind (f := nextFileId) (fun m h => h.1.nextFileId) fun next _ => ?_
  refine Reader.inverts_u64.bind (f := lastFlushedSeqno) (fun m h => h.1.1.lastFlushedSeqno)
    fun flushed _ => ?_
  refine Reader.inverts_u64.bind (f := walFloor) (fun m h => h.1.1.1.walFloor) fun floor _ => ?_
  refine (Reader.inverts_counted (Reader.inverts_counted inverts_runMeta)).bind (f := levels)
    (fun m h => h.1.1.1.1.levels) fun levels _ => ?_
  refine (Reader.inverts_counted Reader.inverts_u64).bind (f := vlogLive)
    (fun m h => h.1.1.1.1.1.vlogLive) fun live _ => ?_
  refine Reader.inverts_u64.bind (f := vlogHead) (fun m h => h.1.1.1.1.1.1.vlogHead)
    fun head _ => ?_
  refine (Reader.inverts_counted Reader.inverts_pair).bind (f := vlogRetired)
    (fun m h => h.1.1.1.1.1.1.1.vlogRetired) fun retired _ => ?_
  refine (Reader.inverts_counted Reader.inverts_pair).bind (f := discard)
    (fun m h => h.1.1.1.1.1.1.1.1.discard) fun discard _ => ?_
  refine (inverts_identitySections format).bind
    (f := fun m : ManifestData => (m.identity, m.pendingFork)) (fun m h => ?_) fun ids _ => ?_
  · have hm := h.1.1.1.1.1.1.1.1
    exact ⟨⟨hm.1.identity, hm.1.pendingFork⟩, hm.2.identity⟩
  refine (inverts_pinSection format).last (f := pins) (fun m h => ?_) fun pins _ m h => ?_
  · have hm := h.1.1.1.1.1.1.1.1.1
    exact ⟨hm.1.pins, hm.2.pins⟩
  obtain ⟨⟨⟨⟨⟨⟨⟨⟨⟨⟨-, rfl⟩, rfl⟩, rfl⟩, rfl⟩, rfl⟩, rfl⟩, rfl⟩, rfl⟩, rfl⟩, rfl⟩ := h
  rfl

/-- What a manifest of the format holds of it. -/
def heldBy (m : ManifestData) (format : ℕ) : ManifestData :=
  { m with
    identity := if MANIFEST_FORMAT_IDENTITY ≤ format then m.identity else none
    pendingFork := if MANIFEST_FORMAT_IDENTITY ≤ format then m.pendingFork else none
    pins := if MANIFEST_FORMAT_PINS ≤ format then m.pins else [] }

theorem carriedBy_heldBy (m : ManifestData) (format : ℕ) : (m.heldBy format).CarriedBy format := by
  refine ⟨fun h => ?_, fun h => ?_⟩
  · show ((if _ then _ else _), (if _ then _ else _)) = _
    rw [if_neg (by omega), if_neg (by omega)]
  · show (if _ then _ else _) = _
    rw [if_neg (by omega)]

theorem Holdable.heldBy {m : ManifestData} (h : m.Holdable) (format : ℕ) :
    (m.heldBy format).Holdable := by
  refine ⟨h.nextFileId, h.lastFlushedSeqno, h.walFloor, h.levels, h.vlogLive, h.vlogHead,
    h.vlogRetired, h.discard, fun id hid => ?_, fun pf hpf => ?_, ?_⟩
  · have hid : id ∈ (if MANIFEST_FORMAT_IDENTITY ≤ format then m.identity else none) := hid
    split at hid
    · exact h.identity id hid
    · exact nomatch hid
  · have hpf : pf ∈ (if MANIFEST_FORMAT_IDENTITY ≤ format then m.pendingFork else none) := hpf
    split at hpf
    · exact h.pendingFork pf hpf
    · exact nomatch hpf
  · show Listed PinInfo.Holdable (if MANIFEST_FORMAT_PINS ≤ format then m.pins else [])
    split
    · exact h.pins
    · exact ⟨Nat.two_pow_pos 64, fun pin hpin => absurd hpin List.not_mem_nil⟩

theorem payloadAs_heldBy (m : ManifestData) (format : ℕ) :
    (m.heldBy format).payloadAs format = m.payloadAs format := by
  unfold payloadAs ManifestData.heldBy
  by_cases hids : MANIFEST_FORMAT_IDENTITY ≤ format
  · by_cases hpins : MANIFEST_FORMAT_PINS ≤ format
    · simp only [if_pos hids, if_pos hpins]
    · simp only [if_pos hids, if_neg hpins]
  · by_cases hpins : MANIFEST_FORMAT_PINS ≤ format
    · simp only [if_neg hids, if_pos hpins]
    · simp only [if_neg hids, if_neg hpins]

/-- Nothing is lost exactly from the selected format on. -/
theorem heldBy_eq_iff {m : ManifestData} {format : ℕ} (hformat : MANIFEST_FORMAT ≤ format) :
    m.heldBy format = m ↔ m.format ≤ format := by
  obtain ⟨nextFileId, flushed, floor, levels, live, head, retired, discard, identity,
      pendingFork, pins⟩ := m
  simp only [heldBy, ManifestData.format, ManifestData.mk.injEq, true_and]
  by_cases hpins : MANIFEST_FORMAT_PINS ≤ format
  · have hids : MANIFEST_FORMAT_IDENTITY ≤ format := le_trans (by decide) hpins
    simp only [if_pos hpins, if_pos hids, true_and, true_iff]
    split
    · exact hpins
    · split
      · exact hids
      · exact hformat
  · by_cases hids : MANIFEST_FORMAT_IDENTITY ≤ format
    · simp only [if_neg hpins, if_pos hids, true_and]
      cases pins with
      | nil =>
        simp only [List.isEmpty_nil, not_true_eq_false, if_false, true_iff]
        split
        · exact hids
        · exact hformat
      | cons pin pins => simp [hpins]
    · simp only [if_neg hpins, if_neg hids]
      cases pins with
      | nil => cases identity <;> cases pendingFork <;> simp [hids, hformat]
      | cons pin pins => simp [hpins]

theorem inverts_fields {format : ℕ}
    (hformat : MANIFEST_FORMAT ≤ format ∧ format ≤ MANIFEST_FORMAT_PINS) :
    Inverts Reader.rest (fun m => putU64 MANIFEST_MAGIC ++ (putU32 format ++ payloadAs format m))
      (fun m => m.Holdable ∧ m.CarriedBy format) fields := by
  unfold fields
  refine Reader.inverts_u64.bind (f := fun _ => MANIFEST_MAGIC) (fun m h => by decide)
    fun magic _ => ?_
  split
  · rename_i hmagic
    exact fun m h => absurd h.2.symm hmagic
  · refine Reader.inverts_u32.bind (f := fun _ => format) (fun m h => ?_) fun read _ => ?_
    · exact lt_of_le_of_lt hformat.2 (by decide)
    · split
      · rintro m ⟨⟨hm, -⟩, rfl⟩
        exact inverts_sections _ hm
      · rename_i hread
        rintro m ⟨-, rfl⟩
        exact absurd hformat hread

variable {crc : Bytes → Fin (2 ^ 32)}

theorem decode_append {body : Bytes} (hlen : 12 ≤ body.length) :
    decode crc (body ++ putU32 (crc body).val) = Reader.decodeAll fields body := by
  have hfour : (putU32 (crc body).val).length = 4 := length_putLe 4 _
  have hlen' : (body ++ putU32 (crc body).val).length = body.length + 4 := by
    rw [List.length_append, hfour]
  have htail : slice (body ++ putU32 (crc body).val) body.length (body.length + 4) =
      .ok (putU32 (crc body).val) := by
    rw [slice_eq (by omega) (by omega), List.drop_left, List.take_of_length_le (by omega)]
  have hbody : slice (body ++ putU32 (crc body).val) 0 body.length = .ok body := by
    rw [slice_eq (Nat.zero_le _) (by omega), List.drop_zero, Nat.sub_zero, List.take_left]
  have hstored : readLe (putU32 (crc body).val) = (crc body).val := readLe_putLe (crc body).isLt
  unfold decode
  rw [if_neg (by omega), hlen', Nat.add_sub_cancel]
  simp only
  rw [htail]
  show Except.bind (array 4 (putU32 (crc body).val)) _ = _
  rw [array, if_pos hfour]
  show Except.bind (slice _ 0 body.length) _ = _
  rw [hbody]
  show (if (crc body).val ≠ readLe (putU32 (crc body).val) then _ else _) = _
  rw [hstored, if_neg (not_not.mpr rfl)]

/-- **A manifest written at any format** decodes to what the format holds of it. -/
theorem decode_encodeAs {m : ManifestData} {format : ℕ} (hm : m.Holdable)
    (hformat : MANIFEST_FORMAT ≤ format ∧ format ≤ MANIFEST_FORMAT_PINS)
    (hsize : (m.encodeAs crc format).length < 2 ^ 64) : decode crc (m.encodeAs crc format) =
      .ok (m.heldBy format) := by
  have hcarried : m.encodeAs crc format =
      (putU64 MANIFEST_MAGIC ++ (putU32 format ++ payloadAs format (m.heldBy format))) ++
      putU32 (crc (putU64 MANIFEST_MAGIC ++
        (putU32 format ++ payloadAs format (m.heldBy format)))).val := by
    rw [payloadAs_heldBy]
    rfl
  have htwelve : 12 ≤
      (putU64 MANIFEST_MAGIC ++ (putU32 format ++ payloadAs format (m.heldBy format))).length := by
    rw [List.length_append, List.length_append, putU64, putU32, length_putLe, length_putLe]
    omega
  rw [hcarried, List.length_append] at hsize
  rw [hcarried, decode_append htwelve]
  have hall := Reader.decodeAll_of_inverts (inverts_fields hformat) (a := m.heldBy format)
    ⟨hm.heldBy format, carriedBy_heldBy m format⟩ (by rw [List.append_nil]; omega)
  rw [List.append_nil] at hall
  exact hall

theorem avoids_sections (format : ℕ) : Avoids (sections format) .panic := by
  have hruns : Avoids RunMeta.decode .panic :=
    Reader.avoids_u64.bind fun _ => (Reader.avoids_counted Reader.avoids_u64).bind fun _ =>
      Avoids.pure _ _
  have hpair : Avoids Reader.pair .panic :=
    Reader.avoids_u64.bind fun _ => Reader.avoids_u64.bind fun _ => Avoids.pure _ _
  refine Reader.avoids_u64.bind fun _ => Reader.avoids_u64.bind fun _ =>
    Reader.avoids_u64.bind fun _ =>
    (Reader.avoids_counted (Reader.avoids_counted hruns)).bind fun _ =>
    (Reader.avoids_counted Reader.avoids_u64).bind fun _ => Reader.avoids_u64.bind fun _ =>
    (Reader.avoids_counted hpair).bind fun _ => (Reader.avoids_counted hpair).bind fun _ =>
    Avoids.bind ?_ fun _ => Avoids.bind ?_ fun _ => Avoids.pure _ _
  · unfold identitySections
    split
    · exact (Reader.avoids_optional avoids_storeIdentity).bind fun _ =>
        (Reader.avoids_optional avoids_pendingFork).bind fun _ => Avoids.pure _ _
    · exact Avoids.pure _ _
  · unfold pinSection
    split
    · exact Reader.avoids_counted avoids_pinInfo
    · exact Avoids.pure _ _

theorem avoids_fields : Avoids fields .panic := by
  unfold fields
  refine Reader.avoids_u64.bind fun magic => ?_
  split
  · exact Avoids.throw (by simp)
  · refine Reader.avoids_u32.bind fun format => ?_
    split
    · exact avoids_sections format
    · exact Avoids.throw (by simp)

theorem yields_sections (format : ℕ) : Yields (sections format) Holdable := by
  have hids : Yields (identitySections format) fun ids => (∀ id ∈ ids.1, id.Holdable) ∧
      ∀ pf ∈ ids.2, pf.Holdable := by
    unfold identitySections
    split
    · exact (Reader.yields_optional yields_storeIdentity).bind fun _ hid =>
        (Reader.yields_optional yields_pendingFork).bind fun _ hpf => .pure ⟨hid, hpf⟩
    · exact .pure ⟨fun _ h => absurd h (by simp), fun _ h => absurd h (by simp)⟩
  have hpins : Yields (pinSection format) (Listed PinInfo.Holdable) := by
    unfold pinSection
    split
    · exact Reader.yields_counted yields_pinInfo
    · exact .pure ⟨Nat.two_pow_pos 64, fun _ h => absurd h List.not_mem_nil⟩
  exact Reader.yields_u64.bind fun _ hnext => Reader.yields_u64.bind fun _ hlast =>
    Reader.yields_u64.bind fun _ hfloor =>
    (Reader.yields_counted (Reader.yields_counted yields_runMeta)).bind fun _ hlevels =>
    (Reader.yields_counted Reader.yields_u64).bind fun _ hlive =>
      Reader.yields_u64.bind fun _ hhead =>
    (Reader.yields_counted Reader.yields_pair).bind fun _ hretired =>
    (Reader.yields_counted Reader.yields_pair).bind fun _ hdiscard => hids.bind fun _ hids =>
      hpins.bind fun _ hpins =>
    .pure ⟨hnext, hlast, hfloor, hlevels, hlive, hhead, hretired, hdiscard, hids.1, hids.2, hpins⟩

/-- **What is decoded** can be written again. -/
theorem decode_holdable {buf : Bytes} {m : ManifestData} (h : decode crc buf = .ok m) :
    m.Holdable := by
  -- whatever the fields hold, the decoder checked
  have hfields : Yields fields Holdable := by
    refine Reader.yields_u64.bind fun magic _ => ?_
    split
    · exact .throw _
    · refine (show Yields Reader.u32 fun _ => True from fun _ _ _ _ => trivial).bind
        fun format _ => ?_
      split
      · exact yields_sections format
      · exact .throw _
  unfold decode at h
  split at h
  · exact nomatch h
  · obtain ⟨tail, -, h⟩ := bind_eq_ok.mp h
    obtain ⟨stored, -, h⟩ := bind_eq_ok.mp h
    obtain ⟨body, -, h⟩ := bind_eq_ok.mp h
    split at h
    · exact nomatch h
    · unfold Reader.decodeAll at h
      split at h
      · cases hrun : fields.run ⟨body, 0, Nat.zero_le _, ‹_›⟩ with
        | error e =>
          rw [hrun] at h
          exact nomatch h
        | ok r =>
          rw [hrun] at h
          obtain rfl : r.1 = m := Except.ok.inj h
          exact hfields hrun
      · exact nomatch h

/-- **No bytes** make the decoder index out of range. -/
theorem decode_ne_panic {buf : Bytes} (h : buf.length < 2 ^ 64) :
    decode crc buf ≠ .error .panic := by
  unfold decode
  split
  · intro heq
    cases heq
  · have hlen : ((buf.drop (buf.length - 4)).take (buf.length - (buf.length - 4))).length = 4 := by
      rw [List.length_take, List.length_drop]
      omega
    have hbody : ((buf.drop 0).take (buf.length - 4 - 0)).length < 2 ^ 64 := by
      rw [List.length_take, List.length_drop]
      omega
    simp only
    rw [slice_eq (by omega) le_rfl, slice_eq (Nat.zero_le _) (by omega)]
    show Except.bind (array 4 _) _ ≠ _
    rw [array, if_pos hlen]
    show (if _ then _ else _) ≠ _
    split
    · intro heq
      cases heq
    · exact Reader.decodeAll_ne_panic avoids_fields hbody

end ManifestData

/-! ### Generation numbers -/

def ascii (text : List Char) : Bytes := text.map fun c => byte c.toNat

/-- The decimal digits of a number, at most `fuel` of them. -/
def decimalUpTo : ℕ → ℕ → Bytes
  | 0, _ => []
  | fuel + 1, n => (if n < 10 then [] else decimalUpTo fuel (n / 10)) ++ [byte (48 + n % 10)]

/-- A 64-bit number, padded with zeros to six digits. -/
def decimalPadded (n : ℕ) : Bytes :=
  List.replicate (6 - (decimalUpTo 20 n).length) (byte 48) ++ decimalUpTo 20 n

/-- `u64::from_str` behind an optional sign. -/
def parseDigits : ℕ → Bytes → Option ℕ
  | acc, [] => some acc
  | acc, b :: bs =>
    if byteWithin b 48 57 ∧ acc * 10 + (b.val - 48) < 2 ^ 64 then
      parseDigits (acc * 10 + (b.val - 48)) bs else none

def parseU64 : Bytes → Option ℕ
  | [] => none
  | b :: bs =>
    if b = byte 43 then (if bs.isEmpty then none else parseDigits 0 bs) else parseDigits 0 (b :: bs)

/-- The UTF-8 encodings of the white-space characters. -/
def WHITE_SPACE : List Bytes :=
  [[9], [10], [11], [12], [13], [32], [0xC2, 0x85], [0xC2, 0xA0], [0xE1, 0x9A, 0x80]] ++
    ((List.range 11).map fun i => [0xE2, 0x80, byte (0x80 + i)]) ++
    [[0xE2, 0x80, 0xA8], [0xE2, 0x80, 0xA9], [0xE2, 0x80, 0xAF], [0xE2, 0x81, 0x9F],
      [0xE3, 0x80, 0x80]]

/-- Strip words off the front, at most `fuel` of them. -/
def trimFront (words : List Bytes) : ℕ → Bytes → Bytes
  | 0, bs => bs
  | fuel + 1, bs =>
    match words.find? fun w => w.isPrefixOf bs with
    | none => bs
    | some w => trimFront words fuel (bs.drop w.length)

/-- `str::trim`. -/
def trim (bs : Bytes) : Bytes :=
  let front := trimFront WHITE_SPACE bs.length bs
  (trimFront (WHITE_SPACE.map List.reverse) front.length front.reverse).reverse

/-! ### Saving and loading -/

def manifestPrefix : Bytes := ascii ['M', 'A', 'N', 'I', 'F', 'E', 'S', 'T', '-']

def manifestName (gen : ℕ) : Bytes := manifestPrefix ++ decimalPadded gen

def CURRENT : Bytes := ascii ['C', 'U', 'R', 'R', 'E', 'N', 'T']
def CURRENT_TMP : Bytes := CURRENT ++ ascii ['.', 't', 'm', 'p']

/-- The files of a directory by their names. -/
abbrev DirFiles := Bytes → Option Bytes

/-- `atomic_write` of CURRENT: a temporary file is renamed over it. -/
def writeCurrent (dir : DirFiles) (contents : Bytes) : DirFiles :=
  let dir := Function.update dir CURRENT_TMP (some contents)
  Function.update (Function.update dir CURRENT (dir CURRENT_TMP)) CURRENT_TMP none

/-- `save`, when no file operation fails. -/
def ManifestData.save (crc : Bytes → Fin (2 ^ 32)) (dir : DirFiles) (gen : ℕ)
    (data : ManifestData) : DirFiles :=
  writeCurrent (Function.update dir (manifestName gen) (some (data.encode crc)))
    (manifestName gen ++ [byte 10])

/-- The generation that a name carries. -/
def nameGeneration (name : Bytes) : Option ℕ :=
  if manifestPrefix.isPrefixOf name then parseU64 (name.drop manifestPrefix.length) else none

def readFile (dir : DirFiles) (name : Bytes) : Except Halt Bytes :=
  match dir name with
  | none => .error (.error (.io "entity not found"))
  | some bytes => .ok bytes

/-- `load`; the error about CURRENT quotes its text. -/
def ManifestData.load (crc : Bytes → Fin (2 ^ 32)) (dir : DirFiles) :
    Except Halt (ℕ × ManifestData) := do
  let cur ← readFile dir CURRENT
  if ¬ isUtf8 cur then .error (.error (.io "stream did not contain valid UTF-8"))
  else
    let name := trim cur
    match nameGeneration name with
    | none => .error (.error (.corruption "bad CURRENT contents"))
    | some gen =>
      let bytes ← readFile dir name
      let data ← ManifestData.decode crc bytes
      .ok (gen, data)

theorem parseDigits_append (acc : ℕ) (as bs : Bytes) :
    parseDigits acc (as ++ bs) = (parseDigits acc as).bind fun n => parseDigits n bs := by
  induction as generalizing acc with
  | nil => rfl
  | cons a as ih =>
    rw [List.cons_append, parseDigits, parseDigits]
    split
    · exact ih _
    · rfl

theorem byteWithin_digit {d : ℕ} (hd : d < 10) : byteWithin (byte (48 + d)) 48 57 = true := by
  have hval : (byte (48 + d)).val = 48 + d := by
    rw [val_byte]
    omega
  unfold byteWithin
  rw [hval]
  simp only [Bool.and_eq_true, decide_eq_true_eq]
  omega

theorem parseDigits_digit {acc d : ℕ} (hd : d < 10) (hn : acc * 10 + d < 2 ^ 64) :
    parseDigits acc [byte (48 + d)] = some (acc * 10 + d) := by
  have hval : (byte (48 + d)).val - 48 = d := by
    rw [val_byte]
    omega
  rw [parseDigits, hval, if_pos ⟨byteWithin_digit hd, hn⟩]
  rfl

theorem parseDigits_decimalUpTo {fuel n : ℕ} (hfuel : n < 10 ^ fuel) (hn : n < 2 ^ 64) :
    parseDigits 0 (decimalUpTo fuel n) = some n := by
  induction fuel generalizing n with
  | zero =>
    obtain rfl : n = 0 := by omega
    rfl
  | succ fuel ih =>
    have hlast : n % 10 < 10 := Nat.mod_lt _ (by decide)
    unfold decimalUpTo
    rw [parseDigits_append]
    split
    · rename_i hsmall
      rw [Nat.mod_eq_of_lt hsmall]
      show parseDigits 0 [byte (48 + n)] = _
      rw [parseDigits_digit hsmall (by omega)]
      congr 1
      omega
    · rw [ih (by rw [Nat.pow_succ] at hfuel; omega) (by omega)]
      show parseDigits (n / 10) [byte (48 + n % 10)] = _
      rw [parseDigits_digit hlast (by omega)]
      congr 1
      omega

/-- The padded text is digits, six of them at least. -/
theorem decimalPadded_digits (n : ℕ) :
    6 ≤ (decimalPadded n).length ∧ ∀ b ∈ decimalPadded n, byteWithin b 48 57 = true := by
  have hdigits : ∀ fuel n, ∀ b ∈ decimalUpTo fuel n, byteWithin b 48 57 = true := by
    intro fuel
    induction fuel with
    | zero => exact fun n b hb => absurd hb List.not_mem_nil
    | succ fuel ih =>
      intro n b hb
      unfold decimalUpTo at hb
      rcases List.mem_append.mp hb with hb | hb
      · split at hb
        · exact absurd hb List.not_mem_nil
        · exact ih _ b hb
      · obtain rfl := List.mem_singleton.mp hb
        exact byteWithin_digit (Nat.mod_lt _ (by decide))
  unfold decimalPadded
  refine ⟨by rw [List.length_append, List.length_replicate]; omega, fun b hb => ?_⟩
  rcases List.mem_append.mp hb with hb | hb
  · rw [(List.mem_replicate.mp hb).2]
    decide
  · exact hdigits _ _ b hb

theorem parseDigits_zeros (k : ℕ) (bs : Bytes) :
    parseDigits 0 (List.replicate k (byte 48) ++ bs) = parseDigits 0 bs := by
  induction k with
  | zero => rfl
  | succ k ih =>
    rw [List.replicate_succ, List.cons_append, parseDigits, if_pos (by decide)]
    exact ih

theorem parseU64_decimalPadded {n : ℕ} (hn : n < 2 ^ 64) : parseU64 (decimalPadded n) = some n := by
  have hparse : parseDigits 0 (decimalPadded n) = some n := by
    unfold decimalPadded
    rw [parseDigits_zeros, parseDigits_decimalUpTo (by omega) hn]
  obtain ⟨hlen, hdigits⟩ := decimalPadded_digits n
  cases htext : decimalPadded n with
  | nil =>
    rw [htext] at hlen
    exact absurd hlen (by decide)
  | cons b bs =>
    rw [htext] at hparse hdigits
    have hsign : b ≠ byte 43 := by
      rintro rfl
      exact absurd (hdigits _ List.mem_cons_self) (by decide)
    rw [parseU64, if_neg hsign, hparse]

theorem nameGeneration_manifestName {gen : ℕ} (h : gen < 2 ^ 64) :
    nameGeneration (manifestName gen) = some gen := by
  unfold nameGeneration manifestName
  rw [if_pos (List.isPrefixOf_iff_prefix.mpr (List.prefix_append _ _)), List.drop_left,
    parseU64_decimalPadded h]

/-- A text that starts with no word of the list stays. -/
theorem trimFront_of_head {words : List Bytes} {b : Byte} {bs : Bytes} (fuel : ℕ)
    (h : ∀ w ∈ words, w.head? ≠ some b ∧ w ≠ []) : trimFront words fuel (b :: bs) = b :: bs := by
  cases fuel with
  | zero => rfl
  | succ fuel =>
    have hnone : words.find? (fun w => w.isPrefixOf (b :: bs)) = none := by
      rw [List.find?_eq_none]
      intro w hw hinit
      obtain ⟨hhead, hne⟩ := h w hw
      obtain ⟨more, hmore⟩ := List.isPrefixOf_iff_prefix.mp hinit
      cases w with
      | nil => exact hne rfl
      | cons c w =>
        obtain ⟨rfl, -⟩ := List.cons.inj hmore
        exact hhead rfl
    unfold trimFront
    rw [hnone]

theorem trim_manifestName (gen : ℕ) : trim (manifestName gen ++ [byte 10]) = manifestName gen := by
  have hhead : manifestName gen ++ [byte 10] =
      byte 77 :: (manifestPrefix.tail ++ decimalPadded gen ++ [byte 10]) := rfl
  have hfront : trimFront WHITE_SPACE (manifestName gen ++ [byte 10]).length
      (manifestName gen ++ [byte 10]) = manifestName gen ++ [byte 10] := by
    rw [hhead]
    exact trimFront_of_head _ (by decide)
  -- behind the newline the text ends in a digit
  obtain ⟨hlen, hdigits⟩ := decimalPadded_digits gen
  obtain ⟨c, cs, hcs⟩ : ∃ c cs, (decimalPadded gen).reverse = c :: cs := by
    cases hr : (decimalPadded gen).reverse with
    | nil =>
      rw [List.reverse_eq_nil_iff.mp hr] at hlen
      exact absurd hlen (by decide)
    | cons c cs => exact ⟨c, cs, rfl⟩
  have hdigit : byteWithin c 48 57 = true :=
    hdigits c (List.mem_reverse.mp (hcs ▸ List.mem_cons_self))
  have hname : (manifestName gen).reverse = c :: (cs ++ manifestPrefix.reverse) := by
    rw [manifestName, List.reverse_append, hcs]
    rfl
  have hwords : ∀ w ∈ WHITE_SPACE.map List.reverse, (∀ b ∈ w.head?, byteWithin b 48 57 = false) ∧
      w ≠ [] := by
    decide +kernel
  have hstay : ∀ fuel, trimFront (WHITE_SPACE.map List.reverse) fuel (manifestName gen).reverse =
      (manifestName gen).reverse := by
    intro fuel
    rw [hname]
    refine trimFront_of_head fuel fun w hw => ⟨fun h => ?_, (hwords w hw).2⟩
    exact absurd ((hwords w hw).1 c h) (by rw [hdigit]; decide)
  have hback : (manifestName gen ++ [byte 10]).reverse = byte 10 :: (manifestName gen).reverse :=
    List.reverse_append
  have hnewline : (WHITE_SPACE.map List.reverse).find?
      (fun w => w.isPrefixOf (byte 10 :: (manifestName gen).reverse)) = some [byte 10] := rfl
  unfold trim
  simp only
  rw [hfront, hback, List.length_append, List.length_singleton, trimFront, hnewline]
  simp only [List.length_singleton, List.drop_one, List.tail_cons]
  rw [hstay, List.reverse_reverse]

theorem ascii_manifestName (gen : ℕ) : ∀ b ∈ manifestName gen ++ [byte 10], b.val < 0x80 := by
  intro b hb
  rcases List.mem_append.mp hb with hb | hb
  · rcases List.mem_append.mp hb with hb | hb
    · exact (by decide +kernel : ∀ b ∈ manifestPrefix, b.val < 0x80) b hb
    · have hdigit := (decimalPadded_digits gen).2 b hb
      simp only [byteWithin, Bool.and_eq_true, decide_eq_true_eq] at hdigit
      omega
  · obtain rfl := List.mem_singleton.mp hb
    decide

namespace ManifestData

variable {crc : Bytes → Fin (2 ^ 32)}

/-- The selected format carries the manifest. -/
theorem decode_encode {m : ManifestData} (hm : m.Holdable)
    (hsize : (m.encode crc).length < 2 ^ 64) :
    decode crc (m.encode crc) = .ok m := by
  have hformat : MANIFEST_FORMAT ≤ m.format ∧ m.format ≤ MANIFEST_FORMAT_PINS := by
    unfold ManifestData.format
    split
    · decide
    · split
      · decide
      · decide
  unfold encode at hsize ⊢
  rw [decode_encodeAs hm hformat hsize, (heldBy_eq_iff hformat.1).mpr le_rfl]

theorem load_holdable {dir : DirFiles} {gen : ℕ} {m : ManifestData}
    (h : load crc dir = .ok (gen, m)) : m.Holdable := by
  unfold load at h
  obtain ⟨cur, -, h⟩ := bind_eq_ok.mp h
  split at h
  · exact nomatch h
  · simp only at h
    split at h
    · exact nomatch h
    · obtain ⟨bytes, -, h⟩ := bind_eq_ok.mp h
      obtain ⟨data, hdata, h⟩ := bind_eq_ok.mp h
      obtain ⟨-, rfl⟩ := Prod.mk.inj (Except.ok.inj h)
      exact decode_holdable hdata

/-- **Loading what was saved.** -/
theorem load_save (dir : DirFiles) {gen : ℕ} {m : ManifestData} (hgen : gen < 2 ^ 64)
    (hm : m.Holdable)
    (hsize : (m.encode crc).length < 2 ^ 64) : load crc (save crc dir gen m) = .ok (gen, m) := by
  have hname : manifestName gen ≠ CURRENT ∧ manifestName gen ≠ CURRENT_TMP :=
    ⟨fun h => absurd (List.cons.inj h).1 (by decide), fun h =>
      absurd (List.cons.inj h).1 (by decide)⟩
  have htmp : CURRENT ≠ CURRENT_TMP := by decide
  have hcurrent : readFile (save crc dir gen m) CURRENT = .ok (manifestName gen ++ [byte 10]) := by
    unfold readFile save writeCurrent
    simp only [Function.update_of_ne htmp, Function.update_self]
  have hmanifest : readFile (save crc dir gen m) (manifestName gen) = .ok (m.encode crc) := by
    unfold readFile save writeCurrent
    simp only [Function.update_of_ne hname.2, Function.update_of_ne hname.1, Function.update_self]
  unfold load
  rw [hcurrent]
  show (if ¬ isUtf8 _ then _ else _) = _
  rw [if_neg (not_not.mpr (isUtf8_of_ascii (ascii_manifestName gen)))]
  simp only [trim_manifestName, nameGeneration_manifestName hgen, hmanifest]
  show Except.bind (decode crc (m.encode crc)) _ = _
  rw [decode_encode hm hsize]
  rfl

end ManifestData

/-- **The manifest format**: every manifest decodes to itself from the format the
encoder selects, which is the lowest that carries it; what was saved is loaded;
and no bytes make the decoder panic. -/
theorem manifest_round_trip (crc : Bytes → Fin (2 ^ 32)) :
    (∀ m : ManifestData, m.Holdable → (∀ format, (m.encodeAs crc format).length < 2 ^ 64) →
      ManifestData.decode crc (m.encode crc) = .ok m ∧
      (∀ format, MANIFEST_FORMAT ≤ format → format ≤ MANIFEST_FORMAT_PINS →
        (ManifestData.decode crc (m.encodeAs crc format) = .ok m ↔ m.format ≤ format)) ∧
      ∀ (dir : DirFiles) (gen : ℕ), gen < 2 ^ 64 →
        ManifestData.load crc (ManifestData.save crc dir gen m) = .ok (gen, m)) ∧
    ∀ buf : Bytes, buf.length < 2 ^ 64 → ManifestData.decode crc buf ≠ .error .panic := by
  refine ⟨fun m hm hsize =>
    ⟨ManifestData.decode_encode hm (hsize _), fun format hlo hhi => ?_, fun dir gen hgen =>
    ManifestData.load_save dir hgen hm (hsize _)⟩, fun buf h => ManifestData.decode_ne_panic h⟩
  rw [ManifestData.decode_encodeAs hm ⟨hlo, hhi⟩ (hsize format), ← ManifestData.heldBy_eq_iff hlo]
  exact ⟨Except.ok.inj, congrArg _⟩

/-- A store with one table, one value-log file and one pin. -/
def pinnedManifest : ManifestData :=
  ⟨5, 9, 3, [[⟨4, [2]⟩], []], [1], 1, [], [(1, 64)], some ⟨[97], List.replicate 16 7, none⟩, none,
    [⟨[98], 6, 1000⟩]⟩

theorem manifest_round_trip_pinned : pinnedManifest.format = MANIFEST_FORMAT_PINS ∧
    ManifestData.load crc32 (ManifestData.save crc32 (fun _ => none) 12 pinnedManifest) =
      .ok (12, pinnedManifest) := by
  have hname : IsName [97] ∧ IsName [98] := by
    unfold IsName
    decide
  have hholdable : pinnedManifest.Holdable := by
    refine ⟨by decide, by decide, by decide, ?_, ?_, by decide, ?_, ?_, fun id hid => ?_,
      fun pf hpf => absurd hpf (by simp [pinnedManifest]), ?_⟩
    · refine ⟨by decide, List.forall_mem_cons.mpr ⟨⟨by decide, fun r hr => ?_⟩,
        List.forall_mem_singleton.mpr ?_⟩⟩
      · obtain rfl := List.mem_singleton.mp hr
        exact ⟨by decide, by decide, by decide⟩
      · exact ⟨by decide, fun r hr => absurd hr List.not_mem_nil⟩
    · exact ⟨by decide, by decide⟩
    · exact ⟨by decide, by decide⟩
    · exact ⟨by decide, by decide⟩
    · obtain rfl := Option.some_inj.mp hid
      exact ⟨hname.1, rfl, fun p hp => absurd hp (by simp)⟩
    · refine ⟨by decide, fun pin hpin => ?_⟩
      obtain rfl := List.mem_singleton.mp hpin
      exact ⟨hname.2, by decide, by decide⟩
  have hsize : ∀ format, (pinnedManifest.encodeAs crc32 format).length < 2 ^ 64 := by
    intro format
    have hpayload : (pinnedManifest.payloadAs format).length ≤ 1000 := by
      unfold ManifestData.payloadAs
      by_cases hpins : MANIFEST_FORMAT_PINS ≤ format
      · have hids : MANIFEST_FORMAT_IDENTITY ≤ format := le_trans (by decide) hpins
        simp only [if_pos hpins, if_pos hids]
        decide +kernel
      · by_cases hids : MANIFEST_FORMAT_IDENTITY ≤ format
        · simp only [if_neg hpins, if_pos hids]
          decide +kernel
        · simp only [if_neg hpins, if_neg hids]
          decide +kernel
    unfold ManifestData.encodeAs
    simp only [List.length_append, putU64, putU32, length_putLe]
    omega
  exact ⟨rfl, ((manifest_round_trip crc32).1 pinnedManifest hholdable hsize).2.2 _ 12 (by decide)⟩

end Fluent31
