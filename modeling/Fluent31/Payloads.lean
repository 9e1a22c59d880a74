/-
The payloads of replication frames, both ways (`fluent-replication/src/proto.rs`).

The greeting, the slice manifest and the stream batch are decoded field by
field, so each decoder is shown to read exactly the encodings of the values
whose lengths and counts fit their 32-bit fields.

* `payloads_exact` — all three decode to what was encoded, decode nothing but
  encodings, and take no cut or padded payload for another message.
-/
import Fluent31.EdgeStore
import Fluent31.PushFrames
import Fluent31.Lib.Codec

namespace Fluent31

open Decoder

/-! ### Fields -/

namespace Rd

theorem codec_le (n : ℕ) : Codec id (putLe n) (· < 256 ^ n) (Rd.le n : Decoder Bytes String ℕ) := by
  refine ⟨fun v hv bs rest hbs => ⟨rest, ?_, rfl⟩, fun bs v rest hrun => ?_⟩
  · obtain rfl : bs = putLe n v ++ rest := hbs
    exact le_putLe hv rest
  · have hrun : le n bs = .ok (v, rest) := hrun
    unfold le at hrun
    split at hrun
    · exact nomatch hrun
    · rename_i hlen
      obtain ⟨rfl, rfl⟩ := Prod.mk.inj (Except.ok.inj hrun)
      have htake : (bs.take n).length = n := List.length_take_of_le (by omega)
      have hlt := readLe_lt (bs.take n)
      have hput := putLe_readLe (bs.take n)
      rw [htake] at hlt hput
      exact ⟨hlt, by rw [hput]; exact (List.take_append_drop n bs).symm⟩

theorem codec_u32 : Codec id putU32 (· < 2 ^ 32) (Rd.u32 : Decoder Bytes String ℕ) := codec_le 4

theorem codec_u64 : Codec id putU64 (· < 2 ^ 64) (Rd.u64 : Decoder Bytes String ℕ) := codec_le 8

theorem codec_u8 : Codec id (fun k => [byte k]) (· < 256) (Rd.u8 : Decoder Bytes String ℕ) := by
  refine ⟨fun k hk bs rest hbs => ⟨rest, ?_, rfl⟩, fun bs k rest hrun => ?_⟩
  · obtain rfl : bs = byte k :: rest := hbs
    show Except.ok ((byte k).val, rest) = _
    rw [val_byte, Nat.mod_eq_of_lt hk]
  · cases bs with
    | nil => exact nomatch hrun
    | cons b bs =>
      obtain ⟨rfl, rfl⟩ := Prod.mk.inj (Except.ok.inj hrun)
      exact ⟨b.isLt, congrArg (· :: bs) (Fin.ext (by rw [val_byte]; omega))⟩

theorem codec_blobExact (n : ℕ) :
    Codec id (fun bs : Bytes => bs) (·.length = n)
      (Rd.blobExact n : Decoder Bytes String Bytes) := by
  refine ⟨fun b hb bs rest hbs => ⟨rest, ?_, rfl⟩, fun bs b rest hrun => ?_⟩
  · obtain rfl : bs = b ++ rest := hbs
    show blobExact n (b ++ rest) = _
    unfold blobExact
    rw [if_neg (by rw [List.length_append, hb]; omega), List.take_left' hb, List.drop_left' hb]
  · have hrun : blobExact n bs = .ok (b, rest) := hrun
    unfold blobExact at hrun
    split at hrun
    · exact nomatch hrun
    · obtain ⟨rfl, rfl⟩ := Prod.mk.inj (Except.ok.inj hrun)
      exact ⟨List.length_take_of_le (by omega), (List.take_append_drop n bs).symm⟩

/-- A length and that many bytes. -/
theorem codec_blob : Codec id putBlob (·.length < 2 ^ 32) (Rd.blob : Decoder Bytes String Bytes) :=
  codec_u32.bind (f := List.length) (k := fun n => Rd.blobExact n) (fun _ h => h) fun n hn =>
    (codec_blobExact n).congr (fun _ => ⟨And.right, fun h => ⟨h ▸ hn, h⟩⟩) fun _ _ => rfl

/-- A count and that many items. -/
def counted {α : Type} (p : Decoder Bytes String α) : Decoder Bytes String (List α) := do
  let n ← u32
  times p n

end Rd

/-- A list under its count, which is cast to 32 bits. -/
def putCounted {α : Type} (enc : α → Bytes) (as : List α) : Bytes :=
  putU32 as.length ++ as.flatMap enc

theorem Rd.codec_counted {α : Type} {enc : α → Bytes} {ok : α → Prop} {p : Decoder Bytes String α}
    (hp : Codec id enc ok p) :
    Codec id (putCounted enc) (fun as => as.length < 2 ^ 32 ∧ ∀ a ∈ as, ok a) (Rd.counted p) :=
  Rd.codec_u32.bind (fun _ h => h.1) fun n hn =>
    (hp.times n).congr (fun _ => ⟨fun h => ⟨h.2, h.1.2⟩, fun h => ⟨⟨h.1 ▸ hn, h.2⟩, h.1⟩⟩)
      fun _ _ => rfl

/-! ### Greetings -/

def REPL_VERSION : ℕ := 2

/-- What `encode_hello` sends: the name, the instance and the visible seqno under
the protocol version. -/
def Hello.current (name : Bytes) (instanceId : InstanceId) (visible : ℕ) : Hello :=
  ⟨REPL_VERSION, name, instanceId, visible⟩

/-- `decodeHello` before the check that nothing is left. -/
def Hello.decode : Decoder Bytes String Hello := do
  let version ← Rd.u32
  let name ← Rd.blob
  if isUtf8 name then
    let id ← Rd.blobExact 16
    let visible ← Rd.u64
    pure ⟨version, name, id, visible⟩
  else throw "name not UTF-8"

theorem whole_pure {α : Type} (a : α) (bs : Bytes) :
    whole "trailing bytes in payload" (pure a) bs = (Rd.done bs).map fun _ => a := by
  cases bs with
  | nil => rfl
  | cons b bs => rfl

theorem decodeHello_eq : decodeHello = whole "trailing bytes in payload" Hello.decode := by
  funext bs
  unfold decodeHello Hello.decode
  rw [whole_bind]
  refine congrArg (Except.bind (Rd.u32 bs)) (funext fun version => ?_)
  rw [whole_bind]
  refine congrArg (Except.bind (Rd.blob version.2)) (funext fun name => ?_)
  split
  · rw [whole_bind]
    refine congrArg (Except.bind (Rd.blobExact 16 name.2)) (funext fun id => ?_)
    rw [whole_bind]
    exact congrArg (Except.bind (Rd.u64 id.2)) (funext fun visible => (whole_pure _ visible.2).symm)
  · rfl

theorem codec_hello : Codec id encodeHello Hello.Sendable Hello.decode := by
  refine Rd.codec_u32.bind (f := Hello.version) (fun h hs => hs.version) fun version hversion => ?_
  refine Rd.codec_blob.bind (f := Hello.name) (fun h hs => hs.1.name.2) fun name hname => ?_
  split
  · rename_i hutf8
    refine (Rd.codec_blobExact 16).bind (f := Hello.instanceId) (fun h hs => hs.1.1.instanceId)
      fun id hid => ?_
    refine Rd.codec_u64.last (f := Hello.visibleSeqno) (fun h hs => hs.1.1.1.visible)
      fun visible hvisible h => ?_
    constructor
    · rintro ⟨⟨⟨⟨-, rfl⟩, rfl⟩, rfl⟩, rfl⟩
      rfl
    · rintro rfl
      exact ⟨⟨⟨⟨⟨hversion, ⟨hutf8, hname⟩, hid, hvisible⟩, rfl⟩, rfl⟩, rfl⟩, rfl⟩
  · rename_i hutf8
    refine Codec.throw fun h hs => hutf8 ?_
    rw [← hs.2]
    exact hs.1.1.name.1

/-! ### Slices -/

/-- `[u64 id][u64 size][blob min][blob max]`. -/
def SliceTable.encode (t : SliceTable) : Bytes :=
  putU64 t.id ++ (putU64 t.size ++ (putBlob t.minUkey ++ putBlob t.maxUkey))

def SliceTable.decode : Decoder Bytes String SliceTable := do
  let id ← Rd.u64
  let size ← Rd.u64
  let minUkey ← Rd.blob
  let maxUkey ← Rd.blob
  pure ⟨id, size, minUkey, maxUkey⟩

/-- The numbers are 64-bit ones and the bounds shorter than 4 GiB. -/
structure SliceTable.Fits (t : SliceTable) : Prop where
  id : t.id < 2 ^ 64
  size : t.size < 2 ^ 64
  minUkey : t.minUkey.length < 2 ^ 32
  maxUkey : t.maxUkey.length < 2 ^ 32

theorem codec_sliceTable : Codec id SliceTable.encode SliceTable.Fits SliceTable.decode := by
  refine Rd.codec_u64.bind (f := SliceTable.id) (fun t h => h.id) fun id hid => ?_
  refine Rd.codec_u64.bind (f := SliceTable.size) (fun t h => h.1.size) fun size hsize => ?_
  refine Rd.codec_blob.bind (f := SliceTable.minUkey) (fun t h => h.1.1.minUkey)
    fun minUkey hmin => ?_
  refine Rd.codec_blob.last (f := SliceTable.maxUkey) (fun t h => h.1.1.1.maxUkey)
    fun maxUkey hmax t => ?_
  constructor
  · rintro ⟨⟨⟨⟨-, rfl⟩, rfl⟩, rfl⟩, rfl⟩
    rfl
  · rintro rfl
    exact ⟨⟨⟨⟨⟨hid, hsize, hmin, hmax⟩, rfl⟩, rfl⟩, rfl⟩, rfl⟩

/-- `[u64 id][u32 ntables]`, then the tables. -/
def SliceRun.encode (r : SliceRun) : Bytes := putU64 r.id ++ putCounted SliceTable.encode r.tables

def SliceRun.decode : Decoder Bytes String SliceRun := do
  let id ← Rd.u64
  let tables ← Rd.counted SliceTable.decode
  pure ⟨id, tables⟩

structure SliceRun.Fits (r : SliceRun) : Prop where
  id : r.id < 2 ^ 64
  tables : r.tables.length < 2 ^ 32 ∧ ∀ t ∈ r.tables, t.Fits

theorem codec_sliceRun : Codec id SliceRun.encode SliceRun.Fits SliceRun.decode := by
  refine Rd.codec_u64.bind (f := SliceRun.id) (fun r h => h.id) fun id hid => ?_
  refine (Rd.codec_counted codec_sliceTable).last (f := SliceRun.tables) (fun r h => h.1.tables)
    fun tables htables r => ?_
  constructor
  · rintro ⟨⟨-, rfl⟩, rfl⟩
    rfl
  · rintro rfl
    exact ⟨⟨⟨hid, htables⟩, rfl⟩, rfl⟩

/-- `[u64 flushed][u32 nlevels]`, then per level `[u32 nruns]` and the runs. -/
def encodeSlice (m : SliceManifest) : Bytes :=
  putU64 m.flushedSeqno ++ putCounted (putCounted SliceRun.encode) m.levels

/-- `decodeSlice` before the check that nothing is left. -/
def SliceManifest.decode : Decoder Bytes String SliceManifest := do
  let flushedSeqno ← Rd.u64
  let levels ← Rd.counted (Rd.counted SliceRun.decode)
  pure ⟨flushedSeqno, levels⟩

def decodeSlice : Bytes → Except String SliceManifest :=
  whole "trailing bytes in payload" SliceManifest.decode

structure SliceManifest.Fits (m : SliceManifest) : Prop where
  flushedSeqno : m.flushedSeqno < 2 ^ 64
  levels : m.levels.length < 2 ^ 32 ∧ ∀ runs ∈ m.levels, runs.length < 2 ^ 32 ∧ ∀ r ∈ runs, r.Fits

theorem codec_sliceManifest : Codec id encodeSlice SliceManifest.Fits SliceManifest.decode := by
  refine Rd.codec_u64.bind (f := SliceManifest.flushedSeqno) (fun m h => h.flushedSeqno)
    fun flushed hflushed => ?_
  refine (Rd.codec_counted (Rd.codec_counted codec_sliceRun)).last (f := SliceManifest.levels)
    (fun m h => h.1.levels) fun levels hlevels m => ?_
  constructor
  · rintro ⟨⟨-, rfl⟩, rfl⟩
    rfl
  · rintro rfl
    exact ⟨⟨⟨hflushed, hlevels⟩, rfl⟩, rfl⟩

/-! ### Stream batches -/

/-- A typed entry whose key and value are shorter than 4 GiB. -/
structure StreamEntry.Fits (e : StreamEntry) : Prop where
  typed : e.Typed
  key : e.key.length < 2 ^ 32
  value : (e.value.getD []).length < 2 ^ 32

/-- The kind byte of an entry. -/
def ValueKind.decode : Decoder Bytes String ValueKind := do
  match ← Rd.u8 with
  | 0 => pure .delete
  | 1 => pure .put
  | k => throw s!"bad stream entry kind {k}"

/-- The value, which only a put carries. -/
def ValueKind.decodeValue : ValueKind → Decoder Bytes String (Option Bytes)
  | .put => do
    let value ← Rd.blob
    pure (some value)
  | .delete => pure none

/-- The entry's fields one after the other. -/
def StreamEntry.fields : Decoder Bytes String StreamEntry := do
  let kind ← ValueKind.decode
  let seqno ← Rd.u64
  let commitSeqno ← Rd.u64
  let key ← Rd.blob
  let value ← kind.decodeValue
  pure ⟨key, seqno, commitSeqno, kind, value⟩

theorem StreamEntry.decode_eq : StreamEntry.decode = StreamEntry.fields := by
  -- once the kind is known both are the same steps
  have hrest : ∀ kind : ValueKind, ∀ bs : Bytes, ((Rd.u64 bs).bind fun seqno =>
      (Rd.u64 seqno.2).bind fun commitSeqno =>
      (Rd.blob commitSeqno.2).bind fun key =>
      match kind with
      | .put => (Rd.blob key.2).bind fun value =>
          .ok (⟨key.1, seqno.1, commitSeqno.1, .put, some value.1⟩, value.2)
      | .delete => .ok (⟨key.1, seqno.1, commitSeqno.1, .delete, none⟩, key.2)) =
      (do
        let seqno ← Rd.u64
        let commitSeqno ← Rd.u64
        let key ← Rd.blob
        let value ← kind.decodeValue
        pure ⟨key, seqno, commitSeqno, kind, value⟩ : Decoder Bytes String StreamEntry).run bs := by
    intro kind bs
    refine congrArg (Except.bind (Rd.u64 bs)) (funext fun seqno => ?_)
    refine congrArg (Except.bind (Rd.u64 seqno.2)) (funext fun commitSeqno => ?_)
    refine congrArg (Except.bind (Rd.blob commitSeqno.2)) (funext fun key => ?_)
    cases kind with
    | put =>
      show _ = ((Rd.blob key.2).bind _).bind _
      cases Rd.blob key.2 with
      | error e => rfl
      | ok value => rfl
    | delete => rfl
  funext bs
  show _ = StreamEntry.fields.run bs
  unfold StreamEntry.decode StreamEntry.fields ValueKind.decode
  rw [run_bind, run_bind]
  cases bs with
  | nil => rfl
  | cons b bs =>
    match b with
    | ⟨0, _⟩ => exact hrest .delete bs
    | ⟨1, _⟩ => exact hrest .put bs
    | ⟨k + 2, _⟩ => rfl

theorem codec_valueKind :
    Codec id (fun kind => [byte kind.toNat]) (fun _ => True) ValueKind.decode := by
  refine ⟨fun kind _ bs rest hbs => ⟨rest, ?_, rfl⟩, fun bs kind rest hrun => ⟨trivial, ?_⟩⟩
  · obtain rfl : bs = byte kind.toNat :: rest := hbs
    cases kind with
    | delete => rfl
    | put => rfl
  · obtain ⟨k, t, hk, hkind⟩ := run_bind_eq_ok.mp hrun
    obtain ⟨-, hbs⟩ := Rd.codec_u8.canonical hk
    match k with
    | 0 =>
      obtain ⟨rfl, rfl⟩ := Prod.mk.inj (Except.ok.inj hkind)
      exact hbs
    | 1 =>
      obtain ⟨rfl, rfl⟩ := Prod.mk.inj (Except.ok.inj hkind)
      exact hbs
    | k + 2 => exact nomatch hkind

theorem codec_value (kind : ValueKind) : Codec id
    (fun value : Option Bytes => match kind with
      | .put => putBlob (value.getD [])
      | .delete => [])
    (fun value => (value.isSome = true ↔ kind = .put) ∧ (value.getD []).length < 2 ^ 32)
    kind.decodeValue := by
  cases kind with
  | put =>
    refine (Rd.codec_blob.last (f := fun value : Option Bytes => value.getD []) (fun v h => h.2)
      fun b hb v => ?_)
    cases v with
    | none => simp
    | some v => simpa using fun h => h ▸ hb
  | delete => exact Codec.pure fun v => by cases v <;> simp

theorem codec_streamEntry : Codec id StreamEntry.encode StreamEntry.Fits StreamEntry.decode := by
  rw [StreamEntry.decode_eq]
  have hencode : StreamEntry.encode = fun e =>
      [byte e.kind.toNat] ++ (putU64 e.seqno ++ (putU64 e.commitSeqno ++
      (putBlob e.key ++ match e.kind with
        | .put => putBlob (e.value.getD [])
        | .delete => []))) := rfl
  rw [hencode]
  refine codec_valueKind.bind (f := StreamEntry.kind) (fun e h => trivial) fun kind _ => ?_
  refine Rd.codec_u64.bind (f := StreamEntry.seqno) (fun e h => h.1.typed.seqno)
    fun seqno hseqno => ?_
  refine Rd.codec_u64.bind (f := StreamEntry.commitSeqno) (fun e h => h.1.1.typed.commitSeqno)
    fun commit hcommit => ?_
  refine Rd.codec_blob.bind (f := StreamEntry.key) (fun e h => h.1.1.1.key) fun key hkey => ?_
  refine ((codec_value kind).last (f := StreamEntry.value) (fun e h => ?_)
    fun value hvalue e => ?_).congr (fun _ => Iff.rfl) fun e h => ?_
  · obtain ⟨⟨⟨⟨hfits, rfl⟩, -⟩, -⟩, -⟩ := h
    exact ⟨hfits.typed.value, hfits.value⟩
  · constructor
    · rintro ⟨⟨⟨⟨⟨-, rfl⟩, rfl⟩, rfl⟩, rfl⟩, rfl⟩
      rfl
    · rintro rfl
      exact ⟨⟨⟨⟨⟨⟨⟨hvalue.1, hseqno, hcommit⟩, hkey, hvalue.2⟩, rfl⟩, rfl⟩, rfl⟩, rfl⟩, rfl⟩
  · obtain ⟨⟨⟨⟨-, rfl⟩, -⟩, -⟩, -⟩ := h
    rfl

theorem decodeEntries_eq :
    ∀ n, decodeEntries n = (times StreamEntry.decode n : Decoder Bytes String (List StreamEntry))
  | 0 => rfl
  | n + 1 => by
    funext bs
    show (StreamEntry.decode bs).bind _ = (StreamEntry.decode bs).bind _
    refine congrArg (Except.bind (StreamEntry.decode bs)) (funext fun e => ?_)
    rw [decodeEntries_eq n]
    show ((times StreamEntry.decode n).run e.2).map _ =
      ((times StreamEntry.decode n).run e.2).bind _
    cases (times StreamEntry.decode n).run e.2 with
    | error err => rfl
    | ok out => rfl

theorem decodeStreamBatch_eq :
    decodeStreamBatch = whole "trailing bytes in payload" (Rd.counted StreamEntry.decode) := by
  funext bs
  unfold decodeStreamBatch Rd.counted
  rw [whole_bind]
  refine congrArg (Except.bind (Rd.u32 bs)) (funext fun count => ?_)
  rw [decodeEntries_eq]
  show Except.bind _ _ = Except.bind ((times StreamEntry.decode count.1).run count.2) _
  refine congrArg (Except.bind _) (funext fun out => ?_)
  exact (whole_pure out.1 out.2).symm

theorem encodeStreamBatch_eq : encodeStreamBatch = putCounted StreamEntry.encode := rfl

/-- **Replication payloads** decode to what was encoded, decode nothing but
encodings, and are not mistaken for one another when cut or padded. -/
theorem payloads_exact :
    (∀ name instanceId visible, isUtf8 name = true → name.length < 2 ^ 32 → instanceId.length = 16 →
      visible < 2 ^ 64 → decodeHello (encodeHello (.current name instanceId visible)) =
        .ok (.current name instanceId visible)) ∧
      Exact encodeHello Hello.Sendable decodeHello ∧
      Exact encodeSlice SliceManifest.Fits decodeSlice ∧
      Exact encodeStreamBatch (fun es => es.length < 2 ^ 32 ∧ ∀ e ∈ es, e.Fits)
        decodeStreamBatch := by
  refine ⟨fun name instanceId visible hutf8 hname hid hvisible =>
    ?_, ?_, codec_sliceManifest.exact _, ?_⟩
  · exact decodeHello_encode ⟨show REPL_VERSION < 2 ^ 32 by decide, ⟨hutf8, hname⟩, hid, hvisible⟩
  · rw [decodeHello_eq]
    exact codec_hello.exact _
  · rw [decodeStreamBatch_eq, encodeStreamBatch_eq]
    exact (Rd.codec_counted codec_streamEntry).exact _

example : decodeSlice (encodeSlice ⟨7, [[⟨1, [⟨3, 40, [1], [9, 9]⟩]⟩], []]⟩) =
    .ok ⟨7, [[⟨1, [⟨3, 40, [1], [9, 9]⟩]⟩], []]⟩ := by decide +kernel

end Fluent31
