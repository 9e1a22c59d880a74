/-
How large a batch's WAL record gets.

The write path checks the size of a batch twice: an estimate before values are
placed (`approxSize`), and the encoded record after.  Only the length of a
value pointer depends on the placement, so `payloadLen` bounds the record from
both sides (`length_encodeBatch`).  `recordDecided_of_threshold` says that with
a usual value threshold the placement never decides about a batch;
`wal_payload_bound` that with keys below `2 ^ 21` bytes the second check never
fails, whatever the threshold.
-/
import Fluent31.CommitSpec
import Fluent31.WalFile

namespace Fluent31

/-- Bytes of an op's entry in the record, with `ptrLen` bytes for a pointer. -/
def entryLen (ptrLen threshold : ℕ) : BatchOp → ℕ
  | .put key value =>
    1 + (putLenPrefixed key).length +
      (if threshold ≤ value.length then ptrLen else (putLenPrefixed (encodeInline value)).length)
  | .delete key => 1 + (putLenPrefixed key).length + 1

def payloadLen (ptrLen threshold : ℕ) (ops : List BatchOp) : ℕ :=
  12 + (ops.map (entryLen ptrLen threshold)).sum

/-- Bytes of a length-prefixed pointer, at least and at most. -/
def MIN_PTR : ℕ := 5
def MAX_PTR : ℕ := 27

/-- Where a batch's values are placed does not decide whether its record passes
the limit. -/
def RecordDecided (opts : Options) (ops : List BatchOp) : Prop :=
  approxSize ops < WAL_RECORD_LIMIT →
    payloadLen MAX_PTR opts.valueThreshold ops < WAL_RECORD_LIMIT ∨
      WAL_RECORD_LIMIT ≤ payloadLen MIN_PTR opts.valueThreshold ops

instance (opts : Options) (ops : List BatchOp) : Decidable (RecordDecided opts ops) :=
  inferInstanceAs (Decidable (_ → _))

theorem length_putLenPrefixed_encodePtr (p : ValuePtr) :
    MIN_PTR ≤ (putLenPrefixed (encodePtr p)).length ∧
      (putLenPrefixed (encodePtr p)).length ≤ MAX_PTR := by
  have h1 : (putUvarint (p.file % 2 ^ 64)).length ≤ 10 := length_putUvarintUpTo_le 10 _
  have h2 : (putUvarint (p.offset % 2 ^ 64)).length ≤ 10 := length_putUvarintUpTo_le 10 _
  have h3 : (putUvarint (p.len % 2 ^ 32)).length ≤ 5 := length_putUvarint_le (by decide) (by omega)
  have hptr : (encodePtr p).length = 1 + ((putUvarint (p.file % 2 ^ 64)).length +
      ((putUvarint (p.offset % 2 ^ 64)).length + (putUvarint (p.len % 2 ^ 32)).length)) := by
    simp only [encodePtr, List.length_cons, List.length_append]
    omega
  have hpre : (putUvarint (encodePtr p).length).length ≤ 1 :=
    length_putUvarint_le (by decide) (by omega)
  have hpos := fun n => length_putUvarint_pos n
  have := hpos (p.file % 2 ^ 64)
  have := hpos (p.offset % 2 ^ 64)
  have := hpos (p.len % 2 ^ 32)
  have := hpos (encodePtr p).length
  rw [putLenPrefixed, List.length_append, MIN_PTR, MAX_PTR]
  omega

theorem length_placeOp (threshold : ℕ) (v : Vlog) (op : BatchOp) :
    entryLen MIN_PTR threshold op ≤ (v.placeOp threshold op).2.encode.length ∧
      (v.placeOp threshold op).2.encode.length ≤ entryLen MAX_PTR threshold op := by
  cases op with
  | put key value =>
    have hptr := length_putLenPrefixed_encodePtr (v.append key value).1
    unfold Vlog.placeOp entryLen
    simp only
    split
    · simp only [EncEntry.encode, ReprRef.encode, List.length_cons, List.length_append]
      omega
    · simp only [EncEntry.encode, ReprRef.encode, List.length_cons, List.length_append]
      omega
  | delete key =>
    simp only [Vlog.placeOp, entryLen, EncEntry.encode, ReprRef.encode, putLenPrefixed,
      List.length_cons, List.length_append, List.length_nil]
    have : (putUvarint 0).length = 1 := rfl
    omega

/-- The record of a placed batch lies between its bounds. -/
theorem length_encodeBatch (threshold base : ℕ) (v : Vlog) (ops : List BatchOp) :
    payloadLen MIN_PTR threshold ops ≤ (encodeBatch base (v.placeOps threshold ops).2).length ∧
      (encodeBatch base (v.placeOps threshold ops).2).length ≤
        payloadLen MAX_PTR threshold ops := by
  have hentries : ∀ v : Vlog,
      (ops.map (entryLen MIN_PTR threshold)).sum ≤
          ((v.placeOps threshold ops).2.flatMap EncEntry.encode).length ∧
        ((v.placeOps threshold ops).2.flatMap EncEntry.encode).length ≤
          (ops.map (entryLen MAX_PTR threshold)).sum := by
    induction ops with
    | nil => exact fun v => ⟨le_rfl, le_rfl⟩
    | cons op ops ih =>
      intro v
      have h1 := length_placeOp threshold v op
      have h2 := ih (v.placeOp threshold op).1
      have hcons : (v.placeOps threshold (op :: ops)).2.flatMap EncEntry.encode =
          (v.placeOp threshold op).2.encode ++
            ((v.placeOp threshold op).1.placeOps threshold ops).2.flatMap EncEntry.encode := rfl
      rw [hcons, List.length_append, List.map_cons, List.map_cons, List.sum_cons, List.sum_cons]
      omega
  have h8 : (putU64 base).length = 8 := by simp [putU64, putLe]
  have h4 : (putU32 (v.placeOps threshold ops).2.length).length = 4 := by simp [putU32, putLe]
  have := hentries v
  rw [encodeBatch, List.length_append, List.length_append, h8, h4, payloadLen, payloadLen]
  omega

/-- The estimate leaves nine bytes an op, twelve for a put. -/
theorem entryLen_le {threshold : ℕ} (hthreshold : 13 ≤ threshold) (op : BatchOp)
    (h : op.approxSize < WAL_RECORD_LIMIT) :
    entryLen MAX_PTR threshold op + 9 ≤ op.approxSize ∧
      (op.kind = .put → entryLen MAX_PTR threshold op + 12 ≤ op.approxSize) := by
  have hlimit : WAL_RECORD_LIMIT = 1073741824 := rfl
  cases op with
  | put key value =>
    simp only [BatchOp.approxSize] at h ⊢
    have h1 : (putUvarint key.length).length ≤ 5 := length_putUvarint_le (by decide) (by omega)
    have h2 : (putUvarint (value.length + 1)).length ≤ 5 :=
      length_putUvarint_le (by decide) (by omega)
    have hbound : entryLen MAX_PTR threshold (.put key value) + 12 ≤ key.length +
        value.length + 32 := by
      simp only [entryLen, MAX_PTR, putLenPrefixed, encodeInline, List.length_append,
        List.length_cons]
      split <;> omega
    exact ⟨by omega, fun _ => hbound⟩
  | delete key =>
    simp only [BatchOp.approxSize] at h ⊢
    have h1 : (putUvarint key.length).length ≤ 5 := length_putUvarint_le (by decide) (by omega)
    refine ⟨?_, fun hk => absurd hk (by simp [BatchOp.kind])⟩
    simp only [entryLen, putLenPrefixed, List.length_append]
    omega

theorem sum_entryLen_le {threshold : ℕ} (hthreshold : 13 ≤ threshold) (ops : List BatchOp)
    (h : approxSize ops < WAL_RECORD_LIMIT) :
    (ops.map (entryLen MAX_PTR threshold)).sum + 9 * ops.length ≤ approxSize ops := by
  induction ops with
  | nil => exact le_rfl
  | cons op ops ih =>
    unfold approxSize at h ih ⊢
    simp only [List.map_cons, List.sum_cons, List.length_cons] at h ⊢
    have h1 := (entryLen_le hthreshold op (by omega)).1
    have h2 := ih (by omega)
    omega

/-- The estimate bounds every record but that of a lone delete. -/
theorem payloadLen_lt {threshold : ℕ} {ops : List BatchOp} (hthreshold : 13 ≤ threshold)
    (h : approxSize ops < WAL_RECORD_LIMIT) (hops : ∀ key, ops ≠ [.delete key]) :
    payloadLen MAX_PTR threshold ops < WAL_RECORD_LIMIT := by
  have hlimit : WAL_RECORD_LIMIT = 1073741824 := rfl
  have hsum := sum_entryLen_le hthreshold ops h
  rcases ops with _ | ⟨⟨key, value⟩ | ⟨key⟩, _ | ⟨op', ops⟩⟩
  · simp [payloadLen, hlimit]
  · have hle := (entryLen_le hthreshold (.put key value) (by simpa [approxSize] using h)).2 rfl
    simp only [approxSize, List.map_cons, List.map_nil, List.sum_cons, List.sum_nil,
      Nat.add_zero] at h
    simp only [payloadLen, List.map_cons, List.map_nil, List.sum_cons, List.sum_nil, Nat.add_zero]
    omega
  · simp only [List.length_cons] at hsum
    unfold payloadLen
    omega
  · exact absurd rfl (hops key)
  · simp only [List.length_cons] at hsum
    unfold payloadLen
    omega

/-- **The estimate is conservative**, with a usual value threshold, except for a
batch of one delete, whose record has one length only. -/
theorem recordDecided_of_threshold {opts : Options} (hthreshold : 13 ≤ opts.valueThreshold)
    (ops : List BatchOp) : RecordDecided opts ops := by
  intro h
  by_cases hops : ∃ key, ops = [.delete key]
  · obtain ⟨key, rfl⟩ := hops
    exact lt_or_ge (payloadLen MAX_PTR opts.valueThreshold [.delete key]) WAL_RECORD_LIMIT
  · exact Or.inl (payloadLen_lt hthreshold h fun key heq => hops ⟨key, heq⟩)

/-- A lone delete whose key has at least `2 ^ 30 - 19` bytes passes the estimate,
up to `2 ^ 30 - 17`, and its record does not pass the limit; with a usual value
threshold there is no other such batch. -/
theorem encodeBatch_long_iff {threshold base : ℕ} {v : Vlog} {ops : List BatchOp}
    (hthreshold : 13 ≤ threshold) (h : approxSize ops < WAL_RECORD_LIMIT) :
    WAL_RECORD_LIMIT ≤ (encodeBatch base (v.placeOps threshold ops).2).length ↔
      ∃ key, ops = [.delete key] ∧ WAL_RECORD_LIMIT ≤ key.length + 19 := by
  have hlimit : WAL_RECORD_LIMIT = 1073741824 := rfl
  obtain ⟨hmin, hmax⟩ := length_encodeBatch threshold base v ops
  constructor
  · intro hlong
    by_contra hnone
    have hops : ∀ key, ops ≠ [.delete key] := by
      rintro key rfl
      refine hnone ⟨key, rfl, ?_⟩
      have hkey : key.length + 16 < WAL_RECORD_LIMIT := by
        simpa [approxSize, BatchOp.approxSize] using h
      have hinit : (putUvarint key.length).length ≤ 5 := length_putUvarint_le (by decide) (by omega)
      simp only [payloadLen, entryLen, putLenPrefixed, List.map_cons, List.map_nil, List.sum_cons,
        List.sum_nil, List.length_append] at hmax
      omega
    exact absurd (lt_of_le_of_lt hmax (payloadLen_lt hthreshold h hops)) (not_lt.mpr hlong)
  · rintro ⟨key, rfl, hkey⟩
    have hinit : 5 ≤ (putUvarint key.length).length :=
      le_length_putUvarint (n := 4) (by decide) (by omega)
    simp only [payloadLen, entryLen, putLenPrefixed, List.map_cons, List.map_nil, List.sum_cons,
      List.sum_nil, List.length_append] at hmin
    omega

/-! ### Short keys -/

/-- The entry an op is placed as, wherever its value is put. -/
def BatchOp.PlacedAs (threshold : ℕ) : BatchOp → EncEntry → Prop
  | .put key value, e => e.kind = .put ∧ e.key = key ∧
      if threshold ≤ value.length then ∃ p, e.repr = .ptr p else e.repr = .inline value
  | .delete key, e => e.kind = .delete ∧ e.key = key ∧ e.repr = .empty

theorem Vlog.placeOp_placedAs (threshold : ℕ) (v : Vlog) (op : BatchOp) :
    op.PlacedAs threshold (v.placeOp threshold op).2 := by
  cases op with
  | put key value =>
    by_cases hlarge : threshold ≤ value.length
    · have hplace : (v.placeOp threshold (.put key value)).2 =
        ⟨.put, key, .ptr (v.append key value).1⟩ := by
        unfold Vlog.placeOp
        simp only [if_pos hlarge]
      rw [hplace, BatchOp.PlacedAs, if_pos hlarge]
      exact ⟨rfl, rfl, _, rfl⟩
    · have hplace : (v.placeOp threshold (.put key value)).2 = ⟨.put, key, .inline value⟩ := by
        unfold Vlog.placeOp
        simp only [if_neg hlarge]
      rw [hplace, BatchOp.PlacedAs, if_neg hlarge]
      exact ⟨rfl, rfl, rfl⟩
  | delete key => exact ⟨rfl, rfl, rfl⟩

theorem Vlog.placeOps_placedAs (threshold : ℕ) (v : Vlog) (ops : List BatchOp) :
    List.Forall₂ (BatchOp.PlacedAs threshold) ops (v.placeOps threshold ops).2 := by
  induction ops generalizing v with
  | nil => exact List.Forall₂.nil
  | cons op ops ih => exact List.Forall₂.cons (v.placeOp_placedAs threshold op) (ih _)

/-- An entry is no longer than with the widest pointer. -/
theorem BatchOp.PlacedAs.length_le {threshold : ℕ} {op : BatchOp} {e : EncEntry}
    (h : op.PlacedAs threshold e) :
    e.encode.length ≤ entryLen MAX_PTR threshold op := by
  obtain ⟨kind, ekey, repr⟩ := e
  cases op with
  | put key value =>
    obtain ⟨rfl, rfl, hrepr⟩ := h
    change if threshold ≤ value.length then ∃ p, repr = .ptr p else repr = .inline value at hrepr
    simp only [EncEntry.encode, entryLen, List.length_cons, List.length_append]
    by_cases hlarge : threshold ≤ value.length
    · rw [if_pos hlarge] at hrepr ⊢
      obtain ⟨p, rfl⟩ := hrepr
      have hptr : (putLenPrefixed (ReprRef.ptr p).encode).length ≤ MAX_PTR :=
        (length_putLenPrefixed_encodePtr p).2
      omega
    · rw [if_neg hlarge] at hrepr ⊢
      subst hrepr
      show (putLenPrefixed ekey).length + (putLenPrefixed (encodeInline value)).length + 1 ≤ _
      omega
  | delete key =>
    obtain ⟨rfl, rfl, hrepr⟩ := h
    change repr = .empty at hrepr
    subst hrepr
    have hone : (putLenPrefixed ReprRef.empty.encode).length = 1 := rfl
    simp only [EncEntry.encode, entryLen, List.length_cons, List.length_append, hone]
    omega

theorem length_encodeBatch_le {threshold : ℕ} {ops : List BatchOp} {entries : List EncEntry}
    (h : List.Forall₂ (BatchOp.PlacedAs threshold) ops entries) (base : ℕ) :
    (encodeBatch base entries).length ≤ payloadLen MAX_PTR threshold ops := by
  have hentries : (entries.flatMap EncEntry.encode).length ≤
      (ops.map (entryLen MAX_PTR threshold)).sum := by
    induction h with
    | nil => exact le_rfl
    | cons hop hops ih =>
      have hlen := hop.length_le
      rw [List.flatMap_cons, List.length_append, List.map_cons, List.sum_cons]
      omega
  have h8 : (putU64 base).length = 8 := length_putLe 8 base
  rw [encodeBatch, List.length_append, List.length_append, h8, length_putU32, payloadLen]
  omega

/-- With a short key an op leaves a byte of the estimate at least.  It leaves
twelve, the size of the batch header, unless it is a delete or a pointer, and
then its entry is short. -/
theorem entryLen_short {threshold : ℕ} {op : BatchOp} (hkey : op.key.length < 2 ^ 21)
    (h : op.approxSize < WAL_RECORD_LIMIT) :
    entryLen MAX_PTR threshold op + 1 ≤ op.approxSize ∧
      (entryLen MAX_PTR threshold op + 12 ≤ op.approxSize ∨
        entryLen MAX_PTR threshold op ≤ 2 ^ 21 + 30) := by
  have hlimit : WAL_RECORD_LIMIT = 1073741824 := rfl
  have hklen : (putUvarint op.key.length).length ≤ 3 := length_putUvarint_le (by decide) (by omega)
  cases op with
  | put key value =>
    change key.length < 2 ^ 21 at hkey
    change (putUvarint key.length).length ≤ 3 at hklen
    simp only [BatchOp.approxSize] at h ⊢
    -- as a pointer the entry has a fixed length; inline it is what the estimate counts
    by_cases hlarge : threshold ≤ value.length
    · have hentry : entryLen MAX_PTR threshold (.put key value) = 1 + (putLenPrefixed key).length +
        MAX_PTR := by
        rw [entryLen, if_pos hlarge]
      rw [hentry, putLenPrefixed, List.length_append, MAX_PTR]
      exact ⟨by omega, Or.inr (by omega)⟩
    · have hrlen : (putUvarint (value.length + 1)).length ≤ 5 :=
        length_putUvarint_le (by decide) (by omega)
      have hentry : entryLen MAX_PTR threshold (.put key value) =
          1 + (putLenPrefixed key).length + (putLenPrefixed (encodeInline value)).length := by
        rw [entryLen, if_neg hlarge]
      rw [hentry, putLenPrefixed, putLenPrefixed, encodeInline, List.length_append,
        List.length_append, List.length_cons]
      exact ⟨by omega, Or.inl (by omega)⟩
  | delete key =>
    change key.length < 2 ^ 21 at hkey
    change (putUvarint key.length).length ≤ 3 at hklen
    simp only [BatchOp.approxSize] at h ⊢
    rw [entryLen, putLenPrefixed, List.length_append]
    exact ⟨by omega, Or.inr (by omega)⟩

/-- In sum: a byte an op, and the header, unless every entry is short. -/
theorem sum_entryLen_short {threshold : ℕ} {ops : List BatchOp}
    (hkeys : ∀ op ∈ ops, op.key.length < 2 ^ 21) (h : approxSize ops < WAL_RECORD_LIMIT) :
    (ops.map (entryLen MAX_PTR threshold)).sum + ops.length ≤ approxSize ops ∧
      ((ops.map (entryLen MAX_PTR threshold)).sum + 12 ≤ approxSize ops ∨
        (ops.map (entryLen MAX_PTR threshold)).sum ≤ ops.length * (2 ^ 21 + 30)) := by
  induction ops with
  | nil => exact ⟨le_rfl, Or.inr (Nat.zero_le _)⟩
  | cons op ops ih =>
    have hcons : approxSize (op :: ops) = op.approxSize + approxSize ops := rfl
    rw [hcons] at h ⊢
    obtain ⟨hone, hslack⟩ := @entryLen_short threshold op (hkeys op List.mem_cons_self) (by omega)
    obtain ⟨hsum, hrest⟩ := ih (fun op' hop => hkeys op' (List.mem_cons_of_mem _ hop)) (by omega)
    rw [List.map_cons, List.sum_cons, List.length_cons]
    refine ⟨by omega, ?_⟩
    rcases hslack with hslack | hshort
    · exact Or.inl (by omega)
    · rcases hrest with hrest | hrest
      · exact Or.inl (by omega)
      · exact Or.inr (by omega)

/-- The estimate bounds the record: twelve ops leave the header's bytes, and
fewer are short, or one of them leaves them. -/
theorem payloadLen_short {threshold : ℕ} {ops : List BatchOp}
    (hkeys : ∀ op ∈ ops, op.key.length < 2 ^ 21) (h : approxSize ops < WAL_RECORD_LIMIT) :
    payloadLen MAX_PTR threshold ops < WAL_RECORD_LIMIT := by
  have hlimit : WAL_RECORD_LIMIT = 1073741824 := rfl
  obtain ⟨hsum, hslack⟩ := @sum_entryLen_short threshold ops hkeys h
  unfold payloadLen
  rcases hslack with hslack | hshort
  · omega
  · by_cases hmany : 12 ≤ ops.length
    · omega
    · have hfew : ops.length * (2 ^ 21 + 30) ≤ 11 * (2 ^ 21 + 30) :=
        Nat.mul_le_mul_right _ (by omega)
      omega

/-- A record as the write path appends it: the estimate of its batch passed. -/
def Estimated (threshold : ℕ) (payload : Bytes) : Prop :=
  ∃ (base : ℕ) (ops : List BatchOp) (entries : List EncEntry),
    (∀ op ∈ ops, op.key.length < 2 ^ 21) ∧ approxSize ops < WAL_RECORD_LIMIT ∧
    List.Forall₂ (BatchOp.PlacedAs threshold) ops entries ∧ payload = encodeBatch base entries

theorem Estimated.length_lt {threshold : ℕ} {payload : Bytes} (h : Estimated threshold payload) :
    payload.length < WAL_RECORD_LIMIT := by
  obtain ⟨base, ops, entries, hkeys, hsize, hplaced, rfl⟩ := h
  exact lt_of_le_of_lt (length_encodeBatch_le hplaced base) (payloadLen_short hkeys hsize)

/-- Every payload has its header. -/
theorem length_encodeBatch_pos (base : ℕ) (entries : List EncEntry) :
    0 < (encodeBatch base entries).length := by
  rw [encodeBatch, List.length_append, putU64, length_putLe]
  omega

theorem groupPhase3_eq_self {rs : List (Except Error (ℕ × List EncEntry))}
    (h : ∀ base entries, .ok (base, entries) ∈ rs →
      (encodeBatch base entries).length < WAL_RECORD_LIMIT) :
    Db.groupPhase3 rs = rs := by
  induction rs with
  | nil => rfl
  | cons r rest ih =>
    have hrest := ih fun base entries hmem => h base entries (List.mem_cons_of_mem _ hmem)
    cases r with
    | error err => rw [Db.groupPhase3, hrest]
    | ok r =>
      obtain ⟨base, entries⟩ := r
      rw [Db.groupPhase3, if_neg (not_le.mpr (h base entries List.mem_cons_self)), hrest]

/-- What phase 1 places was accepted, and its ops are what is placed. -/
theorem of_mem_groupPhase1 {threshold : ℕ} {v : Vlog}
    {accepted : List (Except Error (ℕ × List BatchOp))} {base : ℕ} {entries : List EncEntry}
    (h : .ok (base, entries) ∈ (Db.groupPhase1 threshold v accepted).2) :
    ∃ ops, .ok (base, ops) ∈ accepted ∧ List.Forall₂ (BatchOp.PlacedAs threshold) ops entries := by
  induction accepted generalizing v with
  | nil => exact absurd h List.not_mem_nil
  | cons r rest ih =>
    cases r with
    | error err =>
      rcases List.mem_cons.mp h with heq | h
      · exact absurd heq (by simp)
      · obtain ⟨ops, hmem, hplaced⟩ := ih h
        exact ⟨ops, List.mem_cons_of_mem _ hmem, hplaced⟩
    | ok r =>
      rcases List.mem_cons.mp h with heq | h
      · obtain ⟨rfl, rfl⟩ := Prod.mk.inj (Except.ok.inj heq)
        exact ⟨r.2, List.mem_cons_self, v.placeOps_placedAs threshold r.2⟩
      · obtain ⟨ops, hmem, hplaced⟩ := ih h
        exact ⟨ops, List.mem_cons_of_mem _ hmem, hplaced⟩

/-- What phase 0 accepts passed the estimate. -/
theorem approxSize_of_mem_groupPhase0 {opts : Options} {db : Db} {n : ℕ}
    {batches : List (List BatchOp × Bool)}
    {base : ℕ} {ops : List BatchOp} (h : .ok (base, ops) ∈ db.groupPhase0 opts n batches) :
    approxSize ops < WAL_RECORD_LIMIT := by
  induction batches generalizing n with
  | nil => exact absurd h List.not_mem_nil
  | cons b rest ih =>
    obtain ⟨ops', capture⟩ := b
    unfold Db.groupPhase0 at h
    by_cases hsize : WAL_RECORD_LIMIT ≤ approxSize (ops' ++ db.captureEvents opts ops' n capture)
    · simp only [if_pos hsize] at h
      rcases List.mem_cons.mp h with heq | h
      · exact absurd heq (by simp)
      · exact ih h
    · simp only [if_neg hsize] at h
      by_cases hseq : MAX_SEQNO ≤ n + (ops' ++ db.captureEvents opts ops' n capture).length
      · simp only [if_pos hseq] at h
        rcases List.mem_cons.mp h with heq | h
        · exact absurd heq (by simp)
        · exact ih h
      · simp only [if_neg hseq] at h
        rcases List.mem_cons.mp h with heq | h
        · obtain ⟨rfl, rfl⟩ := Prod.mk.inj (Except.ok.inj heq)
          exact not_le.mp hsize
        · exact ih h

/-- **The payload bound.**  Whatever the threshold and wherever the values are
placed: a batch with its events, all with keys below `2 ^ 21` bytes, whose
estimate passes has a record below the limit, which recovery reads; neither
apply path rejects a batch once its values are placed. -/
theorem wal_payload_bound (opts : Options) :
    (∀ payload, Estimated opts.valueThreshold payload → payload.length < WAL_RECORD_LIMIT) ∧
    (∀ crc payloads, (∀ p ∈ payloads, Estimated opts.valueThreshold p) →
      readWal crc (frames crc payloads) = (payloads, .clean)) ∧
    (∀ (db : Db) ops capture,
      (∀ op ∈ ops ++ db.captureEvents opts ops (db.visibleSeqno + 1) capture,
        op.key.length < 2 ^ 21) →
      (db.applyLocked opts ops capture).2 = .ok () ∨ (db.applyLocked opts ops capture).1 = db) ∧
    ∀ (db : Db) batches,
      (∀ base ops, .ok (base, ops) ∈ db.groupPhase0 opts (db.visibleSeqno + 1) batches →
        ∀ op ∈ ops, op.key.length < 2 ^ 21) →
      db.groupOutcome opts batches =
        Db.groupPhase1 opts.valueThreshold db.vlog
          (db.groupPhase0 opts (db.visibleSeqno + 1) batches) := by
  refine ⟨fun payload h => h.length_lt, fun crc payloads h => ?_, fun db ops capture hkeys => ?_,
    fun db batches hkeys => ?_⟩
  · have hfits : ∀ p ∈ payloads, 0 < p.length ∧ p.length < WAL_RECORD_LIMIT := by
      intro p hp
      have hlt := (h p hp).length_lt
      obtain ⟨base, ops, entries, -, -, -, rfl⟩ := h p hp
      exact ⟨length_encodeBatch_pos base entries, hlt⟩
    have hread := readWal_frames hfits (Stops.nil crc)
    rwa [List.append_nil] at hread
  · unfold Db.applyLocked
    simp only
    generalize ops ++ db.captureEvents opts ops (db.visibleSeqno + 1) capture = full at hkeys ⊢
    split
    · exact Or.inr rfl
    · split
      · exact Or.inr rfl
      · -- the batch is accepted: its record is below the limit
        rename_i hsize
        have hlen := length_encodeBatch_le (db.vlog.placeOps_placedAs opts.valueThreshold full)
          (db.visibleSeqno + 1)
        have hbound := @payloadLen_short opts.valueThreshold full hkeys (not_le.mp hsize)
        rw [if_neg (not_le.mpr (lt_of_le_of_lt hlen hbound))]
        exact Or.inl rfl
  · unfold Db.groupOutcome
    refine Prod.ext rfl (groupPhase3_eq_self fun base entries hmem => ?_)
    obtain ⟨ops, haccepted, hplaced⟩ := of_mem_groupPhase1 hmem
    have hsize := approxSize_of_mem_groupPhase0 haccepted
    exact lt_of_le_of_lt (length_encodeBatch_le hplaced base)
      (payloadLen_short (hkeys base ops haccepted) hsize)

end Fluent31
