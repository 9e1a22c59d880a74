/-
Scans of a guest program (`fluent-guest/src/lib.rs`, `struct Scan`).

The guest asks for batches of packed entries with `scan_next` and unpacks them.  When
the next entry does not fit its buffer it asks for the entry's size and grows the
buffer to it.  The host, for its part, never packs more than 2^24 bytes, however large
the buffer.

* `fillBatch_spec` — what the host packs;
* `refill_spec` — a refill delivers the next entries, when the first is within the
  host's ceiling;
* `refill_running` — and else it goes on for ever;
* `guest_scan_exact_iff` — the guest gets the host's entries exactly if each is within
  the ceiling.
-/
import Fluent31.WasmHost

namespace Fluent31

/-- How a packed entry reads: the lengths, the key and the value. -/
def packEntry (e : Bytes × Bytes) : Bytes :=
  putUvarint e.1.length ++ putUvarint e.2.length ++ e.1 ++ e.2

/-- A guest's linear memory: where its allocator puts a buffer of a given length, or
`none` if it traps.  Buffers up to `room` bytes fit. -/
structure GuestMemory where
  bytes : Bytes
  alloc : ℕ → Option (BitVec 32)
  room : ℕ
  initial_le : 2 ^ 14 ≤ room
  -- a vector has fewer than 2^31 bytes on a 32-bit target
  room_lt : room < 2 ^ 31
  fits : ∀ len ≤ room, ∃ ptr, alloc len = some ptr ∧ ptr.toNat + len ≤ bytes.length

/-- Why a call of the guest has no result: a loop of it is still going on, or it has
trapped. -/
inductive GuestStop
  | running
  | trap (text : String)
  deriving DecidableEq

/-- The guest's scan. -/
structure GuestScan where
  h : BitVec 32
  /-- Where `buf` is. -/
  ptr : BitVec 32
  buf : Bytes
  pos : ℕ := 0
  filled : ℕ := 0
  done : Bool := false

namespace GuestScan

variable (mem : GuestMemory)

/-- A fresh buffer of zeros, at the place the allocator gives it. -/
def newBuf (len : ℕ) : Except GuestStop (BitVec 32 × Bytes) :=
  match mem.alloc len with
  | none => .error (.trap "unreachable")
  | some ptr => .ok (ptr, List.replicate len 0)

/-- `Scan::open`, once the host has given out the handle. -/
def opened (h : BitVec 32) : Except GuestStop GuestScan :=
  (newBuf mem (2 ^ 14)).map fun b => { h := h, ptr := b.1, buf := b.2 }

/-- The buffer after the host's write to its start. -/
def written (s : GuestScan) (r : HostReply) : Bytes :=
  match r.wrote with
  | some (_, out) => out ++ s.buf.drop out.length
  | none => s.buf

/-- The loop of `refill`, at most that many rounds of it. -/
def refill : ℕ → HostCtx → GuestScan → Except GuestStop (Bool × HostCtx × GuestScan)
  | 0, _, _ => .error .running
  | rounds + 1, ctx, s =>
    match HostCtx.scanNext (some mem.bytes) ctx s.h s.ptr (BitVec.ofNat 32 s.buf.length) with
    | (_, .error text) => .error (.trap text)
    | (ctx, .ok r) =>
      if r.value = ENOSPC then
        -- one entry larger than the buffer: grow to the exact size
        match ctx.scanEntryHint s.h with
        | (_, .error text) => .error (.trap text)
        | (ctx, .ok hint) =>
          if hint.value ≤ 0 then .ok (false, ctx, { s with done := true })
          else (newBuf mem (hint.value.toNat % 2 ^ 32)).bind fun b =>
            refill rounds ctx { s with ptr := b.1, buf := b.2 }
      else if r.value ≤ 0 then .ok (false, ctx, { s with done := true })
      else .ok (true, ctx, { s with buf := s.written r, pos := 0, filled := r.value.toNat })

/-- The loop of `read_varint`: the value, and the position moved past it. -/
def readVarintFrom (buf : Bytes) : ℕ → ℕ → ℕ → ℕ → Option ℕ × ℕ
  | 0, _, _, pos => (none, pos)
  | groups + 1, shift, v, pos =>
    match buf[pos]? with
    | none => (none, pos)
    | some b =>
      let v := v + b.val % 128 * 2 ^ shift % 2 ^ 64
      if b.val < 128 then (some v, pos + 1)
      else if 63 < shift + 7 then (none, pos + 1)
      else readVarintFrom buf groups (shift + 7) v (pos + 1)

/-- A length of 32 bits; ten groups are the most the loop reads. -/
def readVarint (s : GuestScan) : Option ℕ × GuestScan :=
  match readVarintFrom s.buf 10 0 0 s.pos with
  | (v, pos) => (v.map (· % 2 ^ 32), { s with pos := pos })

/-- The rest of `next`, when the buffer holds something. -/
def takeEntry (s : GuestScan) : Option (Bytes × Bytes) × GuestScan :=
  match s.readVarint with
  | (none, s) => (none, s)
  | (some klen, s) =>
    match s.readVarint with
    | (none, s) => (none, s)
    | (some vlen, s) =>
      if s.filled < s.pos + klen + vlen then (none, { s with done := true })
      else
        (some ((s.buf.drop s.pos).take klen, (s.buf.drop (s.pos + klen)).take vlen),
          { s with pos := s.pos + klen + vlen })

def next (rounds : ℕ) (ctx : HostCtx) (s : GuestScan) :
    Except GuestStop (Option (Bytes × Bytes) × HostCtx × GuestScan) :=
  if s.pos < s.filled then .ok (s.takeEntry.1, ctx, s.takeEntry.2)
  else if s.done then .ok (none, ctx, s)
  else
    (refill mem rounds ctx s).map fun
      | (true, ctx, s) => (s.takeEntry.1, ctx, s.takeEntry.2)
      | (false, ctx, s) => (none, ctx, s)

/-- That many calls of `next`, one after the other. -/
def nexts (rounds : ℕ) : ℕ → HostCtx → GuestScan →
    Except GuestStop (List (Option (Bytes × Bytes)) × HostCtx × GuestScan)
  | 0, ctx, s => .ok ([], ctx, s)
  | n + 1, ctx, s =>
    (next mem rounds ctx s).bind fun r =>
      (nexts rounds n r.2.1 r.2.2).map fun rs => (r.1 :: rs.1, rs.2)

end GuestScan

/-! ### What the host ranges over -/

/-- The iterator yields those entries, and then nothing more. -/
def ScanIter.Yields : ScanIter → List (Bytes × Bytes) → Prop
  | it, [] => ∀ k, ((fun it : ScanIter => it.pull.2)^[k] it).pull.1 = none
  | it, e :: es => it.pull.1 = some (.ok e) ∧ it.pull.2.Yields es

/-- The entries a scan of the host still has to deliver. -/
def Scan.Holds (s : Scan) (es : List (Bytes × Bytes)) : Prop :=
  s.errored = false ∧
    match s.pending with
    | none => s.it.Yields es
    | some e => ∃ more, es = e :: more ∧ s.it.Yields more

/-- And the entries a handle stands for. -/
def HostCtx.Serves (ctx : HostCtx) (h : BitVec 32) (es : List (Bytes × Bytes)) : Prop :=
  ∃ s, ctx.scan? h = some s ∧ s.Holds es

/-- Without I/O errors a snapshot iterator yields the entries it is given by. -/
theorem ScanIter.yields_db (es : List (Bytes × Bytes)) : (ScanIter.db (es.map .ok)).Yields es := by
  induction es with
  | nil =>
    intro k
    have hk : (fun it : ScanIter => it.pull.2)^[k] (.db []) = .db [] :=
      Function.iterate_fixed rfl k
    rw [List.map_nil, hk]
    rfl
  | cons e es ih => exact ⟨rfl, ih⟩

theorem ScanIter.Yields.pull_nil {it : ScanIter} (h : it.Yields []) :
    it.pull.1 = none ∧ it.pull.2.Yields [] := ⟨h 0, fun k => h (k + 1)⟩

namespace Scan

variable {s : Scan} {es : List (Bytes × Bytes)}

theorem Holds.errored (h : s.Holds es) : s.errored = false := h.1

/-- **What `ensure` does**: the next entry is pending, if there is one. -/
theorem Holds.ensure (h : s.Holds es) :
    ∃ s', s.ensure = (.ok (), s') ∧ s'.Holds es ∧ s'.pending = es.head? := by
  obtain ⟨herr, hrest⟩ := h
  cases hpend : s.pending with
  | some e =>
    rw [hpend] at hrest
    obtain ⟨more, rfl, hmore⟩ := hrest
    refine ⟨s, ?_, ⟨herr, ?_⟩, hpend⟩
    · simp [Scan.ensure, herr, hpend]
    · rw [hpend]
      exact ⟨more, rfl, hmore⟩
  | none =>
    rw [hpend] at hrest
    cases es with
    | nil =>
      obtain ⟨hpull, hmore⟩ := hrest.pull_nil
      have heq : s.it.pull = (none, s.it.pull.2) := Prod.ext hpull rfl
      refine ⟨{ s with it := s.it.pull.2 }, ?_, ⟨herr, ?_⟩, hpend⟩
      · simp only [Scan.ensure, herr, hpend]
        rw [heq]
        simp
      · simpa only [hpend] using hmore
    | cons e more =>
      obtain ⟨hpull, hmore⟩ := hrest
      have heq : s.it.pull = (some (.ok e), s.it.pull.2) := Prod.ext hpull rfl
      refine ⟨{ s with it := s.it.pull.2, pending := some e }, ?_, ⟨herr, more, rfl, hmore⟩, rfl⟩
      simp only [Scan.ensure, herr, hpend]
      rw [heq]
      simp

/-- An entry that was pending is out of the scan. -/
theorem Holds.take {e : Bytes × Bytes} (h : s.Holds (e :: es)) (hpend : s.pending = some e) :
    Holds { s with pending := none } es := by
  obtain ⟨herr, hrest⟩ := h
  rw [hpend] at hrest
  obtain ⟨more, hes, hmore⟩ := hrest
  obtain rfl : es = more := (List.cons.inj hes).2
  exact ⟨herr, hmore⟩

end Scan

/-! ### What the host packs -/

@[simp] theorem length_packEntry (e : Bytes × Bytes) :
    (packEntry e).length = packedLen e.1 e.2 := by
  simp [packEntry, packedLen, Nat.add_assoc]

theorem two_le_packedLen (k v : Bytes) : 2 ≤ packedLen k v := by
  have hk := length_putUvarint_pos k.length
  have hv := length_putUvarint_pos v.length
  unfold packedLen
  omega

/-- **The loop of `scan_next`** packs the entries that fit, and stops before the
first that does not. -/
theorem HostCtx.fillBatch_spec {cap rounds : ℕ} {s : Scan} {out : Bytes} {es : List (Bytes × Bytes)}
    (hs : s.Holds es) (hout : out.length ≤ cap) (hrounds : cap < out.length + rounds) :
    ∃ taken rest s', es = taken ++ rest ∧ s'.Holds rest ∧
      (out ++ taken.flatMap packEntry).length ≤ cap ∧
      (∀ e ∈ rest.head?, cap < (out ++ taken.flatMap packEntry).length + packedLen e.1 e.2) ∧
      fillBatch cap rounds s out =
        (if out ++ taken.flatMap packEntry = [] ∧ rest ≠ [] then .tooSmall
          else .full (out ++ taken.flatMap packEntry), s') := by
  induction rounds generalizing s out es with
  | zero => omega
  | succ rounds ih =>
    obtain ⟨s', hensure, hs', hpend⟩ := hs.ensure
    cases es with
    | nil =>
      refine ⟨[], [], s', rfl, hs', by simpa using hout, nofun, ?_⟩
      have hnone : s'.pending = none := hpend
      simp [fillBatch, hensure, hnone]
    | cons e es =>
      have hsome : s'.pending = some e := hpend
      by_cases hfit : cap < out.length + packedLen e.1 e.2
      · -- the entry does not fit: the batch ends before it
        refine ⟨[], e :: es, s', rfl, hs', by simpa using hout, ?_, ?_⟩
        · rintro e' ⟨⟩
          simpa using hfit
        · simp only [fillBatch, hensure, hsome]
          rw [if_pos hfit]
          cases out <;> simp
      · -- it fits, and the rounds left are enough for what fits behind it
        have htwo := two_le_packedLen e.1 e.2
        have hlen : (out ++ packEntry e).length = out.length + packedLen e.1 e.2 := by simp
        obtain ⟨taken, rest, s'', hes, hs'', hle, hnext, hrun⟩ :=
          @ih _ (out ++ packEntry e) _ (hs'.take hsome) (by omega) (by omega)
        have hout' : out ++ (e :: taken).flatMap packEntry = out ++ packEntry e ++
            taken.flatMap packEntry := by
          simp
        refine ⟨e :: taken, rest, s'', by rw [hes]; rfl, hs'', ?_, ?_, ?_⟩
        · rwa [hout']
        · rwa [hout']
        · rw [hout', ← hrun]
          simp [fillBatch, hensure, hsome, hfit, packEntry]

/-- The most the host packs into one batch. -/
def batchCeiling : ℕ := 2 ^ 24

namespace HostCtx

variable (mem : Option Bytes) {ctx : HostCtx} {h : BitVec 32} (buf : BitVec 32) {s : Scan}
  {es : List (Bytes × Bytes)}

theorem scan?_setScan (s' : Scan) (hs : ctx.scan? h = some s) :
    (ctx.setScan h s').scan? h = some s' := by
  simp only [scan?, Option.map_eq_some_iff] at hs
  obtain ⟨p, hp, -⟩ := hs
  have hfind : (ctx.setScan h s').scans.find? (fun p => decide (p.1 = h)) = some (h, s') := by
    rw [setScan, List.find?_map]
    have hpred : (fun p : BitVec 32 × Scan => decide (p.1 = h)) ∘
        (fun p => if p.1 = h then (h, s') else p) = fun p => decide (p.1 = h) := by
      funext p
      by_cases hp : p.1 = h <;> simp [hp]
    have hph : p.1 = h := by simpa using List.find?_some hp
    rw [hpred, hp, Option.map_some, if_pos hph]
  rw [scan?, hfind, Option.map_some]

theorem Serves.setScan {s' : Scan} (hs : ctx.Serves h es) (hs' : s'.Holds es) :
    (ctx.setScan h s').Serves h es := by
  obtain ⟨s, hfind, -⟩ := hs
  exact ⟨s', scan?_setScan s' hfind, hs'⟩

/-- A batch starts out empty. -/
theorem fillBatch_nil (cap : ℕ) (hs : s.Holds es) :
    ∃ taken rest s', es = taken ++ rest ∧ s'.Holds rest ∧ (taken.flatMap packEntry).length ≤ cap ∧
      (∀ e ∈ rest.head?, cap < (taken.flatMap packEntry).length + packedLen e.1 e.2) ∧
      fillBatch cap (cap + 1) s [] =
        (if taken.flatMap packEntry = [] ∧ rest ≠ [] then .tooSmall else .full
          (taken.flatMap packEntry), s') := by
  have hrounds : cap < ([] : Bytes).length + (cap + 1) := by
    rw [List.length_nil]
    omega
  simpa only [List.nil_append] using fillBatch_spec hs (Nat.zero_le cap) hrounds

/-- At the end of the scan, nothing is packed. -/
theorem Serves.scanNext_nil (hs : ctx.Serves h []) (cap : BitVec 32) :
    ∃ ctx', scanNext mem ctx h buf cap = (ctx', .ok { value := 0 }) ∧ ctx'.Serves h [] := by
  obtain ⟨s, hfind, hs⟩ := hs
  obtain ⟨taken, rest, s', hes, hs', -, -, hrun⟩ := fillBatch_nil (min cap.toNat (2 ^ 24)) hs
  obtain ⟨rfl, rfl⟩ : taken = [] ∧ rest = [] := by simpa using hes
  refine ⟨ctx.setScan h s', ?_, s', scan?_setScan s' hfind, hs'⟩
  simp only [scanNext, hfind, hrun]
  rfl

/-- An entry over the guest's buffer, or over the ceiling, is not packed. -/
theorem Serves.scanNext_large {e : Bytes × Bytes} (hs : ctx.Serves h (e :: es)) {cap : BitVec 32}
    (hlarge : min cap.toNat batchCeiling < packedLen e.1 e.2) :
    ∃ ctx', scanNext mem ctx h buf cap = (ctx', .ok { value := ENOSPC }) ∧
      ctx'.Serves h (e :: es) := by
  obtain ⟨s, hfind, hs⟩ := hs
  obtain ⟨taken, rest, s', hes, hs', hle, -, hrun⟩ := fillBatch_nil (min cap.toNat (2 ^ 24)) hs
  cases taken with
  | nil =>
    obtain rfl : e :: es = rest := hes
    refine ⟨ctx.setScan h s', ?_, s', scan?_setScan s' hfind, hs'⟩
    simp only [scanNext, hfind, hrun]
    rfl
  | cons e' taken =>
    obtain ⟨rfl, -⟩ : e = e' ∧ es = taken ++ rest := by simpa using hes
    have hmin : min cap.toNat (2 ^ 24) < packedLen e.1 e.2 := hlarge
    simp only [List.flatMap_cons, List.length_append, length_packEntry] at hle
    omega

/-- Otherwise the batch holds the next entry and maybe more, and the host has written
it to the buffer. -/
theorem Serves.scanNext_cons {e : Bytes × Bytes} (hs : ctx.Serves h (e :: es)) {cap : BitVec 32}
    {bytes : Bytes} (hsmall : packedLen e.1 e.2 ≤ min cap.toNat batchCeiling)
    (hfits : buf.toNat + cap.toNat ≤ bytes.length) :
    ∃ taken rest ctx', e :: es = taken ++ rest ∧ taken ≠ [] ∧
      (taken.flatMap packEntry).length ≤ min cap.toNat batchCeiling ∧
      scanNext (some bytes) ctx h buf cap =
        (ctx', .ok ⟨(taken.flatMap packEntry).length, some (buf.toNat, taken.flatMap packEntry)⟩) ∧
      ctx'.Serves h rest := by
  obtain ⟨s, hfind, hs⟩ := hs
  obtain ⟨taken, rest, s', hes, hs', hle, hnext, hrun⟩ := fillBatch_nil (min cap.toNat (2 ^ 24)) hs
  -- the first entry fits, so the batch is not empty
  have htaken : taken ≠ [] := by
    rintro rfl
    obtain rfl : e :: es = rest := hes
    have := hnext e rfl
    simp only [List.flatMap_nil, List.length_nil] at this
    unfold batchCeiling at hsmall
    omega
  have hpos : taken.flatMap packEntry ≠ [] := by
    obtain ⟨e', taken, rfl⟩ := List.exists_cons_of_ne_nil htaken
    have htwo := two_le_packedLen e'.1 e'.2
    rw [List.flatMap_cons, ← List.length_pos_iff, List.length_append, length_packEntry]
    omega
  refine ⟨taken, rest, ctx.setScan h s', hes, htaken, hle, ?_, s', scan?_setScan s' hfind, hs'⟩
  have hlen : toI32 (taken.flatMap packEntry).length = (taken.flatMap packEntry).length := by
    have hnat : (BitVec.ofNat 32 (taken.flatMap packEntry).length).toNat =
        (taken.flatMap packEntry).length := by
      rw [BitVec.toNat_ofNat, Nat.mod_eq_of_lt (by omega)]
    rw [toI32, BitVec.toInt_eq_toNat_of_lt (by omega), hnat]
  have hwrite : writeGuest (some bytes) buf (taken.flatMap packEntry) =
      .ok (buf.toNat, taken.flatMap packEntry) := by
    simp only [writeGuest]
    rw [if_neg (by omega)]
  rw [if_neg (by simp [hpos])] at hrun
  simp only [scanNext, hfind, hrun]
  rw [if_neg (by simp [hpos]), hwrite, Except.map, hlen]

/-- The size the host gives for the entry it did not pack. -/
theorem Serves.scanEntryHint {e : Bytes × Bytes} (hs : ctx.Serves h (e :: es)) :
    ∃ ctx', ctx.scanEntryHint h = (ctx', .ok { value := packedLen e.1 e.2 }) ∧
      ctx'.Serves h (e :: es) := by
  obtain ⟨s, hfind, hs⟩ := hs
  obtain ⟨s', hensure, hs', hpend⟩ := hs.ensure
  have hsome : s'.pending = some e := hpend
  refine ⟨ctx.setScan h s', ?_, s', scan?_setScan s' hfind, hs'⟩
  simp [HostCtx.scanEntryHint, hfind, hensure, hsome]

end HostCtx

/-! ### A refill -/

namespace GuestScan

variable {mem : GuestMemory} {ctx : HostCtx} {s : GuestScan} {es : List (Bytes × Bytes)}
    {e : Bytes × Bytes}

/-- The buffer lies within the memory. -/
structure Placed (mem : GuestMemory) (s : GuestScan) : Prop where
  inside : s.ptr.toNat + s.buf.length ≤ mem.bytes.length
  room : s.buf.length ≤ mem.room

theorem Placed.cap (hp : Placed mem s) : (BitVec.ofNat 32 s.buf.length).toNat = s.buf.length := by
  have := hp.room
  have := mem.room_lt
  rw [BitVec.toNat_ofNat, Nat.mod_eq_of_lt (by omega)]

theorem newBuf_eq {len : ℕ} (h : len ≤ mem.room) :
    ∃ ptr, newBuf mem len = .ok (ptr, List.replicate len 0) ∧
      ptr.toNat + len ≤ mem.bytes.length := by
  obtain ⟨ptr, halloc, hfits⟩ := mem.fits len h
  exact ⟨ptr, by rw [newBuf, halloc], hfits⟩

theorem refill_nil (hserves : ctx.Serves s.h []) (rounds : ℕ) :
    ∃ ctx', refill mem (rounds + 1) ctx s = .ok (false, ctx', { s with done := true }) ∧
      ctx'.Serves s.h [] := by
  obtain ⟨ctx', hnext, hserves'⟩ :=
    hserves.scanNext_nil (some mem.bytes) s.ptr (BitVec.ofNat 32 s.buf.length)
  refine ⟨ctx', ?_, hserves'⟩
  simp [refill, hnext, ENOSPC]

/-- **A round that grows the buffer**: the next one has it at the entry's size. -/
theorem refill_grow (hp : Placed mem s) (hserves : ctx.Serves s.h (e :: es))
    (hlarge : min s.buf.length batchCeiling < packedLen e.1 e.2)
    (hroom : packedLen e.1 e.2 ≤ mem.room) (rounds : ℕ) :
    ∃ ctx' s', refill mem (rounds + 1) ctx s = refill mem rounds ctx' s' ∧
      ctx'.Serves s.h (e :: es) ∧
      Placed mem s' ∧ s'.h = s.h ∧ s'.done = s.done ∧ s'.buf.length = packedLen e.1 e.2 := by
  rw [← hp.cap] at hlarge
  obtain ⟨ctx₁, hnext, hserves₁⟩ := hserves.scanNext_large (some mem.bytes) s.ptr hlarge
  obtain ⟨ctx₂, hhint, hserves₂⟩ := hserves₁.scanEntryHint
  obtain ⟨ptr, hbuf, hfits⟩ := newBuf_eq hroom
  have hmod : packedLen e.1 e.2 % 2 ^ 32 = packedLen e.1 e.2 := by
    have := mem.room_lt
    exact Nat.mod_eq_of_lt (by omega)
  have htwo := two_le_packedLen e.1 e.2
  refine ⟨ctx₂, { s with ptr := ptr, buf := List.replicate (packedLen e.1 e.2) 0 }, ?_, hserves₂,
    ⟨by simpa using hfits, by simpa using hroom⟩, rfl, rfl, List.length_replicate⟩
  simp only [refill, hnext, if_true, hhint, Int.toNat_natCast, hmod, hbuf]
  rw [if_neg (by omega)]
  rfl

/-- **The loop of `refill` goes on for ever** when the next entry is over what the host
packs: the buffer is as large as the entry, and the host uses no more of it than it
did. -/
theorem refill_running (hp : Placed mem s) (hserves : ctx.Serves s.h (e :: es))
    (hlarge : batchCeiling < packedLen e.1 e.2) (hroom : packedLen e.1 e.2 ≤ mem.room)
    (rounds : ℕ) :
    refill mem rounds ctx s = .error .running := by
  induction rounds generalizing ctx s with
  | zero => rfl
  | succ rounds ih =>
    obtain ⟨ctx', s', hstep, hserves', hp', hh, -, -⟩ :=
      refill_grow hp hserves (by omega) hroom rounds
    rw [hstep]
    exact ih hp' (hh ▸ hserves')

/-- What is in the buffer and not taken from it yet. -/
structure Buffered (s : GuestScan) (held : List (Bytes × Bytes)) : Prop where
  pos_le : s.pos ≤ s.filled
  filled_le : s.filled ≤ s.buf.length
  ceiling : s.filled ≤ batchCeiling
  content : (s.buf.take s.filled).drop s.pos = held.flatMap packEntry

/-- A round that finds the buffer large enough. -/
theorem refill_small (hp : Placed mem s) (hserves : ctx.Serves s.h (e :: es))
    (hsmall : packedLen e.1 e.2 ≤ min s.buf.length batchCeiling) (rounds : ℕ) :
    ∃ taken rest ctx' s', e :: es = taken ++ rest ∧ taken ≠ [] ∧
      refill mem (rounds + 1) ctx s = .ok (true, ctx', s') ∧
      ctx'.Serves s'.h rest ∧ Placed mem s' ∧ s'.Buffered taken ∧ s'.done = s.done := by
  have hinside := hp.inside
  have hcap := hp.cap
  obtain ⟨taken, rest, ctx', hes, htaken, hlen, hnext, hserves'⟩ :=
    hserves.scanNext_cons s.ptr (hcap.symm ▸ hsmall) (by omega : _ ≤ mem.bytes.length)
  rw [hcap] at hlen
  have hbuf : (taken.flatMap packEntry ++ s.buf.drop (taken.flatMap packEntry).length).length =
      s.buf.length := by
    rw [List.length_append, List.length_drop]
    omega
  -- an empty batch would mean the end of the scan
  have hpos : 0 < (taken.flatMap packEntry).length := by
    obtain ⟨e', taken, rfl⟩ := List.exists_cons_of_ne_nil htaken
    have htwo := two_le_packedLen e'.1 e'.2
    simp only [List.flatMap_cons, List.length_append, length_packEntry]
    omega
  refine ⟨taken, rest, ctx',
    { s with
      buf := taken.flatMap packEntry ++ s.buf.drop (taken.flatMap packEntry).length
      pos := 0
      filled := (taken.flatMap packEntry).length },
    hes, htaken, ?_, hserves', ⟨by rwa [hbuf], hbuf ▸ hp.room⟩, ⟨Nat.zero_le _, ?_, ?_, ?_⟩, rfl⟩
  · simp only [refill, hnext, ENOSPC]
    rw [if_neg (by omega), if_neg (by omega)]
    rfl
  · exact (hlen.trans (min_le_left _ _)).trans hbuf.ge
  · exact hlen.trans (min_le_right _ _)
  · simp

/-- **A refill** delivers the next entries, after a round or two. -/
theorem refill_spec (hp : Placed mem s) (hserves : ctx.Serves s.h (e :: es))
    (hsmall : packedLen e.1 e.2 ≤ batchCeiling) (hroom : packedLen e.1 e.2 ≤ mem.room) :
    ∃ taken rest ctx' s', e :: es = taken ++ rest ∧ taken ≠ [] ∧
      refill mem 2 ctx s = .ok (true, ctx', s') ∧
      ctx'.Serves s'.h rest ∧ Placed mem s' ∧ s'.Buffered taken ∧ s'.done = s.done := by
  by_cases hfits : packedLen e.1 e.2 ≤ s.buf.length
  · exact refill_small hp hserves (le_min hfits hsmall) 1
  · obtain ⟨ctx₁, s₁, hstep, hserves₁, hp₁, hh, hdone, hlen⟩ :=
      refill_grow hp hserves (by omega) hroom 1
    rw [hstep, ← hdone]
    exact refill_small hp₁ (hh ▸ hserves₁) (le_min hlen.ge hsmall) 0

/-- More rounds do not change a result. -/
theorem refill_mono {rounds : ℕ} {r : Bool × HostCtx × GuestScan}
    (h : refill mem rounds ctx s = .ok r) :
    refill mem (rounds + 1) ctx s = .ok r := by
  induction rounds generalizing ctx s with
  | zero => cases h
  | succ rounds ih =>
    rw [refill] at h ⊢
    split at h
    · cases h
    · split_ifs at h ⊢
      · split at h
        · cases h
        · split_ifs at h ⊢
          · exact h
          · rename_i hint _ _
            cases hb : newBuf mem (hint.value.toNat % 2 ^ 32) with
            | error stop =>
              rw [hb] at h
              cases h
            | ok b =>
              rw [hb] at h
              exact ih h
      · exact h
      · exact h

/-! ### Unpacking -/

/-- The decoder's loop reads what the coder's wrote, with `shift` bits read before. -/
theorem readVarintFrom_putUvarintUpTo {buf more : Bytes} {groups shift v w pos : ℕ}
    (hgroups : shift + 7 * groups = 70) (hpos : 0 < groups) (hw : w * 2 ^ shift < 2 ^ 64)
    (hbuf : buf.drop pos = putUvarintUpTo groups w ++ more) :
    readVarintFrom buf groups shift v pos =
      (some (v + w * 2 ^ shift), pos + (putUvarintUpTo groups w).length) := by
  induction groups generalizing shift v w pos with
  | zero => omega
  | succ groups ih =>
    have htwo : 0 < 2 ^ shift := Nat.two_pow_pos shift
    have hlow : w % 128 * 2 ^ shift < 2 ^ 64 :=
      lt_of_le_of_lt (Nat.mul_le_mul_right _ (Nat.mod_le w 128)) hw
    rw [putUvarintUpTo] at hbuf ⊢
    by_cases hbig : 128 ≤ w
    · -- in the last group only one bit of the value is left
      have hshift : shift + 7 ≤ 63 := by
        by_contra hlast
        have h64 : 2 ^ 64 ≤ w * 2 ^ shift := by
          obtain rfl : shift = 63 := by omega
          omega
        omega
      rw [if_pos hbig] at hbuf ⊢
      have hhead : buf[pos]? = some (byte (w % 128 + 128)) := by
        rw [← List.head?_drop, hbuf]
        rfl
      have htail : buf.drop (pos + 1) = putUvarintUpTo groups (w / 128) ++ more := by
        rw [← List.tail_drop, hbuf]
        rfl
      have hbyte : (byte (w % 128 + 128)).val = w % 128 + 128 := by
        rw [val_byte]
        omega
      -- what the other groups give, and this one adds, is the value
      have hmul : w / 128 * 2 ^ (shift + 7) + w % 128 * 2 ^ shift = w * 2 ^ shift := by
        rw [Nat.pow_add, Nat.mul_comm (2 ^ shift), ← Nat.mul_assoc, ← Nat.add_mul,
          Nat.div_add_mod' w 128]
      rw [readVarintFrom, hhead]
      simp only [hbyte]
      rw [if_neg (by omega), if_neg (by omega), ih (by omega) (by omega) (by omega) htail]
      refine Prod.ext (congrArg some ?_) ?_
      · rw [show (w % 128 + 128) % 128 = w % 128 by omega, Nat.mod_eq_of_lt hlow]
        omega
      · simp only [List.length_cons]
        omega
    · rw [if_neg hbig] at hbuf ⊢
      have hhead : buf[pos]? = some (byte w) := by
        rw [← List.head?_drop, hbuf]
        rfl
      have hbyte : (byte w).val = w := by
        rw [val_byte]
        omega
      rw [readVarintFrom, hhead]
      simp only [hbyte]
      rw [if_pos (by omega), Nat.mod_eq_of_lt (by omega : w < 128), Nat.mod_eq_of_lt hw]
      rfl

theorem readVarint_putUvarint {more : Bytes} {n : ℕ} (hn : n < 2 ^ 32)
    (hbuf : s.buf.drop s.pos = putUvarint n ++ more) :
    s.readVarint = (some n, { s with pos := s.pos + (putUvarint n).length }) := by
  have hrun : readVarintFrom s.buf 10 0 0 s.pos =
      (some (0 + n * 2 ^ 0), s.pos + (putUvarint n).length) :=
    readVarintFrom_putUvarintUpTo rfl (by decide) (by omega) hbuf
  simp only [readVarint, hrun, Option.map_some]
  rw [show (0 + n * 2 ^ 0) % 2 ^ 32 = n by omega]

theorem drop_add_length {buf pre more : Bytes} {pos : ℕ} (h : buf.drop pos = pre ++ more) :
    buf.drop (pos + pre.length) = more := by
  rw [← List.drop_drop, h, List.drop_left]

/-- **What is buffered is taken**, an entry at a time. -/
theorem Buffered.takeEntry {held : List (Bytes × Bytes)} (hb : s.Buffered (e :: held)) :
    ∃ pos, s.takeEntry = (some e, { s with pos := pos }) ∧ Buffered { s with pos := pos } held := by
  have hlen : s.filled - s.pos = packedLen e.1 e.2 + (held.flatMap packEntry).length := by
    have := congrArg List.length hb.content
    have hfilled := hb.filled_le
    simpa [Nat.min_eq_left hfilled] using this
  have hpos := hb.pos_le
  have hceiling : s.filled ≤ 2 ^ 24 := hb.ceiling
  have hpacked : packedLen e.1 e.2 =
      (putUvarint e.1.length).length + (putUvarint e.2.length).length + e.1.length + e.2.length :=
        rfl
  have hrest : s.buf.drop s.pos = putUvarint e.1.length ++ (putUvarint e.2.length ++ (e.1 ++ (e.2 ++
      (held.flatMap packEntry ++ s.buf.drop s.filled)))) := by
    have happ : s.buf.drop s.pos = (s.buf.take s.filled).drop s.pos ++ s.buf.drop s.filled := by
      conv_lhs => rw [← List.take_append_drop s.filled s.buf]
      exact List.drop_append_of_le_length (by
        rw [List.length_take, Nat.min_eq_left hb.filled_le]
        exact hpos)
    rw [happ, hb.content]
    simp [packEntry]
  -- the two lengths, and the position after each
  have hklen := readVarint_putUvarint (by omega) hrest
  have hrest₁ := drop_add_length hrest
  have hvlen := readVarint_putUvarint
    (s := { s with pos := s.pos + (putUvarint e.1.length).length }) (by omega) hrest₁
  have hrest₂ := drop_add_length hrest₁
  have hrest₃ := drop_add_length hrest₂
  refine ⟨s.pos + packedLen e.1 e.2, ?_, ⟨?_, hb.filled_le, hb.ceiling, ?_⟩⟩
  · simp only [GuestScan.takeEntry, hklen, hvlen]
    rw [if_neg (by omega), hrest₂, hrest₃, List.take_left, List.take_left, hpacked]
    simp only [Nat.add_assoc]
  · show s.pos + packedLen e.1 e.2 ≤ s.filled
    omega
  · show (s.buf.take s.filled).drop (s.pos + packedLen e.1 e.2) = _
    rw [← List.drop_drop, hb.content, List.flatMap_cons, ← length_packEntry, List.drop_left]

/-! ### A run of calls -/

/-- What the guest still gets: the entries in its buffer, and then the host's. -/
structure Delivers (mem : GuestMemory) (ctx : HostCtx) (s : GuestScan) (es : List (Bytes × Bytes)) :
    Prop where
  placed : Placed mem s
  split : ∃ held more, es = held ++ more ∧ s.Buffered held ∧ ctx.Serves s.h more ∧
    (s.done = true → more = [])

theorem Buffered.pos_lt {held : List (Bytes × Bytes)} (hb : s.Buffered held) :
    s.pos < s.filled ↔ held ≠ [] := by
  have hlen := congrArg List.length hb.content
  rw [List.length_drop, List.length_take, Nat.min_eq_left hb.filled_le] at hlen
  cases held with
  | nil =>
    rw [List.flatMap_nil, List.length_nil] at hlen
    simp only [ne_eq, not_true, iff_false]
    omega
  | cons e held =>
    have htwo := two_le_packedLen e.1 e.2
    rw [List.flatMap_cons, List.length_append, length_packEntry] at hlen
    simp only [ne_eq, reduceCtorEq, not_false_eq_true, iff_true]
    omega

/-- **A call of `next`** gives the next entry, if there is one and it is within the
ceiling. -/
theorem Delivers.next (hd : Delivers mem ctx s es)
    (hsmall : ∀ e ∈ es.head?, packedLen e.1 e.2 ≤ batchCeiling)
    (hroom : ∀ e ∈ es.head?, packedLen e.1 e.2 ≤ mem.room) :
    ∃ ctx' s', GuestScan.next mem 2 ctx s = .ok (es.head?, ctx', s') ∧
      Delivers mem ctx' s' es.tail := by
  obtain ⟨held, more, rfl, hb, hserves, hdone⟩ := hd.split
  cases held with
  | cons e held =>
    obtain ⟨pos, htake, hb'⟩ := hb.takeEntry
    refine ⟨ctx, { s with pos := pos }, ?_, ⟨hd.placed.1, hd.placed.2⟩, held, more, rfl, hb',
      hserves, hdone⟩
    rw [GuestScan.next, if_pos (hb.pos_lt.mpr (List.cons_ne_nil _ _)), htake]
    rfl
  | nil =>
    -- the buffer is used up: the next batch is fetched
    have hempty : ¬s.pos < s.filled := fun h => hb.pos_lt.mp h rfl
    cases more with
    | nil =>
      by_cases hended : s.done = true
      · refine ⟨ctx, s, ?_, hd⟩
        rw [GuestScan.next, if_neg hempty, if_pos hended]
        rfl
      · obtain ⟨ctx', hrefill, hserves'⟩ := refill_nil hserves 1
        refine ⟨ctx', { s with done := true }, ?_,
          ⟨hd.placed.1, hd.placed.2⟩, [], [], rfl,
            ⟨hb.pos_le, hb.filled_le, hb.ceiling, hb.content⟩, hserves', fun _ => rfl⟩
        rw [GuestScan.next, if_neg hempty, if_neg hended, hrefill]
        rfl
    | cons e more =>
      have hended : ¬s.done = true := fun h => List.cons_ne_nil _ _ (hdone h)
      obtain ⟨taken, rest, ctx', s', hes, htaken, hrefill, hserves', hp', hb', hdone'⟩ :=
        refill_spec hd.placed hserves (hsmall e rfl) (hroom e rfl)
      obtain ⟨e', taken, rfl⟩ := List.exists_cons_of_ne_nil htaken
      obtain ⟨rfl, rfl⟩ : e = e' ∧ more = taken ++ rest := by simpa using hes
      obtain ⟨pos, htake, hb''⟩ := hb'.takeEntry
      refine ⟨ctx', { s' with pos := pos }, ?_,
        ⟨hp'.1, hp'.2⟩, taken, rest, rfl, hb'', hserves', fun h =>
          absurd (hdone'.symm.trans h) hended⟩
      rw [GuestScan.next, if_neg hempty, if_neg hended, hrefill]
      simp only [Except.map, htake]
      rfl

/-- An entry over the ceiling is never delivered: the call does not come back. -/
theorem Delivers.next_running (hd : Delivers mem ctx s (e :: es))
    (hlarge : batchCeiling < packedLen e.1 e.2)
    (hroom : packedLen e.1 e.2 ≤ mem.room) (rounds : ℕ) :
    GuestScan.next mem rounds ctx s = .error .running := by
  obtain ⟨held, more, hes, hb, hserves, hdone⟩ := hd.split
  cases held with
  | cons e' held =>
    -- what is buffered has gone through the host
    obtain ⟨rfl, -⟩ : e = e' ∧ es = held ++ more := by simpa using hes
    have hlen := congrArg List.length hb.content
    rw [List.length_drop, List.length_take, Nat.min_eq_left hb.filled_le, List.flatMap_cons,
      List.length_append, length_packEntry] at hlen
    have := hb.ceiling
    omega
  | nil =>
    obtain rfl : e :: es = more := hes
    have hempty : ¬s.pos < s.filled := fun h => hb.pos_lt.mp h rfl
    have hended : ¬s.done = true := fun h => List.cons_ne_nil _ _ (hdone h)
    rw [GuestScan.next, if_neg hempty, if_neg hended, refill_running hd.placed hserves hlarge hroom]
    rfl

/-- **A run of calls** gives the entries one after the other, and then nothing. -/
theorem Delivers.nexts (n : ℕ) (hd : Delivers mem ctx s es)
    (hsmall : ∀ e ∈ es.take n, packedLen e.1 e.2 ≤ batchCeiling)
    (hroom : ∀ e ∈ es, packedLen e.1 e.2 ≤ mem.room) :
    ∃ ctx' s', GuestScan.nexts mem 2 n ctx s = .ok ((List.range n).map (es[·]?), ctx', s') ∧
      Delivers mem ctx' s' (es.drop n) := by
  induction n generalizing ctx s es with
  | zero => exact ⟨ctx, s, rfl, hd⟩
  | succ n ih =>
    obtain ⟨ctx₁, s₁, hnext, hd₁⟩ := hd.next (fun e he => hsmall e (List.mem_of_mem_head? (by
      rwa [List.head?_take, if_neg n.succ_ne_zero]))) fun e he => hroom e (List.mem_of_mem_head? he)
    obtain ⟨ctx₂, s₂, hnexts, hd₂⟩ := ih hd₁
      (fun e he => hsmall e (by
        cases es with
        | nil => simp at he
        | cons e₀ es => exact List.mem_cons_of_mem _ he))
      fun e he => hroom e (List.mem_of_mem_tail he)
    refine ⟨ctx₂, s₂, ?_, by rwa [List.drop_tail] at hd₂⟩
    rw [GuestScan.nexts, hnext]
    simp only [Except.bind, hnexts, Except.map]
    rw [List.range_succ_eq_map, List.map_cons, List.map_map]
    refine congrArg Except.ok (Prod.ext (congrArg₂ List.cons ?_ ?_) rfl)
    · exact List.head?_eq_getElem?
    · refine List.map_congr_left fun i _ => ?_
      simp

theorem next_mono {rounds : ℕ} {r : Option (Bytes × Bytes) × HostCtx × GuestScan}
    (h : next mem rounds ctx s = .ok r) : next mem (rounds + 1) ctx s = .ok r := by
  rw [next] at h ⊢
  split_ifs at h ⊢
  · exact h
  · exact h
  · cases hr : refill mem rounds ctx s with
    | error stop =>
      rw [hr] at h
      cases h
    | ok r' =>
      rw [hr] at h
      rw [refill_mono hr]
      exact h

theorem nexts_mono {rounds rounds' n : ℕ} {r : List (Option (Bytes × Bytes)) × HostCtx × GuestScan}
    (hle : rounds ≤ rounds') (h : nexts mem rounds n ctx s = .ok r) :
    nexts mem rounds' n ctx s = .ok r := by
  induction rounds', hle using Nat.le_induction with
  | base => exact h
  | succ rounds' _ ih =>
    clear h
    induction n generalizing ctx s r with
    | zero => exact ih
    | succ n ihn =>
      rw [nexts] at ih ⊢
      cases hr : next mem rounds' ctx s with
      | error stop =>
        rw [hr] at ih
        cases ih
      | ok r₁ =>
        rw [hr] at ih
        rw [next_mono hr]
        simp only [Except.bind] at ih ⊢
        cases hrs : nexts mem rounds' n r₁.2.1 r₁.2.2 with
        | error stop =>
          rw [hrs] at ih
          cases ih
        | ok rs =>
          rw [hrs] at ih
          rw [ihn hrs]
          exact ih

/-- A call that stops, after calls that came back. -/
theorem nexts_stop {rounds n : ℕ} {rs : List (Option (Bytes × Bytes))} {ctx' : HostCtx}
    {s' : GuestScan} {stop : GuestStop} (h : nexts mem rounds n ctx s = .ok (rs, ctx', s'))
    (hstop : next mem rounds ctx' s' = .error stop) :
    nexts mem rounds (n + 1) ctx s = .error stop := by
  induction n generalizing ctx s rs with
  | zero =>
    obtain ⟨-, rfl, rfl⟩ : rs = [] ∧ ctx = ctx' ∧ s = s' := by simpa [nexts, eq_comm] using h
    rw [nexts, hstop]
    rfl
  | succ n ih =>
    rw [nexts] at h ⊢
    cases hr : next mem rounds ctx s with
    | error stop =>
      rw [hr] at h
      cases h
    | ok r =>
      rw [hr] at h
      simp only [Except.bind] at h ⊢
      cases hrs : nexts mem rounds n r.2.1 r.2.2 with
      | error stop =>
        rw [hrs] at h
        cases h
      | ok rest =>
        rw [hrs] at h
        obtain ⟨-, hend⟩ : _ ∧ rest.2 = (ctx', s') := by simpa [Except.map] using h
        have hrest : nexts mem rounds n r.2.1 r.2.2 = .ok (rest.1, ctx', s') := by rw [hrs, ← hend]
        rw [ih hrest]
        rfl

/-- A scan that has just been opened delivers what the host's iterator yields. -/
theorem delivers_of_opened {h : BitVec 32} {it : ScanIter} (hopen : opened mem h = .ok s)
    (hscan : ctx.scan? h = some ⟨it, none, false⟩) (hit : it.Yields es) :
    Delivers mem ctx s es := by
  obtain ⟨ptr, hbuf, hinside⟩ := newBuf_eq mem.initial_le
  rw [opened, hbuf] at hopen
  obtain rfl : { h := h, ptr := ptr, buf := List.replicate (2 ^ 14) 0 } = s := Except.ok.inj hopen
  have hlen : (List.replicate (2 ^ 14) (0 : Byte)).length = 2 ^ 14 := List.length_replicate
  refine ⟨⟨?_, ?_⟩, [], es, rfl, ⟨le_rfl, Nat.zero_le _, Nat.zero_le _, rfl⟩, ⟨_, hscan, rfl, hit⟩,
    fun hdone => absurd hdone (by simp)⟩
  · show ptr.toNat + (List.replicate (2 ^ 14) (0 : Byte)).length ≤ _
    rwa [hlen]
  · show (List.replicate (2 ^ 14) (0 : Byte)).length ≤ _
    rw [hlen]
    exact mem.initial_le

/-- The calls up to an entry over the ceiling never all come back. -/
theorem Delivers.nexts_running {small large : List (Bytes × Bytes)}
    (hd : Delivers mem ctx s (small ++ e :: large))
    (hsmall : ∀ e ∈ small, packedLen e.1 e.2 ≤ batchCeiling)
    (hroom : ∀ e' ∈ small ++ e :: large, packedLen e'.1 e'.2 ≤ mem.room)
    (hlarge : batchCeiling < packedLen e.1 e.2)
    (rounds : ℕ) (r : List (Option (Bytes × Bytes)) × HostCtx × GuestScan) :
    GuestScan.nexts mem rounds (small.length + 1) ctx s ≠ .ok r := by
  intro hok
  obtain ⟨ctx', s', hnexts, hd'⟩ := hd.nexts small.length (by rwa [List.take_left]) hroom
  rw [List.drop_left] at hd'
  have hstop := nexts_stop (nexts_mono (Nat.le_add_left 2 rounds) hnexts)
    (hd'.next_running hlarge (hroom e (by simp)) (rounds + 2))
  rw [nexts_mono (Nat.le_add_right rounds 2) hok] at hstop
  cases hstop

end GuestScan

/-- **A guest's scan is exact** exactly if no entry packs into more than the host's
ceiling: every number of calls of `next` then comes back, with the entries of the
host's iterator in order, each once, and with nothing after them. -/
theorem guest_scan_exact_iff {mem : GuestMemory} {ctx : HostCtx} {h : BitVec 32} {it : ScanIter}
    {s : GuestScan} {entries : List (Bytes × Bytes)} (hopen : GuestScan.opened mem h = .ok s)
    (hscan : ctx.scan? h = some ⟨it, none, false⟩) (hit : it.Yields entries)
    (hroom : ∀ e ∈ entries, packedLen e.1 e.2 ≤ mem.room) :
    (∀ n, ∃ rounds ctx' s',
        GuestScan.nexts mem rounds n ctx s = .ok ((List.range n).map (entries[·]?), ctx', s')) ↔
      ∀ e ∈ entries, packedLen e.1 e.2 ≤ batchCeiling := by
  have hd := GuestScan.delivers_of_opened hopen hscan hit
  refine ⟨fun hruns e he => ?_, fun hsmall n => ?_⟩
  · by_contra hlarge
    -- the first entry over the ceiling
    obtain ⟨e, hfirst⟩ := Option.isSome_iff_exists.mp
      (List.find?_isSome.mpr ⟨e, he, decide_eq_true (not_le.mp hlarge)⟩ :
        (entries.find? fun e => decide (batchCeiling < packedLen e.1 e.2)).isSome)
    obtain ⟨hlarge, small, large, rfl, hsmall⟩ := List.find?_eq_some_iff_append.mp hfirst
    obtain ⟨rounds, ctx', s', hrun⟩ := hruns (small.length + 1)
    exact hd.nexts_running (fun e he => by simpa using hsmall e he) hroom
      (of_decide_eq_true hlarge) rounds _ hrun
  · obtain ⟨ctx', s', hrun, -⟩ := hd.nexts n (fun e he => hsmall e (List.mem_of_mem_take he)) hroom
    exact ⟨2, ctx', s', hrun⟩

/-! ### A module with 64 MiB -/

/-- Half of its memory is free for one buffer. -/
def guestMemory : GuestMemory where
  bytes := List.replicate (2 ^ 26) 0
  alloc len := if len ≤ 2 ^ 25 then some (BitVec.ofNat 32 (2 ^ 25)) else none
  room := 2 ^ 25
  initial_le := by decide
  room_lt := by decide
  fits len hlen := by
    refine ⟨_, if_pos hlen, ?_⟩
    rw [List.length_replicate, BitVec.toNat_ofNat]
    omega

/-- A query over a snapshot with one entry, its scan open as number 1. -/
def oneEntryCtx (e : Bytes × Bytes) : HostCtx :=
  { HostCtx.new (.readOnly 7) [] with scans := [(1, ⟨.db [.ok e], none, false⟩)], nextScan := 2 }

def openedScan : GuestScan :=
  { h := 1, ptr := BitVec.ofNat 32 (2 ^ 25), buf := List.replicate (2 ^ 14) 0 }

theorem opened_guestMemory : GuestScan.opened guestMemory 1 = .ok openedScan := by
  have hlen : (2 : ℕ) ^ 14 ≤ 2 ^ 25 := by decide
  have halloc : guestMemory.alloc (2 ^ 14) = some (BitVec.ofNat 32 (2 ^ 25)) := by
    show (if (2 : ℕ) ^ 14 ≤ 2 ^ 25 then some (BitVec.ofNat 32 (2 ^ 25)) else none) = _
    rw [if_pos hlen]
  rw [GuestScan.opened, GuestScan.newBuf, halloc]
  rfl

theorem guest_scan_exact_one :
    ∃ rounds ctx' s', GuestScan.nexts guestMemory rounds 3
      (oneEntryCtx ([byte 5], [byte 6, byte 7])) openedScan =
      .ok ((List.range 3).map ([([byte 5], [byte 6, byte 7])][·]?), ctx', s') :=
  (guest_scan_exact_iff opened_guestMemory rfl (ScanIter.yields_db [([byte 5], [byte 6, byte 7])])
    (show ∀ e ∈ [([byte 5], [byte 6, byte 7])], packedLen e.1 e.2 ≤ 2 ^ 25 by decide)).mpr
    (by decide) 3

/-- A key of one byte with a value of 2^24 bytes. -/
def bigEntry : Bytes × Bytes := ([byte 5], List.replicate (2 ^ 24) 0)

theorem packedLen_bigEntry : packedLen bigEntry.1 bigEntry.2 = 2 ^ 24 + 6 := by
  have hlen : bigEntry.2.length = 2 ^ 24 := List.length_replicate
  have hkey : bigEntry.1.length = 1 := rfl
  rw [packedLen, hlen, hkey]
  rfl

/-- The first call for an entry of 16 MiB never comes back, although the entry fits
the guest's memory. -/
theorem guest_scan_stuck :
    GuestScan.opened guestMemory 1 = .ok openedScan ∧
      (oneEntryCtx bigEntry).scan? 1 = some ⟨.db [.ok bigEntry], none, false⟩ ∧
      packedLen bigEntry.1 bigEntry.2 ≤ guestMemory.room ∧
      ∀ rounds, GuestScan.next guestMemory rounds (oneEntryCtx bigEntry) openedScan =
        .error .running := by
  have hroom : packedLen bigEntry.1 bigEntry.2 ≤ guestMemory.room := by
    rw [packedLen_bigEntry]
    decide
  have hlarge : batchCeiling < packedLen bigEntry.1 bigEntry.2 := by
    rw [packedLen_bigEntry]
    decide
  have hd : GuestScan.Delivers guestMemory (oneEntryCtx bigEntry) openedScan [bigEntry] :=
    GuestScan.delivers_of_opened opened_guestMemory rfl (ScanIter.yields_db [bigEntry])
  exact ⟨opened_guestMemory, rfl, hroom, hd.next_running hlarge hroom⟩

end Fluent31
