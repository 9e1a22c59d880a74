/-
Where a rebuild of a journal starts (`journal.rs`).

A rebuild looks for the last checkpoint that its base end follows; it writes the
base between them and replays what comes behind.  `replayed` is the part of the
records it uses.

* `replayed_behind_base`, `replayed_behind_header` — of the records before a
  complete base nothing is used;
* `replayed_base` — what is replayed of a base and the changes behind it.
-/
import Fluent31.Journal

namespace Fluent31

namespace Journal

structure Anchor where
  baseSeqno : ℕ
  /-- The index behind the checkpoint. -/
  baseStart : ℕ
  /-- The index of the base end. -/
  baseEnd : ℕ
  deriving DecidableEq

/-- The seqno behind the tag of a record. -/
def recordSeqno (rec : Bytes) : Except JournalError ℕ :=
  if rec.tail.length < 8 then .error (.store shortRead) else .ok (readLe (rec.tail.take 8))

/-- A base end at index `i`: it completes the open checkpoint, if there is one. -/
def completed (i : ℕ) (rec : Bytes) (cur : Option (ℕ × ℕ)) (best : Option Anchor) :
    Except JournalError (Option Anchor) :=
  match cur with
  | none => .ok best
  | some (ci, cseq) => (recordSeqno rec).map fun endSeq => some ⟨max cseq endSeq, ci + 1, i⟩

/-- The walk over the records: `cur` is the open checkpoint, `best` the last that
was completed. -/
def findAnchor :
    ℕ → Option (ℕ × ℕ) → Option Anchor → List Bytes → Except JournalError (Option Anchor)
  | _, _, best, [] => .ok best
  | i, cur, best, rec :: rest =>
    if rec.head? = some TAG_CHECKPOINT then
      (recordSeqno rec).bind fun seq => findAnchor (i + 1) (some (i, seq)) best rest
    else if rec.head? = some TAG_BASE_END then
      (completed i rec cur best).bind fun best => findAnchor (i + 1) none best rest
    else findAnchor (i + 1) cur best rest

def findLastCompleteCheckpoint (records : List Bytes) : Except JournalError Anchor :=
  (findAnchor 0 none none records).bind fun best =>
    match best with
    | none => .error (corrupt "journal has no complete base snapshot")
    | some anchor => .ok anchor

/-- What a rebuild uses: the seqno of the base, its records and those behind it. -/
structure Replayed where
  seqno : ℕ
  base : List Bytes
  deltas : List Bytes
  deriving DecidableEq

def Anchor.replayed (a : Anchor) (records : List Bytes) : Replayed :=
  ⟨a.baseSeqno, (records.drop a.baseStart).take (a.baseEnd - a.baseStart),
    records.drop (a.baseEnd + 1)⟩

def replayed (records : List Bytes) : Except JournalError Replayed :=
  (findLastCompleteCheckpoint records).map fun a => a.replayed records

/-! ### Records in front -/

def Anchor.shift (n : ℕ) (a : Anchor) : Anchor :=
  { a with baseStart := n + a.baseStart, baseEnd := n + a.baseEnd }

/-- The walk knows positions only from where it starts. -/
theorem findAnchor_shift (n i : ℕ) (cur : Option (ℕ × ℕ)) (best : Option Anchor)
    (records : List Bytes) :
    findAnchor (n + i) (cur.map fun c => (n + c.1, c.2)) (best.map (Anchor.shift n)) records =
      (findAnchor i cur best records).map (Option.map (Anchor.shift n)) := by
  induction records generalizing i cur best with
  | nil => rfl
  | cons rec rest ih =>
    unfold findAnchor
    by_cases hc : rec.head? = some TAG_CHECKPOINT
    · rw [if_pos hc, if_pos hc]
      cases recordSeqno rec with
      | error e => rfl
      | ok seq => exact ih (i + 1) (some (i, seq)) best
    · rw [if_neg hc, if_neg hc]
      by_cases he : rec.head? = some TAG_BASE_END
      · have hcompleted : completed (n + i) rec (cur.map fun c => (n + c.1, c.2))
          (best.map (Anchor.shift n)) =
            (completed i rec cur best).map (Option.map (Anchor.shift n)) := by
          cases cur with
          | none => rfl
          | some c =>
            show Except.map _ (recordSeqno rec) = Except.map _ (Except.map _ (recordSeqno rec))
            cases recordSeqno rec <;> rfl
        rw [if_pos he, if_pos he, hcompleted]
        cases completed i rec cur best with
        | error e => rfl
        | ok best => exact ih (i + 1) none best
      · rw [if_neg he, if_neg he]
        exact ih (i + 1) cur best

theorem findAnchor_append {i : ℕ} {cur : Option (ℕ × ℕ)} {best : Option Anchor} {ps qs : List Bytes}
    {r : Option Anchor} (h : findAnchor i cur best (ps ++ qs) = .ok r) :
    ∃ cur' best', findAnchor (i + ps.length) cur' best' qs = .ok r := by
  induction ps generalizing i cur best with
  | nil => exact ⟨cur, best, h⟩
  | cons p ps ih =>
    rw [List.cons_append, findAnchor] at h
    rw [List.length_cons, ← Nat.add_assoc, Nat.add_right_comm]
    split at h
    · cases hseq : recordSeqno p with
      | error e =>
        rw [hseq] at h
        exact absurd h (by simp [Except.bind])
      | ok seq =>
        rw [hseq] at h
        exact ih h
    · split at h
      · cases hcompleted : completed i p cur best with
        | error e =>
          rw [hcompleted] at h
          exact absurd h (by simp [Except.bind])
        | ok best =>
          rw [hcompleted] at h
          exact ih h
      · exact ih h

/-! ### A base -/

/-- A snapshot of the user keyspace. -/
structure Base where
  seq : ℕ
  pairs : List KeyValue
  deriving DecidableEq

def Base.payloads (base : Base) : List Bytes :=
  encodeCheckpoint base.seq :: (base.pairs.map encodeBase ++ [encodeBaseEnd base.seq])

theorem recordSeqno_cons (tag : Byte) (seq : ℕ) :
    recordSeqno (tag :: putU64 seq) = .ok (readLe (putU64 seq)) := by
  have hlen : (putU64 seq).length = 8 := length_putLe 8 seq
  unfold recordSeqno
  rw [List.tail_cons, if_neg (by omega), List.take_of_length_le (by omega)]

/-- Records that neither open nor close a base are passed over. -/
theorem findAnchor_pass {ps : List Bytes}
    (h : ∀ p ∈ ps, p.head? ≠ some TAG_CHECKPOINT ∧ p.head? ≠ some TAG_BASE_END)
    (i : ℕ) (cur : Option (ℕ × ℕ)) (best : Option Anchor) (rest : List Bytes) :
    findAnchor i cur best (ps ++ rest) = findAnchor (i + ps.length) cur best rest := by
  induction ps generalizing i with
  | nil => rfl
  | cons p ps ih =>
    obtain ⟨hc, he⟩ := h p List.mem_cons_self
    rw [List.cons_append, findAnchor, if_neg hc, if_neg he, ih fun q hq =>
      h q (List.mem_cons_of_mem _ hq)]
    rw [List.length_cons, Nat.add_assoc, Nat.add_comm 1]

theorem length_payloads (base : Base) : base.payloads.length = base.pairs.length + 2 := by
  rw [Base.payloads, List.length_cons, List.length_append, List.length_map]
  rfl

/-- Behind a complete base the walk has forgotten what came before. -/
theorem findAnchor_base (base : Base) (i : ℕ) (cur : Option (ℕ × ℕ)) (best : Option Anchor)
    (rest : List Bytes) :
    findAnchor i cur best (base.payloads ++ rest) =
      findAnchor (i + base.payloads.length) none
        (some ⟨readLe (putU64 base.seq), i + 1, i + base.pairs.length + 1⟩) rest := by
  have hpairs : ∀ p ∈ base.pairs.map encodeBase, p.head? ≠ some TAG_CHECKPOINT ∧
      p.head? ≠ some TAG_BASE_END := by
    intro p hp
    obtain ⟨kv, -, rfl⟩ := List.mem_map.mp hp
    simp [encodeBase, TAG_BASE, TAG_CHECKPOINT, TAG_BASE_END]
  have hpass := findAnchor_pass hpairs (i + 1) (some (i, readLe (putU64 base.seq))) best
    (encodeBaseEnd base.seq :: rest)
  have hend : findAnchor (i + 1 + base.pairs.length) (some (i, readLe (putU64 base.seq))) best
      (encodeBaseEnd base.seq :: rest) = findAnchor (i + 1 + base.pairs.length + 1) none
        (some ⟨readLe (putU64 base.seq), i + 1, i + 1 + base.pairs.length⟩) rest := by
    rw [findAnchor, if_neg (by simp [encodeBaseEnd, TAG_BASE_END, TAG_CHECKPOINT]),
      if_pos (by simp [encodeBaseEnd])]
    simp only [encodeBaseEnd, completed, recordSeqno_cons, Except.map, Except.bind, max_self]
  rw [List.length_map, hend] at hpass
  rw [length_payloads, Base.payloads, List.cons_append, List.append_assoc, findAnchor,
    if_pos (by simp [encodeCheckpoint])]
  rw [show i + (base.pairs.length + 2) = i + 1 + base.pairs.length + 1 by omega,
    show i + base.pairs.length + 1 = i + 1 + base.pairs.length by
      omega, ← hpass, encodeCheckpoint, recordSeqno_cons]
  rfl

theorem findAnchor_of_replayed {records : List Bytes} {r : Replayed}
    (h : replayed records = .ok r) :
    ∃ best, findAnchor 0 none none records = .ok best := by
  cases hfind : findAnchor 0 none none records with
  | error e =>
    rw [replayed, findLastCompleteCheckpoint, hfind] at h
    exact absurd h (by simp [Except.bind, Except.map])
  | ok best => exact ⟨best, rfl⟩

/-- In front of a complete base only what the walk stumbles over matters. -/
theorem replayed_front {old rest : List Bytes} {base : Base} {best : Option Anchor}
    (hfind : findAnchor 0 none none (old ++ (base.payloads ++ rest)) = .ok best) :
    replayed (old ++ (base.payloads ++ rest)) = replayed (base.payloads ++ rest) := by
  obtain ⟨cur', best', hfound⟩ := findAnchor_append hfind
  rw [Nat.zero_add, findAnchor_base] at hfound
  -- behind the base the walk finds the same anchors, shifted by what is in front
  have hshift := findAnchor_shift old.length base.payloads.length none
    (some ⟨readLe (putU64 base.seq), 1, base.pairs.length + 1⟩) rest
  have hplace : (some ⟨readLe (putU64 base.seq), old.length + 1, old.length + base.pairs.length +
      1⟩ : Option Anchor) =
      (some ⟨readLe (putU64 base.seq), 1, base.pairs.length + 1⟩ : Option Anchor).map
        (Anchor.shift old.length) := by
    rw [Nat.add_assoc]
    rfl
  rw [Option.map_none, ← hplace, hfound] at hshift
  have hown : findAnchor 0 none none (base.payloads ++ rest) =
      findAnchor base.payloads.length none
        (some ⟨readLe (putU64 base.seq), 1, base.pairs.length + 1⟩) rest := by
    rw [findAnchor_base, Nat.zero_add, Nat.zero_add, Nat.zero_add]
  cases hrest : findAnchor base.payloads.length none
      (some ⟨readLe (putU64 base.seq), 1, base.pairs.length + 1⟩) rest with
  | error e =>
    rw [hrest] at hshift
    exact absurd hshift (by simp [Except.map])
  | ok found =>
    rw [hrest] at hshift
    obtain rfl := Except.ok.inj hshift
    rw [replayed, findLastCompleteCheckpoint, hfind, replayed, findLastCompleteCheckpoint,
      hown, hrest]
    cases found with
    | none => rfl
    | some a =>
      refine congrArg Except.ok ?_
      simp only [Anchor.replayed, Anchor.shift, Replayed.mk.injEq, true_and]
      refine ⟨?_, ?_⟩
      · rw [List.drop_length_add_append, Nat.add_sub_add_left]
      · rw [Nat.add_assoc, List.drop_length_add_append]

/-- **Nothing before a complete base is used.** -/
theorem replayed_behind_base {old rest : List Bytes} {base : Base} {r : Replayed}
    (h : replayed (old ++ (base.payloads ++ rest)) = .ok r) :
    replayed (base.payloads ++ rest) = .ok r := by
  obtain ⟨best, hfind⟩ := findAnchor_of_replayed h
  rw [← h, replayed_front hfind]

/-- Nor a header before it. -/
theorem replayed_behind_header {old rest : List Bytes} {source : Source} {base : Base}
    {r : Replayed} (h : replayed (old ++ (headerPayload source :: base.payloads ++ rest)) = .ok r) :
    replayed (headerPayload source :: base.payloads ++ rest) = .ok r := by
  have hbase : replayed (base.payloads ++ rest) = .ok r := by
    have hfront : replayed
        ((old ++ [headerPayload source]) ++ (base.payloads ++ rest)) = .ok r := by
      rw [← h, List.append_assoc]
      rfl
    exact replayed_behind_base hfront
  obtain ⟨best, hfind⟩ := findAnchor_of_replayed hbase
  have hheader : ∀ p ∈ [headerPayload source], p.head? ≠ some TAG_CHECKPOINT ∧
      p.head? ≠ some TAG_BASE_END := by
    simp [headerPayload, TAG_HEADER, TAG_CHECKPOINT, TAG_BASE_END]
  have hpass := findAnchor_pass hheader 0 none none (base.payloads ++ rest)
  have hshift := findAnchor_shift 1 0 none none (base.payloads ++ rest)
  rw [hfind] at hshift
  rw [← hbase]
  exact replayed_front (hpass.trans hshift)

/-- What is used of a base and of changes behind it: all. -/
theorem replayed_base (base : Base) {rest : List Bytes}
    (h : ∀ p ∈ rest, p.head? ≠ some TAG_CHECKPOINT ∧ p.head? ≠ some TAG_BASE_END) :
    replayed (base.payloads ++ rest) =
      .ok ⟨readLe (putU64 base.seq), base.pairs.map encodeBase, rest⟩ := by
  have hrest := findAnchor_pass h (0 + base.payloads.length) none
    (some ⟨readLe (putU64 base.seq), 0 + 1, 0 + base.pairs.length + 1⟩) []
  rw [List.append_nil] at hrest
  have hbehind : (base.payloads ++ rest).drop (base.pairs.length + 2) = rest := by
    rw [← length_payloads, List.drop_left]
  rw [replayed, findLastCompleteCheckpoint, findAnchor_base, hrest]
  refine congrArg Except.ok ?_
  simp only [Anchor.replayed, Nat.zero_add, Replayed.mk.injEq, true_and]
  refine ⟨?_, hbehind⟩
  rw [Base.payloads, List.cons_append, List.drop_succ_cons, List.drop_zero, List.append_assoc,
    Nat.add_sub_cancel, List.take_left' (List.length_map _)]

end Journal

end Fluent31
