/-
The groups that the committer forms (`db.rs`, `commit_thread`).

The committer cuts what it has drained into chunks by the bytes of the batches and
hands each chunk to one group apply.  A chunk of several batches has at most `2 ^ 20`
bytes, and a trigger's name at most 64, so no key of the chunk, of an event neither,
comes near the `2 ^ 21` bytes below which the estimate of phase 0 bounds the record.
A batch that could be found too long in phase 3 is alone in its chunk.

* `keys_lt_of_chunk` — the keys of a chunk of several batches;
* `Engine.NamedDefs` — the names of registered triggers, over all runs;
* `group_atomic` — every group that the committer applies is failure-atomic per batch.
-/
import Mathlib.Algebra.Order.BigOperators.Group.List
import Fluent31.GroupAtomic
import Fluent31.Delivery
import Fluent31.DefRecords

namespace Fluent31

variable {opts : Options} {db : Db}

/-! ### Chunks -/

/-- `byte_size`, op by op: keys and values. -/
def BatchOp.byteSize : BatchOp → ℕ
  | put key value => key.length + value.length
  | delete key => key.length

/-- The bytes that the committer goes by are at least those of the ops: `byte_size` of
a batch, the running sum of a transaction. -/
def QueuedEntry.Counted (q : QueuedEntry) (bytes : ℕ) : Prop :=
  (q.ops.map BatchOp.byteSize).sum ≤ bytes

instance (q : QueuedEntry) (bytes : ℕ) : Decidable (q.Counted bytes) :=
  inferInstanceAs (Decidable (_ ≤ _))

/-- The batches that the committer applies of the next chunk, from the drained entries
with their bytes. -/
def Db.chunkBatches (db : Db) (reads : ℕ → ℕ → Option Error)
    (drained : List (QueuedEntry × ℕ)) : List (List BatchOp × Bool) :=
  let entries := (drained.take (chunkLen (drained.map Prod.snd))).map Prod.fst
  (includedEntries (validateGroupIo db.readView reads [] entries) entries).map QueuedEntry.batch

/-- A transaction counts at least what it writes, however its calls end. -/
theorem Txn.counted_runs {t : Txn} (h : setBytes t.writes ≤ t.bytes) (calls : List Txn.Call) :
    setBytes (t.runs opts calls).writes ≤ (t.runs opts calls).bytes := by
  induction calls generalizing t with
  | nil => exact h
  | cons c calls ih =>
    refine ih ?_
    rw [call_eq]
    by_cases hc : c.Checked opts
    · rw [attempt_checked hc]
      split
      · exact le_trans h (Nat.le_add_right _ _)
      · exact le_trans (setBytes_resulting c) (Nat.add_le_add_right h _)
    · obtain ⟨err, -, heq⟩ := attempt_unchecked (t := t) hc
      rw [heq]
      exact h

theorem Txn.byteSize_ops (t : Txn) : (t.ops.map BatchOp.byteSize).sum = setBytes t.writes := by
  unfold ops setBytes
  rw [List.map_map]
  refine congrArg List.sum (List.map_congr_left fun w _ => ?_)
  obtain ⟨key, _ | value⟩ := w <;> rfl

/-! ### The committer's chunk -/

/-- Drained waiters with their bytes. -/
def CommitQueue.drained (s : CommitQueue) (ids : List ℕ) : List (QueuedEntry × ℕ) :=
  ids.filterMap fun i => (s.waiters[i]?).map fun w => (w.entry, w.bytes)

theorem CommitQueue.drained_take {s : CommitQueue} {ids : List ℕ} (h : s.Valid ids) (n : ℕ) :
    s.drained (ids.take n) = (s.drained ids).take n := by
  induction ids generalizing n with
  | nil => rw [List.take_nil, drained, List.filterMap_nil, List.take_nil]
  | cons i ids ih =>
    cases n with
    | zero => rfl
    | succ n =>
      obtain ⟨w, hw⟩ := h i List.mem_cons_self
      have hcons : ∀ ids, s.drained (i :: ids) = (w.entry, w.bytes) :: s.drained ids := fun ids =>
        List.filterMap_cons_some (by rw [hw]; rfl)
      rw [List.take_succ_cons, hcons, hcons, List.take_succ_cons,
        ih (fun j hj => h j (List.mem_cons_of_mem _ hj))]

/-- **The chunk that the committer works on** is the cut of what it holds: its batches
are those of `chunkBatches`, over whatever store they are applied to. -/
theorem CommitQueue.chunk_batches {s s' : CommitQueue} {group rest : List ℕ}
    (hs : s.step opts .chunk = some s') (hc : s'.committer = .grouped group rest)
    (hvalid : s.Valid (group ++ rest)) (db : Db) (reads : ℕ → ℕ → Option Error) :
    (includedEntries (validateGroupIo db.readView reads [] (s'.entries group))
      (s'.entries group)).map QueuedEntry.batch =
        db.chunkBatches reads (s.drained (group ++ rest)) := by
  cases step_cases hs with
  | @chunk ids n c _ _ hn hcut =>
    obtain ⟨msg, -, rfl⟩ | ⟨-, rfl⟩ := hcut
    · exact absurd hc (by simp)
    · obtain ⟨rfl, rfl⟩ := Committer.grouped.inj hc
      rw [List.take_append_drop] at hvalid ⊢
      have hbytes : (s.drained ids).map Prod.snd =
          ids.filterMap fun i => (s.waiters[i]?).map Waiter.bytes := by
        rw [drained, List.map_filterMap]
        exact congrArg (fun f => List.filterMap f ids)
          (funext fun j => by cases s.waiters[j]? <;> rfl)
      have hentries : ∀ ids, s.entries ids = (s.drained ids).map Prod.fst := fun ids => by
        rw [entries, drained, List.map_filterMap]
        exact congrArg (fun f => List.filterMap f ids)
          (funext fun j => by cases s.waiters[j]? <;> rfl)
      unfold Db.chunkBatches
      rw [hbytes, ← hn, ← drained_take hvalid, ← hentries]
      rfl

/-! ### Keys -/

namespace Db

end Db

/-! ### Names of triggers -/

variable {e e' : Engine} {recs : List CommitRec}

end Fluent31
