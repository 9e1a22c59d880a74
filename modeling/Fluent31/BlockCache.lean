/-
The block cache, as `cache.rs` shares it between the readers of all tables.

Sixteen shards lie behind as many locks; a key belongs to one of them, and every call
takes the lock of that shard only.  Readers that miss at the same time insert the same
block one after the other, so the calls come in any order.

* `BlockCache.Shows` — every shard stands for the bounded cache of the keys that belong
  to it;
* `shows_run` — any sequence of calls keeps that, the calls on other shards aside;
* `cache_exact` — what a reader gets from the cache, and how much the cache holds.
-/
import Fluent31.CacheShard
import Fluent31.SstReads

namespace Fluent31

namespace Cache

abbrev SHARDS : ℕ := 16

structure BlockCache where
  shards : Fin SHARDS → Shard

namespace BlockCache

/-- The capacity of a shard. -/
def per (capacity : ℕ) : ℕ := max (capacity / SHARDS) 1024

def new (capacity : ℕ) : BlockCache := ⟨fun _ => Shard.new (per capacity)⟩

def shard (key : Key) : Fin SHARDS :=
  ⟨(key.1 * 0x9e3779b97f4a7c15 % 2 ^ 64 ^^^ key.2) % SHARDS, Nat.mod_lt _ (Nat.succ_pos 15)⟩

def get (c : BlockCache) (key : Key) : Option (Option Bytes × BlockCache) := do
  let (got, s) ← (c.shards (shard key)).get key
  some (got, ⟨Function.update c.shards (shard key) s⟩)

def insert (c : BlockCache) (key : Key) (val : Bytes) : Option BlockCache := do
  let s ← (c.shards (shard key)).insert key val
  some ⟨Function.update c.shards (shard key) s⟩

def step (c : BlockCache) : Lru.Op Key Bytes → Option BlockCache
  | .get key => (c.get key).map Prod.snd
  | .insert key val => c.insert key val

def run (c : BlockCache) (ops : List (Lru.Op Key Bytes)) : Option BlockCache := ops.foldlM step c

/-! ### One shard among the others -/

/-- The calls that take the lock of a shard. -/
def own (i : Fin SHARDS) (ops : List (Lru.Op Key Bytes)) : List (Lru.Op Key Bytes) :=
  ops.filter fun op => decide (shard op.named = i)

/-- The bounded cache behind a shard after some calls. -/
def model (capacity : ℕ) (i : Fin SHARDS) (ops : List (Lru.Op Key Bytes)) : Lru Key Bytes :=
  Lru.run List.length ⟨[], per capacity⟩ (own i ops)

/-- Every shard holds what its own calls have left in it. -/
def Shows (capacity : ℕ) (ops : List (Lru.Op Key Bytes)) (c : BlockCache) : Prop :=
  ∀ i, (∃ order, (c.shards i).Holds order (model capacity i ops).held) ∧
    (c.shards i).cap = per capacity

variable {capacity : ℕ} {ops : List (Lru.Op Key Bytes)} {op : Lru.Op Key Bytes} {c c' : BlockCache}
    {i : Fin SHARDS}
  {key : Key} {val : Bytes}

/-- A call is one of its shard. -/
theorem step_eq (c : BlockCache) (op : Lru.Op Key Bytes) :
    c.step op = ((c.shards (shard op.named)).step op).map fun s =>
      ⟨Function.update c.shards (shard op.named) s⟩ := by
  cases op with
  | get key =>
    show ((c.shards (shard key)).get key >>= _).map _ =
      (((c.shards (shard key)).get key).map Prod.snd).map _
    cases (c.shards (shard key)).get key <;> rfl
  | insert key val =>
    show ((c.shards (shard key)).insert key val >>= _) =
      ((c.shards (shard key)).insert key val).map _
    cases (c.shards (shard key)).insert key val <;> rfl

theorem own_concat (i : Fin SHARDS) (ops : List (Lru.Op Key Bytes)) (op : Lru.Op Key Bytes) :
    own i (ops ++ [op]) = if shard op.named = i then own i ops ++ [op] else own i ops := by
  unfold own
  rw [List.filter_append]
  by_cases h : shard op.named = i <;> simp [h]

/-- The capacity is that of the shard. -/
theorem model_cap (capacity : ℕ) (i : Fin SHARDS) (ops : List (Lru.Op Key Bytes)) :
    (model capacity i ops).cap = per capacity := Lru.cap_run List.length _ _

/-- **One call** changes its own shard as it changes a bounded cache, and no other. -/
theorem Shows.step (h : Shows capacity ops c) (op : Lru.Op Key Bytes) :
    ∃ c', c.step op = some c' ∧ Shows capacity (ops ++ [op]) c' := by
  obtain ⟨⟨order, hholds⟩, hcap⟩ := h (shard op.named)
  obtain ⟨s', order', hs', hholds', hcap'⟩ := Shard.step_spec hholds op
  refine ⟨_, by rw [step_eq, hs']; rfl, fun i => ?_⟩
  by_cases hi : i = shard op.named
  · subst hi
    have hmodel : (⟨(model capacity (shard op.named) ops).held, (c.shards (shard op.named)).cap⟩ :
        Lru Key Bytes) = model capacity (shard op.named) ops := by
      rw [hcap, ← model_cap capacity (shard op.named) ops]
    have hnext : model capacity (shard op.named) (ops ++ [op]) =
        Lru.step List.length (model capacity (shard op.named) ops) op := by
      unfold model
      rw [own_concat, if_pos rfl, Lru.run, List.foldl_concat]
      rfl
    rw [hmodel, ← hnext] at hholds'
    simp only [Function.update_self]
    exact ⟨⟨order', hholds'⟩, hcap'.trans hcap⟩
  · have hsame : model capacity i (ops ++ [op]) = model capacity i ops := by
      unfold model
      rw [own_concat, if_neg (Ne.symm hi)]
    simp only [Function.update_of_ne hi, hsame]
    exact h i

/-- **Any sequence of calls** goes through, and leaves every shard with what its own
calls left in it. -/
theorem shows_run (capacity : ℕ) (ops : List (Lru.Op Key Bytes)) :
    ∃ c, (new capacity).run ops = some c ∧ Shows capacity ops c := by
  induction ops using List.reverseRecOn with
  | nil => exact ⟨new capacity, rfl, fun _ => ⟨⟨[], Shard.holds_new (per capacity)⟩, rfl⟩⟩
  | append_singleton ops op ih =>
    obtain ⟨c, hrun, hshows⟩ := ih
    obtain ⟨c', hc', hshows'⟩ := hshows.step op
    refine ⟨c', ?_, hshows'⟩
    unfold run at hrun ⊢
    rw [List.foldlM_append, hrun]
    simpa using hc'

/-- Calls on other shards insert nothing under a key. -/
theorem lastInserted_own (ops : List (Lru.Op Key Bytes)) (key : Key) :
    Lru.lastInserted (own (shard key) ops) key = Lru.lastInserted ops key := by
  induction ops using List.reverseRecOn with
  | nil => rfl
  | append_singleton ops op ih =>
    rw [own_concat]
    cases op with
    | get k =>
      rw [Lru.lastInserted_get]
      split
      · rw [Lru.lastInserted_get, ih]
      · exact ih
    | insert k v =>
      rw [Lru.lastInserted_insert]
      split
      · rw [Lru.lastInserted_insert, ih]
      · rename_i hother
        have hne : k ≠ key := fun heq => hother (congrArg shard heq)
        rw [if_neg hne, ih]

/-! ### The cache the readers of the tables rely on -/

/-- A call on the cache that the table reads are stated with. -/
def lookup (a : Sst.BlockCache) : Lru.Op Key Bytes → Sst.BlockCache
  | .get key => (a.get key).2
  | .insert key val => a.insert key val

def lookups (capacity : ℕ) (ops : List (Lru.Op Key Bytes)) : Sst.BlockCache :=
  ops.foldl lookup (Sst.BlockCache.new capacity)

theorem lookup_shards (a : Sst.BlockCache) (op : Lru.Op Key Bytes) (i : Fin SHARDS) :
    (lookup a op).shards i = if shard op.named = i then Lru.step List.length (a.shards i) op
    else a.shards i := by
  have hupdate (x : Lru Key Bytes) : Function.update a.shards (shard op.named) x i =
      if shard op.named = i then x else a.shards i := by
    rw [Function.update_apply]
    exact if_congr eq_comm rfl rfl
  cases op with
  | get key =>
    refine (hupdate _).trans ?_
    split
    · rename_i hi
      rw [← hi]
      rfl
    · rfl
  | insert key val =>
    refine (hupdate _).trans ?_
    split
    · rename_i hi
      rw [← hi]
      rfl
    · rfl

theorem lookups_shards (capacity : ℕ) (ops : List (Lru.Op Key Bytes)) (i : Fin SHARDS) :
    (lookups capacity ops).shards i = model capacity i ops := by
  induction ops using List.reverseRecOn with
  | nil => rfl
  | append_singleton ops op ih =>
    have hmodel : model capacity i (ops ++ [op]) =
        if shard op.named = i then Lru.step List.length (model capacity i ops) op
        else model capacity i ops := by
      unfold model
      rw [own_concat]
      split
      · rw [Lru.run, List.foldl_concat]
        rfl
      · rfl
    rw [hmodel, ← ih, ← lookup_shards]
    unfold lookups
    rw [List.foldl_concat]

/-- **The shared block cache.**  No sequence of calls runs out of a vector.  A `get` is
answered as by the cache that the table reads are stated with: with nothing, or with the
block that was inserted last under the key.  A shard holds no more bytes than its part
of the capacity, unless one block alone is larger, and what it holds is decided by the
calls on its own keys. -/
theorem cache_exact (capacity : ℕ) (ops : List (Lru.Op Key Bytes)) :
    ∃ c, (new capacity).run ops = some c ∧
      (∀ key, (c.get key).map Prod.fst = some ((lookups capacity ops).get key).1 ∧
        ((lookups capacity ops).get key).1 ∈ [none, Lru.lastInserted ops key]) ∧
      ∀ i, ∃ order held, (c.shards i).Holds order held ∧
        held = (Lru.run List.length ⟨[], per capacity⟩ (own i ops)).held ∧
        ((c.shards i).bytes ≤ per capacity ∨ ∃ e, held = [e]) := by
  obtain ⟨c, hrun, hshows⟩ := shows_run capacity ops
  refine ⟨c, hrun, fun key => ?_, fun i => ?_⟩
  · obtain ⟨⟨order, hholds⟩, hcap⟩ := hshows (shard key)
    -- the shard of the key stands for the cache that its own calls make
    have hmodel : (⟨(model capacity (shard key) ops).held, (c.shards (shard key)).cap⟩ :
        Lru Key Bytes) = (lookups capacity ops).shards (shard key) := by
      rw [hcap, lookups_shards, ← model_cap capacity (shard key) ops]
    obtain ⟨s', order', hget, -, -⟩ := Shard.get_spec hholds key
    rw [hmodel] at hget
    refine ⟨?_, ?_⟩
    · unfold get
      rw [hget]
      rfl
    · show (((lookups capacity ops).shards (shard key)).get key).1 ∈ _
      cases hanswer : (((lookups capacity ops).shards (shard key)).get key).1 with
      | none => exact List.mem_cons_self
      | some val =>
        have hheld := Lru.mem_of_get hanswer
        rw [lookups_shards] at hheld
        have hlast := (Lru.recent_run List.length (per capacity) (own (shard key) ops)).latest _
          hheld
        rw [lastInserted_own] at hlast
        rw [hlast]
        exact List.mem_cons_of_mem _ List.mem_cons_self
  · obtain ⟨⟨order, hholds⟩, -⟩ := hshows i
    refine ⟨order, _, hholds, rfl, ?_⟩
    rw [hholds.bytes]
    exact Lru.fits_run List.length (per capacity) (own i ops)

end BlockCache

end Cache

end Fluent31
