/-
A shard of the block cache, as `cache.rs` keeps it.

The entries lie in slots that are chained through their indices, the most recently
used first; a map finds the slot of a key, a list has the slots that are free, and a
counter the bytes that are held.  Running out of a vector is a panic, `none` here.

* `Shard.Holds` — what the map, the chain, the free list and the counter have to do with
  the entries held;
* `Shard.get_spec`, `Shard.insert_spec` — one call does what it does to a bounded cache;
* `Shard.shard_spec` — every sequence of calls: the shard is one such cache.
-/
import Fluent31.Coding
import Fluent31.Lib.Linked
import Fluent31.Lib.Lru

namespace Fluent31

namespace Cache

/-- A file and the offset of a block. -/
abbrev Key := ℕ × ℕ

structure Node where
  key : Key
  val : Bytes
  prev : Option ℕ
  next : Option ℕ

structure Shard where
  map : Key → Option ℕ
  nodes : List Node
  free : List ℕ
  /-- Most recently used. -/
  head : Option ℕ
  /-- Least recently used. -/
  tail : Option ℕ
  bytes : ℕ
  cap : ℕ

namespace Shard

def new (cap : ℕ) : Shard := ⟨fun _ => none, [], [], none, none, 0, cap⟩

/-- `self.nodes[i].prev = p`. -/
def setPrev (s : Shard) (i : ℕ) (p : Option ℕ) : Option Shard :=
  if i < s.nodes.length then some { s with nodes := s.nodes.modify i fun n => { n with prev := p } }
  else none

/-- `self.nodes[i].next = n`. -/
def setNext (s : Shard) (i : ℕ) (n : Option ℕ) : Option Shard :=
  if i < s.nodes.length then some { s with nodes := s.nodes.modify i fun m => { m with next := n } }
  else none

/-- What is behind `p` is `n` now. -/
def joinNext (s : Shard) (p n : Option ℕ) : Option Shard :=
  match p with
  | some p => s.setNext p n
  | none => some { s with head := n }

/-- What is before `n` is `p` now. -/
def joinPrev (s : Shard) (n p : Option ℕ) : Option Shard :=
  match n with
  | some n => s.setPrev n p
  | none => some { s with tail := p }

def unlink (s : Shard) (i : ℕ) : Option Shard := do
  let node ← s.nodes[i]?
  let s ← s.joinNext node.prev node.next
  let s ← s.joinPrev node.next node.prev
  let s ← s.setPrev i none
  s.setNext i none

def pushFront (s : Shard) (i : ℕ) : Option Shard := do
  let s ← s.setPrev i none
  let s ← s.setNext i s.head
  let s ← s.head.elim (some s) fun h => s.setPrev h (some i)
  some { s with head := some i, tail := if s.tail = none then some i else s.tail }

def get (s : Shard) (key : Key) : Option (Option Bytes × Shard) :=
  match s.map key with
  | none => some (none, s)
  | some i => do
    let s ← s.unlink i
    let s ← s.pushFront i
    let node ← s.nodes[i]?
    some (some node.val, s)

/-- A slot for a node: the free one that was freed last, or a new one. -/
def allot (s : Shard) (node : Node) : Option (ℕ × Shard) :=
  match s.free.getLast? with
  | some i =>
    if i < s.nodes.length then
      some (i, { s with free := s.free.dropLast, nodes := s.nodes.set i node }) else none
  | none => some (s.nodes.length, { s with nodes := s.nodes ++ [node] })

/-- The first half of `insert`: the entry is in front. -/
def place (s : Shard) (key : Key) (val : Bytes) : Option Shard :=
  match s.map key with
  | some i => do
    let node ← s.nodes[i]?
    let s :=
      { s with
        bytes := s.bytes - node.val.length + val.length
        nodes := s.nodes.set i { node with val := val } }
    let s ← s.unlink i
    s.pushFront i
  | none => do
    let (i, s) ← s.allot ⟨key, val, none, none⟩
    let node ← s.nodes[i]?
    { s with
      bytes := s.bytes + node.val.length
      map := Function.update s.map key (some i) }.pushFront i

/-- The eviction loop, with `fuel` turns left; the entry in front stays. -/
def evict : ℕ → Shard → Option Shard
  | 0, _ => none
  | fuel + 1, s =>
    if s.cap < s.bytes then
      match s.tail with
      | none => some s
      | some victim =>
        if s.head = some victim then some s
        else do
          let node ← s.nodes[victim]?
          let s ← { s with
            bytes := s.bytes - node.val.length
            map := Function.update s.map node.key none }.unlink victim
          let node ← s.nodes[victim]?
          evict fuel
            { s with
              nodes := s.nodes.set victim { node with val := [] }
              free := s.free ++ [victim] }
    else some s

def insert (s : Shard) (key : Key) (val : Bytes) : Option Shard := do
  let s ← s.place key val
  s.evict (s.nodes.length + 1)

def step (s : Shard) : Lru.Op Key Bytes → Option Shard
  | .get key => (s.get key).map Prod.snd
  | .insert key val => s.insert key val

def run (s : Shard) (ops : List (Lru.Op Key Bytes)) : Option Shard := ops.foldlM step s

/-! ### Links and cells -/

/-- The chain through the slots. -/
def links (s : Shard) : Links where
  prev i := (s.nodes[i]?).bind Node.prev
  next i := (s.nodes[i]?).bind Node.next
  head := s.head
  tail := s.tail

/-- The entry in a slot. -/
def cell (s : Shard) (i : ℕ) : Option (Key × Bytes) :=
  (s.nodes[i]?).bind fun n => some (n.key, n.val)

/-- Only the links change, to `l`. -/
structure Relinks (s s' : Shard) (l : Links) : Prop where
  links : s'.links = l
  cell : s'.cell = s.cell
  length : s'.nodes.length = s.nodes.length
  map : s'.map = s.map
  free : s'.free = s.free
  bytes : s'.bytes = s.bytes
  cap : s'.cap = s.cap

variable {s s' s'' : Shard} {l : Links} {i : ℕ} {p n : Option ℕ}

theorem Relinks.trans {l' : Links} (h : s.Relinks s' l') (h' : s'.Relinks s'' l) :
    s.Relinks s'' l where
  links := h'.links
  cell := h'.cell.trans h.cell
  length := h'.length.trans h.length
  map := h'.map.trans h.map
  free := h'.free.trans h.free
  bytes := h'.bytes.trans h.bytes
  cap := h'.cap.trans h.cap

/-- A field that is written. -/
theorem bind_modify_field {α : Type} (f : Node → Option α) (g : Node → Node) {a : Option α}
    (hg : ∀ m, f (g m) = a) {nodes : List Node} (hi : i < nodes.length) (j : ℕ) :
    ((nodes.modify i g)[j]?).bind f = Function.update (fun j => (nodes[j]?).bind f) i a j := by
  rw [List.getElem?_modify, Function.update_apply]
  by_cases hj : j = i
  · rw [hj, List.getElem?_eq_getElem hi]
    simp [hg]
  · cases nodes[j]? <;> simp [hj, Ne.symm hj]

/-- A field that is not. -/
theorem bind_modify_other {α : Type} (f : Node → Option α) (g : Node → Node)
    (hg : ∀ m, f (g m) = f m)
    (nodes : List Node) (i j : ℕ) : ((nodes.modify i g)[j]?).bind f = (nodes[j]?).bind f := by
  rw [List.getElem?_modify]
  cases nodes[j]? with
  | none => rfl
  | some m => by_cases hj : i = j <;> simp [hj, hg]

theorem setPrev_spec (hi : i < s.nodes.length) (p : Option ℕ) :
    ∃ s', s.setPrev i p = some s' ∧ s.Relinks s' (s.links.setPrev i p) := by
  let g (m : Node) : Node := { m with prev := p }
  have hprev := bind_modify_field Node.prev g (fun _ => rfl) hi
  have hnext := bind_modify_other Node.next g (fun _ => rfl) s.nodes i
  have hcell := bind_modify_other (fun n => some (n.key, n.val)) g (fun _ => rfl) s.nodes i
  exact ⟨_, if_pos hi, Links.ext (funext hprev) (funext hnext) rfl rfl, funext hcell,
    List.length_modify .., rfl, rfl, rfl, rfl⟩

theorem setNext_spec (hi : i < s.nodes.length) (n : Option ℕ) :
    ∃ s', s.setNext i n = some s' ∧ s.Relinks s' (s.links.setNext i n) := by
  let g (m : Node) : Node := { m with next := n }
  have hprev := bind_modify_other Node.prev g (fun _ => rfl) s.nodes i
  have hnext := bind_modify_field Node.next g (fun _ => rfl) hi
  have hcell := bind_modify_other (fun n => some (n.key, n.val)) g (fun _ => rfl) s.nodes i
  exact ⟨_, if_pos hi, Links.ext (funext hprev) (funext hnext) rfl rfl, funext hcell,
    List.length_modify .., rfl, rfl, rfl, rfl⟩

theorem joinNext_spec (hp : ∀ j ∈ p, j < s.nodes.length) (n : Option ℕ) :
    ∃ s', s.joinNext p n = some s' ∧
      s.Relinks s' (p.elim { s.links with head := n } fun p => s.links.setNext p n) := by
  cases p with
  | none => exact ⟨_, rfl, rfl, rfl, rfl, rfl, rfl, rfl, rfl⟩
  | some j => exact setNext_spec (hp j rfl) n

theorem joinPrev_spec (hn : ∀ j ∈ n, j < s.nodes.length) (p : Option ℕ) :
    ∃ s', s.joinPrev n p = some s' ∧
      s.Relinks s' (n.elim { s.links with tail := p } fun n => s.links.setPrev n p) := by
  cases n with
  | none => exact ⟨_, rfl, rfl, rfl, rfl, rfl, rfl, rfl, rfl⟩
  | some j => exact setPrev_spec (hn j rfl) p

theorem unlink_spec (hi : i < s.nodes.length) (hp : ∀ j ∈ s.links.prev i, j < s.nodes.length)
    (hn : ∀ j ∈ s.links.next i, j < s.nodes.length) :
    ∃ s', s.unlink i = some s' ∧ s.Relinks s' (s.links.unlink i) := by
  obtain ⟨node, hnode⟩ : ∃ node, s.nodes[i]? = some node := ⟨_, List.getElem?_eq_getElem hi⟩
  have hprev : s.links.prev i = node.prev := by
    show (s.nodes[i]?).bind Node.prev = _
    rw [hnode]
    rfl
  have hnext : s.links.next i = node.next := by
    show (s.nodes[i]?).bind Node.next = _
    rw [hnode]
    rfl
  rw [hprev] at hp
  rw [hnext] at hn
  obtain ⟨s₁, h₁, hr₁⟩ := joinNext_spec hp node.next
  obtain ⟨s₂, h₂, hr₂⟩ := joinPrev_spec (n := node.next) (by rwa [hr₁.length]) node.prev
  have hr := hr₁.trans hr₂
  obtain ⟨s₃, h₃, hr₃⟩ := setPrev_spec (by rwa [hr.length]) none
  replace hr := hr.trans hr₃
  obtain ⟨s₄, h₄, hr₄⟩ := setNext_spec (by rwa [hr.length]) none
  replace hr := hr.trans hr₄
  refine ⟨s₄, ?_, ?_⟩
  · unfold Shard.unlink
    simp only [hnode, Option.bind_eq_bind, Option.bind_some, h₁, h₂, h₃, h₄]
  · rw [hr₃.links, hr₂.links, hr₁.links] at hr
    unfold Links.unlink
    rw [hprev, hnext]
    exact hr

theorem pushFront_spec (hi : i < s.nodes.length) (hh : ∀ j ∈ s.head, j < s.nodes.length) :
    ∃ s', s.pushFront i = some s' ∧ s.Relinks s' (s.links.pushFront i) := by
  -- the three writes in turn; the last one only if there is a head
  obtain ⟨s₁, h₁, hr₁⟩ := setPrev_spec hi none
  have hhead₁ : s₁.head = s.head := congrArg Links.head hr₁.links
  obtain ⟨s₂, h₂, hr₂⟩ := setNext_spec (s := s₁) (by rwa [hr₁.length]) s.head
  have hhead₂ : s₂.head = s.head := (congrArg Links.head hr₂.links).trans hhead₁
  have hr := hr₁.trans hr₂
  obtain ⟨s₃, h₃, hr₃⟩ : ∃ s₃, (s.head.elim (some s₂) fun h => s₂.setPrev h (some i)) = some s₃ ∧
      s₂.Relinks s₃ (s.head.elim s₂.links fun h => s₂.links.setPrev h (some i)) := by
    cases hhead : s.head with
    | none => exact ⟨_, rfl, rfl, rfl, rfl, rfl, rfl, rfl, rfl⟩
    | some h => exact setPrev_spec (by rw [hr.length]; exact hh h hhead) (some i)
  replace hr := hr.trans hr₃
  refine ⟨{ s₃ with head := some i, tail := if s₃.tail = none then some i else s₃.tail }, ?_, ?_⟩
  · unfold Shard.pushFront
    simp only [Option.bind_eq_bind, h₁, Option.bind_some, hhead₁, h₂, hhead₂, h₃]
  · refine ⟨?_, hr.cell, hr.length, hr.map, hr.free, hr.bytes, hr.cap⟩
    have hlinks := hr₃.links
    rw [hr₂.links, hr₁.links] at hlinks
    have htail : s₃.tail = s.tail := by
      have htail := congrArg Links.tail hlinks
      refine htail.trans ?_
      cases s.head <;> rfl
    unfold Links.pushFront
    refine Links.ext ?_ ?_ rfl ?_
    · show s₃.links.prev = _
      rw [hlinks]
      rfl
    · show s₃.links.next = _
      rw [hlinks]
      rfl
    · show (if s₃.tail = none then some i else s₃.tail) = s.tail.or (some i)
      rw [htail]
      cases s.tail <;> rfl

/-! ### What is held -/

/-- The entries held, the most recently used first, lie in the slots of `order`. -/
structure Holds (s : Shard) (order : List ℕ) (held : List (Key × Bytes)) : Prop where
  through : s.links.Through order
  cells : order.map s.cell = held.map some
  map : ∀ key i, s.map key = some i ↔ i ∈ order ∧ ∃ val, s.cell i = some (key, val)
  /-- Every slot is in use or free. -/
  slots : ∀ i, i < s.nodes.length ↔ i ∈ order ∨ i ∈ s.free
  free : s.free.Nodup
  apart : ∀ i ∈ s.free, i ∉ order
  bytes : s.bytes = Lru.size List.length held

variable {order pre post : List ℕ} {held before behind : List (Key × Bytes)} {key : Key}
    {val : Bytes} {e : Key × Bytes}

theorem holds_new (cap : ℕ) : (new cap).Holds [] [] where
  through := Links.through_nil (l := (new cap).links)
  cells := rfl
  map key i := ⟨fun h => absurd h (by simp [new]), fun h => absurd h.1 List.not_mem_nil⟩
  slots i := ⟨fun h => absurd h (Nat.not_lt_zero i), fun h => absurd h (by simp [new])⟩
  free := List.nodup_nil
  apart i h := absurd h (by simp [new])
  bytes := rfl

namespace Holds

theorem length_eq (h : s.Holds order held) : order.length = held.length := by
  have hlen := congrArg List.length h.cells
  rwa [List.length_map, List.length_map] at hlen

theorem lt_length (h : s.Holds order held) (hi : i ∈ order) : i < s.nodes.length :=
  (h.slots i).mpr (Or.inl hi)

/-- The slots of the entries around one. -/
theorem cells_split (h : s.Holds (pre ++ i :: post) (before ++ e :: behind))
    (hlen : pre.length = before.length) :
    pre.map s.cell = before.map some ∧ s.cell i = some e ∧ post.map s.cell = behind.map some := by
  have hcells := h.cells
  rw [List.map_append, List.map_append, List.map_cons, List.map_cons] at hcells
  obtain ⟨hpre, hrest⟩ := List.append_inj hcells (by rw [List.length_map, List.length_map, hlen])
  exact ⟨hpre, List.cons.inj hrest⟩

/-- **A key of the map** has its slot in the list, and no other entry has it. -/
theorem split (h : s.Holds order held) (hkey : s.map key = some i) :
    ∃ pre post before val behind, order = pre ++ i :: post ∧ held = before ++ (key, val) :: behind ∧
      pre.length = before.length ∧ s.cell i = some (key, val) ∧ ∀ e ∈ before ++ behind,
        e.1 ≠ key := by
  obtain ⟨hi, val, hcell⟩ := (h.map key i).mp hkey
  obtain ⟨pre, post, rfl⟩ := List.append_of_mem hi
  have hcells := h.cells
  rw [List.map_append, List.map_cons, hcell] at hcells
  obtain ⟨before, rest, rfl, hbefore, hrest⟩ := List.map_eq_append_iff.mp hcells.symm
  obtain ⟨e, behind, rfl, he, hbehind⟩ := List.map_eq_cons_iff.mp hrest
  obtain rfl := Option.some.inj he
  have hlen := congrArg List.length hbefore
  rw [List.length_map, List.length_map] at hlen
  refine ⟨pre, post, before, val, behind, rfl, rfl, hlen.symm, hcell, fun f hf heq => ?_⟩
  -- the same key in two slots
  obtain ⟨j, hj, hjcell⟩ : ∃ j ∈ pre ++ post, s.cell j = some f := by
    have hmem : some f ∈ (pre ++ post).map s.cell := by
      rw [List.map_append, ← hbefore, ← hbehind, ← List.map_append]
      exact List.mem_map_of_mem hf
    exact List.mem_map.mp hmem
  have hjorder : j ∈ pre ++ i :: post :=
    (List.sublist_append_right [i] post).append_left pre |>.subset hj
  have hjmap := (h.map key j).mpr ⟨hjorder, f.2, by rw [hjcell, ← heq]⟩
  obtain rfl := Option.some.inj (hkey.symm.trans hjmap)
  exact (List.nodup_middle.mp h.through.nodup).notMem hj

/-- A key that the map does not have is not held. -/
theorem not_held (h : s.Holds order held) (hkey : s.map key = none) : ∀ e ∈ held, e.1 ≠ key := by
  intro e he heq
  have hmem : some e ∈ order.map s.cell := h.cells ▸ List.mem_map_of_mem he
  obtain ⟨i, hi, hcell⟩ := List.mem_map.mp hmem
  have hmap := (h.map key i).mpr ⟨hi, e.2, by rw [hcell, ← heq]⟩
  exact absurd (hkey.symm.trans hmap) (by simp)

theorem inside (h : s.Holds order held) (hi : i ∈ order) :
    (∀ j ∈ s.links.prev i, j < s.nodes.length) ∧ ∀ j ∈ s.links.next i, j < s.nodes.length := by
  obtain ⟨pre, post, rfl⟩ := List.append_of_mem hi
  obtain ⟨hprev, hnext⟩ := h.through.link pre i post rfl
  rw [hprev, hnext]
  exact ⟨fun j hj => h.lt_length (List.mem_append_left _ (List.mem_of_getLast? hj)),
    fun j hj => h.lt_length
      (List.mem_append_right _ (List.mem_cons_of_mem _ (List.mem_of_head? hj)))⟩

theorem size_perm {es fs : List (Key × Bytes)} (h : es.Perm fs) :
    Lru.size List.length es = Lru.size List.length fs :=
  (h.map _).sum_nat

/-- **A slot comes to the front.** -/
theorem promote (h : s.Holds (pre ++ i :: post) (before ++ e :: behind))
    (hlen : pre.length = before.length) :
    ∃ s₁ s₂, s.unlink i = some s₁ ∧ s₁.pushFront i = some s₂ ∧
      s₂.Holds (i :: (pre ++ post)) (e :: (before ++ behind)) ∧ s₂.cell = s.cell ∧
      s₂.cap = s.cap := by
  have hi : i ∈ pre ++ i :: post := List.mem_append_right _ List.mem_cons_self
  -- the slots are the same, so map, free list and bytes are
  have hmem : ∀ j, j ∈ i :: (pre ++ post) ↔ j ∈ pre ++ i :: post :=
    fun j => List.perm_middle.mem_iff.symm
  obtain ⟨hprev, hnext⟩ := h.inside hi
  obtain ⟨s₁, h₁, hr₁⟩ := unlink_spec (h.lt_length hi) hprev hnext
  have hthrough₁ : s₁.links.Through (pre ++ post) := hr₁.links ▸ h.through.unlink
  obtain ⟨s₂, h₂, hr₂⟩ :=
    pushFront_spec (s := s₁) (i := i) (by rw [hr₁.length]; exact h.lt_length hi) fun j hj => by
    rw [hr₁.length]
    refine h.lt_length ((hmem j).mp (List.mem_cons_of_mem _ ?_))
    exact List.mem_of_head? (hthrough₁.head.symm.trans hj)
  have hr := hr₁.trans hr₂
  have hnot : i ∉ pre ++ post := (List.nodup_middle.mp h.through.nodup).notMem
  obtain ⟨hpre, hcell, hpost⟩ := h.cells_split hlen
  refine ⟨s₁, s₂, h₁, h₂, ⟨hr₂.links ▸ hthrough₁.pushFront hnot, ?_, fun key j => ?_,
    fun j => ?_, ?_, fun j hj => ?_, ?_⟩, hr.cell, hr.cap⟩
  · rw [hr.cell, List.map_cons, List.map_append, hpre, hcell, hpost, ← List.map_append]
    rfl
  · rw [hr.map, hr.cell, hmem, h.map]
  · rw [hr.length, hr.free, hmem, h.slots]
  · rw [hr.free]
    exact h.free
  · rw [hmem]
    exact h.apart j (hr.free ▸ hj)
  · rw [hr.bytes, h.bytes]
    exact size_perm List.perm_middle

end Holds

/-- **`get`** of a shard is that of a bounded cache. -/
theorem get_spec (h : s.Holds order held) (key : Key) :
    ∃ s' order', s.get key = some ((Lru.get ⟨held, s.cap⟩ key).1, s') ∧
      s'.Holds order' (Lru.get ⟨held, s.cap⟩ key).2.held ∧ s'.cap = s.cap := by
  unfold Shard.get Lru.get
  cases hmap : s.map key with
  | none =>
    have hmiss : held.find? (fun e => decide (e.1 = key)) = none :=
      List.find?_eq_none.mpr fun e he => by simpa using h.not_held hmap e he
    rw [hmiss]
    exact ⟨s, order, rfl, h, rfl⟩
  | some i =>
    obtain ⟨pre, post, before, val, behind, rfl, rfl, hlen, hcell, hothers⟩ := h.split hmap
    obtain ⟨s₁, s₂, h₁, h₂, hholds, hcells, hcap⟩ := h.promote hlen
    obtain ⟨node, hnode, hpair⟩ := Option.bind_eq_some_iff.mp ((congrFun hcells i).trans hcell)
    -- the key is held once, at the place of its slot
    have hfind : (before ++ (key, val) :: behind).find? (fun e => decide (e.1 = key)) = some
        (key, val) := by
      rw [List.find?_append, List.find?_eq_none.mpr
        fun e he => by simpa using hothers e (List.mem_append_left _ he)]
      simp
    have hrest : (before ++ (key, val) :: behind).filter (fun e => decide (e.1 ≠ key)) = before ++
        behind := by
      rw [List.filter_append, List.filter_cons_of_neg (by simp), ← List.filter_append]
      exact List.filter_eq_self.mpr fun e he => decide_eq_true (hothers e he)
    have hval : node.val = val := (Prod.mk.inj (Option.some.inj hpair)).2
    refine ⟨s₂, i :: (pre ++ post), ?_, ?_, hcap⟩
    · simp only [Option.bind_eq_bind, h₁, h₂, Option.bind_some, hnode, hfind, hval]
    · rw [hfind]
      show s₂.Holds _
        ((key, val) :: (before ++ (key, val) :: behind).filter fun e => decide (e.1 ≠ key))
      rw [hrest]
      exact hholds

/-! ### Insertion -/

/-- A slot for a node is neither in the list nor free any more. -/
theorem allot_spec (h : s.Holds order held) (node : Node) :
    ∃ i s', s.allot node = some (i, s') ∧ i ∉ order ∧ s'.nodes[i]? = some node ∧
      (∀ j, j ≠ i → s'.nodes[j]? = s.nodes[j]?) ∧
      (∀ j, j < s'.nodes.length ↔ j ∈ i :: order ∨ j ∈ s'.free) ∧ s'.free.Nodup ∧
      (∀ j ∈ s'.free, j ∉ i :: order) ∧
      s'.map = s.map ∧ s'.head = s.head ∧ s'.tail = s.tail ∧ s'.bytes = s.bytes ∧
      s'.cap = s.cap := by
  unfold allot
  cases hlast : s.free.getLast? with
  | none =>
    -- no slot is free: the slab grows by one
    have hnil := List.getLast?_eq_none_iff.mp hlast
    have hnot : s.nodes.length ∉ order := fun hi => (h.lt_length hi).false
    refine ⟨_, _, rfl, hnot, List.getElem?_concat_length, fun j hj => ?_, fun j => ?_, h.free,
      fun j hj => ?_, rfl, rfl, rfl, rfl, rfl⟩
    · show (s.nodes ++ [node])[j]? = _
      rcases lt_or_ge j s.nodes.length with hlt | hge
      · exact List.getElem?_append_left hlt
      · rw [List.getElem?_eq_none hge, List.getElem?_eq_none]
        rw [List.length_append, List.length_singleton]
        omega
    · have hslots := h.slots j
      rw [hnil] at hslots ⊢
      show j < (s.nodes ++ [node]).length ↔ _
      rw [List.length_append, List.length_singleton, List.mem_cons,
        Nat.lt_succ_iff_lt_or_eq, hslots]
      tauto
    · change j ∈ s.free at hj
      rw [hnil] at hj
      exact absurd hj List.not_mem_nil
  | some i =>
    -- the slot that was freed last is taken again
    obtain ⟨free, hfree⟩ := List.getLast?_eq_some_iff.mp hlast
    have hi : i < s.nodes.length := (h.slots i).mpr (Or.inr (List.mem_of_getLast? hlast))
    have hnot : i ∉ order := h.apart i (List.mem_of_getLast? hlast)
    have hdrop : s.free.dropLast = free := by rw [hfree, List.dropLast_concat]
    have hnodup := h.free
    rw [hfree] at hnodup
    obtain ⟨hfreeNodup, -, hfresh⟩ := List.nodup_append.mp hnodup
    refine ⟨i, _, if_pos hi, hnot, List.getElem?_set_self hi, fun j hj =>
      List.getElem?_set_ne (Ne.symm hj), fun j => ?_, ?_, fun j hj => ?_, rfl, rfl, rfl, rfl, rfl⟩
    · show j < (s.nodes.set i node).length ↔ _ ∨ j ∈ s.free.dropLast
      rw [List.length_set, h.slots, hfree, List.dropLast_concat, List.mem_append,
        List.mem_singleton, List.mem_cons]
      tauto
    · show s.free.dropLast.Nodup
      rwa [hdrop]
    · change j ∈ s.free.dropLast at hj
      rw [hdrop] at hj
      rw [List.mem_cons, not_or]
      exact ⟨hfresh j hj i List.mem_cons_self, h.apart j (hfree ▸ List.mem_append_left _ hj)⟩

theorem bind_set {α : Type} (f : Node → Option α) {nodes : List Node} (hi : i < nodes.length)
    (node : Node) (j : ℕ) :
    ((nodes.set i node)[j]?).bind f = if i = j then f node else (nodes[j]?).bind f := by
  by_cases hj : i = j
  · rw [← hj, List.getElem?_set_self hi, if_pos rfl]
    rfl
  · rw [List.getElem?_set_ne hj, if_neg hj]

/-- **A new value** in the slot of a key. -/
theorem Holds.store {node : Node} {old : Bytes}
    (h : s.Holds (pre ++ i :: post) (before ++ (key, old) :: behind))
    (hlen : pre.length = before.length) (hnode : s.nodes[i]? = some node)
    (hcell : s.cell i = some (node.key, old))
    (val : Bytes) :
    Holds
      { s with
        bytes := s.bytes - old.length + val.length
        nodes := s.nodes.set i { node with val := val } }
      (pre ++ i :: post) (before ++ (key, val) :: behind) := by
  have hi : i < s.nodes.length := (List.getElem?_eq_some_iff.mp hnode).1
  obtain ⟨hpre, hown, hpost⟩ := h.cells_split hlen
  obtain rfl : node.key = key := (Prod.mk.inj (Option.some.inj (hcell.symm.trans hown))).1
  -- only the value in the slot changes, so links and keys read as before
  have hlinks : ∀ f : Node → Option ℕ, f { node with val := val } = f node → ∀ j : ℕ,
      ((s.nodes.set i { node with val := val })[j]?).bind f = (s.nodes[j]?).bind f := by
    intro f hf j
    rw [bind_set f hi]
    by_cases hj : i = j
    · rw [if_pos hj, ← hj, hnode]
      exact hf
    · rw [if_neg hj]
  have hcells : ∀ j : ℕ, ((s.nodes.set i { node with val := val })[j]?).bind
    (fun n => some (n.key, n.val)) =
      if i = j then some (node.key, val) else s.cell j := bind_set _ hi _
  have hnot := (List.nodup_middle.mp h.through.nodup).notMem
  have hkept : ∀ l : List ℕ, i ∉ l →
      l.map (fun j => if i = j then some (node.key, val) else s.cell j) = l.map s.cell := by
    intro l hl
    refine List.map_congr_left fun j hj => if_neg ?_
    rintro rfl
    exact hl hj
  refine ⟨h.through.congr rfl rfl fun j _ => ⟨hlinks Node.prev rfl j, hlinks Node.next rfl j⟩, ?_,
    fun k j => ?_, fun j => ?_, h.free, h.apart, ?_⟩
  · refine (List.map_congr_left fun j _ => hcells j).trans ?_
    rw [List.map_append, List.map_cons, hkept pre fun hmem => hnot (List.mem_append_left _ hmem),
      hkept post fun hmem => hnot (List.mem_append_right _ hmem), if_pos rfl, hpre, hpost,
        List.map_append]
    rfl
  · refine (h.map k j).trans (and_congr_right fun _ => ?_)
    show _ ↔ ∃ v, ((s.nodes.set i { node with val := val })[j]?).bind
      (fun n => some (n.key, n.val)) = some (k, v)
    rw [hcells]
    by_cases hj : i = j
    · rw [if_pos hj, ← hj, hown]
      simp
    · rw [if_neg hj]
  · show j < (s.nodes.set i _).length ↔ _
    rw [List.length_set]
    exact h.slots j
  · -- the old value is part of the sum, so the truncated subtraction is exact
    show s.bytes - old.length + val.length = _
    rw [h.bytes, Holds.size_perm List.perm_middle,
      Holds.size_perm (List.perm_middle (a := (node.key, val)))]
    simp only [Lru.size, List.map_cons, List.sum_cons]
    omega

/-- **The first half of `insert`** puts the entry in front. -/
theorem place_spec (h : s.Holds order held) (key : Key) (val : Bytes) :
    ∃ s' order', s.place key val = some s' ∧
      s'.Holds order' ((⟨held, s.cap⟩ : Lru Key Bytes).touch key val).held ∧ s'.cap = s.cap := by
  unfold place
  cases hmap : s.map key with
  | some i =>
    -- a hit: the value is stored in place, and its slot moves to the front
    obtain ⟨pre, post, before, old, behind, rfl, rfl, hlen, hcell, hothers⟩ := h.split hmap
    obtain ⟨node, hnode, hpair⟩ := Option.bind_eq_some_iff.mp hcell
    obtain ⟨hkey, rfl⟩ := Prod.mk.inj (Option.some.inj hpair)
    have hset := h.store hlen hnode (by rw [hcell, hkey]) val
    obtain ⟨s₁, s₂, h₁, h₂, hholds, -, hcap⟩ := hset.promote hlen
    have hrest : (before ++ (key, node.val) :: behind).filter (fun e => decide (e.1 ≠ key)) =
        before ++ behind := by
      rw [List.filter_append, List.filter_cons_of_neg (by simp), ← List.filter_append]
      exact List.filter_eq_self.mpr fun e he => decide_eq_true (hothers e he)
    refine ⟨s₂, i :: (pre ++ post), ?_, ?_, hcap⟩
    · simp only [hnode, Option.bind_eq_bind, Option.bind_some, h₁, h₂]
    · show s₂.Holds _
        ((key, val) :: (before ++ (key, node.val) :: behind).filter fun e => decide (e.1 ≠ key))
      rw [hrest]
      exact hholds
  | none =>
    -- a miss: the new slot is not in the list, so the old cells stay
    obtain ⟨i, s₁, h₁, hnot, hnode, hothers, hslots, hfree, hapart, hmap₁, hhead, htail,
        hbytes, hcap⟩ :=
      allot_spec h ⟨key, val, none, none⟩
    have hkept : ∀ {α : Type} (f : Node → Option α), ∀ j ∈ order,
        (s₁.nodes[j]?).bind f = (s.nodes[j]?).bind f :=
      fun f j hj => by rw [hothers j fun heq => hnot (heq ▸ hj)]
    have hcells : order.map s₁.cell = order.map s.cell :=
      List.map_congr_left fun j hj => hkept _ j hj
    have hcell : s₁.cell i = some (key, val) := by
      unfold cell
      rw [hnode]
      rfl
    have hin : i < s₁.nodes.length := (List.getElem?_eq_some_iff.mp hnode).1
    obtain ⟨s₂, h₂, hr⟩ := pushFront_spec (i := i) (s := { s₁ with
      bytes := s₁.bytes + val.length, map := Function.update s₁.map key (some i) }) hin fun j hj =>
        (hslots j).mpr (Or.inl (List.mem_cons_of_mem _
          (List.mem_of_head? (h.through.head.symm.trans (hhead ▸ hj : s.head = some j)))))
    have hthrough : s₁.links.Through order :=
      h.through.congr hhead htail fun j hj => ⟨hkept Node.prev j hj, hkept Node.next j hj⟩
    have hmiss : held.filter (fun e => decide (e.1 ≠ key)) = held :=
      List.filter_eq_self.mpr fun e he => decide_eq_true (h.not_held hmap e he)
    refine ⟨s₂, i :: order, ?_,
      ⟨hr.links ▸ hthrough.pushFront hnot, ?_, fun k j => ?_, fun j => ?_, ?_, fun j hj => ?_, ?_⟩,
      hr.cap.trans hcap⟩
    · simp only [h₁, Option.bind_eq_bind, Option.bind_some, hnode, h₂]
    · rw [hr.cell]
      show s₁.cell i :: order.map s₁.cell = _
      rw [hcell, hcells, h.cells]
      show _ = some (key, val) :: (held.filter fun e => decide (e.1 ≠ key)).map some
      rw [hmiss]
    · rw [hr.map, hr.cell]
      show Function.update s₁.map key (some i) k = some j ↔ j ∈ i :: order ∧
        ∃ v, s₁.cell j = some (k, v)
      rw [Function.update_apply, hmap₁, List.mem_cons]
      by_cases hk : k = key
      · -- the key has this slot only
        rw [if_pos hk, hk]
        refine ⟨fun heq => ?_, fun ⟨hor, v, hv⟩ => ?_⟩
        · obtain rfl := Option.some.inj heq
          exact ⟨Or.inl rfl, val, hcell⟩
        · rcases hor with rfl | hj
          · rfl
          · have hold := (h.map key j).mpr ⟨hj, v, (hkept _ j hj).symm.trans hv⟩
            exact absurd (hmap.symm.trans hold) (by simp)
      · rw [if_neg hk, h.map]
        refine ⟨fun ⟨hj, v, hv⟩ => ⟨Or.inr hj, v, (hkept _ j hj).trans hv⟩, fun ⟨hor, v, hv⟩ => ?_⟩
        rcases hor with rfl | hj
        · exact absurd (Prod.mk.inj (Option.some.inj (hcell.symm.trans hv))).1 (Ne.symm hk)
        · exact ⟨hj, v, (hkept _ j hj).symm.trans hv⟩
    · rw [hr.length, hr.free]
      exact hslots j
    · rw [hr.free]
      exact hfree
    · exact hapart j (hr.free ▸ hj)
    · rw [hr.bytes]
      show s₁.bytes + val.length = Lru.size List.length
        ((key, val) :: held.filter fun e => decide (e.1 ≠ key))
      rw [hbytes, h.bytes, hmiss]
      simp only [Lru.size, List.map_cons, List.sum_cons]
      omega

/-! ### Eviction -/

/-- **The last entry goes**, and its slot is free. -/
theorem Holds.drop (h : s.Holds (pre ++ [i]) (before ++ [e])) :
    ∃ node s₁ node₁, s.nodes[i]? = some node ∧
      { s with
        bytes := s.bytes - node.val.length
        map := Function.update s.map node.key none }.unlink i = some s₁ ∧
      s₁.nodes[i]? = some node₁ ∧ s₁.cap = s.cap ∧
      Holds
        { s₁ with nodes := s₁.nodes.set i { node₁ with val := [] }, free := s₁.free ++ [i] }
        pre before := by
  have hi : i ∈ pre ++ [i] := List.mem_append_right _ List.mem_cons_self
  have hlen : pre.length = before.length := by
    have hlen := h.length_eq
    rw [List.length_append, List.length_append] at hlen
    exact Nat.add_right_cancel hlen
  obtain ⟨hpre, hown, -⟩ := h.cells_split hlen
  obtain ⟨node, hnode, hpair⟩ := Option.bind_eq_some_iff.mp hown
  obtain rfl := Option.some.inj hpair
  obtain ⟨hprev, hnext⟩ := h.inside hi
  obtain ⟨s₁, h₁, hr⟩ := unlink_spec (i := i) (s := { s with
    bytes := s.bytes - node.val.length
    map := Function.update s.map node.key none }) (h.lt_length hi) hprev hnext
  have hin : i < s₁.nodes.length := by
    rw [hr.length]
    exact h.lt_length hi
  have hthrough : s₁.links.Through pre := by
    have hthrough := hr.links ▸ h.through.unlink
    rwa [List.append_nil] at hthrough
  -- the slot that goes is in the list once, so the others keep their cells
  have hnot : i ∉ pre := fun hmem =>
    (List.nodup_append.mp h.through.nodup).2.2 i hmem i List.mem_cons_self rfl
  have hne : ∀ j ∈ pre, i ≠ j := fun j hj heq => hnot (heq ▸ hj)
  have hkept : ∀ {α : Type} (f : Node → Option α), ∀ j ∈ pre,
      ((s₁.nodes.set i { s₁.nodes[i] with val := [] })[j]?).bind f = (s₁.nodes[j]?).bind f :=
    fun f j hj => by rw [List.getElem?_set_ne (hne j hj)]
  have hcells : ∀ j ∈ pre, ((s₁.nodes.set i { s₁.nodes[i] with val := [] })[j]?).bind
    (fun n => some (n.key, n.val)) =
      s.cell j := fun j hj => (hkept _ j hj).trans (congrFun hr.cell j)
  refine ⟨node, s₁, s₁.nodes[i], hnode, h₁, List.getElem?_eq_getElem hin, hr.cap,
    ⟨hthrough.congr rfl rfl fun j hj => ⟨hkept Node.prev j hj, hkept Node.next j hj⟩, ?_,
      fun k j => ?_, fun j => ?_, ?_, fun j hj hmem => ?_, ?_⟩⟩
  · exact (List.map_congr_left hcells).trans hpre
  · -- the map loses the key of the last entry, and no other
    show s₁.map k = some j ↔ j ∈ pre ∧ ∃ v, ((s₁.nodes.set i _)[j]?).bind _ = some (k, v)
    rw [hr.map]
    show Function.update s.map node.key none k = some j ↔ _
    rw [Function.update_apply]
    by_cases hk : k = node.key
    · -- the key was in the slot that goes
      rw [if_pos hk]
      refine iff_of_false (by simp) fun ⟨hj, v, hv⟩ => ?_
      have hold := (h.map k j).mpr ⟨List.mem_append_left _ hj, v, (hcells j hj).symm.trans hv⟩
      have hgone := (h.map k i).mpr ⟨hi, node.val, by rw [hown, hk]⟩
      exact hne j hj (Option.some.inj (hgone.symm.trans hold))
    · rw [if_neg hk, h.map]
      refine ⟨fun ⟨hor, v, hv⟩ => ?_, fun ⟨hj, v, hv⟩ =>
        ⟨List.mem_append_left _ hj, v, (hcells j hj).symm.trans hv⟩⟩
      rcases List.mem_append.mp hor with hj | hj
      · exact ⟨hj, v, (hcells j hj).trans hv⟩
      · rw [List.mem_singleton.mp hj, hown] at hv
        exact absurd (Prod.mk.inj (Option.some.inj hv)).1 (Ne.symm hk)
  · show j < (s₁.nodes.set i _).length ↔ j ∈ pre ∨ j ∈ s₁.free ++ [i]
    rw [List.length_set, hr.length, hr.free]
    refine (h.slots j).trans ?_
    rw [List.mem_append, List.mem_append]
    tauto
  · show (s₁.free ++ [i]).Nodup
    rw [hr.free]
    exact List.nodup_append.mpr ⟨h.free, List.nodup_singleton i, fun a ha b hb heq =>
      h.apart a ha (heq ▸ List.mem_append_right _ hb)⟩
  · change j ∈ s₁.free ++ [i] at hj
    rw [hr.free] at hj
    rcases List.mem_append.mp hj with hj | hj
    · exact h.apart j hj (List.mem_append_left _ hmem)
    · exact hnot (List.mem_singleton.mp hj ▸ hmem)
  · show s₁.bytes = _
    rw [hr.bytes]
    show s.bytes - node.val.length = _
    rw [h.bytes]
    simp [Lru.size]

/-- **The eviction loop** ends, and evicts as a bounded cache does. -/
theorem evict_spec {turns fuel : ℕ} (h : s.Holds order held) (hturns : held.length ≤ turns)
    (hfuel : turns < fuel) :
    ∃ s' order', evict fuel s = some s' ∧ s'.Holds order' (Lru.evict List.length s.cap turns held) ∧
      s'.cap = s.cap := by
  induction turns generalizing s order held fuel with
  | zero =>
    obtain ⟨fuel, rfl⟩ := Nat.exists_eq_succ_of_ne_zero hfuel.ne'
    obtain rfl := List.length_eq_zero_iff.mp (Nat.le_zero.mp hturns)
    -- nothing is held, so the cache is within its capacity
    have hfits : ¬ s.cap < s.bytes := by
      rw [h.bytes]
      exact Nat.not_lt_zero _
    refine ⟨s, order, ?_, h, rfl⟩
    unfold evict
    rw [if_neg hfits]
  | succ turns ih =>
    obtain ⟨fuel, rfl⟩ := Nat.exists_eq_succ_of_ne_zero (Nat.ne_of_gt (Nat.zero_lt_of_lt hfuel))
    have hlen := h.length_eq
    unfold evict Lru.evict
    rw [← h.bytes]
    by_cases hover : s.cap < s.bytes
    · rw [if_pos hover]
      rcases List.eq_nil_or_concat' order with rfl | ⟨pre, i, rfl⟩
      · have htail : s.tail = none := h.through.tail
        rw [htail, if_neg fun hboth => by rw [← hlen] at hboth; exact absurd hboth.2 (by decide)]
        exact ⟨s, [], rfl, h, rfl⟩
      · have htail : s.tail = some i := h.through.tail.trans List.getLast?_concat
        simp only [htail]
        rcases List.eq_nil_or_concat' held with rfl | ⟨before, e, rfl⟩
        · simp at hlen
        cases pre with
        | nil =>
          have hhead : s.head = some i := h.through.head
          -- one entry is left, and it is in front
          have hone : (before ++ [e]).length = 1 := hlen.symm
          rw [if_pos hhead,
            if_neg fun hboth => by rw [hone] at hboth; exact absurd hboth.2 (by decide)]
          exact ⟨s, _, rfl, h, rfl⟩
        | cons a pre =>
          have hhead : s.head ≠ some i := by
            rw [show s.head = some a from h.through.head]
            rintro heq
            obtain rfl := Option.some.inj heq
            exact (List.nodup_cons.mp h.through.nodup).1
              (List.mem_append_right _ List.mem_cons_self)
          rw [if_neg hhead, if_pos ⟨hover, by rw [← hlen]; simp⟩, List.dropLast_concat]
          obtain ⟨node, s₁, node₁, hnode, h₁, hnode₁, hcap, hholds⟩ := h.drop
          -- the victim goes, and the rest is one entry shorter
          have hshorter : before.length ≤ turns := by
            rw [List.length_append, List.length_singleton] at hturns
            omega
          have hfuel' : turns < fuel := by omega
          obtain ⟨s', order', hs', hholds', hcap'⟩ := ih hholds hshorter hfuel'
          refine ⟨s', order', ?_, ?_, hcap'.trans hcap⟩
          · rw [htail] at h₁
            rw [hnode, Option.bind_eq_bind, Option.bind_some, h₁, Option.bind_eq_bind,
              Option.bind_some, hnode₁]
            exact hs'
          · rwa [show Shard.cap _ = s.cap from hcap] at hholds'
    · rw [if_neg hover, if_neg fun hboth => hover hboth.1]
      exact ⟨s, order, rfl, h, rfl⟩

/-! ### Every sequence of calls -/

/-- **`insert`** of a shard is that of a bounded cache. -/
theorem insert_spec (h : s.Holds order held) (key : Key) (val : Bytes) :
    ∃ s' order', s.insert key val = some s' ∧
      s'.Holds order' (Lru.insert List.length ⟨held, s.cap⟩ key val).held ∧ s'.cap = s.cap := by
  obtain ⟨s₁, order₁, h₁, hholds, hcap⟩ := place_spec h key val
  have hslots : order₁.length ≤ s₁.nodes.length := by
    have hrange : order₁ ⊆ List.range s₁.nodes.length :=
      fun i hi => List.mem_range.mpr (hholds.lt_length hi)
    simpa using (List.Nodup.length_le_of_subset hholds.through.nodup hrange)
  obtain ⟨s', order', hs', hholds', hcap'⟩ := evict_spec hholds le_rfl
    (Nat.lt_succ_of_le (hholds.length_eq ▸ hslots))
  refine ⟨s', order', ?_, hcap ▸ hholds', hcap'.trans hcap⟩
  unfold Shard.insert
  rw [h₁, Option.bind_eq_bind, Option.bind_some]
  exact hs'

theorem step_spec (h : s.Holds order held) (op : Lru.Op Key Bytes) :
    ∃ s' order', s.step op = some s' ∧
      s'.Holds order' (Lru.step List.length ⟨held, s.cap⟩ op).held ∧ s'.cap = s.cap := by
  cases op with
  | get key =>
    obtain ⟨s', order', hget, hholds, hcap⟩ := get_spec h key
    exact ⟨s', order', congrArg (Option.map Prod.snd) hget, hholds, hcap⟩
  | insert key val => exact insert_spec h key val

theorem run_spec (cap : ℕ) (ops : List (Lru.Op Key Bytes)) :
    ∃ s order, (new cap).run ops = some s ∧ s.Holds order (Lru.run List.length ⟨[], cap⟩ ops).held ∧
      s.cap = cap := by
  induction ops using List.reverseRecOn with
  | nil => exact ⟨new cap, [], rfl, holds_new cap, rfl⟩
  | append_singleton ops op ih =>
    obtain ⟨s, order, hrun, hholds, hcap⟩ := ih
    obtain ⟨s', order', hs', hholds', hcap'⟩ := step_spec hholds op
    refine ⟨s', order', ?_, ?_, hcap'.trans hcap⟩
    · unfold run at hrun ⊢
      rw [List.foldlM_append, hrun]
      simpa using hs'
    · have hcache : (⟨(Lru.run List.length ⟨[], cap⟩ ops).held, s.cap⟩ : Lru Key Bytes) =
          Lru.run List.length ⟨[], cap⟩ ops := by
        rw [hcap]
        exact congrArg (Lru.mk _) (Lru.cap_run List.length ⟨[], cap⟩ ops).symm
      rw [hcache] at hholds'
      rw [Lru.run, List.foldl_concat]
      exact hholds'

/-- **The block cache shard.**  After any calls, map, chain, free list and byte counter
stand for the entries of a bounded cache; a `get` is answered with the value that came
last, or with nothing; and an insertion evicts the entries that were used longest ago,
until all is within the capacity or it is the only one left. -/
theorem shard_spec (cap : ℕ) (ops : List (Lru.Op Key Bytes)) :
    ∃ s order held, (new cap).run ops = some s ∧ s.Holds order held ∧
      (∀ key, ∃ r s', s.get key = some (r, s') ∧ (r = none ∨ r = Lru.lastInserted ops key)) ∧
      ∀ key val, ∃ s' order' kept gone, s.insert key val = some s' ∧
        s'.Holds order' ((key, val) :: kept) ∧
        held.filter (fun e => decide (e.1 ≠ key)) = kept ++ gone ∧
        (∀ e ∈ kept, ∀ f ∈ gone, Lru.age ops e.1 < Lru.age ops f.1) ∧
        (s'.bytes ≤ cap ∨ kept = [] ∧ s'.bytes = val.length) := by
  obtain ⟨s, order, hrun, hholds, hcap⟩ := run_spec cap ops
  have hrecent := Lru.recent_run List.length cap ops
  generalize (Lru.run List.length ⟨[], cap⟩ ops : Lru Key Bytes) = c at hholds hrecent
  refine ⟨s, order, c.held, hrun, hholds, fun key => ?_, fun key val => ?_⟩
  · obtain ⟨s', order', hget, -, -⟩ := get_spec hholds key
    refine ⟨_, s', hget, ?_⟩
    cases hanswer : (Lru.get ⟨c.held, s.cap⟩ key).1 with
    | none => exact Or.inl rfl
    | some val =>
      exact Or.inr (hrecent.latest (key, val) (Lru.mem_of_get (c := ⟨c.held, s.cap⟩) hanswer)).symm
  · obtain ⟨s', order', hinsert, hholds', hcap'⟩ := insert_spec hholds key val
    -- the eviction cuts the order, least recently used first
    obtain ⟨kept, hkept, gone, hgone⟩ := Lru.evict_cons List.length s.cap
      (Lru.touch ⟨c.held, s.cap⟩ key val).held.length (key, val)
        (c.held.filter fun e => decide (e.1 ≠ key))
    have hfits := Lru.fits_insert List.length (⟨c.held, s.cap⟩ : Lru Key Bytes) key val
    change (Lru.insert List.length ⟨c.held, s.cap⟩ key val).held = (key, val) :: kept at hkept
    rw [hkept] at hholds' hfits
    refine ⟨s', order', kept, gone, hinsert, hholds', hgone.symm, ?_, ?_⟩
    · have hsorted := hrecent.sorted.filter fun e => decide (e.1 ≠ key)
      rw [← hgone] at hsorted
      exact fun e he f hf => (List.pairwise_append.mp hsorted).2.2 e he f hf
    · rw [hholds'.bytes, ← hcap]
      refine hfits.imp_right fun hone => ?_
      obtain ⟨-, rfl⟩ := List.cons.inj hone
      exact ⟨rfl, by simp [Lru.size]⟩

end Shard

end Cache

end Fluent31
