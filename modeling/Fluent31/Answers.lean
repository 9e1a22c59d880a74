/-
Commit-queue delivery.

* `commit_delivery` — every result reaches its client once, `Ok` means applied
  once and published, a bailed batch is never applied; a client whose batch is
  on the queue or drained is answered within a bounded number of the
  committer's steps, or the committer has stopped and the client can bail;
* `stranded_of_panic` — a panic strands every waiter the guard does not cover;
* `waiter_lost` — a panic in the first of two chunks strands the second.
-/
import Fluent31.Delivery
import Mathlib.Data.List.Nodup

namespace Fluent31

variable {opts : Options} {s s' : CommitQueue}

/-- The waiter holds a result, or its client has returned. -/
def Waiter.answered (w : Waiter) : Prop := w.result.isSome = true ∨ w.returned.isSome = true

/-- What a later state keeps of a waiter: its entry, what its client returned,
and a result nobody has taken yet. -/
structure Waiter.Keeps (w w' : Waiter) : Prop where
  entry : w'.entry = w.entry
  returned : ∀ r, w.returned = some r → w'.returned = some r
  result : ∀ r, w.result = some r → w.returned = none →
    w'.result = some r ∧ w'.returned = none ∨ w'.returned = some (.delivered r)

namespace Waiter.Keeps

variable {w w' w'' : Waiter}

theorem refl (w : Waiter) : w.Keeps w := ⟨rfl, fun _ hr => hr, fun _ hr hret => Or.inl ⟨hr, hret⟩⟩

theorem trans (h : w.Keeps w') (h' : w'.Keeps w'') : w.Keeps w'' where
  entry := h'.entry.trans h.entry
  returned := fun r hr => h'.returned r (h.returned r hr)
  result := by
    intro r hr hret
    rcases h.result r hr hret with ⟨hr, hret⟩ | hdone
    · exact h'.result r hr hret
    · exact Or.inr (h'.returned _ hdone)

theorem answered (h : w.Keeps w') (ha : w.answered) : w'.answered := by
  cases hret : w.returned with
  | some r => exact Or.inr (by rw [h.returned r hret]; rfl)
  | none =>
    rcases ha with ha | ha
    · obtain ⟨r, hr⟩ := Option.isSome_iff_exists.mp ha
      rcases h.result r hr hret with ⟨hr, -⟩ | hdone
      · exact Or.inl (by rw [hr]; rfl)
      · exact Or.inr (by rw [hdone]; rfl)
    · rw [hret] at ha
      exact absurd ha (by simp)

/-- A waiter without a result has nothing to lose. -/
theorem of_parked {f : Waiter → Waiter} (hentry : (f w).entry = w.entry) (hres : w.result = none)
    (hret : w.returned = none) : w.Keeps (f w) where
  entry := hentry
  returned := fun r hr => by rw [hret] at hr; exact absurd hr (by simp)
  result := fun r hr _ => by rw [hres] at hr; exact absurd hr (by simp)

end Waiter.Keeps

/-- A change to one waiter loses nothing, when that waiter loses nothing. -/
theorem keeps_modify {i j : ℕ} {w : Waiter} {f : Waiter → Waiter} (hw : s.waiters[i]? = some w)
    (hf : ∀ v, s.waiters[j]? = some v → v.Keeps (f v)) :
    ∃ w', (s.waiters.modify j f)[i]? = some w' ∧ w.Keeps w' := by
  rw [List.getElem?_modify, hw]
  by_cases hij : j = i
  · exact ⟨f w, by simp [hij], hf w (hij ▸ hw)⟩
  · exact ⟨w, by simp [hij], .refl w⟩

/-- A waiter on the queue or drained may be given a result, or pulled out. -/
theorem QueueInv.keeps_modify (h : QueueInv s) {i j : ℕ} {w : Waiter} {f : Waiter → Waiter}
    (hw : s.waiters[i]? = some w) (hentry : ∀ v, (f v).entry = v.entry)
    (hj : j ∈ s.committer.owned ++ s.queue) :
    ∃ w', (s.waiters.modify j f)[i]? = some w' ∧ w.Keeps w' := by
  refine Fluent31.keeps_modify hw fun v hv => ?_
  obtain ⟨v', hv', hres, hret⟩ := h.parked j hj
  obtain rfl := Option.some_inj.mp (hv.symm.trans hv')
  exact .of_parked (hentry v) hres hret

/-- The guard gives results only to waiters that have none. -/
theorem keeps_guardDrop (group : List ℕ) {i : ℕ} {w : Waiter} (hw : s.waiters[i]? = some w) :
    ∃ w', (s.guardDrop group).waiters[i]? = some w' ∧ w.Keeps w' := by
  rw [CommitQueue.guardDrop, List.getElem?_mapIdx, hw, Option.map_some]
  split
  · rename_i hcond
    refine ⟨_, rfl, rfl, fun r hr => hr, fun r hr _ => ?_⟩
    rw [hcond.2] at hr
    exact absurd hr (by simp)
  · exact ⟨_, rfl, .refl w⟩

/-- Waiters stay, with what they were given. -/
theorem step_waiter (h : QueueInv s) {a : QueueAction} (hs : s.step opts a = some s') {i : ℕ}
    {w : Waiter} (hw : s.waiters[i]? = some w) : ∃ w', s'.waiters[i]? = some w' ∧ w.Keeps w' := by
  cases CommitQueue.step_cases hs with
  | submit _ =>
    refine ⟨w, ?_, .refl w⟩
    rw [List.getElem?_append_left (List.getElem?_eq_some_iff.mp hw).1]
    exact hw
  | take hv hres hret =>
    -- the result taken is the one that the client returns
    refine keeps_modify hw fun v' hv' => ?_
    obtain rfl := Option.some_inj.mp (hv.symm.trans hv')
    refine ⟨rfl, fun r' hr' => ?_, fun r' hr' _ => ?_⟩
    · rw [hret] at hr'
      exact absurd hr' (by simp)
    · rw [hres] at hr'
      exact Or.inr (congrArg (fun r => some (Return.delivered r)) (Option.some_inj.mp hr'))
  | bail _ hj _ => exact h.keeps_modify hw (fun _ => rfl) (List.mem_append_right _ hj)
  | refuse hc | deliver hc =>
    exact h.keeps_modify hw (fun _ => rfl)
      (by rw [hc]; exact List.mem_append_left _ List.mem_cons_self)
  | panicGrouped | panicDelivering => exact keeps_guardDrop _ hw
  | drain | exit | chunk | apply | delivered | refused | emptied | panicHolding | panicRefusing
  | degrade | close | other => exact ⟨w, hw, .refl w⟩

namespace Committer

/-- Where in its round the committer is. -/
def phase : Committer → ℕ
  | grouped [] _ => 7
  | delivering [] _ _ | refusing _ [] _ => 6
  | holding [] => 5
  | idle => 4
  | holding (_ :: _) => 3
  | grouped (_ :: _) _ => 2
  | delivering (_ :: _) _ _ | refusing _ (_ :: _) _ => 1
  | exited | dead => 0

end Committer

/-- How far waiter `i` is from its result. -/
def CommitQueue.rank (i : ℕ) (s : CommitQueue) : ℕ :=
  6 * (s.committer.owned ++ s.queue).idxOf i + s.committer.phase

/-- Waiter `i` is answered, or the committer is gone. -/
def CommitQueue.Settled (i : ℕ) (s : CommitQueue) : Prop :=
  (∃ w, s.waiters[i]? = some w ∧ w.answered) ∨ s.committer.running = false

theorem idxOf_le_of_sublist {l l' : List ℕ} {i : ℕ} (h : l'.Sublist l) (hl : l.Nodup)
    (hi : i ∈ l') :
    l'.idxOf i ≤ l.idxOf i := by
  induction h with
  | slnil => exact le_rfl
  | @cons l' l a hsub ih =>
    obtain ⟨ha, hl⟩ := List.nodup_cons.mp hl
    have hne : a ≠ i := fun heq => ha (heq ▸ hsub.subset hi)
    rw [List.idxOf_cons_ne _ hne]
    exact le_trans (ih hl hi) (Nat.le_succ _)
  | @cons_cons l' l a hsub ih =>
    obtain ⟨-, hl⟩ := List.nodup_cons.mp hl
    by_cases hne : a = i
    · rw [List.idxOf_cons_eq _ hne]
      exact Nat.zero_le _
    · rw [List.idxOf_cons_ne _ hne, List.idxOf_cons_ne _ hne]
      exact Nat.succ_le_succ (ih hl ((List.mem_cons.mp hi).resolve_left fun heq => hne heq.symm))

theorem chunkLen_pos {bytes : List ℕ} (h : bytes ≠ []) : 0 < chunkLen bytes := by
  cases bytes with
  | nil => exact absurd rfl h
  | cons b bs => exact Nat.succ_pos _

theorem placed_of_unanswered (h : QueueInv s) {i : ℕ} {w : Waiter} (hw : s.waiters[i]? = some w)
    (hnot : ¬ w.answered) : i ∈ s.committer.owned ++ s.queue := by
  refine h.placed i w hw ?_ ?_
  · exact Option.not_isSome_iff_eq_none.mp fun hres => hnot (Or.inl hres)
  · exact Option.not_isSome_iff_eq_none.mp fun hret => hnot (Or.inr hret)

/-- An answered head is another waiter, and the others move up by one. -/
theorem rank_answer {c : Committer} {j i : ℕ} {r : Except Error Unit} {d : Engine} {w : Waiter}
    (hw : s.waiters[i]? = some w) (howned : s.committer.owned = j :: c.owned)
    (hphase : s.committer.phase = 1) (hle : c.phase ≤ 6)
    (hnot : ¬ ({ s.answer j r with engine := d, committer := c } : CommitQueue).Settled i) :
    ({ s.answer j r with engine := d, committer := c } : CommitQueue).rank i < s.rank i := by
  have hne : j ≠ i := by
    intro hji
    refine hnot (Or.inl ⟨{ w with result := some r }, ?_, Or.inl rfl⟩)
    show (s.waiters.modify j fun w => { w with result := some r })[i]? = some _
    rw [hji, List.getElem?_modify_eq, hw]
    rfl
  unfold CommitQueue.rank
  show 6 * (c.owned ++ s.queue).idxOf i + c.phase < _
  rw [howned, hphase, List.cons_append, List.idxOf_cons_ne _ hne]
  omega

/-- The committer goes on to its next phase. -/
theorem rank_phase {c : Committer} (i : ℕ) {queue : List ℕ}
    (howned : c.owned ++ queue = s.committer.owned ++ s.queue)
    (hphase : c.phase < s.committer.phase) :
    ({ s with committer := c, queue := queue } : CommitQueue).rank i < s.rank i := by
  unfold CommitQueue.rank
  rw [howned]
  exact Nat.add_lt_add_left hphase _

/-- A waiter that leaves the queue moves up the ones behind it. -/
theorem rank_erase (h : QueueInv s) {i j : ℕ} (hi : i ∈ s.committer.owned ++ s.queue)
    (hne : j ≠ i) :
    ({ s with queue := s.queue.erase j } : CommitQueue).rank i ≤ s.rank i := by
  have hsub : (s.committer.owned ++ s.queue.erase j).Sublist (s.committer.owned ++ s.queue) :=
    (List.Sublist.refl _).append List.erase_sublist
  have hmem : i ∈ s.committer.owned ++ s.queue.erase j := by
    rcases List.mem_append.mp hi with hi | hi
    · exact List.mem_append_left _ hi
    · exact List.mem_append_right _ ((List.mem_erase_of_ne hne.symm).mpr hi)
  exact Nat.add_le_add_right (Nat.mul_le_mul_left 6 (idxOf_le_of_sublist hsub h.nodup hmem)) _

/-- A chunk is cut off: it has a first waiter. -/
theorem rank_chunk (h : QueueInv s) {rest : List ℕ} {n : ℕ} {c : Committer}
    (hc : s.committer = .holding rest) (hne : rest ≠ [])
    (hn : n = chunkLen (rest.filterMap fun i => (s.waiters[i]?).map Waiter.bytes))
    (hcut : (∃ msg, s.bgError = some msg ∧ c = .refusing msg (rest.take n) (rest.drop n)) ∨
      s.bgError = none ∧ c = .grouped (rest.take n) (rest.drop n)) (i : ℕ) :
    ({ s with committer := c } : CommitQueue).rank i < s.rank i := by
  obtain ⟨j, tail, rfl⟩ := List.exists_cons_of_ne_nil hne
  obtain ⟨v, hv, -⟩ := h.parked j (by
    rw [hc]
    exact List.mem_append_left _ List.mem_cons_self)
  have hpos : 0 < n := by
    rw [hn, List.filterMap_cons_some (by rw [hv]; rfl)]
    exact chunkLen_pos (List.cons_ne_nil _ _)
  obtain ⟨n, rfl⟩ := Nat.exists_eq_succ_of_ne_zero (Nat.pos_iff_ne_zero.mp hpos)
  refine rank_phase (c := c) i ?_ ?_
  · obtain ⟨msg, -, rfl⟩ | ⟨-, rfl⟩ := hcut <;> simp [hc, Committer.owned]
  · obtain ⟨msg, -, rfl⟩ | ⟨-, rfl⟩ := hcut <;> simp [hc, Committer.phase]

/-- A chunk is applied: every waiter of it has a result on its way. -/
theorem phase_apply (h : QueueInv s) {group rest : List ℕ} {f : Faults} {plan : Plan}
    {answers : List (Except Error (Option (ℕ × List EncEntry)))}
    (hc : s.committer = .grouped group rest)
    (hplan : s.engine.db.commitGroupPlan opts (s.entries group) f = (plan, answers)) :
    let c := Committer.delivering (group.zip (answers.map fun a => a.map fun _ => ())) group rest
    c.owned = s.committer.owned ∧ c.phase < s.committer.phase := by
  have hvalid : s.Valid group := h.valid fun j hj => by
    rw [hc]
    exact List.mem_append_left _ (List.mem_append_left _ hj)
  have hlen := (commitGroupPlan_spec opts s.engine.db (s.entries group) f).1
  rw [CommitQueue.length_entries hvalid, hplan] at hlen
  rw [hc]
  refine ⟨congrArg (· ++ rest) (List.map_fst_zip (by rw [List.length_map, hlen])), ?_⟩
  cases group with
  | nil => simp [Committer.phase]
  | cons j group =>
    obtain ⟨x, xs, rfl⟩ := List.exists_cons_of_length_eq_add_one hlen
    simp [Committer.phase]

/-- A committer's step lowers the rank; no other step raises it. -/
theorem rank_step (h : QueueInv s) {a : QueueAction} (hs : s.step opts a = some s') {i : ℕ}
    {w : Waiter} (hw : s.waiters[i]? = some w) (hnot : ¬ s.Settled i) (hnot' : ¬ s'.Settled i) :
    s'.rank i ≤ s.rank i ∧ (a.committing → s'.rank i < s.rank i) := by
  have hi := placed_of_unanswered h hw fun ha => hnot (Or.inl ⟨w, hw, ha⟩)
  have hlower : s'.rank i < s.rank i → s'.rank i ≤ s.rank i ∧
      (a.committing → s'.rank i < s.rank i) :=
    fun hlt => ⟨le_of_lt hlt, fun _ => hlt⟩
  cases CommitQueue.step_cases hs with
  | submit _ =>
    -- the new waiter queues up behind all the others
    refine ⟨?_, fun hc => absurd hc id⟩
    unfold CommitQueue.rank
    rw [← List.append_assoc, List.idxOf_append_of_mem hi]
  | @bail j d _ hj _ =>
    refine ⟨rank_erase h hi ?_, fun hc => absurd hc id⟩
    rintro rfl
    refine hnot' (Or.inl ⟨{ w with
      returned := some (.bailed ((s.bgError.map Error.background).getD .closed)) }, ?_, Or.inr rfl⟩)
    show (s.waiters.modify j _)[j]? = some _
    rw [List.getElem?_modify_eq, hw]
    rfl
  | drain hc hq =>
    obtain ⟨j, rest, hq⟩ := List.exists_cons_of_ne_nil hq
    refine hlower (rank_phase i ?_ ?_)
    · rw [hc]
      exact List.append_nil _
    · rw [hc, hq]
      simp [Committer.phase]
  | chunk hc hne hn hcut => exact hlower (rank_chunk h hc hne hn hcut i)
  | @refuse msg j group rest hc =>
    exact hlower (rank_answer (c := .refusing msg group rest) hw (by rw [hc]; rfl) (by rw [hc]; rfl)
      (by cases group <;> simp [Committer.phase]) hnot')
  | apply hc hplan =>
    obtain ⟨howned, hphase⟩ := phase_apply h hc hplan
    refine hlower ?_
    unfold CommitQueue.rank
    rw [howned]
    exact Nat.add_lt_add_left hphase _
  | @deliver j r todo group rest hc =>
    exact hlower (rank_answer (c := .delivering todo group rest) (d := s.engine) hw
      (by rw [hc]; rfl) (by rw [hc]; rfl) (by cases todo <;> simp [Committer.phase]) hnot')
  | @delivered _ rest hc | @refused _ rest hc =>
    refine hlower (rank_phase (c := .holding rest) i (by rw [hc]; rfl) ?_)
    rw [hc]
    cases rest <;> simp [Committer.phase]
  | emptied hc => exact hlower (rank_phase (c := .idle) i (by rw [hc]; rfl) (by rw [hc]; decide))
  | exit | panicHolding | panicRefusing | panicGrouped | panicDelivering =>
    -- the committer is gone
    exact absurd (Or.inr rfl) hnot'
  | take | degrade | close | other => exact ⟨le_rfl, fun hc => absurd hc id⟩

/-! ### Delivery -/

theorem filter_fst_eq {α : Type} {l : List (ℕ × α)} (h : (l.map Prod.fst).Nodup) {p : ℕ × α}
    (hp : p ∈ l) :
    l.filter (fun q => decide (q.1 = p.1)) = [p] := by
  induction l with
  | nil => exact absurd hp List.not_mem_nil
  | cons q l ih =>
    obtain ⟨hq, hl⟩ := List.nodup_cons.mp h
    rcases List.mem_cons.mp hp with rfl | hp
    · rw [List.filter_cons_of_pos (by simp)]
      refine congrArg (p :: ·) (List.filter_eq_nil_iff.mpr fun r hr => ?_)
      simpa using fun heq => hq (List.mem_map.mpr ⟨r, hr, heq⟩)
    · have hne : q.1 ≠ p.1 := fun heq => hq (heq ▸ List.mem_map_of_mem hp)
      rw [List.filter_cons_of_neg (by simpa using hne)]
      exact ih hl hp

/-- Some step of the committer can be taken while a waiter is on the queue or
drained. -/
theorem committing_enabled {i : ℕ} (hi : i ∈ s.committer.owned ++ s.queue)
    (hrun : s.committer.running = true) :
    ∃ a, a.committing ∧ s.Shielded a ∧ (s.step opts a).isSome = true := by
  cases hc : s.committer with
  | idle =>
    rw [hc] at hi
    have hne : s.queue ≠ [] := List.ne_nil_of_mem hi
    exact ⟨.drain, trivial, trivial, by simp [CommitQueue.step, hc, hne]⟩
  | holding rest =>
    cases rest with
    | nil => exact ⟨.finish, trivial, trivial, by simp [CommitQueue.step, hc]⟩
    | cons j rest => exact ⟨.chunk, trivial, trivial, by simp [CommitQueue.step, hc]⟩
  | refusing msg group rest =>
    cases group with
    | nil => exact ⟨.finish, trivial, trivial, by simp [CommitQueue.step, hc]⟩
    | cons j group => exact ⟨.refuse, trivial, trivial, by simp [CommitQueue.step, hc]⟩
  | grouped group rest => exact ⟨.apply .none, trivial, trivial, by simp [CommitQueue.step, hc]⟩
  | delivering todo group rest =>
    cases todo with
    | nil => exact ⟨.finish, trivial, trivial, by simp [CommitQueue.step, hc]⟩
    | cons p todo => exact ⟨.deliver, trivial, trivial, by simp [CommitQueue.step, hc]⟩
  | exited | dead =>
    rw [hc] at hrun
    exact absurd hrun (by decide)

/-- Once the committer has stopped, a parked client can pull its waiter out. -/
theorem bail_enabled (h : QueueInv s) {i : ℕ} {w : Waiter} (hw : s.waiters[i]? = some w)
    (hnot : ¬ w.answered) (hstop : s.committer.running = false) :
    (s.step opts (.bail i)).isSome = true := by
  have howned : s.committer.owned = [] ∧ (s.bgError.isSome = true ∨ s.shutdown = true) := by
    cases hc : s.committer with
    | exited => exact ⟨rfl, Or.inr (h.exited hc)⟩
    | dead => exact ⟨rfl, Or.inl (h.stopped hc)⟩
    | idle | holding _ | refusing _ _ _ | grouped _ _ | delivering _ _ _ =>
      rw [hc] at hstop
      exact absurd hstop (by simp [Committer.running])
  have hi : i ∈ s.queue := by
    have hi := placed_of_unanswered h hw hnot
    rwa [howned.1] at hi
  have hlt : s.committer.unapplied.length + s.queue.idxOf i < s.engine.queue.length := by
    rw [h.pending, CommitQueue.length_entries h.unapplied_valid, List.length_append]
    exact Nat.add_lt_add_left (List.idxOf_lt_length_of_mem hi) _
  simp [CommitQueue.step, Engine.step, howned.2, hi, hlt]

theorem waiter_of_follows {tick : QueueAction → Prop} {n : ℕ}
    (h : (commitQueue opts).Reaches CommitQueue.Shielded s)
    (hf : (commitQueue opts).Follows CommitQueue.Shielded tick s n s') {i : ℕ} {w : Waiter}
    (hw : s.waiters[i]? = some w) : ∃ w', s'.waiters[i]? = some w' ∧ w.Keeps w' := by
  induction hf with
  | refl => exact ⟨w, hw, .refl w⟩
  | step hf _ _ hs ih | tick hf _ _ hs ih =>
    obtain ⟨v, hv, hkeeps⟩ := ih
    obtain ⟨w', hw', hkeeps'⟩ := step_waiter (queueInv_of_reaches (hf.reaches h)) hs hv
    exact ⟨w', hw', hkeeps.trans hkeeps'⟩

/-- A committer that has stopped stays so. -/
theorem stopped_step {a : QueueAction} (hs : s.step opts a = some s')
    (hstop : s.committer.running = false) :
    s'.committer.running = false := by
  cases CommitQueue.step_cases hs with
  | submit | take | bail | degrade | close | other => exact hstop
  | exit | panicHolding | panicRefusing | panicGrouped | panicDelivering => rfl
  | drain hc | chunk hc | refuse hc | apply hc | deliver hc | delivered hc | refused hc
  | emptied hc =>
    rw [hc] at hstop
    exact absurd hstop (by simp [Committer.running])

theorem settled_step (h : QueueInv s) {a : QueueAction} (hs : s.step opts a = some s') {i : ℕ}
    (hi : s.Settled i) : s'.Settled i := by
  rcases hi with ⟨w, hw, ha⟩ | hstop
  · obtain ⟨w', hw', hkeeps⟩ := step_waiter h hs hw
    exact Or.inl ⟨w', hw', hkeeps.answered ha⟩
  · exact Or.inr (stopped_step hs hstop)

/-- More of the committer's steps than the rank answer the waiter, or its client
can bail. -/
theorem answered_eventually (h : (commitQueue opts).Reaches CommitQueue.Shielded s) {i : ℕ}
    {w : Waiter} (hw : s.waiters[i]? = some w) {n : ℕ} (hn : s.rank i < n)
    (hf : (commitQueue opts).Follows CommitQueue.Shielded QueueAction.committing s n s') :
    ∃ w', s'.waiters[i]? = some w' ∧ (w'.answered ∨ (s'.step opts (.bail i)).isSome = true) := by
  have hinv' := queueInv_of_reaches (hf.reaches h)
  have hranked : s'.Settled i ∨ s'.rank i + n ≤ s.rank i := by
    refine hf.done_or_le (fun hf hgoal _ hs => ?_) fun hf hnot _ hs hnot' => ?_
    · exact settled_step (queueInv_of_reaches (hf.reaches h)) hs hgoal
    · obtain ⟨v, hv, -⟩ := waiter_of_follows h hf hw
      exact rank_step (queueInv_of_reaches (hf.reaches h)) hs hv hnot hnot'
  obtain ⟨w', hw', -⟩ := waiter_of_follows h hf hw
  refine ⟨w', hw', ?_⟩
  by_cases ha : w'.answered
  · exact Or.inl ha
  · refine Or.inr (bail_enabled hinv' hw' ha ?_)
    rcases hranked.resolve_right (by omega) with ⟨v, hv, hans⟩ | hstop
    · rw [Option.some_inj.mp (hw'.symm.trans hv)] at ha
      exact absurd hans ha
    · exact hstop

/-- **Commit-queue delivery**, in every run whose panics are shielded.  What a
client returned stays, and a bailed batch is never begun; `Ok` means that the
batch was begun once, applied once and published; a client without an answer
has its waiter on the queue or drained, with a step of the committer to wait
for or its own way out; and a bounded number of the committer's steps ends the
wait. -/
theorem commit_delivery (h : (commitQueue opts).Reaches CommitQueue.Shielded s) {i : ℕ} {w : Waiter}
    (hw : s.waiters[i]? = some w) :
    (∀ n s', (commitQueue opts).Follows CommitQueue.Shielded QueueAction.committing s n s' →
      ∃ w', s'.waiters[i]? = some w' ∧ w.Keeps w' ∧
        ∀ err, w'.returned = some (.bailed err) → i ∉ s'.begun) ∧
    (w.returned = some (.delivered (.ok ())) → w.entry.ops ≠ [] →
      s.begun.count i = 1 ∧ ∃ b, s.applied.filter (fun p => decide (p.1 = i)) = [(i, b)] ∧
        b ∈ s.engine.db.published ∧ b.1 + b.2.length ≤ s.engine.db.visibleSeqno + 1 ∧
        ∃ (v : Vlog) (events : List BatchOp), v.Encodes (w.entry.ops ++ events) b.2) ∧
    (¬ w.answered → i ∈ s.committer.owned ++ s.queue ∧
      (s.committer.running = true → ∃ a, a.committing ∧ s.Shielded a ∧
        (s.step opts a).isSome = true) ∧
      (s.committer.running = false → (s.step opts (.bail i)).isSome = true)) ∧
    ∃ bound, ∀ n s', bound < n →
      (commitQueue opts).Follows CommitQueue.Shielded QueueAction.committing s n s' →
      ∃ w', s'.waiters[i]? = some w' ∧ (w'.answered ∨ (s'.step opts (.bail i)).isSome = true) := by
  have hinv := queueInv_of_reaches h
  refine ⟨fun n s' hf => ?_, fun hret hops => ?_, fun hnot => ?_, s.rank i, fun n s' hn hf => ?_⟩
  · obtain ⟨w', hw', hkeeps⟩ := waiter_of_follows h hf hw
    exact ⟨w', hw', hkeeps, fun err => (queueInv_of_reaches (hf.reaches h)).bailed i w' err hw'⟩
  · obtain ⟨b, hb, henc⟩ := hinv.okay i w hw (Or.inr (Or.inl hret)) hops
    obtain ⟨hpub, hvis⟩ := hinv.shown _ hb
    refine ⟨List.count_eq_one_of_mem hinv.begun_nodup (hinv.applied_begun _ hb), b, ?_,
      hpub, hvis, henc⟩
    exact filter_fst_eq hinv.applied_nodup hb
  · have hi := placed_of_unanswered hinv hw hnot
    exact ⟨hi, committing_enabled hi, bail_enabled hinv hw hnot⟩
  · exact answered_eventually h hw hn hf

/-- A write is drained, applied and answered. -/
theorem commit_delivery_of_write : ∃ (s : CommitQueue) (w : Waiter), s.waiters[0]? = some w ∧
    w.returned = some (.delivered (.ok ())) ∧
    ∃ b, s.applied.filter (fun p => decide (p.1 = 0)) = [(0, b)] ∧ b ∈ s.engine.db.published := by
  have hrun : ((commitQueue (.default plainFormat)).replay CommitQueue.Shielded
      [.submit (.batch [.put [byte 107] [byte 1]]) 2, .drain, .chunk, .apply .none,
        .deliver, .take 0]
      (commitQueue (.default plainFormat)).init).any (fun s => decide (∃ w ∈ s.waiters[0]?.toList,
        w.returned = some (.delivered (.ok ())) ∧ w.entry.ops ≠ [])) = true := by
    decide +kernel
  obtain ⟨s, hreach, w, hw, hret, hops⟩ := System.exists_reaches hrun
  have hw' : s.waiters[0]? = some w := Option.mem_toList.mp hw
  obtain ⟨-, hok, -⟩ := commit_delivery hreach hw'
  obtain ⟨-, b, hb, hpub, -⟩ := hok hret hops
  exact ⟨s, w, hw', hret, b, hb, hpub⟩

/-! ### Panics outside the guard -/

/-- Drained waiters that a panic leaves unanswered. -/
def Committer.uncovered : Committer → List ℕ
  | .holding rest => rest
  | .refusing _ group rest => group ++ rest
  | .grouped _ rest => rest
  | .delivering _ _ rest => rest
  | .idle | .exited | .dead => []

/-- No result, no way out, and no committer. -/
structure CommitQueue.Stranded (i : ℕ) (s : CommitQueue) : Prop where
  dead : s.committer = .dead
  gone : i ∉ s.queue
  parked : ∃ w, s.waiters[i]? = some w ∧ ¬ w.answered

theorem stranded_step {a : QueueAction} (hs : s.step opts a = some s') {i : ℕ} (h : s.Stranded i) :
    s'.Stranded i := by
  obtain ⟨hdead, hgone, w, hw, hnot⟩ := h
  have hother : ∀ (j : ℕ) (f : Waiter → Waiter), j ≠ i → (s.waiters.modify j f)[i]? = some w := by
    intro j f hj
    rw [List.getElem?_modify_ne _ _ hj]
    exact hw
  cases CommitQueue.step_cases hs with
  | submit _ =>
    have hi := (List.getElem?_eq_some_iff.mp hw).1
    refine ⟨hdead, fun hmem => ?_, w, ?_, hnot⟩
    · rcases List.mem_append.mp hmem with hmem | hmem
      · exact hgone hmem
      · rw [List.mem_singleton.mp hmem] at hi
        exact absurd hi (Nat.lt_irrefl _)
    · rw [List.getElem?_append_left hi]
      exact hw
  | @take j v r hv hres _ =>
    -- a waiter with a result is not this one
    refine ⟨hdead, hgone, w, hother j _ fun hj => hnot (Or.inl ?_), hnot⟩
    rw [hj, hw] at hv
    rw [Option.some_inj.mp hv, hres]
    rfl
  | @bail j _ _ hj _ =>
    exact ⟨hdead, fun hmem => hgone (List.mem_of_mem_erase hmem), w,
      hother j _ fun heq => hgone (heq ▸ hj), hnot⟩
  | drain hc | exit hc | chunk hc | refuse hc | apply hc | deliver hc | delivered hc | refused hc
  | emptied hc | panicHolding hc | panicRefusing hc | panicGrouped hc | panicDelivering hc =>
    exact absurd (hdead.symm.trans hc) (by simp)
  | degrade | close | other => exact ⟨hdead, hgone, w, hw, hnot⟩

theorem stranded_of_follows {ok : CommitQueue → QueueAction → Prop}
    {tick : QueueAction → Prop} {n i : ℕ}
    (hf : (commitQueue opts).Follows ok tick s n s') (h : s.Stranded i) : s'.Stranded i := by
  induction hf with
  | refl => exact h
  | step _ _ _ hs ih | tick _ _ _ hs ih => exact stranded_step hs ih

/-- A panic strands every drained waiter its guard does not cover. -/
theorem stranded_of_panic (h : QueueInv s) {f : Faults} {k : ℕ}
    (hs : s.step opts (.panic f k) = some s')
    {i : ℕ} (hi : i ∈ s.committer.uncovered) : s'.Stranded i := by
  have howned : i ∈ s.committer.owned := by
    cases hc : s.committer with
    | idle | exited | dead =>
      rw [hc] at hi
      exact absurd hi List.not_mem_nil
    | holding rest | refusing msg group rest =>
      rw [hc] at hi
      exact hi
    | grouped group rest | delivering todo group rest =>
      rw [hc] at hi
      exact List.mem_append_right _ hi
  obtain ⟨w, hw, hres, hret⟩ := h.parked i (List.mem_append_left _ howned)
  have hnot : ¬ w.answered := by
    rintro (ha | ha)
    · rw [hres] at ha
      exact absurd ha (by simp)
    · rw [hret] at ha
      exact absurd ha (by simp)
  have hgone : i ∉ s.queue := fun hq => (List.nodup_append.mp h.nodup).2.2 i howned i hq rfl
  have hguard : ∀ group : List ℕ, i ∉ group → (s.guardDrop group).waiters[i]? = some w := by
    intro group hgroup
    rw [CommitQueue.guardDrop, List.getElem?_mapIdx, hw]
    exact congrArg some (if_neg fun hcond => hgroup hcond.1)
  cases CommitQueue.step_cases hs with
  | panicHolding | panicRefusing => exact ⟨rfl, hgone, w, hw, hnot⟩
  | @panicGrouped _ _ group rest hc =>
    have hnodup := (List.nodup_append.mp h.nodup).1
    rw [hc] at hnodup hi
    refine ⟨rfl, hgone, w, hguard group fun hgroup => ?_, hnot⟩
    exact (List.nodup_append.mp hnodup).2.2 i hgroup i hi rfl
  | @panicDelivering _ _ todo group rest hc =>
    -- what is behind the chunk is not begun
    refine ⟨rfl, hgone, w, hguard group fun hgroup => ?_, hnot⟩
    refine h.fresh i ?_ ((h.guarded _ _ _ hc).2 i hgroup)
    rw [hc] at hi ⊢
    exact List.mem_append_left _ hi

theorem submit_batch (hsync : opts.sync = .always) {ops : List BatchOp}
    (h : (Submission.batch ops).Allowed opts s.engine) (bytes : ℕ) :
    s.step opts (.submit (.batch ops) bytes) = some { s with
      engine := { s.engine with queue := s.engine.queue ++ [⟨ops, none, true⟩] }
      waiters := s.waiters ++ [⟨⟨ops, none, true⟩, bytes, none, none⟩]
      queue := s.queue ++ [s.waiters.length] } := by
  simp only [CommitQueue.step, Engine.step, Engine.guarded]
  rw [if_pos ⟨hsync, h⟩]
  rfl

/-- Of two batches that do not fit one chunk, the second is stranded by a panic
in the first. -/
theorem second_stranded (hsync : opts.sync = .always) {ops ops' : List BatchOp}
    (h : (Submission.batch ops).Allowed opts (Engine.init opts))
    (h' : (Submission.batch ops').Allowed opts (Engine.init opts)) {bytes bytes' : ℕ}
    (hlen : chunkLen [bytes, bytes'] = 1) :
    ∃ s, (commitQueue opts).Reachable s ∧ s.Stranded 1 := by
  -- two submits, one drain of both, and a chunk that takes the first only
  have h1 := submit_batch (s := CommitQueue.init opts) hsync h bytes
  set s1 : CommitQueue := { CommitQueue.init opts with
    engine := { (CommitQueue.init opts).engine with queue := [] ++ [⟨ops, none, true⟩] }
    waiters := [] ++ [⟨⟨ops, none, true⟩, bytes, none, none⟩]
    queue := [] ++ [0] }
  have h2 := submit_batch (s := s1) hsync h' bytes'
  set s2 : CommitQueue := { s1 with
    engine := { s1.engine with queue := s1.engine.queue ++ [⟨ops', none, true⟩] }
    waiters := s1.waiters ++ [⟨⟨ops', none, true⟩, bytes', none, none⟩]
    queue := s1.queue ++ [s1.waiters.length] }
  have h3 : s2.step opts .drain = some { s2 with committer := .holding [0, 1], queue := [] } := rfl
  have h4 : ({ s2 with committer := .holding [0, 1], queue := [] } : CommitQueue).step opts .chunk =
      some { s2 with committer := .grouped [0] [1], queue := [] } := by
    show some { s2 with
      committer := Committer.grouped ([0, 1].take (chunkLen [bytes, bytes']))
        ([0, 1].drop (chunkLen [bytes, bytes']))
      queue := [] } = _
    rw [hlen]
    rfl
  have hreach : (commitQueue opts).Reaches CommitQueue.Shielded
      { s2 with committer := .grouped [0] [1], queue := [] } := by
    have r1 : (commitQueue opts).Reaches CommitQueue.Shielded s1 :=
      System.Reaches.init.step (a := .submit (.batch ops) bytes) trivial h1
    have r2 : (commitQueue opts).Reaches CommitQueue.Shielded s2 :=
      r1.step (a := .submit (.batch ops') bytes') trivial h2
    have r3 : (commitQueue opts).Reaches CommitQueue.Shielded
        { s2 with committer := .holding [0, 1], queue := [] } := r2.step (a := .drain) trivial h3
    exact r3.step (a := .chunk) trivial h4
  obtain ⟨s', h5⟩ : ∃ s',
      ({ s2 with committer := .grouped [0] [1], queue := [] } : CommitQueue).step opts
      (.panic .none 0) = some s' := ⟨_, rfl⟩
  exact ⟨s', hreach.reachable.step (a := .panic .none 0) trivial h5,
    stranded_of_panic (queueInv_of_reaches hreach) h5 List.mem_cons_self⟩

/-- Two megabyte writes are drained together, and the committer panics in the
chunk of the first: nothing ever answers the second. -/
theorem waiter_lost : ¬ ∀ (opts : Options) (s : CommitQueue), (commitQueue opts).Reachable s →
    ∀ (i : ℕ) (w : Waiter), s.waiters[i]? = some w → ∃ (n : ℕ) (s' : CommitQueue) (w' : Waiter),
      (commitQueue opts).Follows (fun _ _ => True) QueueAction.committing s n s' ∧
        s'.waiters[i]? = some w' ∧ w'.answered := by
  intro hall
  have hallowed : (Submission.batch [.put [byte 107] (List.replicate (2 ^ 20) (byte 0))]).Allowed
      (.default plainFormat) (Engine.init (.default plainFormat)) := by
    refine ⟨List.cons_ne_nil _ _, fun op hop => ?_⟩
    obtain rfl := List.mem_singleton.mp hop
    have hkey : ValidUserKey [byte 107] := by decide
    have hvalue : (List.replicate (2 ^ 20) (byte 0)).length ≤ 256 * 2 ^ 20 := by
      rw [List.length_replicate]
      omega
    exact ⟨hkey, by simp [BatchOp.key, Options.default], hvalue⟩
  obtain ⟨s, hreach, hstranded⟩ := second_stranded rfl hallowed hallowed
    (show chunkLen [2 ^ 20 + 1, 2 ^ 20 + 1] = 1 by decide)
  obtain ⟨w, hw, -⟩ := hstranded.parked
  obtain ⟨n, s', w', hf, hw', ha⟩ := hall (.default plainFormat) s hreach 1 w hw
  obtain ⟨v, hv, hnot⟩ := (stranded_of_follows hf hstranded).parked
  exact hnot (Option.some_inj.mp (hw'.symm.trans hv) ▸ ha)

end Fluent31
