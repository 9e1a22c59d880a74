/-
What each action of the service does.

`Service.Takes opts s act s'` has one case for each action, with the guards that
hold and the state that results; a proof about all actions is a case analysis of
it.

* `Service.takes` — the step function takes no other steps.
-/
import Fluent31.Service

namespace Fluent31

variable {opts : Options} {s s' : Service} {a : Action} {e' : Engine}

/-- The actions of subscriptions on the engine. -/
inductive Action.Registers : Action → Prop
  | snapshot : Registers .snapshot
  | advance (pinned last : ℕ) : Registers (.advance pinned last)
  | release (seq : ℕ) : Registers (.release seq)

theorem Action.Registers.frame {e : Engine} (h : a.Registers) (hs : e.step opts a = some e') :
    e'.log = e.log ∧ e'.db.vlog = e.db.vlog ∧ e'.db.published = e.db.published ∧
      e'.db.visibleSeqno = e.db.visibleSeqno ∧ ∀ n orphan, a ≠ .reopen n orphan := by
  cases h with
  | snapshot =>
    obtain rfl := Option.some_inj.mp hs
    exact ⟨rfl, rfl, rfl, rfl, fun _ _ => by simp⟩
  | advance pinned last =>
    obtain ⟨-, rfl⟩ := Engine.guarded_eq_some hs
    exact ⟨rfl, rfl, rfl, rfl, fun _ _ => by simp⟩
  | release seq =>
    obtain ⟨-, rfl⟩ := Engine.guarded_eq_some hs
    exact ⟨rfl, rfl, rfl, rfl, fun _ _ => by simp⟩

theorem Service.guarded_eq_some {p : Prop} [Decidable p] (h : guarded p s = some s') :
    p ∧ s = s' := by
  unfold guarded at h
  split at h
  · exact ⟨‹p›, Option.some_inj.mp h⟩
  · exact absurd h (by simp)

/-- **What an action of the service does.** -/
inductive Service.Takes (opts : Options) (s : Service) : ServiceAction → Service → Prop
  | engine {a : Action} {e' : Engine} (headFault : Bool) : s.phase = .running → a.serves →
      (a.writes → s.publishing = []) → (∀ seq ∈ a.consumes, s.Free seq) →
      s.engine.step opts a = some e' → Takes opts s (.engine a headFault) (s.moved e' headFault)
  | publish {r : ℕ × List EncEntry} {rest : List (ℕ × List EncEntry)} : s.publishing = r :: rest →
      Takes opts s .publish { s with
        subs := (publishStream s.subs s.subsActive r.1 r.2).1
        subsActive := (publishStream s.subs s.subsActive r.1 r.2).2
        publishing := rest }
  | gcPick {victim : ℕ} {chunks : List (List VlogRecord)} : s.phase = .running → victim ∈ s.vlogs →
      victim ≠ s.vlogHead → victim ∉ s.manifest.retiredIds →
      chunks.flatten.Perm (s.engine.db.vlog.scanRecords victim) →
      Takes opts s (.gcPick victim chunks) { s with pass := some ⟨victim, chunks, false⟩ }
  | gcChunk {p : Pass} {chunk : List VlogRecord} {todo : List (List VlogRecord)} {e' : Engine}
      {applied : Bool} (headFault : Bool) : p ∈ s.pass → p.todo = chunk :: todo →
        s.publishing = [] →
      s.engine.step opts (.relocate chunk) = some e' →
      applied = (!(relocationOps s.engine.db chunk).isEmpty &&
        (s.engine.db.applyLocked opts (relocationOps s.engine.db chunk) false).2.isOk) →
      Takes opts s (.gcChunk headFault) { s.moved e' headFault with
        pass := if (relocationOps s.engine.db chunk).isEmpty || applied then
          some { p with todo := todo } else none
        relocated := if applied then (s.engine.db.visibleSeqno + 1) :: s.relocated
        else s.relocated }
  | gcAbort : Takes opts s .gcAbort { s with pass := none }
  | gcSync {p : Pass} : p ∈ s.pass → p.todo = [] → s.publishing = [] →
      Takes opts s .gcSync { s with
        pass := some { p with synced := true }, durable := s.engine.db.visibleSeqno }
  | gcRetire {p : Pass} : p ∈ s.pass → p.synced = true →
      Takes opts s .gcRetire { s with
        pass := none
        manifest := { s.manifest with
          live := s.manifest.live.filter fun id => decide (id ≠ p.victim)
          retired := s.manifest.retired ++ [(p.victim, s.engine.db.visibleSeqno)] }
        retired := s.retired ++ [(p.victim, s.engine.db.visibleSeqno)] }
  | gateWatermark : s.phase = .running →
      Takes opts s .gateWatermark { s with gate := .watermark s.engine.db.watermark }
  | gateFlushed {w : ℕ} : s.gate = .watermark w →
      Takes opts s .gateFlushed { s with gate := .flushed w s.engine.db.manifest.lastFlushedSeqno }
  | gates {w f : ℕ} : s.gate = .flushed w f →
      Takes opts s .gates { s with
        gate := .idle
        releasing := s.ready w f
        retired := s.retired.filter fun r => !passesGates w f r
        released := ((s.ready w f).map Prod.snd).foldl max s.released }
  | release : Takes opts s .release { s with
      manifest := { s.manifest with
        retired := s.manifest.retired.filter fun r => decide (r.1 ∉ s.releasing.map Prod.fst) }
      vlogs := s.vlogs.filter fun id => decide (id ∉ s.releasing.map Prod.fst)
      obsolete := s.obsolete ++ s.releasing.map Prod.fst
      releasing := [] }
  | unlink {id : ℕ} : id ∈ s.obsolete → (∀ v ∈ s.views, id ∉ v.1.version.vlogs) →
      Takes opts s (.unlink id) { s with
        disk := s.disk.filter fun i => decide (i ≠ id)
        obsolete := s.obsolete.filter fun i => decide (i ≠ id) }
  | openView {seq : Option ℕ} : s.phase = .running → (∀ t ∈ seq, t ∈ s.engine.handles) →
      Takes opts s (.openView seq) { s with views := s.views ++
        [(s.db.readView, min (seq.getD s.engine.db.visibleSeqno) s.engine.db.visibleSeqno)] }
  | closeView (i : ℕ) : Takes opts s (.closeView i) { s with views := s.views.eraseIdx i }
  | subscribe {lo : Bytes} {hi : Option Bytes} {maxBytes : ℕ} {e' : Engine} (start : Bytes) :
      s.phase = .running → s.publishing = [] → USER_KEYSPACE_START ≤ start →
      s.engine.step opts .snapshot = some e' →
      Takes opts s (.subscribe lo hi maxBytes) { s with
        engine := e'
        subs := s.subs ++ [.new start hi maxBytes s.engine.db.visibleSeqno]
        subsActive := true }
  | check {i : ℕ} {sub : Subscription} : s.subs[i]? = some sub → sub.closed = false →
      sub.checked = false → sub.taken = [] →
      Takes opts s (.check i) (s.setSub i (sub.check s.degraded))
  | drain {i : ℕ} {sub : Subscription} : s.subs[i]? = some sub → sub.closed = false →
    sub.checked = true →
      Takes opts s (.drain i) (s.setSub i sub.drain)
  | deliver {i : ℕ} {sub : Subscription} {out : List StreamEntry} {e' : Engine} :
      s.subs[i]? = some sub → sub.closed = false → sub.taken ≠ [] →
      sub.taken.mapM (RawEntry.resolve s.db) = .ok out →
      s.engine.step opts (.advance sub.pinned sub.lastTaken) = some e' →
      Takes opts s (.deliver i) { s.setSub i (sub.deliver out) with engine := e' }
  | kill {i : ℕ} {sub : Subscription} {err : Error} : s.subs[i]? = some sub → sub.closed = false →
      sub.taken ≠ [] → sub.taken.mapM (RawEntry.resolve s.db) = .error err →
      Takes opts s (.deliver i) (s.setSub i sub.kill)
  | close {i : ℕ} {sub : Subscription} {e' : Engine} : s.subs[i]? = some sub → sub.closed = false →
      sub.checked = false → sub.taken = [] → s.engine.step opts (.release sub.pinned) = some e' →
      Takes opts s (.close i) { s.setSub i sub.close with
        engine := e'
        subsActive := (s.subs.set i sub.close).any Subscription.attached }
  | reopen {n orphan : ℕ} {vanished : List ℕ} {s' : Service} :
      s.reopen opts n orphan vanished = some s' → Takes opts s (.reopen n orphan vanished) s'
  | crashOpening (id : ℕ) : Takes opts s (.crashOpening id) { s with
      phase := .down
      disk := s.disk ++ [id]
      gate := .idle
      releasing := []
      obsolete := []
      pass := none
      views := []
      subs := []
      subsActive := false
      publishing := [] }
  | completeOpen : s.phase = .opening → Takes opts s .completeOpen { s with
      phase := .running
      manifest := { s.manifest with
        live := s.vlogs.filter fun id => decide (id ∉ s.manifest.retiredIds)
        head := s.engine.db.vlog.headId }
      disk := s.disk.filter fun id => decide (id ∈ s.vlogs.filter (fun id =>
        decide (id ∉ s.manifest.retiredIds)) ∨ id ∈ s.manifest.retiredIds) }

/-- The step function takes these actions. -/
theorem Service.takes {act : ServiceAction} (hs : s.step opts act = some s') :
    s.Takes opts act s' := by
  cases act with
  | engine a headFault =>
    dsimp only [step] at hs
    split at hs
    · rename_i hguard
      obtain ⟨e', he, rfl⟩ := Option.map_eq_some_iff.mp hs
      exact .engine headFault hguard.1 hguard.2.1 hguard.2.2.1 hguard.2.2.2 he
    · exact absurd hs (by simp)
  | publish =>
    dsimp only [step] at hs
    split at hs
    · exact absurd hs (by simp)
    · rename_i hpub
      obtain rfl := Option.some_inj.mp hs
      exact .publish hpub
  | gcPick victim chunks =>
    obtain ⟨⟨hphase, -, -, hmem, hne, hfresh, hperm⟩, rfl⟩ := guarded_eq_some hs
    exact .gcPick hphase hmem hne hfresh hperm
  | gcChunk headFault =>
    obtain ⟨p, hp, hs⟩ := Option.bind_eq_some_iff.mp hs
    split at hs
    · exact absurd hs (by simp)
    · rename_i htodo
      split at hs
      · rename_i hpub
        obtain ⟨e', he, rfl⟩ := Option.map_eq_some_iff.mp hs
        exact .gcChunk headFault hp htodo hpub he rfl
      · exact absurd hs (by simp)
  | gcAbort =>
    obtain rfl := Option.some_inj.mp hs
    exact .gcAbort
  | gcSync =>
    obtain ⟨p, hp, hs⟩ := Option.bind_eq_some_iff.mp hs
    obtain ⟨⟨htodo, hpub⟩, rfl⟩ := guarded_eq_some hs
    exact .gcSync hp htodo hpub
  | gcRetire =>
    obtain ⟨p, hp, hs⟩ := Option.bind_eq_some_iff.mp hs
    obtain ⟨hsynced, rfl⟩ := guarded_eq_some hs
    exact .gcRetire hp hsynced
  | gateWatermark =>
    obtain ⟨⟨hphase, -⟩, rfl⟩ := guarded_eq_some hs
    exact .gateWatermark hphase
  | gateFlushed =>
    dsimp only [step] at hs
    split at hs
    · rename_i hgate
      obtain rfl := Option.some_inj.mp hs
      exact .gateFlushed hgate
    · exact absurd hs (by simp)
  | gates =>
    dsimp only [step] at hs
    split at hs
    · rename_i hgate
      obtain rfl := Option.some_inj.mp hs
      exact .gates hgate
    · exact absurd hs (by simp)
  | release =>
    obtain rfl := Option.some_inj.mp hs
    exact .release
  | unlink id =>
    obtain ⟨⟨hid, hviews⟩, rfl⟩ := guarded_eq_some hs
    exact .unlink hid hviews
  | openView seq =>
    obtain ⟨⟨hphase, hseq⟩, rfl⟩ := guarded_eq_some hs
    exact .openView hphase hseq
  | closeView i =>
    obtain rfl := Option.some_inj.mp hs
    exact .closeView i
  | subscribe lo hi maxBytes =>
    obtain ⟨start, hstart, heq⟩ : ∃ start, USER_KEYSPACE_START ≤ start ∧
        (if USER_KEYSPACE_START ≤ lo then lo else USER_KEYSPACE_START) = start := by
      by_cases hle : USER_KEYSPACE_START ≤ lo
      · exact ⟨lo, hle, if_pos hle⟩
      · exact ⟨_, le_rfl, if_neg hle⟩
    dsimp only [step] at hs
    rw [heq] at hs
    split at hs
    · rename_i hguard
      obtain ⟨e', he, rfl⟩ := Option.map_eq_some_iff.mp hs
      exact .subscribe start hguard.1 hguard.2.2.1 hstart he
    · exact absurd hs (by simp)
  | check i =>
    obtain ⟨sub, hsub, hs⟩ := Option.bind_eq_some_iff.mp hs
    obtain ⟨⟨hclosed, hchecked, htaken⟩, rfl⟩ := guarded_eq_some hs
    exact .check hsub hclosed hchecked htaken
  | drain i =>
    obtain ⟨sub, hsub, hs⟩ := Option.bind_eq_some_iff.mp hs
    obtain ⟨⟨hclosed, hchecked⟩, rfl⟩ := guarded_eq_some hs
    exact .drain hsub hclosed hchecked
  | deliver i =>
    obtain ⟨sub, hsub, hs⟩ := Option.bind_eq_some_iff.mp hs
    split at hs
    · rename_i hguard
      split at hs
      · rename_i out hout
        obtain ⟨e', he, rfl⟩ := Option.map_eq_some_iff.mp hs
        exact .deliver hsub hguard.1 hguard.2 hout he
      · rename_i hout
        obtain rfl := Option.some_inj.mp hs
        exact .kill hsub hguard.1 hguard.2 hout
    · exact absurd hs (by simp)
  | close i =>
    obtain ⟨sub, hsub, hs⟩ := Option.bind_eq_some_iff.mp hs
    split at hs
    · rename_i hguard
      obtain ⟨s₁, hrepin, rfl⟩ := Option.map_eq_some_iff.mp hs
      obtain ⟨e', he, rfl⟩ := Option.map_eq_some_iff.mp hrepin
      exact .close hsub hguard.1 hguard.2.1 hguard.2.2 he
    · exact absurd hs (by simp)
  | reopen n orphan vanished => exact .reopen hs
  | crashOpening id =>
    obtain ⟨-, rfl⟩ := guarded_eq_some hs
    exact .crashOpening id
  | completeOpen =>
    obtain ⟨hphase, rfl⟩ := guarded_eq_some hs
    exact .completeOpen hphase

/-- **What the next process starts from.** -/
theorem Service.reopen_cases {n orphan : ℕ} {vanished : List ℕ}
    (h : s.reopen opts n orphan vanished = some s') :
    ∃ e' disk, s.engine.reopen opts n orphan = some e' ∧
      disk = s.disk.filter (fun id => decide (id ∉ vanished)) ∧
      s.durable ≤ s.engine.db.recoveredSeqno n ∧ (∀ id ∈ vanished, id ∉ s.vlogs) ∧
      (∀ id ∈ disk, id < e'.db.vlog.headId) ∧ (∀ id ∈ s.manifest.live, id ∈ disk) ∧
      s' = { s with
        engine := e'
        phase := .opening
        degraded := false
        vlogs := s.manifest.adopt disk ++ [e'.db.vlog.headId]
        vlogHead := e'.db.vlog.headId
        disk := disk ++ [e'.db.vlog.headId]
        retired := s.manifest.retired.filter fun r => decide (r.1 ∈ disk)
        gate := .idle
        releasing := []
        obsolete := []
        pass := none
        views := []
        subs := []
        subsActive := false
        publishing := []
        relocated := s.relocated.filter fun base => decide (base ≤ e'.db.visibleSeqno) } := by
  unfold reopen at h
  obtain ⟨e', he, h⟩ := Option.bind_eq_some_iff.mp h
  simp only at h
  split at h
  · rename_i hguard
    split at h
    · rename_i hfound
      exact ⟨e', _, he, rfl, hguard.1, hguard.2.1, hguard.2.2, hfound.1,
        (Option.some_inj.mp h).symm⟩
    · exact absurd h (by simp)
  · exact absurd h (by simp)

end Fluent31
