/-
What the observer of a journal may rely on (`journal.rs`).

* `Contract` — every length reported is on disk with the file's entry, and stays
  until the file is reported pruned; the calls come in the order of the log; a
  prune follows the base that makes the pruned files unnecessary;
* `contract` — it holds in every run that attaches to files that are on disk, in
  which no file reaches the size to rotate at, and no compaction stops among its
  removals;
* `unsynced_first_file` — the first call of a new journal breaks it.
-/
import Fluent31.Drainer
import Mathlib.Data.List.TakeWhile

namespace Fluent31

namespace Journal

/-- The files and lengths a call reports as durable. -/
def Report.durables : Report → List (ℕ × ℕ)
  | .attached files => files
  | .appended file len => [(file, len)]
  | .rotated file len _ => [(file, len)]
  | .pruned _ => []
  | .stopped _ => []

/-- A position of the log is not behind another. -/
def NotBehind (p q : ℕ × ℕ) : Prop := p.1 < q.1 ∨ p.1 = q.1 ∧ p.2 ≤ q.2

namespace LogDir

variable (d : LogDir)

/-- The file's entry and its first bytes are on disk. -/
def Durable (p : ℕ × ℕ) : Prop :=
  ∃ f ∈ d.files, f.id = p.1 ∧ f.linked = true ∧ p.2 ≤ f.synced ∧ p.2 ≤ f.bytes.length

instance (p : ℕ × ℕ) : Decidable (d.Durable p) := inferInstanceAs (Decidable (∃ f ∈ d.files, _))

/-- The bytes of a file below a length. -/
def below (p : ℕ × ℕ) : Option Bytes :=
  (d.files.find? fun f => decide (f.id = p.1)).map fun f => f.bytes.take p.2

end LogDir

/-- Records in front of which a rebuild looks for nothing. -/
def Suffices (ps : List Bytes) : Prop :=
  ∀ (old rest : List Bytes) (r : Replayed), replayed (old ++ (ps ++ rest)) = .ok r →
    replayed (ps ++ rest) = .ok r

/-- **The contract of the observer.** -/
structure Contract (crc : Bytes → Fin (2 ^ 32)) (source : Source) (s : State) : Prop where
  durable : ∀ t ∈ s.told, ∀ p ∈ t.1.durables, t.2.Durable p
  kept : ∀ t ∈ s.told, ∀ p ∈ t.1.durables,
    (∃ a d, (Report.pruned a, d) ∈ s.told ∧ p.1 < a) ∨ s.dir.below p = t.2.below p
  ordered : (s.told.flatMap fun t => t.1.durables).Pairwise NotBehind
  superseded : ∀ before a d after, s.told = before ++ (Report.pruned a, d) :: after →
    (∀ f ∈ d.files, a ≤ f.id) ∧ ∃ t ∈ before, ∃ len, (a, len) ∈ t.1.durables ∧
      ∃ base : Base, t.2.below (a, len) =
        some (frames crc (headerPayload source :: base.payloads)) ∧
        Suffices (headerPayload source :: base.payloads)

/-! ### The runs that keep it -/

/-- The length of framed records. -/
def framesLen (ps : List Bytes) : ℕ := (ps.map fun p => 8 + p.length).sum

def Op.removes : Op → Bool
  | .remove _ => true
  | _ => false

/-- If a file is removed, the plan is carried out to its end. -/
def Outcome.Whole (ops : List Op) : Outcome → Prop
  | .done => True
  | .failed n _ _ => (ops.take n).any Op.removes = true → ops.length ≤ n
  | .killed n _ => (ops.take n).any Op.removes = true → ops.length ≤ n

/-- There are files, and all of them are on disk but for a torn end. -/
def LogDir.OnDisk (crc : Bytes → Fin (2 ^ 32)) (d : LogDir) : Prop :=
  d.files ≠ [] ∧ ∀ f ∈ d.files, f.linked = true ∧
    (f.synced = f.bytes.length ∨ (readRecords crc f.bytes).2 < f.bytes.length)

/-- The call finds everything on disk, keeps below the size to rotate at, and is
not cut among its removals. -/
def Careful (crc : Bytes → Fin (2 ^ 32)) (source : Source) (s : State) : Event → Prop
  | .attach rotateAt base outcome =>
    s.dir.OnDisk crc ∧ framesLen (headerPayload source :: base.payloads) < rotateAt ∧
      ∀ call ∈ (LogWriter.attach crc s.dir source rotateAt base).toOption, outcome.Whole call.1
  | .writeDeltas changes _ =>
    ∀ w ∈ s.writer, w.bytesInFile + framesLen (changes.map encodeDelta) < w.rotateAt
  | .compact base outcome =>
    ∀ w ∈ s.writer, framesLen (headerPayload source :: base.payloads) < w.rotateAt ∧
      outcome.Whole (w.compact crc s.dir base).1
  | .detach _ => True
  | .powerLoss _ _ => True

instance (ops : List Op) (outcome : Outcome) : Decidable (outcome.Whole ops) := by
  cases outcome <;> unfold Outcome.Whole <;> infer_instance

instance (crc : Bytes → Fin (2 ^ 32)) (d : LogDir) : Decidable (d.OnDisk crc) :=
  inferInstanceAs (Decidable (_ ∧ _))

instance (crc : Bytes → Fin (2 ^ 32)) (source : Source) (s : State) (a : Event) :
    Decidable (Careful crc source s a) := by
  cases a <;> unfold Careful <;> infer_instance

/-! ### What is kept -/

section

variable {crc : Bytes → Fin (2 ^ 32)} {source : Source} {d : LogDir} {file : ℕ} {content : Bytes}

/-- The content is on disk and the beginning of the file. -/
def LogDir.Keeps (d : LogDir) (file : ℕ) (content : Bytes) : Prop :=
  ∃ f ∈ d.files, f.id = file ∧ f.linked = true ∧ content.length ≤ f.synced ∧ content <+: f.bytes

/-- An operation that only adds. -/
def Op.quiet : Op → Bool
  | .setLen _ _ => false
  | .remove _ => false
  | .tell _ => false
  | _ => true

namespace LogDir

theorem Keeps.durable (h : d.Keeps file content) : d.Durable (file, content.length) := by
  obtain ⟨f, hf, hid, hlinked, hsynced, hinit⟩ := h
  exact ⟨f, hf, hid, hlinked, hsynced, hinit.length_le⟩

theorem find?_id (ht : d.Tidy crc source) {f : LogFile} (hf : f ∈ d.files) :
    d.files.find? (fun g => decide (g.id = f.id)) = some f := by
  cases hg : d.files.find? fun g => decide (g.id = f.id) with
  | none => exact absurd (List.find?_eq_none.mp hg f hf) (by simp)
  | some g =>
    have hid : g.id = f.id := by simpa using List.find?_some hg
    rw [ht.eq_of_id (List.mem_of_find?_eq_some hg) hf hid]

theorem Keeps.below (h : d.Keeps file content) (ht : d.Tidy crc source) :
    d.below (file, content.length) = some content := by
  obtain ⟨f, hf, rfl, -, -, hinit⟩ := h
  unfold LogDir.below
  rw [find?_id ht hf, Option.map_some, ← List.prefix_iff_eq_take.mp hinit]

/-- A change of a file that keeps its beginning. -/
theorem Keeps.modify (h : d.Keeps file content) (id : ℕ) {g : LogFile → LogFile}
    (hg : ∀ f, content.length ≤ f.synced → content <+: f.bytes →
      (g f).id = f.id ∧ (g f).linked = f.linked ∧ content.length ≤ (g f).synced ∧
      content <+: (g f).bytes) :
    (d.modify id g).Keeps file content := by
  obtain ⟨f, hf, hid, hlinked, hsynced, hinit⟩ := h
  obtain ⟨hgid, hglinked, hgsynced, hgpre⟩ := hg f hsynced hinit
  refine ⟨_, List.mem_map.mpr ⟨f, hf, rfl⟩, ?_⟩
  split
  · exact ⟨hgid.trans hid, hglinked.trans hlinked, hgsynced, hgpre⟩
  · exact ⟨hid, hlinked, hsynced, hinit⟩

theorem Keeps.write (h : d.Keeps file content) (id : ℕ) (data : Bytes) :
    (d.modify id fun f => f.write data).Keeps file content :=
  h.modify id fun _ hsynced hinit => ⟨rfl, rfl, hsynced, hinit.trans (List.prefix_append _ _)⟩

theorem Keeps.apply (h : d.Keeps file content) {op : Op} (hlegal : d.Legal crc source op)
    (hquiet : op.quiet = true) :
    (d.apply op).Keeps file content := by
  cases op with
  | create id =>
    obtain ⟨f, hf, hrest⟩ := h
    refine ⟨f, ?_, hrest⟩
    rw [files_create fun g hg => hlegal.1 g (List.mem_append_right _ hg)]
    exact List.mem_append_left _ hf
  | write id data => exact h.write id data
  | setLen id len => exact absurd hquiet (by simp [Op.quiet])
  | syncFile id =>
    exact h.modify id fun f _ hinit => ⟨rfl, rfl, hinit.length_le, hinit⟩
  | remove id => exact absurd hquiet (by simp [Op.quiet])
  | syncDir =>
    obtain ⟨f, hf, hid, -, hsynced, hinit⟩ := h
    exact ⟨_, List.mem_map.mpr ⟨f, hf, rfl⟩, hid, rfl, hsynced, hinit⟩
  | tell report => exact h

theorem Keeps.part (h : d.Keeps file content) (op : Op) (m : ℕ) :
    (d.part op m).Keeps file content := by
  cases op with
  | write id data => exact h.write id (data.take m)
  | _ => exact h

theorem Keeps.powerLoss (h : d.Keeps file content) (survives : ℕ → Bool) (len : ℕ → ℕ) :
    (d.powerLoss survives len).Keeps file content := by
  obtain ⟨f, hf, hid, hlinked, hsynced, hinit⟩ := h
  have hleft : content <+: (f.bytes ++ f.cutOff).take (max f.synced (len f.id)) :=
    List.prefix_take_iff.mpr ⟨hinit.trans (List.prefix_append _ _), hsynced.trans (le_max_left _ _)⟩
  refine ⟨f.lose (len f.id),
    List.mem_map.mpr ⟨f, List.mem_append_right _ (List.mem_filter.mpr ⟨hf, ?_⟩), rfl⟩, hid,
    rfl, hleft.length_le, hleft⟩
  rw [hlinked, Bool.true_or]

/-- Removals of other files. -/
theorem Keeps.remove (h : d.Keeps file content) {id : ℕ} (hne : id ≠ file) :
    (d.apply (.remove id)).Keeps file content := by
  obtain ⟨f, hf, hid, hrest⟩ := h
  exact ⟨f, List.mem_filter.mpr ⟨hf, decide_eq_true (hid ▸ hne.symm)⟩, hid, hrest⟩

end LogDir

/-! ### What has been told -/

theorem NotBehind.trans {p q r : ℕ × ℕ} (h : NotBehind p q) (h' : NotBehind q r) :
    NotBehind p r := by
  unfold NotBehind at *
  omega

/-- Every position told so far is at or before `q`. -/
def Bounded (told : List (Report × LogDir)) (q : ℕ × ℕ) : Prop :=
  ∀ t ∈ told, ∀ p ∈ t.1.durables, NotBehind p q

/-- The contract, with what was reported still on disk. -/
structure Vouched (crc : Bytes → Fin (2 ^ 32)) (source : Source) (d : LogDir)
    (told : List (Report × LogDir)) :
    Prop where
  durable : ∀ t ∈ told, ∀ p ∈ t.1.durables, t.2.Durable p
  kept : ∀ t ∈ told, ∀ p ∈ t.1.durables, (∃ a d', (Report.pruned a, d') ∈ told ∧ p.1 < a) ∨
    ∃ content, content.length = p.2 ∧ t.2.below p = some content ∧ d.Keeps p.1 content
  ordered : (told.flatMap fun t => t.1.durables).Pairwise NotBehind
  superseded : ∀ before a d' after, told = before ++ (Report.pruned a, d') :: after →
    (∀ f ∈ d'.files, a ≤ f.id) ∧ ∃ t ∈ before, ∃ len, (a, len) ∈ t.1.durables ∧
      ∃ base : Base, t.2.below (a, len) =
        some (frames crc (headerPayload source :: base.payloads)) ∧
        Suffices (headerPayload source :: base.payloads)

variable {told : List (Report × LogDir)} {s : State}

theorem Vouched.stands (h : Vouched crc source s.dir s.told) (ht : s.dir.Tidy crc source) :
    Contract crc source s := by
  refine ⟨h.durable, fun t htold p hp => (h.kept t htold p hp).imp_right ?_, h.ordered,
    h.superseded⟩
  rintro ⟨content, hlen, hbelow, hkeeps⟩
  have := hkeeps.below ht
  rw [hlen] at this
  rw [hbelow]
  exact this

theorem vouched_nil : Vouched crc source d [] :=
  ⟨by simp, by simp, List.Pairwise.nil, fun before a d' after heq => absurd heq (by simp)⟩

theorem Vouched.mono {d' : LogDir} (h : Vouched crc source d told)
    (hkeeps : ∀ file content, d.Keeps file content → d'.Keeps file content) :
    Vouched crc source d' told := by
  refine ⟨h.durable, fun t ht p hp => (h.kept t ht p hp).imp_right ?_, h.ordered, h.superseded⟩
  rintro ⟨content, hlen, hbelow, hkept⟩
  exact ⟨content, hlen, hbelow, hkeeps _ _ hkept⟩

theorem ordered_append {r : Report} (h : (told.flatMap fun t => t.1.durables).Pairwise NotBehind)
    (hr : r.durables.Pairwise NotBehind) (hbound : ∀ p ∈ r.durables, Bounded told p) :
    ((told ++ [(r, d)]).flatMap fun t => t.1.durables).Pairwise NotBehind := by
  rw [List.flatMap_append, List.flatMap_singleton]
  refine List.pairwise_append.mpr ⟨h, hr, fun q hq p hp => ?_⟩
  obtain ⟨t, ht, hq⟩ := List.mem_flatMap.mp hq
  exact hbound p hp t ht q hq

/-- A list that ends in `x`, split at `y`. -/
theorem append_singleton_split {α : Type*} {l before after : List α} {x y : α}
    (h : l ++ [x] = before ++ y :: after) : (l = before ∧ x = y) ∨
      ∃ after', l = before ++ y :: after' := by
  rcases List.eq_nil_or_concat' after with rfl | ⟨after', z, rfl⟩
  · have := List.append_inj' h rfl
    exact .inl ⟨this.1, (List.cons.inj this.2).1⟩
  · rw [← List.cons_append, ← List.append_assoc] at h
    exact .inr ⟨after', (List.append_inj' h rfl).1⟩

/-- A call that reports what is on disk. -/
theorem Vouched.tell (h : Vouched crc source d told) {r : Report} (hr : ∀ a, r ≠ .pruned a)
    (hkeeps : ∀ p ∈ r.durables, ∃ content, content.length = p.2 ∧ d.below p = some content ∧
      d.Keeps p.1 content)
    (hordered : r.durables.Pairwise NotBehind) (hbound : ∀ p ∈ r.durables, Bounded told p) :
    Vouched crc source d (told ++ [(r, d)]) := by
  refine ⟨fun t ht p hp => ?_, fun t ht p hp => ?_, ordered_append h.ordered hordered hbound,
    fun before a d' after heq => ?_⟩
  · rcases List.mem_append.mp ht with ht | ht
    · exact h.durable t ht p hp
    · rw [List.mem_singleton.mp ht] at hp ⊢
      obtain ⟨content, hlen, -, hkept⟩ := hkeeps p hp
      have := hkept.durable
      rwa [hlen] at this
  · rcases List.mem_append.mp ht with ht | ht
    · refine (h.kept t ht p hp).imp_left ?_
      rintro ⟨a, d', hpruned, hlt⟩
      exact ⟨a, d', List.mem_append_left _ hpruned, hlt⟩
    · rw [List.mem_singleton.mp ht] at hp ⊢
      exact .inr (hkeeps p hp)
  · rcases append_singleton_split heq with ⟨-, heq⟩ | ⟨after', rfl⟩
    · exact absurd (congrArg Prod.fst heq) (hr a)
    · exact h.superseded before a d' after' rfl

/-- A call that reports the removal of what a durable base supersedes. -/
theorem Vouched.prune {d' : LogDir} (h : Vouched crc source d told) {a : ℕ}
    (hkeeps : ∀ file content, a ≤ file → d.Keeps file content → d'.Keeps file content)
    (hfiles : ∀ f ∈ d'.files, a ≤ f.id)
    (hbase : ∃ t ∈ told, ∃ len, (a, len) ∈ t.1.durables ∧
      ∃ base : Base, t.2.below (a, len) =
        some (frames crc (headerPayload source :: base.payloads)) ∧
        Suffices (headerPayload source :: base.payloads)) :
    Vouched crc source d' (told ++ [(.pruned a, d')]) := by
  refine ⟨fun t ht p hp => ?_, fun t ht p hp => ?_, ?_, fun before a' d'' after heq => ?_⟩
  · rcases List.mem_append.mp ht with ht | ht
    · exact h.durable t ht p hp
    · rw [List.mem_singleton.mp ht] at hp
      exact absurd hp List.not_mem_nil
  · rcases List.mem_append.mp ht with ht | ht
    · rcases Nat.lt_or_ge p.1 a with hlt | hge
      · exact .inl ⟨a, d', List.mem_append_right _ (List.mem_singleton_self _), hlt⟩
      · rcases h.kept t ht p hp with ⟨b, e, hpruned, hlt⟩ | ⟨content, hlen, hbelow, hkept⟩
        · exact .inl ⟨b, e, List.mem_append_left _ hpruned, hlt⟩
        · exact .inr ⟨content, hlen, hbelow, hkeeps _ _ hge hkept⟩
    · rw [List.mem_singleton.mp ht] at hp
      exact absurd hp List.not_mem_nil
  · exact ordered_append h.ordered List.Pairwise.nil (by simp [Report.durables])
  · rcases append_singleton_split heq with ⟨rfl, hlast⟩ | ⟨after', rfl⟩
    · obtain ⟨hreport, rfl⟩ := Prod.mk.inj hlast
      obtain rfl := Report.pruned.inj hreport
      exact ⟨hfiles, hbase⟩
    · exact h.superseded before a' d'' after' rfl

/-! ### Along a plan -/

/-- The contract holds wherever the plan is cut, and at its end. -/
def Vouches (crc : Bytes → Fin (2 ^ 32)) (source : Source) :
    LogDir → List (Report × LogDir) → List Op → Prop
  | d, told, [] => Vouched crc source d told
  | d, told, op :: ops =>
    (∀ m, Vouched crc source (d.part op m) told) ∧ Vouches crc source (d.apply op)
      (told ++ op.told d) ops

theorem tells_append (d : LogDir) (ops ops' : List Op) :
    tells d (ops ++ ops') = tells d ops ++ tells (d.applyAll ops) ops' := by
  induction ops generalizing d with
  | nil => rfl
  | cons op ops ih =>
    rw [List.cons_append, tells, ih, tells, List.append_assoc, LogDir.applyAll_cons]

theorem tells_quiet {ops : List Op} (h : ∀ op ∈ ops, op.quiet = true) (d : LogDir) :
    tells d ops = [] := by
  induction ops generalizing d with
  | nil => rfl
  | cons op ops ih =>
    rw [tells, ih (fun op' hop' => h op' (List.mem_cons_of_mem _ hop')), List.append_nil]
    cases op with
    | tell report => exact absurd (h _ List.mem_cons_self) (by simp [Op.quiet])
    | _ => rfl

theorem Vouches.cutAt {ops : List Op} (h : Vouches crc source d told ops) (n m : ℕ) :
    Vouched crc source (d.cutAt ops n m) (told ++ tells d (ops.take n)) := by
  induction ops generalizing d told n with
  | nil =>
    rw [LogDir.cutAt, List.take_nil, tells, List.append_nil]
    exact h
  | cons op ops ih =>
    cases n with
    | zero =>
      rw [List.take_zero, tells, List.append_nil]
      exact h.1 m
    | succ n =>
      have := ih h.2 n
      rwa [List.append_assoc] at this

theorem Vouches.done {ops : List Op} (h : Vouches crc source d told ops) :
    Vouched crc source (d.applyAll ops) (told ++ tells d ops) := by
  induction ops generalizing d told with
  | nil =>
    rw [tells, List.append_nil]
    exact h
  | cons op ops ih =>
    have := ih h.2
    rwa [List.append_assoc] at this

theorem Vouches.append {ops ops' : List Op} (h : Vouches crc source d told ops)
    (h' : Vouches crc source (d.applyAll ops) (told ++ tells d ops) ops') :
    Vouches crc source d told (ops ++ ops') := by
  induction ops generalizing d told with
  | nil =>
    rw [tells, List.append_nil] at h'
    exact h'
  | cons op ops ih =>
    refine ⟨h.1, ih h.2 ?_⟩
    rwa [List.append_assoc]

theorem Vouched.quiet {ops : List Op} (h : Vouched crc source d told)
    (hplan : d.Plan crc source ops)
    (hquiet : ∀ op ∈ ops, op.quiet = true) : Vouches crc source d told ops := by
  induction ops generalizing d with
  | nil => exact h
  | cons op ops ih =>
    have hop := hquiet op List.mem_cons_self
    have htold : op.told d = [] := by
      cases op with
      | tell report => exact absurd hop (by simp [Op.quiet])
      | _ => rfl
    refine ⟨fun m => h.mono fun file content hk => hk.part op m, ?_⟩
    rw [htold, List.append_nil]
    exact ih (h.mono fun file content hk => hk.apply hplan.1 hop) hplan.2
      fun op' hop' => hquiet op' (List.mem_cons_of_mem _ hop')

theorem Vouched.telling {r : Report} (h : Vouched crc source d told)
    (h' : Vouched crc source d (told ++ [(r, d)])) :
    Vouches crc source d told [.tell r] :=
  ⟨fun _ => h, h'⟩

/-- Before anything is told. -/
theorem vouches_silent {ops : List Op} (h : ∀ op ∈ ops, ∀ r, op ≠ .tell r) :
    Vouches crc source d [] ops := by
  induction ops generalizing d with
  | nil => exact vouched_nil
  | cons op ops ih =>
    have htold : op.told d = [] := by
      cases op with
      | tell report => exact absurd rfl (h _ List.mem_cons_self report)
      | _ => rfl
    refine ⟨fun _ => vouched_nil, ?_⟩
    rw [htold]
    exact ih fun op' hop' => h op' (List.mem_cons_of_mem _ hop')

/-! ### Calls that do not rotate on their own -/

variable {w : LogWriter} {older : List LogFile} {ps : List Bytes}

def LogDir.Linked (d : LogDir) : Prop := ∀ f ∈ d.files, f.linked = true

theorem LogDir.Plan.left {ops ops' : List Op} (h : d.Plan crc source (ops ++ ops')) :
    d.Plan crc source ops := by
  induction ops generalizing d with
  | nil => trivial
  | cons op ops ih => exact ⟨h.1, ih h.2⟩

/-- Appends within a file. -/
structure Appended (crc : Bytes → Fin (2 ^ 32)) (w : LogWriter) (ps : List Bytes)
    (call : List Op × LogWriter) :
    Prop where
  fileId : call.2.fileId = w.fileId
  rotateAt : call.2.rotateAt = w.rotateAt
  bytesInFile : call.2.bytesInFile = w.bytesInFile + framesLen ps
  writes : ∀ op ∈ call.1, ∃ data, op = .write w.fileId data

theorem appended_each (w : LogWriter) (ps : List Bytes) :
    Appended crc w ps (LogWriter.each (fun w p => w.appendRaw crc p) w ps) := by
  induction ps generalizing w with
  | nil => exact ⟨rfl, rfl, rfl, by simp [LogWriter.each]⟩
  | cons p ps ih =>
    have hrest := ih (w.appendRaw crc p).2
    refine ⟨hrest.fileId, hrest.rotateAt, ?_, fun op hop => ?_⟩
    · refine hrest.bytesInFile.trans ?_
      show w.bytesInFile + (frame crc p).length + _ = _
      rw [length_frame, framesLen, framesLen, List.map_cons, List.sum_cons]
      omega
    · rcases List.mem_append.mp hop with hop | hop
      · exact ⟨_, List.mem_singleton.mp hop⟩
      · exact hrest.writes op hop

theorem Appended.quiet {call : List Op × LogWriter} (h : Appended crc w ps call) :
    ∀ op ∈ call.1, op.quiet = true := by
  intro op hop
  obtain ⟨data, rfl⟩ := h.writes op hop
  rfl

theorem LogDir.Linked.modify (h : d.Linked) (id : ℕ) {g : LogFile → LogFile}
    (hg : ∀ f, (g f).linked = f.linked) :
    (d.modify id g).Linked := by
  intro f hf
  obtain ⟨f₀, hf₀, rfl⟩ := List.mem_map.mp hf
  split
  · exact (hg f₀).trans (h f₀ hf₀)
  · exact h f₀ hf₀

theorem Appended.linked {call : List Op × LogWriter} (h : Appended crc w ps call) (hd : d.Linked) :
    (d.applyAll call.1).Linked := by
  obtain ⟨ops, w'⟩ := call
  have hwrites := h.writes
  clear h
  induction ops generalizing d with
  | nil => exact hd
  | cons op ops ih =>
    obtain ⟨data, rfl⟩ := hwrites op List.mem_cons_self
    exact ih (hd.modify w.fileId fun f => rfl) fun op' hop' =>
      hwrites op' (List.mem_cons_of_mem _ hop')

theorem Active.each_appendRaw (h : Active crc d w older ps) (qs : List Bytes) :
    Active crc (d.applyAll (LogWriter.each (fun w p => w.appendRaw crc p) w qs).1)
      (LogWriter.each (fun w p => w.appendRaw crc p) w qs).2 older (ps ++ qs) := by
  induction qs generalizing d w ps with
  | nil =>
    rw [List.append_nil]
    exact h
  | cons q qs ih =>
    have := ih (h.appendRaw q)
    rw [List.append_assoc] at this
    rw [LogWriter.each, LogDir.applyAll_append]
    exact this

/-- Once synced, the newest file is on disk if its entry is. -/
theorem Active.keeps (h : Active crc d w older ps) (hlinked : d.Linked) :
    (d.apply w.sync).Keeps w.fileId (frames crc ps) := by
  obtain ⟨synced, cutOff, linked, hfiles⟩ := h.files
  have hlink : linked = true :=
    hlinked _ (by rw [hfiles]; exact List.mem_append_right _ (List.mem_singleton_self _))
  refine ⟨⟨w.fileId, frames crc ps, (frames crc ps).length, [], linked⟩, ?_, rfl, hlink, le_rfl,
    List.prefix_rfl⟩
  rw [show (d.apply w.sync).files = _ from files_modify_last hfiles h.below LogFile.sync]
  exact List.mem_append_right _ (List.mem_singleton_self _)

/-- The report of the synced length of the newest file. -/
theorem Vouched.appended (h : Vouched crc source d told) (ht : d.Tidy crc source) {file len : ℕ}
    {content : Bytes} (hlen : content.length = len) (hkeeps : d.Keeps file content)
    (hbound : Bounded told (file, len)) :
    Vouched crc source d (told ++ [(.appended file len, d)]) := by
  have hbelow := hkeeps.below ht
  rw [hlen] at hbelow
  refine h.tell (by simp) (fun p hp => ?_) (List.pairwise_singleton ..) fun p hp => ?_
  · rw [List.mem_singleton.mp hp]
    exact ⟨content, hlen, hbelow, hkeeps⟩
  · rw [List.mem_singleton.mp hp]
    exact hbound

theorem Bounded.tell {q q' : ℕ × ℕ} {r : Report} (h : Bounded told q) (hle : NotBehind q q')
    (hr : ∀ p ∈ r.durables, NotBehind p q') : Bounded (told ++ [(r, d)]) q' := by
  intro t ht p hp
  rcases List.mem_append.mp ht with ht | ht
  · exact (h t ht p hp).trans hle
  · rw [List.mem_singleton.mp ht] at hp
    exact hr p hp

theorem LogDir.Keeps.applyAll {file : ℕ} {content : Bytes} {ops : List Op}
    (h : d.Keeps file content)
    (hplan : d.Plan crc source ops) (hquiet : ∀ op ∈ ops, op.quiet = true) :
    (d.applyAll ops).Keeps file content := by
  induction ops generalizing d with
  | nil => exact h
  | cons op ops ih =>
    exact ih (h.apply hplan.1 (hquiet op List.mem_cons_self)) hplan.2
      fun op' hop' => hquiet op' (List.mem_cons_of_mem _ hop')

/-- What a call vouches for, and where it leaves the drainer. -/
structure Leaves (crc : Bytes → Fin (2 ^ 32)) (source : Source) (d : LogDir)
    (told : List (Report × LogDir)) (call : List Op × LogWriter) : Prop where
  vouches : Vouches crc source d told call.1
  linked : (d.applyAll call.1).Linked
  bounded : Bounded (told ++ tells d call.1) (call.2.fileId, call.2.bytesInFile)

theorem leaves_rotate (h : Active crc d w older ps) (ht : d.Tidy crc source)
    (hsource : w.source = source)
    (hopens : Opens source ps) (hlinked : d.Linked) (hv : Vouched crc source d told)
    (hbound : Bounded told (w.fileId, w.bytesInFile)) :
    Vouches crc source d told (w.rotate crc).1 ∧
      Bounded (told ++ tells d (w.rotate crc).1)
        ((w.rotate crc).2.fileId, (w.rotate crc).2.bytesInFile) := by
  subst hsource
  obtain ⟨quietOps, hquietOps⟩ : ∃ quietOps : List Op, quietOps =
      .syncFile w.fileId :: .create (w.fileId + 1) ::
        .write (w.fileId + 1) (frame crc (headerPayload w.source)) :: [.syncFile (w.fileId + 1)] :=
          ⟨_, rfl⟩
  have hops : (w.rotate crc).1 = quietOps ++
      [.tell (.rotated w.fileId w.bytesInFile (w.fileId + 1))] := by
    rw [hquietOps]
    rfl
  have hplan := h.plan_rotate ht hopens
  rw [hops] at hplan ⊢
  -- only the last operation is a report
  have hquiet : ∀ op ∈ quietOps, op.quiet = true := by
    rw [hquietOps]
    simp [Op.quiet]
  -- the old file is synced first, so its frames stay
  have hkeeps : (d.applyAll quietOps).Keeps w.fileId (frames crc ps) := by
    have hfirst := h.keeps hlinked
    have hrest := hplan.left
    rw [hquietOps] at hrest hquiet ⊢
    exact hfirst.applyAll hrest.2 fun op hop => hquiet op (List.mem_cons_of_mem _ hop)
  have htidy := ht.applyAll hplan.left
  have hrotated : Vouched crc w.source (d.applyAll quietOps)
      (told ++ [(.rotated w.fileId w.bytesInFile (w.fileId + 1), d.applyAll quietOps)]) := by
    have hbelow := hkeeps.below htidy
    have hvq := (hv.quiet hplan.left hquiet).done
    rw [tells_quiet hquiet, List.append_nil] at hvq
    refine hvq.tell (by simp) (fun p hp => ?_) (List.pairwise_singleton ..) fun p hp => ?_
    · rw [List.mem_singleton.mp hp, h.length]
      exact ⟨_, rfl, hbelow, hkeeps⟩
    · rw [List.mem_singleton.mp hp]
      exact hbound
  refine ⟨(hv.quiet hplan.left hquiet).append ?_, ?_⟩
  · rw [tells_quiet hquiet, List.append_nil]
    have hvq := (hv.quiet hplan.left hquiet).done
    rw [tells_quiet hquiet, List.append_nil] at hvq
    exact hvq.telling hrotated
  · rw [tells_append, tells_quiet hquiet, List.nil_append]
    refine hbound.tell (.inl (Nat.lt_succ_self _)) fun p hp => ?_
    rw [List.mem_singleton.mp hp]
    exact .inl (Nat.lt_succ_self _)

theorem linked_syncDir (d : LogDir) : (d.apply .syncDir).Linked := by
  intro f hf
  obtain ⟨f₀, -, rfl⟩ := List.mem_map.mp hf
  rfl

/-- Synced with its directory, the newest file is on disk. -/
theorem Active.keeps_syncDir (h : Active crc d w older ps) :
    ((d.apply w.sync).apply .syncDir).Keeps w.fileId (frames crc ps) := by
  obtain ⟨linked, hfiles⟩ := h.sync
  refine ⟨⟨w.fileId, frames crc ps, (frames crc ps).length, [], true⟩, ?_, rfl, rfl, le_rfl,
    List.prefix_rfl⟩
  show _ ∈ (d.apply w.sync).files.map _
  rw [hfiles]
  exact List.mem_map.mpr ⟨_, List.mem_append_right _ (List.mem_singleton_self _), rfl⟩

theorem maybeRotate_of_lt (h : w.bytesInFile < w.rotateAt) : w.maybeRotate crc = ([], w) :=
  if_neg (not_le.mpr h)

theorem suffices_base (base : Base) : Suffices (headerPayload source :: base.payloads) :=
  fun _ _ _ h => replayed_behind_header h

/-- A base that supersedes everything below `a` has been reported. -/
def Superseded (crc : Bytes → Fin (2 ^ 32)) (source : Source) (told : List (Report × LogDir))
    (a : ℕ) : Prop :=
  ∃ t ∈ told, ∃ len, (a, len) ∈ t.1.durables ∧
    ∃ base : Base, t.2.below (a, len) = some (frames crc (headerPayload source :: base.payloads)) ∧
      Suffices (headerPayload source :: base.payloads)

/-- A base below the size to rotate at: everything it reports is on disk. -/
theorem leaves_rebase (h : Active crc d w older ps) (ht : d.Tidy crc source)
    (hsource : w.source = source)
    (hopens : Opens source ps) (hlinked : d.Linked) (hv : Vouched crc source d told)
    (hbound : Bounded told (w.fileId, w.bytesInFile)) {base : Base}
    (hsize : framesLen (headerPayload source :: base.payloads) < w.rotateAt) :
    Leaves crc source d told (w.rebase crc base) ∧
      Superseded crc source (told ++ tells d (w.rebase crc base).1) (w.fileId + 1) := by
  obtain ⟨hrotate, hbound'⟩ := leaves_rotate h ht hsource hopens hlinked hv hbound
  have hcarries := h.carries_rotate ht hsource hopens
  obtain ⟨linked, hactive⟩ := h.rotate
  obtain ⟨wrote, hwrote⟩ : ∃ wrote, LogWriter.each (fun w p => w.appendRaw crc p)
      (w.rotate crc).2 base.payloads =
    wrote := ⟨_, rfl⟩
  have hcall : Appended crc (w.rotate crc).2 base.payloads wrote := hwrote ▸ appended_each _ _
  have hplan : Carries crc source (d.applyAll (w.rotate crc).1) wrote :=
    hwrote ▸ hcarries.ready.writePayloads base
  have hwritten := hactive.each_appendRaw base.payloads
  rw [hsource, hwrote] at hwritten
  -- the base fits the file, which is not rotated again
  have hrebase : w.rebase crc base = ((w.rotate crc).1 ++
      ((wrote.1 ++ [wrote.2.sync, .syncDir]) ++ [wrote.2.reportDurable]), wrote.2) := by
    have hsmall : wrote.2.bytesInFile < wrote.2.rotateAt := by
      rw [hcall.bytesInFile, hcall.rotateAt]
      show 0 + (frame crc (headerPayload w.source)).length + framesLen base.payloads < w.rotateAt
      rw [framesLen, List.map_cons, List.sum_cons] at hsize
      rw [length_frame, hsource, framesLen]
      omega
    simp only [LogWriter.rebase, LogWriter.writeBaseSnapshot, hwrote, maybeRotate_of_lt hsmall,
      List.append_assoc]
    rfl
  have hquiet : ∀ op ∈ wrote.1 ++ [wrote.2.sync, .syncDir], op.quiet = true := by
    intro op hop
    rcases List.mem_append.mp hop with hop | hop
    · exact hcall.quiet op hop
    · rcases List.mem_cons.mp hop with rfl | hop
      · rfl
      · rw [List.mem_singleton.mp hop]
        rfl
  have hlegal : (d.applyAll (w.rotate crc).1).Plan crc source
      (wrote.1 ++ [wrote.2.sync, .syncDir]) :=
    hplan.plan.append ⟨trivial, trivial, trivial⟩
  obtain ⟨e, he⟩ : ∃ e, (d.applyAll (w.rotate crc).1).applyAll
      (wrote.1 ++ [wrote.2.sync, .syncDir]) = e := ⟨_, rfl⟩
  have hsplit : e = (((d.applyAll (w.rotate crc).1).applyAll wrote.1).apply wrote.2.sync).apply
      .syncDir := by
    rw [← he, LogDir.applyAll_append]
    rfl
  have hkeeps : e.Keeps wrote.2.fileId (frames crc (headerPayload source :: base.payloads)) :=
    hsplit ▸ hwritten.keeps_syncDir
  have htidy : e.Tidy crc source := he ▸ (hcarries.ready.tidy.applyAll hlegal)
  have hbase := hrotate.done.quiet hlegal hquiet
  have hdone := hbase.done
  rw [tells_quiet hquiet, List.append_nil, he] at hdone
  have hfile : wrote.2.fileId = w.fileId + 1 := hcall.fileId
  have hlen : (frames crc (headerPayload source :: base.payloads)).length = wrote.2.bytesInFile :=
    hwritten.length.symm
  have hgrown : NotBehind ((w.rotate crc).2.fileId, (w.rotate crc).2.bytesInFile)
      (wrote.2.fileId, wrote.2.bytesInFile) :=
    .inr ⟨hcall.fileId.symm, by
      show (w.rotate crc).2.bytesInFile ≤ wrote.2.bytesInFile
      rw [hcall.bytesInFile]
      exact Nat.le_add_right _ _⟩
  have htold := hdone.appended htidy hlen hkeeps fun t ht p hp => (hbound' t ht p hp).trans hgrown
  have htells : tells d (w.rebase crc base).1 =
      tells d (w.rotate crc).1 ++ [(.appended wrote.2.fileId wrote.2.bytesInFile, e)] := by
    rw [hrebase, tells_append, tells_append, tells_quiet hquiet, he]
    rfl
  refine ⟨⟨?_, ?_, ?_⟩, ?_⟩
  · rw [hrebase]
    refine hrotate.append (hbase.append ?_)
    rw [tells_quiet hquiet, List.append_nil, he]
    exact hdone.telling htold
  · rw [hrebase]
    show (d.applyAll ((w.rotate crc).1 ++ (_ ++ [wrote.2.reportDurable]))).Linked
    rw [LogDir.applyAll_append, LogDir.applyAll_append, he, hsplit]
    exact linked_syncDir _
  · rw [htells, ← List.append_assoc, hrebase]
    refine hbound'.tell hgrown fun p hp => ?_
    rw [List.mem_singleton.mp hp]
    exact .inr ⟨rfl, le_rfl⟩
  · rw [htells]
    refine ⟨(.appended wrote.2.fileId wrote.2.bytesInFile,
      e), by simp, wrote.2.bytesInFile, ?_, base, ?_, suffices_base base⟩
    · rw [← hfile]
      exact List.mem_singleton_self _
    · rw [← hfile, ← hlen]
      exact hkeeps.below htidy

/-! ### Pruning -/

theorem files_remove (ids : List ℕ) :
    (d.applyAll (ids.map Op.remove)).files = d.files.filter fun f => decide (f.id ∉ ids) := by
  induction ids generalizing d with
  | nil => simp
  | cons id ids ih =>
    rw [List.map_cons, LogDir.applyAll_cons, ih]
    show (d.files.filter fun f => decide (f.id ≠ id)).filter _ = _
    rw [List.filter_filter]
    refine List.filter_congr fun f _ => ?_
    simp only [List.mem_cons, not_or, ne_eq, Bool.decide_and, Bool.and_comm]

/-- In an ascending list the files below a bound come first. -/
theorem mem_takeWhile_below {fs : List LogFile} (hasc : fs.Pairwise fun f g => f.id < g.id) {a : ℕ}
    {f : LogFile} (hf : f ∈ fs) (hlt : f.id < a) : f ∈ fs.takeWhile fun f => decide (f.id < a) := by
  induction fs with
  | nil => exact hf
  | cons g fs ih =>
    obtain ⟨hfirst, hrest⟩ := List.pairwise_cons.mp hasc
    rcases List.mem_cons.mp hf with rfl | hf
    · rw [List.takeWhile_cons_of_pos (by simpa using hlt)]
      exact List.mem_cons_self
    · rw [List.takeWhile_cons_of_pos (by simpa using (hfirst f hf).trans hlt)]
      exact List.mem_cons_of_mem _ (ih hrest hf)

/-- The files removed. -/
def LogDir.idsBelow (d : LogDir) (a : ℕ) : List ℕ :=
  (d.files.takeWhile fun f => decide (f.id < a)).map LogFile.id

theorem pruneFilesBelow_eq (d : LogDir) (a : ℕ) : LogWriter.pruneFilesBelow d a =
    (d.idsBelow a).map Op.remove ++ if d.idsBelow a = [] then [] else [.syncDir] := by
  have hmap : (d.files.takeWhile fun f => decide (f.id < a)).map (fun f => Op.remove f.id) =
      (d.idsBelow a).map Op.remove := by
    rw [LogDir.idsBelow, List.map_map]
    rfl
  simp only [LogWriter.pruneFilesBelow, hmap, List.map_eq_nil_iff]

theorem lt_of_mem_idsBelow {a id : ℕ} (h : id ∈ d.idsBelow a) : id < a := by
  obtain ⟨f, hf, rfl⟩ := List.mem_map.mp h
  simpa using List.mem_takeWhile_imp hf

theorem tells_removals (ids : List ℕ) (d : LogDir) : tells d (ids.map Op.remove) = [] := by
  induction ids generalizing d with
  | nil => rfl
  | cons id ids ih => exact ih _

theorem tells_pruneFilesBelow (d : LogDir) (a : ℕ) :
    tells d (LogWriter.pruneFilesBelow d a) = [] := by
  rw [pruneFilesBelow_eq, tells_append, tells_removals, List.nil_append]
  split <;> rfl

theorem LogDir.Keeps.removals {ids : List ℕ} (h : d.Keeps file content)
    (hids : ∀ id ∈ ids, id ≠ file) :
    (d.applyAll (ids.map Op.remove)).Keeps file content := by
  induction ids generalizing d with
  | nil => exact h
  | cons id ids ih =>
    exact ih (h.remove (hids id List.mem_cons_self)) fun id' hid' =>
      hids id' (List.mem_cons_of_mem _ hid')

theorem LogDir.Keeps.pruneFilesBelow (h : d.Keeps file content) {a : ℕ} (hle : a ≤ file) :
    (d.applyAll (LogWriter.pruneFilesBelow d a)).Keeps file content := by
  have hremoved : (d.applyAll ((d.idsBelow a).map Op.remove)).Keeps file content :=
    h.removals fun id hid => ((lt_of_mem_idsBelow hid).trans_le hle).ne
  rw [pruneFilesBelow_eq, LogDir.applyAll_append]
  split
  · exact hremoved
  · obtain ⟨f, hf, hid, -, hsynced, hinit⟩ := hremoved
    exact ⟨_, List.mem_map.mpr ⟨f, hf, rfl⟩, hid, rfl, hsynced, hinit⟩

theorem le_of_mem_pruned (ht : d.Tidy crc source) {a : ℕ} :
    ∀ f ∈ (d.applyAll (LogWriter.pruneFilesBelow d a)).files, a ≤ f.id := by
  have hremoved : ∀ f ∈ (d.applyAll ((d.idsBelow a).map Op.remove)).files, a ≤ f.id := by
    rw [files_remove]
    intro f hf
    obtain ⟨hmem, hnot⟩ := List.mem_filter.mp hf
    by_contra hlt
    exact of_decide_eq_true hnot (List.mem_map.mpr
      ⟨f, mem_takeWhile_below (List.pairwise_append.mp ht.asc).2.1 hmem (not_le.mp hlt), rfl⟩)
  rw [pruneFilesBelow_eq, LogDir.applyAll_append]
  split
  · exact hremoved
  · intro f hf
    obtain ⟨f₀, hf₀, rfl⟩ := List.mem_map.mp hf
    exact hremoved f₀ hf₀

theorem LogDir.Linked.pruneFilesBelow (h : d.Linked) (a : ℕ) :
    (d.applyAll (LogWriter.pruneFilesBelow d a)).Linked := by
  rw [pruneFilesBelow_eq, LogDir.applyAll_append]
  split
  · intro f hf
    rw [LogDir.applyAll_nil, files_remove] at hf
    exact h f (List.mem_filter.mp hf).1
  · exact linked_syncDir _

/-! ### Calls that end early -/

theorem Vouched.stopped (h : Vouched crc source d told) (error : Option String) :
    Vouched crc source d (told ++ [(.stopped error, d)]) :=
  h.tell (by simp) (by simp [Report.durables]) List.Pairwise.nil (by simp [Report.durables])

theorem carry_vouched {ops : List Op} {outcome : Outcome} (w : Option LogWriter) (noisy : Bool)
    (hdone : outcome = .done → Vouched crc source (s.dir.applyAll ops) (s.told ++ tells s.dir ops))
    (hcut : ∀ n m, (∃ error, outcome = .failed n m error) ∨ outcome = .killed n m →
      Vouched crc source (s.dir.cutAt ops n m) (s.told ++ tells s.dir (ops.take n))) :
    Vouched crc source (s.carry ops w noisy outcome).dir (s.carry ops w noisy outcome).told := by
  cases outcome with
  | done => exact hdone rfl
  | failed n m error =>
    have hv := hcut n m (.inl ⟨error, rfl⟩)
    cases noisy with
    | true => exact hv.stopped (some error)
    | false =>
      show Vouched crc source _ (s.told ++ tells s.dir (ops.take n) ++ [])
      rw [List.append_nil]
      exact hv
  | killed n m => exact hcut n m (.inr rfl)

theorem Vouches.carry {ops : List Op} (h : Vouches crc source s.dir s.told ops)
    (w : Option LogWriter) (noisy : Bool) (outcome : Outcome) :
    Vouched crc source (s.carry ops w noisy outcome).dir (s.carry ops w noisy outcome).told :=
  carry_vouched w noisy (fun _ => h.done) fun n m _ => h.cutAt n m

/-- A cut before operations that write nothing. -/
theorem cutAt_append {ops ops' : List Op} (h : ∀ op ∈ ops', ∀ d : LogDir, ∀ m, d.part op m = d)
    (d : LogDir)
    {n : ℕ} (hn : n ≤ ops.length) (m : ℕ) : d.cutAt (ops ++ ops') n m = d.cutAt ops n m := by
  induction ops generalizing d n with
  | nil =>
    obtain rfl := Nat.le_zero.mp hn
    cases ops' with
    | nil => rfl
    | cons op ops' =>
      rw [List.nil_append, LogDir.cutAt, LogDir.cutAt]
      exact h op List.mem_cons_self d m
  | cons op ops ih =>
    cases n with
    | zero => rfl
    | succ n => exact ih (d.apply op) (Nat.le_of_succ_le_succ hn)

theorem cutAt_of_length_le {ops : List Op} {n : ℕ} (hn : ops.length ≤ n) (d : LogDir) (m : ℕ) :
    d.cutAt ops n m = d.applyAll ops := by
  induction ops generalizing d n with
  | nil => rw [LogDir.cutAt, LogDir.applyAll_nil]
  | cons op ops ih =>
    obtain ⟨n, rfl⟩ :=
      Nat.exists_eq_succ_of_ne_zero (Nat.ne_of_gt (Nat.lt_of_lt_of_le (Nat.succ_pos _) hn))
    exact ih (Nat.le_of_succ_le_succ hn) (d.apply op)

/-- A plan that ends in a pruning, and is carried out to its end once it has
removed a file. -/
theorem carry_prune {ops : List Op} {a : ℕ} {outcome : Outcome}
    (hv : Vouches crc source s.dir s.told ops) (ht : (s.dir.applyAll ops).Tidy crc source)
    (hbase : Superseded crc source (s.told ++ tells s.dir ops) a) (w : Option LogWriter)
    (noisy : Bool)
    (hwhole : outcome.Whole
      (ops ++ (LogWriter.pruneFilesBelow (s.dir.applyAll ops) a ++ [.tell (.pruned a)]))) :
    Vouched crc source
      (s.carry (ops ++ (LogWriter.pruneFilesBelow (s.dir.applyAll ops) a ++ [.tell (.pruned a)])) w
        noisy outcome).dir
      (s.carry (ops ++ (LogWriter.pruneFilesBelow (s.dir.applyAll ops) a ++ [.tell (.pruned a)])) w
        noisy outcome).told := by
  obtain ⟨e, he⟩ : ∃ e, s.dir.applyAll ops = e := ⟨_, rfl⟩
  rw [he] at ht hwhole ⊢
  obtain ⟨pruning, hpruning⟩ : ∃ pruning, LogWriter.pruneFilesBelow e a ++ [.tell (.pruned a)] =
      pruning := ⟨_, rfl⟩
  have hend : Vouched crc source (s.dir.applyAll (ops ++ pruning))
      (s.told ++ tells s.dir (ops ++ pruning)) := by
    have hdir : s.dir.applyAll (ops ++ pruning) = e.applyAll (LogWriter.pruneFilesBelow e a) := by
      rw [LogDir.applyAll_append, he, ← hpruning, LogDir.applyAll_append]
      rfl
    have htells : tells s.dir (ops ++ pruning) =
        tells s.dir ops ++ [(.pruned a, e.applyAll (LogWriter.pruneFilesBelow e a))] := by
      rw [tells_append, he, ← hpruning, tells_append, tells_pruneFilesBelow]
      rfl
    have hdone := hv.done
    rw [he] at hdone
    rw [hdir, htells, ← List.append_assoc]
    exact hdone.prune (fun file content hle hk => hk.pruneFilesBelow hle)
      (le_of_mem_pruned ht) hbase
  rw [hpruning] at hwhole ⊢
  have hparts : ∀ op ∈ pruning, ∀ d : LogDir, ∀ m, d.part op m = d := by
    rw [← hpruning, pruneFilesBelow_eq]
    intro op hop d m
    simp only [List.mem_append, List.mem_map, List.mem_singleton] at hop
    rcases hop with (⟨id, -, rfl⟩ | hop) | rfl
    · rfl
    · split at hop
      · exact absurd hop List.not_mem_nil
      · rw [List.mem_singleton.mp hop]
        rfl
    · rfl
  -- a cut is at or before the first removal, or there is nothing to remove
  have hlate : ∀ n, ops.length < n → ((ops ++ pruning).take n).any Op.removes = true ∨
      (ops ++ pruning).length ≤ n := by
    intro n hn
    obtain ⟨k, rfl⟩ := Nat.exists_eq_add_of_lt hn
    rw [show ops.length + k + 1 = ops.length +
      (k + 1) by omega, List.take_length_add_append, List.any_append]
    cases hids : e.idsBelow a with
    | nil =>
      refine .inr ?_
      rw [← hpruning, pruneFilesBelow_eq, hids]
      simp
    | cons id ids =>
      refine .inl ?_
      rw [← hpruning, pruneFilesBelow_eq, hids]
      simp [Op.removes]
  have hcut : ∀ n m,
      (((ops ++ pruning).take n).any Op.removes = true → (ops ++ pruning).length ≤ n) →
      Vouched crc source (s.dir.cutAt (ops ++ pruning) n m)
        (s.told ++ tells s.dir ((ops ++ pruning).take n)) := by
    intro n m hn
    rcases Nat.lt_or_ge ops.length n with hlt | hle
    · have hlen : (ops ++ pruning).length ≤ n := (hlate n hlt).elim hn id
      rw [cutAt_of_length_le hlen, List.take_of_length_le hlen]
      exact hend
    · rw [cutAt_append hparts s.dir hle, List.take_append_of_le_length hle]
      exact hv.cutAt n m
  refine carry_vouched w noisy (fun _ => hend) fun n m houtcome => hcut n m ?_
  rcases houtcome with ⟨error, rfl⟩ | rfl
  · exact hwhole
  · exact hwhole

/-! ### The calls -/

/-- Appends that stay below the size to rotate at. -/
theorem each_append_eq (h : w.bytesInFile + framesLen ps < w.rotateAt) :
    LogWriter.each (fun w p => w.append crc p) w ps = LogWriter.each
      (fun w p => w.appendRaw crc p) w ps := by
  induction ps generalizing w with
  | nil => rfl
  | cons p ps ih =>
    rw [framesLen, List.map_cons, List.sum_cons] at h
    have hbytes : (w.appendRaw crc p).2.bytesInFile = w.bytesInFile + (8 + p.length) :=
      congrArg (w.bytesInFile + ·) (length_frame p)
    have hsmall : (w.appendRaw crc p).2.bytesInFile < (w.appendRaw crc p).2.rotateAt := by
      rw [hbytes]
      show _ < w.rotateAt
      omega
    have hfirst : w.append crc p = w.appendRaw crc p := by
      unfold LogWriter.append
      simp only [maybeRotate_of_lt hsmall, List.append_nil]
    have hrest : (w.appendRaw crc p).2.bytesInFile + framesLen ps <
        (w.appendRaw crc p).2.rotateAt := by
      rw [hbytes, framesLen]
      show _ < w.rotateAt
      omega
    simp only [LogWriter.each, hfirst, ih hrest]

theorem leaves_report (h : Active crc d w older ps) (ht : d.Tidy crc source) (hlinked : d.Linked)
    (hv : Vouched crc source d told) (hbound : Bounded told (w.fileId, w.bytesInFile)) :
    Leaves crc source d told ([w.sync, w.reportDurable], w) := by
  have hlegal : d.Legal crc source w.sync := trivial
  have hsync : Vouched crc source (d.apply w.sync) told :=
    hv.mono fun file content hk => hk.apply hlegal rfl
  have htidy : (d.apply w.sync).Tidy crc source := ht.apply trivial
  have htold := hsync.appended htidy h.length.symm (h.keeps hlinked) hbound
  refine ⟨⟨fun m => hv.mono fun file content hk => hk.part _ m, ?_⟩, ?_, ?_⟩
  · show Vouches crc source (d.apply w.sync) (told ++ []) [w.reportDurable]
    rw [List.append_nil]
    exact hsync.telling htold
  · exact hlinked.modify w.fileId fun f => rfl
  · refine hbound.tell (.inr ⟨rfl, le_rfl⟩) fun p hp => ?_
    rw [List.mem_singleton.mp hp]
    exact .inr ⟨rfl, le_rfl⟩

theorem leaves_writeDeltas (h : Ready crc source d w) (hlinked : d.Linked)
    (hv : Vouched crc source d told)
    (hbound : Bounded told (w.fileId, w.bytesInFile)) {changes : List Change}
    (hsize : w.bytesInFile + framesLen (changes.map encodeDelta) < w.rotateAt) :
    Leaves crc source d told (w.writeDeltas crc changes) := by
  obtain ⟨older, data, hactive, hopens⟩ := h.active
  have hcarries : Carries crc source d
      (LogWriter.each (fun w p => w.append crc p) w (changes.map encodeDelta)) :=
    h.each fun hr p hp => by
      obtain ⟨c, -, rfl⟩ := List.mem_map.mp hp
      exact hr.append (Record.fits_encode (.delta c)) (Record.head_encode (.delta c))
  have hwritten := hactive.each_appendRaw (changes.map encodeDelta)
  have hcall : Appended crc w (changes.map encodeDelta)
    (LogWriter.each (fun w p => w.appendRaw crc p) w (changes.map encodeDelta)) := appended_each _ _
  -- the deltas stay below the size at which the log rotates
  rw [← each_append_eq hsize] at hwritten hcall
  obtain ⟨wrote, hwrote⟩ : ∃ wrote, LogWriter.each (fun w p => w.append crc p) w
      (changes.map encodeDelta) = wrote :=
    ⟨_, rfl⟩
  rw [hwrote] at hcarries hwritten hcall
  have hfirst := hv.quiet hcarries.plan hcall.quiet
  have hdone := hfirst.done
  rw [tells_quiet hcall.quiet, List.append_nil] at hdone
  -- the reported position only grows
  have hgrown : NotBehind (w.fileId, w.bytesInFile) (wrote.2.fileId, wrote.2.bytesInFile) :=
    .inr ⟨hcall.fileId.symm, by
      show w.bytesInFile ≤ wrote.2.bytesInFile
      rw [hcall.bytesInFile]
      exact Nat.le_add_right _ _⟩
  have hreport := leaves_report hwritten hcarries.ready.tidy (hcall.linked hlinked) hdone
    fun t ht p hp => (hbound t ht p hp).trans hgrown
  have hdeltas : w.writeDeltas crc changes =
      (wrote.1 ++ [wrote.2.sync, wrote.2.reportDurable], wrote.2) := by
    rw [LogWriter.writeDeltas, hwrote]
  rw [hdeltas]
  refine ⟨hfirst.append ?_, ?_, ?_⟩
  · rw [tells_quiet hcall.quiet, List.append_nil]
    exact hreport.vouches
  · rw [LogDir.applyAll_append]
    exact hreport.linked
  · rw [tells_append, tells_quiet hcall.quiet, List.nil_append]
    exact hreport.bounded

theorem vouches_detach (h : Ready crc source d w) (hlinked : d.Linked)
    (hv : Vouched crc source d told)
    (hbound : Bounded told (w.fileId, w.bytesInFile)) : Vouches crc source d told w.detach.1 := by
  obtain ⟨older, data, hactive, -⟩ := h.active
  have hreport := leaves_report hactive h.tidy hlinked hv hbound
  have hdone := hreport.vouches.done
  exact hreport.vouches.append (hdone.telling (hdone.stopped none))

/-! ### Attaching -/

/-- What an attach finds, once it has dropped a torn end. -/
theorem found_onDisk (ht : d.Tidy crc source) (hdisk : d.OnDisk crc) {last : LogFile}
    (hfiles : d.files = older ++ [last])
    {ops : List Op} (hops : ops = if (readRecords crc last.bytes).2 < last.bytes.length then
      [.setLen last.id (readRecords crc last.bytes).2, .syncFile last.id] else []) :
    ∀ f ∈ (d.applyAll ops).files, f.linked = true ∧ f.synced = f.bytes.length := by
  have hmem : last ∈ d.files := by
    rw [hfiles]
    exact List.mem_append_right _ (List.mem_singleton_self _)
  have hold : ∀ f ∈ d.files, f.id ≠ last.id → f.linked = true ∧ f.synced = f.bytes.length :=
    fun f hf hne =>
    ⟨(hdisk.2 f hf).1,
      (ht.sealedFiles f hf last hmem (lt_of_le_of_ne (ht.le_last hfiles f hf) hne)).synced⟩
  by_cases htorn : (readRecords crc last.bytes).2 < last.bytes.length
  · rw [hops, if_pos htorn]
    intro f hf
    obtain ⟨f₁, hf₁, rfl⟩ := List.mem_map.mp hf
    obtain ⟨f₀, hf₀, rfl⟩ := List.mem_map.mp hf₁
    by_cases hid : f₀.id = last.id
    · simp only [if_pos hid, LogFile.setLen_id]
      exact ⟨(hdisk.2 f₀ hf₀).1, rfl⟩
    · simp only [if_neg hid]
      exact hold f₀ hf₀ hid
  · rw [hops, if_neg htorn]
    intro f hf
    by_cases hid : f.id = last.id
    · obtain rfl := ht.eq_of_id hf hmem hid
      exact ⟨(hdisk.2 f hf).1, (hdisk.2 f hf).2.resolve_right htorn⟩
    · exact hold f hf hid

/-- The first call: everything listed is on disk. -/
theorem vouched_attached (ht : d.Tidy crc source)
    (hdisk : ∀ f ∈ d.files, f.linked = true ∧ f.synced = f.bytes.length) :
    Vouched crc source d [(.attached d.listLogFiles, d)] := by
  refine vouched_nil.tell (by simp) (fun p hp => ?_) ?_ (by simp [Bounded])
  · obtain ⟨f, hf, rfl⟩ := List.mem_map.mp hp
    have hkeeps : d.Keeps f.id f.bytes :=
      ⟨f, hf, rfl, (hdisk f hf).1, (hdisk f hf).2.ge, List.prefix_rfl⟩
    exact ⟨f.bytes, rfl, hkeeps.below ht, hkeeps⟩
  · exact List.pairwise_map.mpr ((List.pairwise_append.mp ht.asc).2.1.imp fun hlt => .inl hlt)

theorem bounded_attached (h : Active crc d w older ps) :
    Bounded [(.attached d.listLogFiles, d)] (w.fileId, w.bytesInFile) := by
  intro t ht p hp
  rw [List.mem_singleton.mp ht] at hp
  obtain ⟨f, hf, rfl⟩ := List.mem_map.mp hp
  obtain ⟨synced, cutOff, linked, hfiles⟩ := h.files
  rw [hfiles] at hf
  rcases List.mem_append.mp hf with hf | hf
  · exact .inl (h.below f hf)
  · rw [List.mem_singleton.mp hf]
    exact .inr ⟨rfl, h.length.ge⟩

/-! ### Runs -/

variable {s' : State}

/-- The contract holds, and the drainer stands behind all it has reported. -/
structure Observed (crc : Bytes → Fin (2 ^ 32)) (source : Source) (s : State) : Prop where
  sound : s.Sound crc source
  vouched : Vouched crc source s.dir s.told
  linked : ∀ w ∈ s.writer, s.dir.Linked
  bounded : ∀ w ∈ s.writer, Bounded s.told (w.fileId, w.bytesInFile)

theorem carry_writer {ops : List Op} {w : Option LogWriter} {noisy : Bool} {outcome : Outcome}
    {w' : LogWriter}
    (h : w' ∈ (s.carry ops w noisy outcome).writer) : w = some w' ∧ outcome = .done := by
  cases outcome with
  | done => exact ⟨h, rfl⟩
  | failed n m error => exact absurd h (by simp [State.carry])
  | killed n m => exact absurd h (by simp [State.carry])

/-- A compaction, behind whatever the plan does before it. -/
theorem observed_compact {ops : List Op} {call : List Op × LogWriter} {base : Base}
    {outcome : Outcome} {noisy : Bool}
    (hsound : (s.carry call.1 (some call.2) noisy outcome).Sound crc source)
    (hv : Vouches crc source s.dir s.told ops) {e : LogDir} (he : s.dir.applyAll ops = e)
    (h : Active crc e w older ps) (ht : e.Tidy crc source) (hsource : w.source = source)
    (hopens : Opens source ps)
    (hlinked : e.Linked) (hbound : Bounded (s.told ++ tells s.dir ops) (w.fileId, w.bytesInFile))
    (hsize : framesLen (headerPayload source :: base.payloads) < w.rotateAt)
    (hcall : call = (ops ++ (w.compact crc e base).1, (w.compact crc e base).2))
    (hwhole : outcome.Whole call.1) :
    Observed crc source (s.carry call.1 (some call.2) noisy outcome) := by
  have hdone := hv.done
  rw [he] at hdone
  obtain ⟨hleaves, hbase⟩ := leaves_rebase h ht hsource hopens hlinked hdone hbound hsize
  have hrebased := ((h.carries_rotate ht hsource hopens).rebase base).ready.tidy
  obtain ⟨all, hall⟩ : ∃ all, ops ++ (w.rebase crc base).1 = all := ⟨_, rfl⟩
  -- the plan up to the pruning leaves what the rebase leaves
  have hdir : s.dir.applyAll all = e.applyAll (w.rebase crc base).1 := by
    rw [← hall, LogDir.applyAll_append, he]
  have htells : s.told ++ tells s.dir all = s.told ++ tells s.dir ops ++ tells e
      (w.rebase crc base).1 := by
    rw [← hall, tells_append, he, List.append_assoc]
  have hvall : Vouches crc source s.dir s.told all := by
    rw [← hall]
    refine hv.append ?_
    rw [he]
    exact hleaves.vouches
  -- the pruning, and the report of it, come last
  have hplan : call.1 = all ++ (LogWriter.pruneFilesBelow (s.dir.applyAll all) (w.fileId + 1) ++
      [.tell (.pruned (w.fileId + 1))]) := by
    rw [hcall, hdir, ← hall, List.append_assoc]
    rfl
  have hvouched :=
    carry_prune hvall (hdir ▸ hrebased) (htells ▸ hbase) (some call.2) noisy (hplan ▸ hwhole)
  rw [← hplan] at hvouched
  refine ⟨hsound, hvouched, fun w' hw' => ?_, fun w' hw' => ?_⟩
  · obtain ⟨hw, rfl⟩ := carry_writer hw'
    show (s.dir.applyAll call.1).Linked
    rw [hplan, LogDir.applyAll_append, LogDir.applyAll_append, hdir]
    exact hleaves.linked.pruneFilesBelow _
  · obtain ⟨hw, rfl⟩ := carry_writer hw'
    obtain rfl := Option.some_inj.mp hw
    show Bounded (s.told ++ tells s.dir call.1) _
    rw [hplan, tells_append, tells_append, tells_pruneFilesBelow, List.nil_append,
      ← List.append_assoc, htells, hcall]
    exact hleaves.bounded.tell (.inr ⟨rfl, le_rfl⟩) (by simp [Report.durables])

theorem observed_step {a : Event} (h : Observed crc source s) (hok : Careful crc source s a)
    (hs : s.step crc source a = some s') : Observed crc source s' := by
  have hsound := step_sound h.sound hs
  cases a with
  | attach rotateAt base outcome =>
    obtain ⟨hdisk, hsize, hwhole⟩ := hok
    simp only [State.step] at hs
    split at hs
    · exact absurd hs (by simp)
    · rename_i hnone
      cases hattach : LogWriter.attach crc s.dir source rotateAt base with
      -- an attach that fails leaves no writer and has told nothing
      | error e =>
        rw [hattach] at hs
        obtain rfl := Option.some_inj.mp hs
        exact ⟨hsound, vouched_nil, fun w hw => absurd (by rw [hw]; rfl) hnone, fun w hw t ht =>
          absurd ht (by simp)⟩
      | ok call =>
        rw [hattach] at hs
        obtain rfl := Option.some_inj.mp hs
        have hwhole := hwhole call (by rw [hattach]; rfl)
        obtain ⟨older, last, hfiles⟩ := (List.eq_nil_or_concat' s.dir.files).resolve_left hdisk.1
        unfold LogWriter.attach at hattach
        split at hattach
        · exact absurd hattach (by simp)
        · cases hopen : LogWriter.openDir crc s.dir source rotateAt with
          | error e =>
            rw [hopen] at hattach
            exact absurd hattach (by simp [Except.map])
          | ok opened =>
            rw [hopen] at hattach
            obtain ⟨hplan, hsource, -, hrotateAt, hactive, hops⟩ :=
              openDir_spec h.sound.tidy hfiles hopen
            have htidy := h.sound.tidy.applyAll hplan
            have hfound := found_onDisk h.sound.tidy hdisk hfiles hops
            have hmem : last ∈ s.dir.files := by
              rw [hfiles]
              exact List.mem_append_right _ (List.mem_singleton_self _)
            have hopens := (h.sound.tidy.shaped last hmem).left.readRecords.1
            have hcall := (Except.ok.inj hattach).symm
            simp only [if_neg hdisk.1] at hcall
            -- opening the directory reports nothing, so `attached` is told first
            have hsilent : ∀ op ∈ opened.1, ∀ r, op ≠ .tell r := by
              rw [hops]
              split <;> simp
            have htold : tells s.dir
                (opened.1 ++ [.tell (.attached (s.dir.applyAll opened.1).listLogFiles)]) =
                [(.attached (s.dir.applyAll opened.1).listLogFiles, s.dir.applyAll opened.1)] := by
              rw [tells_append, hops]
              split <;> rfl
            have hv : Vouches crc source s.dir []
                (opened.1 ++ [.tell (.attached (s.dir.applyAll opened.1).listLogFiles)]) := by
              refine (vouches_silent hsilent).append ?_
              have hnil : tells s.dir opened.1 = [] := by
                rw [hops]
                split <;> rfl
              rw [hnil]
              exact vouched_nil.telling (vouched_attached htidy hfound)
            refine observed_compact (s := { s with told := [] }) hsound hv ?_ hactive htidy
              hsource hopens (fun f hf => (hfound f hf).1) ?_ (hrotateAt ▸ hsize) ?_ hwhole
            · rw [LogDir.applyAll_append]
              rfl
            · show Bounded ([] ++ tells s.dir _) _
              rw [htold]
              exact bounded_attached hactive
            · rw [hcall, List.append_assoc]
              rfl
  -- the other calls go through the writer that is there
  | writeDeltas changes outcome =>
    obtain ⟨w, hw, rfl⟩ := Option.map_eq_some_iff.mp hs
    have hleaves :=
      leaves_writeDeltas (h.sound.ready w hw) (h.linked w hw) h.vouched (h.bounded w hw) (hok w hw)
    refine ⟨hsound, hleaves.vouches.carry _ _ outcome, fun w' hw' => ?_, fun w' hw' => ?_⟩
    · obtain ⟨-, rfl⟩ := carry_writer hw'
      exact hleaves.linked
    · obtain ⟨hw', rfl⟩ := carry_writer hw'
      obtain rfl := Option.some_inj.mp hw'
      exact hleaves.bounded
  | compact base outcome =>
    obtain ⟨w, hw, rfl⟩ := Option.map_eq_some_iff.mp hs
    obtain ⟨hsize, hwhole⟩ := hok w hw
    have hready := h.sound.ready w hw
    obtain ⟨older, data, hactive, hopens⟩ := hready.active
    have hbound : Bounded (s.told ++ tells s.dir []) (w.fileId, w.bytesInFile) := by
      rw [tells, List.append_nil]
      exact h.bounded w hw
    have hv : Vouches crc source s.dir s.told [] := h.vouched
    exact observed_compact hsound hv rfl hactive hready.tidy hready.source_eq hopens
      (h.linked w hw) hbound hsize rfl hwhole
  | detach outcome =>
    obtain ⟨w, hw, rfl⟩ := Option.map_eq_some_iff.mp hs
    have hv := vouches_detach (h.sound.ready w hw) (h.linked w hw) h.vouched (h.bounded w hw)
    refine ⟨hsound, hv.carry none true outcome, fun w' hw' => ?_, fun w' hw' => ?_⟩
    · exact absurd (carry_writer hw').1 (by simp)
    · exact absurd (carry_writer hw').1 (by simp)
  | powerLoss survives len =>
    obtain rfl := Option.some_inj.mp hs
    exact ⟨hsound, h.vouched.mono fun file content hk => hk.powerLoss survives len, fun w hw =>
      absurd hw (by simp), fun w hw => absurd hw (by simp)⟩

/-- **The observer's contract**, in every careful run over a directory that any
run before has left. -/
theorem contract {s₀ : State} (h₀ : (journal crc source).Reachable s₀)
    (h : (drainers crc source s₀.dir).Reaches (Careful crc source) s) : Contract crc source s := by
  have hinit : Observed crc source (drainers crc source s₀.dir).init :=
    ⟨⟨(sound h₀).tidy, by simp [drainers]⟩, vouched_nil, by simp [drainers], by simp [drainers]⟩
  have hobserved := h.invariant hinit fun h hok hs => observed_step h hok hs
  exact hobserved.vouched.stands hobserved.sound.tidy

end

/-- A journal attached to a store without an identity, and a power loss after it. -/
def settledRun : List Event := [.attach 1000 ⟨0, []⟩ .done, .powerLoss (fun _ => true) fun _ => 0]

/-- A drainer attached to what is there, which writes, compacts and detaches. -/
def carefulRun : List Event :=
  [.attach 1000 ⟨5, [⟨[107], [118], by decide⟩]⟩ .done,
    .writeDeltas [⟨6, .put, [107], some [119], by decide⟩] .done,
    .compact ⟨6, [⟨[107], [119], by decide⟩]⟩ .done,
    .detach .done]

theorem contract_careful_run :
    ∃ s₀ s, (journal crc32 noStore).run settledRun (journal crc32 noStore).init = some s₀ ∧
    s.told.length = 10 ∧ Contract crc32 noStore s := by
  obtain ⟨s₀, hs₀, hcareful⟩ : ∃ s₀, (journal crc32 noStore).run settledRun
      (journal crc32 noStore).init = some s₀ ∧
      ((drainers crc32 noStore s₀.dir).replay (Careful crc32 noStore) carefulRun
        (drainers crc32 noStore s₀.dir).init).any (fun s => decide (s.told.length = 10)) = true :=
    ⟨_, rfl, by decide +kernel⟩
  obtain ⟨s, hs, hlen⟩ := System.exists_reaches hcareful
  exact ⟨s₀, s, hs₀, hlen, contract (System.reachable_of_run hs₀) hs⟩

/-- The first call of a new journal reports a file whose entry is not on disk. -/
theorem unsynced_first_file :
    ¬ ∀ s, (journal crc32 noStore).Reachable s → Contract crc32 noStore s := by
  intro h
  obtain ⟨s, hs, t, ht, p, hp, hnot⟩ : ∃ s,
      (journal crc32 noStore).run [.attach 1000 ⟨0, []⟩ .done]
        (journal crc32 noStore).init = some s ∧
      ∃ t ∈ s.told, ∃ p ∈ t.1.durables, ¬ t.2.Durable p := ⟨_, rfl, by decide +kernel⟩
  exact hnot ((h s (System.reachable_of_run hs)).durable t ht p hp)

end Journal

end Fluent31
