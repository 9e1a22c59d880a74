/-
Reopening a journal after a crash (`journal.rs`).

The writer trusts the first file for the store and continues the newest, the
reader wants every file to open with its header and none to be missing.

* `reopens_iff` — a directory that any run leaves reopens, with what it holds and
  what is appended read back, exactly when no file is missing and the first and
  the newest still have their header;
* `torn_creation` — a crash between the creation of the first file and its
  header: the directory no longer opens;
* `torn_rotation` — the same in a rotation: it opens, but what is appended to it
  makes the whole journal unreadable.
-/
import Fluent31.Drainer

namespace Fluent31

namespace Journal

section

variable (crc : Bytes → Fin (2 ^ 32)) (source : Source)

def isData (p : Bytes) : Bool := decide (p.head? ≠ some TAG_HEADER)

/-- The writer opens the directory, and whatever records it then appends are
read back in order behind those that were there. -/
def Reopens (d : LogDir) : Prop :=
  ∀ (rotateAt : ℕ) (records : List Record), ∃ opened, LogWriter.openDir crc d source rotateAt =
    .ok opened ∧ ∃ out, readAllRecords crc ((d.applyAll opened.1).applyAll
        (LogWriter.each (fun w p => w.append crc p) opened.2 (records.map Record.encode)).1) =
        .ok (d.records crc ++ out) ∧
      out.filter isData = records.map Record.encode

/-- The first record is complete, and the header. -/
def HasHeader (f : LogFile) : Prop :=
  (readRecords crc f.bytes).1.head? = some (headerPayload source)

/-- Nothing there, or all files from a first to a newest that both have their
header. -/
def LogDir.Usable (d : LogDir) : Prop :=
  d.files = [] ∨ d.Gapless ∧ (∀ f ∈ d.files.head?, HasHeader crc source f) ∧
    ∀ f ∈ d.files.getLast?, HasHeader crc source f

instance (f : LogFile) : Decidable (HasHeader crc source f) := inferInstanceAs (Decidable (_ = _))

instance (d : LogDir) : Decidable (d.Usable crc source) := inferInstanceAs (Decidable (_ ∨ _))

end

section

variable {crc : Bytes → Fin (2 ^ 32)} {source : Source} {d : LogDir} {w : LogWriter}
    {older : List LogFile}
  {ps : List Bytes}

/-! ### What the writer appends -/

/-- The writer stands behind `ps` in a directory of which the rest is whole. -/
structure Standing (crc : Bytes → Fin (2 ^ 32)) (source : Source) (d : LogDir) (w : LogWriter)
    (older : List LogFile) (ps : List Bytes) : Prop where
  active : Active crc d w older ps
  wholes : ∀ f ∈ older, f.Whole crc source
  opens : Opens source ps
  source_eq : w.source = source

/-- The records grow by `out`, and no file goes missing. -/
structure Extends (crc : Bytes → Fin (2 ^ 32)) (d d' : LogDir) (out : List Bytes) : Prop where
  records : d'.records crc = d.records crc ++ out
  gapless : d.Gapless → d'.Gapless

theorem Extends.trans {d' d'' : LogDir} {out out' : List Bytes} (h : Extends crc d d' out)
    (h' : Extends crc d' d'' out') : Extends crc d d'' (out ++ out') :=
  ⟨by rw [h'.records, h.records, List.append_assoc], fun hd => h'.gapless (h.gapless hd)⟩

theorem LogDir.gapless_iff : d.Gapless ↔ (d.files.map LogFile.id).IsChain fun a b => b = a + 1 :=
  (List.isChain_map (R := fun a b => b = a + 1) LogFile.id).symm

theorem Active.ids (h : Active crc d w older ps) :
    d.files.map LogFile.id = older.map LogFile.id ++ [w.fileId] := by
  obtain ⟨synced, cutOff, linked, hfiles⟩ := h.files
  rw [hfiles, List.map_append]
  rfl

theorem Active.records (h : Active crc d w older ps) (hfits : ∀ p ∈ ps, Fits p) :
    d.records crc = (older.flatMap fun f => (readRecords crc f.bytes).1) ++ ps := by
  obtain ⟨synced, cutOff, linked, hfiles⟩ := h.files
  rw [LogDir.records, hfiles, List.flatMap_append, List.flatMap_singleton, readRecords_whole hfits]

theorem Standing.legible (h : Standing crc source d w older ps) : d.Legible crc source := by
  obtain ⟨synced, cutOff, linked, hfiles⟩ := h.active.files
  have hwhole : ∀ f ∈ d.files, f.Whole crc source := by
    rw [hfiles]
    intro f hf
    rcases List.mem_append.mp hf with hf | hf
    · exact h.wholes f hf
    · rw [List.mem_singleton.mp hf]
      exact ⟨ps, rfl, h.opens⟩
  exact ⟨fun f hf => (hwhole f hf).shaped, fun f hf _ _ _ => (hwhole f hf).clean⟩

theorem Standing.rotate (h : Standing crc source d w older ps) : ∃ older',
    Standing crc source (d.applyAll (w.rotate crc).1) (w.rotate crc).2 older'
      [headerPayload source] ∧
      Extends crc d (d.applyAll (w.rotate crc).1) [headerPayload source] := by
  obtain ⟨linked, hactive⟩ := h.active.rotate
  rw [h.source_eq] at hactive
  refine ⟨_, ⟨hactive, fun f hf => ?_, opens_header source, h.source_eq⟩, ?_, fun hgapless => ?_⟩
  · rcases List.mem_append.mp hf with hf | hf
    · exact h.wholes f hf
    · rw [List.mem_singleton.mp hf]
      exact ⟨ps, rfl, h.opens⟩
  · rw [hactive.records (opens_header source).fits, h.active.records h.opens.fits,
      List.flatMap_append, List.flatMap_singleton, readRecords_whole h.opens.fits]
  · rw [LogDir.gapless_iff, h.active.ids] at hgapless
    rw [LogDir.gapless_iff, hactive.ids, List.map_append, List.map_singleton]
    refine List.isChain_append.mpr ⟨hgapless, List.IsChain.singleton _, fun a ha b hb => ?_⟩
    rw [List.getLast?_append, List.getLast?_singleton] at ha
    rw [← Option.some_inj.mp ha, ← Option.some_inj.mp hb]
    rfl

theorem Standing.appendRaw (h : Standing crc source d w older ps) {p : Bytes}
    (hopens : Opens source (ps ++ [p])) :
    Standing crc source (d.applyAll (w.appendRaw crc p).1) (w.appendRaw crc p).2 older (ps ++ [p]) ∧
      Extends crc d (d.applyAll (w.appendRaw crc p).1) [p] := by
  have hactive := h.active.appendRaw p
  refine ⟨⟨hactive, h.wholes, hopens, h.source_eq⟩, ?_, fun hgapless => ?_⟩
  · rw [hactive.records hopens.fits, h.active.records h.opens.fits, List.append_assoc]
  · rw [LogDir.gapless_iff, h.active.ids] at hgapless
    rw [LogDir.gapless_iff, hactive.ids]
    exact hgapless

/-- An append behind a header grows the records by its own, and by the header of
a new file if it rotates. -/
theorem Standing.append {data : List Bytes}
    (h : Standing crc source d w older (headerPayload source :: data))
    (r : Record) : ∃ older' data' out,
    Standing crc source (d.applyAll (w.append crc r.encode).1) (w.append crc r.encode).2 older'
        (headerPayload source :: data') ∧
      Extends crc d (d.applyAll (w.append crc r.encode).1) out ∧
      out.filter isData = [r.encode] := by
  have hdata : isData r.encode = true := decide_eq_true r.head_encode
  obtain ⟨hwritten, hextends⟩ := h.appendRaw
    (by rw [List.cons_append]; exact h.opens.append r.fits_encode r.head_encode)
  unfold LogWriter.append LogWriter.maybeRotate
  simp only
  split
  · obtain ⟨older', hrotated, hmore⟩ := hwritten.rotate
    rw [LogDir.applyAll_append]
    refine ⟨older', [], [r.encode] ++ [headerPayload source], hrotated, hextends.trans hmore, ?_⟩
    rw [List.filter_append, List.filter_cons_of_pos hdata, List.filter_nil,
      List.filter_cons_of_neg (by simp [isData, headerPayload]), List.filter_nil, List.append_nil]
  · rw [List.append_nil]
    exact ⟨older, data ++ [r.encode], [r.encode], hwritten, hextends, List.filter_cons_of_pos hdata⟩

theorem Standing.each {data : List Bytes}
    (h : Standing crc source d w older (headerPayload source :: data))
    (records : List Record) : ∃ w' older' data' out,
    Standing crc source
        (d.applyAll (LogWriter.each (fun w p => w.append crc p) w (records.map Record.encode)).1) w'
        older'
        (headerPayload source :: data') ∧
      Extends crc d (d.applyAll
        (LogWriter.each (fun w p => w.append crc p) w (records.map Record.encode)).1) out ∧
        out.filter isData = records.map Record.encode := by
  induction records generalizing d w older data with
  | nil => exact ⟨w, older, data, [], h, ⟨(List.append_nil _).symm, id⟩, rfl⟩
  | cons r records ih =>
    obtain ⟨older₁, data₁, out₁, hfirst, hextends₁, hout₁⟩ := h.append r
    obtain ⟨w', older₂, data₂, out₂, hrest, hextends₂, hout₂⟩ := ih hfirst
    rw [List.map_cons, LogWriter.each, LogDir.applyAll_append]
    refine ⟨w', older₂, data₂, out₁ ++ out₂, hrest, hextends₁.trans hextends₂, ?_⟩
    rw [List.filter_append, hout₁, hout₂]
    rfl

/-! ### The two sides -/

/-- What the writer has opened in front of a header reads back with all that is
appended. -/
theorem reopens_of_opened {rotateAt : ℕ} {records : List Record} {opened : List Op × LogWriter}
    (hopen : LogWriter.openDir crc d source rotateAt = .ok opened) {data pre : List Bytes}
    (h : Standing crc source (d.applyAll opened.1) opened.2 older (headerPayload source :: data))
    (hextends : Extends crc d (d.applyAll opened.1) pre) (hpre : pre.filter isData = [])
    (hgapless : d.Gapless) :
    ∃ opened, LogWriter.openDir crc d source rotateAt = .ok opened ∧
      ∃ out, readAllRecords crc ((d.applyAll opened.1).applyAll
          (LogWriter.each (fun w p => w.append crc p) opened.2 (records.map Record.encode)).1) =
          .ok (d.records crc ++ out) ∧
        out.filter isData = records.map Record.encode := by
  obtain ⟨w', older', data', out, hstanding, hmore, hout⟩ := h.each records
  have hall := hextends.trans hmore
  refine ⟨opened, hopen, pre ++ out, ?_, by rw [List.filter_append, hpre, hout]; rfl⟩
  obtain ⟨synced, cutOff, linked, hfiles⟩ := hstanding.active.files
  rw [hstanding.legible.readAllRecords (hall.gapless hgapless) (by rw [hfiles]; simp), hall.records]

theorem openDir_of_header (hfirst : ∀ f ∈ d.files.head?, HasHeader crc source f) (rotateAt : ℕ) :
    ∃ opened, LogWriter.openDir crc d source rotateAt = .ok opened := by
  unfold LogWriter.openDir
  cases hd : d.files with
  | nil => exact ⟨_, rfl⟩
  | cons first rest =>
    have hheader := hfirst first (by rw [hd]; rfl)
    have hread : readHeader crc first.bytes = .ok source := by
      unfold readHeader
      unfold HasHeader at hheader
      cases hps : (readRecords crc first.bytes).1 with
      | nil =>
        rw [hps] at hheader
        exact absurd hheader (by simp)
      | cons p ps =>
        rw [hps] at hheader
        rw [Option.some_inj.mp hheader]
        exact parseHeader_headerPayload source
    simp only [hread, Except.bind, ne_eq, not_true, if_false]
    exact ⟨_, rfl⟩

theorem reopens_of_usable (ht : d.Tidy crc source) (h : d.Usable crc source) :
    Reopens crc source d := by
  intro rotateAt records
  rcases List.eq_nil_or_concat' d.files with hnil | ⟨older, last, hfiles⟩
  · -- an empty directory: the log is created with its header alone
    obtain ⟨hopen, hcarries, hactive⟩ := carries_create ht hnil rotateAt
    have hrecords : d.records crc = [] := by rw [LogDir.records, hnil, List.flatMap_nil]
    have hgapless : d.Gapless := by rw [LogDir.Gapless, hnil]; exact List.IsChain.nil
    have hpre : [headerPayload source].filter isData = [] := by simp [isData, headerPayload]
    refine reopens_of_opened hopen ⟨hactive, by simp, opens_header source, rfl⟩
      ⟨?_, fun _ => ?_⟩ hpre hgapless
    · rw [hactive.records (opens_header source).fits, hrecords]
      rfl
    · rw [LogDir.gapless_iff, hactive.ids]
      exact List.IsChain.singleton _
  · obtain ⟨hgapless, hfirst, hnewest⟩ := h.resolve_left (by rw [hfiles]; simp)
    obtain ⟨opened, hopen⟩ := openDir_of_header hfirst rotateAt
    obtain ⟨-, hsource, hid, -, hactive, -⟩ := openDir_spec ht hfiles hopen
    have hmem : last ∈ d.files := by
      rw [hfiles]
      exact List.mem_append_right _ (List.mem_singleton_self _)
    have hopens := (ht.shaped last hmem).left.readRecords.1
    have hheader := hnewest last (by rw [hfiles, List.getLast?_append]; rfl)
    -- every file but the last is sealed, so it is whole
    have hwholes : ∀ f ∈ older, f.Whole crc source := fun f hf => by
      have hasc := (List.pairwise_append.mp ht.asc).2.1
      have hold : f ∈ d.files := by
        rw [hfiles]
        exact List.mem_append_left _ hf
      rw [hfiles] at hasc
      exact (ht.sealedFiles f hold last hmem
        ((List.pairwise_append.mp hasc).2.2 f hf last (List.mem_singleton_self last))).whole
    have hrecords : d.records crc = (d.applyAll opened.1).records crc := by
      rw [hactive.records hopens.fits, LogDir.records, hfiles, List.flatMap_append,
        List.flatMap_singleton]
    -- opening drops a torn tail only, so the records stay
    have hextends : Extends crc d (d.applyAll opened.1) [] := by
      refine ⟨by rw [← hrecords, List.append_nil], fun hgapless => ?_⟩
      rw [LogDir.gapless_iff, hfiles, List.map_append, List.map_singleton] at hgapless
      rw [LogDir.gapless_iff, hactive.ids, hid]
      exact hgapless
    unfold HasHeader at hheader
    cases hps : (readRecords crc last.bytes).1 with
    -- the newest file has its header: it is not the empty one
    | nil =>
      rw [hps] at hheader
      exact absurd hheader (by simp)
    | cons p data =>
      rw [hps] at hheader hactive hopens
      obtain rfl := Option.some_inj.mp hheader
      exact reopens_of_opened hopen ⟨hactive, hwholes, hopens, hsource⟩ hextends rfl hgapless

/-- The first record of a file that has one is its header. -/
theorem hasHeader_of_ne_nil {f : LogFile} (h : Shaped crc source f.bytes)
    (hne : (readRecords crc f.bytes).1 ≠ []) :
    HasHeader crc source f := by
  obtain ⟨data, hdata, -⟩ := h.readRecords.1.header.resolve_left hne
  rw [HasHeader, hdata]
  rfl

theorem usable_of_reopens (ht : d.Tidy crc source) (h : Reopens crc source d) :
    d.Usable crc source := by
  rcases List.eq_nil_or_concat' d.files with hnil | ⟨older, last, hfiles⟩
  · exact .inl hnil
  · have hmem : last ∈ d.files := by
      rw [hfiles]
      exact List.mem_append_right _ (List.mem_singleton_self _)
    refine .inr ⟨?_, fun f hf => ?_, fun f hf => ?_⟩
    · obtain ⟨opened, hopen, out, hread, -⟩ := h 0 []
      obtain ⟨-, -, hid, -, hactive, -⟩ := openDir_spec ht hfiles hopen
      have hgapless := (LogDir.gapless_of_readAllRecords hread).1
      rw [LogDir.gapless_iff] at hgapless ⊢
      rw [show (d.applyAll opened.1).applyAll _ = d.applyAll opened.1 from rfl, hactive.ids,
        hid] at hgapless
      rw [hfiles, List.map_append]
      exact hgapless
    · obtain ⟨opened, hopen, -⟩ := h 0 []
      refine hasHeader_of_ne_nil (ht.shaped f (List.mem_of_mem_head? hf)).left fun hnil => ?_
      -- the writer finds no header to check
      unfold LogWriter.openDir at hopen
      cases hd : d.files with
      | nil =>
        rw [hd] at hmem
        exact absurd hmem List.not_mem_nil
      | cons first rest =>
        rw [hd] at hopen hf
        obtain rfl := Option.some_inj.mp hf
        simp only [readHeader, hnil, Except.bind] at hopen
        exact absurd hopen (by simp)
    · obtain rfl : last = f := by
        rw [hfiles, List.getLast?_append, List.getLast?_singleton] at hf
        exact Option.some_inj.mp hf
      refine hasHeader_of_ne_nil (ht.shaped last hmem).left fun hnil => ?_
      -- a record appended without a rotation is the first of the newest file
      obtain ⟨opened, hopen, out, hread, -⟩ := h 18 [.checkpoint 0]
      obtain ⟨-, -, -, hrotateAt, hactive, -⟩ := openDir_spec ht hfiles hopen
      rw [hnil] at hactive
      have hwritten := hactive.appendRaw (encodeCheckpoint 0)
      have hlength : (frame crc (encodeCheckpoint 0)).length = 17 := by
        rw [length_frame]
        rfl
      have hquiet : (LogWriter.each (fun w p => w.append crc p) opened.2 [encodeCheckpoint 0]).1 =
          (opened.2.appendRaw crc (encodeCheckpoint 0)).1 := by
        have hno : ¬ (opened.2.appendRaw crc (encodeCheckpoint 0)).2.rotateAt ≤
            (opened.2.appendRaw crc (encodeCheckpoint 0)).2.bytesInFile := by
          rw [hwritten.length, List.nil_append, frames_singleton, hlength]
          show ¬ opened.2.rotateAt ≤ 17
          omega
        show (opened.2.append crc (encodeCheckpoint 0)).1 ++ [] = _
        unfold LogWriter.append LogWriter.maybeRotate
        simp only [if_neg hno, List.append_nil]
      obtain ⟨synced, cutOff, linked, hnew⟩ := hwritten.files
      have hheads := (LogDir.gapless_of_readAllRecords hread).2
        ⟨opened.2.fileId, frames crc [encodeCheckpoint 0], synced, cutOff, linked⟩
      rw [show [Record.checkpoint 0].map Record.encode = [encodeCheckpoint 0] from rfl, hquiet,
        hnew] at hheads
      have hhead := hheads (List.mem_append_right _ (List.mem_singleton_self _))
        (encodeCheckpoint 0) (by
        rw [readRecords_whole fun p hp => by
          rw [List.mem_singleton.mp hp]
          exact Record.fits_encode (.checkpoint 0)]
        rfl)
      exact absurd hhead (Record.head_encode (.checkpoint 0))

/-- **Reopening after a crash**: a directory left by any run reopens exactly when
it is empty, or has all its files and a header in the first and in the newest. -/
theorem reopens_iff {s : State} (h : (journal crc source).Reachable s) :
    Reopens crc source s.dir ↔ s.dir.Usable crc source :=
  ⟨usable_of_reopens (sound h).tidy, reopens_of_usable (sound h).tidy⟩

end

/-! ### Crashes -/

/-- A journal whose drainer dies in the middle of an append. -/
def tornAppend : List Event :=
  [.attach 1000 ⟨0, []⟩ .done, .writeDeltas [⟨1, .put, [107], some [118], by decide⟩] (.killed 0 5)]

theorem reopens_torn_append :
    ∃ s, (journal crc32 noStore).run tornAppend (journal crc32 noStore).init = some s ∧
    Reopens crc32 noStore s.dir := by
  obtain ⟨s, hs, husable⟩ : ∃ s, (journal crc32 noStore).run tornAppend
      (journal crc32 noStore).init = some s ∧
      s.dir.Usable crc32 noStore := ⟨_, rfl, by decide +kernel⟩
  exact ⟨s, hs, (reopens_iff (System.reachable_of_run hs)).mpr husable⟩

/-- The process dies between the creation of the first file and its header:
nothing opens the directory again. -/
theorem torn_creation :
    ¬ ∀ s, (journal crc32 noStore).Reachable s → Reopens crc32 noStore s.dir := by
  intro h
  have hrun : (journal crc32 noStore).run [.attach 1000 ⟨0, []⟩ (.killed 1 0)]
      (journal crc32 noStore).init = some ⟨⟨[⟨1, [], 0, [], false⟩], []⟩, none, []⟩ := rfl
  have hs := System.reachable_of_run hrun
  exact absurd (usable_of_reopens (sound hs).tidy (h _ hs)) (by decide +kernel)

/-- The process dies in a rotation, between the creation of the next file and its
header: the directory opens, but not for records. -/
theorem torn_rotation : ∃ s, (journal crc32 noStore).Reachable s ∧
    (∃ opened, LogWriter.openDir crc32 s.dir noStore 1000 = .ok opened) ∧
      ¬ Reopens crc32 noStore s.dir := by
  obtain ⟨s, hs, hfirst, husable⟩ : ∃ s,
      (journal crc32 noStore).run [.attach 1000 ⟨0, []⟩ .done,
        .compact ⟨0, []⟩ (.killed 2 0)] (journal crc32 noStore).init = some s ∧
      (∀ f ∈ s.dir.files.head?, HasHeader crc32 noStore f) ∧ ¬ s.dir.Usable crc32 noStore :=
    ⟨_, rfl, by decide +kernel, by decide +kernel⟩
  have hreach := System.reachable_of_run hs
  exact ⟨s, hreach, openDir_of_header hfirst 1000, fun h =>
    husable (usable_of_reopens (sound hreach).tidy h)⟩

end Journal

end Fluent31
