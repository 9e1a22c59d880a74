/-
Restoring an archive into a fresh directory (`fork.rs`, `io/mod.rs`).

`restore_to` reads the manifest of its source, creates the destination, links the
source's entries into it one by one, and saves a manifest of its own there.  Each
of these steps can fail, and the destination has its final name from the start.

A directory is what its names hold.  The messages that quote a path or a name are
kept without the quotation.

* `linkEntries_ok`, `linkEntries_error` — what the loop leaves when it ends well, and
  when it does not;
* `restore_all_or_nothing` — an error leaves no destination, and a success a
  complete one, exactly if nothing goes wrong once the destination is there;
* `restore_leaves_destination` — a source with a directory of its own archives.
-/
import Fluent31.ManifestFile

namespace Fluent31

/-! ### Directories -/

/-- An entry of a directory.  A symbolic link has what it reads as from the source, and
what a hard link to it reads as from the destination. -/
inductive Node
  | file (contents : Bytes)
  | dir
  | symlink (here there : Option Bytes)
  /-- A socket or a pipe. -/
  | special
  deriving DecidableEq

namespace Node

def read : Node → Option Bytes
  | file contents => some contents
  | symlink here _ => here
  | dir | special => none

/-- What a hard link to it reads as. -/
def linked : Node → Option Bytes
  | symlink _ there => there
  | node => node.read

end Node

abbrev Directory := Bytes → Option Node

def Directory.contents (src : Directory) : DirFiles := fun name => (src name).bind Node.read

/-- The file operations of `save`, in the order of the code; a write that fails leaves a
part of what was to be written. -/
inductive SaveOp
  | createManifest
  | writeManifest (len : ℕ)
  | syncManifest
  | syncManifestDir
  | createTmp
  | writeTmp (len : ℕ)
  | syncTmp
  | rename
  | syncCurrentDir
  deriving DecidableEq

/-- `save`, when this operation fails. -/
def ManifestData.saveUpTo (crc : Bytes → Fin (2 ^ 32)) (dir : DirFiles) (gen : ℕ)
    (data : ManifestData) : SaveOp → DirFiles
  | .createManifest => dir
  | .writeManifest len => Function.update dir (manifestName gen) (some ((data.encode crc).take len))
  | .syncManifest | .syncManifestDir | .createTmp =>
    Function.update dir (manifestName gen) (some (data.encode crc))
  | .writeTmp len =>
    Function.update (Function.update dir (manifestName gen) (some (data.encode crc))) CURRENT_TMP
      (some ((manifestName gen ++ [byte 10]).take len))
  | .syncTmp | .rename =>
    Function.update (Function.update dir (manifestName gen) (some (data.encode crc))) CURRENT_TMP
      (some (manifestName gen ++ [byte 10]))
  | .syncCurrentDir => data.save crc dir gen

/-- What the filesystem does in a call: which operations fail, with what message, which
entries the iteration over the source yields, and for which it makes a hard link.  A copy
fails after so many bytes. -/
structure RestoreIo where
  load : Option String
  createDir : Option String
  readDir : Option String
  /-- An entry that cannot be read is passed over. -/
  entries : List Bytes
  links : Bytes → Bool
  copy : Bytes → Option (ℕ × String)
  sync : Bytes → Option String
  save : Option (SaveOp × String)
  syncDir : Option String

/-! ### The code -/

def LOCK : Bytes := ascii ['L', 'O', 'C', 'K']

/-- `validate_store_name`. -/
def validateStoreName (name : Bytes) : Except Error Unit :=
  if name ≠ [] ∧ name.length ≤ 64 ∧
      (∀ b ∈ name, byteWithin b 48 57 = true ∨ byteWithin b 65 90 = true ∨
        byteWithin b 97 122 = true ∨
        b = byte 46 ∨ b = byte 95 ∨ b = byte 45) ∧ ¬ name.head? = some (byte 46) then .ok ()
  else .error
    (.invalidArgument "invalid store name (use [A-Za-z0-9._-], max 64 chars, no leading dot)")

/-- `hard_link_or_copy`; no directory can be linked or copied. -/
def hardLinkOrCopy (io : RestoreIo) (name : Bytes) (node : Node) (dest : DirFiles) :
    Except Error Unit × DirFiles :=
  if node ≠ .dir ∧ io.links name = true then (.ok (), Function.update dest name node.linked)
  else
    match node.read with
    | none => (.error
      (.io "the source path is neither a regular file nor a symlink to a regular file"), dest)
    | some contents =>
      match io.copy name with
      | some (len, msg) => (.error (.io msg), Function.update dest name (some (contents.take len)))
      | none =>
        match io.sync name with
        | some msg => (.error (.io msg), Function.update dest name (some contents))
        | none => (.ok (), Function.update dest name (some contents))

/-- The entries that are not taken over: the lock and the manifest. -/
def isSkipped (name : Bytes) : Bool :=
  decide (name = LOCK) ||
    (isUtf8 name && (decide (name = CURRENT) || manifestPrefix.isPrefixOf name))

/-- The loop over the source's entries. -/
def linkEntries (io : RestoreIo) (src : Directory) :
    List Bytes → DirFiles → Except Error Unit × DirFiles
  | [], dest => (.ok (), dest)
  | name :: names, dest =>
    if isSkipped name = true then linkEntries io src names dest
    else
      match src name with
      | none => (.error (.io "entity not found"), dest)
      | some node =>
        match hardLinkOrCopy io name node dest with
        | (.error e, dest) => (.error e, dest)
        | (.ok (), dest) => linkEntries io src names dest

section

variable (crc : Bytes → Fin (2 ^ 32)) (deriveRoot : Bytes → InstanceId)

/-- `StoreIdentity::root`. -/
def StoreIdentity.root (name : Bytes) : StoreIdentity := ⟨name, deriveRoot name, none⟩

/-- The manifest of the destination. -/
def restoredManifest (m : ManifestData) (newName : Option Bytes) : Except Error ManifestData :=
  if m.identity.isSome then
    .error (.invalidArgument
      "source is a live store, not a pristine archive; create a fork from it and restore that")
  else
    match m.pendingFork, newName with
    | some pf, some name => .ok { m with pendingFork := some { pf with name := name } }
    | some _, none =>
      .error (.invalidArgument
        ("archive descends from a named store; " ++
          "restore_to requires a new_name so each copy forks uniquely"))
    | none, some name => .ok { m with identity := some (StoreIdentity.root deriveRoot name) }
    | none, none => .ok m

/-- What comes before the destination is created. -/
def prepareRestore (io : RestoreIo) (src : Directory) (newName : Option Bytes) :
    Except Halt ManifestData := do
  (newName.elim (.ok ()) validateStoreName).mapError .error
  let (_, mdata) ← io.load.elim (ManifestData.load crc src.contents) fun msg =>
      .error (.error (.io msg))
  (restoredManifest deriveRoot mdata newName).mapError .error

/-- What comes after. -/
def fillDestination (io : RestoreIo) (src : Directory) (mdata : ManifestData) :
    Except Error Unit × DirFiles :=
  match io.readDir with
  | some msg => (.error (.io msg), fun _ => none)
  | none =>
    match linkEntries io src io.entries fun _ => none with
    | (.error e, dest) => (.error e, dest)
    | (.ok (), dest) =>
      match io.save with
      | some (op, msg) => (.error (.io msg), mdata.saveUpTo crc dest 1 op)
      | none =>
        match io.syncDir with
        | some msg => (.error (.io msg), mdata.save crc dest 1)
        | none => (.ok (), mdata.save crc dest 1)

/-- `restore_to`: the answer, and what is at the destination then. -/
def restoreTo (io : RestoreIo) (src : Directory) (dest : Option DirFiles) (newName : Option Bytes) :
    Except Halt Unit × Option DirFiles :=
  if dest.isSome then (.error (.error (.invalidArgument "destination already exists")), dest)
  else
    match prepareRestore crc deriveRoot io src newName with
    | .error e => (.error e, dest)
    | .ok mdata =>
      match io.createDir with
      | some msg => (.error (.error (.io msg)), dest)
      | none =>
        let r := fillDestination crc io src mdata
        (r.1.mapError .error, some r.2)

/-! ### All or nothing -/

/-- The names an open looks at through the manifest or not at all. -/
def isMeta (name : Bytes) : Bool := isSkipped name || decide (name = CURRENT_TMP)

/-- The name a store opens under; one that a pending fork has comes first. -/
def ManifestData.storeName (m : ManifestData) : Option Bytes :=
  m.pendingFork.map PendingFork.name <|> m.identity.map StoreIdentity.name

/-- The same state and lineage, under the name that was asked for. -/
structure Renamed (m : ManifestData) (newName : Option Bytes) (m' : ManifestData) : Prop where
  state : { m' with identity := m.identity, pendingFork := m.pendingFork } = m
  name : m'.storeName = newName
  lineage : m'.pendingFork.map (fun pf => (pf.parentInstanceId, pf.cutSeqno)) =
    m.pendingFork.map fun pf => (pf.parentInstanceId, pf.cutSeqno)

/-- The destination has the source manifest's state under the name that was asked for: the
manifest, and every other file. -/
structure Restored (src : Directory) (newName : Option Bytes) (files : DirFiles) : Prop where
  manifest : ∃ gen m m', ManifestData.load crc src.contents = .ok (gen, m) ∧
    ManifestData.load crc files = .ok (1, m') ∧ Renamed m newName m'
  files : ∀ name, isMeta name = false → files name = src.contents name

/-- **All or nothing**: an error leaves nothing at the destination, a success all of it. -/
structure AllOrNothing (io : RestoreIo) (src : Directory) (newName : Option Bytes) : Prop where
  nothing : ∀ e after, restoreTo crc deriveRoot io src none newName = (.error e, after) →
    after = none
  all : ∀ after, restoreTo crc deriveRoot io src none newName = (.ok (), after) →
    ∃ files, after = some files ∧ Restored crc src newName files

end

/-- The entry is taken over: it is not there to be, or there is a link or a whole copy. -/
def Transfers (io : RestoreIo) (src : Directory) (name : Bytes) : Prop :=
  isSkipped name = true ∨ ∃ node, src name = some node ∧
    (node ≠ .dir ∧ io.links name = true ∨ node.read.isSome ∧ io.copy name = none ∧
      io.sync name = none)

/-- What the entry reads as at the destination. -/
def transferred (io : RestoreIo) (src : Directory) (name : Bytes) : Option Bytes :=
  (src name).bind fun node => if node ≠ .dir ∧ io.links name = true then node.linked else node.read

/-- Nothing goes wrong once the destination is there: no step fails, no entry is passed
over, no symbolic link reads differently. -/
structure Undisturbed (io : RestoreIo) (src : Directory) : Prop where
  readDir : io.readDir = none
  transfers : ∀ name ∈ io.entries, Transfers io src name
  save : io.save = none
  syncDir : io.syncDir = none
  listed : ∀ name, isMeta name = false → (src.contents name).isSome → name ∈ io.entries
  alike : ∀ name ∈ io.entries, isMeta name = false → transferred io src name = src.contents name

/-! ### The loop -/

variable {crc : Bytes → Fin (2 ^ 32)} {deriveRoot : Bytes → InstanceId} {io : RestoreIo}
    {src : Directory}
  {newName : Option Bytes}

theorem hardLinkOrCopy_ok {name : Bytes} {node : Node} (dest : DirFiles)
    (hnode : src name = some node)
    (h : node ≠ .dir ∧ io.links name = true ∨ node.read.isSome ∧ io.copy name = none ∧
      io.sync name = none) :
    hardLinkOrCopy io name node dest =
      (.ok (), Function.update dest name (transferred io src name)) := by
  unfold hardLinkOrCopy transferred
  rw [hnode, Option.bind_some]
  by_cases hlink : node ≠ .dir ∧ io.links name = true
  · rw [if_pos hlink, if_pos hlink]
  · obtain ⟨hread, hcopy, hsync⟩ := h.resolve_left hlink
    obtain ⟨contents, hcontents⟩ := Option.isSome_iff_exists.mp hread
    rw [if_neg hlink, if_neg hlink, hcontents]
    simp only [hcopy, hsync]

theorem hardLinkOrCopy_error {name : Bytes} {node : Node} (dest : DirFiles)
    (h : ¬ (node ≠ .dir ∧ io.links name = true ∨ node.read.isSome ∧ io.copy name = none ∧
      io.sync name = none)) :
    ∃ e dest', hardLinkOrCopy io name node dest = (.error e, dest') := by
  obtain ⟨hlink, hcopied⟩ := not_or.mp h
  unfold hardLinkOrCopy
  rw [if_neg hlink]
  cases hread : node.read with
  | none => exact ⟨_, _, rfl⟩
  | some contents =>
    cases hcopy : io.copy name with
    | some f => exact ⟨_, _, rfl⟩
    | none =>
      cases hsync : io.sync name with
      | some msg => exact ⟨_, _, rfl⟩
      | none => exact absurd ⟨by rw [hread]; rfl, hcopy, hsync⟩ hcopied

/-- **The loop**, when every entry is taken over. -/
theorem linkEntries_ok {names : List Bytes} (dest : DirFiles)
    (h : ∀ name ∈ names, Transfers io src name) :
    linkEntries io src names dest =
      (.ok (), fun name => if name ∈ names ∧ isSkipped name = false then
        transferred io src name else dest name) := by
  induction names generalizing dest with
  | nil => simp [linkEntries]
  | cons name names ih =>
    obtain ⟨hname, hnames⟩ := List.forall_mem_cons.mp h
    unfold linkEntries
    by_cases hskip : isSkipped name = true
    · rw [if_pos hskip, ih dest hnames]
      refine Prod.ext rfl (funext fun other => if_congr ?_ rfl rfl)
      refine ⟨fun ho => ⟨List.mem_cons_of_mem _ ho.1, ho.2⟩, fun ho => ⟨?_, ho.2⟩⟩
      rcases List.mem_cons.mp ho.1 with rfl | hmem
      · rw [hskip] at ho
        exact absurd ho.2 (by decide)
      · exact hmem
    · -- the entry is taken over, and the rest does not touch it
      obtain ⟨node, hnode, hmade⟩ := hname.resolve_left hskip
      rw [if_neg hskip, hnode]
      simp only [hardLinkOrCopy_ok dest hnode hmade]
      rw [ih _ hnames]
      refine Prod.ext rfl (funext fun other => ?_)
      have hkept := Bool.eq_false_iff.mpr hskip
      simp only
      by_cases hmem : other ∈ names ∧ isSkipped other = false
      · rw [if_pos hmem, if_pos ⟨List.mem_cons_of_mem _ hmem.1, hmem.2⟩]
      · rw [if_neg hmem]
        by_cases heq : other = name
        · rw [heq, Function.update_self, if_pos ⟨List.mem_cons_self, hkept⟩]
        · rw [Function.update_of_ne heq, if_neg]
          rintro ⟨ho, hskipped⟩
          exact hmem ⟨(List.mem_cons.mp ho).resolve_left heq, hskipped⟩

/-- An entry that is not taken over ends the loop. -/
theorem linkEntries_error {names : List Bytes} (dest : DirFiles)
    (h : ¬ ∀ name ∈ names, Transfers io src name) :
    ∃ e dest', linkEntries io src names dest = (.error e, dest') := by
  induction names generalizing dest with
  | nil => exact absurd (fun name hname => absurd hname List.not_mem_nil) h
  | cons name names ih =>
    have hrest : Transfers io src name → ¬ ∀ name ∈ names, Transfers io src name :=
      fun hname hnames =>
      h (List.forall_mem_cons.mpr ⟨hname, hnames⟩)
    unfold linkEntries
    by_cases hskip : isSkipped name = true
    · rw [if_pos hskip]
      exact ih dest (hrest (Or.inl hskip))
    · rw [if_neg hskip]
      cases hnode : src name with
      | none => exact ⟨_, _, rfl⟩
      | some node =>
        by_cases hmade : node ≠ .dir ∧ io.links name = true ∨
            node.read.isSome ∧ io.copy name = none ∧ io.sync name = none
        · simp only [hardLinkOrCopy_ok dest hnode hmade]
          exact ih _ (hrest (Or.inr ⟨node, hnode, hmade⟩))
        · obtain ⟨e, dest', he⟩ := hardLinkOrCopy_error dest hmade
          simp only [he]
          exact ⟨e, dest', rfl⟩

/-! ### The whole call -/

/-- A save is seen only by those that look for manifests. -/
theorem save_other {m : ManifestData} {dest : DirFiles} {name : Bytes} (h : isMeta name = false) :
    m.save crc dest 1 name = dest name := by
  obtain ⟨hskip, htmp⟩ := Bool.or_eq_false_iff.mp h
  have htmp : name ≠ CURRENT_TMP := of_decide_eq_false htmp
  have hcurrent : name ≠ CURRENT := by
    rintro rfl
    exact absurd hskip (by decide)
  have hmanifest : name ≠ manifestName 1 := by
    rintro rfl
    exact absurd hskip (by decide)
  unfold ManifestData.save writeCurrent
  simp only [Function.update_of_ne htmp, Function.update_of_ne hcurrent,
    Function.update_of_ne hmanifest]

theorem isName_of_validateStoreName {name : Bytes} (h : validateStoreName name = .ok ()) :
    IsName name := by
  unfold validateStoreName at h
  split at h
  · rename_i hvalid
    obtain ⟨-, hlen, hchars, -⟩ := hvalid
    refine ⟨by omega, isUtf8_of_ascii fun b hb => ?_⟩
    have hchar := hchars b hb
    simp only [byteWithin, Bool.and_eq_true, decide_eq_true_eq] at hchar
    rcases hchar with h | h | h | rfl | rfl | rfl <;> first | omega | decide
  · cases h

/-- The manifest of the destination can be written. -/
theorem holdable_restoredManifest (hroot : ∀ name, (deriveRoot name).length = INSTANCE_ID_LEN)
    {m m' : ManifestData} (hm : m.Holdable) (hname : ∀ name ∈ newName, IsName name)
    (h : restoredManifest deriveRoot m newName = .ok m') :
    m'.Holdable := by
  unfold restoredManifest at h
  split at h
  · exact nomatch h
  · cases hpf : m.pendingFork with
    | some pf =>
      have hheld := hm.pendingFork pf hpf
      cases newName with
      | none =>
        rw [hpf] at h
        exact nomatch h
      | some name =>
        rw [hpf] at h
        obtain rfl := Except.ok.inj h
        refine { hm with pendingFork := fun pf' hpf' => ?_ }
        obtain rfl := Option.some_inj.mp hpf'
        exact ⟨hname name rfl, hheld.parentInstanceId, hheld.cutSeqno⟩
    | none =>
      -- a pending fork needs a name; without one a new name makes a new root
      cases newName with
      | none =>
        rw [hpf] at h
        exact Except.ok.inj h ▸ hm
      | some name =>
        rw [hpf] at h
        obtain rfl := Except.ok.inj h
        refine { hm with
          identity := fun id hid => ?_, pendingFork := fun pf hpf => absurd hpf (by simp) }
        obtain rfl := Option.some_inj.mp hid
        exact ⟨hname name rfl, hroot name, fun p hp => absurd hp (by simp [StoreIdentity.root])⟩

theorem renamed_restoredManifest {m m' : ManifestData}
    (h : restoredManifest deriveRoot m newName = .ok m') :
    Renamed m newName m' := by
  unfold restoredManifest at h
  split at h
  · exact nomatch h
  · rename_i hlive
    have hidentity : m.identity = none := by simpa using hlive
    cases hpf : m.pendingFork with
    | some pf =>
      cases newName with
      | none =>
        rw [hpf] at h
        exact nomatch h
      | some name =>
        rw [hpf] at h
        obtain rfl := Except.ok.inj h
        exact ⟨rfl, rfl, by rw [hpf]; rfl⟩
    | none =>
      cases newName with
      | none =>
        rw [hpf] at h
        obtain rfl := Except.ok.inj h
        exact ⟨rfl, by rw [ManifestData.storeName, hpf, hidentity]; rfl, rfl⟩
      | some name =>
        rw [hpf] at h
        obtain rfl := Except.ok.inj h
        exact ⟨rfl, rfl, by rw [hpf]⟩

/-- What the checks before the destination is created come to. -/
theorem prepareRestore_ok {m' : ManifestData}
    (h : prepareRestore crc deriveRoot io src newName = .ok m') :
    (∀ name ∈ newName, IsName name) ∧ ∃ gen m, ManifestData.load crc src.contents = .ok (gen, m) ∧
      restoredManifest deriveRoot m newName = .ok m' := by
  obtain ⟨_, hvalid, h⟩ := Decoder.bind_eq_ok.mp h
  obtain ⟨⟨gen, m⟩, hload, h⟩ := Decoder.bind_eq_ok.mp h
  refine ⟨fun name hname => isName_of_validateStoreName ?_, gen, m, ?_, ?_⟩
  · obtain rfl := Option.mem_def.mp hname
    rw [Option.elim_some] at hvalid
    cases hok : validateStoreName name with
    | ok u => rfl
    | error e =>
      rw [hok] at hvalid
      exact nomatch hvalid
  · cases hio : io.load with
    | none => rwa [hio] at hload
    | some msg =>
      rw [hio] at hload
      exact nomatch hload
  · have h : (restoredManifest deriveRoot m newName).mapError Halt.error = .ok m' := h
    cases hok : restoredManifest deriveRoot m newName with
    | ok m'' =>
      rw [hok] at h
      rw [Except.ok.inj h]
    | error e =>
      rw [hok] at h
      exact nomatch h

/-- What the loop leaves of an empty destination. -/
def taken (io : RestoreIo) (src : Directory) : DirFiles := fun name =>
  if name ∈ io.entries ∧ isSkipped name = false then transferred io src name else none

theorem fillDestination_ok {m : ManifestData} (hreadDir : io.readDir = none)
    (htransfers : ∀ name ∈ io.entries, Transfers io src name) (hsave : io.save = none)
    (hsync : io.syncDir = none) :
    fillDestination crc io src m = (.ok (), m.save crc (taken io src) 1) := by
  unfold fillDestination
  simp only [hreadDir, linkEntries_ok _ htransfers, hsave, hsync]
  rfl

theorem fillDestination_error {m : ManifestData}
    (h : ¬ (io.readDir = none ∧ (∀ name ∈ io.entries, Transfers io src name) ∧
    io.save = none ∧ io.syncDir = none)) : ∃ e dest,
      fillDestination crc io src m = (.error e, dest) := by
  unfold fillDestination
  cases hreadDir : io.readDir with
  | some msg => exact ⟨_, _, rfl⟩
  | none =>
    by_cases htransfers : ∀ name ∈ io.entries, Transfers io src name
    · simp only [linkEntries_ok _ htransfers]
      cases hsave : io.save with
      | some f => exact ⟨_, _, rfl⟩
      | none =>
        cases hsync : io.syncDir with
        | some msg => exact ⟨_, _, rfl⟩
        | none => exact absurd ⟨hreadDir, htransfers, hsave, hsync⟩ h
    · obtain ⟨e, dest, he⟩ := linkEntries_error (fun _ => none) htransfers
      simp only [he]
      exact ⟨e, dest, rfl⟩

/-- Every file is taken over as it is exactly if none is passed over or reads differently. -/
theorem taken_eq_iff : (∀ name, isMeta name = false → taken io src name = src.contents name) ↔
    (∀ name, isMeta name = false → (src.contents name).isSome → name ∈ io.entries) ∧
      ∀ name ∈ io.entries, isMeta name = false → transferred io src name = src.contents name := by
  have htaken : ∀ name, isMeta name = false →
      taken io src name = if name ∈ io.entries then transferred io src name else none :=
        fun name hname => by
    have hskip := (Bool.or_eq_false_iff.mp hname).1
    exact if_congr ⟨And.left, fun hmem => ⟨hmem, hskip⟩⟩ rfl rfl
  constructor
  · intro h
    refine ⟨fun name hname hsome => ?_, fun name hmem hname => ?_⟩
    · by_contra hmem
      rw [← h name hname, htaken name hname, if_neg hmem] at hsome
      exact absurd hsome (by simp)
    · rw [← h name hname, htaken name hname, if_pos hmem]
  · rintro ⟨hlisted, halike⟩ name hname
    rw [htaken name hname]
    split
    · rename_i hmem
      exact halike name hmem hname
    · rename_i hmem
      exact (Option.not_isSome_iff_eq_none.mp fun hsome => hmem (hlisted name hname hsome)).symm

theorem allOrNothing_of_error {e : Halt} {after : Option DirFiles}
    (hrun : restoreTo crc deriveRoot io src none newName = (.error e, after))
    (hafter : after = none) :
    AllOrNothing crc deriveRoot io src newName where
  nothing e' after' h := by
    rw [hrun] at h
    exact (Prod.mk.inj h).2 ▸ hafter
  all after' h := by
    rw [hrun] at h
    exact nomatch (Prod.mk.inj h).1

theorem allOrNothing_of_ok {files : DirFiles}
    (hrun : restoreTo crc deriveRoot io src none newName = (.ok (), some files))
    (hrestored : Restored crc src newName files) : AllOrNothing crc deriveRoot io src newName where
  nothing e' after' h := by
    rw [hrun] at h
    exact nomatch (Prod.mk.inj h).1
  all after' h := by
    rw [hrun] at h
    exact ⟨files, (Prod.mk.inj h).2.symm, hrestored⟩

theorem AllOrNothing.gone (h : AllOrNothing crc deriveRoot io src newName)
    (herror : (restoreTo crc deriveRoot io src none newName).1.isOk = false) :
    (restoreTo crc deriveRoot io src none newName).2 = none := by
  cases hanswer : (restoreTo crc deriveRoot io src none newName).1 with
  | error e => exact h.nothing e _ (Prod.ext hanswer rfl)
  | ok u =>
    rw [hanswer] at herror
    exact absurd herror (by simp [Except.isOk, Except.toBool])

/-- **Restoring is all or nothing** exactly if nothing goes wrong once the destination is
there; one that was there before is left as it is. -/
theorem restore_all_or_nothing (hroot : ∀ name, (deriveRoot name).length = INSTANCE_ID_LEN)
    (hsize : ∀ m', prepareRestore crc deriveRoot io src newName = .ok m' →
      (m'.encode crc).length < 2 ^ 64) :
    (∀ files, restoreTo crc deriveRoot io src (some files) newName =
      (.error (.error (.invalidArgument "destination already exists")), some files)) ∧
    (AllOrNothing crc deriveRoot io src newName ↔
      ∀ m', prepareRestore crc deriveRoot io src newName = .ok m' → io.createDir = none →
        Undisturbed io src) := by
  refine ⟨fun files => rfl, ?_⟩
  have hrun : restoreTo crc deriveRoot io src none newName =
      match prepareRestore crc deriveRoot io src newName with
      | .error e => (.error e, none)
      | .ok mdata =>
        match io.createDir with
        | some msg => (.error (.error (.io msg)), none)
        | none => ((fillDestination crc io src mdata).1.mapError .error,
          some (fillDestination crc io src mdata).2) := rfl
  cases hprepare : prepareRestore crc deriveRoot io src newName with
  | error e =>
    rw [hprepare] at hrun
    exact iff_of_true (allOrNothing_of_error hrun rfl) fun m' h => nomatch h
  | ok m' =>
    rw [hprepare] at hrun
    cases hcreate : io.createDir with
    | some msg =>
      rw [hcreate] at hrun
      exact iff_of_true (allOrNothing_of_error hrun rfl) fun _ _ h => nomatch h
    | none =>
      rw [hcreate] at hrun
      simp only at hrun
      obtain ⟨hname, gen, m, hload, hrestored⟩ := prepareRestore_ok hprepare
      have hm : m.Holdable := ManifestData.load_holdable hload
      have hsaved : ∀ dest, ManifestData.load crc (m'.save crc dest 1) = .ok (1, m') := fun dest =>
        ManifestData.load_save dest (by decide) (holdable_restoredManifest hroot hm hname hrestored)
          (hsize m' hprepare)
      by_cases hends : io.readDir = none ∧ (∀ name ∈ io.entries, Transfers io src name) ∧
          io.save = none ∧ io.syncDir = none
      · obtain ⟨hreadDir, htransfers, hsave, hsync⟩ := hends
        rw [fillDestination_ok hreadDir htransfers hsave hsync] at hrun
        constructor
        · intro hall _ _ _
          obtain ⟨files, hfiles, hrest⟩ := hall.all _ hrun
          obtain rfl := Option.some_inj.mp hfiles
          obtain ⟨hlisted, halike⟩ :=
            taken_eq_iff.mp fun name hmeta => (save_other hmeta).symm.trans (hrest.files name hmeta)
          exact ⟨hreadDir, htransfers, hsave, hsync, hlisted, halike⟩
        · intro hclean
          have hund := hclean m' rfl rfl
          refine allOrNothing_of_ok hrun
            ⟨⟨gen, m, m', hload, hsaved _, renamed_restoredManifest hrestored⟩,
            fun name hmeta => ?_⟩
          exact (save_other hmeta).trans (taken_eq_iff.mpr ⟨hund.listed, hund.alike⟩ name hmeta)
      · -- the destination is there, and the call fails
        have herror : ∃ e dest, fillDestination crc io src m' = (.error e, dest) :=
          fillDestination_error hends
        obtain ⟨e, dest, he⟩ := herror
        rw [he] at hrun
        refine iff_of_false (fun hall => nomatch hall.nothing _ _ hrun) fun hclean => hends ?_
        have hund := hclean m' rfl rfl
        exact ⟨hund.readDir, hund.transfers, hund.save, hund.syncDir⟩

/-! ### Two calls -/

/-- Nothing fails. -/
def calmIo (entries : List Bytes) : RestoreIo :=
  ⟨none, none, none, entries, fun _ => true, fun _ => none, fun _ => none, none, none⟩

/-- A directory with this manifest and some other entries. -/
def storeDirectory (m : ManifestData) (others : Directory) : Directory := fun name =>
  others name <|> (m.save crc32 (fun _ => none) 1 name).map .file

/-- An archive of a named store: one table, one value-log file. -/
def namedArchive : ManifestData :=
  ⟨5, 9, 5, [[⟨4, [2]⟩], []], [1], 1, [], [], none, some ⟨List.replicate 16 7, 9, [97]⟩, []⟩

def TABLE : Bytes := ascii ['s', 's', 't', '-', '0', '0', '0', '0', '0', '2', '.', 't', 'b', 'l']

def archiveFiles : Directory :=
  fun name => if name = TABLE then some (.file [byte 1, byte 2]) else none

def archiveIo : RestoreIo := calmIo [CURRENT, manifestName 1, TABLE]

/-- The ids are of no account here. -/
def zeroRoot (_ : Bytes) : InstanceId := List.replicate 16 0

theorem undisturbed_archive : Undisturbed archiveIo (storeDirectory namedArchive archiveFiles) := by
  have htable : storeDirectory namedArchive archiveFiles TABLE = some (.file [byte 1, byte 2]) := by
    decide +kernel
  refine ⟨rfl, fun name hname => ?_, rfl, rfl,
    fun name hmeta hsome => ?_, fun name hname hmeta => ?_⟩
  · rcases List.mem_cons.mp hname with rfl | hname
    · exact Or.inl (by decide +kernel)
    · rcases List.mem_cons.mp hname with rfl | hname
      · exact Or.inl (by decide +kernel)
      · obtain rfl := List.mem_singleton.mp hname
        exact Or.inr ⟨_, htable, Or.inl ⟨by simp, rfl⟩⟩
  · by_cases heq : name = TABLE
    · rw [heq]
      exact List.mem_cons_of_mem _ (List.mem_cons_of_mem _ (List.mem_singleton_self _))
    · -- nothing else is in the directory
      have hnone : storeDirectory namedArchive archiveFiles name = none := by
        unfold storeDirectory archiveFiles
        rw [if_neg heq, save_other hmeta]
        rfl
      unfold Directory.contents at hsome
      rw [hnone] at hsome
      exact absurd hsome Bool.false_ne_true
  · rcases List.mem_cons.mp hname with rfl | hname
    · exact absurd hmeta (by decide +kernel)
    · rcases List.mem_cons.mp hname with rfl | hname
      · exact absurd hmeta (by decide +kernel)
      · obtain rfl := List.mem_singleton.mp hname
        unfold transferred Directory.contents
        rw [htable]
        rfl

/-- The archive restored under a name of its own. -/
theorem restore_all_or_nothing_archive :
    (restoreTo crc32 zeroRoot archiveIo (storeDirectory namedArchive archiveFiles) none
      (some [98])).1.isOk = true ∧
      AllOrNothing crc32 zeroRoot archiveIo (storeDirectory namedArchive archiveFiles)
        (some [98]) := by
  have hlen : (prepareRestore crc32 zeroRoot archiveIo (storeDirectory namedArchive archiveFiles)
      (some [98])).toOption.map
      (fun m => decide ((m.encode crc32).length < 1000)) = some true := by decide +kernel
  have hroot : ∀ name, (zeroRoot name).length = INSTANCE_ID_LEN := fun _ => List.length_replicate
  have hsize : ∀ m', prepareRestore crc32 zeroRoot archiveIo
      (storeDirectory namedArchive archiveFiles) (some [98]) =
      .ok m' → (m'.encode crc32).length < 2 ^ 64 := by
    intro m' hm'
    rw [hm'] at hlen
    have hsmall : (m'.encode crc32).length < 1000 := of_decide_eq_true (Option.some_inj.mp hlen)
    omega
  exact ⟨by decide +kernel,
    (restore_all_or_nothing hroot hsize).2.mpr fun _ _ _ => undisturbed_archive⟩

/-- An unnamed store that has archives. -/
def unnamedStore : ManifestData := ⟨5, 9, 3, [[⟨4, [2]⟩], []], [1], 1, [], [], none, none, []⟩

def ARCHIVE : Bytes := ascii ['a', 'r', 'c', 'h', 'i', 'v', 'e']

def withArchives : Directory := fun name => if name = ARCHIVE then some .dir else none

def archivesIo : RestoreIo := calmIo [CURRENT, manifestName 1, ARCHIVE]

/-- **A destination that stays**: the loop comes to the directory of archives, and the call
fails; so will the next one. -/
theorem restore_leaves_destination :
    ((restoreTo crc32 zeroRoot archivesIo (storeDirectory unnamedStore withArchives) none
      none).1.isOk = false ∧
      (restoreTo crc32 zeroRoot archivesIo (storeDirectory unnamedStore withArchives) none
        none).2.isSome = true) ∧
    ¬ AllOrNothing crc32 zeroRoot archivesIo (storeDirectory unnamedStore withArchives) none := by
  have hrun : (restoreTo crc32 zeroRoot archivesIo (storeDirectory unnamedStore withArchives) none
      none).1.isOk = false ∧
      (restoreTo crc32 zeroRoot archivesIo (storeDirectory unnamedStore withArchives) none
        none).2.isSome = true := by
    decide +kernel
  refine ⟨hrun, fun hall => ?_⟩
  have hthere := hrun.2
  rw [hall.gone hrun.1] at hthere
  exact absurd hthere Bool.false_ne_true

end Fluent31
