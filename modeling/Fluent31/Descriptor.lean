/-
Module descriptors (`descriptor.rs` of the GraphQL crate).

A module describes its part of the schema in JSON: typed arguments, object types,
an output type and a feed.  `parseDescriptor` takes a descriptor apart and refuses
what the schema could not hold.

* `parseTypeRef_text`, `parseTypeRef_valid` — type references: a rendered one is
  read back, and what is read is well formed;
* `parseFields_iff` — field lists: which ones are read, and what is read;
* `descriptor_exact` — the schemas that descriptors declare are exactly the valid
  ones: closed under references, without clashes, within the limits.
-/
import Fluent31.Coding
import Fluent31.Lib.Distinct

namespace Fluent31

namespace Graphql

open Checks

/-! ### JSON -/

/-- A JSON value; `N` are the numbers, and an object's members stand in the order of
the map. -/
inductive Json (N : Type)
  | null
  | bool (b : Bool)
  | number (n : N)
  | string (s : String)
  | array (items : List (Json N))
  | object (members : List (String × Json N))

namespace Json

variable {N : Type}

def asStr : Json N → Option String
  | string s => some s
  | _ => none

def asArray : Json N → Option (List (Json N))
  | array items => some items
  | _ => none

def asObject : Json N → Option (List (String × Json N))
  | object members => some members
  | _ => none

/-- A member of an object. -/
def get (v : Json N) (key : String) : Option (Json N) :=
  v.asObject.bind fun members => members.lookup key

/-- Present, and not null. -/
def given (v : Json N) (key : String) : Option (Json N) :=
  match v.get key with
  | none => none
  | some null => none
  | some raw => some raw

end Json

/-! ### Names -/

def MAX_DESCRIPTOR_BYTES : ℕ := 64 * 1024

def MAX_TYPES : ℕ := 32

def MAX_FIELDS : ℕ := 64

def MAX_ARGS : ℕ := 16

def SCALARS : List String := ["String", "Int", "Float", "Boolean", "U64", "Json"]

/-- Root field names of the built-in API. -/
def RESERVED_FIELDS : List String :=
  ["changes", "get", "scan", "wasm", "wasmOnce", "modules", "stats", "forks", "pins", "triggers",
    "snapshotSeqno",
    "seqno", "put", "delete", "writeBatch", "wasmExecute", "wasmExecuteOnce", "installModule",
      "uninstallModule",
    "fork", "deleteFork", "pin", "unpin", "createTrigger", "deleteTrigger", "flush",
      "compactAll", "gcVlog",
    "reloadSchema", "syncWal"]

/-- Type names of the built-in schema. -/
def RESERVED_TYPES : List String :=
  ["Query", "Mutation", "Subscription", "Bytes", "BytesInput", "U64", "Json", "Pair", "ScanPage",
    "ChangeEvent",
    "ChangeKind", "Module", "Fork", "Pin", "Trigger", "GcResult", "LevelStats", "Stats", "WriteOp",
      "PutOp", "String",
    "Int", "Float", "Boolean", "ID"]

/-- The characters of a name: ASCII letters, digits and the underscore. -/
def isNameChar (c : Char) : Bool := c == '_' || c.isAlphanum

def isGraphqlName (s : String) : Bool :=
  match s.toList with
  | [] => false
  | c :: rest => (c == '_' || c.isAlpha) && rest.all isNameChar && !(['_', '_'].isPrefixOf s.toList)

/-! ### Type references -/

/-- A type with at most one list level. -/
structure TypeRefSpec where
  base : String
  list : Bool
  /-- Elements are not null; it means something only for lists. -/
  elemNn : Bool
  /-- Not null. -/
  nn : Bool
  deriving DecidableEq

/-- `char::is_whitespace`. -/
def isWhitespace (c : Char) : Bool :=
  let n := c.toNat
  9 ≤ n && n ≤ 13 || n == 32 || n == 0x85 || n == 0xA0 || n == 0x1680 || 0x2000 ≤ n && n ≤ 0x200A ||
    n == 0x2028 || n == 0x2029 || n == 0x202F || n == 0x205F || n == 0x3000

def trim (s : List Char) : List Char :=
  ((s.dropWhile isWhitespace).reverse.dropWhile isWhitespace).reverse

/-- `strip_suffix`. -/
def chopLast (c : Char) (s : List Char) : Option (List Char) :=
  if s.getLast? = some c then some s.dropLast else none

/-- A trailing `!`. -/
def stripBang (s : List Char) : List Char × Bool :=
  match chopLast '!' s with
  | some rest => (trim rest, true)
  | none => (s, false)

section

-- how `{:?}` shows a string
variable (debug : String → String)

/-- The name of a type. -/
def parseBase (base : List Char) : Except String String :=
  let name := String.ofList base
  if isGraphqlName name then .ok name else .error ("invalid type name " ++ debug name)

def parseTypeRef (s : String) : Except String TypeRefSpec :=
  let s := trim s.toList
  let inner := stripBang s
  match inner.1 with
  | '[' :: body =>
    match chopLast ']' body with
    | none => .error ("malformed type " ++ debug (String.ofList s))
    | some body =>
      let elem := stripBang (trim body)
      if elem.1.head? = some '[' then
        .error ("nested lists are not supported: " ++ debug (String.ofList s))
      else (parseBase debug elem.1).map fun base => ⟨base, true, elem.2, inner.2⟩
  | base => (parseBase debug base).map fun base => ⟨base, false, false, inner.2⟩

end

/-- How a type reference is written. -/
def TypeRefSpec.text (t : TypeRefSpec) : List Char :=
  let bang := fun b : Bool => if b then ['!'] else []
  (if t.list then '[' :: (t.base.toList ++ bang t.elemNn ++ [']']) else t.base.toList) ++ bang t.nn

/-- The base is a name, and only lists say something of their elements. -/
structure TypeRefSpec.Valid (t : TypeRefSpec) : Prop where
  name : isGraphqlName t.base = true
  plain : t.list = false → t.elemNn = false

theorem isNameChar_range {c : Char} (h : isNameChar c = true) :
    c.toNat = 95 ∨ 48 ≤ c.toNat ∧ c.toNat ≤ 57 ∨ 65 ≤ c.toNat ∧ c.toNat ≤ 90 ∨ 97 ≤ c.toNat ∧
      c.toNat ≤ 122 := by
  unfold isNameChar Char.isAlphanum Char.isAlpha Char.isUpper Char.isLower Char.isDigit at h
  simp only [Bool.or_eq_true, Bool.and_eq_true, beq_iff_eq, decide_eq_true_eq, ge_iff_le,
    UInt32.le_iff_toNat_le] at h
  change c = '_' ∨ ((65 ≤ c.toNat ∧ c.toNat ≤ 90) ∨ 97 ≤ c.toNat ∧ c.toNat ≤ 122) ∨ 48 ≤ c.toNat ∧
    c.toNat ≤ 57 at h
  rcases h with rfl | h
  · exact Or.inl rfl
  · omega

theorem isNameChar_plain {c : Char} (h : isNameChar c = true) :
    isWhitespace c = false ∧ c ≠ '!' ∧ c ≠ '[' ∧ c ≠ ']' := by
  have hrange := isNameChar_range h
  refine ⟨?_, ?_, ?_, ?_⟩
  · unfold isWhitespace
    simp only [Bool.or_eq_false_iff, Bool.and_eq_false_iff, decide_eq_false_iff_not,
      beq_eq_false_iff_ne]
    omega
  all_goals
    rintro rfl
    revert hrange
    decide

theorem isGraphqlName_chars {s : String} (h : isGraphqlName s = true) :
    s.toList ≠ [] ∧ ∀ c ∈ s.toList, isNameChar c = true := by
  unfold isGraphqlName at h
  cases hs : s.toList with
  | nil =>
    rw [hs] at h
    exact absurd h Bool.false_ne_true
  | cons c rest =>
    rw [hs] at h
    simp only [Bool.and_eq_true, Bool.or_eq_true, beq_iff_eq, List.all_eq_true] at h
    obtain ⟨⟨hc, hrest⟩, -⟩ := h
    refine ⟨List.cons_ne_nil _ _, fun x hx => ?_⟩
    rcases List.mem_cons.mp hx with rfl | hx
    · unfold isNameChar Char.isAlphanum
      rcases hc with rfl | hc
      · rfl
      · rw [hc, Bool.true_or, Bool.or_true]
    · exact hrest x hx

theorem trim_eq {s : List Char} (h : ∀ c ∈ s, isWhitespace c = false) : trim s = s := by
  have hdrop : ∀ l : List Char, (∀ c ∈ l, isWhitespace c = false) →
      l.dropWhile isWhitespace = l := by
    intro l hl
    cases l with
    | nil => rfl
    | cons c l => exact List.dropWhile_cons_of_neg (by simp [hl c List.mem_cons_self])
  unfold trim
  rw [hdrop s h, hdrop s.reverse fun c hc => h c (List.mem_reverse.mp hc), List.reverse_reverse]

theorem chopLast_concat (c : Char) (s : List Char) : chopLast c (s ++ [c]) = some s := by
  unfold chopLast
  rw [List.getLast?_concat, if_pos rfl, List.dropLast_concat]

variable {debug : String → String}

theorem parseBase_eq {base : List Char} {name : String} :
    parseBase debug base = .ok name ↔ name.toList = base ∧ isGraphqlName name = true := by
  unfold parseBase
  by_cases hname : isGraphqlName (String.ofList base) = true
  · rw [if_pos hname]
    constructor
    · rintro h
      obtain rfl := Except.ok.inj h
      exact ⟨String.toList_ofList, hname⟩
    · rintro ⟨rfl, -⟩
      exact congrArg _ String.ofList_toList
  · rw [if_neg hname]
    refine iff_of_false (by simp) ?_
    rintro ⟨rfl, hvalid⟩
    exact hname (String.ofList_toList ▸ hvalid)

theorem stripBang_eq {s : List Char} (hs : trim s = s) (hlast : s.getLast? ≠ some '!') (b : Bool) :
    stripBang (s ++ if b then ['!'] else []) = (s, b) := by
  unfold stripBang
  cases b with
  | true =>
    rw [if_pos rfl, chopLast_concat]
    exact Prod.ext hs rfl
  | false =>
    rw [if_neg Bool.false_ne_true, List.append_nil, show chopLast '!' s = none from if_neg hlast]

/-- **A rendered type reference is read back.** -/
theorem parseTypeRef_text {t : TypeRefSpec} (h : t.Valid) :
    parseTypeRef debug (String.ofList t.text) = .ok t := by
  obtain ⟨hne, hchars⟩ := isGraphqlName_chars h.name
  have hbase : parseBase debug t.base.toList = .ok t.base := parseBase_eq.mpr ⟨rfl, h.name⟩
  have hplain := fun c hc => isNameChar_plain (hchars c hc)
  -- no white space anywhere
  have htrim : ∀ l, (∀ c ∈ l, c ∈ t.base.toList ∨ c = '!' ∨ c = '[' ∨ c = ']') → trim l = l := by
    intro l hl
    refine trim_eq fun c hc => ?_
    rcases hl c hc with hc | rfl | rfl | rfl
    · exact (hplain c hc).1
    · rfl
    · rfl
    · rfl
  have hbang : ∀ b : Bool, ∀ c ∈ (if b then ['!'] else [] : List Char), c = '!' := by
    intro b c hc
    cases b with
    | true => exact List.mem_singleton.mp hc
    | false => exact absurd hc List.not_mem_nil
  have hlast : t.base.toList.getLast? ≠ some '!' :=
    fun hc => (hplain '!' (List.mem_of_getLast? hc)).2.1 rfl
  have htrimBase : trim t.base.toList = t.base.toList := htrim _ fun c hc => Or.inl hc
  unfold parseTypeRef
  simp only [String.toList_ofList]
  cases hlist : t.list with
  | false =>
    have htext : t.text = t.base.toList ++ if t.nn then ['!'] else [] := by
      unfold TypeRefSpec.text
      rw [hlist]
      rfl
    have hwhole : trim t.text = t.text := htrim _ fun c hc => by
      rw [htext] at hc
      rcases List.mem_append.mp hc with hc | hc
      · exact Or.inl hc
      · exact Or.inr (Or.inl (hbang _ c hc))
    rw [hwhole, htext, stripBang_eq htrimBase hlast]
    -- a name does not begin with a bracket
    have hopen : ∀ body, t.base.toList ≠ '[' :: body := fun body hc =>
      (hplain '[' (hc ▸ List.mem_cons_self)).2.2.1 rfl
    split
    · rename_i body hbody
      exact absurd hbody (hopen body)
    · rw [hbase]
      obtain ⟨base, list, elemNn, nn⟩ := t
      obtain rfl : list = false := hlist
      obtain rfl : elemNn = false := h.plain rfl
      rfl
  | true =>
    have htext : t.text = '[' :: (t.base.toList ++ (if t.elemNn then ['!'] else []) ++ [']']) ++
        if t.nn then ['!'] else [] := by
      unfold TypeRefSpec.text
      rw [hlist]
      rfl
    have hbody : ∀ c ∈ t.base.toList ++ (if t.elemNn then ['!'] else []), c ∈ t.base.toList ∨
        c = '!' ∨ c = '[' ∨ c = ']' := by
      intro c hc
      rcases List.mem_append.mp hc with hc | hc
      · exact Or.inl hc
      · exact Or.inr (Or.inl (hbang _ c hc))
    have hinner : ∀ c ∈ '[' :: (t.base.toList ++ (if t.elemNn then ['!'] else []) ++ [']']),
        c ∈ t.base.toList ∨ c = '!' ∨ c = '[' ∨ c = ']' := by
      intro c hc
      rcases List.mem_cons.mp hc with rfl | hc
      · exact Or.inr (Or.inr (Or.inl rfl))
      · rcases List.mem_append.mp hc with hc | hc
        · exact hbody c hc
        · exact Or.inr (Or.inr (Or.inr (List.mem_singleton.mp hc)))
    have hwhole : trim t.text = t.text := htrim _ fun c hc => by
      rw [htext] at hc
      rcases List.mem_append.mp hc with hc | hc
      · exact hinner c hc
      · exact Or.inr (Or.inl (hbang _ c hc))
    have hclose : ('[' :: (t.base.toList ++ (if t.elemNn then ['!'] else []) ++ [']'])).getLast? ≠
        some '!' := by
      rw [← List.cons_append, List.getLast?_concat]
      decide
    have hhead : t.base.toList.head? ≠ some '[' := fun hc =>
      (hplain '[' (List.mem_of_mem_head? hc)).2.2.1 rfl
    rw [hwhole, htext, stripBang_eq (htrim _ hinner) hclose]
    simp only [chopLast_concat, htrim _ hbody, stripBang_eq htrimBase hlast, if_neg hhead, hbase]
    obtain ⟨base, list, elemNn, nn⟩ := t
    obtain rfl : list = true := hlist
    rfl

/-- **What is read is well formed.** -/
theorem parseTypeRef_valid {s : String} {t : TypeRefSpec} (h : parseTypeRef debug s = .ok t) :
    t.Valid := by
  unfold parseTypeRef at h
  simp only at h
  split at h
  · split at h
    · exact absurd h (by simp)
    · split_ifs at h
      obtain ⟨base, hbase, rfl⟩ := map_eq_ok.mp h
      exact ⟨(parseBase_eq.mp hbase).2, fun hlist => absurd hlist (by simp)⟩
  · obtain ⟨base, hbase, rfl⟩ := map_eq_ok.mp h
    exact ⟨(parseBase_eq.mp hbase).2, fun _ => rfl⟩

/-! ### Descriptors -/

structure FieldSpec where
  name : String
  ty : TypeRefSpec
  description : Option String
  deriving DecidableEq

structure ObjectSpec where
  name : String
  fields : List FieldSpec
  deriving DecidableEq

inductive ModuleKind
  | query
  | execute
  deriving DecidableEq

/-- A module's event range: the values it writes under the prefix are the events of
its Subscription field. -/
structure FeedSpec where
  /-- Its UTF-8 encoding is the prefix. -/
  keyPrefix : String
  event : TypeRefSpec
  /-- The type that wraps an event. -/
  payloadType : String
  deriving DecidableEq

/-- A module's part of the schema. -/
structure ModuleSchema where
  /-- The module, and its root field. -/
  name : String
  kind : Option ModuleKind
  description : Option String
  /-- None for a field that takes raw bytes. -/
  args : Option (List FieldSpec)
  types : List ObjectSpec
  output : Option TypeRefSpec
  feed : Option FeedSpec
  deriving DecidableEq

/-- The types a module registers. -/
def ModuleSchema.typeNames (s : ModuleSchema) : List String :=
  s.types.map ObjectSpec.name ++ s.feed.toList.map FeedSpec.payloadType

/-- What a declared type, or one of the scalars, is called. -/
def knownType (declared : List String) (base : String) : Prop := base ∈ SCALARS ∨ base ∈ declared

instance (declared : List String) (base : String) : Decidable (knownType declared base) :=
  inferInstanceAs (Decidable (_ ∨ _))

/-- The wrapper of a feed's events. -/
def payloadTypeOf (moduleName : String) : String :=
  String.ofList ((match moduleName.toList with
    | [] => []
    | c :: rest => c.toUpper :: rest) ++ "Event".toList)

section

-- how `{:?}` shows a string
variable {N : Type} (debug : String → String)

def debugOption (debug : String → String) : Option String → String
  | some s => "Some(" ++ debug s ++ ")"
  | none => "None"

def parseField (what : String) (seen : List String) (f : Json N) : Except String FieldSpec := do
  let name ← need ((f.get "name").bind Json.asStr) (what ++ ": entry missing \"name\"")
  require (isGraphqlName name = true) (what ++ ": " ++ debug name ++ " is not a valid GraphQL name")
  require (name ∉ seen) (what ++ ": duplicate name " ++ debug name)
  let ty ← need ((f.get "type").bind Json.asStr) (what ++ ": " ++ debug name ++ " missing \"type\"")
  let ty ← parseTypeRef debug ty
  pure ⟨name, ty, (f.get "description").bind Json.asStr⟩

def parseFields (raw : Json N) (what : String) (max : ℕ) : Except String (List FieldSpec) := do
  let arr ← need raw.asArray (what ++ " must be an array")
  require (arr.length ≤ max) (what ++ ": too many entries (max " ++ toString max ++ ")")
  readDistinct FieldSpec.name (parseField debug what) [] arr

def parseType (declared : List String) (t : Json N) : Except String ObjectSpec := do
  let name ← need ((t.get "name").bind Json.asStr) "types: entry missing \"name\""
  require (isGraphqlName name = true) ("type name " ++ debug name ++ " is not a valid GraphQL name")
  require (name ∉ RESERVED_TYPES) ("type name " ++ debug name ++ " is reserved")
  require (name ∉ declared) ("duplicate type " ++ debug name)
  let fields ← parseFields debug ((t.get "fields").getD .null) ("type " ++ name) MAX_FIELDS
  require (fields ≠ []) ("type " ++ debug name ++ " has no fields")
  pure ⟨name, fields⟩

def parseKind (obj : Json N) : Except String (Option ModuleKind) :=
  match obj.given "kind" with
  | none => .ok none
  | some raw =>
    if raw.asStr = some "query" then .ok (some .query)
    else if raw.asStr = some "execute" then .ok (some .execute)
    else .error ("kind must be \"query\" or \"execute\", got " ++ debugOption debug raw.asStr)

def parseTypes (obj : Json N) : Except String (List ObjectSpec) :=
  match obj.get "types" with
  | none => .ok []
  | some rawTypes => do
    let arr ← need rawTypes.asArray "types must be an array"
    require (arr.length ≤ MAX_TYPES) ("too many types (max " ++ toString MAX_TYPES ++ ")")
    readDistinct ObjectSpec.name (parseType debug) [] arr

/-- The field types are scalars or declared objects. -/
def checkTypes (types : List ObjectSpec) : Except String Unit :=
  checkAll (fun t => checkAll (fun f => require (knownType (types.map ObjectSpec.name) f.ty.base)
    ("type " ++ t.name ++ ": field " ++ f.name ++ " references unknown type " ++ debug f.ty.base))
      t.fields) types

def parseArgs (obj : Json N) : Except String (Option (List FieldSpec)) :=
  match obj.given "args" with
  | none => .ok none
  | some raw => do
    let args ← parseFields debug raw "args" MAX_ARGS
    checkAll (fun a => require (a.ty.base ∈ SCALARS)
      ("arg " ++ a.name ++ ": type must be a scalar, got " ++ debug a.ty.base)) args
    pure (some args)

def parseOutput (declared : List String) (kind : Option ModuleKind) (obj : Json N) :
    Except String (Option TypeRefSpec) :=
  match kind, (obj.get "output").bind Json.asStr with
  | some _, some raw => do
    let output ← parseTypeRef debug raw
    require (knownType declared output.base)
      ("output references unknown type " ++ debug output.base)
    pure (some output)
  | some _, none => .error "descriptor missing \"output\""
  | none, some _ => .error "\"output\" requires \"kind\""
  | none, none => .ok none

def parseFeed (moduleName : String) (declared : List String) (obj : Json N) :
    Except String (Option FeedSpec) :=
  match obj.given "feed" with
  | none => .ok none
  | some raw => do
    let _ ← need raw.asObject "feed must be an object"
    let keyPrefix ← need ((raw.get "prefix").bind Json.asStr) "feed missing \"prefix\""
    require (keyPrefix ≠ "" ∧ '\x00' ∉ keyPrefix.toList)
      "feed prefix must be a non-empty string without NUL"
    let event ← need ((raw.get "event").bind Json.asStr) "feed missing \"event\""
    let event ← parseTypeRef debug event
    require (knownType declared event.base)
      ("feed event references unknown type " ++ debug event.base)
    let payloadType := payloadTypeOf moduleName
    require (payloadType ∉ RESERVED_TYPES) ("feed payload type " ++ debug payloadType ++
      " (generated from the module name) is reserved — rename the module")
    require (payloadType ∉ declared) ("feed payload type " ++ debug payloadType ++
      " (generated from the module name) collides with a declared type")
    pure (some ⟨keyPrefix, event, payloadType⟩)

/-- The descriptor, once its bytes are read as JSON. -/
def parseRoot (moduleName : String) (root : Json N) : Except String ModuleSchema := do
  let _ ← need root.asObject "descriptor must be a JSON object"
  let kind ← parseKind debug root
  let types ← parseTypes debug root
  checkTypes debug types
  let declared := types.map ObjectSpec.name
  let args ← parseArgs debug root
  let output ← parseOutput debug declared kind root
  require (kind = none → args = none) "\"args\" require \"kind\" (feeds take no arguments)"
  let feed ← parseFeed debug moduleName declared root
  require (¬(kind = none ∧ feed = none)) "descriptor declares neither \"kind\" nor \"feed\""
  pure ⟨moduleName, kind, (root.get "description").bind Json.asStr, args, types, output, feed⟩

/-- `fromSlice` reads JSON. -/
def parseDescriptor (fromSlice : Bytes → Except String (Json N)) (moduleName : String)
    (bytes : Bytes) :
    Except String ModuleSchema := do
  require (bytes.length ≤ MAX_DESCRIPTOR_BYTES)
    ("descriptor exceeds " ++ toString MAX_DESCRIPTOR_BYTES ++ " bytes")
  require (isGraphqlName moduleName = true) ("module name " ++ debug moduleName ++
    " is not a valid GraphQL field name ([_A-Za-z][_0-9A-Za-z]*)")
  require (moduleName ∉ RESERVED_FIELDS)
    ("module name " ++ debug moduleName ++ " shadows a built-in field")
  let root ← (fromSlice bytes).mapError ("descriptor is not JSON: " ++ ·)
  parseRoot debug moduleName root

end

/-! ### What is read -/

section

variable {N : Type} {debug : String → String}

/-- An entry of a field list, and what is read of it. -/
structure ReadsField (debug : String → String) (f : Json N) (spec : FieldSpec) : Prop where
  named : (f.get "name").bind Json.asStr = some spec.name
  name : isGraphqlName spec.name = true
  ty : ∃ text, (f.get "type").bind Json.asStr = some text ∧ parseTypeRef debug text = .ok spec.ty
  description : (f.get "description").bind Json.asStr = spec.description

theorem parseField_iff {what : String} {seen : List String} {f : Json N} {spec : FieldSpec} :
    parseField debug what seen f = .ok spec ↔ ReadsField debug f spec ∧ spec.name ∉ seen := by
  unfold parseField
  simp only [bind_eq_ok, need_eq_ok, require_eq_ok, pure, Except.pure, Except.ok.injEq]
  constructor
  · rintro ⟨name, hname, -, hvalid, -, hnew, text, htext, ty, hty, rfl⟩
    exact ⟨⟨hname, hvalid, ⟨text, htext, hty⟩, rfl⟩, hnew⟩
  · rintro ⟨⟨hname, hvalid, ⟨text, htext, hty⟩, hdescription⟩, hnew⟩
    refine ⟨spec.name, hname, (), hvalid, (), hnew, text, htext, spec.ty, hty, ?_⟩
    rw [hdescription]

/-- **Field lists.** -/
theorem parseFields_iff {raw : Json N} {what : String} {max : ℕ} {fields : List FieldSpec} :
    parseFields debug raw what max = .ok fields ↔ ∃ arr, raw.asArray = some arr ∧ arr.length ≤ max ∧
      List.Forall₂ (ReadsField debug) arr fields ∧ (fields.map FieldSpec.name).Nodup := by
  have hloop : ∀ arr : List (Json N), readDistinct FieldSpec.name (parseField debug what)
      [] arr = .ok fields ↔
      List.Forall₂ (ReadsField debug) arr fields ∧ (fields.map FieldSpec.name).Nodup :=
    fun arr => readDistinct_nil (by intro seen f spec; exact parseField_iff)
  unfold parseFields
  simp only [bind_eq_ok, need_eq_ok, require_eq_ok, hloop]
  constructor
  · rintro ⟨arr, harr, -, hlen, hall, hnodup⟩
    exact ⟨arr, harr, hlen, hall, hnodup⟩
  · rintro ⟨arr, harr, hlen, hall, hnodup⟩
    exact ⟨arr, harr, (), hlen, hall, hnodup⟩

/-- An entry of the types, and what is read of it. -/
structure ReadsType (debug : String → String) (t : Json N) (spec : ObjectSpec) : Prop where
  named : (t.get "name").bind Json.asStr = some spec.name
  name : isGraphqlName spec.name = true
  unreserved : spec.name ∉ RESERVED_TYPES
  fields : parseFields debug ((t.get "fields").getD .null) ("type " ++ spec.name) MAX_FIELDS =
    .ok spec.fields
  inhabited : spec.fields ≠ []

theorem parseType_iff {declared : List String} {t : Json N} {spec : ObjectSpec} :
    parseType debug declared t = .ok spec ↔ ReadsType debug t spec ∧ spec.name ∉ declared := by
  unfold parseType
  simp only [bind_eq_ok, need_eq_ok, require_eq_ok, pure, Except.pure, Except.ok.injEq]
  constructor
  · rintro ⟨name, hname, -, hvalid, -, hfree, -, hnew, fields, hfields, -, hne, rfl⟩
    exact ⟨⟨hname, hvalid, hfree, hfields, hne⟩, hnew⟩
  · rintro ⟨⟨hname, hvalid, hfree, hfields, hne⟩, hnew⟩
    exact ⟨spec.name, hname, (), hvalid, (), hfree, (), hnew, spec.fields, hfields, (), hne, rfl⟩

theorem parseTypes_iff {obj : Json N} {types : List ObjectSpec} :
    parseTypes debug obj = .ok types ↔ (obj.get "types" = none ∧ types = []) ∨
      ∃ raw arr, obj.get "types" = some raw ∧ raw.asArray = some arr ∧ arr.length ≤ MAX_TYPES ∧
        List.Forall₂ (ReadsType debug) arr types ∧ (types.map ObjectSpec.name).Nodup := by
  unfold parseTypes
  cases hget : obj.get "types" with
  | none =>
    constructor
    · intro h
      exact Or.inl ⟨rfl, (Except.ok.inj h).symm⟩
    · rintro (⟨-, rfl⟩ | ⟨raw, arr, hraw, -⟩)
      · rfl
      · exact absurd hraw (by simp)
  | some raw =>
    have hloop : ∀ arr : List (Json N), readDistinct ObjectSpec.name (parseType debug)
        [] arr = .ok types ↔
        List.Forall₂ (ReadsType debug) arr types ∧ (types.map ObjectSpec.name).Nodup :=
      fun arr => readDistinct_nil (by intro seen t spec; exact parseType_iff)
    simp only [bind_eq_ok, need_eq_ok, require_eq_ok, hloop]
    constructor
    · rintro ⟨arr, harr, -, hlen, hall, hnodup⟩
      exact Or.inr ⟨raw, arr, rfl, harr, hlen, hall, hnodup⟩
    · rintro (⟨hnone, -⟩ | ⟨raw', arr, hraw, harr, hlen, hall, hnodup⟩)
      · exact absurd hnone (by simp)
      · obtain rfl := Option.some_inj.mp hraw
        exact ⟨arr, harr, (), hlen, hall, hnodup⟩

theorem checkTypes_iff {types : List ObjectSpec} {u : Unit} : checkTypes debug types = .ok u ↔
    ∀ t ∈ types, ∀ f ∈ t.fields, knownType (types.map ObjectSpec.name) f.ty.base := by
  unfold checkTypes
  simp only [checkAll_eq_ok, require_eq_ok]

/-! ### Valid schemas -/

/-- Fields that a type or an argument list can have. -/
structure FieldsValid (max : ℕ) (fields : List FieldSpec) : Prop where
  length_le : fields.length ≤ max
  distinct : (fields.map FieldSpec.name).Nodup
  each : ∀ f ∈ fields, isGraphqlName f.name = true ∧ f.ty.Valid

/-- The declared types. -/
def ModuleSchema.declared (s : ModuleSchema) : List String := s.types.map ObjectSpec.name

/-- A schema that can be registered: there is something to register, every type it
refers to exists, no names clash, and the limits are kept. -/
structure ModuleSchema.Valid (s : ModuleSchema) : Prop where
  surface : ¬(s.kind = none ∧ s.feed = none)
  output_iff : s.output = none ↔ s.kind = none
  types_le : s.types.length ≤ MAX_TYPES
  distinct : s.declared.Nodup
  types : ∀ t ∈ s.types, isGraphqlName t.name = true ∧ t.name ∉ RESERVED_TYPES ∧ t.fields ≠ [] ∧
    FieldsValid MAX_FIELDS t.fields
  closed : ∀ t ∈ s.types, ∀ f ∈ t.fields, knownType s.declared f.ty.base
  args : ∀ args ∈ s.args, s.kind ≠ none ∧ FieldsValid MAX_ARGS args ∧ ∀ a ∈ args,
    a.ty.base ∈ SCALARS
  output : ∀ t ∈ s.output, t.Valid ∧ knownType s.declared t.base
  feed : ∀ f ∈ s.feed, (f.keyPrefix ≠ "" ∧ '\x00' ∉ f.keyPrefix.toList) ∧ f.event.Valid ∧
    knownType s.declared f.event.base ∧ f.payloadType = payloadTypeOf s.name ∧
    f.payloadType ∉ RESERVED_TYPES ∧
    f.payloadType ∉ s.declared

/-- The names a module registers do not clash. -/
theorem ModuleSchema.Valid.typeNames_nodup {s : ModuleSchema} (h : s.Valid) :
    s.typeNames.Nodup := by
  unfold ModuleSchema.typeNames
  cases hf : s.feed with
  | none =>
    rw [Option.toList_none, List.map_nil, List.append_nil]
    exact h.distinct
  | some f =>
    obtain ⟨-, -, -, -, -, hfresh⟩ := h.feed f hf
    refine List.nodup_append.mpr ⟨h.distinct, List.nodup_singleton _, fun a ha b hb heq => ?_⟩
    rw [heq, List.mem_singleton.mp hb] at ha
    exact hfresh ha

theorem parseFields_valid {raw : Json N} {what : String} {max : ℕ} {fields : List FieldSpec}
    (h : parseFields debug raw what max = .ok fields) : FieldsValid max fields := by
  obtain ⟨arr, -, hlen, hall, hnodup⟩ := parseFields_iff.mp h
  refine ⟨hall.length_eq ▸ hlen, hnodup, fun f hf => ?_⟩
  obtain ⟨k, hk, rfl⟩ := List.getElem_of_mem hf
  obtain ⟨-, hname, ⟨text, -, hty⟩, -⟩ :=
    List.forall₂_iff_get.mp hall |>.2 k (hall.length_eq ▸ hk) hk
  exact ⟨hname, parseTypeRef_valid hty⟩

theorem parseTypes_valid {obj : Json N} {types : List ObjectSpec}
    (h : parseTypes debug obj = .ok types) :
    types.length ≤ MAX_TYPES ∧ (types.map ObjectSpec.name).Nodup ∧
      ∀ t ∈ types, isGraphqlName t.name = true ∧ t.name ∉ RESERVED_TYPES ∧ t.fields ≠ [] ∧
        FieldsValid MAX_FIELDS t.fields := by
  rcases parseTypes_iff.mp h with ⟨-, rfl⟩ | ⟨raw, arr, -, -, hlen, hall, hnodup⟩
  · exact ⟨Nat.zero_le _, List.nodup_nil, fun t ht => absurd ht List.not_mem_nil⟩
  · refine ⟨hall.length_eq ▸ hlen, hnodup, fun t ht => ?_⟩
    obtain ⟨k, hk, rfl⟩ := List.getElem_of_mem ht
    have hread := List.forall₂_iff_get.mp hall |>.2 k (hall.length_eq ▸ hk) hk
    exact ⟨hread.name, hread.unreserved, hread.inhabited, parseFields_valid hread.fields⟩

theorem parseArgs_valid {obj : Json N} {args : Option (List FieldSpec)}
    (h : parseArgs debug obj = .ok args) :
    ∀ as ∈ args, FieldsValid MAX_ARGS as ∧ ∀ a ∈ as, a.ty.base ∈ SCALARS := by
  unfold parseArgs at h
  split at h
  · obtain rfl := Except.ok.inj h
    intro as has
    exact absurd has (Option.not_mem_none as)
  · simp only [bind_eq_ok, checkAll_eq_ok, require_eq_ok] at h
    obtain ⟨as, has, -, hscalar, hout⟩ := h
    obtain rfl := Except.ok.inj hout
    intro as' has'
    obtain rfl := Option.some_inj.mp has'
    exact ⟨parseFields_valid has, hscalar⟩

theorem parseOutput_valid {declared : List String} {kind : Option ModuleKind} {obj : Json N}
    {output : Option TypeRefSpec} (h : parseOutput debug declared kind obj = .ok output) :
    (output = none ↔ kind = none) ∧ ∀ t ∈ output, t.Valid ∧ knownType declared t.base := by
  unfold parseOutput at h
  split at h
  · simp only [bind_eq_ok, require_eq_ok] at h
    obtain ⟨t, ht, -, hknown, hout⟩ := h
    obtain rfl := Except.ok.inj hout
    refine ⟨iff_of_false (by simp) (by simp), fun t' ht' => ?_⟩
    obtain rfl := Option.some_inj.mp ht'
    exact ⟨parseTypeRef_valid ht, hknown⟩
  · exact absurd h (by simp)
  · exact absurd h (by simp)
  · obtain rfl := Except.ok.inj h
    exact ⟨iff_of_true rfl rfl, fun t ht => absurd ht (Option.not_mem_none t)⟩

theorem parseFeed_valid {moduleName : String} {declared : List String} {obj : Json N}
    {feed : Option FeedSpec} (h : parseFeed debug moduleName declared obj = .ok feed) :
    ∀ f ∈ feed, (f.keyPrefix ≠ "" ∧ '\x00' ∉ f.keyPrefix.toList) ∧ f.event.Valid ∧
      knownType declared f.event.base ∧
      f.payloadType = payloadTypeOf moduleName ∧ f.payloadType ∉ RESERVED_TYPES ∧
      f.payloadType ∉ declared := by
  unfold parseFeed at h
  split at h
  · obtain rfl := Except.ok.inj h
    intro f hf
    exact absurd hf (Option.not_mem_none f)
  · simp only [bind_eq_ok, need_eq_ok, require_eq_ok] at h
    obtain ⟨-, -, keyPrefix, -, -, hplain, text, -, event, hevent, -, hknown, -, hfree, -,
        hfresh, hout⟩ := h
    obtain rfl := Except.ok.inj hout
    intro f hf
    obtain rfl := Option.some_inj.mp hf
    exact ⟨hplain, parseTypeRef_valid hevent, hknown, rfl, hfree, hfresh⟩

/-- **What is accepted is valid.** -/
theorem parseRoot_valid {moduleName : String} {root : Json N} {s : ModuleSchema}
    (h : parseRoot debug moduleName root = .ok s) : s.Valid ∧ s.name = moduleName := by
  unfold parseRoot at h
  simp only [bind_eq_ok, need_eq_ok, require_eq_ok] at h
  obtain ⟨-, -, kind, -, types, htypes, ⟨⟩, hclosed, args, hargs, output, houtput, -, hkind, feed,
      hfeed, -, hsurface,
    hout⟩ := h
  obtain rfl := Except.ok.inj hout
  obtain ⟨hlen, hnodup, hall⟩ := parseTypes_valid htypes
  obtain ⟨hiff, hknown⟩ := parseOutput_valid houtput
  refine ⟨⟨hsurface, hiff, hlen, hnodup, hall, checkTypes_iff.mp hclosed, fun as has => ?_, hknown,
    parseFeed_valid hfeed⟩, rfl⟩
  refine ⟨fun hnone => ?_, parseArgs_valid hargs as has⟩
  exact absurd (hkind hnone ▸ has) (Option.not_mem_none as)

/-! ### Rendering -/

def jsonOf : Option String → Json N
  | some s => .string s
  | none => .null

@[simp] theorem asStr_jsonOf (s : Option String) : (jsonOf s : Json N).asStr = s := by
  cases s with
  | none => rfl
  | some s => rfl

def TypeRefSpec.json (t : TypeRefSpec) : Json N := .string (String.ofList t.text)

def FieldSpec.json (f : FieldSpec) : Json N :=
  .object [("name", .string f.name), ("type", f.ty.json), ("description", jsonOf f.description)]

def ObjectSpec.json (t : ObjectSpec) : Json N :=
  .object [("name", .string t.name), ("fields", .array (t.fields.map FieldSpec.json))]

def ModuleKind.json : ModuleKind → Json N
  | query => .string "query"
  | execute => .string "execute"

def FeedSpec.json (f : FeedSpec) : Json N :=
  .object [("prefix", .string f.keyPrefix), ("event", f.event.json)]

/-- A descriptor that declares the schema. -/
def ModuleSchema.json (s : ModuleSchema) : Json N :=
  .object [("kind", (s.kind.map ModuleKind.json).getD .null), ("description", jsonOf s.description),
    ("types", .array (s.types.map ObjectSpec.json)),
    ("args", (s.args.map fun as => .array (as.map FieldSpec.json)).getD .null),
    ("output", (s.output.map TypeRefSpec.json).getD .null),
      ("feed", (s.feed.map FeedSpec.json).getD .null)]

theorem FieldSpec.reads {f : FieldSpec} (hname : isGraphqlName f.name = true) (hty : f.ty.Valid) :
    ReadsField debug (f.json : Json N) f :=
  ⟨rfl, hname, ⟨_, rfl, parseTypeRef_text hty⟩, asStr_jsonOf f.description⟩

theorem FieldsValid.parse {max : ℕ} {fields : List FieldSpec} (h : FieldsValid max fields)
    (what : String) :
    parseFields debug (.array (fields.map FieldSpec.json) : Json N) what max = .ok fields := by
  refine parseFields_iff.mpr ⟨_, rfl, ?_, ?_, h.distinct⟩
  · rw [List.length_map]
    exact h.length_le
  · rw [List.forall₂_map_left_iff, List.forall₂_same]
    intro f hf
    exact FieldSpec.reads (h.each f hf).1 (h.each f hf).2

/-- A member that is there, and not null. -/
theorem Json.given_of_get {v raw : Json N} {key : String} (h : v.get key = some raw)
    (hne : raw ≠ .null) :
    v.given key = some raw := by
  unfold Json.given
  rw [h]
  cases raw with
  | null => exact absurd rfl hne
  | _ => rfl

theorem Json.given_of_null {v : Json N} {key : String} (h : v.get key = some .null) :
    v.given key = none := by
  unfold Json.given
  rw [h]

/-- **A valid schema is accepted.** -/
theorem parseRoot_json {s : ModuleSchema} (h : s.Valid) :
    parseRoot debug s.name (s.json : Json N) = .ok s := by
  -- key by key: each parser reads its own key of the rendered object
  have hkind : parseKind debug (s.json : Json N) = .ok s.kind := by
    have hget : (s.json : Json N).get "kind" = some ((s.kind.map ModuleKind.json).getD .null) := rfl
    unfold parseKind
    cases hk : s.kind with
    | none =>
      rw [hk] at hget
      rw [Json.given_of_null hget]
    | some kind =>
      rw [hk] at hget
      cases kind with
      | query =>
        rw [Json.given_of_get hget (by simp [ModuleKind.json])]
        exact if_pos rfl
      | execute =>
        rw [Json.given_of_get hget (by simp [ModuleKind.json])]
        have hne : ¬some "execute" = some "query" := by decide
        exact (if_neg hne).trans (if_pos rfl)
  have htypes : parseTypes debug (s.json : Json N) = .ok s.types := by
    refine parseTypes_iff.mpr (Or.inr ⟨_, _, rfl, rfl, ?_, ?_, h.distinct⟩)
    · rw [List.length_map]
      exact h.types_le
    · rw [List.forall₂_map_left_iff, List.forall₂_same]
      intro t ht
      obtain ⟨hname, hfree, hne, hfields⟩ := h.types t ht
      exact ⟨rfl, hname, hfree, hfields.parse _, hne⟩
  have hargs : parseArgs debug (s.json : Json N) = .ok s.args := by
    have hget : (s.json : Json N).get "args" =
        some ((s.args.map fun as => .array (as.map FieldSpec.json)).getD .null) := rfl
    unfold parseArgs
    cases ha : s.args with
    | none =>
      rw [ha] at hget
      rw [Json.given_of_null hget]
    | some as =>
      obtain ⟨-, hfields, hscalar⟩ := h.args as ha
      rw [ha] at hget
      rw [Json.given_of_get hget (by simp)]
      simp only [bind_eq_ok, checkAll_eq_ok, require_eq_ok]
      exact ⟨as, hfields.parse _, (), hscalar, rfl⟩
  have houtput : parseOutput debug s.declared s.kind (s.json : Json N) = .ok s.output := by
    have hget : (s.json : Json N).get "output" =
        some ((s.output.map TypeRefSpec.json).getD .null) := rfl
    unfold parseOutput
    rw [hget]
    cases hk : s.kind with
    | none =>
      rw [h.output_iff.mpr hk]
      rfl
    | some kind =>
      -- a schema with a kind has an output
      obtain ⟨t, ht⟩ := Option.ne_none_iff_exists'.mp fun hnone =>
        absurd (hk.symm.trans (h.output_iff.mp hnone)) (by simp)
      rw [ht]
      show (do let output ← parseTypeRef debug (String.ofList t.text); _ : Except String _) = _
      simp only [bind_eq_ok, require_eq_ok]
      exact ⟨t, parseTypeRef_text (h.output t ht).1, (), (h.output t ht).2, rfl⟩
  have hfeed : parseFeed debug s.name s.declared (s.json : Json N) = .ok s.feed := by
    have hget : (s.json : Json N).get "feed" = some ((s.feed.map FeedSpec.json).getD .null) := rfl
    unfold parseFeed
    cases hf : s.feed with
    | none =>
      rw [hf] at hget
      rw [Json.given_of_null hget]
    | some f =>
      obtain ⟨hplain, hevent, hknown, hpayload, hfree, hfresh⟩ := h.feed f hf
      rw [hf] at hget
      rw [Json.given_of_get hget (by simp [FeedSpec.json])]
      simp only [bind_eq_ok, need_eq_ok, require_eq_ok]
      rw [hpayload] at hfree hfresh
      refine ⟨_, rfl, f.keyPrefix, rfl, (), hplain, _, rfl, f.event, parseTypeRef_text hevent, (),
        hknown, (), hfree, (), hfresh, ?_⟩
      rw [← hpayload]
      rfl
  have hdescription : ((s.json : Json N).get "description").bind Json.asStr = s.description :=
    asStr_jsonOf s.description
  -- what is left are the checks across keys
  unfold parseRoot
  simp only [bind_eq_ok, need_eq_ok, require_eq_ok]
  refine ⟨_, rfl, s.kind, hkind, s.types, htypes, (), checkTypes_iff.mpr h.closed, s.args, hargs,
    s.output, houtput, (), fun hnone => ?_, s.feed, hfeed, (), h.surface, ?_⟩
  · cases ha : s.args with
    | none => rfl
    | some as => exact absurd hnone (h.args as ha).1
  · rw [hdescription]
    rfl

/-- A descriptor that renders a valid schema is read back. -/
theorem parseDescriptor_json {fromSlice : Bytes → Except String (Json N)} {s : ModuleSchema}
    (h : s.Valid)
    (hname : isGraphqlName s.name = true) (hfree : s.name ∉ RESERVED_FIELDS) {bytes : Bytes}
    (hlen : bytes.length ≤ MAX_DESCRIPTOR_BYTES) (hbytes : fromSlice bytes = .ok s.json) :
    parseDescriptor debug fromSlice s.name bytes = .ok s := by
  unfold parseDescriptor
  simp only [bind_eq_ok, require_eq_ok]
  exact ⟨(), hlen, (), hname, (), hfree, s.json, by rw [hbytes]; rfl, parseRoot_json h⟩

/-- **Descriptors are exact.**  Whatever JSON a module answers with, the schema that
is accepted is valid, under the module's own unreserved name; and every valid schema
is declared by some descriptor: one that renders it is read back. -/
theorem descriptor_exact {fromSlice : Bytes → Except String (Json N)} {moduleName : String} :
    (∀ bytes s, parseDescriptor debug fromSlice moduleName bytes = .ok s →
      s.Valid ∧ s.typeNames.Nodup ∧ s.name = moduleName ∧ isGraphqlName moduleName = true ∧
        moduleName ∉ RESERVED_FIELDS ∧ bytes.length ≤ MAX_DESCRIPTOR_BYTES) ∧
    ∀ s : ModuleSchema, s.Valid → s.name = moduleName → isGraphqlName moduleName = true →
      moduleName ∉ RESERVED_FIELDS →
      ∀ bytes, bytes.length ≤ MAX_DESCRIPTOR_BYTES → fromSlice bytes = .ok s.json →
        parseDescriptor debug fromSlice moduleName bytes = .ok s := by
  constructor
  · intro bytes s h
    unfold parseDescriptor at h
    simp only [bind_eq_ok, require_eq_ok] at h
    obtain ⟨-, hlen, -, hname, -, hfree, root, -, hroot⟩ := h
    obtain ⟨hvalid, heq⟩ := parseRoot_valid hroot
    exact ⟨hvalid, hvalid.typeNames_nodup, heq, hname, hfree, hlen⟩
  · rintro s hvalid rfl hname hfree bytes hlen hbytes
    exact parseDescriptor_json hvalid hname hfree hlen hbytes

end

/-- A type of nodes that refers to itself. -/
def nodeType : ObjectSpec where
  name := "Node"
  fields := [⟨"id", ⟨"U64", false, false, true⟩, none⟩,
    ⟨"next", ⟨"Node", false, false, false⟩, none⟩,
    ⟨"kids", ⟨"Node", true, true, false⟩, none⟩]

def nodeSchema : ModuleSchema where
  name := "nodes"
  kind := some .query
  description := none
  args := none
  types := [nodeType]
  output := some ⟨"Node", true, true, true⟩
  feed := none

theorem nodeSchema_valid : nodeSchema.Valid where
  surface := by decide
  output_iff := by decide
  types_le := by decide
  distinct := List.nodup_singleton _
  types t ht := by
    obtain rfl := List.mem_singleton.mp ht
    refine ⟨by decide, by decide, by decide, by decide, by decide, fun f hf => ⟨?_, ?_, ?_⟩⟩
    · revert f
      decide
    · revert f
      decide
    · revert f
      decide
  closed := by decide
  args as has := by cases has
  output t ht := by
    obtain rfl := Option.some_inj.mp ht
    exact ⟨⟨by decide, by decide⟩, Or.inr List.mem_cons_self⟩
  feed f hf := by cases hf

/-- The text of a descriptor, in pieces. -/
def nodeText : Bytes :=
  (["\x7b\"kind\":\"query\",", "\"description\":null,", "\"types\":[\x7b\"name\":\"Node\",",
    "\"fields\":[", "\x7b\"name\":\"id\",", "\"type\":\"U64!\",", "\"description\":null\x7d,",
    "\x7b\"name\":\"next\",", "\"type\":\"Node\",", "\"description\":null\x7d,",
    "\x7b\"name\":\"kids\",", "\"type\":\"[Node!]\",", "\"description\":null\x7d]\x7d],",
    "\"args\":null,", "\"output\":\"[Node!]!\",", "\"feed\":null\x7d"].flatMap String.toList).map
      fun c => Fin.ofNat 256 c.toNat

/-- The descriptor of a recursive type is read. -/
theorem descriptor_exact_nodes :
    parseDescriptor (fun s => "\"" ++ s ++ "\"")
      (fun bytes =>
        if bytes = nodeText then .ok (nodeSchema.json : Json Unit) else .error "expected value")
      "nodes" nodeText = .ok nodeSchema :=
  descriptor_exact.2 nodeSchema nodeSchema_valid rfl (by decide) (by decide) nodeText
    (by decide +kernel) (if_pos rfl)

end Graphql

end Fluent31
