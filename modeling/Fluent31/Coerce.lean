/-
Output coercion (`descriptor.rs` of the GraphQL crate).

What a module returns is JSON; it is checked against a declared type and turned into
a GraphQL value.  The object types of a descriptor may refer to each other and to
themselves, so the recursion follows the value.

Numbers are those of the JSON library, and how a value goes out on the wire is up to
the GraphQL library: both are parameters, with what is documented of them.

* `Fits`, `Holds` — which JSON a type admits, and which values it has: two typing
  relations that do not mention the coercion;
* `Becomes` — which value of the type stands for which JSON;
* `coerce_spec` — one level of the recursion, for every smaller value;
* `coerce_exact` — the coercion succeeds exactly on what fits, its result is the value
  of the type that stands for the output, and is a fixed point.
-/
import Fluent31.Descriptor

namespace Fluent31

namespace Graphql

open Checks

/-! ### Values -/

/-- The values of GraphQL that a coercion makes. -/
inductive Value (N : Type)
  | null
  | number (n : N)
  | string (s : String)
  | boolean (b : Bool)
  | list (items : List (Value N))
  | object (fields : List (String × Value N))

/-- What the JSON library offers for its numbers; `D` are the doubles. -/
structure NumberApi (N D : Type) where
  asU64 : N → Option ℕ
  asI64 : N → Option ℤ
  asF64 : N → Option D
  ofI64 : ℤ → N
  /-- `from_f64`: not of an infinite double or a NaN. -/
  ofF64 : D → Option N

/-- A number made of an integer or of a double reads back as that. -/
structure NumberApi.Lawful {N D : Type} (api : NumberApi N D) : Prop where
  asU64_lt {n : N} {k : ℕ} : api.asU64 n = some k → k < 2 ^ 64
  asI64_ofI64 {i : ℤ} : -2 ^ 63 ≤ i → i < 2 ^ 63 → api.asI64 (api.ofI64 i) = some i
  asF64_ofF64 {d : D} {n : N} : api.ofF64 d = some n → api.asF64 n = some d

/-- A serialization of values as the JSON of the same shape. -/
structure Serializes {N : Type} (toJson : Value N → Json N) : Prop where
  null : toJson .null = .null
  number (n : N) : toJson (.number n) = .number n
  string (s : String) : toJson (.string s) = .string s
  boolean (b : Bool) : toJson (.boolean b) = .bool b
  list (items : List (Value N)) : toJson (.list items) = .array (items.map toJson)
  object (fields : List (String × Value N)) :
    toJson (.object fields) = .object (fields.map fun p => (p.1, toJson p.2))

variable {N D : Type}

/-- `str::parse::<u64>`. -/
def parseU64 (s : String) : Option ℕ :=
  let digits := match s.toList with
    | '+' :: rest => rest
    | cs => cs
  if digits ≠ [] ∧ digits.all Char.isDigit then
    let n := Nat.ofDigitChars 10 digits 0
    if n < 2 ^ 64 then some n else none
  else none

mutual

/-- A value as it is. -/
def jsonToGql : Json N → Value N
  | .null => .null
  | .bool b => .boolean b
  | .number n => .number n
  | .string s => .string s
  | .array items => .list (jsonToGqlItems items)
  | .object members => .object (jsonToGqlMembers members)

def jsonToGqlItems : List (Json N) → List (Value N)
  | [] => []
  | v :: rest => jsonToGql v :: jsonToGqlItems rest

def jsonToGqlMembers : List (String × Json N) → List (String × Value N)
  | [] => []
  | (k, v) :: rest => (k, jsonToGql v) :: jsonToGqlMembers rest

end

/-! ### The coercion -/

/-- The type of a list's elements. -/
def TypeRefSpec.elem (t : TypeRefSpec) : TypeRefSpec := ⟨t.base, false, false, t.elemNn⟩

/-- What a member of an object holds: nothing is null. -/
def memberOr (members : List (String × Json N)) (name : String) : Json N :=
  (members.lookup name).getD .null

theorem sizeOf_memberOr (members : List (String × Json N)) (name : String) :
    sizeOf (memberOr members name) < sizeOf (Json.object members) := by
  unfold memberOr
  induction members with
  | nil => simp
  | cons p members ih =>
    obtain ⟨k, v⟩ := p
    rw [List.lookup_cons]
    cases hk : name == k with
    | true =>
      simp only [Option.getD_some, Json.object.sizeOf_spec, List.cons.sizeOf_spec,
        Prod.mk.sizeOf_spec]
      omega
    | false =>
      simp only [Json.object.sizeOf_spec, List.cons.sizeOf_spec] at ih ⊢
      omega

section

-- how `{:?}` shows a string, the numbers, and the declared types
variable (debug : String → String) (api : NumberApi N D) (objects : List ObjectSpec)

mutual

/-- The fields are inserted in the order of the type; their names are distinct. -/
def coerceFields (fields : List FieldSpec) (members : List (String × Json N)) (path : String) :
    Except String (List (String × Value N)) :=
  match fields with
  | [] => .ok []
  | f :: rest => do
    let value ← coerce f.ty (memberOr members f.name) (path ++ "." ++ f.name)
    let values ← coerceFields rest members path
    pure ((f.name, value) :: values)
termination_by (sizeOf (Json.object members), 0, sizeOf fields)
decreasing_by
  · exact Prod.Lex.left _ _ (sizeOf_memberOr members f.name)
  · exact Prod.Lex.right _ (Prod.Lex.right _ (by simp))

def coerceItems (elem : TypeRefSpec) (items : List (Json N)) (i : ℕ) (path : String) :
    Except String (List (Value N)) :=
  match items with
  | [] => .ok []
  | item :: rest => do
    let value ← coerce elem item (path ++ "[" ++ toString i ++ "]")
    let values ← coerceItems elem rest (i + 1) path
    pure (value :: values)
termination_by (sizeOf (Json.array items), 0, 0)
decreasing_by
  · exact Prod.Lex.left _ _ (by simp; omega)
  · exact Prod.Lex.left _ _ (by simp)

def coerceBase (base : String) (v : Json N) (path : String) : Except String (Value N) :=
  if base = "Json" then .ok (jsonToGql v)
  else if base = "String" then
    match v with
    | .string s => .ok (.string s)
    | _ => .error (path ++ ": expected string")
  else if base = "Boolean" then
    match v with
    | .bool b => .ok (.boolean b)
    | _ => .error (path ++ ": expected boolean")
  else if base = "Int" then
    match v with
    | .number n =>
      match api.asI64 n with
      | some i =>
        if -2 ^ 31 ≤ i ∧ i < 2 ^ 31 then .ok (.number (api.ofI64 i))
        else .error (path ++ ": expected 32-bit integer")
      | none => .error (path ++ ": expected 32-bit integer")
    | _ => .error (path ++ ": expected 32-bit integer")
  else if base = "Float" then
    match v with
    | .number n =>
      match (api.asF64 n).bind api.ofF64 with
      | some n => .ok (.number n)
      | none => .error (path ++ ": expected number")
    | _ => .error (path ++ ": expected number")
  else if base = "U64" then
    match v with
    | .number n =>
      match api.asU64 n with
      | some k => .ok (.string (toString k))
      | none => .error (path ++ ": expected unsigned integer")
    | .string s =>
      match parseU64 s with
      | some k => .ok (.string (toString k))
      | none => .error (path ++ ": expected decimal u64 string")
    | _ => .error (path ++ ": expected u64")
  else
    match objects.find? fun t => t.name == base with
    | none => .error (path ++ ": unknown type " ++ debug base)
    | some spec =>
      match v with
      | .object members => (coerceFields spec.fields members path).map .object
      | _ => .error (path ++ ": expected " ++ base ++ " object")
termination_by (sizeOf v, 1, 0)
decreasing_by exact Prod.Lex.right _ (Prod.Lex.left _ _ Nat.zero_lt_one)

def coerce (ty : TypeRefSpec) (v : Json N) (path : String) : Except String (Value N) :=
  match v with
  | .null => if ty.nn then .error (path ++ ": null for non-null " ++ ty.base) else .ok .null
  | v =>
    if ty.list then
      match v with
      | .array items => (coerceItems ty.elem items 0 path).map .list
      | _ => .error (path ++ ": expected list")
    else coerceBase ty.base v path
termination_by (sizeOf v, 2, 0)
decreasing_by
  · exact Prod.Lex.right _ (Prod.Lex.left _ _ (by omega))
  · exact Prod.Lex.right _ (Prod.Lex.left _ _ (by omega))

end

end

/-- What a module returns, checked against one of its types. -/
def normalizeOutput (debug : String → String) (api : NumberApi N D)
    (fromSlice : Bytes → Except String (Json N)) (schema : ModuleSchema) (ty : TypeRefSpec)
    (raw : Bytes) :
    Except String (Value N) := do
  let json ← (fromSlice raw).mapError ("module output is not valid JSON: " ++ ·)
  coerce debug api schema.types ty json "output"

/-! ### Typing -/

/-- A decimal `u64`: digits, after at most one plus sign. -/
def Decimal (s : String) (k : ℕ) : Prop :=
  ∃ digits, (s.toList = digits ∨ s.toList = '+' :: digits) ∧ digits ≠ [] ∧
    (∀ c ∈ digits, c.isDigit = true) ∧ Nat.ofDigitChars 10 digits 0 = k ∧ k < 2 ^ 64

section

variable (api : NumberApi N D) (objects : List ObjectSpec)

mutual

/-- JSON that a type admits. -/
inductive Fits : TypeRefSpec → Json N → Prop
  | null {t : TypeRefSpec} : t.nn = false → Fits t .null
  | list {t : TypeRefSpec} {items : List (Json N)} : t.list = true → (∀ x ∈ items, Fits t.elem x) →
      Fits t (.array items)
  | base {t : TypeRefSpec} {v : Json N} : t.list = false → v ≠ .null → FitsBase t.base v → Fits t v

inductive FitsBase : String → Json N → Prop
  | json (v : Json N) : FitsBase "Json" v
  | string (s : String) : FitsBase "String" (.string s)
  | boolean (b : Bool) : FitsBase "Boolean" (.bool b)
  | int {n : N} {i : ℤ} : api.asI64 n = some i → -2 ^ 31 ≤ i → i < 2 ^ 31 →
    FitsBase "Int" (.number n)
  | float {n n' : N} {d : D} : api.asF64 n = some d → api.ofF64 d = some n' →
    FitsBase "Float" (.number n)
  | u64 {n : N} {k : ℕ} : api.asU64 n = some k → FitsBase "U64" (.number n)
  | u64Text {s : String} {k : ℕ} : Decimal s k → FitsBase "U64" (.string s)
  | object {spec : ObjectSpec} {members : List (String × Json N)} : spec ∈ objects →
      (∀ f ∈ spec.fields, Fits f.ty (memberOr members f.name)) →
      FitsBase spec.name (.object members)

end

mutual

/-- Values of a type: objects hold exactly the declared fields. -/
inductive Holds : TypeRefSpec → Value N → Prop
  | null {t : TypeRefSpec} : t.nn = false → Holds t .null
  | list {t : TypeRefSpec} {items : List (Value N)} : t.list = true →
    (∀ x ∈ items, Holds t.elem x) →
      Holds t (.list items)
  | base {t : TypeRefSpec} {v : Value N} : t.list = false → v ≠ .null →
    HoldsBase t.base v → Holds t v

inductive HoldsBase : String → Value N → Prop
  | json (v : Json N) : HoldsBase "Json" (jsonToGql v)
  | string (s : String) : HoldsBase "String" (.string s)
  | boolean (b : Bool) : HoldsBase "Boolean" (.boolean b)
  | int {i : ℤ} : -2 ^ 31 ≤ i → i < 2 ^ 31 → HoldsBase "Int" (.number (api.ofI64 i))
  | float {d : D} {n : N} : api.ofF64 d = some n → HoldsBase "Float" (.number n)
  | u64 {k : ℕ} : k < 2 ^ 64 → HoldsBase "U64" (.string (toString k))
  | object {spec : ObjectSpec} {fields : List (String × Value N)} : spec ∈ objects →
      fields.map Prod.fst = spec.fields.map FieldSpec.name →
      (∀ x ∈ spec.fields.zip fields, Holds x.1.ty x.2.2) → HoldsBase spec.name (.object fields)

end

mutual

/-- The value of a type that stands for some JSON: strings, booleans and integers are
themselves, a list and an object hold what stands for their parts, and members that are
not declared are left out. -/
inductive Becomes : TypeRefSpec → Json N → Value N → Prop
  | null {t : TypeRefSpec} : t.nn = false → Becomes t .null .null
  | list {t : TypeRefSpec} {items : List (Json N)} {outs : List (Value N)} : t.list = true →
      items.length = outs.length → (∀ x ∈ items.zip outs, Becomes t.elem x.1 x.2) →
      Becomes t (.array items) (.list outs)
  | base {t : TypeRefSpec} {v : Json N} {out : Value N} : t.list = false → v ≠ .null →
      BecomesBase t.base v out → Becomes t v out

inductive BecomesBase : String → Json N → Value N → Prop
  | json (v : Json N) : BecomesBase "Json" v (jsonToGql v)
  | string (s : String) : BecomesBase "String" (.string s) (.string s)
  | boolean (b : Bool) : BecomesBase "Boolean" (.bool b) (.boolean b)
  | int {n : N} {i : ℤ} : api.asI64 n = some i → -2 ^ 31 ≤ i → i < 2 ^ 31 →
      BecomesBase "Int" (.number n) (.number (api.ofI64 i))
  | float {n n' : N} {d : D} : api.asF64 n = some d → api.ofF64 d = some n' →
      BecomesBase "Float" (.number n) (.number n')
  | u64 {n : N} {k : ℕ} : api.asU64 n = some k →
    BecomesBase "U64" (.number n) (.string (toString k))
  | u64Text {s : String} {k : ℕ} : Decimal s k →
    BecomesBase "U64" (.string s) (.string (toString k))
  | object {spec : ObjectSpec} {members : List (String × Json N)} {outs : List (String × Value N)} :
      spec ∈ objects → outs.map Prod.fst = spec.fields.map FieldSpec.name →
      (∀ x ∈ spec.fields.zip outs, Becomes x.1.ty (memberOr members x.1.name) x.2.2) →
      BecomesBase spec.name (.object members) (.object outs)

end

end

/-! ### Scalars -/

theorem parseU64_iff {s : String} {k : ℕ} : parseU64 s = some k ↔ Decimal s k := by
  -- the digits behind an optional plus sign
  have hdigits : ∀ digits : List Char, (if digits ≠ [] ∧ digits.all Char.isDigit then
      if Nat.ofDigitChars 10 digits 0 < 2 ^ 64 then some (Nat.ofDigitChars 10 digits 0) else none
      else none) = some k ↔
      digits ≠ [] ∧ (∀ c ∈ digits, c.isDigit = true) ∧ Nat.ofDigitChars 10 digits 0 = k ∧
      k < 2 ^ 64 := by
    intro digits
    constructor
    · intro h
      split_ifs at h with hd hk
      obtain rfl := Option.some_inj.mp h
      exact ⟨hd.1, List.all_eq_true.mp hd.2, rfl, hk⟩
    · rintro ⟨hne, hall, rfl, hk⟩
      rw [if_pos ⟨hne, List.all_eq_true.mpr hall⟩, if_pos hk]
  unfold parseU64 Decimal
  cases hs : s.toList with
  | nil =>
    refine (hdigits []).trans ⟨fun h => absurd rfl h.1, ?_⟩
    rintro ⟨digits, heq, hne, -⟩
    rcases heq with rfl | heq
    · exact absurd rfl hne
    · exact absurd heq (by simp)
  | cons c rest =>
    by_cases hc : c = '+'
    · subst hc
      refine (hdigits rest).trans ⟨fun h => ⟨rest, Or.inr rfl, h⟩, ?_⟩
      rintro ⟨digits, rfl | heq, hne, hall, hk⟩
      · exact absurd (hall '+' List.mem_cons_self) (by decide)
      · obtain rfl := (List.cons.inj heq).2
        exact ⟨hne, hall, hk⟩
    · have hmatch : (match c :: rest with
          | '+' :: rest => rest
          | cs => cs) = c :: rest := by
        split
        · rename_i heq
          exact absurd (List.cons.inj heq).1 hc
        · rfl
      simp only [hmatch]
      refine (hdigits (c :: rest)).trans ⟨fun h => ⟨c :: rest, Or.inl rfl, h⟩, ?_⟩
      rintro ⟨digits, rfl | heq, hne, hall, hk⟩
      · exact ⟨hne, hall, hk⟩
      · exact absurd (List.cons.inj heq).1 hc

/-- What is printed is read back. -/
theorem parseU64_toString {k : ℕ} (hk : k < 2 ^ 64) : parseU64 (toString k) = some k := by
  refine parseU64_iff.mpr
    ⟨Nat.toDigits 10 k, Or.inl Nat.toList_repr, Nat.toDigits_ne_nil, fun c hc =>
    Nat.isDigit_of_mem_toDigits (by omega) le_rfl hc, Nat.ofDigitChars_ten_toDigits, hk⟩

section

variable {toJson : Value N → Json N}

mutual

/-- A value that was taken as it is goes out as it was. -/
theorem Serializes.jsonToGql (h : Serializes toJson) : ∀ v : Json N, toJson (jsonToGql v) = v
  | .null => h.null
  | .bool b => h.boolean b
  | .number n => h.number n
  | .string s => h.string s
  | .array items => (h.list _).trans (congrArg Json.array (h.items items))
  | .object members => (h.object _).trans (congrArg Json.object (h.members members))

theorem Serializes.items (h : Serializes toJson) : ∀ items : List (Json N),
    (jsonToGqlItems items).map toJson = items
  | [] => rfl
  | v :: rest => congrArg₂ List.cons (h.jsonToGql v) (h.items rest)

theorem Serializes.members (h : Serializes toJson) : ∀ members : List (String × Json N),
    (jsonToGqlMembers members).map (fun p => (p.1, toJson p.2)) = members
  | [] => rfl
  | (k, v) :: rest => congrArg₂ List.cons (congrArg (Prod.mk k) (h.jsonToGql v)) (h.members rest)

end

theorem Serializes.ne_null (h : Serializes toJson) {v : Value N} (hv : v ≠ .null) :
    toJson v ≠ .null := by
  cases v with
  | null => exact absurd rfl hv
  | number n => simp [h.number]
  | string s => simp [h.string]
  | boolean b => simp [h.boolean]
  | list items => simp [h.list]
  | object fields => simp [h.object]

end

theorem jsonToGql_ne_null {v : Json N} (h : v ≠ .null) : jsonToGql v ≠ .null := by
  cases v with
  | null => exact absurd rfl h
  | _ => simp [jsonToGql]

/-! ### One level -/

section

variable {debug : String → String} {api : NumberApi N D} {objects : List ObjectSpec}
    {toJson : Value N → Json N}

theorem coerce_null (t : TypeRefSpec) (path : String) : coerce debug api objects t .null path =
    if t.nn then .error (path ++ ": null for non-null " ++ t.base) else .ok .null := by
  rw [coerce]

theorem coerce_list {t : TypeRefSpec} (ht : t.list = true) {v : Json N} (hv : v ≠ .null)
    (path : String) :
    coerce debug api objects t v path = match v with
      | .array items => (coerceItems debug api objects t.elem items 0 path).map .list
      | _ => .error (path ++ ": expected list") := by
  cases v with
  | null => exact absurd rfl hv
  | _ => rw [coerce] <;> simp [ht]

theorem coerce_plain {t : TypeRefSpec} (ht : t.list = false) {v : Json N} (hv : v ≠ .null)
    (path : String) :
    coerce debug api objects t v path = coerceBase debug api objects t.base v path := by
  cases v with
  | null => exact absurd rfl hv
  | _ => rw [coerce] <;> simp [ht]

/-- A list type takes lists. -/
theorem coerce_list_ok {t : TypeRefSpec} (ht : t.list = true) {v : Json N} (hv : v ≠ .null)
    {path : String} {out : Value N} (h : coerce debug api objects t v path = .ok out) :
    ∃ items, v = .array items := by
  rw [coerce_list ht hv] at h
  cases v with
  | array items => exact ⟨items, rfl⟩
  | _ => exact absurd h (by simp)

variable (debug api objects toJson) in
/-- A value of a type, with the coercion as the identity on it. -/
def Normal (t : TypeRefSpec) (out : Value N) : Prop :=
  Holds api objects t out ∧ ∀ path, coerce debug api objects t (toJson out) path = .ok out

variable (debug api objects toJson) in
/-- The coercion of `v` to `t` is exact. -/
def Exactly (t : TypeRefSpec) (v : Json N) : Prop :=
  ∀ path, (Fits api objects t v → ∃ out, coerce debug api objects t v path = .ok out) ∧
    ∀ out, coerce debug api objects t v path = .ok out →
      Fits api objects t v ∧ Becomes api objects t v out ∧ Normal debug api objects toJson t out

/-- The items of a list. -/
theorem coerceItems_spec {t : TypeRefSpec} {items : List (Json N)}
    (h : ∀ x ∈ items, Exactly debug api objects toJson t x) (i : ℕ) (path : String) :
    ((∀ x ∈ items, Fits api objects t x) →
      ∃ outs, coerceItems debug api objects t items i path = .ok outs) ∧
    ∀ outs, coerceItems debug api objects t items i path = .ok outs →
      (∀ x ∈ items, Fits api objects t x) ∧ items.length = outs.length ∧
        (∀ x ∈ items.zip outs, Becomes api objects t x.1 x.2) ∧
          ∀ out ∈ outs, Normal debug api objects toJson t out := by
  induction items generalizing i with
  | nil =>
    rw [coerceItems]
    refine ⟨fun _ => ⟨[], rfl⟩, fun outs houts => ?_⟩
    obtain rfl := Except.ok.inj houts
    exact ⟨by simp, rfl, by simp, by simp⟩
  | cons item rest ih =>
    obtain ⟨htotal, hsound⟩ := h item List.mem_cons_self (path ++ "[" ++ toString i ++ "]")
    obtain ⟨htotals, hsounds⟩ := ih (fun x hx => h x (List.mem_cons_of_mem _ hx)) (i + 1)
    rw [coerceItems]
    simp only [bind_eq_ok]
    constructor
    · intro hfits
      obtain ⟨out, hout⟩ := htotal (hfits item List.mem_cons_self)
      obtain ⟨outs, houts⟩ := htotals fun x hx => hfits x (List.mem_cons_of_mem _ hx)
      exact ⟨out :: outs, out, hout, outs, houts, rfl⟩
    · rintro - ⟨out, hout, outs, houts, ⟨⟩⟩
      obtain ⟨hfit, hbecomes, hnormal⟩ := hsound out hout
      obtain ⟨hfits, hlength, hall, hnormals⟩ := hsounds outs houts
      refine ⟨List.forall_mem_cons.mpr ⟨hfit, hfits⟩, congrArg (· + 1) hlength, ?_,
        List.forall_mem_cons.mpr ⟨hnormal, hnormals⟩⟩
      rw [List.zip_cons_cons]
      exact List.forall_mem_cons.mpr ⟨hbecomes, hall⟩

/-- Normal items are coerced to themselves. -/
theorem coerceItems_normal {t : TypeRefSpec} {outs : List (Value N)}
    (h : ∀ out ∈ outs, Normal debug api objects toJson t out) (i : ℕ) (path : String) :
    coerceItems debug api objects t (outs.map toJson) i path = .ok outs := by
  induction outs generalizing i with
  | nil =>
    rw [List.map_nil, coerceItems]
  | cons out outs ih =>
    rw [List.map_cons, coerceItems, (h out List.mem_cons_self).2, ih fun x hx =>
      h x (List.mem_cons_of_mem _ hx)]
    rfl

/-- The fields of an object. -/
theorem coerceFields_spec {fields : List FieldSpec} {members : List (String × Json N)}
    (h : ∀ f ∈ fields, Exactly debug api objects toJson f.ty (memberOr members f.name))
    (path : String) :
    ((∀ f ∈ fields, Fits api objects f.ty (memberOr members f.name)) →
      ∃ outs, coerceFields debug api objects fields members path = .ok outs) ∧
    ∀ outs, coerceFields debug api objects fields members path = .ok outs →
      (∀ f ∈ fields, Fits api objects f.ty (memberOr members f.name)) ∧
        outs.map Prod.fst = fields.map FieldSpec.name ∧
          ∀ x ∈ fields.zip outs, Becomes api objects x.1.ty (memberOr members x.1.name) x.2.2 ∧
            Normal debug api objects toJson x.1.ty x.2.2 := by
  induction fields with
  | nil =>
    rw [coerceFields]
    refine ⟨fun _ => ⟨[], rfl⟩, fun outs houts => ?_⟩
    obtain rfl := Except.ok.inj houts
    exact ⟨by simp, rfl, by simp⟩
  | cons f rest ih =>
    obtain ⟨htotal, hsound⟩ := h f List.mem_cons_self (path ++ "." ++ f.name)
    obtain ⟨htotals, hsounds⟩ := ih fun x hx => h x (List.mem_cons_of_mem _ hx)
    rw [coerceFields]
    simp only [bind_eq_ok]
    constructor
    · intro hfits
      obtain ⟨out, hout⟩ := htotal (hfits f List.mem_cons_self)
      obtain ⟨outs, houts⟩ := htotals fun x hx => hfits x (List.mem_cons_of_mem _ hx)
      exact ⟨(f.name, out) :: outs, out, hout, outs, houts, rfl⟩
    · rintro - ⟨out, hout, outs, houts, ⟨⟩⟩
      obtain ⟨hfit, hhead⟩ := hsound out hout
      obtain ⟨hfits, hnames, hall⟩ := hsounds outs houts
      refine ⟨List.forall_mem_cons.mpr ⟨hfit, hfits⟩, congrArg (f.name :: ·) hnames, ?_⟩
      rw [List.zip_cons_cons]
      exact List.forall_mem_cons.mpr ⟨hhead, hall⟩

/-- A named field is found. -/
theorem memberOr_fields {outs : List (String × Value N)} (hnodup : (outs.map Prod.fst).Nodup)
    {p : String × Value N}
    (hp : p ∈ outs) : memberOr (outs.map fun p => (p.1, toJson p.2)) p.1 = toJson p.2 := by
  unfold memberOr
  induction outs with
  | nil => exact absurd hp List.not_mem_nil
  | cons q outs ih =>
    obtain ⟨k, v⟩ := q
    obtain ⟨hnew, hnodup⟩ := List.nodup_cons.mp hnodup
    rw [List.map_cons, List.lookup_cons]
    rcases List.mem_cons.mp hp with rfl | hmem
    · rw [beq_self_eq_true]
      rfl
    · have hne : (p.1 == k) = false := by
        rw [beq_eq_false_iff_ne]
        rintro rfl
        exact hnew (List.mem_map.mpr ⟨p, hmem, rfl⟩)
      rw [hne]
      exact ih hnodup hmem

/-- Normal fields are coerced to themselves. -/
theorem coerceFields_normal {fields : List FieldSpec} {members : List (String × Json N)}
    {outs : List (String × Value N)} (hnames : outs.map Prod.fst = fields.map FieldSpec.name)
    (hmembers : ∀ p ∈ outs, memberOr members p.1 = toJson p.2)
    (h : ∀ x ∈ fields.zip outs, Normal debug api objects toJson x.1.ty x.2.2) (path : String) :
    coerceFields debug api objects fields members path = .ok outs := by
  induction fields generalizing outs with
  | nil =>
    obtain rfl := List.map_eq_nil_iff.mp hnames
    rw [coerceFields]
  | cons f rest ih =>
    obtain ⟨⟨k, v⟩, outs', rfl, rfl, hrest⟩ := List.map_eq_cons_iff.mp hnames
    rw [List.zip_cons_cons] at h
    obtain ⟨hhead, htail⟩ := List.forall_mem_cons.mp h
    obtain ⟨hmember, hmembers⟩ := List.forall_mem_cons.mp hmembers
    rw [coerceFields, hmember, hhead.2, ih hrest hmembers htail]
    rfl

/-- The declared types a coercion looks names up in. -/
structure Declared (objects : List ObjectSpec) : Prop where
  distinct : (objects.map ObjectSpec.name).Nodup
  unreserved : ∀ t ∈ objects, t.name ∉ RESERVED_TYPES
  fields : ∀ t ∈ objects, (t.fields.map FieldSpec.name).Nodup

/-- A declared name stands for its type. -/
theorem Declared.find {spec : ObjectSpec} (h : Declared objects) (hmem : spec ∈ objects) :
    (objects.find? fun t => t.name == spec.name) = some spec := by
  have hdistinct := h.distinct
  clear h
  induction objects with
  | nil => exact absurd hmem List.not_mem_nil
  | cons t rest ih =>
    obtain ⟨hnew, hrest⟩ := List.nodup_cons.mp hdistinct
    rcases List.mem_cons.mp hmem with rfl | hmem'
    · exact List.find?_cons_of_pos (beq_self_eq_true _)
    · rw [List.find?_cons_of_neg]
      · exact ih hmem' hrest
      · rw [beq_iff_eq]
        intro heq
        exact hnew (heq ▸ List.mem_map_of_mem hmem')

/-- A declared name is not a scalar's. -/
theorem Declared.not_scalar {spec : ObjectSpec} (h : Declared objects) (hmem : spec ∈ objects)
    {scalar : String} (hs : scalar ∈ RESERVED_TYPES) : spec.name ≠ scalar := fun heq =>
      h.unreserved spec hmem (heq ▸ hs)

theorem coerceBase_object (h : Declared objects) {spec : ObjectSpec} (hmem : spec ∈ objects)
    (members : List (String × Json N)) (path : String) :
    coerceBase debug api objects spec.name (.object members) path =
      (coerceFields debug api objects spec.fields members path).map .object := by
  rw [coerceBase, if_neg (h.not_scalar hmem (by decide)), if_neg (h.not_scalar hmem (by decide)),
    if_neg (h.not_scalar hmem (by decide)), if_neg (h.not_scalar hmem (by decide)),
    if_neg (h.not_scalar hmem (by decide)), if_neg (h.not_scalar hmem (by decide)), h.find hmem]
  all_goals
    intro _ hc
    exact absurd hc (by simp)

/-- What fits a base is coerced. -/
theorem coerceBase_total (h : Declared objects) {base : String} {v : Json N}
    (hfits : FitsBase api objects base v)
    (hfields : ∀ members, v = .object members → ∀ spec ∈ objects, ∀ f ∈ spec.fields,
      Exactly debug api objects toJson f.ty (memberOr members f.name)) (path : String) :
    ∃ out, coerceBase debug api objects base v path = .ok out := by
  cases hfits with
  | json v =>
    rw [coerceBase.eq_def]
    exact ⟨_, if_pos rfl⟩
  | string s =>
    rw [coerceBase.eq_def]
    exact ⟨.string s, rfl⟩
  | boolean b =>
    rw [coerceBase.eq_def]
    exact ⟨.boolean b, rfl⟩
  | @int n i hi hlo hhi =>
    refine ⟨.number (api.ofI64 i), ?_⟩
    rw [coerceBase.eq_def]
    show (match api.asI64 n with
      | some i => if -2 ^ 31 ≤ i ∧ i < 2 ^ 31 then Except.ok (Value.number (api.ofI64 i)) else _
      | none => _) = _
    rw [hi]
    exact if_pos ⟨hlo, hhi⟩
  | @float n n' d hd hn =>
    refine ⟨.number n', ?_⟩
    rw [coerceBase.eq_def]
    show (match (api.asF64 n).bind api.ofF64 with
      | some n => Except.ok (Value.number n)
      | none => _) = _
    rw [hd, Option.bind_some, hn]
  | @u64 n k hk =>
    refine ⟨.string (toString k), ?_⟩
    rw [coerceBase.eq_def]
    show (match api.asU64 n with
      | some k => Except.ok (Value.string (toString k))
      | none => _) = _
    rw [hk]
  | @u64Text s k hk =>
    refine ⟨.string (toString k), ?_⟩
    rw [coerceBase.eq_def]
    show (match parseU64 s with
      | some k => Except.ok (Value.string (toString k))
      | none => _) = _
    rw [parseU64_iff.mpr hk]
  | @object spec members hmem hall =>
    -- the fields are smaller values, for which the claim is known
    obtain ⟨htotal, -⟩ := coerceFields_spec (hfields members rfl spec hmem) path
    obtain ⟨outs, houts⟩ := htotal hall
    rw [coerceBase_object h hmem, houts]
    exact ⟨.object outs, rfl⟩

/-- What is coerced to a base fits it, stands for it and is normal. -/
theorem coerceBase_sound (hapi : api.Lawful) (hjson : Serializes toJson) (h : Declared objects)
    {base : String} {v : Json N} (hv : v ≠ .null)
    (hfields : ∀ members, v = .object members → ∀ spec ∈ objects, ∀ f ∈ spec.fields,
      Exactly debug api objects toJson f.ty (memberOr members f.name)) {path : String}
    {out : Value N}
    (hout : coerceBase debug api objects base v path = .ok out) :
    FitsBase api objects base v ∧ out ≠ .null ∧ BecomesBase api objects base v out ∧
      HoldsBase api objects base out ∧
      ∀ path, coerceBase debug api objects base (toJson out) path = .ok out := by
  rw [coerceBase.eq_def] at hout
  split_ifs at hout with hbase hstring hboolean hint hfloat hu64
  · subst hbase
    obtain rfl := Except.ok.inj hout
    refine ⟨.json v, jsonToGql_ne_null hv, .json v, .json v, fun path => ?_⟩
    rw [hjson.jsonToGql, coerceBase.eq_def]
    exact if_pos rfl
  · subst hstring
    cases v with
    | string s =>
      obtain rfl := Except.ok.inj hout
      refine ⟨.string s, by simp, .string s, .string s, fun path => ?_⟩
      rw [hjson.string, coerceBase.eq_def]
      rfl
    | _ => exact absurd hout (by simp)
  · subst hboolean
    cases v with
    | bool b =>
      obtain rfl := Except.ok.inj hout
      refine ⟨.boolean b, by simp, .boolean b, .boolean b, fun path => ?_⟩
      rw [hjson.boolean, coerceBase.eq_def]
      rfl
    | _ => exact absurd hout (by simp)
  · subst hint
    cases v with
    | number n =>
      cases hi : api.asI64 n with
      | none =>
        simp only [hi] at hout
        exact absurd hout (by simp)
      | some i =>
        simp only [hi] at hout
        split_ifs at hout with hrange
        obtain rfl := Except.ok.inj hout
        refine ⟨.int hi hrange.1 hrange.2, by simp, .int hi hrange.1 hrange.2,
          .int hrange.1 hrange.2, fun path => ?_⟩
        rw [hjson.number, coerceBase.eq_def]
        show (match api.asI64 (api.ofI64 i) with
          | some i => if -2 ^ 31 ≤ i ∧ i < 2 ^ 31 then Except.ok (Value.number (api.ofI64 i)) else _
          | none => _) = _
        rw [hapi.asI64_ofI64 (by omega) (by omega)]
        exact if_pos hrange
    | _ => exact absurd hout (by simp)
  · subst hfloat
    cases v with
    | number n =>
      cases hn : (api.asF64 n).bind api.ofF64 with
      | none =>
        simp only [hn] at hout
        exact absurd hout (by simp)
      | some n' =>
        simp only [hn] at hout
        obtain rfl := Except.ok.inj hout
        obtain ⟨d, hd, hn'⟩ := Option.bind_eq_some_iff.mp hn
        refine ⟨.float hd hn', by simp, .float hd hn', .float hn', fun path => ?_⟩
        rw [hjson.number, coerceBase.eq_def]
        show (match (api.asF64 n').bind api.ofF64 with
          | some n => Except.ok (Value.number n)
          | none => _) = _
        rw [hapi.asF64_ofF64 hn', Option.bind_some, hn']
    | _ => exact absurd hout (by simp)
  · subst hu64
    -- a number or a text, printed the one way
    have hprinted : ∀ k < 2 ^ 64, HoldsBase api objects "U64" (.string (toString k) : Value N) ∧
        ∀ path, coerceBase debug api objects "U64" (toJson (.string (toString k))) path =
          .ok (.string (toString k)) := by
      intro k hk
      refine ⟨.u64 hk, fun path => ?_⟩
      rw [hjson.string, coerceBase.eq_def]
      show (match parseU64 (toString k) with
        | some k => Except.ok (Value.string (toString k))
        | none => _) = _
      rw [parseU64_toString hk]
    cases v with
    | number n =>
      cases hk : api.asU64 n with
      | none =>
        simp only [hk] at hout
        exact absurd hout (by simp)
      | some k =>
        simp only [hk] at hout
        obtain rfl := Except.ok.inj hout
        exact ⟨.u64 hk, by simp, .u64 hk, hprinted k (hapi.asU64_lt hk)⟩
    | string s =>
      cases hk : parseU64 s with
      | none =>
        simp only [hk] at hout
        exact absurd hout (by simp)
      | some k =>
        simp only [hk] at hout
        obtain rfl := Except.ok.inj hout
        obtain ⟨digits, htext, hne, hall, hval, hlt⟩ := parseU64_iff.mp hk
        have hdecimal : Decimal s k := ⟨digits, htext, hne, hall, hval, hlt⟩
        exact ⟨.u64Text hdecimal, by simp, .u64Text hdecimal, hprinted k hlt⟩
    | _ => exact absurd hout (by simp)
  · cases hfind : objects.find? fun t => t.name == base with
    | none =>
      rw [hfind] at hout
      exact absurd hout (by simp)
    | some spec =>
      have hmem := List.mem_of_find?_eq_some hfind
      have hname := List.find?_some (p := fun t : ObjectSpec => t.name == base) hfind
      obtain rfl : spec.name = base := beq_iff_eq.mp hname
      rw [hfind] at hout
      cases v with
      | object members =>
        obtain ⟨outs, houts, rfl⟩ := map_eq_ok.mp hout
        obtain ⟨hfit, hnames, hall⟩ :=
          (coerceFields_spec (hfields members rfl spec hmem) path).2 outs houts
        refine ⟨.object hmem hfit, by simp, .object hmem hnames fun x hx => (hall x hx).1,
          .object hmem hnames fun x hx => (hall x hx).2.1, fun path => ?_⟩
        have hnodup : (outs.map Prod.fst).Nodup := hnames ▸ h.fields spec hmem
        rw [hjson.object, coerceBase_object h hmem,
          coerceFields_normal hnames (fun p hp => memberOr_fields hnodup hp) fun x hx =>
            (hall x hx).2]
        rfl
      | _ => exact absurd hout (by simp)

/-! ### Every value -/

theorem exactly_null (hjson : Serializes toJson) (t : TypeRefSpec) :
    Exactly debug api objects toJson t .null := by
  intro path
  rw [coerce_null]
  constructor
  · intro hfits
    cases hfits with
    | null hnn =>
      rw [hnn]
      exact ⟨.null, rfl⟩
    | base hlist hne hbase => exact absurd rfl hne
  · intro out hout
    split_ifs at hout with hnn
    obtain rfl := Except.ok.inj hout
    have hnull := Bool.eq_false_iff.mpr hnn
    refine ⟨.null hnull, .null hnull, .null hnull, fun path => ?_⟩
    rw [hjson.null, coerce_null, hnull]
    rfl

/-- **The coercion is exact**, by induction on the size of the value: the types may
be recursive. -/
theorem coerce_spec (hapi : api.Lawful) (hjson : Serializes toJson) (h : Declared objects) (n : ℕ) :
    ∀ v : Json N, sizeOf v < n → ∀ t, Exactly debug api objects toJson t v := by
  induction n with
  | zero => exact fun v hv => absurd hv (Nat.not_lt_zero _)
  | succ n ih =>
    intro v hv t
    by_cases hnull : v = .null
    · subst hnull
      exact exactly_null hjson t
    intro path
    cases hlist : t.list with
    | true =>
      constructor
      · intro hfits
        cases hfits with
        | null => exact absurd rfl hnull
        | @list _ items _ hall =>
          -- the items of a list are smaller than the list
          have hsmall : ∀ x ∈ items, Exactly debug api objects toJson t.elem x := fun x hx =>
            ih x
              (by have := List.sizeOf_lt_of_mem hx; simp only [Json.array.sizeOf_spec] at hv; omega)
              t.elem
          obtain ⟨outs, houts⟩ := (coerceItems_spec hsmall 0 path).1 hall
          rw [coerce_list hlist hnull]
          exact ⟨.list outs, by simp only [houts]; rfl⟩
        | base hplain => exact absurd (hlist.symm.trans hplain) (by simp)
      · intro out hout
        obtain ⟨items, rfl⟩ := coerce_list_ok hlist hnull hout
        have hsmall : ∀ x ∈ items, Exactly debug api objects toJson t.elem x := fun x hx =>
          ih x
            (by have := List.sizeOf_lt_of_mem hx; simp only [Json.array.sizeOf_spec] at hv; omega)
            t.elem
        rw [coerce_list hlist hnull] at hout
        obtain ⟨outs, houts, rfl⟩ := map_eq_ok.mp hout
        obtain ⟨hall, hlength, hbecomes, hnormal⟩ := (coerceItems_spec hsmall 0 path).2 outs houts
        refine ⟨.list hlist hall, .list hlist hlength hbecomes, .list hlist fun x hx =>
          (hnormal x hx).1, fun path => ?_⟩
        rw [hjson.list, coerce_list hlist (by simp)]
        simp only [coerceItems_normal hnormal]
        rfl
    | false =>
      have hfields : ∀ members, v = .object members → ∀ spec ∈ objects, ∀ f ∈ spec.fields,
          Exactly debug api objects toJson f.ty (memberOr members f.name) := by
        -- a member, or the `null` in its place, is smaller than its object
        rintro members rfl spec - f -
        exact ih _ (by have := sizeOf_memberOr members f.name; omega) f.ty
      rw [coerce_plain hlist hnull]
      constructor
      · intro hfits
        cases hfits with
        | null => exact absurd rfl hnull
        | list hl => exact absurd (hlist.symm.trans hl) (by simp)
        | base _ _ hbase => exact coerceBase_total h hbase hfields path
      · intro out hout
        obtain ⟨hbase, hne, hbecomes, hholds, hnormal⟩ :=
          coerceBase_sound hapi hjson h hnull hfields hout
        refine ⟨.base hlist hnull hbase, .base hlist hnull hbecomes, .base hlist hne hholds,
          fun path => ?_⟩
        rw [coerce_plain hlist (hjson.ne_null hne)]
        exact hnormal path

end

theorem ModuleSchema.Valid.declaredTypes {s : ModuleSchema} (h : s.Valid) : Declared s.types where
  distinct := h.distinct
  unreserved t ht := (h.types t ht).2.1
  fields t ht := (h.types t ht).2.2.2.distinct

/-- **Output coercion is sound and complete.**  For every descriptor that is
accepted, every type over its object types and all JSON a module returns: the output
is accepted exactly when it fits the type; the result stands for the output and is a
value of the type, with exactly the declared fields in every object; and on the wire it
is coerced to itself. -/
theorem coerce_exact {debug : String → String} {api : NumberApi N D} (hapi : api.Lawful)
    {toJson : Value N → Json N}
    (hjson : Serializes toJson) {fromSlice : Bytes → Except String (Json N)}
    {moduleName : String} {descriptor : Bytes} {s : ModuleSchema}
    (h : parseDescriptor debug fromSlice moduleName descriptor = .ok s) (t : TypeRefSpec) :
    (∀ raw v, fromSlice raw = .ok v →
      ((∃ out, normalizeOutput debug api fromSlice s t raw = .ok out) ↔ Fits api s.types t v)) ∧
    ∀ raw out, normalizeOutput debug api fromSlice s t raw = .ok out →
      (∃ v, fromSlice raw = .ok v ∧ Becomes api s.types t v out) ∧
        Holds api s.types t out ∧ ∀ path, coerce debug api s.types t
          (toJson out) path = .ok out := by
  have hvalid : s.Valid := by
    unfold parseDescriptor at h
    simp only [bind_eq_ok] at h
    obtain ⟨-, -, -, -, -, -, root, -, hroot⟩ := h
    exact (parseRoot_valid hroot).1
  have hspec : ∀ v : Json N, Exactly debug api s.types toJson t v := fun v =>
    coerce_spec hapi hjson hvalid.declaredTypes (sizeOf v + 1) v (Nat.lt_succ_self _) t
  -- what is no JSON is an error; the rest is coerced at `output`
  have hread {raw : Bytes} {v : Json N} (hraw : fromSlice raw = .ok v) :
      normalizeOutput debug api fromSlice s t raw = coerce debug api s.types t v "output" := by
    unfold normalizeOutput
    rw [hraw]
    rfl
  constructor
  · intro raw v hraw
    rw [hread hraw]
    obtain ⟨htotal, hsound⟩ := hspec v "output"
    constructor
    · rintro ⟨out, hout⟩
      exact (hsound out hout).1
    · exact htotal
  · intro raw out hout
    cases hraw : fromSlice raw with
    | error e =>
      unfold normalizeOutput at hout
      rw [hraw] at hout
      exact absurd hout (by simp [Except.mapError, bind, Except.bind])
    | ok v =>
      rw [hread hraw] at hout
      obtain ⟨-, hbecomes, hnormal⟩ := (hspec v "output").2 out hout
      exact ⟨⟨v, rfl, hbecomes⟩, hnormal⟩

/-- Numbers of the two integer forms, and no doubles. -/
def intNumbers : NumberApi ℤ Empty where
  asU64 n := if 0 ≤ n ∧ n < 2 ^ 64 then some n.toNat else none
  asI64 n := if -2 ^ 63 ≤ n ∧ n < 2 ^ 63 then some n else none
  asF64 _ := none
  ofI64 := id
  ofF64 d := d.elim

theorem lawful_intNumbers : intNumbers.Lawful where
  asU64_lt {n k} h := by
    obtain ⟨hrange, heq⟩ := Option.ite_none_right_eq_some.mp h
    obtain rfl := Option.some_inj.mp heq
    omega
  asI64_ofI64 hlo hhi := if_pos ⟨hlo, hhi⟩
  asF64_ofF64 {d} := d.elim

mutual

/-- A value on the wire. -/
def gqlToJson : Value N → Json N
  | .null => .null
  | .boolean b => .bool b
  | .number n => .number n
  | .string s => .string s
  | .list items => .array (gqlToJsonItems items)
  | .object fields => .object (gqlToJsonFields fields)

def gqlToJsonItems : List (Value N) → List (Json N)
  | [] => []
  | v :: rest => gqlToJson v :: gqlToJsonItems rest

def gqlToJsonFields : List (String × Value N) → List (String × Json N)
  | [] => []
  | (k, v) :: rest => (k, gqlToJson v) :: gqlToJsonFields rest

end

theorem serializes_gqlToJson : Serializes (gqlToJson (N := N)) where
  null := rfl
  number _ := rfl
  string _ := rfl
  boolean _ := rfl
  list items := by
    rw [gqlToJson]
    refine congrArg Json.array ?_
    induction items with
    | nil => rfl
    | cons v rest ih => exact congrArg (gqlToJson v :: ·) ih
  object fields := by
    rw [gqlToJson]
    refine congrArg Json.object ?_
    induction fields with
    | nil => rfl
    | cons p rest ih => exact congrArg ((p.1, gqlToJson p.2) :: ·) ih

/-- One node, and its text. -/
def oneNode : Json ℤ := .array [.object [("id", .string "+07"), ("junk", .bool true)]]

def oneNodeText : Bytes :=
  "[\x7b\"id\":\"+07\",\"junk\":true\x7d]".toList.map fun c => Fin.ofNat 256 c.toNat

def readNodes (bytes : Bytes) : Except String (Json ℤ) :=
  if bytes = nodeText then .ok nodeSchema.json
  else if bytes = oneNodeText then .ok oneNode
  else .error "expected value"

theorem oneNode_fits : Fits intNumbers [nodeType] ⟨"Node", true, true, true⟩ oneNode := by
  refine .list rfl fun x hx => ?_
  obtain rfl := List.mem_singleton.mp hx
  refine .base rfl (by simp) (@FitsBase.object _ _ _ _ nodeType _ List.mem_cons_self fun f hf => ?_)
  rcases List.mem_cons.mp hf with rfl | hf
  · exact .base rfl (by simp [memberOr])
      (.u64Text (k := 7) ⟨['0', '7'], Or.inr rfl, by simp, by simp, rfl, by omega⟩)
  · rcases List.mem_pair.mp hf with rfl | rfl
    · exact .null rfl
    · exact .null rfl

/-- A node without its optional fields is accepted by the descriptor of a recursive
type. -/
theorem coerce_exact_node :
    ∃ out, normalizeOutput (fun s => "\"" ++ s ++ "\"") intNumbers readNodes nodeSchema
    ⟨"Node", true, true, true⟩ oneNodeText = .ok out ∧
      Becomes intNumbers [nodeType] ⟨"Node", true, true, true⟩ oneNode out ∧
      Holds intNumbers [nodeType] ⟨"Node", true, true, true⟩ out := by
  have hparse : parseDescriptor (fun s => "\"" ++ s ++ "\"") readNodes "nodes" nodeText =
      .ok nodeSchema :=
    parseDescriptor_json nodeSchema_valid (by decide) (by decide) (by decide +kernel) (if_pos rfl)
  have hread : readNodes oneNodeText = .ok oneNode := by
    have hne : oneNodeText ≠ nodeText := by decide +kernel
    exact (if_neg hne).trans (if_pos rfl)
  obtain ⟨hiff, hsound⟩ :=
    coerce_exact lawful_intNumbers serializes_gqlToJson hparse ⟨"Node", true, true, true⟩
  obtain ⟨out, hout⟩ := (hiff oneNodeText oneNode hread).mpr oneNode_fits
  obtain ⟨⟨v, hv, hbecomes⟩, hholds, -⟩ := hsound oneNodeText out hout
  obtain rfl := Except.ok.inj (hread.symm.trans hv)
  exact ⟨out, hout, hbecomes, hholds⟩

end Graphql

end Fluent31
