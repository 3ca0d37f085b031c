import OasRs.Json
import OasRs.Lib.Table
import Mathlib.Data.Finset.Basic

/-!
# The Schema Registry

A model of `src/schema.rs`: `SchemaRegistry` with `define` and `define_input`, and the
`ApiSchema` impls of the library's own types.

A type that derives `ApiSchema` is an element of `ι`, which stands for its
`std::any::type_name`. What the derive generates for it is an `Impl`. Schema generation
may not return, so it runs with fuel: `schemaOf impls fuel` is the pair of
`schema_with` and `request_schema_with`, with calls nested at most `fuel` deep.

## Overview

- `SchemaRegistry.define`, `SchemaRegistry.defineInput`
- `RustType.schemaWith`: `Option`, `Vec`, `Box`, maps and scalars
- `schemaOf`: the generated impls, tied together
-/

namespace OasRs.Schema

open Lib

variable {ι : Type}

/-! ## The registry -/

/-- `InputState` -/
inductive InputState where
  /-- being built (a reference met meanwhile is a cycle) -/
  | building
  | done (schema : Json)
  deriving DecidableEq

/-- `SchemaRegistry` -/
structure SchemaRegistry (ι : Type) where
  inline : Bool
  definitions : Table String Json
  owners : Table String ι
  conflicts : List String
  /-- types being inlined right now -/
  stack : List ι
  /-- the request-side schema of each type that has one -/
  inputs : Table ι InputState
  /-- types whose request form is known to differ from their output -/
  inputDiffers : Finset ι
  /-- types referred to while being built, on the assumption that they do not differ -/
  assumedSame : Finset ι
  /-- types finished (and the `{Name}Input` they registered), in order -/
  completed : List (ι × Option String)

/-- A computation on a registry that may run out of fuel. -/
abbrev Gen (ι α : Type) : Type := StateT (SchemaRegistry ι) Option α

theorem bind_apply {α β : Type} (x : Gen ι α) (f : α → Gen ι β) (r : SchemaRegistry ι) :
    (x >>= f) r = (x r).bind fun p => f p.1 p.2 := rfl

theorem pure_apply {α : Type} (a : α) (r : SchemaRegistry ι) :
    (pure a : Gen ι α) r = some (a, r) := rfl

/-- The reference to a component. -/
def reference (component : String) : Json :=
  .object [("$ref", .str ("#/components/schemas/" ++ component))]

/-- `{ "type": "object" }`, where a recursion is cut off -/
def plainObject : Json := .object [("type", .str "object")]

namespace SchemaRegistry

variable [DecidableEq ι]

/-- `SchemaRegistry::document` -/
def document : SchemaRegistry ι where
  inline := false
  definitions := ∅
  owners := ∅
  conflicts := []
  stack := []
  inputs := ∅
  inputDiffers := ∅
  assumedSame := ∅
  completed := []

/-- `SchemaRegistry::inline` -/
def inlined : SchemaRegistry ι := { document with inline := true }

/-- Record a conflict of names, once. -/
def conflict (registry : SchemaRegistry ι) (name : String) : SchemaRegistry ι :=
  if name ∈ registry.conflicts then registry
  else { registry with conflicts := registry.conflicts ++ [name] }

/-- `define::<T>`, where `owner` is the name of `T` -/
def define (owner : ι) (name : String) (build : Gen ι Json) : Gen ι Json := fun registry =>
  if registry.inline then
    if owner ∈ registry.stack then some (plainObject, registry)
    else do
      let (schema, registry) ← build { registry with stack := registry.stack ++ [owner] }
      some (schema, { registry with stack := registry.stack.dropLast })
  else
    match registry.owners.lookup name with
    | some existing =>
      some (reference name, if existing = owner then registry else registry.conflict name)
    | none => do
      -- `owners` already stops a type that contains itself
      let (schema, registry) ← build { registry with
        owners := registry.owners.insert name owner
        definitions := registry.definitions.insert name .null }
      some (reference name,
        { registry with definitions := registry.definitions.insert name schema })

theorem define_of_owned {registry : SchemaRegistry ι} {owner : ι} {name : String}
    {build : Gen ι Json} (hdocument : registry.inline = false)
    (howner : registry.owners.lookup name = some owner) :
    define owner name build registry = some (reference name, registry) := by
  simp [define, hdocument, howner]

theorem define_of_new {registry registry' : SchemaRegistry ι} {owner : ι} {name : String}
    {build : Gen ι Json} {schema : Json} (hdocument : registry.inline = false)
    (howner : registry.owners.lookup name = none)
    (hbuild : build { registry with
      owners := registry.owners.insert name owner
      definitions := registry.definitions.insert name .null } = some (schema, registry')) :
    define owner name build registry = some (reference name,
      { registry' with definitions := registry'.definitions.insert name schema }) := by
  unfold define
  rw [if_neg (by simp [hdocument])]
  simp only [howner, hbuild]
  rfl

/-- The name of a request form. -/
def inputName (name : String) : String := name ++ "Input"

/-- Forget a type that was completed, and the component that it registered. -/
def forget (registry : SchemaRegistry ι) (entry : ι × Option String) : SchemaRegistry ι :=
  let registry := { registry with inputs := registry.inputs.erase entry.1 }
  match entry.2 with
  | some component => { registry with
      definitions := registry.definitions.erase component
      owners := registry.owners.erase component }
  | none => registry

/-- Forget the types that were completed since there were `startedAt` of them
    (`completed.split_off`). -/
def discard (registry : SchemaRegistry ι) (startedAt : ℕ) : SchemaRegistry ι :=
  (registry.completed.drop startedAt).foldl forget
    { registry with completed := registry.completed.take startedAt }

/-- Register the request form of a type under `name ++ "Input"`. -/
def registerInput (registry : SchemaRegistry ι) (owner : ι) (name : String) (built : Json) :
    SchemaRegistry ι :=
  let register : SchemaRegistry ι := { registry with
    owners := registry.owners.insert (inputName name) owner
    definitions := registry.definitions.insert (inputName name) built }
  match registry.owners.lookup (inputName name) with
  | some existing => if existing = owner then register else registry.conflict (inputName name)
  | none => register

/-- The end of `define_input`: the type is done. -/
def finish (registry : SchemaRegistry ι) (owner : ι) (result : Json) (defined : Option String) :
    SchemaRegistry ι :=
  { registry with
    inputs := registry.inputs.insert owner (.done result)
    completed := registry.completed ++ [(owner, defined)] }

/-- `define_input::<T>` -/
def defineInput (owner : ι) (name : String) (output input : Gen ι Json) : Gen ι Json :=
  fun registry =>
  if registry.inline then define owner name input registry
  else
    match registry.inputs.lookup owner with
    | some (.done schema) => some (schema, registry)
    | some .building =>
      if owner ∈ registry.inputDiffers then some (reference (inputName name), registry)
      else some (reference name, { registry with assumedSame := insert owner registry.assumedSame })
    | none => do
      let startedAt := registry.completed.length
      let registry := { registry with inputs := registry.inputs.insert owner .building }
      let (outputRef, registry) ← define owner name output registry
      let (built, registry) ← input registry
      if registry.definitions.lookup name = some built then
        some (outputRef, registry.finish owner outputRef none)
      else do
        let registry := { registry with inputDiffers := insert owner registry.inputDiffers }
        let (built, registry) ←
          if owner ∈ registry.assumedSame then
            -- Something built meanwhile referred to this type as if it were unchanged.
            input (discard { registry with assumedSame := registry.assumedSame.erase owner } startedAt)
          else some (built, registry)
        let registry := registry.registerInput owner name built
        some (reference (inputName name),
          registry.finish owner (reference (inputName name)) (some (inputName name)))

/-! ### What forgetting changes -/

theorem forget_rest (registry : SchemaRegistry ι) (entry : ι × Option String) :
    registry.forget entry = { registry with
      inputs := (registry.forget entry).inputs
      definitions := (registry.forget entry).definitions
      owners := (registry.forget entry).owners } := by
  unfold forget
  cases entry.2 <;> rfl

theorem lookup_forget (registry : SchemaRegistry ι) (entry : ι × Option String) (name : String) :
    (registry.forget entry).definitions.lookup name =
        (if some name = entry.2 then none else registry.definitions.lookup name) ∧
      (registry.forget entry).owners.lookup name =
        (if some name = entry.2 then none else registry.owners.lookup name) := by
  unfold forget
  cases entry.2 with
  | none => simp
  | some component => simp [Table.lookup_erase]

theorem inputs_forget (registry : SchemaRegistry ι) (entry : ι × Option String) (type : ι) :
    (registry.forget entry).inputs.lookup type =
      if type = entry.1 then none else registry.inputs.lookup type := by
  unfold forget
  cases entry.2 <;> exact Table.lookup_erase _ _ _

theorem foldl_forget_rest (entries : List (ι × Option String)) (registry : SchemaRegistry ι) :
    entries.foldl forget registry = { registry with
      inputs := (entries.foldl forget registry).inputs
      definitions := (entries.foldl forget registry).definitions
      owners := (entries.foldl forget registry).owners } := by
  induction entries generalizing registry with
  | nil => rfl
  | cons entry entries ih =>
    rw [List.foldl_cons, ih, forget_rest]

theorem lookup_foldl_forget (entries : List (ι × Option String)) (registry : SchemaRegistry ι)
    (name : String) :
    (entries.foldl forget registry).definitions.lookup name =
        (if some name ∈ entries.map Prod.snd then none else registry.definitions.lookup name) ∧
      (entries.foldl forget registry).owners.lookup name =
        (if some name ∈ entries.map Prod.snd then none else registry.owners.lookup name) := by
  induction entries generalizing registry with
  | nil => simp
  | cons entry entries ih =>
    obtain ⟨hdefinitions, howners⟩ := ih (registry.forget entry)
    obtain ⟨hdefinitions', howners'⟩ := lookup_forget registry entry name
    rw [List.foldl_cons, hdefinitions, howners, hdefinitions', howners', List.map_cons]
    by_cases hentry : some name = entry.2
    · simp [hentry]
    · by_cases hmem : some name ∈ entries.map Prod.snd
      · simp only [hmem, List.mem_cons_of_mem _ hmem, if_true, and_self]
      · simp only [hmem, hentry, List.mem_cons, or_self, if_false, and_self]

theorem inputs_foldl_forget (entries : List (ι × Option String)) (registry : SchemaRegistry ι)
    (type : ι) : (entries.foldl forget registry).inputs.lookup type =
      if type ∈ entries.map Prod.fst then none else registry.inputs.lookup type := by
  induction entries generalizing registry with
  | nil => simp
  | cons entry entries ih =>
    rw [List.foldl_cons, ih, inputs_forget, List.map_cons]
    by_cases hentry : type = entry.1
    · simp [hentry]
    · by_cases hmem : type ∈ entries.map Prod.fst
      · simp only [hmem, List.mem_cons_of_mem _ hmem, if_true]
      · simp only [hmem, hentry, List.mem_cons, or_self, if_false]

theorem discard_rest (registry : SchemaRegistry ι) (startedAt : ℕ) :
    registry.discard startedAt = { registry with
      inputs := (registry.discard startedAt).inputs
      definitions := (registry.discard startedAt).definitions
      owners := (registry.discard startedAt).owners
      completed := registry.completed.take startedAt } :=
  foldl_forget_rest _ _

theorem inputs_discard (registry : SchemaRegistry ι) (startedAt : ℕ) (type : ι) :
    (registry.discard startedAt).inputs.lookup type =
      if type ∈ (registry.completed.drop startedAt).map Prod.fst then none
      else registry.inputs.lookup type :=
  inputs_foldl_forget _ _ _

theorem definitions_discard (registry : SchemaRegistry ι) (startedAt : ℕ) (name : String) :
    (registry.discard startedAt).definitions.lookup name =
      if some name ∈ (registry.completed.drop startedAt).map Prod.snd then none
      else registry.definitions.lookup name :=
  (lookup_foldl_forget _ _ _).1

theorem owners_discard (registry : SchemaRegistry ι) (startedAt : ℕ) (name : String) :
    (registry.discard startedAt).owners.lookup name =
      if some name ∈ (registry.completed.drop startedAt).map Prod.snd then none
      else registry.owners.lookup name :=
  (lookup_foldl_forget _ _ _).2

/-! ### What `define_input` does -/

section DefineInput

variable {registry : SchemaRegistry ι} {owner : ι} {name : String} {output input : Gen ι Json}

theorem defineInput_of_done {schema : Json} (hdocument : registry.inline = false)
    (hdone : registry.inputs.lookup owner = some (.done schema)) :
    defineInput owner name output input registry = some (schema, registry) := by
  simp [defineInput, hdocument, hdone]

/-- A cycle: the type is taken to be unchanged unless it is known to differ. -/
theorem defineInput_of_building (hdocument : registry.inline = false)
    (hbuilding : registry.inputs.lookup owner = some .building) :
    defineInput owner name output input registry =
      if owner ∈ registry.inputDiffers then some (reference (inputName name), registry)
      else some (reference name,
        { registry with assumedSame := insert owner registry.assumedSame }) := by
  simp [defineInput, hdocument, hbuilding]

/-- A new type, once its output and its request body have been built. -/
theorem defineInput_of_new {outputRef built : Json} {registry₁ registry₂ : SchemaRegistry ι}
    (hdocument : registry.inline = false) (hnone : registry.inputs.lookup owner = none)
    (houtput : define owner name output
      { registry with inputs := registry.inputs.insert owner .building } = some (outputRef, registry₁))
    (hinput : input registry₁ = some (built, registry₂)) :
    defineInput owner name output input registry =
      if registry₂.definitions.lookup name = some built then
        some (outputRef, registry₂.finish owner outputRef none)
      else
        (if owner ∈ registry₂.assumedSame then
          input (discard { registry₂ with
            inputDiffers := insert owner registry₂.inputDiffers
            assumedSame := registry₂.assumedSame.erase owner } registry.completed.length)
        else some (built, { registry₂ with
          inputDiffers := insert owner registry₂.inputDiffers })).map fun p =>
        (reference (inputName name), (p.2.registerInput owner name p.1).finish owner
          (reference (inputName name)) (some (inputName name))) := by
  unfold defineInput
  rw [if_neg (by simp [hdocument])]
  simp only [hnone, houtput, Option.bind_eq_bind, Option.bind_some, hinput]
  split
  · rfl
  · split
    · simp only [Option.map_eq_bind]
      rfl
    · rfl

end DefineInput

end SchemaRegistry

/-! ## The library's own types -/

/-- The integer types with a range. -/
inductive IntKind where
  | i8 | i16 | i32 | i64 | u8 | u16 | u32 | u64
  deriving DecidableEq, Repr

namespace IntKind

/-- The OpenAPI format. -/
def format : IntKind → String
  | .i8 | .i16 | .i32 => "int32"
  | .i64 => "int64"
  | .u8 | .u16 | .u32 => "uint32"
  | .u64 => "uint64"

/-- `MIN` -/
def min : IntKind → ℤ
  | .i8 => -2 ^ 7
  | .i16 => -2 ^ 15
  | .i32 => -2 ^ 31
  | .i64 => -2 ^ 63
  | .u8 | .u16 | .u32 | .u64 => 0

/-- `MAX` -/
def max : IntKind → ℤ
  | .i8 => 2 ^ 7 - 1
  | .i16 => 2 ^ 15 - 1
  | .i32 => 2 ^ 31 - 1
  | .i64 => 2 ^ 63 - 1
  | .u8 => 2 ^ 8 - 1
  | .u16 => 2 ^ 16 - 1
  | .u32 => 2 ^ 32 - 1
  | .u64 => 2 ^ 64 - 1

end IntKind

/-- The scalar types. -/
inductive Scalar where
  | string
  | bool
  | int (kind : IntKind)
  | isize
  | usize
  | f32
  | f64
  | uuid
  /-- `serde_json::Value` -/
  | value
  deriving DecidableEq, Repr

/-- `schema` of a scalar type -/
def Scalar.schema : Scalar → Json
  | .string => .object [("type", .str "string")]
  | .bool => .object [("type", .str "boolean")]
  | .int kind => .object [("type", .str "integer"), ("format", .str kind.format),
      ("minimum", .num (.int kind.min)), ("maximum", .num (.int kind.max))]
  | .isize => .object [("type", .str "integer"), ("format", .str "int64")]
  | .usize => .object [("type", .str "integer"), ("format", .str "uint64"), ("minimum", .num (.int 0))]
  | .f32 => .object [("type", .str "number"), ("format", .str "float")]
  | .f64 => .object [("type", .str "number"), ("format", .str "double")]
  | .uuid => .object [("type", .str "string"), ("format", .str "uuid")]
  | .value => .object []

/-- The types with an `ApiSchema` impl. -/
inductive RustType (ι : Type) where
  | scalar (type : Scalar)
  /-- a type that derives `ApiSchema` -/
  | named (type : ι)
  | option (inner : RustType ι)
  | vec (inner : RustType ι)
  /-- `&T` -/
  | ref (inner : RustType ι)
  | box (inner : RustType ι)
  /-- `HashMap<String, V>` and `BTreeMap<String, V>` -/
  | map (inner : RustType ι)
  deriving DecidableEq, Repr

/-- The schema of `Option<T>` from that of `T`. -/
def optionSchema (inner : Json) : Json :=
  .object [("anyOf", .arr [inner, .object [("type", .str "null")]])]

/-- The schema of `Vec<T>` from that of `T`. -/
def vecSchema (items : Json) : Json := .object [("type", .str "array"), ("items", items)]

/-- The schema of a map from that of its values. -/
def mapSchema (values : Json) : Json :=
  .object [("type", .str "object"), ("additionalProperties", values)]

/-- What the derived types generate: `schema_with`, or `request_schema_with` when the flag
    is set. -/
abbrev Named (ι : Type) : Type := Bool → ι → Gen ι Json

/-- `schema_with` of a type, or `request_schema_with` -/
def RustType.schemaWith (named : Named ι) (request : Bool) : RustType ι → Gen ι Json
  | .scalar type => return type.schema
  | .named type => named request type
  | .option inner => do return optionSchema (← inner.schemaWith named request)
  | .vec inner => do return vecSchema (← inner.schemaWith named request)
  | .ref inner => inner.schemaWith named request
  | .box inner => inner.schemaWith named request
  | .map inner => do return mapSchema (← inner.schemaWith named request)

/-- `schema`, where a derived type is expanded with an inline registry of its own. -/
def RustType.schema [DecidableEq ι] (named : Named ι) : RustType ι → Option Json
  | .scalar type => some type.schema
  | .named type => (named false type .inlined).map Prod.fst
  | .option inner => (inner.schema named).map optionSchema
  | .vec inner => (inner.schema named).map vecSchema
  | .ref inner => inner.schema named
  | .box inner => inner.schema named
  | .map inner => (inner.schema named).map mapSchema

/-! ## Generated impls -/

/-- The `impl ApiSchema` of a derived type. -/
inductive Impl (ι : Type) where
  /-- `schema_impl`: a component, and the generated `__oas_schema_body` with its
      `__oas_request` flag -/
  | component (name : String) (body : Named ι → Bool → Gen ι Json)
  /-- `derive_transparent`: the impl of the single field's type -/
  | transparent (type : RustType ι)

/-- `schema_with` and `request_schema_with` of the derived types, with calls nested at most
    `fuel` deep. -/
def schemaOf [DecidableEq ι] (impls : ι → Impl ι) : ℕ → Named ι
  | 0, _, _ => fun _ => none
  | fuel + 1, request, type =>
    match impls type with
    | .component name body =>
      if request then
        SchemaRegistry.defineInput type name (body (schemaOf impls fuel) false)
          (body (schemaOf impls fuel) true)
      else SchemaRegistry.define type name (body (schemaOf impls fuel) false)
    | .transparent inner => inner.schemaWith (schemaOf impls fuel) request

end OasRs.Schema
