import OasRs.StructGraph
import OasRs.Lib.Plan

/-!
# What a Generated Body Asks

A generated body asks for the schemas of the derived types that its fields and variants mention:
in the registry that it is given, or, for a flattened field, in a fresh inline registry. Which
schemas it asks for depends neither on the registry nor on what the others are, so a body is a
`Plan`.

## Overview

- `Ask`, `Ask.run`: one schema that a body asks for
- `StructInput.plan`, `EnumInput.plan`: the bodies as plans
- `StructInput.body_eq_run`, `EnumInput.body_eq_run`: the generated bodies are these plans
- `DeriveInput.asks`: what the impl of a type asks for
- `derived_of_some`, `derived_of_none`: the generated impls
-/

namespace OasRs.Schema

open Lib SchemaRegistry

variable {ι : Type}

/-! ## Questions -/

/-- A schema that a body asks for. -/
inductive Ask (ι : Type) where
  /-- `schema_with` or `request_schema_with`, with the registry of the body -/
  | mention (type : ι)
  /-- the same with a fresh inline registry -/
  | flattened (type : ι)
  deriving DecidableEq

/-- Put the question to the derived types. -/
def Ask.run [DecidableEq ι] (named : Named ι) (request : Bool) : Ask ι → Gen ι Json
  | .mention type => named request type
  | .flattened type => StateT.lift ((named request type .inlined).map Prod.fst)

namespace RustType

/-- The schema of a type, with the question that its derived type is asked with. -/
def plan (question : ι → Ask ι) (type : RustType ι) : Plan (Ask ι) Json Json :=
  match type.named? with
  | none => .const (type.schemaFor fun _ => .null)
  | some mentioned => (Plan.ask (question mentioned)).map fun schema => type.schemaFor fun _ => schema

variable [DecidableEq ι] (named : Named ι) (request : Bool)

theorem schemaWith_eq_run (type : RustType ι) :
    type.schemaWith named request = (type.plan .mention).run (Ask.run named request) := by
  unfold plan
  cases h : type.named? with
  | none =>
    rw [Plan.run_const]
    exact schemaWith_of_none named request _ h
  | some mentioned =>
    rw [Plan.run_map, Plan.run_ask]
    exact schemaWith_of_some named request h

theorem schema_of_none (leaf : ι → Json) {type : RustType ι} (h : type.named? = none) :
    type.schema named = some (type.schemaFor leaf) := by
  induction type with
  | scalar type => rfl
  | named type => cases h
  | option inner ih | vec inner ih | map inner ih =>
    rw [RustType.schema, ih h]
    rfl
  | ref inner ih | box inner ih => exact ih h

theorem schema_of_some {type : RustType ι} {mentioned : ι} (h : type.named? = some mentioned) :
    type.schema named =
      ((named false mentioned .inlined).map Prod.fst).map fun schema =>
        type.schemaFor fun _ => schema := by
  induction type with
  | scalar type => cases h
  | named type =>
    obtain rfl := Option.some.inj h
    exact Option.map_id'.symm
  | option inner ih | vec inner ih | map inner ih =>
    rw [RustType.schema, ih h, Option.map_map]
    rfl
  | ref inner ih | box inner ih => exact ih h

/-- The schema of a flattened field asks with a fresh inline registry. -/
theorem flattenedSchema_eq_run (type : RustType ι) :
    StateT.lift (flattenedSchema named request type) =
      (type.plan .flattened).run (Ask.run named request) := by
  unfold plan flattenedSchema
  cases h : type.named? with
  | none =>
    rw [Plan.run_const, schemaWith_of_none named true (fun _ => .null) h,
      schema_of_none named (fun _ => .null) h]
    cases request <;> rfl
  | some mentioned =>
    rw [Plan.run_map, Plan.run_ask, schemaWith_of_some named true h, schema_of_some named h]
    funext r
    cases request with
    | false =>
      show (((named false mentioned .inlined).map Prod.fst).map _ >>= fun a => some (a, r)) =
        ((named false mentioned .inlined).map Prod.fst >>= fun a => some (a, r)) >>= _
      cases (named false mentioned .inlined : Option (Json × SchemaRegistry ι)) <;> rfl
    | true =>
      show ((named true mentioned .inlined >>= _).map Prod.fst >>= fun a => some (a, r)) =
        ((named true mentioned .inlined).map Prod.fst >>= fun a => some (a, r)) >>= _
      cases (named true mentioned .inlined : Option (Json × SchemaRegistry ι)) <;> rfl

end RustType

/-! ## Structs -/

/-- What the statements for a field do to the parts. -/
def StructField.plan (request containerDefault : Bool) (field : StructField ι) :
    Plan (Ask ι) Json (ObjectParts → ObjectParts) :=
  if field.skipped then .const id
  else if field.flatten then
    (field.type.optionInner.1.plan .flattened).map fun flattened parts =>
      flattenSchema parts flattened field.type.optionInner.2
  else
    (field.type.plan .mention).map fun schema parts =>
      parts.add field request containerDefault (field.direction (field.doc.decorate schema))

/-- The parts that an object starts with. -/
def ObjectParts.tagged : Option (String × String) → ObjectParts
  | some (key, value) =>
    { properties := Entries.insert key (tagSchema value) [], required := [key], allOf := [],
      schema := [] }
  | none => { properties := [], required := [], allOf := [], schema := [] }

def objectPlan (request : Bool) (fields : List (StructField ι)) (tag : Option (String × String))
    (description : Option String) (containerDefault denyUnknown : Bool) : Plan (Ask ι) Json Json :=
  (Plan.list (fields.map (StructField.plan request containerDefault))).map
    fun updates : List (ObjectParts → ObjectParts) =>
      (updates.foldl (fun parts update => update parts) (ObjectParts.tagged tag)).finish description
        (denyUnknown && !fields.any fun field => !field.skipped && field.flatten)

def StructInput.plan (request : Bool) (input : StructInput ι) : Plan (Ask ι) Json Json :=
  objectPlan request input.fields none input.description input.default input.denyUnknownFields

section Structs

variable [DecidableEq ι] (named : Named ι) (request : Bool)

theorem statement_eq_run (containerDefault : Bool) (field : StructField ι) (parts : ObjectParts) :
    field.statement named request containerDefault parts =
      (field.plan request containerDefault).run (Ask.run named request) >>= fun update =>
        pure (update parts) := by
  unfold StructField.statement StructField.plan
  split
  · rw [Plan.run_const, pure_bind]
    rfl
  · split
    · rw [Plan.run_map, ← RustType.flattenedSchema_eq_run]
      simp only [bind_assoc, pure_bind]
    · rw [Plan.run_map, ← RustType.schemaWith_eq_run]
      simp only [bind_assoc, pure_bind]
      rfl

/-- The statements for fields, one after the other. -/
theorem foldlM_statement_eq_run (containerDefault : Bool) (fields : List (StructField ι))
    (parts : ObjectParts) :
    fields.foldlM (fun parts field => field.statement named request containerDefault parts) parts =
      (Plan.list (fields.map (StructField.plan request containerDefault))).run
          (Ask.run named request) >>= fun updates =>
        pure (updates.foldl (fun parts update => update parts) parts) := by
  rw [Plan.run_list, List.mapM_map]
  induction fields generalizing parts with
  | nil => rfl
  | cons field fields ih =>
    rw [List.foldlM_cons, List.mapM_cons, statement_eq_run]
    simp only [bind_assoc, pure_bind, ih, Function.comp_apply, List.foldl_cons]

theorem objectSchema_eq_run (fields : List (StructField ι)) (tag : Option (String × String))
    (description : Option String) (containerDefault denyUnknown : Bool) :
    objectSchema named request fields tag description containerDefault denyUnknown =
      (objectPlan request fields tag description containerDefault denyUnknown).run
        (Ask.run named request) := by
  unfold objectSchema objectPlan
  simp only [foldlM_statement_eq_run, Plan.run_map, bind_assoc, pure_bind]
  cases tag <;> rfl

/-- **The body of a struct is a plan.** -/
theorem StructInput.body_eq_run (input : StructInput ι) :
    input.body named request = (input.plan request).run (Ask.run named request) :=
  objectSchema_eq_run named request _ _ _ _ _

end Structs

/-! ## Enums -/

/-- The payload of a variant, if it carries something. -/
def Variant.payloadPlan (request : Bool) (variant : Variant ι) : Plan (Ask ι) Json (Option Json) :=
  match variant.payload with
  | .unit => .const none
  | .newtype type => (type.plan .mention).map some
  | .tuple types =>
    (Plan.list (types.map (RustType.plan .mention))).map fun items =>
      some (.object [("type", .str "array"), ("prefixItems", .arr items),
        ("minItems", .num (.int types.length)), ("maxItems", .num (.int types.length))])
  | .named fields => (objectPlan request fields none none variant.default false).map some

/-- The alternative of a variant that carries a derived type under an internal tag. -/
def internalNewtype (tag wire : String) (payload : Json) : Json :=
  let parts := flattenSchema
    { properties := [], required := [], allOf := []
      schema := Entries.of [("type", .str "object"),
        ("properties", .object [(tag, tagSchema wire)]), ("required", .arr [.str tag])] }
    payload false
  .obj (if parts.allOf.isEmpty then parts.schema
    else Entries.insert "allOf" (.arr parts.allOf) parts.schema)

def Variant.internalPlan (tag : String) (request : Bool) (variant : Variant ι) :
    Plan (Ask ι) Json Json :=
  match variant.payload with
  | .unit => .const (tagObject tag variant.wire)
  | .named fields => objectPlan request fields (some (tag, variant.wire)) none variant.default false
  | .newtype type => (type.optionInner.1.plan .mention).map (internalNewtype tag variant.wire)
  | .tuple _ => .const (tagObject tag variant.wire)

/-- The tag of a variant. -/
def Variant.tagging (variant : Variant ι) (tagging : Tagging) : Tagging :=
  if variant.untagged then .untagged else tagging

/-- An alternative from the payload, but for an internal tag. -/
def alternativeOf (wire : String) : Tagging → Option Json → Json
  | .external, none => tagSchema wire
  | .external, some payload =>
    .object [("type", .str "object"), ("properties", .object [(wire, payload)]),
      ("required", .arr [.str wire])]
  | .adjacent tag _, none => tagObject tag wire
  | .adjacent tag content, some payload =>
    .object [("type", .str "object"),
      ("properties", .object [(tag, tagSchema wire), (content, payload)]),
      ("required", .arr [.str tag, .str content])]
  | _, none => .object [("type", .str "null")]
  | _, some payload => payload

def Variant.plan (tagging : Tagging) (request : Bool) (variant : Variant ι) :
    Plan (Ask ι) Json Json :=
  match variant.tagging tagging with
  | .internal tag => variant.internalPlan tag request
  | tagging => (variant.payloadPlan request).map (alternativeOf variant.wire tagging)

/-- `anyOf` or `oneOf` -/
def EnumInput.combinator (input : EnumInput ι) : String :=
  if input.tagging == .untagged || input.variants.any Variant.untagged then "anyOf" else "oneOf"

def EnumInput.plan (request : Bool) (input : EnumInput ι) : Plan (Ask ι) Json Json :=
  if input.isPlain then
    .const (.object (input.descriptionEntry ++ [("type", .str "string"),
      ("enum", .arr (input.variants.map fun variant => .str variant.wire))]))
  else
    (Plan.list (input.variants.map (Variant.plan input.tagging request))).map fun alternatives =>
      .object (input.descriptionEntry ++ [(input.combinator, .arr alternatives)])

section Enums

variable [DecidableEq ι] (named : Named ι) (request : Bool)

theorem payloadSchema_eq_run (variant : Variant ι) :
    variant.payloadSchema named request =
      (variant.payloadPlan request).run (Ask.run named request) := by
  unfold Variant.payloadSchema Variant.payloadPlan
  cases variant.payload with
  | unit => exact (Plan.run_const _).symm
  | newtype type => rw [Plan.run_map, ← RustType.schemaWith_eq_run]
  | tuple types =>
    rw [Plan.run_map, Plan.run_list, List.mapM_map]
    simp only [RustType.schemaWith_eq_run]
    rfl
  | named fields => rw [Plan.run_map, ← objectSchema_eq_run]

theorem internal_eq_run (variant : Variant ι) (tag : String) :
    variant.internal tag named request =
      (variant.internalPlan tag request).run (Ask.run named request) := by
  unfold Variant.internal Variant.internalPlan
  cases variant.payload with
  | unit => exact (Plan.run_const _).symm
  | newtype type =>
    rw [Plan.run_map, ← RustType.schemaWith_eq_run]
    rfl
  | tuple types => exact (Plan.run_const _).symm
  | named fields => exact objectSchema_eq_run named request _ _ _ _ _

theorem alternative_eq_run (variant : Variant ι) (tagging : Tagging) :
    variant.alternative tagging named request =
      (variant.plan tagging request).run (Ask.run named request) := by
  unfold Variant.alternative Variant.plan Variant.tagging
  cases hcase : (if variant.untagged then Tagging.untagged else tagging) with
  | internal tag => exact internal_eq_run named request variant tag
  | external | adjacent _ _ | untagged =>
    simp only [Plan.run_map, payloadSchema_eq_run]
    congr 1
    funext payload
    cases payload <;> rfl

/-- **The body of an enum is a plan.** -/
theorem EnumInput.body_eq_run (input : EnumInput ι) :
    input.body named request = (input.plan request).run (Ask.run named request) := by
  unfold EnumInput.body EnumInput.plan
  split
  · exact (Plan.run_const _).symm
  · rw [Plan.run_map, Plan.run_list, List.mapM_map]
    simp only [alternative_eq_run]
    rfl

end Enums

/-! ## Flattening -/

/-- The schema of the values, if a schema is that of a pure map. -/
def mapValues : Json → Option Json
  | .obj entries => if isPureMap entries then Entries.get "additionalProperties" entries else none
  | _ => none

/-- A schema that no longer closes its object. -/
def opened : Json → Json
  | .obj entries =>
    if Entries.get "additionalProperties" entries = some (.bool false) then
      .obj (Entries.remove "additionalProperties" entries)
    else .obj entries
  | schema => schema

/-- What a flattened schema adds to `allOf`. -/
def flattenedPart (flattened : Json) (optional : Bool) : Json :=
  if optional then .object [("anyOf", .arr [opened flattened, plainObject])] else opened flattened

/-- `flatten_schema` either sets `additionalProperties` or adds to `allOf`. -/
theorem flattenSchema_eq (parts : ObjectParts) (flattened : Json) (optional : Bool) :
    flattenSchema parts flattened optional =
      match mapValues flattened with
      | some extra =>
        { parts with schema := Entries.insert "additionalProperties" extra parts.schema }
      | none => { parts with allOf := parts.allOf ++ [flattenedPart flattened optional] } := by
  unfold flattenSchema
  cases flattened with
  | obj entries =>
    simp only [mapValues, flattenedPart, opened]
    by_cases hmap : isPureMap entries = true
    · rw [if_pos hmap, if_pos hmap]
      cases hextra : Entries.get "additionalProperties" entries with
      | some extra => rfl
      | none => simp [isPureMap, Entries.contains, hextra] at hmap
    · rw [if_neg hmap, if_neg hmap]
      split <;> rfl
  | null | bool _ | num _ | str _ | arr _ => rfl

theorem flattenSchema_rest (parts : ObjectParts) (flattened : Json) (optional : Bool) :
    (flattenSchema parts flattened optional).properties = parts.properties ∧
      (flattenSchema parts flattened optional).required = parts.required := by
  rw [flattenSchema_eq]
  split <;> exact ⟨rfl, rfl⟩

/-! ## The derived types that are asked for -/

/-- The derived type of a type, as a question. -/
def RustType.asks (question : ι → Ask ι) (type : RustType ι) : List (Ask ι) :=
  (type.named?.map question).toList

def StructField.asks (field : StructField ι) : List (Ask ι) :=
  if field.skipped then []
  else if field.flatten then field.type.asks .flattened
  else field.type.asks .mention

/-- A tuple under an internal tag is no input of the derive. -/
def Variant.asks (tagging : Tagging) (variant : Variant ι) : List (Ask ι) :=
  match variant.tagging tagging, variant.payload with
  | _, .unit => []
  | _, .newtype type => type.asks .mention
  | .internal _, .tuple _ => []
  | _, .tuple types => types.flatMap (RustType.asks .mention)
  | _, .named fields => fields.flatMap StructField.asks

/-- What the impl of a type asks for. -/
def DeriveInput.asks : DeriveInput ι → List (Ask ι)
  | .struct _ input => input.fields.flatMap StructField.asks
  | .transparent type => type.asks .mention
  | .enum _ input => input.variants.flatMap (Variant.asks input.tagging)

theorem RustType.asks_plan (question : ι → Ask ι) (type : RustType ι) :
    (type.plan question).asks = type.asks question := by
  unfold RustType.plan RustType.asks
  cases type.named? <;> rfl

theorem RustType.named?_optionInner (type : RustType ι) : type.optionInner.1.named? = type.named? := by
  cases type <;> rfl

theorem StructField.asks_plan (request containerDefault : Bool) (field : StructField ι) :
    (field.plan request containerDefault).asks = field.asks := by
  unfold StructField.plan StructField.asks
  split
  · rfl
  · split
    · rw [Plan.asks_map, RustType.asks_plan, RustType.asks, RustType.named?_optionInner]
      rfl
    · rw [Plan.asks_map, RustType.asks_plan]

theorem asks_objectPlan (request : Bool) (fields : List (StructField ι))
    (tag : Option (String × String)) (description : Option String)
    (containerDefault denyUnknown : Bool) :
    (objectPlan request fields tag description containerDefault denyUnknown).asks =
      fields.flatMap StructField.asks := by
  rw [objectPlan, Plan.asks_map, Plan.asks_list, List.flatMap_map]
  simp only [StructField.asks_plan]

theorem Variant.asks_plan (tagging : Tagging) (request : Bool) (variant : Variant ι) :
    (variant.plan tagging request).asks = variant.asks tagging := by
  have htuple : ∀ types : List (RustType ι), (Plan.list (types.map (RustType.plan .mention))).asks =
      types.flatMap (RustType.asks .mention) := by
    intro types
    rw [Plan.asks_list, List.flatMap_map]
    simp only [RustType.asks_plan]
  unfold Variant.plan Variant.asks
  cases variant.tagging tagging with
  | internal tag =>
    unfold Variant.internalPlan
    cases variant.payload with
    | unit | tuple _ => rfl
    | newtype type =>
      rw [Plan.asks_map, RustType.asks_plan, RustType.asks, RustType.named?_optionInner]
      rfl
    | named fields => exact asks_objectPlan _ _ _ _ _ _
  | external | adjacent _ _ | untagged =>
    simp only [Plan.asks_map]
    unfold Variant.payloadPlan
    cases variant.payload with
    | unit => rfl
    | newtype type => rw [Plan.asks_map, RustType.asks_plan]
    | tuple types => rw [Plan.asks_map, htuple]
    | named fields => rw [Plan.asks_map, asks_objectPlan]

/-- A plain enum asks for nothing. -/
theorem EnumInput.asks_of_isPlain {input : EnumInput ι} (h : input.isPlain = true) :
    input.variants.flatMap (Variant.asks input.tagging) = [] := by
  simp only [EnumInput.isPlain, Bool.and_eq_true, List.all_eq_true] at h
  rw [List.flatMap_eq_nil_iff]
  intro variant hvariant
  have hunit := h.2 variant hvariant
  unfold Variant.asks
  cases hpayload : variant.payload with
  | unit => rfl
  | newtype _ | tuple _ | named _ =>
    rw [hpayload] at hunit
    cases hunit

theorem EnumInput.asks_plan (request : Bool) (input : EnumInput ι) :
    (input.plan request).asks = input.variants.flatMap (Variant.asks input.tagging) := by
  unfold EnumInput.plan
  split
  · rw [EnumInput.asks_of_isPlain ‹_›]
    rfl
  · rw [Plan.asks_map, Plan.asks_list, List.flatMap_map]
    simp only [Variant.asks_plan]

/-! ## The impl of a derived type -/

/-- The component of a type, unless it is transparent. -/
def DeriveInput.component? : DeriveInput ι → Option String
  | .struct component _ => some component
  | .transparent _ => none
  | .enum component _ => some component

/-- The body of a component, or the schema of the single field of a transparent type. -/
def DeriveInput.plan (request : Bool) : DeriveInput ι → Plan (Ask ι) Json Json
  | .struct _ input => input.plan request
  | .transparent type => type.plan .mention
  | .enum _ input => input.plan request

theorem DeriveInput.asks_plan (request : Bool) (input : DeriveInput ι) :
    (input.plan request).asks = input.asks := by
  cases input with
  | struct _ input => exact asks_objectPlan _ _ _ _ _ _
  | transparent type => exact type.asks_plan _
  | enum _ input => exact input.asks_plan request

variable [DecidableEq ι] (inputs : ι → DeriveInput ι) (fuel : ℕ) (request : Bool)

/-- What the derive generates for a component. -/
theorem derived_of_some {type : ι} {name : String} (h : (inputs type).component? = some name) :
    derived inputs (fuel + 1) request type =
      if request then
        defineInput type name (((inputs type).plan false).run (Ask.run (derived inputs fuel) false))
          (((inputs type).plan true).run (Ask.run (derived inputs fuel) true))
      else
        define type name (((inputs type).plan false).run (Ask.run (derived inputs fuel) false)) := by
  unfold derived
  rw [schemaOf]
  cases hinput : inputs type with
  | struct component input =>
    rw [hinput] at h
    obtain rfl := Option.some.inj h
    simp only [DeriveInput.impl, StructInput.body_eq_run]
    rfl
  | transparent type =>
    rw [hinput] at h
    cases h
  | enum component input =>
    rw [hinput] at h
    obtain rfl := Option.some.inj h
    simp only [DeriveInput.impl, EnumInput.body_eq_run]
    rfl

/-- What it generates for a transparent type. -/
theorem derived_of_none {type : ι} (h : (inputs type).component? = none) :
    derived inputs (fuel + 1) request type =
      ((inputs type).plan request).run (Ask.run (derived inputs fuel) request) := by
  unfold derived
  rw [schemaOf]
  cases hinput : inputs type with
  | struct component input | enum component input =>
    rw [hinput] at h
    cases h
  | transparent type => exact RustType.schemaWith_eq_run _ _ type

end OasRs.Schema
