import OasRs.Registry

/-!
# The Derive

A model of `#[derive(ApiSchema)]` (`oas-rs-macros`): from what the derive reads of a struct or
an enum to the `__oas_schema_body` that it generates. Names on the wire are given, with the
renaming rules applied.

## Overview

- `StructField`, `StructInput`, `EnumInput`, `DeriveInput`: what the derive reads
- `flattenSchema`, `objectSchema`: the schema of an object
- `EnumInput.body`: the four forms of an enum
- `DeriveInput.impl`: the generated impl
-/

namespace OasRs.Schema

variable {ι : Type}

/-! ## What the derive reads -/

/-- The keywords of `api_schema` attributes that take a value. -/
inductive Keyword where
  | example
  | minimum
  | maximum
  | minLength
  | maxLength
  | pattern
  | minItems
  | maxItems
  | format
  deriving DecidableEq, Repr

/-- The schema keyword that an attribute writes. -/
def Keyword.text : Keyword → String
  | .example => "example"
  | .minimum => "minimum"
  | .maximum => "maximum"
  | .minLength => "minLength"
  | .maxLength => "maxLength"
  | .pattern => "pattern"
  | .minItems => "minItems"
  | .maxItems => "maxItems"
  | .format => "format"

/-- `FieldDoc` -/
structure FieldDoc where
  description : Option String := none
  deprecated : Bool := false
  entries : List (Keyword × Json) := []

/-- The statements of `FieldDoc::decorate` -/
def FieldDoc.decorate (doc : FieldDoc) : Json → Json
  | .obj entries =>
    let entries := (doc.description.map fun text => Entries.insert "description" (.str text) entries).getD
      entries
    let entries := if doc.deprecated then Entries.insert "deprecated" (.bool true) entries else entries
    .obj (doc.entries.foldl (fun entries entry => Entries.insert entry.1.text entry.2 entries) entries)
  | schema => schema

/-- A field of a struct, or of a variant, with its `serde` attributes. -/
structure StructField (ι : Type) where
  /-- `wire_name` -/
  wire : String
  type : RustType ι
  skipSerializing : Bool := false
  skipDeserializing : Bool := false
  default : Bool := false
  skipSerializingIf : Bool := false
  flatten : Bool := false
  /-- `alias`, `with` or `deserialize_with` -/
  customDecode : Bool := false
  doc : FieldDoc := {}

/-- `SerdeAttrs::skipped` -/
def StructField.skipped (field : StructField ι) : Bool := field.skipSerializing && field.skipDeserializing

/-- `option_inner` -/
def RustType.optionInner : RustType ι → RustType ι × Bool
  | .option inner => (inner, true)
  | type => (type, false)

/-- A struct with named fields. -/
structure StructInput (ι : Type) where
  fields : List (StructField ι)
  description : Option String := none
  default : Bool := false
  denyUnknownFields : Bool := false

/-- `Tagging` -/
inductive Tagging where
  | external
  | internal (tag : String)
  | adjacent (tag content : String)
  | untagged
  deriving DecidableEq, Repr

/-- What a variant carries. -/
inductive Payload (ι : Type) where
  | unit
  | newtype (type : RustType ι)
  | tuple (types : List (RustType ι))
  | named (fields : List (StructField ι))

/-- A variant that is not skipped. -/
structure Variant (ι : Type) where
  wire : String
  untagged : Bool := false
  default : Bool := false
  payload : Payload ι

/-- An enum. -/
structure EnumInput (ι : Type) where
  tagging : Tagging
  description : Option String := none
  variants : List (Variant ι)

/-- What the derive accepts. -/
inductive DeriveInput (ι : Type) where
  | struct (component : String) (input : StructInput ι)
  /-- `#[serde(transparent)]`, with the type of the single field that is not skipped -/
  | transparent (type : RustType ι)
  | enum (component : String) (input : EnumInput ι)

/-! ## Objects -/

/-- The variables of the generated code: `__oas_properties`, `__oas_required`,
    `__oas_all_of` and `__oas_schema`. -/
structure ObjectParts where
  properties : Entries
  required : List String
  allOf : List Json
  schema : Entries

/-- A map whose values alone are described. -/
def isPureMap (entries : Entries) : Bool :=
  Entries.contains "additionalProperties" entries &&
    ["properties", "$ref", "allOf", "oneOf", "anyOf"].all fun key => !Entries.contains key entries

/-- `flatten_schema` -/
def flattenSchema (parts : ObjectParts) (flattened : Json) (optional : Bool) : ObjectParts :=
  let push (flattened : Json) : ObjectParts := { parts with
    allOf := parts.allOf ++ [if optional then
      .object [("anyOf", .arr [flattened, plainObject])] else flattened] }
  match flattened with
  | .obj entries =>
    if isPureMap entries then
      match Entries.get "additionalProperties" entries with
      | some extra => { parts with schema := Entries.insert "additionalProperties" extra parts.schema }
      | none => parts
    else if Entries.get "additionalProperties" entries = some (.bool false) then
      push (.obj (Entries.remove "additionalProperties" entries))
    else push (.obj entries)
  | flattened => push flattened

/-- Whether a field is required, at least in requests. -/
def StructField.isRequired (field : StructField ι) (containerDefault : Bool) : Bool :=
  !(field.type.optionInner.2 || field.default || containerDefault || field.skipDeserializing)

/-- `writeOnly` and `readOnly` -/
def StructField.direction (field : StructField ι) : Json → Json
  | .obj entries =>
    if field.skipSerializing then .obj (Entries.insert "writeOnly" (.bool true) entries)
    else if field.skipDeserializing then .obj (Entries.insert "readOnly" (.bool true) entries)
    else .obj entries
  | schema => schema

/-- The schema of a flattened field, which is inlined. -/
def flattenedSchema [DecidableEq ι] (named : Named ι) (request : Bool) (type : RustType ι) :
    Option Json :=
  if request then (type.schemaWith named true .inlined).map Prod.fst else type.schema named

/-- The statements for a field. -/
def StructField.statement [DecidableEq ι] (named : Named ι) (request containerDefault : Bool)
    (parts : ObjectParts) (field : StructField ι) : Gen ι ObjectParts :=
  if field.skipped then return parts
  else if field.flatten then do
    let flattened ← StateT.lift (flattenedSchema named request field.type.optionInner.1)
    return flattenSchema parts flattened field.type.optionInner.2
  else do
    let property ← field.type.schemaWith named request
    return { parts with
      properties := Entries.insert field.wire (field.direction (field.doc.decorate property))
        parts.properties
      required :=
        if field.isRequired containerDefault && (!field.skipSerializingIf || request) then
          parts.required ++ [field.wire] else parts.required }

/-- The object of the collected parts. -/
def ObjectParts.finish (parts : ObjectParts) (description : Option String) (strict : Bool) : Json :=
  let schema := Entries.insert "type" (.str "object") parts.schema
  let schema := (description.map fun text => Entries.insert "description" (.str text) schema).getD schema
  let schema := Entries.insert "properties" (.obj parts.properties) schema
  let schema :=
    if parts.required.isEmpty then schema
    else Entries.insert "required" (.arr (parts.required.map .str)) schema
  let schema :=
    if parts.allOf.isEmpty then schema else Entries.insert "allOf" (.arr parts.allOf) schema
  .obj (if strict then Entries.insert "additionalProperties" (.bool false) schema else schema)

/-- A string with one value. -/
def tagSchema (value : String) : Json :=
  .object [("type", .str "string"), ("enum", .arr [.str value])]

/-- `object_schema` -/
def objectSchema [DecidableEq ι] (named : Named ι) (request : Bool) (fields : List (StructField ι))
    (tag : Option (String × String)) (description : Option String)
    (containerDefault denyUnknown : Bool) : Gen ι Json := do
  let parts : ObjectParts :=
    match tag with
    | some (key, value) =>
      { properties := Entries.insert key (tagSchema value) [], required := [key], allOf := [], schema := [] }
    | none => { properties := [], required := [], allOf := [], schema := [] }
  let parts ← fields.foldlM (fun parts field => field.statement named request containerDefault parts)
    parts
  let hasFlatten := fields.any fun field => !field.skipped && field.flatten
  return parts.finish description (denyUnknown && !hasFlatten)

/-- The body of a struct. -/
def StructInput.body [DecidableEq ι] (input : StructInput ι) (named : Named ι) (request : Bool) :
    Gen ι Json :=
  objectSchema named request input.fields none input.description input.default
    input.denyUnknownFields

/-! ## Enums -/

/-- The payload of a variant, if it carries something. -/
def Variant.payloadSchema [DecidableEq ι] (variant : Variant ι) (named : Named ι) (request : Bool) :
    Gen ι (Option Json) :=
  match variant.payload with
  | .unit => return none
  | .newtype type => do return some (← type.schemaWith named request)
  | .tuple types => do
    let items ← types.mapM fun type => type.schemaWith named request
    return some (.object [("type", .str "array"), ("prefixItems", .arr items),
      ("minItems", .num (.int types.length)), ("maxItems", .num (.int types.length))])
  | .named fields => do
    return some (← objectSchema named request fields none none variant.default false)

/-- An object with a tag alone. -/
def tagObject (tag wire : String) : Json :=
  .object [("type", .str "object"), ("properties", .object [(tag, tagSchema wire)]),
    ("required", .arr [.str tag])]

/-- The alternative of a variant under an internal tag. A tuple with more than one part is no
    input of the derive. -/
def Variant.internal [DecidableEq ι] (variant : Variant ι) (tag : String) (named : Named ι)
    (request : Bool) : Gen ι Json :=
  match variant.payload with
  | .unit => return tagObject tag variant.wire
  | .named fields =>
    objectSchema named request fields (some (tag, variant.wire)) none variant.default false
  | .newtype type => do
    let payload ← type.optionInner.1.schemaWith named request
    let parts := flattenSchema
      { properties := [], required := [], allOf := []
        schema := Entries.of [("type", .str "object"),
          ("properties", .object [(tag, tagSchema variant.wire)]), ("required", .arr [.str tag])] }
      payload false
    return .obj (if parts.allOf.isEmpty then parts.schema
      else Entries.insert "allOf" (.arr parts.allOf) parts.schema)
  | .tuple _ => return tagObject tag variant.wire

/-- The alternative of a variant. -/
def Variant.alternative [DecidableEq ι] (variant : Variant ι) (tagging : Tagging) (named : Named ι)
    (request : Bool) : Gen ι Json :=
  match if variant.untagged then .untagged else tagging with
  | .internal tag => variant.internal tag named request
  | .external => do
    match ← variant.payloadSchema named request with
    | none => return tagSchema variant.wire
    | some payload =>
      return .object [("type", .str "object"), ("properties", .object [(variant.wire, payload)]),
        ("required", .arr [.str variant.wire])]
  | .adjacent tag content => do
    match ← variant.payloadSchema named request with
    | none => return tagObject tag variant.wire
    | some payload =>
      return .object [("type", .str "object"),
        ("properties", .object [(tag, tagSchema variant.wire), (content, payload)]),
        ("required", .arr [.str tag, .str content])]
  | .untagged => do
    match ← variant.payloadSchema named request with
    | none => return .object [("type", .str "null")]
    | some payload => return payload

/-- Whether an enum is a plain string enum. -/
def EnumInput.isPlain (input : EnumInput ι) : Bool :=
  input.tagging == .external && input.variants.all fun variant =>
    match variant.payload with
    | .unit => true
    | _ => false

/-- The description of an enum, as an entry. -/
def EnumInput.descriptionEntry (input : EnumInput ι) : Entries :=
  (input.description.map fun text => ("description", Json.str text)).toList

/-- The body of an enum. -/
def EnumInput.body [DecidableEq ι] (input : EnumInput ι) (named : Named ι) (request : Bool) :
    Gen ι Json :=
  if input.isPlain then
    return .object (input.descriptionEntry ++ [("type", .str "string"),
      ("enum", .arr (input.variants.map fun variant => .str variant.wire))])
  else do
    let alternatives ← input.variants.mapM fun variant =>
      variant.alternative input.tagging named request
    let combinator :=
      if input.tagging == .untagged || input.variants.any Variant.untagged then "anyOf" else "oneOf"
    return .object (input.descriptionEntry ++ [(combinator, .arr alternatives)])

/-! ## The generated impl -/

/-- The impl of a derived type. -/
def DeriveInput.impl [DecidableEq ι] : DeriveInput ι → Impl ι
  | .struct component input => .component component input.body
  | .transparent type => .transparent type
  | .enum component input => .component component input.body

/-- The schemas of derived types, with calls nested at most `fuel` deep. -/
def derived [DecidableEq ι] (inputs : ι → DeriveInput ι) (fuel : ℕ) : Named ι :=
  schemaOf (fun type => (inputs type).impl) fuel

end OasRs.Schema
