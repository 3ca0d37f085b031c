import OasRs.Components
import OasRs.Lib.Settling
import Mathlib.Data.List.Find

/-!
# Request Schemas and Deserialization

What the request-side schema of a derived struct accepts, against what serde's derived
`Deserialize` reads: `default`, `skip`, `skip_deserializing`, `deny_unknown_fields` and `Option` as
serde documents them. Numbers of 64 bits stand for `isize` and `usize`, and the parser of the
`uuid` crate is a parameter.

## Main results

- `validates_request`: a request body against its struct, with the references of a document
- `conflicts_eq_nil`: names that cannot conflict
- `requestSchema_accepts`: what a document says about requests, wherever the struct is asked for
- `not_requestSchema_exact`: properties that are read-only, repeated or hidden options, and values
  that are of the right type, but not as serde wants them
-/

namespace OasRs.Schema

open SchemaRegistry Lib

variable {ι : Type}

/-! ## What serde reads -/

/-- An integer between two bounds. A float is none, even without a fraction. -/
def inRange (least most : ℤ) : Json → Bool
  | .num (.int n) => least ≤ n && n ≤ most
  | _ => false

/-- Whether serde reads a value as a scalar. -/
def Scalar.deserializes (uuid : String → Bool) : Scalar → Json → Bool
  | .string, .str _ => true
  | .bool, .bool _ => true
  | .int kind, json => inRange kind.min kind.max json
  | .isize, json => inRange IntKind.i64.min IntKind.i64.max json
  | .usize, json => inRange IntKind.u64.min IntKind.u64.max json
  | .f32, .num _ => true
  | .f64, .num _ => true
  | .uuid, .str text => uuid text
  | .value, _ => true
  | _, _ => false

section Serde

variable (uuid : String → Bool) (named : ι → Json → Bool)

/-- Whether serde reads a value as a type, with a reader for derived types. -/
def RustType.deserializes : RustType ι → Json → Bool
  | .scalar type, value => type.deserializes uuid value
  | .named type, value => named type value
  | .option inner, value => value == .null || inner.deserializes value
  | .vec inner, .arr items => items.all inner.deserializes
  | .vec _, _ => false
  | .ref inner, value => inner.deserializes value
  | .box inner, value => inner.deserializes value
  | .map inner, .obj entries => entries.all fun e => inner.deserializes e.2
  | .map _, _ => false

/-- Whether serde makes do without a value: the type ends up at an `Option`. -/
def RustType.readsMissing : RustType ι → Bool
  | .option _ => true
  | .ref inner => inner.readsMissing
  | .box inner => inner.readsMissing
  | _ => false

/-- The field that a key is read into; a name that comes again is never reached. -/
def StructInput.readField? (input : StructInput ι) (key : String) : Option (StructField ι) :=
  input.fields.find? fun field => !field.skipDeserializing && field.wire == key

/-- Whether every field has its value, or does without. -/
def readsAll (containerDefault : Bool) : List (StructField ι) → Entries → Bool
  | [], _ => true
  | field :: fields, entries =>
    if field.skipDeserializing then readsAll containerDefault fields entries
    else
      (Entries.contains field.wire entries || field.default || containerDefault ||
        field.type.readsMissing) &&
      readsAll containerDefault fields (Entries.remove field.wire entries)

/-- The derived `visit_map` -/
def StructInput.readsMap (input : StructInput ι) (entries : Entries) : Bool :=
  (entries.all fun e =>
    match input.readField? e.1 with
    | some field => field.type.deserializes uuid named e.2
    | none => !input.denyUnknownFields) &&
  readsAll input.default input.fields entries

/-- The derived `visit_seq` -/
def readsSeq (containerDefault : Bool) : List (StructField ι) → List Json → Bool
  | [], items => items.isEmpty
  | field :: fields, items =>
    if field.skipDeserializing then readsSeq containerDefault fields items
    else
      match items with
      | [] => (field.default || containerDefault) && readsSeq containerDefault fields []
      | item :: items =>
        field.type.deserializes uuid named item && readsSeq containerDefault fields items

end Serde

/-- Whether the derived `Deserialize` of a struct reads a value, with structs nested at most
    `fuel` deep. -/
def deserializes (input : ι → StructInput ι) (uuid : String → Bool) : ℕ → ι → Json → Bool
  | 0, _, _ => false
  | fuel + 1, i, .obj entries => (input i).readsMap uuid (deserializes input uuid fuel) entries
  | fuel + 1, i, .arr items =>
    readsSeq uuid (deserializes input uuid fuel) (input i).default (input i).fields items
  | _ + 1, _, _ => false

/-! ## Values of the right type -/

/-- A value of the JSON type of a scalar. -/
def Scalar.hasJsonType : Scalar → Json → Bool
  | .int _, json => hasType "integer" json
  | .isize, json => hasType "integer" json
  | .usize, json => hasType "integer" json
  | .uuid, json => hasType "string" json
  | type, json => type.deserializes (fun _ => true) json

/-- The same, and of its `format` where that says more: the range of other integer types is in their
    schemas. Integers are written as such: to serde, `1.0` is a float. -/
def Scalar.fits (uuid : String → Bool) : Scalar → Json → Bool
  | .int _, .num (.int _) => true
  | .int _, _ => false
  | type, json => type.deserializes uuid json

/-- The field that a property is listed for. -/
def StructInput.listedField? (input : StructInput ι) (key : String) : Option (StructField ι) :=
  input.listed.find? fun field => field.wire == key

/-- A property that is listed as `readOnly`. -/
def StructInput.isReadOnly (input : StructInput ι) (key : String) : Bool :=
  input.fields.any fun field =>
    field.skipDeserializing && !field.skipSerializing && field.wire == key

/-- A value of the right JSON type, whose listed properties are again of the right type, at any
    depth, and whose objects send only what they may. -/
inductive Typed (input : ι → StructInput ι) (fits : Scalar → Json → Bool) (may : ι → String → Prop) :
    RustType ι → Json → Prop where
  | scalar {type : Scalar} {value : Json} (h : fits type value = true) :
      Typed input fits may (.scalar type) value
  | none {inner : RustType ι} : Typed input fits may (.option inner) .null
  | some {inner : RustType ι} {value : Json} (h : Typed input fits may inner value) :
      Typed input fits may (.option inner) value
  | vec {inner : RustType ι} {items : List Json}
      (h : ∀ item ∈ items, Typed input fits may inner item) :
      Typed input fits may (.vec inner) (.arr items)
  | ref {inner : RustType ι} {value : Json} (h : Typed input fits may inner value) :
      Typed input fits may (.ref inner) value
  | box {inner : RustType ι} {value : Json} (h : Typed input fits may inner value) :
      Typed input fits may (.box inner) value
  | map {inner : RustType ι} {entries : Entries}
      (h : ∀ e ∈ entries, Typed input fits may inner e.2) :
      Typed input fits may (.map inner) (.obj entries)
  | named {i : ι} {entries : Entries} (hmay : ∀ e ∈ entries, may i e.1)
      (h : ∀ e ∈ entries, ∀ field, (input i).listedField? e.1 = Option.some field →
        Typed input fits may field.type e.2) :
      Typed input fits may (.named i) (.obj entries)

/-! ## Schemas of types -/

section Validation

variable {components : String → Option Json}

/-- What the schema of a scalar says. -/
theorem validates_scalarSchema (type : Scalar) (value : Json) (fuel : ℕ) :
    validates components (fuel + 1) type.schema value =
      (typeHolds (entriesOf type.schema) value && rangeHolds (entriesOf type.schema) value) := by
  cases type <;> cases value <;>
    simp [validates, keywordsHold, refHolds, combinatorsHold, subschemas, itemsHold,
      propertySchema, propertiesHold, entriesOf, Scalar.schema, Json.object, Entries.of]

/-- The range of an integer is in its schema. -/
theorem validates_scalar {uuid : String → Bool} {type : Scalar} {value : Json}
    (h : type.fits uuid value = true) (fuel : ℕ) :
    validates components (fuel + 1) type.schema value = type.deserializes uuid value := by
  rw [validates_scalarSchema]
  have hleast : IntKind.u64.min = 0 := rfl
  cases type <;> cases value
  case int.num | isize.num | usize.num =>
    rename_i n
    cases n <;>
      simp_all [typeHolds, rangeHolds, entriesOf, Scalar.schema, Json.object, Entries.of, hasType,
        Scalar.fits, Scalar.deserializes, inRange, Number.value_int_le, Number.isIntegral]
  all_goals
    simp_all [typeHolds, rangeHolds, entriesOf, Scalar.schema, Json.object, Entries.of, hasType,
      Scalar.fits, Scalar.deserializes, inRange]

theorem validates_null (value : Json) (fuel : ℕ) :
    validates components (fuel + 1) (.object [("type", .str "null")]) value = (value == .null) := by
  cases value <;> rfl

theorem validates_optionSchema (schema : Json) (value : Json) (fuel : ℕ) :
    validates components (fuel + 1) (optionSchema schema) value =
      (validates components fuel schema value ||
        validates components fuel (.object [("type", .str "null")]) value) := by
  cases value <;>
    simp [validates, keywordsHold, refHolds, typeHolds, rangeHolds, combinatorsHold, subschemas,
      itemsHold, propertySchema, propertiesHold, optionSchema, Json.object, Entries.of]

theorem validates_vecSchema (schema : Json) (items : List Json) (fuel : ℕ) :
    validates components (fuel + 1) (vecSchema schema) (.arr items) =
      items.all (validates components fuel schema) := by
  simp [validates, keywordsHold, refHolds, typeHolds, rangeHolds, combinatorsHold, subschemas,
    itemsHold, propertiesHold, hasType, vecSchema, Json.object, Entries.of]

theorem validates_mapSchema (schema : Json) (entries : Entries) (fuel : ℕ) :
    validates components (fuel + 1) (mapSchema schema) (.obj entries) =
      entries.all fun e => validates components fuel schema e.2 := by
  simp [validates, keywordsHold, refHolds, typeHolds, rangeHolds, combinatorsHold, subschemas,
    itemsHold, propertySchema, propertiesHold, hasType, mapSchema, Json.object, Entries.of]

/-! ## Bodies -/

/-- The request body of a struct whose properties refer to components. -/
theorem validates_body (input : StructInput ι) (schemas : List Json) (entries : Entries)
    (fuel : ℕ) :
    validates components (fuel + 1) (input.bodyFrom true schemas) (.obj entries) =
      ((entries.all fun e =>
          match Entries.get e.1 (Entries.of (propertiesFrom input.fields schemas)) with
          | some schema => validates components fuel schema e.2
          | none => if input.denyUnknownFields then
              validates components fuel (.bool false) e.2 else true) &&
        (requiredOf true input.default input.fields).all fun name =>
          Entries.contains name entries) := by
  show keywordsHold (validates components fuel) components
    (entriesOf (input.bodyFrom true schemas)) (.obj entries) = _
  -- of the keywords of a body only these assert something
  have hget := fun (key : String) (hkey : key ∈ assertions) => get_bodyFrom input true schemas hkey
  -- a property without a schema falls to `additionalProperties`
  have hproperty : ∀ key, propertySchema (entriesOf (input.bodyFrom true schemas)) key =
      ((Entries.get key (Entries.of (propertiesFrom input.fields schemas))).orElse fun _ =>
        if input.denyUnknownFields then some (.bool false) else none) := by
    intro key
    unfold propertySchema
    rw [hget "properties" (by decide), hget "additionalProperties" (by decide)]
    simp only [reduceIte, String.reduceEq]
    cases Entries.get key (Entries.of (propertiesFrom input.fields schemas)) <;> rfl
  simp only [keywordsHold, refHolds, typeHolds, rangeHolds, combinatorsHold, subschemas, itemsHold,
    propertiesHold, hproperty, hget "$ref" (by decide), hget "type" (by decide),
    hget "enum" (by decide), hget "allOf" (by decide), hget "anyOf" (by decide),
    hget "oneOf" (by decide), hget "required" (by decide), hasType, reduceIte, String.reduceEq,
    Option.all_none, Bool.and_true, Bool.true_and]
  congr 1
  · congr 1
    funext e
    cases Entries.get e.1 (Entries.of (propertiesFrom input.fields schemas)) with
    | some schema => rfl
    | none => cases input.denyUnknownFields <;> rfl
  · -- an empty `required` is left out
    cases hempty : (requiredOf true input.default input.fields).isEmpty with
    | true =>
      rw [List.isEmpty_iff.mp hempty]
      rfl
    | false =>
      simp only [Bool.false_eq_true, if_false, List.all_map]
      rfl

/-- The attributes of a field do not change what its schema accepts. -/
theorem validates_property {field : StructField ι} (hdoc : field.doc.IsAnnotation)
    {leaf : ι → Json} {keywords : Entries} (h : field.type.schemaFor leaf = .obj keywords)
    (value : Json) (fuel : ℕ) :
    validates components fuel (field.property leaf) value =
      validates components fuel (field.type.schemaFor leaf) value := by
  obtain ⟨written, hwritten, hcount⟩ := property_eq_obj hdoc h
  rw [hwritten, h]
  cases fuel with
  | zero => rfl
  | succ fuel => exact keywordsHold_congr hcount _ _

end Validation

/-! ## Fields -/

theorem property_congr {field : StructField ι} {leaf leaf' : ι → Json}
    (h : ∀ mentioned, field.type.named? = some mentioned → leaf mentioned = leaf' mentioned) :
    field.property leaf = field.property leaf' := by
  rw [StructField.property, StructField.property, schemaFor_congr h]

/-- The properties, when a derived type has one schema wherever it is mentioned. -/
theorem propertiesFrom_map (leaf : ι → Json) (fields : List (StructField ι)) :
    propertiesFrom fields ((refsOf fields).map leaf) =
      (fields.filter fun field => !field.skipped).map fun field =>
        (field.wire, field.property leaf) := by
  induction fields with
  | nil => rfl
  | cons field fields ih =>
    cases hskip : field.skipped with
    | true =>
      have hrefs : refsOf (field :: fields) = refsOf fields := by simp [refsOf, hskip]
      rw [hrefs, List.filter_cons_of_neg (by simp [hskip]), ← ih]
      simp only [propertiesFrom, hskip, if_true]
    | false =>
      rw [List.filter_cons_of_pos (by simp [hskip]), List.map_cons, ← ih]
      cases hnamed : field.type.named? with
      | none =>
        have hrefs : refsOf (field :: fields) = refsOf fields := by simp [refsOf, hskip, hnamed]
        have hproperty : (field.property fun _ => .null) = field.property leaf := by
          apply property_congr
          intro mentioned hmentioned
          rw [hnamed] at hmentioned
          cases hmentioned
        rw [hrefs]
        simp only [propertiesFrom, hskip, hnamed, Bool.false_eq_true, if_false, hproperty]
      | some mentioned =>
        have hrefs : refsOf (field :: fields) = mentioned :: refsOf fields := by
          simp [refsOf, hskip, hnamed]
        have hproperty : (field.property fun _ => leaf mentioned) = field.property leaf := by
          apply property_congr
          intro other hother
          rw [hnamed] at hother
          rw [Option.some.inj hother]
        rw [hrefs]
        simp only [propertiesFrom, hskip, hnamed, Bool.false_eq_true, if_false, List.map_cons,
          List.headD_cons, List.tail_cons, hproperty]

theorem get_map (key : String) (value : StructField ι → Json) (fields : List (StructField ι)) :
    Entries.get key (fields.map fun field => (field.wire, value field)) =
      (fields.find? fun field => field.wire == key).map value := by
  induction fields with
  | nil => rfl
  | cons field fields ih =>
    rw [List.map_cons, Entries.get, ih, List.find?_cons]
    by_cases hkey : field.wire = key
    · rw [if_pos hkey, beq_iff_eq.mpr hkey]
      rfl
    · rw [if_neg hkey, beq_eq_false_iff_ne.mpr hkey]

/-- A key that is not read-only is read into the field that is listed for it. -/
theorem readField?_eq {input : StructInput ι} {key : String} (h : input.isReadOnly key = false) :
    input.readField? key = input.listedField? key := by
  rw [StructInput.isReadOnly, List.any_eq_false] at h
  rw [StructInput.readField?, StructInput.listedField?, StructInput.listed, List.find?_filter]
  apply List.find?_congr
  intro field hfield
  have hno := h field hfield
  revert hno
  unfold StructField.skipped
  cases field.skipDeserializing <;> cases field.skipSerializing <;> cases field.wire == key <;>
    simp

/-- Fields with names of their own are missed one by one. -/
theorem readsAll_eq (containerDefault : Bool) {fields : List (StructField ι)} {entries : Entries}
    (h : ((fields.filter fun field => !field.skipDeserializing).map StructField.wire).Nodup) :
    readsAll containerDefault fields entries = fields.all fun field =>
      field.skipDeserializing || (Entries.contains field.wire entries || field.default ||
        containerDefault || field.type.readsMissing) := by
  induction fields generalizing entries with
  | nil => rfl
  | cons field fields ih =>
    rw [List.all_cons, readsAll]
    cases hread : field.skipDeserializing with
    | true =>
      rw [List.filter_cons_of_neg (by simp [hread])] at h
      simp only [if_true, Bool.true_or, Bool.true_and]
      exact ih h
    | false =>
      rw [List.filter_cons_of_pos (by simp [hread]), List.map_cons, List.nodup_cons] at h
      simp only [Bool.false_eq_true, if_false, Bool.false_or]
      rw [ih h.2]
      congr 1
      rw [Bool.eq_iff_iff, List.all_eq_true, List.all_eq_true]
      apply forall₂_congr
      intro other hother
      cases hskip : other.skipDeserializing with
      | true => simp
      | false =>
        -- the name that was read is not the name of another field
        have hne : field.wire ≠ other.wire := by
          intro heq
          apply h.1
          rw [heq]
          apply List.mem_map_of_mem
          exact List.mem_filter.mpr ⟨hother, by simp [hskip]⟩
        rw [Entries.contains, Entries.get_remove, if_neg hne]
        rfl

/-! ## A body against its struct -/

namespace Structs

variable (structs : Structs ι)

/-- Every `Option` that serde makes do without is one that the derive sees. -/
def OptionsShow : Prop :=
  ∀ i, ∀ field ∈ (structs.input i).fields, field.type.readsMissing = field.type.optionInner.2

/-- What a struct may send: no read-only property. -/
def MaySend (i : ι) (key : String) : Prop := (structs.input i).isReadOnly key = false

variable {structs}

/-- Requests require what serde cannot do without. -/
theorem required_eq (hoptions : structs.OptionsShow) (i : ι) (entries : Entries) :
    ((requiredOf true (structs.input i).default (structs.input i).fields).all fun name =>
        Entries.contains name entries) =
      readsAll (structs.input i).default (structs.input i).fields entries := by
  have hnodup : (((structs.input i).fields.filter fun field =>
      !field.skipDeserializing).map StructField.wire).Nodup := by
    refine List.Sublist.nodup ?_ (structs.distinct i)
    apply List.Sublist.map
    apply List.monotone_filter_right
    intro field hfield
    simp only [StructField.skipped, Bool.not_eq_true'] at hfield ⊢
    rw [hfield, Bool.and_false]
  rw [readsAll_eq _ hnodup, requiredOf, List.all_map, List.all_filter, Bool.eq_iff_iff,
    List.all_eq_true, List.all_eq_true]
  apply forall₂_congr
  intro field hfield
  rw [hoptions i field hfield]
  unfold StructField.isListedRequired StructField.isRequired StructField.skipped
  simp only [Function.comp]
  cases field.skipDeserializing <;> cases field.skipSerializing <;>
    cases field.type.optionInner.2 <;> cases field.default <;> cases (structs.input i).default <;>
    cases Entries.contains field.wire entries <;> simp

theorem get_properties (i : ι) (leaf : ι → Json) (key : String) :
    Entries.get key (Entries.of (propertiesFrom (structs.input i).fields
        ((refsOf (structs.input i).fields).map leaf))) =
      ((structs.input i).listedField? key).map (StructField.property leaf) := by
  rw [get_of key (structs.nodup_keys i _), propertiesFrom_map, get_map]
  rfl

theorem mem_refs {i : ι} {key : String} {field : StructField ι}
    (h : (structs.input i).listedField? key = some field) :
    field ∈ (structs.input i).fields ∧ ∀ mentioned, field.type.named? = some mentioned →
      mentioned ∈ refsOf (structs.input i).fields := by
  have hmem := List.mem_of_find?_eq_some h
  refine ⟨List.mem_of_mem_filter hmem, ?_⟩
  intro mentioned hmentioned
  exact List.mem_filterMap.mpr ⟨field, hmem, hmentioned⟩

/-- The body of a struct in a request, from the names of request forms. -/
def requestBody (structs : Structs ι) (name : ι → String) (i : ι) : Json :=
  (structs.input i).bodyFrom true ((refsOf (structs.input i).fields).map fun j => reference (name j))

/-- **A request schema accepts what serde reads**: a value of the right type that sends no
    read-only property is valid if and only if it is read, when the components of the types that
    are reached are their bodies in requests. -/
theorem validates_request (hoptions : structs.OptionsShow) {uuid : String → Bool}
    {components : String → Option Json} {name : ι → String} {reached : ι → Prop}
    (hclosed : ∀ i, reached i → ∀ j ∈ refsOf (structs.input i).fields, reached j)
    (hcomponents : ∀ i, reached i → components (name i) = some (structs.requestBody name i))
    {type : RustType ι} {value : Json}
    (h : Typed structs.input (Scalar.fits uuid) structs.MaySend type value)
    (hreached : ∀ mentioned, type.named? = some mentioned → reached mentioned) :
    Coincide
      (fun fuel => validates components fuel (type.schemaFor fun i => reference (name i)) value)
      (fun fuel => type.deserializes uuid (deserializes structs.input uuid fuel) value) := by
  induction h with
  | scalar hfits => exact (Coincide.const _).of_succ (validates_scalar hfits)
  | none =>
    -- one step for `anyOf`, and one for `null`
    refine ((Coincide.const true).of_succ ?_).of_succ (validates_optionSchema _ _)
    intro fuel
    rw [validates_null]
    exact Bool.or_true _
  | @some inner value _ ih =>
    have hnull : Coincide
        (fun fuel => validates components fuel (.object [("type", .str "null")]) value)
        (fun _ => value == .null) := (Coincide.const _).of_succ (validates_null value)
    refine Coincide.of_succ ?_ (validates_optionSchema _ _)
    exact ((ih hreached).map₂ or hnull).congr (fun _ => rfl) (fun _ => Bool.or_comm _ _)
  | vec _ ih =>
    refine Coincide.of_succ ?_ (validates_vecSchema _ _)
    exact Coincide.all fun item hitem => ih item hitem hreached
  | ref _ ih => exact ih hreached
  | box _ ih => exact ih hreached
  | map _ ih =>
    refine Coincide.of_succ ?_ (validates_mapSchema _ _)
    exact Coincide.all fun e he => ih e he hreached
  | @named i entries hmay _ ih =>
    have hi : reached i := hreached i rfl
    refine Coincide.of_succ ?_ (validates_reference (hcomponents i hi) · _)
    refine Coincide.of_succ ?_ (validates_body _ _ entries)
    refine (Coincide.of_succ ?_ (fun _ => rfl)).symm
    apply Coincide.symm
    refine (Coincide.all ?_).map₂ and ?_
    · intro e he
      have hread := readField?_eq (hmay e he)
      have hget : Entries.get e.1 (Entries.of (propertiesFrom (structs.input i).fields
          ((refsOf (structs.input i).fields).map fun j => reference (name j)))) = _ :=
        get_properties i (fun j => reference (name j)) e.1
      simp only [hread, hget]
      cases hlisted : (structs.input i).listedField? e.1 with
      | none =>
        simp only [Option.map_none]
        cases (structs.input i).denyUnknownFields with
        | false => exact Coincide.const true
        | true => exact (Coincide.const false).of_succ fun _ => rfl
      | some field =>
        obtain ⟨hfield, hrefs⟩ := mem_refs hlisted
        have hreach : ∀ mentioned, field.type.named? = some mentioned → reached mentioned :=
          fun mentioned hmentioned => hclosed i hi mentioned (hrefs mentioned hmentioned)
        obtain ⟨keywords, hkeywords⟩ :=
          schemaFor_reference field.type name
        exact (ih e he field hlisted hreach).congr
          (validates_property (structs.annotation i field hfield) hkeywords e.2) (fun _ => rfl)
    · rw [required_eq hoptions]
      exact Coincide.const _

end Structs

/-! ## Documents -/

namespace Structs

open Components Relation

variable {structs : Structs ι}

theorem asks_field {i : ι} {field : StructField ι} (hfield : field ∈ (structs.input i).fields) :
    field.asks = if field.skipped then [] else field.type.asks .mention := by
  simp only [StructField.asks, structs.flatten i field hfield, Bool.false_eq_true, if_false]

/-- The questions of a body are for the derived types that its fields mention. -/
theorem asks_derive (i : ι) :
    (structs.derive i).asks = (refsOf (structs.input i).fields).map .mention := by
  show (structs.input i).fields.flatMap StructField.asks = _
  have hfields : ∀ field ∈ (structs.input i).fields,
      field.asks = if field.skipped then [] else field.type.asks .mention := fun field => asks_field
  unfold refsOf
  generalize (structs.input i).fields = fields at hfields
  induction fields with
  | nil => rfl
  | cons field fields ih =>
    rw [List.flatMap_cons, hfields field List.mem_cons_self,
      ih fun other hother => hfields other (List.mem_cons_of_mem _ hother)]
    cases hskip : field.skipped with
    | true => simp [hskip]
    | false =>
      cases hnamed : field.type.named? with
      | none => simp [hskip, RustType.asks, hnamed]
      | some mentioned => simp [hskip, RustType.asks, hnamed]

/-- Structs without flattened fields guard every cycle. -/
theorem guarded (structs : Structs ι) : Guarded structs.derive where
  flatten a b h := by
    rw [Flattens, asks_derive] at h
    simp at h
  transparent a h := by
    obtain ⟨_, h, -⟩ := TransGen.head'_iff.mp h
    cases h.1

variable [DecidableEq ι]

/-- A call for a struct returns. -/
theorem returns_ask [Fintype ι] (structs : Structs ι) :
    ∃ bound, ∀ fuel ≥ bound, ∀ (a : Asked ι) (r : SchemaRegistry ι),
      ∃ schema r', Components.ask (derived structs.derive fuel) a r = some (schema, r') := by
  obtain ⟨bound, hbound⟩ := returns_of_guarded structs.guarded
  refine ⟨bound, ?_⟩
  intro fuel hfuel a r
  unfold Components.ask
  cases hnamed : a.2.named? with
  | none =>
    rw [schemaWith_of_none _ a.1 (fun _ => .null) hnamed]
    exact ⟨_, r, rfl⟩
  | some mentioned =>
    obtain ⟨⟨schema, r'⟩, hcall⟩ :=
      Option.isSome_iff_exists.mp (hbound fuel hfuel a.1 mentioned r)
    rw [schemaWith_of_some _ a.1 hnamed, bind_apply, hcall]
    exact ⟨_, r', rfl⟩

/-- So do any calls in a row. -/
theorem returns [Fintype ι] (structs : Structs ι) :
    ∃ bound, ∀ fuel ≥ bound, ∀ (asked : List (Asked ι)) (r : SchemaRegistry ι),
      ∃ answers r', asked.mapM (Components.ask (derived structs.derive fuel)) r =
        some (answers, r') := by
  obtain ⟨bound, hbound⟩ := structs.returns_ask
  refine ⟨bound, ?_⟩
  intro fuel hfuel asked
  induction asked with
  | nil => exact fun r => ⟨[], r, rfl⟩
  | cons a asked ih =>
    intro r
    obtain ⟨schema, r₁, hfirst⟩ := hbound fuel hfuel a r
    obtain ⟨answers, r', hrest⟩ := ih r₁
    refine ⟨schema :: answers, r', ?_⟩
    rw [List.mapM_cons, bind_apply, hfirst, Option.bind_some, bind_apply, hrest]
    rfl

/-- One more call, on structs whose names cannot conflict. -/
theorem settled_ask [Fintype ι] {hinjective : Function.Injective structs.component}
    {hne : ∀ i j, structs.component i ≠ inputName (structs.component j)} {fuel : ℕ}
    (hfuel : 2 * Fintype.card ι + 1 < fuel) {calls : List (TypeGraph.Call ι)} {r : SchemaRegistry ι}
    (h : (structs.graph hinjective hne).Settled calls r) (a : Asked ι) :
    ∃ schema calls' r', Components.ask (derived structs.derive fuel) a r = some (schema, r') ∧
      (structs.graph hinjective hne).Settled calls' r' := by
  obtain ⟨request, type⟩ := a
  unfold Components.ask
  cases hnamed : type.named? with
  | none =>
    rw [schemaWith_of_none _ request (fun _ => .null) hnamed]
    exact ⟨_, calls, r, rfl, h⟩
  | some k =>
    obtain ⟨schema, calls', r', hcall, h'⟩ : ∃ schema calls' r',
        derived structs.derive fuel request k r = some (schema, r') ∧
          (structs.graph hinjective hne).Settled calls' r' := by
      rw [structs.derived_eq hinjective hne]
      cases request with
      | false =>
        obtain ⟨r', hcall, h'⟩ := h.call hfuel (.schemaWith k)
        exact ⟨_, _, r', hcall, h'⟩
      | true =>
        obtain ⟨r', hcall, h'⟩ := h.call hfuel (.requestSchemaWith k)
        exact ⟨_, _, r', hcall, h'⟩
    rw [schemaWith_of_some _ request hnamed, bind_apply, hcall]
    exact ⟨_, calls', r', rfl, h'⟩

/-- **Names that cannot conflict** do not: those of the components are different, and none of them
    is another with `Input` at its end. -/
theorem conflicts_eq_nil [Fintype ι] (hinjective : Function.Injective structs.component)
    (hne : ∀ i j, structs.component i ≠ inputName (structs.component j)) {fuel : ℕ}
    (hfuel : 2 * Fintype.card ι + 1 < fuel) {asked : List (Asked ι)} {answers : List Json}
    {r : SchemaRegistry ι}
    (hrun : asked.mapM (Components.ask (derived structs.derive fuel)) document = some (answers, r)) :
    r.conflicts = [] := by
  have key : ∀ {calls} {before : SchemaRegistry ι},
      (structs.graph hinjective hne).Settled calls before → ∀ {answers : List Json},
        asked.mapM (Components.ask (derived structs.derive fuel)) before = some (answers, r) →
          r.conflicts = [] := by
    clear hrun
    induction asked with
    | nil =>
      intro calls before h answers hrun
      cases hrun
      exact h.requests.outputs.conflicts
    | cons a asked ih =>
      intro calls before h answers hrun
      obtain ⟨schema, calls', r₁, hcall, h'⟩ := settled_ask hfuel h a
      rw [List.mapM_cons, bind_apply, hcall] at hrun
      obtain ⟨answers', r₂, hrest, heq⟩ := eq_some_of_bind hrun
      cases heq
      exact ih h' hrest
  exact key TypeGraph.settled_document hrun

/-- The component of a struct in a request, if those of `differs` have a request form. -/
def requestName (structs : Structs ι) (differs : Finset ι) (i : ι) : String :=
  formName differs true i (structs.component i)

omit [DecidableEq ι] in
theorem component?_derive (structs : Structs ι) (i : ι) :
    (structs.derive i).component? = some (structs.component i) := rfl

theorem answer_eq {differs : Finset ι} {i : ι} {schema : Json}
    (h : Answers structs.derive differs true i schema) :
    schema = reference (structs.requestName differs i) :=
  h.of_component (structs.component?_derive i)

/-- The body of a struct in a request. -/
theorem body_eq_requestBody {differs : Finset ι} {i : ι} {built : Json}
    (h : Body structs.derive differs true i built) :
    built = structs.requestBody (structs.requestName differs) i := by
  let named : Named ι := fun _ j => pure (reference (structs.requestName differs j))
  have hbody : (structs.input i).body named true =
      pure (structs.requestBody (structs.requestName differs) i) := by
    rw [body_eq (structs.flatten i), List.mapM_pure, pure_bind]
    rfl
  obtain ⟨answers, hanswers, rfl⟩ := h
  -- the answers are references
  have hrefs : answers = (refsOf (structs.input i).fields).map fun j =>
      reference (structs.requestName differs j) := by
    rw [asks_derive, List.forall₂_map_left_iff] at hanswers
    generalize refsOf (structs.input i).fields = refs at hanswers
    induction hanswers with
    | nil => rfl
    | cons hanswer _ ih => rw [List.map_cons, answer_eq hanswer, ih]
  have hplan : ((structs.derive i).plan true).run (Ask.run named true) =
      pure (((structs.derive i).plan true).answer answers) := by
    rw [Plan.run, DeriveInput.asks_plan, asks_derive, List.mapM_map, hrefs]
    show (refsOf (structs.input i).fields).mapM (fun j => (pure _ : Gen ι Json)) >>= _ = _
    rw [List.mapM_pure, pure_bind]
  have hrun := (StructInput.body_eq_run named true (structs.input i)).symm.trans hbody
  have hsame := congrFun (hplan.symm.trans hrun) .inlined
  exact (Prod.mk.inj (Option.some.inj hsame)).1

end Structs

/-- The request form of a type that is settled, under its name. -/
theorem Components.Accounts.lookup_form [DecidableEq ι] {inputs : ι → DeriveInput ι}
    {asked : List (Asked ι)} {r : SchemaRegistry ι} (h : Components.Accounts inputs asked r) {i : ι}
    {name : String} (hname : (inputs i).component? = some name) (hi : Components.Settled r i) :
    ∃ built, r.definitions.lookup (formName r.inputDiffers true i name) = some built ∧
      Body inputs r.inputDiffers true i built := by
  obtain ⟨answer, name', built, hform⟩ := h.exists_form hi
  have hname' := hform.component
  rw [hname] at hname'
  cases hname'
  refine ⟨built, ?_, hform.body⟩
  by_cases hdiffers : i ∈ r.inputDiffers
  · rw [formName, if_pos ⟨rfl, hdiffers⟩]
    exact (hform.differs hdiffers).2
  · -- it is the output
    obtain ⟨output, hlookup, houtput⟩ := h.requests.exists_output hname hform.defined
    rw [formName, if_neg fun hboth => hdiffers hboth.2, hlookup,
      houtput.unique (hform.same hdiffers)]

/-- What a settled struct refers to is settled. -/
theorem Structs.settled_refs [DecidableEq ι] {structs : Structs ι} {asked : List (Asked ι)}
    {r : SchemaRegistry ι} (h : Components.Accounts structs.derive asked r) {i : ι}
    (hi : Components.Settled r i) : ∀ k ∈ refsOf (structs.input i).fields, Components.Settled r k := by
  intro k hk
  obtain ⟨_, _, _, hform⟩ := h.exists_form hi
  refine hform.settled k ⟨k, ?_, .component rfl⟩
  rw [Structs.asks_derive]
  exact List.mem_map_of_mem hk

/-- The component of a settled struct is its body in requests. -/
theorem Structs.lookup_requestName [DecidableEq ι] {structs : Structs ι} {asked : List (Asked ι)}
    {r : SchemaRegistry ι} (h : Components.Accounts structs.derive asked r) {i : ι}
    (hi : Components.Settled r i) :
    r.definitions.lookup (structs.requestName r.inputDiffers i) =
      some (structs.requestBody (structs.requestName r.inputDiffers) i) := by
  obtain ⟨built, hlookup, hbody⟩ := h.lookup_form (structs.component?_derive i) hi
  rw [← Structs.body_eq_requestBody hbody]
  exact hlookup

/-- **The request schemas of a document accept what serde reads.** With enough fuel (so for the
    code: always), a request schema is made wherever it is asked for; and when the document is
    complete and no conflict of names was found, a value of the right type that sends no read-only
    property is valid against it if and only if serde reads it. -/
theorem requestSchema_accepts [Fintype ι] [DecidableEq ι] (structs : Structs ι)
    (hoptions : structs.OptionsShow) (uuid : String → Bool) :
    ∃ bound, ∀ fuel ≥ bound, ∀ (before after : List (Asked ι)) (i : ι),
      ∃ answers r schema r' answers' r'',
        before.mapM (Components.ask (derived structs.derive fuel)) document = some (answers, r) ∧
          derived structs.derive fuel true i r = some (schema, r') ∧
          after.mapM (Components.ask (derived structs.derive fuel)) r' = some (answers', r'') ∧
          (r''.conflicts = [] →
            ∀ value, Typed structs.input (Scalar.fits uuid) structs.MaySend (.named i) value →
              Coincide (fun steps => validates r''.definitions.lookup steps schema value)
                (fun steps => deserializes structs.input uuid steps i value)) := by
  obtain ⟨bound, hbound⟩ := structs.returns
  refine ⟨bound, fun fuel hfuel before after i => ?_⟩
  obtain ⟨answers, r, hbefore⟩ := hbound fuel hfuel before document
  obtain ⟨_, r₁, hcalls⟩ := hbound fuel hfuel [(true, .named i)] r
  rw [List.mapM_cons] at hcalls
  obtain ⟨schema, r', hcall, -⟩ := eq_some_of_bind hcalls
  have hcall : derived structs.derive fuel true i r = some (schema, r') := hcall
  obtain ⟨answers', r'', hafter⟩ := hbound fuel hfuel after r'
  refine ⟨answers, r, schema, r', answers', r'', hbefore, hcall, hafter, ?_⟩
  intro hnone value htyped
  -- no call found a conflict
  have hnone₁ : r'.conflicts = [] :=
    (Components.conflictsStay_calls fuel after _ _ _ hafter).eq_nil hnone
  have hnone₀ : r.conflicts = [] := (conflicts_le fuel true i _ _ _ hcall).eq_nil hnone₁
  obtain ⟨hr, -, -⟩ := Components.accounts_document.run hbefore hnone₀
  obtain ⟨-, -, hanswer, -, hsettled, -⟩ := hr.call hcall hnone₁
  obtain ⟨hr', -, -⟩ := hr.ask (true, RustType.named i) hcall hnone₁
  obtain ⟨hr'', hstep, -⟩ := hr'.run hafter hnone
  have hi : Components.Settled r' i := hsettled rfl i (.component rfl)
  -- the answer is still right at the end
  have hname : structs.requestName r'.inputDiffers i = structs.requestName r''.inputDiffers i := by
    unfold Structs.requestName formName
    simp only [hstep.differs_iff hi]
  rw [Structs.answer_eq hanswer, hname]
  have hreached : ∀ mentioned, (RustType.named i).named? = some mentioned →
      Components.Settled r'' mentioned := by
    intro mentioned hmentioned
    obtain rfl := Option.some.inj hmentioned
    exact hstep.settled hi
  exact Structs.validates_request hoptions (fun _ => Structs.settled_refs hr'')
    (fun _ => Structs.lookup_requestName hr'') htyped hreached

/-- An order with lines, which only a request must carry, and a number that the server gives. -/
def orderInput (i : Fin 2) : StructInput (Fin 2) :=
  [{ fields :=
      [{ wire := "id", type := .scalar (.int .u64), skipDeserializing := true },
        { wire := "lines", type := .vec (.named ⟨1, Nat.one_lt_two⟩), skipSerializingIf := true }]
     denyUnknownFields := true },
    { fields :=
      [{ wire := "sku", type := .scalar .string },
        { wire := "price", type := .scalar .f64 },
        { wire := "count", type := .option (.scalar (.int .u32)) }] }].get i

theorem entries_orderInput (i : Fin 2) :
    ∀ field ∈ (orderInput i).fields, field.doc.entries = [] := by
  fin_cases i <;> simp [orderInput]

def order : Structs (Fin 2) where
  component i := ["Order", "Line"].get i
  input := orderInput
  flatten := by decide +kernel
  annotation := by
    intro i field hfield entry hentry
    rw [entries_orderInput i field hfield] at hentry
    cases hentry
  distinct := by decide +kernel

/-- A request for an order, without a number, is judged by its schema as serde does, where responses
    with orders were documented before and a request with lines comes after. -/
theorem requestSchema_accepts_order :
    ∃ bound, ∀ fuel ≥ bound, ∃ answers r schema r' answers' r'',
      [(false, .vec (.named 0))].mapM (Components.ask (derived order.derive fuel)) document =
          some (answers, r) ∧
        derived order.derive fuel true 0 r = some (schema, r') ∧
        [(true, .named 1)].mapM (Components.ask (derived order.derive fuel)) r' =
          some (answers', r'') ∧
        Coincide
          (fun steps => validates r''.definitions.lookup steps schema
            (.obj [("lines", .arr [.obj [("price", .num (.float 1.5)), ("sku", .str "bolt")]])]))
          (fun steps => deserializes order.input (fun _ => true) steps 0
            (.obj [("lines", .arr [.obj [("price", .num (.float 1.5)), ("sku", .str "bolt")]])])) := by
  have hoptions : order.OptionsShow := by
    intro i
    fin_cases i <;> simp [order, orderInput, RustType.readsMissing, RustType.optionInner]
  obtain ⟨bound, hbound⟩ := requestSchema_accepts order hoptions fun _ => true
  refine ⟨max bound 6, ?_⟩
  intro fuel hfuel
  obtain ⟨answers, r, schema, r', answers', r'', hbefore, hcall, hafter, hvalue⟩ :=
    hbound fuel (le_of_max_le_left hfuel) [(false, .vec (.named 0))] [(true, .named 1)] 0
  have hcalls : [(true, .named 0)].mapM (Components.ask (derived order.derive fuel)) r =
      some ([schema], r') := by
    have hask : Components.ask (derived order.derive fuel) (true, .named 0) r = some (schema, r') :=
      hcall
    rw [List.mapM_cons, bind_apply, hask]
    rfl
  have hnone : r''.conflicts = [] :=
    order.conflicts_eq_nil (by decide +kernel) (by decide +kernel) (le_of_max_le_right hfuel)
      (Components.mapM_append_eq_some (Components.mapM_append_eq_some hbefore hcalls) hafter)
  refine ⟨answers, r, schema, r', answers', r'', hbefore, hcall, hafter, hvalue hnone _ ?_⟩
  apply Typed.named
  · intro e he
    obtain rfl := List.mem_singleton.mp he
    exact (by decide +kernel : (order.input 0).isReadOnly "lines" = false)
  · intro e he field hfield
    obtain rfl := List.mem_singleton.mp he
    obtain rfl := Option.some.inj hfield
    apply Typed.vec
    intro item hitem
    obtain rfl := List.mem_singleton.mp hitem
    apply Typed.named
    · have hmay : ∀ key ∈ ["price", "sku"], (order.input 1).isReadOnly key = false := by
        decide +kernel
      exact fun e he => hmay e.1 (List.mem_map_of_mem he)
    · intro e he field hfield
      simp only [List.mem_cons, List.not_mem_nil, or_false] at he
      rcases he with rfl | rfl
      · obtain rfl := Option.some.inj hfield
        exact Typed.scalar rfl
      · obtain rfl := Option.some.inj hfield
        exact Typed.scalar rfl

/-! ## Where they disagree -/

/-- A value of the right type on which the request schema of a struct and serde disagree; texts of 36
    characters stand for those of a `Uuid`. -/
def Disagrees [DecidableEq ι] (component : ι → String) (input : ι → StructInput ι) (i : ι)
    (value : Json) : Prop :=
  Typed input Scalar.hasJsonType (fun _ _ => True) (.named i) value ∧
    ∃ fuel schema r answer,
      derived (fun i => .struct (component i) (input i)) fuel true i document = some (schema, r) ∧
        Settles (fun steps => validates r.definitions.lookup steps schema value) answer ∧
        Settles (fun steps => deserializes input (fun text => text.length == 36) steps i value)
          (!answer)

/-- A closed struct with a read-only number: the schema lists it, serde does not know it. -/
def closedInput : StructInput Unit where
  fields := [{ wire := "id", type := .scalar (.int .u32), skipDeserializing := true }]
  denyUnknownFields := true

/-- A read-only number of 8 bits: the schema checks its range, serde ignores it. -/
def levelInput : StructInput Unit where
  fields := [{ wire := "level", type := .scalar (.int .u8), skipDeserializing := true }]

/-- An `Option` in a `Box`: serde makes do without it, the derive does not see it. -/
def boxedInput : StructInput Unit where
  fields := [{ wire := "note", type := .box (.option (.scalar .string)) }]

/-- Two fields of one name: serde reads the first one, the schema describes the second one. -/
def repeatedInput : StructInput Unit where
  fields :=
    [{ wire := "x", type := .scalar (.int .u32) },
      { wire := "x", type := .scalar .string, default := true }]

/-- A number: to the schema `1.0` is an integer, to serde it is a float. -/
def numberedInput : StructInput Unit where
  fields := [{ wire := "id", type := .scalar (.int .u32) }]

/-- A size: the schema has no upper bound for it. -/
def sizedInput : StructInput Unit where
  fields := [{ wire := "size", type := .scalar .usize }]

/-- An identifier: the schema tells its `format` only. -/
def identifiedInput : StructInput Unit where
  fields := [{ wire := "id", type := .scalar .uuid }]

/-- An object with one property, of a scalar type. -/
theorem typed_entry {input : StructInput Unit} {field : StructField Unit} {type : Scalar}
    {key : String} {value : Json} (hfield : input.listedField? key = some field)
    (htype : field.type = .scalar type) (hvalue : type.hasJsonType value = true) :
    Typed (fun _ => input) Scalar.hasJsonType (fun _ _ => True) (.named ()) (.obj [(key, value)]) := by
  apply Typed.named
  · exact fun _ _ => trivial
  · intro e he other hother
    obtain rfl := List.mem_singleton.mp he
    obtain rfl := Option.some.inj (hfield.symm.trans hother)
    rw [htype]
    exact Typed.scalar hvalue

theorem disagrees_closed : Disagrees (fun _ => "Closed") (fun _ => closedInput) ()
    (.obj [("id", .num (.int 5))]) :=
  ⟨typed_entry rfl rfl rfl, 3, _, _, true, rfl, .of_add 4 fun _ => rfl, .of_add 4 fun _ => rfl⟩

theorem disagrees_level : Disagrees (fun _ => "Level") (fun _ => levelInput) ()
    (.obj [("level", .num (.int 300))]) :=
  ⟨typed_entry rfl rfl rfl, 3, _, _, false, rfl, .of_add 4 fun _ => rfl, .of_add 4 fun _ => rfl⟩

theorem disagrees_boxed : Disagrees (fun _ => "Boxed") (fun _ => boxedInput) () (.obj []) := by
  constructor
  · apply Typed.named
    · exact fun _ _ => trivial
    · intro e he
      cases he
  · exact ⟨3, _, _, false, rfl, .of_add 4 fun _ => rfl, .of_add 4 fun _ => rfl⟩

theorem disagrees_repeated : Disagrees (fun _ => "Repeated") (fun _ => repeatedInput) ()
    (.obj [("x", .num (.int 5))]) :=
  ⟨typed_entry rfl rfl rfl, 3, _, _, false, rfl, .of_add 4 fun _ => rfl, .of_add 4 fun _ => rfl⟩

theorem disagrees_numbered : Disagrees (fun _ => "Numbered") (fun _ => numberedInput) ()
    (.obj [("id", .num (.float 1))]) :=
  ⟨typed_entry rfl rfl rfl, 3, _, _, true, rfl, .of_add 4 fun _ => rfl, .of_add 4 fun _ => rfl⟩

theorem disagrees_sized : Disagrees (fun _ => "Sized") (fun _ => sizedInput) ()
    (.obj [("size", .num (.int 18446744073709551616))]) :=
  ⟨typed_entry rfl rfl rfl, 3, _, _, true, rfl, .of_add 4 fun _ => rfl, .of_add 4 fun _ => rfl⟩

theorem disagrees_identified : Disagrees (fun _ => "Identified") (fun _ => identifiedInput) ()
    (.obj [("id", .str "x")]) :=
  ⟨typed_entry rfl rfl rfl, 3, _, _, true, rfl, .of_add 4 fun _ => rfl, .of_add 4 fun _ => rfl⟩

/-- **Values on which the schema and serde disagree**: read-only properties that are sent, a hidden
    `Option` that is left out, two fields of one name, an integer that is written as a float, and
    values that are not of their `format`. -/
theorem not_requestSchema_exact :
    Disagrees (fun _ => "Closed") (fun _ => closedInput) () (.obj [("id", .num (.int 5))]) ∧
      Disagrees (fun _ => "Level") (fun _ => levelInput) () (.obj [("level", .num (.int 300))]) ∧
      Disagrees (fun _ => "Boxed") (fun _ => boxedInput) () (.obj []) ∧
      Disagrees (fun _ => "Repeated") (fun _ => repeatedInput) () (.obj [("x", .num (.int 5))]) ∧
      Disagrees (fun _ => "Numbered") (fun _ => numberedInput) ()
        (.obj [("id", .num (.float 1))]) ∧
      Disagrees (fun _ => "Sized") (fun _ => sizedInput) ()
        (.obj [("size", .num (.int 18446744073709551616))]) ∧
      Disagrees (fun _ => "Identified") (fun _ => identifiedInput) () (.obj [("id", .str "x")]) :=
  ⟨disagrees_closed, disagrees_level, disagrees_boxed, disagrees_repeated, disagrees_numbered,
    disagrees_sized, disagrees_identified⟩

end OasRs.Schema
