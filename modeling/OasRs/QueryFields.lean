import OasRs.QueryText
import OasRs.Derive
import Mathlib.Logic.Function.Basic

/-!
# Scalar Query Fields

What a query means to a struct of scalar fields: the readings that the three decoders should
give, without their loops. serde is given by its documented behaviour.

## Overview

- `QueryField`, `QueryType.fromStr`, `QueryType.fromValue`
- `readFields`: a struct from the values that are found under its names
- `directReads`, `typedReads`: a query as the generated parser and as `parse_query_typed` read it
- `ReadsForms`, `ReadsObjects`: what serde does with these fields
-/

namespace OasRs

open Lib Schema

variable {α β F : Type}

/-! ## Fields -/

/-- The types of query fields that the generated parser decodes, without floats. -/
inductive QueryType where
  | string
  | bool
  | int (kind : IntKind) (wide : kind ∈ [.u32, .u64, .i32, .i64])
  deriving DecidableEq

/-- The value of a field. -/
inductive ScalarValue where
  | text (value : Text)
  | bool (value : Bool)
  | int (value : ℤ)
  deriving DecidableEq

namespace QueryType

/-- The Rust type. -/
def scalar : QueryType → Scalar
  | string => .string
  | bool => .bool
  | int kind _ => .int kind

/-- `type` in its schema -/
def kind : QueryType → String
  | string => "string"
  | bool => "boolean"
  | int _ _ => "integer"

/-- `from_str` -/
def fromStr : QueryType → Text → Option ScalarValue
  | string, text => some (.text text)
  | bool, text =>
    if text = str "true" then some (.bool true)
    else if text = str "false" then some (.bool false)
    else none
  | int kind _, text => (kind.parse text).map .int

/-- `serde_json::from_value`: strings, booleans and numbers are not mixed up. -/
def fromValue : QueryType → QueryValue F → Option ScalarValue
  | string, .text text => some (.text text)
  | bool, .bool value => some (.bool value)
  | int kind _, .int n => if kind.min ≤ n ∧ n ≤ kind.max then some (.int n) else none
  | _, _ => none

/-- What `from_value` gets of a text that was converted for a declared type. -/
def readAs (declared : QueryType) : QueryType → Text → Option ScalarValue
  | string, text =>
    match declared with
    | string => some (.text text)
    | bool => if text = str "true" ∨ text = str "false" then none else some (.text text)
    | int _ _ => if (parseNumber text).isSome then none else some (.text text)
  | bool, text =>
    match declared with
    | bool => bool.fromStr text
    | _ => none
  | int kind _, text =>
    match declared with
    | int _ _ => ((parseNumber text).filter fun n => kind.min ≤ n ∧ n ≤ kind.max).map .int
    | _ => none

end QueryType

/-- A field of a query struct. -/
structure QueryField where
  wire : String
  type : QueryType
  optional : Bool
  deriving DecidableEq

namespace QueryField

/-- The Rust type of the field. -/
def rustType (field : QueryField) : RustType Unit :=
  if field.optional then .option (.scalar field.type.scalar) else .scalar field.type.scalar

/-- The field, as the derive reads it. -/
def structField (field : QueryField) : StructField Unit := { wire := field.wire, type := field.rustType }

end QueryField

/-- The struct with these fields. -/
def inputOf (fields : List QueryField) : StructInput Unit :=
  { fields := fields.map QueryField.structField }

/-- The field that a name stands for. -/
def fieldOf (fields : List QueryField) (name : Text) : Option QueryField :=
  fields.find? fun field => str field.wire == name

/-! ## Structs -/

/-- A field from what is found under its name. -/
def QueryField.read (convert : QueryField → α → Option ScalarValue) (field : QueryField) :
    Option α → Option (Option ScalarValue)
  | some input => (convert field input).map some
  | none => if field.optional then some none else none

/-- The fields of a struct from what is found under their names. The second field of a name
    finds nothing. -/
def readFields (convert : QueryField → α → Option ScalarValue) :
    List QueryField → (Text → Option α) → Option (List (Option ScalarValue))
  | [], _ => some []
  | field :: fields, object =>
    (field.read convert (object (str field.wire))).bind fun value =>
      (readFields convert fields (Function.update object (str field.wire) none)).map (value :: ·)

/-- The last value of every name. -/
def lastOf (sent : List (Text × α)) : Text → Option α :=
  sent.foldl (fun object pair => Function.update object pair.1 (some pair.2)) fun _ => none

/-! ## Pairs -/

/-- `percent_decode`, if it succeeds -/
def decoded (text : Text) : Option Text := (percentDecode text).toOption

/-- A pair with its name and its value decoded. -/
def decodePair (pair : Text × Text) : Option (Text × Text) :=
  (decoded pair.1).bind fun name => (decoded pair.2).map fun value => (name, value)

/-- The same for the generated parser: a name of a field is taken as it is sent. -/
def directPairOf (fields : List QueryField) (pair : Text × Text) : Option (Text × Text) :=
  (if (fieldOf fields pair.1).isSome then some pair.1 else decoded pair.1).bind fun name =>
    (decoded pair.2).map fun value => (name, value)

/-- The pair is for no field, or its value can be parsed. -/
def parses (fields : List QueryField) (pair : Text × Text) : Bool :=
  (fieldOf fields pair.1).all fun field => (field.type.fromStr pair.2).isSome

/-! ## Readings -/

/-- A query as the generated parser reads it: every value of a field has to be right, and the
    last one counts. -/
def directReads (fields : List QueryField) (query : Text) : Option (List (Option ScalarValue)) :=
  ((queryPairs query).mapM (directPairOf fields)).bind fun sent =>
    if sent.all (parses fields) then readFields (fun field => field.type.fromStr) fields (lastOf sent)
    else none

/-- A query as `parse_query_typed` reads it: the last value of a field counts, converted for the
    type that is declared for the name. -/
def typedReads (declared : Text → Option QueryField) (fields : List QueryField) (query : Text) :
    Option (List (Option ScalarValue)) :=
  ((queryPairs query).mapM decodePair).bind fun sent =>
    readFields (fun field text =>
      (declared (str field.wire)).bind fun other => other.type.readAs field.type text)
      fields (lastOf sent)

/-! ## serde -/

/-- A part of a form: a plus sign is a space. -/
def formPart (text : Text) : Option Text :=
  decoded (text.map fun byte => if byte = plus then 0x20 else byte)

/-- The pairs of a form, if they are encoded well. -/
def formPairs (text : Text) : Option (List (Text × Text)) :=
  (queryPairs text).mapM fun pair =>
    (formPart pair.1).bind fun name => (formPart pair.2).map fun value => (name, value)

/-- The names of fields among some pairs. -/
def knownNames (fields : List QueryField) (pairs : List (Text × Text)) : List Text :=
  (pairs.map Prod.fst).filter fun name => (fieldOf fields name).isSome

/-- A form, read field by field: a name that is repeated is an error, a name that is not known
    is ignored. -/
def readForm (fields : List QueryField) (pairs : List (Text × Text)) :
    Option (List (Option ScalarValue)) :=
  if (knownNames fields pairs).Nodup then
    readFields (fun field => field.type.fromStr) fields (lastOf pairs)
  else none

/-- What `serde_json` does with a struct of these fields. -/
def ReadsObjects (fields : List QueryField) (serde : Serde (List (Option ScalarValue)) F) : Prop :=
  ∀ object, (serde.fromValue object).toOption =
    readFields (fun field value => field.type.fromValue value) fields object.lookup

/-- What `serde_urlencoded` does with a struct of these fields. -/
def ReadsForms (fields : List QueryField) (serde : Serde (List (Option ScalarValue)) F) : Prop :=
  ∀ text pairs, formPairs text = some pairs →
    (serde.urlencoded text).toOption = readForm fields pairs

/-! ## Facts about types -/

/-- Conversion and `from_value` together. -/
theorem fromValue_typedValue (finite : Text → Option F) (declared type : QueryType) (text : Text) :
    type.fromValue (typedValue finite (some declared.kind) text) = declared.readAs type text := by
  cases declared with
  | string => cases type <;> simp [typedValue, QueryType.kind, QueryType.fromValue, QueryType.readAs]
  | bool =>
    by_cases htrue : text = str "true"
    · have hne : str "true" ≠ str "false" := by decide
      cases type <;>
        simp [typedValue, QueryType.kind, QueryType.fromValue, QueryType.readAs, QueryType.fromStr,
          htrue]
    · by_cases hfalse : text = str "false"
      · have hne : str "false" ≠ str "true" := by decide
        cases type <;>
          simp [typedValue, QueryType.kind, QueryType.fromValue, QueryType.readAs,
            QueryType.fromStr, hfalse, hne]
      · cases type <;>
          simp [typedValue, QueryType.kind, QueryType.fromValue, QueryType.readAs,
            QueryType.fromStr, htrue, hfalse]
  | int kind wide =>
    cases hnumber : parseNumber text with
    | none =>
      cases type <;>
        simp [typedValue, QueryType.kind, QueryType.fromValue, QueryType.readAs, hnumber]
    | some n =>
      cases type with
      | string => simp [typedValue, QueryType.kind, QueryType.fromValue, QueryType.readAs, hnumber]
      | bool => simp [typedValue, QueryType.kind, QueryType.fromValue, QueryType.readAs, hnumber]
      | int kind' wide' =>
        simp only [typedValue, QueryType.kind, QueryType.fromValue, QueryType.readAs, hnumber]
        by_cases hrange : kind'.min ≤ n ∧ n ≤ kind'.max
        · simp [hrange, Option.filter]
        · simp [hrange, Option.filter]

/-! ### Numbers -/

/-- A sign is no digit. -/
theorem decimalValue_minus (rest : Text) : decimalValue (minus :: rest) = none := by
  rw [decimalValue, if_neg (List.cons_ne_nil _ _)]
  rfl

theorem parseUnsigned_eq_some {max n : ℕ} {text : Text} (h : parseUnsigned max text = some n) :
    text.head? ≠ some minus ∧ n ≤ max ∧ ∀ max', parseUnsigned max' text = if n ≤ max' then some n else none := by
  rw [parseUnsigned, Option.filter_eq_some_iff, decide_eq_true_eq] at h
  refine ⟨fun hminus => ?_, h.2, fun max' => ?_⟩
  · obtain ⟨rest, rfl⟩ : ∃ rest, text = minus :: rest := by
      cases text with
      | nil => cases hminus
      | cons byte rest => exact ⟨rest, by rw [Option.some.inj hminus]⟩
    have hplus : (minus :: rest : Text).head? ≠ some plus := by
      rw [List.head?_cons]
      decide
    rw [if_neg hplus, decimalValue_minus] at h
    cases h.1
  · rw [parseUnsigned, h.1]
    simp [Option.filter]

/-- A number of a signed type is in its range, and is read by every type that has it. -/
theorem parseSigned_eq_some {min n : ℤ} {max : ℕ} {text : Text} (hmin : min ≤ 0)
    (h : parseSigned min max text = some n) : min ≤ n ∧ n ≤ max ∧
      ∀ (min' : ℤ) (max' : ℕ), min' ≤ n → n ≤ max' → parseSigned min' max' text = some n := by
  rw [parseSigned] at h
  split at h
  · rw [Option.filter_eq_some_iff, decide_eq_true_eq, Option.map_eq_some_iff] at h
    obtain ⟨⟨m, hm, rfl⟩, hle⟩ := h
    refine ⟨hle, by omega, fun min' max' hmin' _ => ?_⟩
    rw [parseSigned, if_pos ‹_›, hm]
    simp [Option.filter, hmin']
  · rw [Option.map_eq_some_iff] at h
    obtain ⟨m, hm, rfl⟩ := h
    obtain ⟨-, hle, hall⟩ := parseUnsigned_eq_some hm
    refine ⟨hmin.trans (Int.natCast_nonneg m), Int.ofNat_le.mpr hle, fun min' max' _ hmax' => ?_⟩
    rw [parseSigned, if_neg ‹_›, hall max', if_pos (Int.ofNat_le.mp hmax')]
    rfl

/-- What an integer type parses is in its range, and is the number of the text. -/
theorem parseNumber_of_parse {kind : IntKind} {text : Text} {n : ℤ} (h : kind.parse text = some n) :
    (kind.min ≤ n ∧ n ≤ kind.max) ∧ parseNumber text = some n := by
  have hbounds : ((-2 ^ 63 : ℤ) ≤ kind.min ∧ kind.min ≤ 0 ∧ 0 ≤ kind.max) ∧
      (kind.min < 0 → kind.max ≤ 2 ^ 63 - 1) ∧ (¬ kind.min < 0 → kind.min = 0 ∧ kind.max ≤ 2 ^ 64 - 1) := by
    cases kind <;> decide
  obtain ⟨⟨hlow, hmin, hmax⟩, hsigned, hunsigned⟩ := hbounds
  have hi64 : IntKind.i64.parse text = parseSigned (-2 ^ 63) (2 ^ 63 - 1) text := rfl
  have hu64 : IntKind.u64.parse text = (parseUnsigned (2 ^ 64 - 1) text).map Int.ofNat := rfl
  rw [parseNumber, hi64, hu64]
  rw [IntKind.parse] at h
  split at h
  · obtain ⟨hge, hle, hall⟩ := parseSigned_eq_some hmin h
    rw [Int.toNat_of_nonneg hmax] at hle
    have hnarrow := hsigned ‹_›
    refine ⟨⟨hge, hle⟩, ?_⟩
    rw [hall _ _ (hlow.trans hge) (by push_cast; omega)]
    rfl
  · obtain ⟨m, hm, rfl⟩ := Option.map_eq_some_iff.mp h
    obtain ⟨hminus, hle, hall⟩ := parseUnsigned_eq_some hm
    obtain ⟨hzero, hnarrow⟩ := hunsigned ‹_›
    have hle' : (m : ℤ) ≤ kind.max := by
      rw [← Int.toNat_of_nonneg hmax]
      exact Int.ofNat_le.mpr hle
    refine ⟨⟨hzero ▸ Int.natCast_nonneg m, hle'⟩, ?_⟩
    -- it is an `i64`, or else it is a `u64`
    rw [parseSigned, if_neg hminus, hall, hall, if_pos (show m ≤ 2 ^ 64 - 1 by omega)]
    split
    · rfl
    · rfl

/-- What `from_str` accepts, conversion and `from_value` accept. -/
theorem readAs_of_fromStr {type : QueryType} {text : Text} {value : ScalarValue}
    (h : type.fromStr text = some value) : type.readAs type text = some value := by
  cases type with
  | string => exact h
  | bool => exact h
  | int kind wide =>
    obtain ⟨n, hn, rfl⟩ := Option.map_eq_some_iff.mp h
    obtain ⟨hrange, hnumber⟩ := parseNumber_of_parse hn
    simp [QueryType.readAs, hnumber, Option.filter, hrange]

/-- What is read of a text that was converted for another type is read of one that was not. -/
theorem readAs_self {declared type : QueryType} {text : Text} {value : ScalarValue}
    (h : declared.readAs type text = some value) : type.readAs type text = some value := by
  cases type with
  | string =>
    cases declared with
    | string => exact h
    | bool =>
      rw [QueryType.readAs] at h
      split at h
      · cases h
      · exact h
    | int kind wide =>
      rw [QueryType.readAs] at h
      split at h
      · cases h
      · exact h
  | bool =>
    cases declared with
    | bool => exact h
    | string => cases h
    | int kind wide => cases h
  | int kind wide =>
    cases declared with
    | int kind' wide' => exact h
    | string => cases h
    | bool => cases h

example : (QueryType.int .u32 (by decide)).readAs (.int .u32 (by decide)) (str "-0") = some (.int 0) ∧
    (QueryType.int .u32 (by decide)).fromStr (str "-0") = none := by decide +kernel

/-! ## Facts about readings -/

theorem fieldOf_cons_of_ne {field : QueryField} {name : Text} (h : str field.wire ≠ name)
    (fields : List QueryField) : fieldOf (field :: fields) name = fieldOf fields name := by
  rw [fieldOf, List.find?_cons_of_neg (by simpa using h)]
  rfl

theorem fieldOf_cons_self (field : QueryField) (fields : List QueryField) :
    fieldOf (field :: fields) (str field.wire) = some field := by
  rw [fieldOf, List.find?_cons_of_pos (by simp)]

/-- Two conversions that agree on what is found give the same struct. -/
theorem readFields_congr {convert convert' : QueryField → α → Option ScalarValue}
    {fields : List QueryField} {object : Text → Option α}
    (h : ∀ field input, fieldOf fields (str field.wire) = some field →
      object (str field.wire) = some input → convert field input = convert' field input) :
    readFields convert fields object = readFields convert' fields object := by
  induction fields generalizing object with
  | nil => rfl
  | cons field fields ih =>
    have hhead : ∀ input, object (str field.wire) = some input →
        convert field input = convert' field input :=
      fun input => h field input (fieldOf_cons_self field fields)
    have htail : readFields convert fields (Function.update object (str field.wire) none) =
        readFields convert' fields (Function.update object (str field.wire) none) := by
      apply ih
      intro other input hother hinput
      -- what is left is under another name
      by_cases hname : str other.wire = str field.wire
      · rw [hname, Function.update_self] at hinput
        cases hinput
      · rw [Function.update_of_ne hname] at hinput
        apply h other input _ hinput
        rw [fieldOf_cons_of_ne (Ne.symm hname), hother]
    rw [readFields, readFields, htail]
    cases hfound : object (str field.wire) with
    | none => rfl
    | some input => rw [QueryField.read, QueryField.read, hhead input hfound]

/-- A conversion that accepts more gives the same struct where the other gives one. -/
theorem readFields_mono {convert convert' : QueryField → α → Option ScalarValue}
    (h : ∀ field input value, convert field input = some value → convert' field input = some value)
    {fields : List QueryField} {object : Text → Option α} {values : List (Option ScalarValue)}
    (hread : readFields convert fields object = some values) :
    readFields convert' fields object = some values := by
  induction fields generalizing object values with
  | nil => exact hread
  | cons field fields ih =>
    rw [readFields, Option.bind_eq_some_iff] at hread
    obtain ⟨value, hvalue, hrest⟩ := hread
    obtain ⟨others, hothers, rfl⟩ := Option.map_eq_some_iff.mp hrest
    have hvalue' : field.read convert' (object (str field.wire)) = some value := by
      cases hfound : object (str field.wire) with
      | none =>
        rw [hfound] at hvalue
        exact hvalue
      | some input =>
        rw [hfound] at hvalue
        obtain ⟨scalar, hscalar, rfl⟩ := Option.map_eq_some_iff.mp hvalue
        rw [QueryField.read, h field input scalar hscalar]
        rfl
    rw [readFields, hvalue', ih hothers]
    rfl

/-- Every required field is found. One that comes after a field of the same name never is. -/
def RequiredFound (fields : List QueryField) (object : Text → Option α) : Prop :=
  fields.Pairwise (fun field other => field.wire = other.wire → other.optional = true) ∧
    ∀ field ∈ fields, field.optional = false → (object (str field.wire)).isSome

theorem requiredFound_cons {field : QueryField} {fields : List QueryField}
    {object : Text → Option α} :
    RequiredFound (field :: fields) object ↔
      (field.optional = false → (object (str field.wire)).isSome) ∧
        RequiredFound fields (Function.update object (str field.wire) none) := by
  simp only [RequiredFound, List.pairwise_cons, List.forall_mem_cons]
  constructor
  · rintro ⟨⟨hnames, hrest⟩, hfield, hfields⟩
    refine ⟨hfield, hrest, fun other hother hrequired => ?_⟩
    have hne : str other.wire ≠ str field.wire := fun h => by
      rw [hnames other hother (str_injective h).symm] at hrequired
      cases hrequired
    rw [Function.update_of_ne hne]
    exact hfields other hother hrequired
  · rintro ⟨hfield, hrest, hfields⟩
    refine ⟨⟨fun other hother hname => ?_, hrest⟩, hfield, fun other hother hrequired => ?_⟩
    · by_contra hrequired
      have hfound := hfields other hother (Bool.eq_false_iff.mpr hrequired)
      rw [hname, Function.update_self] at hfound
      cases hfound
    · have hfound := hfields other hother hrequired
      by_cases hname : str other.wire = str field.wire
      · rw [hname, Function.update_self] at hfound
        cases hfound
      · rwa [Function.update_of_ne hname] at hfound

theorem isSome_read {convert : QueryField → α → Option ScalarValue} {field : QueryField}
    {found : Option α} : (field.read convert found).isSome ↔
      (field.optional = false → found.isSome) ∧
        ∀ input, found = some input → (convert field input).isSome := by
  cases found with
  | none => cases hoptional : field.optional <;> simp [QueryField.read, hoptional]
  | some input => simp [QueryField.read]

theorem read_eq_some {convert : QueryField → α → Option ScalarValue} {field : QueryField}
    {found : Option α} {value : Option ScalarValue} (h : field.read convert found = some value) :
    value = found.bind (convert field) := by
  cases found with
  | none =>
    rw [QueryField.read] at h
    split at h
    · exact (Option.some.inj h).symm
    · cases h
  | some input =>
    obtain ⟨scalar, hscalar, rfl⟩ := Option.map_eq_some_iff.mp h
    exact hscalar.symm

/-- What holds of the first field of each name. -/
theorem forall_fieldOf_cons {field : QueryField} {fields : List QueryField}
    {P : QueryField → Prop} :
    (∀ other, fieldOf (field :: fields) (str other.wire) = some other → P other) ↔
      P field ∧ ∀ other, fieldOf fields (str other.wire) = some other → other.wire ≠ field.wire →
        P other := by
  constructor
  · intro h
    refine ⟨h field (fieldOf_cons_self field fields), fun other hother hname => h other ?_⟩
    rwa [fieldOf_cons_of_ne fun heq => hname (str_injective heq).symm]
  · rintro ⟨hfield, hrest⟩ other hother
    by_cases hname : other.wire = field.wire
    · rw [hname, fieldOf_cons_self] at hother
      exact Option.some.inj hother ▸ hfield
    · refine hrest other ?_ hname
      rwa [fieldOf_cons_of_ne fun heq => hname (str_injective heq).symm] at hother

/-- There is a struct exactly if every required field is found, and what is found for the first
    field of each name can be converted. -/
theorem isSome_readFields {convert : QueryField → α → Option ScalarValue}
    {fields : List QueryField} {object : Text → Option α} :
    (readFields convert fields object).isSome ↔ RequiredFound fields object ∧
      ∀ field, fieldOf fields (str field.wire) = some field →
        ∀ input, object (str field.wire) = some input → (convert field input).isSome := by
  induction fields generalizing object with
  | nil => simp [readFields, RequiredFound, fieldOf]
  | cons field fields ih =>
    have hsome : (readFields convert (field :: fields) object).isSome ↔
        (field.read convert (object (str field.wire))).isSome ∧
          (readFields convert fields (Function.update object (str field.wire) none)).isSome := by
      rw [readFields]
      cases field.read convert (object (str field.wire)) with
      | none => simp
      | some value => simp
    rw [hsome, isSome_read, ih, requiredFound_cons, forall_fieldOf_cons]
    -- what is left after the first field is under other names
    have hrest : (∀ other, fieldOf fields (str other.wire) = some other → ∀ input,
          Function.update object (str field.wire) none (str other.wire) = some input →
            (convert other input).isSome) ↔
        ∀ other, fieldOf fields (str other.wire) = some other → other.wire ≠ field.wire →
          ∀ input, object (str other.wire) = some input → (convert other input).isSome := by
      refine forall₂_congr fun other hother => ?_
      by_cases hname : other.wire = field.wire
      · simp [hname]
      · rw [Function.update_of_ne fun heq => hname (str_injective heq)]
        simp [hname]
    rw [hrest]
    tauto

/-- Two structs are the same exactly if the first fields of all names are. -/
theorem readFields_eq_iff {convert : QueryField → α → Option ScalarValue}
    {convert' : QueryField → β → Option ScalarValue} {fields : List QueryField}
    {object : Text → Option α} {object' : Text → Option β}
    (hread : (readFields convert fields object).isSome)
    (hread' : (readFields convert' fields object').isSome) :
    readFields convert fields object = readFields convert' fields object' ↔
      ∀ field, fieldOf fields (str field.wire) = some field →
        (object (str field.wire)).bind (convert field) =
          (object' (str field.wire)).bind (convert' field) := by
  induction fields generalizing object object' with
  | nil => simp [readFields, fieldOf]
  | cons field fields ih =>
    obtain ⟨values, hvalues⟩ := Option.isSome_iff_exists.mp hread
    obtain ⟨values', hvalues'⟩ := Option.isSome_iff_exists.mp hread'
    rw [hvalues, hvalues']
    rw [readFields, Option.bind_eq_some_iff] at hvalues hvalues'
    obtain ⟨value, hvalue, hrest⟩ := hvalues
    obtain ⟨value', hvalue', hrest'⟩ := hvalues'
    obtain ⟨others, hothers, rfl⟩ := Option.map_eq_some_iff.mp hrest
    obtain ⟨others', hothers', rfl⟩ := Option.map_eq_some_iff.mp hrest'
    have hothersSome : (readFields convert fields
        (Function.update object (str field.wire) none)).isSome := by
      rw [hothers]
      rfl
    have hothersSome' : (readFields convert' fields
        (Function.update object' (str field.wire) none)).isSome := by
      rw [hothers']
      rfl
    have htail := ih hothersSome hothersSome'
    rw [hothers, hothers', Option.some.injEq] at htail
    rw [Option.some.injEq, List.cons.injEq, htail, read_eq_some hvalue, read_eq_some hvalue',
      forall_fieldOf_cons]
    refine and_congr_right fun _ => forall₂_congr fun other hother => ?_
    by_cases hname : other.wire = field.wire
    · simp [hname]
    · rw [Function.update_of_ne fun heq => hname (str_injective heq),
        Function.update_of_ne fun heq => hname (str_injective heq)]
      simp [hname]

/-- Values may be converted before they are looked up. -/
theorem readFields_map (convert : QueryField → β → Option ScalarValue) (f : Text → α → β)
    (fields : List QueryField) (object : Text → Option α) :
    readFields convert fields (fun name => (object name).map (f name)) =
      readFields (fun field input => convert field (f (str field.wire) input)) fields object := by
  induction fields generalizing object with
  | nil => rfl
  | cons field fields ih =>
    have hupdate : (Function.update (fun name => (object name).map (f name)) (str field.wire) none) =
        fun name => (Function.update object (str field.wire) none name).map (f name) := by
      funext name
      by_cases hname : name = str field.wire
      · rw [hname, Function.update_self, Function.update_self]
        rfl
      · rw [Function.update_of_ne hname, Function.update_of_ne hname]
    rw [readFields, readFields, hupdate, ih]
    cases object (str field.wire) with
    | none => rfl
    | some input => rfl

theorem lastOf_concat (sent : List (Text × α)) (pair : Text × α) :
    lastOf (sent ++ [pair]) = Function.update (lastOf sent) pair.1 (some pair.2) := by
  rw [lastOf, List.foldl_append]
  rfl

/-- What is found was sent. -/
theorem mem_of_lastOf {sent : List (Text × α)} {name : Text} {value : α}
    (h : lastOf sent name = some value) : (name, value) ∈ sent := by
  induction sent using List.reverseRecOn with
  | nil => cases h
  | append_singleton sent pair ih =>
    rw [lastOf_concat] at h
    rw [List.mem_append, List.mem_singleton]
    by_cases hname : name = pair.1
    · rw [hname, Function.update_self] at h
      exact .inr (Prod.ext hname (Option.some.inj h).symm)
    · rw [Function.update_of_ne hname] at h
      exact .inl (ih h)

end OasRs
