import OasRs.Extract
import OasRs.Lib.Failing

/-!
# Query Decoding

The three ways a derived struct reads a query string: the parser that the derive generates
(`oas-rs-macros`), and `parse_query` and `parse_query_guided` of `src/codec.rs`. `FromStr` and
serde are parameters.

## Main results

- `QueryStruct.parse`: the generated `OpenApiQuery::parse`
- `isBadRequest_parse`: a query that is refused is refused with `400`
-/

namespace OasRs

open Lib Schema

variable {ι V T F : Type}

/-! ## Pairs -/

/-- `b'&'` -/
def ampersand : UInt8 := 0x26

/-- `b'='` -/
def equalsSign : UInt8 := 0x3D

/-- `query.split('&').filter(|pair| !pair.is_empty())`, where each pair is split at its first
    `=`. -/
def queryPairs (query : Text) : List (Text × Text) :=
  ((query.splitOn ampersand).filter fun pair => !pair.isEmpty).map fun pair =>
    (splitOnce [equalsSign] pair).getD (pair, [])

example : queryPairs (str "a=1&&b&c=x=y") =
    [(str "a", str "1"), (str "b", []), (str "c", str "x=y")] := by decide +kernel

/-- `percent_decode`, with its error -/
def decodePart (value : Text) : Except ApiError Text :=
  match percentDecode value with
  | .ok text => .ok text
  | .error error => .error error.toApiError

/-- `decode_query_component` -/
def decodeQueryComponent (value : Text) : Except ApiError Text :=
  if value.contains percent then decodePart value else .ok value

/-! ## The generated parser -/

/-- A field of the generated parser. -/
structure DirectField (V : Type) where
  wire : String
  optional : Bool
  /-- `parse_query_value` -/
  parse : Text → Except ApiError V

/-- The arms of the `match` on a name: the variable of the first field with this name is set. -/
def assign (name value : Text) :
    List (DirectField V) → List (Option V) → Except ApiError (List (Option V))
  | field :: fields, current :: others =>
    if str field.wire = name then do return some (← field.parse value) :: others
    else do return current :: (← assign name value fields others)
  | _, values => .ok values

/-- What the generated loop does with a pair. -/
def directPair (fields : List (DirectField V)) (values : List (Option V)) (pair : Text × Text) :
    Except ApiError (List (Option V)) :=
  -- the arms are tried on the key as it is sent first
  if fields.any fun field => str field.wire == pair.1 then do
    let value ← decodeQueryComponent pair.2
    assign pair.1 value fields values
  else do
    let key ← decodeQueryComponent pair.1
    let value ← decodeQueryComponent pair.2
    assign key value fields values

/-- What a field makes of its variable. -/
def DirectField.finish (field : DirectField V) (value : Option V) : Except ApiError (Option V) :=
  if value.isNone && !field.optional then
    .error (.badRequest ("missing query parameter " ++ field.wire))
  else .ok value

/-- The generated `parse`, up to the construction of `Self` -/
def parseDirect (fields : List (DirectField V)) (query : Text) : Except ApiError (List (Option V)) := do
  let values ← (queryPairs query).foldlM (directPair fields) (fields.map fun _ => none)
  (fields.zip values).mapM fun entry => entry.1.finish entry.2

/-! ## Typed values -/

/-- A value of the object that is given to `serde_json::from_value`, with finite floats `F`. -/
inductive QueryValue (F : Type) where
  | bool (value : Bool)
  | int (value : ℤ)
  | float (value : F)
  | text (value : Text)
  | arr (items : List (QueryValue F))

/-- `from_str` of an integer type -/
def Schema.IntKind.parse (kind : IntKind) (text : Text) : Option ℤ :=
  if kind.min < 0 then parseSigned kind.min kind.max.toNat text
  else (parseUnsigned kind.max.toNat text).map Int.ofNat

/-- An `i64`, or else a `u64`. -/
def parseNumber (text : Text) : Option ℤ := (IntKind.i64.parse text).or (IntKind.u64.parse text)

mutual

/-- `declared_type` -/
def declaredType : Json → Option String
  | .obj entries =>
    match Entries.get "type" entries with
    | some (.str kind) => some kind
    | _ => (declaredUnder "oneOf" entries).or (declaredUnder "anyOf" entries)
  | _ => none

/-- The first type that is not `null` in the array under a key. -/
def declaredUnder (key : String) : List (String × Json) → Option String
  | [] => none
  | (k, .arr parts) :: entries => if k = key then declaredParts parts else declaredUnder key entries
  | (k, _) :: entries => if k = key then none else declaredUnder key entries

def declaredParts : List Json → Option String
  | [] => none
  | part :: parts => ((declaredType part).filter (· ≠ "null")).or (declaredParts parts)

end

mutual

/-- `array_items` -/
def arrayItems : Json → Option Json
  | .obj entries =>
    if Entries.get "type" entries = some (.str "array") then
      some ((Entries.get "items" entries).getD .null)
    else (itemsUnder "oneOf" entries).or (itemsUnder "anyOf" entries)
  | _ => none

/-- The items of the first array type in the array under a key. -/
def itemsUnder (key : String) : List (String × Json) → Option Json
  | [] => none
  | (k, .arr parts) :: entries => if k = key then itemsParts parts else itemsUnder key entries
  | (k, _) :: entries => if k = key then none else itemsUnder key entries

def itemsParts : List Json → Option Json
  | [] => none
  | part :: parts => (arrayItems part).or (itemsParts parts)

end

/-- The schema of the first parameter with a name. -/
def schemaOfParameter (parameters : List Parameter) (name : Text) : Option Json :=
  (parameters.find? fun parameter => parameter.name == name).map Parameter.schema

section Typed

-- `text.parse::<f64>()`, if it is finite
variable (finite : Text → Option F)

/-- `scalar` -/
def scalarValue (kind : Option String) (text : Text) : QueryValue F :=
  if kind = some "boolean" ∧ text = str "true" then .bool true
  else if kind = some "boolean" ∧ text = str "false" then .bool false
  else if kind = some "integer" then (parseNumber text).elim (.text text) .int
  else if kind = some "number" then (finite text).elim (.text text) .float
  else .text text

/-- The value of a parameter that is no array. The kind `any` is that of every parameter if
    none are declared. -/
def typedValue (kind : Option String) (text : Text) : QueryValue F :=
  let isKind (name : String) : Bool := kind = some name || kind = some "any"
  if isKind "boolean" ∧ text = str "true" then .bool true
  else if isKind "boolean" ∧ text = str "false" then .bool false
  else if isKind "integer" ∧ (parseNumber text).isSome then (parseNumber text).elim (.text text) .int
  else if isKind "number" then
    match finite text with
    | some float => (parseNumber text).elim (.float float) .int
    | none => .text text
  else .text text

/-- What `parse_query_typed` does with a pair. -/
def typedPair (parameters : List Parameter) (object : Table Text (QueryValue F))
    (pair : Text × Text) : Except ApiError (Table Text (QueryValue F)) := do
  let key ← decodePart pair.1
  let value ← decodePart pair.2
  match (schemaOfParameter parameters key).bind arrayItems with
  | some items =>
    let item := scalarValue finite (declaredType items) value
    return object.insert key
      (match object.lookup key with
      | some (.arr values) => .arr (values ++ [item])
      | _ => .arr [item])
  | none =>
    let kind :=
      if parameters.isEmpty then some "any"
      else (schemaOfParameter parameters key).bind declaredType
    return object.insert key (typedValue finite kind value)

/-- `parse_query_typed` -/
def parseQueryTyped (fromValue : Table Text (QueryValue F) → Except String T)
    (parameters : List Parameter) (query : Text) : Except ApiError T := do
  let object ← (queryPairs query).foldlM (typedPair finite parameters) ∅
  match fromValue object with
  | .ok value => return value
  | .error error => .error (.badRequest error)

/-! ## `parse_query` and `parse_query_guided` -/

/-- The loop that refuses bad encodings. -/
def checkEncoding (query : Text) : Except ApiError Unit :=
  (queryPairs query).forM fun pair => do
    let _ ← decodePart pair.1
    let _ ← decodePart pair.2
    return

/-- `replace('+', escape)` -/
def replacePlus (escape text : Text) : Text :=
  text.flatMap fun byte => if byte = plus then escape else [byte]

/-- What serde makes of a type. -/
structure Serde (T F : Type) where
  /-- `serde_urlencoded::from_str` -/
  urlencoded : Text → Except String T
  /-- `serde_json::from_value` of an object -/
  fromValue : Table Text (QueryValue F) → Except String T

/-- `parse_query` -/
def parseQuery (serde : Serde T F) (parameters : List Parameter) (query : Text) :
    Except ApiError T := do
  checkEncoding query
  match serde.urlencoded (replacePlus (str "%2B") query) with
  | .ok value => return value
  | .error error =>
    match parseQueryTyped finite serde.fromValue parameters query with
    | .ok value => return value
    | .error _ => .error (.badRequest error)

/-- `parse_query_guided` -/
def parseQueryGuided (serde : Serde T F) (parameters : List Parameter) (query : Text) :
    Except ApiError T := do
  checkEncoding query
  parseQueryTyped finite serde.fromValue parameters query

end Typed

/-! ## The generated impl -/

/-- What decoding uses of other crates and of the types: `V` are values of fields, `T` those of
    whole types. -/
structure Decoders (ι V T F : Type) where
  /-- `FromStr::from_str` -/
  fromStr : RustType ι → Text → Except String V
  finite : Text → Option F
  serde : QueryStruct ι → Serde T F
  /-- the struct with these fields -/
  record : StructInput ι → List (Option V) → T
  /-- `serde_json::from_slice` -/
  fromSlice : RustType ι → Bytes → Except String T

/-- `parse_query_value` -/
def Decoders.parseQueryValue (decoders : Decoders ι V T F) (type : RustType ι) (text : Text) :
    Except ApiError V :=
  match decoders.fromStr type text with
  | .ok value => .ok value
  | .error error => .error (.badRequest error)

/-- `supports_query_value` -/
def supportsQueryValue : RustType ι → Bool
  | .scalar .string | .scalar .bool | .scalar .f32 | .scalar .f64 | .scalar .uuid => true
  | .scalar (.int kind) => kind ∈ [.u32, .u64, .i32, .i64]
  | _ => false

/-- Whether a field leaves the direct parser possible. -/
def Schema.StructField.isDirect (containerDefault : Bool) (field : StructField ι) : Bool :=
  !(field.skipped || field.flatten || field.skipDeserializing) &&
    !(field.default || containerDefault || field.customDecode) &&
    supportsQueryValue field.type.optionInner.1

/-- `direct_query_parser` -/
def Schema.StructInput.isDirect (input : StructInput ι) : Bool :=
  !input.denyUnknownFields && input.fields.all (Schema.StructField.isDirect input.default)

/-- `has_flatten` -/
def Schema.StructInput.hasFlatten (input : StructInput ι) : Bool :=
  input.fields.any fun field => field.flatten && !field.skipped

/-- The fields of the direct parser. -/
def Schema.StructInput.directFields (input : StructInput ι) (decoders : Decoders ι V T F) :
    List (DirectField V) :=
  input.fields.map fun field =>
    { wire := field.wire
      optional := field.type.optionInner.2
      parse := decoders.parseQueryValue field.type.optionInner.1 }

/-- `OpenApiQuery::parse`: generated, or the default of the trait. -/
def QueryStruct.parse [DecidableEq ι] (named : Named ι) (decoders : Decoders ι V T F)
    (query : QueryStruct ι) (text : Text) : Except ApiError T :=
  let parameters := (query.parameters named).getD []
  match query with
  | .transparent _ => parseQuery decoders.finite (decoders.serde query) parameters text
  | .struct input =>
    if input.isDirect then (parseDirect (input.directFields decoders) text).map (decoders.record input)
    else if input.hasFlatten then
      parseQueryGuided decoders.finite (decoders.serde query) parameters text
    else parseQuery decoders.finite (decoders.serde query) parameters text

/-! ## How a query is refused -/

/-- A `400` that does not stand for something missing. -/
structure ApiError.IsBadRequest (error : ApiError) : Prop where
  status : error.status = 400
  missing : error.missing = false

theorem isBadRequest_badRequest (detail : String) : (ApiError.badRequest detail).IsBadRequest where
  status := rfl
  missing := rfl

theorem isBadRequest_decodePart (value : Text) :
    FailsWith (decodePart value) ApiError.IsBadRequest := by
  rw [decodePart]
  split
  · exact .ok _
  · exact .error (isBadRequest_badRequest _)

theorem isBadRequest_decodeQueryComponent (value : Text) :
    FailsWith (decodeQueryComponent value) ApiError.IsBadRequest := by
  rw [decodeQueryComponent]
  split
  · exact isBadRequest_decodePart value
  · exact .ok value

theorem isBadRequest_assign {fields : List (DirectField V)}
    (hfields : ∀ field ∈ fields, ∀ text, FailsWith (field.parse text) ApiError.IsBadRequest)
    (name value : Text) (values : List (Option V)) :
    FailsWith (assign name value fields values) ApiError.IsBadRequest := by
  induction fields generalizing values with
  | nil => exact .ok values
  | cons field fields ih =>
    cases values with
    | nil => exact .ok []
    | cons current others =>
      rw [assign]
      split
      · exact (hfields field List.mem_cons_self value).bind fun _ _ => .pure _
      · refine (ih (fun other hother => ?_) others).bind fun _ _ => .pure _
        exact hfields other (List.mem_cons_of_mem _ hother)

theorem isBadRequest_parseDirect {fields : List (DirectField V)}
    (hfields : ∀ field ∈ fields, ∀ text, FailsWith (field.parse text) ApiError.IsBadRequest)
    (query : Text) : FailsWith (parseDirect fields query) ApiError.IsBadRequest := by
  rw [parseDirect]
  have hpair : ∀ (values : List (Option V)) (pair : Text × Text),
      FailsWith (directPair fields values pair) ApiError.IsBadRequest := by
    intro values pair
    rw [directPair]
    split
    · refine (isBadRequest_decodeQueryComponent _).bind fun value _ => ?_
      exact isBadRequest_assign hfields _ _ _
    · refine (isBadRequest_decodeQueryComponent _).bind fun key _ => ?_
      refine (isBadRequest_decodeQueryComponent _).bind fun value _ => ?_
      exact isBadRequest_assign hfields _ _ _
  refine (FailsWith.foldlM hpair _ _).bind fun values _ => .mapM fun entry _ => ?_
  rw [DirectField.finish]
  split
  · exact .error (isBadRequest_badRequest _)
  · exact .ok _

section Typed

variable {finite : Text → Option F}

theorem isBadRequest_parseQueryTyped
    (fromValue : Table Text (QueryValue F) → Except String T) (parameters : List Parameter)
    (query : Text) :
    FailsWith (parseQueryTyped finite fromValue parameters query) ApiError.IsBadRequest := by
  rw [parseQueryTyped]
  refine (FailsWith.foldlM (fun object pair => ?_) _ _).bind fun object _ => ?_
  · rw [typedPair]
    refine (isBadRequest_decodePart _).bind fun key _ => ?_
    refine (isBadRequest_decodePart _).bind fun value _ => ?_
    split
    · exact .pure _
    · exact .pure _
  · split
    · exact .pure _
    · exact .error (isBadRequest_badRequest _)

theorem isBadRequest_checkEncoding (query : Text) :
    FailsWith (checkEncoding query) ApiError.IsBadRequest := by
  refine FailsWith.forM fun pair _ => ?_
  refine (isBadRequest_decodePart _).bind fun _ _ => ?_
  exact (isBadRequest_decodePart _).bind fun _ _ => .pure _

theorem isBadRequest_parseQuery (serde : Serde T F) (parameters : List Parameter) (query : Text) :
    FailsWith (parseQuery finite serde parameters query) ApiError.IsBadRequest := by
  refine (isBadRequest_checkEncoding query).bind fun _ _ => ?_
  split
  · exact .pure _
  · split
    · exact .pure _
    · exact .error (isBadRequest_badRequest _)

theorem isBadRequest_parseQueryGuided (serde : Serde T F) (parameters : List Parameter)
    (query : Text) :
    FailsWith (parseQueryGuided finite serde parameters query) ApiError.IsBadRequest :=
  (isBadRequest_checkEncoding query).bind fun _ _ => isBadRequest_parseQueryTyped _ _ _

end Typed

theorem isBadRequest_parseQueryValue (decoders : Decoders ι V T F) (type : RustType ι)
    (text : Text) : FailsWith (decoders.parseQueryValue type text) ApiError.IsBadRequest := by
  rw [Decoders.parseQueryValue]
  split
  · exact .ok _
  · exact .error (isBadRequest_badRequest _)

section Parse

variable [DecidableEq ι] {named : Named ι} {decoders : Decoders ι V T F} {query : QueryStruct ι}

/-- **A query that is refused is refused with `400`.** -/
theorem isBadRequest_parse (text : Text) :
    FailsWith (query.parse named decoders text) ApiError.IsBadRequest := by
  cases query with
  | transparent type => exact isBadRequest_parseQuery _ _ _
  | struct input =>
    simp only [QueryStruct.parse]
    split
    · refine (isBadRequest_parseDirect (fun field hfield text => ?_) text).map _
      obtain ⟨field, -, rfl⟩ := List.mem_map.mp hfield
      exact isBadRequest_parseQueryValue decoders _ text
    · split
      · exact isBadRequest_parseQueryGuided _ _ _
      · exact isBadRequest_parseQuery _ _ _

end Parse

end OasRs
