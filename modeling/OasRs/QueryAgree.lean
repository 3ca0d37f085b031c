import OasRs.QueryReadings

/-!
# The Query Decoders Compared

When the generated parser, `parse_query` and `parse_query_guided` agree about a struct of scalar
fields. They do unless a value that is not the last of its field is wrong, or a last value is
right only for `serde_json`: the generated parser refuses both.

## Main results

- `decoders_agree_iff`: the queries about which the three decoders agree
- `sentAlike_iff`: which these are, if no name of a field is sent with an escape
-/

namespace OasRs

open Lib Schema

variable {F : Type}

/-! ## The three decoders -/

/-- A struct that reaches the same fields through `#[serde(flatten)]`. -/
def flattenedInput : StructInput Unit :=
  { fields := [{ wire := "inner", type := .named (), flatten := true }] }

/-- The types of the program: the struct with these fields. -/
def innerNamed (fields : List QueryField) (fuel : ℕ) : Named Unit :=
  derived (fun _ => .struct "Inner" (inputOf fields)) (fuel + 1)

section Decoders

variable (fields : List QueryField) (decoders : Decoders Unit ScalarValue (List (Option ScalarValue)) F)
  (query : String)

/-- The generated parser. -/
def decodeDirect (fuel : ℕ) : Except ApiError (List (Option ScalarValue)) :=
  (QueryStruct.struct (inputOf fields)).parse (innerNamed fields fuel) decoders (str query)

/-- `parse_query` on the same fields. -/
def decodeSerde (fuel : ℕ) : Except ApiError (List (Option ScalarValue)) :=
  parseQuery decoders.finite (decoders.serde (.struct (inputOf fields)))
    (((QueryStruct.struct (inputOf fields)).parameters (innerNamed fields fuel)).getD []) (str query)

/-- `parse_query_guided`, through the flattened field. -/
def decodeFlattened (fuel : ℕ) : Except ApiError (List (Option ScalarValue)) :=
  (QueryStruct.struct flattenedInput).parse (innerNamed fields fuel) decoders (str query)

/-- What decoding relies on: `FromStr`, and what serde does with the two structs. -/
structure DecodesFields : Prop where
  fromStr : ∀ (type : QueryType) (text : Text),
    (decoders.fromStr (.scalar type.scalar) text).toOption = type.fromStr text
  record : ∀ input values, decoders.record input values = values
  forms : ReadsForms fields (decoders.serde (.struct (inputOf fields)))
  objects : ReadsObjects fields (decoders.serde (.struct (inputOf fields)))
  flattened : ReadsObjects fields (decoders.serde (.struct flattenedInput))

end Decoders

/-- All three succeed with the same values, or all three fail with `400`. -/
inductive Agree {T : Type} (direct serde flattened : Except ApiError T) : Prop where
  | succeed (values : T) (hdirect : direct = .ok values) (hserde : serde = .ok values)
      (hflattened : flattened = .ok values)
  | fail (error error' error'' : ApiError) (hdirect : direct = .error error)
      (hserde : serde = .error error') (hflattened : flattened = .error error'')
      (status : error.status = 400 ∧ error'.status = 400 ∧ error''.status = 400)

theorem agree_iff {T : Type} {direct serde flattened : Except ApiError T}
    (hdirect : FailsWith direct ApiError.IsBadRequest)
    (hserde : FailsWith serde ApiError.IsBadRequest)
    (hflattened : FailsWith flattened ApiError.IsBadRequest) :
    Agree direct serde flattened ↔
      direct.toOption = serde.toOption ∧ serde.toOption = flattened.toOption := by
  constructor
  · rintro (⟨values, rfl, rfl, rfl⟩ | ⟨error, error', error'', rfl, rfl, rfl, -⟩)
    · exact ⟨rfl, rfl⟩
    · exact ⟨rfl, rfl⟩
  · rintro ⟨h, h'⟩
    cases direct with
    | ok values =>
      cases serde with
      | error error => cases h
      | ok values' =>
        cases flattened with
        | error error => cases h'
        | ok values'' =>
          cases h
          cases h'
          exact .succeed values rfl rfl rfl
    | error error =>
      cases serde with
      | ok values => cases h
      | error error' =>
        cases flattened with
        | ok values => cases h'
        | error error'' =>
          apply Agree.fail error error' error'' rfl rfl rfl
          exact ⟨(hdirect _ rfl).status, (hserde _ rfl).status, (hflattened _ rfl).status⟩

/-! ## Parameters -/

/-- The schema of a field. -/
def QueryField.property (field : QueryField) : Json :=
  if field.optional then optionSchema field.type.scalar.schema else field.type.scalar.schema

theorem declaredType_scalar (type : QueryType) : declaredType type.scalar.schema = some type.kind := by
  cases type with
  | string => rfl
  | bool => rfl
  | int kind wide => cases kind <;> rfl

theorem arrayItems_scalar (type : QueryType) : arrayItems type.scalar.schema = none := by
  cases type with
  | string => rfl
  | bool => rfl
  | int kind wide => cases kind <;> rfl

theorem declaredType_property (field : QueryField) :
    declaredType field.property = some field.type.kind := by
  rw [QueryField.property]
  split
  · cases field.type with
    | string => rfl
    | bool => rfl
    | int kind wide => cases kind <;> rfl
  · exact declaredType_scalar field.type

theorem arrayItems_property (field : QueryField) : arrayItems field.property = none := by
  rw [QueryField.property]
  split
  · cases field.type with
    | string => rfl
    | bool => rfl
    | int kind wide => cases kind <;> rfl
  · exact arrayItems_scalar field.type

/-- The first parameter with a name stays. -/
theorem find_dedupFrom (name : Text) (parameters : List Parameter) (seen : List Text) :
    (dedupFrom seen parameters).find? (fun parameter => parameter.name == name) =
      if name ∈ seen then none else parameters.find? fun parameter => parameter.name == name := by
  induction parameters generalizing seen with
  | nil =>
    split
    · rfl
    · rfl
  | cons parameter parameters ih =>
    rw [dedupFrom]
    by_cases hname : parameter.name = name
    · split
      · rw [ih, if_pos (hname ▸ ‹_›), if_pos (hname ▸ ‹_›)]
      · rw [List.find?_cons_of_pos (by simpa using hname), if_neg (hname ▸ ‹_›),
          List.find?_cons_of_pos (by simpa using hname)]
    · have hskip : (parameter :: parameters).find? (fun parameter => parameter.name == name) =
          parameters.find? fun parameter => parameter.name == name :=
        List.find?_cons_of_neg (by simpa using hname)
      rw [hskip]
      split
      · exact ih seen
      · rw [List.find?_cons_of_neg (by simpa using hname), ih]
        simp only [List.mem_cons, Ne.symm hname, false_or]

theorem schemaOfParameter_dedup (parameters : List Parameter) (name : Text) :
    schemaOfParameter (dedupParameters parameters) name = schemaOfParameter parameters name := by
  rw [schemaOfParameter, dedupParameters, find_dedupFrom, if_neg List.not_mem_nil]
  rfl

theorem kindOf_of_schema {parameters : List Parameter} {name : Text} {schema : Json}
    (h : schemaOfParameter parameters name = some schema) :
    kindOf parameters name = declaredType schema := by
  have hne : parameters.isEmpty = false := by
    cases parameters with
    | nil => cases h
    | cons parameter parameters => rfl
  rw [kindOf, hne, h]
  rfl

/-! ### Of the struct itself -/

/-- The parameter of a field. -/
def QueryField.parameter (field : QueryField) : Parameter :=
  .query (str field.wire) (!field.optional) field.type.scalar.schema

theorem parameters_inputOf (named : Named Unit) (fields : List QueryField) :
    (QueryStruct.struct (inputOf fields)).parameters named =
      some (dedupParameters (fields.map QueryField.parameter)) := by
  have hfield : ∀ field : QueryField,
      QueryStruct.fieldParameters named false field.structField = some [field.parameter] := by
    intro field
    cases hoptional : field.optional with
    | false =>
      simp [QueryStruct.fieldParameters, QueryStruct.flattenedParameters,
        QueryStruct.ownParameters, QueryField.structField, QueryField.rustType,
        QueryField.parameter, hoptional, StructField.skipped, RustType.optionInner, RustType.schema]
    | true =>
      simp [QueryStruct.fieldParameters, QueryStruct.flattenedParameters,
        QueryStruct.ownParameters, QueryField.structField, QueryField.rustType,
        QueryField.parameter, hoptional, StructField.skipped, RustType.optionInner, RustType.schema]
  have hfields : (inputOf fields).fields.mapM (QueryStruct.fieldParameters named false) =
      some (fields.map fun field => [field.parameter]) := by
    rw [inputOf, List.mapM_map]
    exact (mapM_congr fun field _ => hfield field).trans List.mapM_pure
  show ((inputOf fields).fields.mapM (QueryStruct.fieldParameters named false)).map _ = _
  rw [hfields, Option.map_some, ← List.flatMap_def, ← List.map_eq_flatMap]

theorem schemaOfParameter_parameters (fields : List QueryField) (name : Text) :
    schemaOfParameter (fields.map QueryField.parameter) name =
      (fieldOf fields name).map fun field => field.type.scalar.schema := by
  rw [schemaOfParameter, List.find?_map, fieldOf, Option.map_map]
  rfl

/-! ### Through the flattened field -/

/-- The properties of the struct: the last field of a name stays. -/
def propertiesOf (fields : List QueryField) : Entries :=
  fields.foldl (fun entries field => Entries.insert field.wire field.property entries) []

theorem get_propertiesOf (fields : List QueryField) (wire : String) :
    Entries.get wire (propertiesOf fields) =
      (fieldOf fields.reverse (str wire)).map QueryField.property := by
  induction fields using List.reverseRecOn with
  | nil => rfl
  | append_singleton fields field ih =>
    rw [propertiesOf, List.foldl_append, List.reverse_append]
    show Entries.get wire (Entries.insert field.wire field.property (propertiesOf fields)) =
      (fieldOf (field :: fields.reverse) (str wire)).map _
    rw [Entries.get_insert]
    split
    · rw [← ‹field.wire = wire›, fieldOf_cons_self]
      rfl
    · rw [ih, fieldOf_cons_of_ne fun h => ‹¬ field.wire = wire› (str_injective h)]

theorem schemaOfParameter_query (required : String → Bool) (entries : Entries) (wire : String) :
    schemaOfParameter (entries.map fun entry => .query (str entry.1) (required entry.1) entry.2)
        (str wire) = Entries.get wire entries := by
  induction entries with
  | nil => rfl
  | cons entry entries ih =>
    obtain ⟨key, value⟩ := entry
    rw [List.map_cons, schemaOfParameter, Entries.get]
    by_cases hkey : key = wire
    · rw [List.find?_cons_of_pos (by simp [Parameter.query, hkey]), if_pos hkey]
      rfl
    · have hne : str key ≠ str wire := fun h => hkey (str_injective h)
      rw [List.find?_cons_of_neg (by simpa [Parameter.query] using hne), if_neg hkey, ← ih]
      rfl

/-- The statement of a field. -/
theorem statement_structField (named : Named Unit) (field : QueryField) (parts : ObjectParts) :
    StructField.statement named false false parts field.structField = pure { parts with
      properties := Entries.insert field.wire field.property parts.properties
      required := if field.optional then parts.required else parts.required ++ [field.wire] } := by
  obtain ⟨wire, type, optional⟩ := field
  cases optional with
  | false =>
    cases type with
    | string => rfl
    | bool => rfl
    | int kind wide => rfl
  | true =>
    cases type with
    | string => rfl
    | bool => rfl
    | int kind wide => rfl

/-- What the statements of the fields collect. -/
theorem foldlM_statement (named : Named Unit) (fields : List QueryField) (parts : ObjectParts) :
    ∃ required, (fields.map QueryField.structField).foldlM (fun parts field =>
        StructField.statement named false false parts field) parts =
      (pure { parts with
        properties := fields.foldl (fun entries field =>
          Entries.insert field.wire field.property entries) parts.properties
        required := required } : Gen Unit ObjectParts) := by
  induction fields generalizing parts with
  | nil => exact ⟨parts.required, rfl⟩
  | cons field fields ih =>
    rw [List.map_cons, List.foldlM_cons, statement_structField, pure_bind]
    obtain ⟨required, hrest⟩ := ih { parts with
      properties := Entries.insert field.wire field.property parts.properties
      required := if field.optional then parts.required else parts.required ++ [field.wire] }
    exact ⟨required, hrest⟩

theorem body_inputOf (named : Named Unit) (fields : List QueryField) :
    ∃ required, (inputOf fields).body named false =
      pure (ObjectParts.finish ⟨propertiesOf fields, required, [], []⟩ none false) := by
  obtain ⟨required, hfields⟩ := foldlM_statement named fields ⟨[], [], [], []⟩
  refine ⟨required, ?_⟩
  have hflatten : ((inputOf fields).denyUnknownFields &&
      !(inputOf fields).fields.any fun field => !field.skipped && field.flatten) = false := rfl
  show ((fields.map QueryField.structField).foldlM (fun parts field =>
      StructField.statement named false false parts field) ⟨[], [], [], []⟩ >>= fun parts =>
    pure (parts.finish none _)) = _
  rw [hfields, pure_bind, hflatten]
  rfl

/-- The schema of the struct, as far as its parameters go. -/
theorem schema_inner (fields : List QueryField) (fuel : ℕ) :
    ∃ required, (RustType.named ()).schema (innerNamed fields fuel) =
      some (ObjectParts.finish ⟨propertiesOf fields, required, [], []⟩ none false) := by
  obtain ⟨required, hbody⟩ := body_inputOf (derived (fun _ => .struct "Inner" (inputOf fields)) fuel)
    fields
  refine ⟨required, ?_⟩
  show (SchemaRegistry.define () "Inner" ((inputOf fields).body
    (derived (fun _ => .struct "Inner" (inputOf fields)) fuel) false) .inlined).map Prod.fst = _
  rw [hbody]
  rfl

/-- The parameters of the struct through the flattened field. -/
theorem parameters_flattenedInput (fields : List QueryField) (fuel : ℕ) :
    ∃ required : String → Bool,
      (QueryStruct.struct flattenedInput).parameters (innerNamed fields fuel) =
        some (dedupParameters ((propertiesOf fields).map fun entry =>
          .query (str entry.1) (required entry.1) entry.2)) := by
  obtain ⟨names, hschema⟩ := schema_inner fields fuel
  have hparts : ∃ required : String → Bool, queryParametersFromSchema false
      (ObjectParts.finish ⟨propertiesOf fields, names, [], []⟩ none false) =
      (propertiesOf fields).map fun entry => .query (str entry.1) (required entry.1) entry.2 := by
    cases names with
    | nil =>
      refine ⟨fun _ => false, ?_⟩
      show propertyParameters false _ ++ [] ++ [] = _
      rw [List.append_nil, List.append_nil]
      rfl
    | cons name names =>
      refine ⟨fun wire => (stringsOf (some (.arr ((name :: names).map .str)))).contains wire, ?_⟩
      show propertyParameters false _ ++ [] ++ [] = _
      rw [List.append_nil, List.append_nil]
      rfl
  obtain ⟨required, hparts⟩ := hparts
  refine ⟨required, ?_⟩
  have hfield : QueryStruct.fieldParameters (innerNamed fields fuel) false
      { wire := "inner", type := .named (), flatten := true } =
      some ((propertiesOf fields).map fun entry =>
        .query (str entry.1) (required entry.1) entry.2) := by
    show (((RustType.named ()).schema (innerNamed fields fuel)).map
      (queryParametersFromSchema false)).bind (fun flattened => some (flattened ++ [])) = _
    rw [hschema, Option.map_some, hparts, Option.bind_some, List.append_nil]
  show (([_] : List (StructField Unit)).mapM (QueryStruct.fieldParameters (innerNamed fields fuel)
    false)).map _ = _
  rw [List.mapM_cons, hfield]
  show some (dedupParameters (_ ++ [])) = _
  rw [List.append_nil]

theorem mem_entriesInsert {key : String} {value : Json} {entries : Entries} {entry : String × Json}
    (h : entry ∈ Entries.insert key value entries) : entry = (key, value) ∨ entry ∈ entries := by
  induction entries with
  | nil => exact .inl (List.mem_singleton.mp h)
  | cons first entries ih =>
    rw [Entries.insert] at h
    split at h
    · rcases List.mem_cons.mp h with rfl | h
      · exact .inl rfl
      · exact .inr (List.mem_cons_of_mem _ h)
    · split at h
      · exact (List.mem_cons.mp h).imp_right id
      · rcases List.mem_cons.mp h with rfl | h
        · exact .inr List.mem_cons_self
        · exact (ih h).imp_right (List.mem_cons_of_mem _)

/-- The properties are those of fields. -/
theorem exists_of_mem_propertiesOf {fields : List QueryField} {entry : String × Json}
    (h : entry ∈ propertiesOf fields) : ∃ field : QueryField, entry.2 = field.property := by
  induction fields using List.reverseRecOn with
  | nil => cases h
  | append_singleton fields field ih =>
    rw [propertiesOf, List.foldl_append] at h
    rcases mem_entriesInsert h with rfl | h
    · exact ⟨field, rfl⟩
    · exact ih h

/-! ## Each decoder gives its reading -/

section Readings

variable {fields : List QueryField}
  {decoders : Decoders Unit ScalarValue (List (Option ScalarValue)) F}
  (h : DecodesFields fields decoders) (query : String) (fuel : ℕ)

theorem isDirect_inputOf (fields : List QueryField) : (inputOf fields).isDirect = true := by
  have hfield : ∀ field : QueryField, field.structField.isDirect false = true := by
    intro field
    obtain ⟨wire, type, optional⟩ := field
    have htype : supportsQueryValue (.scalar type.scalar : RustType Unit) = true := by
      cases type with
      | string => rfl
      | bool => rfl
      | int kind wide => simpa [supportsQueryValue, QueryType.scalar] using wide
    cases optional with
    | false => exact htype
    | true => exact htype
  show (fields.map QueryField.structField).all (StructField.isDirect false) = true
  rw [List.all_map, List.all_eq_true]
  exact fun field _ => hfield field

include h

theorem toOption_decodeDirect :
    (decodeDirect fields decoders query fuel).toOption = directReads fields (str query) := by
  rw [decodeDirect, QueryStruct.parse]
  simp only [isDirect_inputOf, if_true]
  rw [directFields_inputOf, toOption_map, toOption_parseDirect h.fromStr]
  have hrecord : decoders.record (inputOf fields) = id := funext (h.record _)
  rw [hrecord, Option.map_id]
  rfl

theorem toOption_decodeSerde :
    (decodeSerde fields decoders query fuel).toOption =
      typedReads (fieldOf fields) fields (str query) := by
  rw [decodeSerde, parameters_inputOf]
  apply toOption_parseQuery h.forms h.objects
  · intro name
    rw [Option.getD_some, schemaOfParameter_dedup, schemaOfParameter_parameters, Option.bind_map]
    cases fieldOf fields name with
    | none => rfl
    | some field => exact arrayItems_scalar field.type
  · intro field hfield
    rw [Option.getD_some]
    apply (kindOf_of_schema _).trans (declaredType_scalar field.type)
    rw [schemaOfParameter_dedup, schemaOfParameter_parameters, hfield]
    rfl

theorem toOption_decodeFlattened :
    (decodeFlattened fields decoders query fuel).toOption =
      typedReads (fieldOf fields.reverse) fields (str query) := by
  obtain ⟨required, hparameters⟩ := parameters_flattenedInput fields fuel
  show (parseQueryGuided decoders.finite (decoders.serde (.struct flattenedInput))
    (((QueryStruct.struct flattenedInput).parameters (innerNamed fields fuel)).getD [])
    (str query)).toOption = _
  rw [hparameters, Option.getD_some]
  apply toOption_parseQueryGuided h.flattened
  · intro name
    rw [schemaOfParameter_dedup]
    cases hfound : schemaOfParameter _ name with
    | none => rfl
    | some schema =>
      -- every parameter is a property of the inner struct
      obtain ⟨parameter, hparameter, rfl⟩ := Option.map_eq_some_iff.mp hfound
      obtain ⟨entry, hentry, rfl⟩ := List.mem_map.mp (List.mem_of_find?_eq_some hparameter)
      obtain ⟨field, hfield⟩ := exists_of_mem_propertiesOf hentry
      show arrayItems entry.2 = none
      rw [hfield]
      exact arrayItems_property field
  · intro field hfield
    -- the last field of a name gives its property
    have hmem : field ∈ fields.reverse := List.mem_reverse.mpr (List.mem_of_find?_eq_some hfield)
    have hsome : (fieldOf fields.reverse (str field.wire)).isSome := by
      rw [fieldOf, List.find?_isSome]
      exact ⟨field, hmem, by simp⟩
    obtain ⟨other, hother⟩ := Option.isSome_iff_exists.mp hsome
    refine ⟨other, hother, ?_⟩
    apply (kindOf_of_schema _).trans (declaredType_property other)
    rw [schemaOfParameter_dedup, schemaOfParameter_query, get_propertiesOf, hother]
    rfl

end Readings

/-! ## What is sent -/

section Sent

variable (fields : List QueryField)

/-- Every required field is sent. One that comes after a field of the same name never is. -/
def RequiredSent (sent : List (Text × Text)) : Prop :=
  fields.Pairwise (fun field other => field.wire = other.wire → other.optional = true) ∧
    ∀ field ∈ fields, field.optional = false → str field.wire ∈ sent.map Prod.fst

/-- Every value that is sent for a field can be parsed, also one that is not the last. -/
def EveryParses (sent : List (Text × Text)) : Prop :=
  ∀ pair ∈ sent, ∀ field, fieldOf fields pair.1 = some field →
    (field.type.fromStr pair.2).isSome

/-- The value that is sent last for a field can be read, converted for the type that is declared
    for its name. -/
def LastReads (declared : Text → Option QueryField) (sent : List (Text × Text)) : Prop :=
  ∀ field, fieldOf fields (str field.wire) = some field →
    ∀ text, lastOf sent (str field.wire) = some text →
      ∃ other, declared (str field.wire) = some other ∧ (other.type.readAs field.type text).isSome

/-- By keys as they are sent and by decoded names, the value that is sent last for a field is the
    same value of its type. -/
def LastAlike (keyed sent : List (Text × Text)) : Prop :=
  ∀ field, fieldOf fields (str field.wire) = some field →
    (lastOf keyed (str field.wire)).bind field.type.fromStr =
      (lastOf sent (str field.wire)).bind (field.type.readAs field.type)

/-- The pairs of a query mean the same in two ways. The generated parser takes a key that is
    spelled like the name of a field as it is sent, and needs each of the values that are sent for
    a field; `serde_json` takes the decoding of every key, and needs the last one, under the type
    that is declared first or last for its name. -/
structure SentAlike (query : Text) : Prop where
  accepted : ∀ keyed, (queryPairs query).mapM (directPairOf fields) = some keyed →
    EveryParses fields keyed → RequiredSent fields keyed →
    ∃ sent, (queryPairs query).mapM decodePair = some sent ∧
      LastReads fields (fieldOf fields) sent ∧ RequiredSent fields sent
  counted : ∀ sent, (queryPairs query).mapM decodePair = some sent →
    LastReads fields (fieldOf fields) sent → RequiredSent fields sent →
    ∃ keyed, (queryPairs query).mapM (directPairOf fields) = some keyed ∧
      EveryParses fields keyed ∧ RequiredSent fields keyed ∧ LastAlike fields keyed sent ∧
      LastReads fields (fieldOf fields.reverse) sent

end Sent

/-- No key is sent with an escape and spelled like the name of a field. -/
def NamesDecode (fields : List QueryField) (query : Text) : Prop :=
  ∀ pair ∈ queryPairs query, percent ∈ pair.1 → fieldOf fields pair.1 = none

section Sent

variable {fields : List QueryField} {sent : List (Text × Text)}

/-- What is found was sent, and the other way round. -/
theorem isSome_lastOf {name : Text} : (lastOf sent name).isSome ↔ name ∈ sent.map Prod.fst := by
  induction sent using List.reverseRecOn with
  | nil => simp [lastOf]
  | append_singleton sent pair ih =>
    rw [lastOf_concat, List.map_append, List.mem_append, ← ih, List.map_singleton,
      List.mem_singleton]
    by_cases hname : name = pair.1
    · simp [hname]
    · rw [Function.update_of_ne hname]
      simp [hname]

theorem requiredFound_lastOf : RequiredFound fields (lastOf sent) ↔ RequiredSent fields sent := by
  simp only [RequiredFound, RequiredSent, isSome_lastOf]

theorem all_parses : sent.all (parses fields) = true ↔ EveryParses fields sent := by
  simp only [List.all_eq_true, parses, Option.all_eq_true, EveryParses]

/-- What every value satisfies, the last one does. -/
theorem EveryParses.last (h : EveryParses fields sent) {field : QueryField} {text : Text}
    (hfield : fieldOf fields (str field.wire) = some field)
    (hfound : lastOf sent (str field.wire) = some text) : (field.type.fromStr text).isSome :=
  h _ (mem_of_lastOf hfound) field hfield

/-- The reading of the generated parser. -/
theorem isSome_directReads {query : Text} : (directReads fields query).isSome ↔
    ∃ keyed, (queryPairs query).mapM (directPairOf fields) = some keyed ∧
      EveryParses fields keyed ∧ RequiredSent fields keyed := by
  rw [directReads]
  cases (queryPairs query).mapM (directPairOf fields) with
  | none => simp
  | some keyed =>
    simp only [Option.bind_some, Option.some.injEq, exists_eq_left']
    by_cases hparses : EveryParses fields keyed
    · rw [if_pos (all_parses.mpr hparses), isSome_readFields, requiredFound_lastOf]
      refine ⟨fun h => ⟨hparses, h.1⟩, fun h => ⟨h.2, fun field hfield text hfound => ?_⟩⟩
      exact hparses.last hfield hfound
    · rw [if_neg fun h => hparses (all_parses.mp h)]
      simp [hparses]

/-- The reading of `serde_json`. -/
theorem isSome_typedReads {declared : Text → Option QueryField} {query : Text} :
    (typedReads declared fields query).isSome ↔
      ∃ sent, (queryPairs query).mapM decodePair = some sent ∧
        LastReads fields declared sent ∧ RequiredSent fields sent := by
  rw [typedReads]
  cases (queryPairs query).mapM decodePair with
  | none => simp
  | some sent =>
    simp only [Option.bind_some, Option.some.injEq, exists_eq_left', isSome_readFields,
      requiredFound_lastOf, Option.isSome_bind, Option.any_eq_true]
    exact and_comm

end Sent

/-! ## When they agree -/

theorem typedReads_fieldOf (fields : List QueryField) (query : Text) :
    typedReads (fieldOf fields) fields query = ((queryPairs query).mapM decodePair).bind fun sent =>
      readFields (fun field text => field.type.readAs field.type text) fields (lastOf sent) := by
  apply Option.bind_congr
  intro sent _
  apply readFields_congr
  intro field text hfield _
  rw [hfield]
  rfl

/-- What is read under the types that are declared last is read under those of the fields. -/
theorem typedReads_of_reverse {fields : List QueryField} {query : Text}
    {values : List (Option ScalarValue)}
    (h : typedReads (fieldOf fields.reverse) fields query = some values) :
    typedReads (fieldOf fields) fields query = some values := by
  rw [typedReads_fieldOf]
  obtain ⟨sent, hsent, hread⟩ := Option.bind_eq_some_iff.mp h
  rw [hsent, Option.bind_some]
  refine readFields_mono (fun field text value hvalue => ?_) hread
  obtain ⟨other, -, hother⟩ := Option.bind_eq_some_iff.mp hvalue
  exact readAs_self hother

/-- Both readings succeed, and then they are the same exactly if the last values are. -/
theorem directReads_eq_iff {fields : List QueryField} {query : Text}
    {keyed sent : List (Text × Text)}
    (hkeyed : (queryPairs query).mapM (directPairOf fields) = some keyed)
    (hparses : EveryParses fields keyed) (hrequired : RequiredSent fields keyed)
    (hsent : (queryPairs query).mapM decodePair = some sent)
    (hread : (typedReads (fieldOf fields) fields query).isSome) :
    directReads fields query = typedReads (fieldOf fields) fields query ↔
      LastAlike fields keyed sent := by
  rw [typedReads_fieldOf, hsent, Option.bind_some] at hread ⊢
  rw [directReads, hkeyed, Option.bind_some, if_pos (all_parses.mpr hparses)]
  refine readFields_eq_iff (isSome_readFields.mpr ⟨requiredFound_lastOf.mpr hrequired, ?_⟩) hread
  intro field hfield text hfound
  exact hparses.last hfield hfound

/-- The three readings are the same exactly if the pairs that are sent mean the same in two
    ways. -/
theorem readings_eq_iff {fields : List QueryField} {query : Text} :
    directReads fields query = typedReads (fieldOf fields) fields query ∧
      typedReads (fieldOf fields) fields query = typedReads (fieldOf fields.reverse) fields query ↔
      SentAlike fields query := by
  constructor
  · rintro ⟨hdirect, hlast⟩
    refine ⟨fun keyed hkeyed hparses hrequired => ?_, fun sent hsent hreads hrequired => ?_⟩
    · rw [← isSome_typedReads, ← hdirect]
      exact isSome_directReads.mpr ⟨keyed, hkeyed, hparses, hrequired⟩
    · have hread : (typedReads (fieldOf fields) fields query).isSome :=
        isSome_typedReads.mpr ⟨sent, hsent, hreads, hrequired⟩
      obtain ⟨keyed, hkeyed, hparses, hkeyedRequired⟩ := isSome_directReads.mp (hdirect ▸ hread)
      obtain ⟨sent', hsent', hdeclared, -⟩ := isSome_typedReads.mp (hlast ▸ hread)
      obtain rfl : sent = sent' := Option.some.inj (hsent.symm.trans hsent')
      exact ⟨keyed, hkeyed, hparses, hkeyedRequired,
        (directReads_eq_iff hkeyed hparses hkeyedRequired hsent hread).mp hdirect, hdeclared⟩
  · intro h
    cases hread : typedReads (fieldOf fields) fields query with
    | none =>
      constructor
      · -- what the generated parser accepts is accepted
        rw [← Option.not_isSome_iff_eq_none, isSome_directReads]
        rintro ⟨keyed, hkeyed, hparses, hrequired⟩
        have hsome := isSome_typedReads.mpr (h.accepted keyed hkeyed hparses hrequired)
        rw [hread] at hsome
        cases hsome
      · refine (Option.eq_none_iff_forall_ne_some.mpr fun values hvalues => ?_).symm
        rw [typedReads_of_reverse hvalues] at hread
        cases hread
    | some values =>
      have hsome : (typedReads (fieldOf fields) fields query).isSome := by rw [hread]; rfl
      obtain ⟨sent, hsent, hreads, hrequired⟩ := isSome_typedReads.mp hsome
      obtain ⟨keyed, hkeyed, hparses, hkeyedRequired, halike, hdeclared⟩ :=
        h.counted sent hsent hreads hrequired
      constructor
      · rw [← hread]
        exact (directReads_eq_iff hkeyed hparses hkeyedRequired hsent hsome).mpr halike
      · obtain ⟨values', hvalues'⟩ := Option.isSome_iff_exists.mp
          (isSome_typedReads.mpr ⟨sent, hsent, hdeclared, hrequired⟩)
        rw [hvalues', ← hread, typedReads_of_reverse hvalues']

/-- If names decode, then the generated parser takes them for the same fields. -/
theorem mapM_directPairOf {fields : List QueryField} {query : String}
    (h : NamesDecode fields (str query)) :
    (queryPairs (str query)).mapM (directPairOf fields) = (queryPairs (str query)).mapM decodePair := by
  apply mapM_congr
  intro pair hpair
  rw [directPairOf, decodePair]
  split
  · have hmem : percent ∉ pair.1 := by
      intro hmem
      rw [h pair hpair hmem] at *
      contradiction
    have hdecoded : decoded pair.1 = some pair.1 := by
      rw [decoded, percentDecode_eq_ok.mpr
        ⟨unescape_of_not_mem hmem, (validUtf8_of_mem_queryPairs hpair).1⟩]
      rfl
    rw [hdecoded]
  · rfl

/-- **Without escapes in the names of fields**, all that matters is that every value counts, and
that last values are of the types that are declared last. -/
theorem sentAlike_iff {fields : List QueryField} {query : String}
    (h : NamesDecode fields (str query)) :
    SentAlike fields (str query) ↔ ∀ sent, (queryPairs (str query)).mapM decodePair = some sent →
      LastReads fields (fieldOf fields) sent → RequiredSent fields sent →
      EveryParses fields sent ∧ LastReads fields (fieldOf fields.reverse) sent := by
  have hsame := mapM_directPairOf h
  constructor
  · intro halike sent hsent hreads hrequired
    obtain ⟨keyed, hkeyed, hparses, -, -, hdeclared⟩ := halike.counted sent hsent hreads hrequired
    obtain rfl : keyed = sent := Option.some.inj ((hkeyed.symm.trans hsame).trans hsent)
    exact ⟨hparses, hdeclared⟩
  · intro hcounts
    have hlast : ∀ {sent : List (Text × Text)} {field : QueryField} {text : Text},
        EveryParses fields sent → fieldOf fields (str field.wire) = some field →
        lastOf sent (str field.wire) = some text →
        ∃ value, field.type.fromStr text = some value ∧
          field.type.readAs field.type text = some value := by
      intro sent field text hparses hfield hfound
      obtain ⟨value, hvalue⟩ := Option.isSome_iff_exists.mp (hparses.last hfield hfound)
      exact ⟨value, hvalue, readAs_of_fromStr hvalue⟩
    refine ⟨fun keyed hkeyed hparses hrequired => ?_, fun sent hsent hreads hrequired => ?_⟩
    · refine ⟨keyed, hsame.symm.trans hkeyed, fun field hfield text hfound => ?_, hrequired⟩
      obtain ⟨value, -, hvalue⟩ := hlast hparses hfield hfound
      exact ⟨field, hfield, by rw [hvalue]; rfl⟩
    · obtain ⟨hparses, hdeclared⟩ := hcounts sent hsent hreads hrequired
      refine ⟨sent, hsame.trans hsent, hparses, hrequired, fun field hfield => ?_, hdeclared⟩
      cases hfound : lastOf sent (str field.wire) with
      | none => rfl
      | some text =>
        obtain ⟨value, hfromStr, hreadAs⟩ := hlast hparses hfield hfound
        rw [Option.bind_some, Option.bind_some, hfromStr, hreadAs]

/-- **The queries about which the three decoders agree.** -/
theorem decoders_agree_iff (fields : List QueryField)
    (decoders : Decoders Unit ScalarValue (List (Option ScalarValue)) F)
    (h : DecodesFields fields decoders) (query : String) (fuel : ℕ) :
    Agree (decodeDirect fields decoders query fuel) (decodeSerde fields decoders query fuel)
        (decodeFlattened fields decoders query fuel) ↔ SentAlike fields (str query) := by
  refine (agree_iff (isBadRequest_parse (str query)) (isBadRequest_parseQuery _ _ (str query))
    (isBadRequest_parse (str query))).trans ?_
  show (decodeDirect fields decoders query fuel).toOption = (decodeSerde fields decoders query fuel).toOption ∧
    (decodeSerde fields decoders query fuel).toOption =
      (decodeFlattened fields decoders query fuel).toOption ↔ _
  rw [toOption_decodeDirect h, toOption_decodeSerde h, toOption_decodeFlattened h]
  exact readings_eq_iff

/-! ### Decoders that do what their documentation says -/

/-- A result without a detail. -/
def orRefuse {α : Type} (result : Option α) : Except String α := result.elim (.error "refused") .ok

theorem toOption_orRefuse {α : Type} (result : Option α) : (orRefuse result).toOption = result := by
  cases result with
  | none => rfl
  | some a => rfl

/-- Decoders of these fields, in a program without floats. -/
def documentedDecoders (fields : List QueryField) :
    Decoders Unit ScalarValue (List (Option ScalarValue)) Empty where
  fromStr type text :=
    match type with
    | .scalar .string => .ok (.text text)
    | .scalar .bool => orRefuse (QueryType.bool.fromStr text)
    | .scalar (.int kind) => orRefuse ((kind.parse text).map .int)
    | _ => .error "refused"
  finite _ := none
  serde _ :=
    { urlencoded := fun text => orRefuse ((formPairs text).bind (readForm fields))
      fromValue := fun object => orRefuse
        (readFields (fun field value => field.type.fromValue value) fields object.lookup) }
  record _ values := values
  fromSlice _ _ := .error "refused"

theorem decodesFields_documented (fields : List QueryField) :
    DecodesFields fields (documentedDecoders fields) where
  fromStr type text := by
    cases type with
    | string => rfl
    | bool => exact toOption_orRefuse _
    | int kind wide => exact toOption_orRefuse _
  record _ _ := rfl
  forms text pairs hpairs := by
    show (orRefuse ((formPairs text).bind (readForm fields))).toOption = _
    rw [hpairs, toOption_orRefuse]
    rfl
  objects _ := toOption_orRefuse _
  flattened _ := toOption_orRefuse _

/-- A required `u32`. -/
def pageField : QueryField := { wire := "page", type := .int .u32 (by decide), optional := false }

theorem sentAlike_page : SentAlike [pageField] (str "page=1") := by
  have hnames : NamesDecode [pageField] (str "page=1") := by
    unfold NamesDecode
    decide +kernel
  refine (sentAlike_iff hnames).mpr fun sent hsent _ _ => ?_
  have hpairs : (queryPairs (str "page=1")).mapM decodePair = some [(str "page", str "1")] := by
    decide +kernel
  obtain rfl := Option.some.inj (hpairs.symm.trans hsent)
  have hparses : [(str "page", str "1")].all (parses [pageField]) = true := by decide +kernel
  refine ⟨all_parses.mp hparses, fun field hfield text hfound => ?_⟩
  -- a list of one field is its own reverse
  obtain ⟨value, hvalue⟩ := Option.isSome_iff_exists.mp
    ((all_parses.mp hparses).last hfield hfound)
  exact ⟨field, hfield, by rw [readAs_of_fromStr hvalue]; rfl⟩

theorem decoders_agree_iff_page :
    Agree (decodeDirect [pageField] (documentedDecoders [pageField]) "page=1" 0)
        (decodeSerde [pageField] (documentedDecoders [pageField]) "page=1" 0)
        (decodeFlattened [pageField] (documentedDecoders [pageField]) "page=1" 0) :=
  (decoders_agree_iff [pageField] (documentedDecoders [pageField])
    (decodesFields_documented [pageField]) "page=1" 0).mpr sentAlike_page

/-- A wrong value before a right one: the generated parser refuses the query, `serde_json` takes
    the last value. -/
theorem not_decoders_agree_repeated :
    ¬ ∀ (fields : List QueryField)
        (decoders : Decoders Unit ScalarValue (List (Option ScalarValue)) Empty),
        DecodesFields fields decoders → ∀ (query : String) (fuel : ℕ),
          Agree (decodeDirect fields decoders query fuel) (decodeSerde fields decoders query fuel)
            (decodeFlattened fields decoders query fuel) := by
  intro hall
  have hdecodes := decodesFields_documented [pageField]
  have hdirect := toOption_decodeDirect hdecodes "page=x&page=1" 0
  have hserde := toOption_decodeSerde hdecodes "page=x&page=1" 0
  have hreads : directReads [pageField] (str "page=x&page=1") = none ∧
      typedReads (fieldOf [pageField]) [pageField] (str "page=x&page=1") = some [some (.int 1)] := by
    decide +kernel
  rw [hreads.1] at hdirect
  rw [hreads.2] at hserde
  rcases hall [pageField] _ hdecodes "page=x&page=1" 0 with ⟨values, hvalues, -, -⟩ |
    ⟨-, error, -, -, herror, -, -⟩
  · rw [hvalues] at hdirect
    cases hdirect
  · rw [herror] at hserde
    cases hserde

end OasRs
