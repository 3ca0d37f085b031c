import OasRs.QueryFields

/-!
# What the Decoders Read

Each of the three decoders of a query gives the reading that it should: its loop is followed
once, and the order in which it finds errors is forgotten.

## Main results

- `toOption_parseDirect`: the generated parser
- `toOption_parseQuery`: `parse_query`, with its second attempt
- `toOption_parseQueryGuided`: `parse_query_guided`, through a flattened field
-/

namespace OasRs

open Lib Schema

variable {F : Type}

/-! ## Parts -/

theorem toOption_decodePart (text : Text) : (decodePart text).toOption = decoded text := by
  rw [decodePart, decoded]
  cases percentDecode text with
  | error error => rfl
  | ok output => rfl

theorem toOption_decodeQueryComponent {text : Text} (h : validUtf8 text = true) :
    (decodeQueryComponent text).toOption = decoded text := by
  rw [decodeQueryComponent]
  split
  · exact toOption_decodePart text
  · have hmem : percent ∉ text := by
      rw [← List.contains_iff_mem]
      assumption
    -- there is nothing to decode
    rw [decoded, percentDecode_eq_ok.mpr ⟨unescape_of_not_mem hmem, h⟩]
    rfl

/-! ## The generated parser -/

/-- The variables of the generated parser, when the last values are known. -/
def variablesOf : List QueryField → (Text → Option Text) → List (Option ScalarValue)
  | [], _ => []
  | field :: fields, object =>
    (object (str field.wire)).bind field.type.fromStr ::
      variablesOf fields (Function.update object (str field.wire) none)

theorem variablesOf_none (fields : List QueryField) :
    variablesOf fields (fun _ => none) = fields.map fun _ => none := by
  induction fields with
  | nil => rfl
  | cons field fields ih =>
    have hupdate : Function.update (fun _ => none) (str field.wire) none =
        (fun _ => none : Text → Option Text) := Function.update_eq_self _ _
    rw [variablesOf, hupdate, ih]
    rfl

/-- A field of the generated parser. -/
def QueryField.direct (decoders : Decoders Unit ScalarValue (List (Option ScalarValue)) F)
    (field : QueryField) : DirectField ScalarValue :=
  { wire := field.wire
    optional := field.optional
    parse := decoders.parseQueryValue (.scalar field.type.scalar) }

theorem parses_cons_of_ne {field : QueryField} {name : Text} (h : str field.wire ≠ name)
    (fields : List QueryField) (value : Text) :
    parses (field :: fields) (name, value) = parses fields (name, value) := by
  rw [parses, fieldOf_cons_of_ne h]
  rfl

section Direct

variable {decoders : Decoders Unit ScalarValue (List (Option ScalarValue)) F}

theorem directFields_inputOf (fields : List QueryField) :
    (inputOf fields).directFields decoders = fields.map (QueryField.direct decoders) := by
  rw [StructInput.directFields, inputOf, List.map_map]
  apply List.map_congr_left
  intro field _
  cases hoptional : field.optional with
  | false =>
    simp [QueryField.structField, QueryField.rustType, QueryField.direct, hoptional,
      RustType.optionInner]
  | true =>
    simp [QueryField.structField, QueryField.rustType, QueryField.direct, hoptional,
      RustType.optionInner]

variable (hfromStr : ∀ (type : QueryType) (text : Text),
  (decoders.fromStr (.scalar type.scalar) text).toOption = type.fromStr text)

include hfromStr

theorem toOption_direct (field : QueryField) (text : Text) :
    ((field.direct decoders).parse text).toOption = field.type.fromStr text := by
  rw [← hfromStr]
  show (decoders.parseQueryValue _ text).toOption = _
  rw [Decoders.parseQueryValue]
  cases decoders.fromStr (.scalar field.type.scalar) text with
  | error error => rfl
  | ok value => rfl

/-- An arm of the `match` sets the variable of the first field with the name. -/
theorem toOption_assign (name value : Text) (fields : List QueryField)
    (object : Text → Option Text) :
    (assign name value (fields.map (QueryField.direct decoders)) (variablesOf fields object)).toOption =
      if parses fields (name, value) then
        some (variablesOf fields (Function.update object name (some value)))
      else none := by
  induction fields generalizing object with
  | nil => rfl
  | cons field fields ih =>
    rw [List.map_cons, variablesOf, assign, variablesOf]
    by_cases hname : str field.wire = name
    · subst hname
      rw [if_pos (show str (field.direct decoders).wire = str field.wire from rfl), parses,
        fieldOf_cons_self, Function.update_self, Function.update_idem, toOption_bind,
        toOption_direct hfromStr]
      show _ = if (field.type.fromStr value).isSome = true then _ else none
      cases hvalue : field.type.fromStr value with
      | none => rfl
      | some scalar =>
        rw [Option.bind_some, Option.bind_some, hvalue, if_pos Option.isSome_some]
        rfl
    · rw [if_neg (show ¬ str (field.direct decoders).wire = name from hname),
        parses_cons_of_ne hname, toOption_bind, ih, Function.update_of_ne hname,
        Function.update_comm (Ne.symm hname)]
      split
      · rfl
      · rfl

theorem foldlM_assign (fields : List QueryField) (sent : List (Text × Text))
    (object : Text → Option Text) :
    sent.foldlM (fun values pair =>
        (assign pair.1 pair.2 (fields.map (QueryField.direct decoders)) values).toOption)
        (variablesOf fields object) =
      if sent.all (parses fields) then
        some (variablesOf fields
          (sent.foldl (fun object pair => Function.update object pair.1 (some pair.2)) object))
      else none := by
  induction sent generalizing object with
  | nil => rfl
  | cons pair sent ih =>
    rw [List.foldlM_cons, toOption_assign hfromStr, List.all_cons]
    cases hparses : parses fields pair with
    | false => rfl
    | true =>
      show sent.foldlM _ _ = _
      rw [ih, Bool.true_and]
      rfl

omit hfromStr

/-- What the fields make of the variables. -/
theorem toOption_finish (fields : List QueryField) (object : Text → Option Text)
    (hparses : ∀ name value, object name = some value → parses fields (name, value) = true) :
    (((fields.map (QueryField.direct decoders)).zip (variablesOf fields object)).mapM
        fun entry : DirectField ScalarValue × Option ScalarValue =>
          entry.1.finish entry.2).toOption =
      readFields (fun field => field.type.fromStr) fields object := by
  induction fields generalizing object with
  | nil => rfl
  | cons field fields ih =>
    have htail := ih (Function.update object (str field.wire) none) (by
      intro name value hvalue
      by_cases hname : name = str field.wire
      · rw [hname, Function.update_self] at hvalue
        cases hvalue
      · rw [Function.update_of_ne hname] at hvalue
        rw [← parses_cons_of_ne (Ne.symm hname), hparses name value hvalue])
    rw [List.map_cons, variablesOf, List.zip_cons_cons, List.mapM_cons, toOption_bind, readFields,
      ← htail]
    have hhead : ((field.direct decoders).finish
        ((object (str field.wire)).bind field.type.fromStr)).toOption =
        field.read (fun field => field.type.fromStr) (object (str field.wire)) := by
      cases hfound : object (str field.wire) with
      | none =>
        rw [Option.bind_none, DirectField.finish, QueryField.read]
        cases hoptional : field.optional with
        | false => simp [QueryField.direct, hoptional, Except.toOption]
        | true => simp [QueryField.direct, hoptional, Except.toOption]
      | some text =>
        have hsome := hparses _ _ hfound
        rw [parses, fieldOf_cons_self] at hsome
        obtain ⟨scalar, hscalar⟩ := Option.isSome_iff_exists.mp hsome
        rw [Option.bind_some, QueryField.read, hscalar]
        rfl
    rw [← hhead]
    apply Option.bind_congr
    intro value _
    rw [toOption_bind, Option.map_eq_bind]
    rfl

theorem toOption_directPair (fields : List QueryField) (values : List (Option ScalarValue))
    {pair : Text × Text} (hvalid : validUtf8 pair.1 = true ∧ validUtf8 pair.2 = true) :
    (directPair (fields.map (QueryField.direct decoders)) values pair).toOption =
      (directPairOf fields pair).bind fun sent =>
        (assign sent.1 sent.2 (fields.map (QueryField.direct decoders)) values).toOption := by
  have hany : ((fields.map (QueryField.direct decoders)).any fun field => str field.wire == pair.1) =
      (fieldOf fields pair.1).isSome := by
    rw [List.any_map, fieldOf, List.isSome_find?]
    rfl
  rw [directPair, hany, directPairOf]
  split
  · rw [toOption_bind, toOption_decodeQueryComponent hvalid.2, Option.bind_some, Option.bind_map]
    rfl
  · rw [toOption_bind, toOption_decodeQueryComponent hvalid.1, Option.bind_assoc]
    apply Option.bind_congr
    intro name _
    rw [toOption_bind, toOption_decodeQueryComponent hvalid.2, Option.bind_map]
    rfl

include hfromStr

/-- **The generated parser reads a query by its first reading.** -/
theorem toOption_parseDirect (fields : List QueryField) (query : String) :
    (parseDirect (fields.map (QueryField.direct decoders)) (str query)).toOption =
      directReads fields (str query) := by
  rw [parseDirect, toOption_bind, toOption_foldlM, directReads]
  have hstart : ((fields.map (QueryField.direct decoders)).map fun _ => none) =
      variablesOf fields fun _ => none := by
    rw [variablesOf_none, List.map_map]
    rfl
  have hloop : (queryPairs (str query)).foldlM (fun values pair =>
        (directPair (fields.map (QueryField.direct decoders)) values pair).toOption)
        (variablesOf fields fun _ => none) =
      (queryPairs (str query)).foldlM (fun values pair => (directPairOf fields pair).bind fun sent =>
        (assign sent.1 sent.2 (fields.map (QueryField.direct decoders)) values).toOption)
        (variablesOf fields fun _ => none) := by
    apply foldlM_congr
    intro pair hpair values
    exact toOption_directPair fields values (validUtf8_of_mem_queryPairs hpair)
  rw [hstart, hloop, foldlM_bind, Option.bind_assoc]
  apply Option.bind_congr
  intro sent _
  rw [foldlM_assign hfromStr]
  split
  · rw [Option.bind_some]
    apply toOption_finish
    intro name value hvalue
    exact List.all_eq_true.mp ‹_› _ (mem_of_lastOf hvalue)
  · rfl

end Direct

/-! ## `parse_query_typed` -/

theorem toOption_checkEncoding (query : Text) :
    (checkEncoding query).toOption = ((queryPairs query).mapM decodePair).map fun _ => () := by
  apply toOption_forM
  intro pair
  rw [toOption_bind, toOption_decodePart, decodePair]
  cases decoded pair.1 with
  | none => rfl
  | some name =>
    rw [Option.bind_some, Option.bind_some, toOption_bind, toOption_decodePart]
    cases decoded pair.2 with
    | none => rfl
    | some value => rfl

/-- The type that is declared for a name. -/
def kindOf (parameters : List Parameter) (name : Text) : Option String :=
  if parameters.isEmpty then some "any" else (schemaOfParameter parameters name).bind declaredType

/-- The object that is given to `from_value`. -/
def typedObject (finite : Text → Option F) (parameters : List Parameter)
    (sent : List (Text × Text)) : Table Text (QueryValue F) :=
  sent.foldl (fun object pair =>
    object.insert pair.1 (typedValue finite (kindOf parameters pair.1) pair.2)) ∅

theorem lookup_typedObject (finite : Text → Option F) (parameters : List Parameter)
    (sent : List (Text × Text)) (name : Text) :
    (typedObject finite parameters sent).lookup name =
      (lastOf sent name).map (typedValue finite (kindOf parameters name)) := by
  induction sent using List.reverseRecOn with
  | nil => rfl
  | append_singleton sent pair ih =>
    rw [typedObject, List.foldl_append, lastOf_concat]
    show (AList.insert _ _ (typedObject finite parameters sent)).lookup name = _
    rw [Table.lookup_insert]
    split
    · subst ‹name = pair.1›
      rw [Function.update_self]
      rfl
    · rw [Function.update_of_ne ‹_›, ih]

section Typed

variable {finite : Text → Option F} {parameters : List Parameter}

theorem toOption_typedPair (hitems : ∀ name, (schemaOfParameter parameters name).bind arrayItems = none)
    (object : Table Text (QueryValue F)) (pair : Text × Text) :
    (typedPair finite parameters object pair).toOption = (decodePair pair).bind fun sent =>
      some (object.insert sent.1 (typedValue finite (kindOf parameters sent.1) sent.2)) := by
  rw [typedPair, toOption_bind, toOption_decodePart, decodePair, Option.bind_assoc]
  apply Option.bind_congr
  intro name _
  rw [toOption_bind, toOption_decodePart, Option.bind_map]
  apply Option.bind_congr
  intro value _
  rw [hitems]
  rfl

theorem toOption_foldlM_typedPair
    (hitems : ∀ name, (schemaOfParameter parameters name).bind arrayItems = none)
    (pairs : List (Text × Text)) :
    (pairs.foldlM (typedPair finite parameters) ∅).toOption =
      (pairs.mapM decodePair).map (typedObject finite parameters) := by
  rw [toOption_foldlM, foldlM_congr (fun pair _ object => toOption_typedPair hitems object pair),
    foldlM_bind, Option.map_eq_bind]
  apply Option.bind_congr
  intro sent _
  exact List.foldlM_pure

variable {fields : List QueryField} {serde : Serde (List (Option ScalarValue)) F}
  {declared : Text → Option QueryField} (hobjects : ReadsObjects fields serde)
  (hitems : ∀ name, (schemaOfParameter parameters name).bind arrayItems = none)
  (hkinds : ∀ field, fieldOf fields (str field.wire) = some field →
    ∃ other, declared (str field.wire) = some other ∧
      kindOf parameters (str field.wire) = some other.type.kind)

include hobjects hitems hkinds

/-- **Typed values give the second reading.** -/
theorem toOption_parseQueryTyped (query : Text) :
    (parseQueryTyped finite serde.fromValue parameters query).toOption =
      typedReads declared fields query := by
  rw [parseQueryTyped, toOption_bind, toOption_foldlM_typedPair hitems, typedReads, Option.bind_map]
  apply Option.bind_congr
  intro sent _
  have hlookup : (typedObject finite parameters sent).lookup = fun name =>
      (lastOf sent name).map (typedValue finite (kindOf parameters name)) :=
    funext (lookup_typedObject finite parameters sent)
  have hread : readFields (fun field text =>
        (declared (str field.wire)).bind fun other => other.type.readAs field.type text)
        fields (lastOf sent) =
      (serde.fromValue (typedObject finite parameters sent)).toOption := by
    rw [hobjects, hlookup, readFields_map]
    apply readFields_congr
    intro field text hfield _
    obtain ⟨other, hother, hkind⟩ := hkinds field hfield
    rw [hother, hkind, fromValue_typedValue]
    rfl
  rw [Function.comp_apply, hread]
  -- the error of `from_value` becomes a `400`
  cases serde.fromValue (typedObject finite parameters sent) with
  | error error => rfl
  | ok value => rfl

/-- **`parse_query_guided` gives the second reading.** -/
theorem toOption_parseQueryGuided (query : Text) :
    (parseQueryGuided finite serde parameters query).toOption = typedReads declared fields query := by
  rw [parseQueryGuided, toOption_bind, toOption_checkEncoding,
    toOption_parseQueryTyped hobjects hitems hkinds, Option.bind_map, typedReads]
  cases (queryPairs query).mapM decodePair with
  | none => rfl
  | some sent => rfl

end Typed

/-! ## `parse_query` -/

/-- The pairs of a query, as `serde_urlencoded` gets them. -/
theorem formPairs_escapePlus {query : Text} {sent : List (Text × Text)}
    (h : (queryPairs query).mapM decodePair = some sent) : formPairs (escapePlus query) = some sent := by
  have hpart : ∀ text output, decoded text = some output → formPart (escapePlus text) = some output := by
    intro text output hdecoded
    have hok : percentDecode text = .ok output := by
      rw [decoded] at hdecoded
      cases hcase : percentDecode text with
      | error error =>
        rw [hcase] at hdecoded
        cases hdecoded
      | ok output' =>
        rw [hcase] at hdecoded
        exact congrArg Except.ok (Option.some.inj hdecoded)
    have hmap : (escapePlus text).map (fun byte => if byte = plus then 0x20 else byte) =
        escapePlus text := by
      refine (List.map_congr_left fun byte hbyte => ?_).trans (List.map_id _)
      apply if_neg
      intro hplus
      exact plus_not_mem_replacePlus text (hplus ▸ hbyte)
    rw [formPart, hmap, decoded, percentDecode_replacePlus hok]
    rfl
  rw [formPairs, queryPairs_replacePlus, List.mapM_map]
  apply mapM_mono _ h
  intro pair _ output houtput
  obtain ⟨name, hname, houtput⟩ := Option.bind_eq_some_iff.mp houtput
  obtain ⟨value, hvalue, rfl⟩ := Option.map_eq_some_iff.mp houtput
  show ((formPart (escapePlus pair.1)).bind fun name =>
    (formPart (escapePlus pair.2)).map fun value => (name, value)) = _
  rw [hpart _ _ hname, hpart _ _ hvalue]
  rfl

/-- What the first attempt reads, the second attempt would read too. -/
theorem typedReads_of_readForm {fields : List QueryField} {sent : List (Text × Text)}
    {values : List (Option ScalarValue)} (h : readForm fields sent = some values) :
    readFields (fun field text =>
      (fieldOf fields (str field.wire)).bind fun other => other.type.readAs field.type text)
      fields (lastOf sent) = some values := by
  rw [readForm] at h
  split at h
  · have hmono : readFields (fun field text => field.type.readAs field.type text) fields
        (lastOf sent) = some values :=
      readFields_mono (fun field text value hvalue => readAs_of_fromStr hvalue) h
    rw [← hmono]
    apply readFields_congr
    intro field text hfield _
    rw [hfield]
    rfl
  · cases h

/-- **`parse_query` gives the second reading**, whichever attempt succeeds. -/
theorem toOption_parseQuery {finite : Text → Option F} {parameters : List Parameter}
    {fields : List QueryField} {serde : Serde (List (Option ScalarValue)) F}
    (hforms : ReadsForms fields serde) (hobjects : ReadsObjects fields serde)
    (hitems : ∀ name, (schemaOfParameter parameters name).bind arrayItems = none)
    (hkinds : ∀ field, fieldOf fields (str field.wire) = some field →
      kindOf parameters (str field.wire) = some field.type.kind) (query : Text) :
    (parseQuery finite serde parameters query).toOption =
      typedReads (fieldOf fields) fields query := by
  have htyped : (parseQueryTyped finite serde.fromValue parameters query).toOption = _ :=
    toOption_parseQueryTyped hobjects hitems
      (fun field hfield => ⟨field, hfield, hkinds field hfield⟩) query
  rw [parseQuery, toOption_bind, toOption_checkEncoding]
  cases hsent : (queryPairs query).mapM decodePair with
  | none =>
    rw [typedReads, hsent]
    rfl
  | some sent =>
    have hform := hforms _ _ (formPairs_escapePlus hsent)
    rw [Option.map_some, Option.bind_some]
    cases hattempt : serde.urlencoded (escapePlus query) with
    | ok values =>
      rw [hattempt] at hform
      rw [typedReads, hsent, Option.bind_some, typedReads_of_readForm hform.symm]
      rfl
    | error error =>
      rw [← htyped]
      simp only
      cases parseQueryTyped finite serde.fromValue parameters query with
      | error error => rfl
      | ok values => rfl

end OasRs
