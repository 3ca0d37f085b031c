import OasRs.ObjectSchemas

/-!
# Schemas of Enums

The alternative of a variant accepts what serde writes for it, in each of the four tagging forms, also
into an object that holds more; and it rejects what is written for a variant of another name, which
`oneOf` asks for.

## Main results

- `FieldsFit.shows`: an object shows the fields that were written into it
- `Variant.plan_accepts`, `Variant.plan_rejects`: what an alternative accepts, and what it rejects
- `EnumInput.plan_fits`: the body of an enum
-/

namespace OasRs.Schema

open Lib

variable {ι : Type} {inputs : ι → DeriveInput ι} {S : Serializer .finite ι}
  {components : String → Option Json}

/-! ## Records -/

/-- An object with properties, of which some are required. -/
def recordSchema (properties : Entries) (names : List String) : Json :=
  .object [("type", .str "object"), ("properties", .object properties),
    ("required", .arr (names.map .str))]

section Records

variable {properties whole : Entries} {names : List String}

theorem get_recordSchema (properties : Entries) (names : List String) {key : String} (hkey : key ∈ assertions) :
    Entries.get key (entriesOf (recordSchema properties names)) =
      if key = "type" then some (.str "object")
      else if key = "properties" then some (.object properties)
      else if key = "required" then some (.arr (names.map .str)) else none := by
  simp only [assertions, List.mem_cons, List.not_mem_nil, or_false] at hkey
  rcases hkey with rfl | rfl | rfl | rfl | rfl | rfl | rfl | rfl | rfl | rfl | rfl | rfl | rfl |
    rfl | rfl <;>
    simp [recordSchema, Json.object, Entries.of, entriesOf]

theorem recordSchema_eq (properties : Entries) (names : List String) :
    recordSchema properties names = .obj (entriesOf (recordSchema properties names)) := rfl

theorem valid_record
    (hproperties : ∀ e ∈ whole, ∀ schema, Entries.get e.1 (Entries.of properties) = some schema →
      Valid components schema e.2)
    (hnames : ∀ name ∈ names, Entries.contains name whole = true) :
    Valid components (recordSchema properties names) (.obj whole) := by
  have hget := fun (key : String) (hkey : key ∈ assertions) =>
    get_recordSchema properties names hkey
  rw [recordSchema_eq]
  apply valid_object
  · exact hget "$ref" (by decide)
  · rw [typeHolds, hget "type" (by decide), hget "enum" (by decide)]
    rfl
  · exact hget "anyOf" (by decide)
  · exact hget "oneOf" (by decide)
  · intro list hlist
    rw [hget "allOf" (by decide)] at hlist
    cases hlist
  · intro e he schema hschema
    unfold propertySchema at hschema
    rw [hget "properties" (by decide), hget "additionalProperties" (by decide)] at hschema
    simp only [reduceIte, String.reduceEq, Json.object] at hschema
    split at hschema
    · rename_i own hown
      cases hschema
      exact hproperties e he _ hown
    · cases hschema
  · intro list hlist name hname
    rw [hget "required" (by decide)] at hlist
    cases hlist
    obtain ⟨name', hname', heq⟩ := List.mem_map.mp hname
    cases heq
    exact hnames name hname'

theorem invalid_record_of_property {e : String × Json} {schema : Json} (he : e ∈ whole)
    (hget : Entries.get e.1 (Entries.of properties) = some schema)
    (h : Invalid components schema e.2) :
    Invalid components (recordSchema properties names) (.obj whole) := by
  rw [recordSchema_eq]
  refine invalid_of_property he ?_ h
  unfold propertySchema
  rw [get_recordSchema _ _ (by decide : "properties" ∈ assertions)]
  simp only [reduceIte, String.reduceEq, Json.object, hget]

theorem invalid_record_of_required {name : String} (hname : name ∈ names)
    (h : Entries.contains name whole = false) :
    Invalid components (recordSchema properties names) (.obj whole) := by
  rw [recordSchema_eq]
  refine invalid_of_required ?_ (List.mem_map_of_mem hname) h
  rw [get_recordSchema _ _ (by decide : "required" ∈ assertions)]
  rfl

theorem invalid_record_of_str (text : String) :
    Invalid components (recordSchema properties names) (.str text) := by
  rw [recordSchema_eq]
  apply invalid_of_type
  rw [typeHolds, get_recordSchema _ _ (by decide : "type" ∈ assertions)]
  rfl

end Records

/-- A tuple, part by part. -/
theorem valid_tuple {schemas items : List Json}
    (h : List.Forall₂ (Valid components) schemas items) :
    Valid components (.object [("type", .str "array"), ("prefixItems", .arr schemas),
      ("minItems", .num (.int schemas.length)), ("maxItems", .num (.int schemas.length))]) (.arr items) := by
  have hparts : Settles (fun steps =>
      (schemas.zip items).all fun p => validates components steps p.1 p.2) true := by
    apply Settles.all (F := fun steps (p : Json × Json) => validates components steps p.1 p.2)
    intro p hp
    induction h with
    | nil => cases hp
    | cons hfirst _ ih =>
      rcases List.mem_cons.mp hp with rfl | hp
      · exact hfirst
      · exact ih hp
  refine Settles.of_succ hparts fun steps => ?_
  have hlength := h.length_eq
  simp [validates, keywordsHold, refHolds, typeHolds, rangeHolds, combinatorsHold, subschemas,
    Number.value, itemsHold, propertiesHold, hasType, Json.object, Entries.of, hlength]

/-! ## Payloads -/

/-- The entry of a tag. -/
def tagEntry (tag : Option (String × String)) : Entries :=
  (tag.map fun t => (t.1, Json.str t.2)).toList

/-- An object shows the fields that were written into it. -/
theorem FieldsFit.shows (hS : KeysKnown inputs S) {tag : Option (String × String)}
    {containerDefault : Bool} {fields : List (StructField ι)}
    (hfit : FieldsFit inputs (tag.map Prod.fst) containerDefault fields) {entries whole : Entries}
    (hwrites : WritesFields S fields entries) (htag : ∀ t ∈ tag, ∀ e ∈ entries, e.1 ≠ t.1)
    {about : String → Prop} (hamong : Among about (tagEntry tag ++ entries) whole)
    (habout : ∀ key, key ∈ tag.map Prod.fst ∨
      (∃ field ∈ fields, field.skipped = false ∧ field.Claims inputs key) → about key) :
    Shows inputs S tag containerDefault fields whole := by
  refine ⟨?_, ?_⟩
  · refine hfit.holds hS hwrites (fun e he => hamong.sub e (List.mem_append_right _ he)) ?_
    intro e he
    -- an entry is the tag, or of a field, or of neither
    rcases hamong.rest e he with hmem | hno
    · rcases List.mem_append.mp hmem with hmem | hmem
      · cases tag with
        | none => cases hmem
        | some t =>
          rw [List.mem_singleton.mp hmem]
          exact .inr (.inl rfl)
      · exact .inl hmem
    · exact .inr (.inr fun field hfield hskip hclaims =>
        hno (habout e.1 (.inr ⟨field, hfield, hskip, hclaims⟩)))
  · intro t ht
    obtain rfl : tag = some t := ht
    refine ⟨hamong.sub _ List.mem_cons_self, ?_⟩
    intro e he hkey
    rcases hamong.rest e he with hmem | hno
    · rcases List.mem_cons.mp hmem with rfl | hmem
      · rfl
      · exact absurd hkey (htag t rfl e hmem)
    · exact absurd (habout e.1 (.inl (by rw [hkey]; rfl))) hno

/-- The schema of a payload accepts what is written for it. -/
structure PayloadFits (inputs : ι → DeriveInput ι) (S : Serializer .finite ι)
    (components : String → Option Json) (payload : Payload ι) (schema : Json) : Prop where
  valid : ∀ value, payload.Writes S value → Valid components schema value
  merged : (∀ type ∈ payload.types, Mergeable inputs type) → ∀ flat entries whole,
    payload.Merges S flat entries → Among (payload.About inputs) entries whole →
      Valid components schema (.obj whole)

theorem Variant.payloadPlan_fits (hS : KeysKnown inputs S) (variant : Variant ι)
    (hfit : FieldsFit inputs none variant.default variant.payload.fields) :
    (variant.payloadPlan false).Makes (AskFits inputs S components) fun schema? =>
      match schema? with
      | none => variant.payload = .unit
      | some schema => variant.payload ≠ .unit ∧
          PayloadFits inputs S components variant.payload schema := by
  unfold Variant.payloadPlan
  cases hpayload : variant.payload with
  | unit => exact .const rfl
  -- the schema of the type is the payload's
  | newtype type =>
    refine (plan_mention_fits type).map fun schema h => ⟨nofun, h.valid, ?_⟩
    intro hmergeable flat entries whole hmerges hamong
    refine h.merged (hmergeable type (List.mem_singleton_self _)) flat entries whole hmerges ?_
    exact hamong.mono fun key hkey => .inr (.inr ⟨type, List.mem_singleton_self _, hkey⟩)
  | tuple types =>
    have hitems : (Plan.list (types.map (RustType.plan Ask.mention))).Makes
        (AskFits inputs S components) (List.Forall₂ (Fits inputs S components false) types) :=
      Plan.Makes.list fun type _ => plan_mention_fits type
    refine hitems.map fun schemas hschemas => ⟨nofun, ?_, fun _ flat entries whole h => by cases h⟩
    rintro value ⟨items, rfl, hwrites⟩
    rw [← show schemas.length = types.length from hschemas.length_eq.symm]
    apply valid_tuple
    -- a schema and a part for each type
    clear hitems hpayload
    induction hschemas generalizing items with
    | nil =>
      cases hwrites
      exact .nil
    | cons hfirst _ ih =>
      cases hwrites with
      | cons hvalue hwrites => exact .cons (hfirst.valid _ hvalue) (ih _ hwrites)
  | named fields =>
    rw [hpayload] at hfit
    have hfit : FieldsFit inputs ((none : Option (String × String)).map Prod.fst) variant.default
      fields := hfit
    have hobject : (objectPlan false fields none none variant.default false).Makes
        (AskFits inputs S components)
        (ObjectFits inputs S components none variant.default false fields) :=
      objectPlan_fits none variant.default hfit.annotation hfit.mergeable none false
    -- an object that the fields are written into shows them
    have hshows : ∀ entries whole, WritesFields S fields entries →
        Among (Payload.About inputs (.named fields)) entries whole →
          Shows inputs S none variant.default fields whole := by
      intro entries whole hwrites hamong
      refine FieldsFit.shows hS hfit hwrites nofun hamong ?_
      rintro key (hkey | hkey)
      · cases hkey
      · rcases claims_iff.mp hkey with hown | hflattened
        · exact .inl hown
        · exact .inr (.inl hflattened)
    refine hobject.map fun schema h => ⟨nofun, ?_, ?_⟩
    · rintro value ⟨entries, rfl, hwrites⟩
      exact h.valid entries (hshows entries entries hwrites (.refl _ _))
        fun hfalse => absurd hfalse Bool.false_ne_true
    · intro _ flat entries whole hmerges hamong
      exact h.valid whole (hshows entries whole hmerges hamong)
        fun hfalse => absurd hfalse Bool.false_ne_true

/-! ## Names of variants -/

/-- A value that is written for a variant of another name. -/
inductive NamesOther (wire : String) : Tagging → Json → Prop where
  | unit {text : String} (h : text ≠ wire) : NamesOther wire .external (.str text)
  | payload {whole : Entries} (h : Entries.contains wire whole = false) :
      NamesOther wire .external (.obj whole)
  | internal {tag text : String} {whole : Entries} (hmem : (tag, .str text) ∈ whole)
      (h : text ≠ wire) : NamesOther wire (.internal tag) (.obj whole)
  | adjacent {tag content text : String} {whole : Entries} (hmem : (tag, .str text) ∈ whole)
      (h : text ≠ wire) : NamesOther wire (.adjacent tag content) (.obj whole)

/-- An object that a variant was written into names it, if nothing else names the other one. -/
theorem Variant.Labels.namesOther {variant : Variant ι} {tagging : Tagging} {entries whole : Entries}
    (h : variant.Labels S tagging entries) {wire : String} (hne : variant.wire ≠ wire)
    {about : String → Prop} (habout : tagging = .external → about wire)
    (hamong : Among about entries whole) : NamesOther wire tagging (.obj whole) := by
  cases tagging with
  | external =>
    obtain ⟨inner, -, rfl⟩ := h
    -- the other name is no key: what is beside the payload is about other keys
    apply NamesOther.payload
    apply contains_eq_false
    rintro e he rfl
    rcases hamong.rest e he with hmem | hno
    · rw [List.mem_singleton.mp hmem] at hne
      exact hne rfl
    · exact hno (habout rfl)
  | internal tag =>
    obtain ⟨inner, -, -, rfl⟩ := h
    exact .internal (hamong.sub _ List.mem_cons_self) hne
  | adjacent tag content =>
    simp only [Variant.Labels] at h
    split at h
    · rw [h] at hamong
      exact .adjacent (hamong.sub _ List.mem_cons_self) hne
    · obtain ⟨inner, -, rfl⟩ := h
      exact .adjacent (hamong.sub _ List.mem_cons_self) hne
  | untagged => cases h

/-- What is written for a variant that has a name: the name, or an object with it. -/
theorem Variant.Writes.cases {variant : Variant ι} {tagging : Tagging} {value : Json}
    (h : variant.Writes S tagging value) (htagging : variant.tagging tagging ≠ .untagged) :
    (variant.tagging tagging = .external ∧ variant.payload = .unit ∧ value = .str variant.wire) ∨
      ∃ entries, value = .obj entries ∧ variant.Labels S (variant.tagging tagging) entries := by
  unfold Variant.Writes at h
  split at h
  · rename_i hexternal hunit
    exact .inl ⟨hexternal, hunit, h⟩
  · rename_i huntagged
    exact absurd huntagged htagging
  · exact .inr h

/-- What is written for a variant names it. -/
theorem Variant.Writes.namesOther {variant : Variant ι} {tagging : Tagging} {value : Json}
    (h : variant.Writes S tagging value) (htagging : variant.tagging tagging ≠ .untagged)
    {wire : String} (hne : variant.wire ≠ wire) :
    NamesOther wire (variant.tagging tagging) value := by
  rcases h.cases htagging with ⟨hexternal, -, rfl⟩ | ⟨entries, rfl, hlabels⟩
  · rw [hexternal]
    exact .unit hne
  · exact hlabels.namesOther hne (fun _ => trivial) (.refl (fun _ => True) entries)

/-! ## Alternatives -/

/-- The alternative of a variant accepts what is written for it, and rejects another name. -/
structure VariantFits (inputs : ι → DeriveInput ι) (S : Serializer .finite ι)
    (components : String → Option Json) (tagging : Tagging) (variant : Variant ι) (schema : Json) :
    Prop where
  valid : ∀ value, variant.Writes S tagging value → Valid components schema value
  merged : (variant.payload = .unit →
      variant.tagging tagging ≠ .external ∧ variant.tagging tagging ≠ .untagged) →
    (∀ type ∈ (variant.spread tagging).types, Mergeable inputs type) → ∀ flat entries whole,
      variant.Merges S flat tagging entries → Among (variant.About inputs tagging) entries whole →
        Valid components schema (.obj whole)
  rejects : ∀ value, NamesOther variant.wire (variant.tagging tagging) value →
    Invalid components schema value

/-- A variant that has a name is known by what it writes into objects. -/
theorem VariantFits.of_labels {tagging : Tagging} {variant : Variant ι} {schema : Json}
    (htagging : variant.tagging tagging ≠ .untagged)
    (hunit : variant.tagging tagging = .external → variant.payload = .unit →
      schema = tagSchema variant.wire)
    (hlabels : ¬ (variant.tagging tagging = .external ∧ variant.payload = .unit) →
      ∀ entries whole, variant.Labels S (variant.tagging tagging) entries →
        Among (variant.About inputs tagging) entries whole → Valid components schema (.obj whole))
    (hrejects : ∀ value, NamesOther variant.wire (variant.tagging tagging) value →
      Invalid components schema value) :
    VariantFits inputs S components tagging variant schema := by
  refine ⟨?_, ?_, hrejects⟩
  · intro value hwrites
    by_cases hname : variant.tagging tagging = .external ∧ variant.payload = .unit
    · rw [hunit hname.1 hname.2]
      unfold Variant.Writes at hwrites
      rw [hname.1, hname.2] at hwrites
      rw [hwrites]
      exact valid_tag variant.wire
    · rcases hwrites.cases htagging with ⟨hexternal, hpayload, -⟩ | ⟨entries, rfl, hentries⟩
      · exact absurd ⟨hexternal, hpayload⟩ hname
      · exact hlabels hname entries entries hentries (.refl _ _)
  · intro hmergeable _ flat entries whole hmerges hamong
    refine hlabels (fun hname => (hmergeable hname.2).1 hname.1) entries whole ?_ hamong
    unfold Variant.Merges at hmerges
    split at hmerges
    · rename_i huntagged
      exact absurd huntagged htagging
    · exact hmerges

section Labels

variable {properties entries whole : Entries} {names : List String} {about : String → Prop}

/-- A record accepts the labels of a variant, in an object that says nothing else under their keys. -/
theorem valid_record_among (hamong : Among about entries whole)
    (habout : ∀ key schema, Entries.get key (Entries.of properties) = some schema → about key)
    (hentries : ∀ e ∈ entries, ∀ schema, Entries.get e.1 (Entries.of properties) = some schema →
      Valid components schema e.2)
    (hnames : ∀ name ∈ names, ∃ e ∈ entries, e.1 = name) :
    Valid components (recordSchema properties names) (.obj whole) := by
  apply valid_record
  · intro e he schema hget
    rcases hamong.rest e he with hmem | hno
    · exact hentries e hmem schema hget
    · exact absurd (habout e.1 schema hget) hno
  · intro name hname
    obtain ⟨e, he, rfl⟩ := hnames name hname
    exact contains_of_mem (hamong.sub e he)

end Labels

theorem get_single (key : String) (schema : Json) (key' : String) :
    Entries.get key' (Entries.of [(key, schema)]) = if key = key' then some schema else none := by
  simp [Entries.of, Entries.get_insert]

theorem get_pair {key key' : String} (hne : key ≠ key') (schema schema' : Json) (key'' : String) :
    Entries.get key'' (Entries.of [(key, schema), (key', schema')]) =
      if key = key'' then some schema else if key' = key'' then some schema' else none := by
  simp only [Entries.of, List.foldl_cons, List.foldl_nil, Entries.get_insert, Entries.get_nil]
  by_cases h : key' = key''
  · subst h
    simp [hne]
  · simp [h]

/-- An object with a tag alone. -/
theorem valid_tagObject {tag wire : String} {entries whole : Entries} {about : String → Prop}
    (h : entries = [(tag, .str wire)]) (habout : about tag) (hamong : Among about entries whole) :
    Valid components (tagObject tag wire) (.obj whole) := by
  subst h
  show Valid components (recordSchema [(tag, tagSchema wire)] [tag]) (.obj whole)
  refine valid_record_among hamong ?_ ?_ ?_
  · intro key schema hget
    rw [get_single] at hget
    split at hget
    · rename_i hkey
      exact hkey ▸ habout
    · cases hget
  · intro e he schema hget
    obtain rfl := List.mem_singleton.mp he
    rw [get_single, if_pos rfl] at hget
    cases hget
    exact valid_tag wire
  · intro name hname
    exact ⟨_, List.mem_singleton_self _, (List.mem_singleton.mp hname).symm⟩

theorem invalid_tagObject {tag wire text : String} {whole : Entries} (hmem : (tag, .str text) ∈ whole)
    (hne : text ≠ wire) : Invalid components (tagObject tag wire) (.obj whole) := by
  show Invalid components (recordSchema [(tag, tagSchema wire)] [tag]) (.obj whole)
  refine invalid_record_of_property hmem ?_ (invalid_tag fun heq => hne (Json.str.inj heq))
  rw [get_single, if_pos rfl]

/-! ### A payload beside its tag -/

theorem get_internalNewtype (tag wire : String) (payload : Json) {key : String}
    (hkey : key ∈ assertions) :
    Entries.get key (entriesOf (internalNewtype tag wire payload)) =
      if key = "type" then some (.str "object")
      else if key = "properties" then some (.object [(tag, tagSchema wire)])
      else if key = "required" then some (.arr [.str tag])
      else if key = "allOf" then
        if (mapValues payload).isSome then none else some (.arr [opened payload])
      else if key = "additionalProperties" then mapValues payload
      else none := by
  simp only [assertions, List.mem_cons, List.not_mem_nil, or_false] at hkey
  unfold internalNewtype
  simp only [flattenSchema_eq]
  cases mapValues payload <;>
    rcases hkey with rfl | rfl | rfl | rfl | rfl | rfl | rfl | rfl | rfl | rfl | rfl | rfl | rfl |
      rfl | rfl <;>
    simp [entriesOf, Entries.of, flattenedPart]

theorem internalNewtype_eq (tag wire : String) (payload : Json) :
    internalNewtype tag wire payload = .obj (entriesOf (internalNewtype tag wire payload)) := rfl

theorem valid_internalNewtype {tag wire : String} {payload : Json} {whole : Entries}
    (hmem : (tag, .str wire) ∈ whole) (honly : ∀ e ∈ whole, e.1 = tag → e.2 = .str wire)
    (hmap : ∀ extra, mapValues payload = some extra → ∀ e ∈ whole, e.1 ≠ tag →
      Valid components extra e.2)
    (hpart : mapValues payload = none → Valid components payload (.obj whole)) :
    Valid components (internalNewtype tag wire payload) (.obj whole) := by
  have hget := fun (key : String) (hkey : key ∈ assertions) =>
    get_internalNewtype tag wire payload hkey
  rw [internalNewtype_eq]
  apply valid_object
  · exact hget "$ref" (by decide)
  · rw [typeHolds, hget "type" (by decide), hget "enum" (by decide)]
    rfl
  · exact hget "anyOf" (by decide)
  · exact hget "oneOf" (by decide)
  · intro list hlist part hmember
    rw [hget "allOf" (by decide)] at hlist
    simp only [reduceIte, String.reduceEq] at hlist
    split at hlist
    · cases hlist
    · rename_i hnone
      cases hlist
      rw [List.mem_singleton.mp hmember]
      exact (hpart (by simpa using hnone)).opened
  · intro e he schema hschema
    unfold propertySchema at hschema
    rw [hget "properties" (by decide), hget "additionalProperties" (by decide)] at hschema
    simp only [reduceIte, String.reduceEq, Json.object, get_single] at hschema
    by_cases hkey : tag = e.1
    · rw [if_pos hkey] at hschema
      cases hschema
      rw [honly e he hkey.symm]
      exact valid_tag wire
    · rw [if_neg hkey] at hschema
      exact hmap schema hschema e he (Ne.symm hkey)
  · intro list hlist name hname
    rw [hget "required" (by decide)] at hlist
    cases hlist
    obtain rfl := Json.str.inj (List.mem_singleton.mp hname)
    exact contains_of_mem hmem

theorem invalid_internalNewtype {tag wire text : String} {payload : Json} {whole : Entries}
    (hmem : (tag, .str text) ∈ whole) (hne : text ≠ wire) :
    Invalid components (internalNewtype tag wire payload) (.obj whole) := by
  rw [internalNewtype_eq]
  refine invalid_of_property hmem ?_ (invalid_tag fun heq => hne (Json.str.inj heq))
  unfold propertySchema
  rw [get_internalNewtype _ _ _ (by decide : "properties" ∈ assertions)]
  simp only [reduceIte, String.reduceEq, Json.object, get_single]

/-! ### The four forms -/

/-- The tag of an object is none of its fields. -/
theorem FieldsFit.tag_not_mem {tag : String} {containerDefault : Bool} {fields : List (StructField ι)}
    (h : FieldsFit inputs (some tag) containerDefault fields) : tag ∉ ownWires fields := by
  intro hmem
  obtain ⟨field, hfield, hwire⟩ := List.mem_map.mp hmem
  obtain ⟨hfield, hlisted⟩ := List.mem_filter.mp hfield
  simp only [Bool.and_eq_true, Bool.not_eq_true'] at hlisted
  refine h.tag tag rfl field hfield hlisted.1 ?_ ?_
  · exact fun hflatten => absurd (hlisted.2.symm.trans hflatten) Bool.false_ne_true
  · rw [StructField.Claims, hlisted.2, if_neg Bool.false_ne_true]
    exact hwire

theorem Variant.tag?_of_internal {variant : Variant ι} {tagging : Tagging} {tag : String}
    (h : variant.tagging tagging = .internal tag) : variant.tag? tagging = some tag := by
  rw [Variant.tag?, h]

theorem Variant.tag?_eq_none {variant : Variant ι} {tagging : Tagging}
    (h : ∀ tag, variant.tagging tagging ≠ .internal tag) : variant.tag? tagging = none := by
  unfold Variant.tag?
  split
  · rename_i tag htag
    exact absurd htag (h tag)
  · rfl

/-- The alternative of a variant under an internal tag. -/
theorem Variant.internalPlan_fits (hS : KeysKnown inputs S) {input : EnumInput ι}
    (hfit : VariantsFit inputs input) {variant : Variant ι} (hvariant : variant ∈ input.variants)
    {tag : String} (htagging : variant.tagging input.tagging = .internal tag) :
    (variant.internalPlan tag false).Makes (AskFits inputs S components)
      (VariantFits inputs S components input.tagging variant) := by
  have htag := Variant.tag?_of_internal htagging
  have hfields := hfit.fields variant hvariant
  rw [htag] at hfields
  have hlabel : variant.About inputs input.tagging tag := by
    refine .inl ?_
    rw [Variant.labels, htagging]
    exact List.mem_singleton_self _
  have hspread : variant.spread input.tagging = variant.payload := by
    rw [Variant.spread, htagging]
  -- what accepts the labels of a variant, and rejects another tag, is its alternative
  have hof : ∀ schema, (∀ entries whole, variant.Labels S (.internal tag) entries →
        Among (variant.About inputs input.tagging) entries whole → Valid components schema (.obj whole)) →
      (∀ whole text, (tag, .str text) ∈ whole → text ≠ variant.wire →
        Invalid components schema (.obj whole)) →
      VariantFits inputs S components input.tagging variant schema := by
    intro schema hlabels hrejects
    apply VariantFits.of_labels
    · simp [htagging]
    · intro hexternal
      rw [htagging] at hexternal
      cases hexternal
    · rw [htagging]
      exact fun _ => hlabels
    · rw [htagging]
      intro value hother
      cases hother with
      | internal hmem hne => exact hrejects _ _ hmem hne
  unfold Variant.internalPlan
  cases hpayload : variant.payload with
  | unit =>
    refine .const (hof _ ?_ fun whole text hmem hne => invalid_tagObject hmem hne)
    rintro entries whole ⟨inner, hinner, -, rfl⟩ hamong
    rw [hpayload] at hinner
    obtain rfl : inner = [] := hinner
    exact valid_tagObject rfl hlabel hamong
  | tuple types =>
    refine .const (hof _ ?_ fun whole text hmem hne => invalid_tagObject hmem hne)
    -- serde cannot write a tuple into the object of the tag
    rintro entries whole ⟨inner, hinner, -⟩
    rw [hpayload] at hinner
    cases hinner
  | newtype type =>
    -- an `Option` is not written beside a tag, so the value is that of the type
    have hmerges : ∀ inner, variant.payload.Merges S false inner → type.optionInner.2 = false ∧
        type.optionInner.1.Merges S false inner := by
      intro inner hinner
      rw [hpayload] at hinner
      change type.Merges S false inner at hinner
      cases type with
      | option _ => cases hinner.1
      | scalar _ | named _ | vec _ | ref _ | box _ | map _ => exact ⟨rfl, hinner⟩
    have hsame : type.optionInner.2 = false → type.optionInner.1 = type := by
      cases type with
      | option _ => exact fun h => by cases h
      | scalar _ | named _ | vec _ | ref _ | box _ | map _ => exact fun _ => rfl
    refine (plan_mention_fits _).map fun schema hschema => hof _ ?_ fun whole text hmem hne =>
      invalid_internalNewtype hmem hne
    rintro entries whole ⟨inner, hinner, htags, rfl⟩ hamong
    obtain ⟨hoption, hinner⟩ := hmerges inner hinner
    have htype : type ∈ variant.payload.types := by
      rw [hpayload]
      exact List.mem_singleton_self _
    obtain ⟨hmergeable, hbeside⟩ := hfit.internal variant hvariant tag (by rw [htag]; rfl) type htype
      hoption
    rw [hsame hoption] at hinner hschema
    -- the alternative says of a key what the payload says
    have habout : ∀ key, Constrains inputs false type key → variant.About inputs input.tagging key := by
      intro key hkey
      refine .inr ?_
      rw [hspread]
      exact .inr (.inr ⟨type, htype, hkey⟩)
    apply valid_internalNewtype
    · exact hamong.sub _ List.mem_cons_self
    -- the tag stands for itself only
    · intro e he hkey
      rcases hamong.rest e he with hmem | hno
      · rcases List.mem_cons.mp hmem with rfl | hmem
        · rfl
        · exact absurd hkey (htags e hmem)
      · exact absurd (hkey ▸ hlabel) hno
    · -- a map describes all keys but the tag
      intro extra hextra e he hkey
      have hmap := hschema.isMap.mp (by rw [hextra]; rfl)
      rcases hamong.rest e he with hmem | hno
      · refine hschema.values extra hextra false inner hinner e ?_
        exact (List.mem_cons.mp hmem).resolve_left fun heq => hkey (by rw [heq])
      · exact absurd (habout e.1 (hmap.constrains _ _)) hno
    -- otherwise the payload is a part, which sees the tag but has no say on it
    · intro hnone
      have hmap : ¬ IsMap inputs type := by
        intro hmap
        have hsome := hschema.isMap.mpr hmap
        rw [hnone] at hsome
        cases hsome
      have hforeign := hbeside.resolve_left hmap
      refine hschema.merged hmergeable false inner whole hinner
        ⟨fun e he => hamong.sub e (List.mem_cons_of_mem _ he), fun e he => ?_⟩
      rcases hamong.rest e he with hmem | hno
      · rcases List.mem_cons.mp hmem with rfl | hmem
        · exact .inr hforeign
        · exact .inl hmem
      · exact .inr fun hkey => hno (habout e.1 hkey)
  | named fields =>
    rw [hpayload] at hfields
    have hfields : FieldsFit inputs ((some (tag, variant.wire)).map Prod.fst) variant.default fields :=
      hfields
    -- the fields of the variant with the tag among the properties
    have hobject : (objectPlan false fields (some (tag, variant.wire)) none variant.default
        false).Makes (AskFits inputs S components)
          (ObjectFits inputs S components (some (tag, variant.wire)) variant.default false fields) :=
      objectPlan_fits _ variant.default hfields.annotation hfields.mergeable none false
    refine hobject.mono fun schema hschema => hof schema ?_ ?_
    · rintro entries whole ⟨inner, hinner, htags, rfl⟩ hamong
      rw [hpayload] at hinner
      change WritesFields S fields inner at hinner
      refine hschema.valid whole ?_ fun hfalse => absurd hfalse Bool.false_ne_true
      refine hfields.shows hS hinner ?_ hamong ?_
      · rintro t ht e he
        obtain rfl := Option.some.inj ht
        exact htags e he
      · rintro key (hkey | hkey)
        · obtain rfl := Option.some.inj hkey
          exact hlabel
        · refine .inr ?_
          rw [hspread, hpayload]
          rcases claims_iff.mp hkey with hown | hflattened
          · exact .inl hown
          · exact .inr (.inl hflattened)
    · intro whole text hmem hne
      exact hschema.tagged (tag, variant.wire) rfl hfields.tag_not_mem whole text hmem hne

/-- The alternative with the payload under the name of its variant. -/
theorem VariantFits.external {tagging : Tagging} {variant : Variant ι} {payload : Json}
    (htagging : variant.tagging tagging = .external)
    (hpayload : PayloadFits inputs S components variant.payload payload)
    (hunit : variant.payload ≠ .unit) :
    VariantFits inputs S components tagging variant
      (recordSchema [(variant.wire, payload)] [variant.wire]) := by
  have hlabel : variant.About inputs tagging variant.wire := by
    refine .inl ?_
    rw [Variant.labels, htagging]
    exact List.mem_singleton_self _
  apply VariantFits.of_labels
  · simp [htagging]
  · exact fun _ h => absurd h hunit
  · rw [htagging]
    rintro - entries whole ⟨inner, hinner, rfl⟩ hamong
    -- one property, with the name of the variant, and it is required
    refine valid_record_among hamong ?_ ?_ ?_
    · intro key schema hget
      rw [get_single] at hget
      split at hget
      · rename_i hkey
        exact hkey ▸ hlabel
      · cases hget
    · intro e he schema hget
      obtain rfl := List.mem_singleton.mp he
      rw [get_single, if_pos rfl] at hget
      cases hget
      exact hpayload.valid inner hinner
    · intro name hname
      exact ⟨_, List.mem_singleton_self _, (List.mem_singleton.mp hname).symm⟩
  · rw [htagging]
    -- another name is no object with this one
    intro value hother
    cases hother with
    | unit hne => exact invalid_record_of_str _
    | payload hmissing => exact invalid_record_of_required (List.mem_singleton_self _) hmissing

/-- The alternative with the payload beside the name of its variant. -/
theorem VariantFits.adjacent {tagging : Tagging} {variant : Variant ι} {tag content : String}
    {payload : Json} (htagging : variant.tagging tagging = .adjacent tag content)
    (hne : tag ≠ content) (hpayload : PayloadFits inputs S components variant.payload payload)
    (hunit : variant.payload ≠ .unit) :
    VariantFits inputs S components tagging variant
      (recordSchema [(tag, tagSchema variant.wire), (content, payload)] [tag, content]) := by
  have hlabels : variant.labels tagging = [tag, content] := by
    rw [Variant.labels, htagging]
  apply VariantFits.of_labels
  · simp [htagging]
  · exact fun _ h => absurd h hunit
  · rw [htagging]
    rintro - entries whole hwritten hamong
    have hentries : ∃ inner, variant.payload.Writes S inner ∧
        entries = [(tag, .str variant.wire), (content, inner)] := by
      simpa only [Variant.Labels] using hwritten
    obtain ⟨inner, hinner, rfl⟩ := hentries
    -- the properties are about the two keys and nothing else
    refine valid_record_among hamong ?_ ?_ ?_
    · intro key schema hget
      rw [get_pair hne] at hget
      refine .inl ?_
      rw [hlabels]
      split at hget
      · rename_i hkey
        simp [hkey]
      · split at hget
        · rename_i hkey
          simp [hkey]
        · cases hget
    · intro e he schema hget
      rw [get_pair hne] at hget
      rcases List.mem_cons.mp he with rfl | he
      · rw [if_pos rfl] at hget
        cases hget
        exact valid_tag variant.wire
      · obtain rfl := List.mem_singleton.mp he
        rw [if_neg hne, if_pos rfl] at hget
        cases hget
        exact hpayload.valid inner hinner
    · intro name hname
      rcases List.mem_cons.mp hname with rfl | hname
      · exact ⟨_, List.mem_cons_self, rfl⟩
      · exact ⟨_, List.mem_cons_of_mem _ (List.mem_singleton_self _), (List.mem_singleton.mp hname).symm⟩
  · rw [htagging]
    intro value hother
    cases hother with
    | adjacent hmem hother =>
      -- another name is not the one that the tag must have
      refine invalid_record_of_property hmem ?_ (invalid_tag fun heq => hother (Json.str.inj heq))
      rw [get_pair hne, if_pos rfl]

/-- **The alternative that the derive generates for a variant.** -/
theorem Variant.plan_fits (hS : KeysKnown inputs S) {input : EnumInput ι}
    (hfit : VariantsFit inputs input) {variant : Variant ι} (hvariant : variant ∈ input.variants) :
    (variant.plan input.tagging false).Makes (AskFits inputs S components)
      (VariantFits inputs S components input.tagging variant) := by
  -- under all other taggings, the payload is described by itself
  have hpayload : (∀ tag, variant.tagging input.tagging ≠ .internal tag) →
      (variant.payloadPlan false).Makes (AskFits inputs S components) fun schema? =>
        match schema? with
        | none => variant.payload = .unit
        | some schema => variant.payload ≠ .unit ∧
            PayloadFits inputs S components variant.payload schema := by
    intro hinternal
    have hfields := hfit.fields variant hvariant
    rw [Variant.tag?_eq_none hinternal] at hfields
    exact variant.payloadPlan_fits hS hfields
  unfold Variant.plan
  cases htagging : variant.tagging input.tagging with
  | internal tag => exact variant.internalPlan_fits hS hfit hvariant htagging
  | external =>
    refine (hpayload (by simp [htagging])).map fun schema? hschema => ?_
    cases schema? with
    | none =>
      -- only the name
      change variant.payload = .unit at hschema
      apply VariantFits.of_labels
      · simp [htagging]
      · exact fun _ _ => rfl
      · exact fun hname => absurd ⟨htagging, hschema⟩ hname
      · rw [htagging]
        intro value hother
        cases hother with
        | unit hne => exact invalid_tag fun heq => hne (Json.str.inj heq)
        | payload => exact invalid_tag nofun
    | some schema => exact VariantFits.external htagging hschema.2 hschema.1
  | adjacent tag content =>
    refine (hpayload (by simp [htagging])).map fun schema? hschema => ?_
    -- the tagging is that of the enum
    have huntagged : variant.untagged = false := by
      by_contra hcontra
      rw [Variant.tagging, if_pos (Bool.eq_true_of_not_eq_false hcontra)] at htagging
      cases htagging
    have hsame : input.tagging = .adjacent tag content := by
      rw [Variant.tagging, huntagged, if_neg Bool.false_ne_true] at htagging
      exact htagging
    cases schema? with
    | none =>
      change variant.payload = .unit at hschema
      apply VariantFits.of_labels
      · simp [htagging]
      · intro hexternal
        rw [htagging] at hexternal
        cases hexternal
      · rw [htagging]
        intro _ entries whole hwritten hamong
        have hentries : entries = [(tag, .str variant.wire)] := by
          simpa only [Variant.Labels, hschema] using hwritten
        refine valid_tagObject hentries (.inl ?_) hamong
        rw [Variant.labels, htagging]
        exact List.mem_cons_self
      · rw [htagging]
        intro value hother
        cases hother with
        | adjacent hmem hne => exact invalid_tagObject hmem hne
    | some schema =>
      exact VariantFits.adjacent htagging (hfit.content tag content hsame) hschema.2 hschema.1
  | untagged =>
    refine (hpayload (by simp [htagging])).map fun schema? hschema => ?_
    -- without a name, nothing has to be told apart
    have hrejects : ∀ schema value, NamesOther variant.wire (variant.tagging input.tagging) value →
        Invalid components schema value := by
      rw [htagging]
      intro schema value hother
      cases hother
    have hspread : variant.spread input.tagging = variant.payload := by
      rw [Variant.spread, htagging]
    cases schema? with
    | none =>
      change variant.payload = .unit at hschema
      refine ⟨?_, fun hunit => absurd htagging (hunit hschema).2, hrejects _⟩
      intro value hwrites
      unfold Variant.Writes at hwrites
      rw [htagging, hschema] at hwrites
      -- nothing is written for it but `null`
      obtain rfl : value = .null := hwrites
      exact (Settles.const true).of_succ (validates_null .null)
    | some schema =>
      refine ⟨?_, ?_, hrejects _⟩
      · intro value hwrites
        unfold Variant.Writes at hwrites
        rw [htagging] at hwrites
        exact hschema.2.valid value hwrites
      · intro _ hmergeable flat entries whole hmerges hamong
        unfold Variant.Merges at hmerges
        rw [htagging] at hmerges
        rw [hspread] at hmergeable
        refine hschema.2.merged hmergeable flat entries whole hmerges (hamong.mono fun key hkey => ?_)
        refine .inr ?_
        rw [hspread]
        exact hkey

/-! ## Bodies -/

/-- The body of a derived type accepts what is written for it. -/
structure BodyFits (inputs : ι → DeriveInput ι) (S : Serializer .finite ι)
    (components : String → Option Json) (i : ι) (schema : Json) : Prop where
  obj : ∃ keywords, schema = .obj keywords
  mapValues : mapValues schema = none
  valid : ∀ value, (inputs i).Writes S value → Valid components schema value
  merged : Mergeable inputs (.named i) → ∀ flat flat' entries whole,
    (inputs i).Merges S flat' entries → Among (Constrains inputs flat (.named i)) entries whole →
      Valid components (if flat then opened schema else schema) (.obj whole)

/-- The body of a struct. -/
theorem StructInput.plan_fits (hS : KeysKnown inputs S) {i : ι} {name : String}
    {input : StructInput ι} (hinput : inputs i = .struct name input)
    (hfit : FieldsFit inputs none input.default input.fields) :
    (input.plan false).Makes (AskFits inputs S components) (BodyFits inputs S components i) := by
  have hfit : FieldsFit inputs ((none : Option (String × String)).map Prod.fst) input.default
    input.fields := hfit
  have hobject : (input.plan false).Makes (AskFits inputs S components)
      (ObjectFits inputs S components none input.default input.closed input.fields) :=
    objectPlan_fits none input.default hfit.annotation hfit.mergeable input.description
      input.denyUnknownFields
  -- an object shows what was written, also beside other entries
  have hshows : ∀ {about : String → Prop} {entries whole : Entries},
      WritesFields S input.fields entries → Among about entries whole →
        (∀ key, (∃ field ∈ input.fields, field.skipped = false ∧ field.Claims inputs key) → about key) →
          Shows inputs S none input.default input.fields whole := by
    intro about entries whole hwrites hamong habout
    refine hfit.shows hS hwrites nofun hamong ?_
    rintro key (hkey | hkey)
    · cases hkey
    · exact habout key hkey
  -- a closed struct writes its own names only
  have hclosed : ∀ entries, WritesFields S input.fields entries → input.closed = true →
      ∀ e ∈ entries, e.1 ∈ ownWires input.fields := by
    intro entries hwrites hclosed e he
    rw [StructInput.closed, Bool.and_eq_true, Bool.not_eq_true', List.any_eq_false] at hclosed
    rcases claims_iff.mp (hwrites.claims hS hfit.mergeable he) with hown | ⟨type, htype, -⟩
    · exact hown
    · obtain ⟨field, hfield, -⟩ := List.mem_map.mp htype
      obtain ⟨hfield, hflattened⟩ := List.mem_filter.mp hfield
      exact absurd hflattened (hclosed.2 field hfield)
  refine hobject.mono fun schema hschema => ⟨hschema.obj, hschema.mapValues, ?_, ?_⟩
  · rw [hinput]
    rintro value ⟨entries, rfl, hwrites⟩
    refine hschema.valid entries ?_ (hclosed entries hwrites)
    exact hshows hwrites (.refl (fun _ => True) entries) fun _ _ => trivial
  · rw [hinput]
    intro _ flat flat' entries whole hwrites hamong
    have hwhole : Shows inputs S none input.default input.fields whole := by
      refine hshows hwrites hamong fun key hkey => ?_
      rcases claims_iff.mp hkey with hown | ⟨type, htype, hconstrains⟩
      · apply Constrains.own
        rw [hinput]
        exact hown
      · refine .flattened ?_ hconstrains
        rw [hinput]
        exact htype
    -- opened, the schema allows the other entries; closed, there are none
    cases flat with
    | true => exact hschema.opened whole hwhole
    | false =>
      refine hschema.valid whole hwhole fun hc e he => hclosed entries hwrites hc e ?_
      exact (hamong.rest e he).resolve_right fun hno => hno (.closed hinput hc)

/-! ### Enums -/

theorem EnumInput.combinator_cases (input : EnumInput ι) :
    input.combinator = "anyOf" ∨ input.combinator = "oneOf" := by
  unfold EnumInput.combinator
  split
  · exact .inl rfl
  · exact .inr rfl

/-- Where just one alternative may fit, each variant has its name. -/
theorem EnumInput.tagging_of_oneOf {input : EnumInput ι} (h : input.combinator = "oneOf")
    {variant : Variant ι} (hvariant : variant ∈ input.variants) :
    variant.tagging input.tagging = input.tagging ∧ input.tagging ≠ .untagged := by
  unfold EnumInput.combinator at h
  split at h
  · exact absurd h (by decide)
  · rename_i hnamed
    simp only [Bool.or_eq_true, not_or, beq_iff_eq, List.any_eq_true, not_exists, not_and] at hnamed
    refine ⟨?_, hnamed.1⟩
    rw [Variant.tagging, if_neg (hnamed.2 variant hvariant)]

/-- The partner of an element, and the elements around it. -/
theorem exists_of_forall₂ {α β : Type*} {R : α → β → Prop} {xs : List α} {ys : List β} {x : α}
    (h : List.Forall₂ R xs ys) (hx : x ∈ xs) :
    ∃ l l' y r r', xs = l ++ x :: r ∧ ys = l' ++ y :: r' ∧ List.Forall₂ R l l' ∧ R x y ∧
      List.Forall₂ R r r' := by
  induction h with
  | nil => cases hx
  | @cons a b xs ys hab hrest ih =>
    rcases List.mem_cons.mp hx with rfl | hx
    · exact ⟨[], [], b, xs, ys, rfl, rfl, .nil, hab, hrest⟩
    · obtain ⟨l, l', y, r, r', rfl, rfl, hl, hy, hr⟩ := ih hx
      exact ⟨a :: l, b :: l', y, r, r', rfl, rfl, .cons hab hl, hy, hr⟩

/-- What fits a variant, and names it for the others, fits the enum. -/
theorem valid_alternatives {input : EnumInput ι} (hfit : VariantsFit inputs input)
    {alternatives : List Json}
    (h : List.Forall₂ (VariantFits inputs S components input.tagging) input.variants alternatives)
    {variant : Variant ι} (hvariant : variant ∈ input.variants) {value : Json}
    (hvalid : ∀ schema, VariantFits inputs S components input.tagging variant schema →
      Valid components schema value)
    (hothers : input.combinator = "oneOf" → ∀ other ∈ input.variants, variant.wire ≠ other.wire →
      NamesOther other.wire input.tagging value) :
    Valid components (alternativesSchema input.description input.combinator alternatives) value := by
  obtain ⟨l, l', schema, r, r', hvariants, rfl, hl, hschema, hr⟩ := exists_of_forall₂ h hvariant
  rcases input.combinator_cases with hany | hone
  -- one alternative that accepts the value is enough for `anyOf`
  · rw [hany]
    have hmem : schema ∈ l' ++ schema :: r' := List.mem_append_right _ List.mem_cons_self
    exact valid_anyOf hmem (hvalid schema hschema)
  -- and for `oneOf`, the alternatives around it must reject the value, by its name
  · rw [hone]
    have hnames := hfit.names hone
    rw [hvariants, List.map_append, List.map_cons] at hnames
    have hinvalid : ∀ other ∈ input.variants, variant.wire ≠ other.wire → ∀ schema,
        VariantFits inputs S components input.tagging other schema → Invalid components schema value := by
      intro other hother hne schema hfits
      apply hfits.rejects
      rw [(EnumInput.tagging_of_oneOf hone hother).1]
      exact hothers hone other hother hne
    have hside : ∀ {side side'}, List.Forall₂ (VariantFits inputs S components input.tagging) side side' →
        (∀ other ∈ side, other ∈ input.variants ∧ variant.wire ≠ other.wire) →
          ∀ schema ∈ side', Invalid components schema value := by
      intro side side' hside hne schema hmem
      induction hside with
      | nil => cases hmem
      | cons hfirst _ ih =>
        rcases List.mem_cons.mp hmem with rfl | hmem
        · obtain ⟨hother, hne⟩ := hne _ List.mem_cons_self
          exact hinvalid _ hother hne _ hfirst
        · exact ih (fun other hother => hne other (List.mem_cons_of_mem _ hother)) hmem
    refine valid_oneOf (hside hl ?_) (hvalid schema hschema) (hside hr ?_)
    · intro other hother
      refine ⟨hvariants ▸ List.mem_append_left _ hother, fun heq => ?_⟩
      exact (List.nodup_append.mp hnames).2.2 _ (List.mem_map_of_mem hother) _ List.mem_cons_self heq.symm
    · intro other hother
      refine ⟨hvariants ▸ List.mem_append_right _ (List.mem_cons_of_mem _ hother), fun heq => ?_⟩
      exact (List.nodup_cons.mp (List.nodup_append.mp hnames).2.1).1 (heq ▸ List.mem_map_of_mem hother)

/-- The body of an enum. -/
theorem EnumInput.plan_fits (hS : KeysKnown inputs S) {i : ι} {name : String} {input : EnumInput ι}
    (hinput : inputs i = .enum name input) (hfit : VariantsFit inputs input) :
    (input.plan false).Makes (AskFits inputs S components) (BodyFits inputs S components i) := by
  -- where the enum is merged, each variant has a name in the object
  have hunits : Mergeable inputs (.named i) →
      (∀ variant ∈ input.variants, variant.payload = .unit →
        variant.tagging input.tagging ≠ .external ∧ variant.tagging input.tagging ≠ .untagged) ∧
          ∀ type, type ∈ (inputs i).merged → Mergeable inputs type := by
    intro h
    cases h with
    | transparent htype => rw [hinput] at htype; cases htype
    | struct hstruct => rw [hinput] at hstruct; cases hstruct
    | enum henum hunit hmerged =>
      rw [hinput] at henum
      cases henum
      exact ⟨hunit, hmerged⟩
  unfold EnumInput.plan
  split
  · rename_i hplain
    -- only names: the schema is the list of them
    have huntagged := hfit.plain hplain
    simp only [EnumInput.isPlain, Bool.and_eq_true, beq_iff_eq, List.all_eq_true] at hplain
    have hunit : ∀ variant ∈ input.variants, variant.payload = .unit ∧
        variant.tagging input.tagging = .external := by
      intro variant hvariant
      have hpayload := hplain.2 variant hvariant
      refine ⟨?_, ?_⟩
      · split at hpayload
        · assumption
        · cases hpayload
      · rw [Variant.tagging, huntagged variant hvariant, if_neg Bool.false_ne_true]
        exact hplain.1
    refine .const ⟨⟨_, rfl⟩, ?_, ?_, ?_⟩
    · cases hdescription : input.description <;>
        simp [EnumInput.descriptionEntry, hdescription, mapValues, isPureMap, Entries.contains,
          Json.object, Entries.of]
    · rw [hinput]
      rintro value ⟨variant, hvariant, hwrites⟩
      unfold Variant.Writes at hwrites
      rw [(hunit variant hvariant).1, (hunit variant hvariant).2] at hwrites
      obtain rfl : value = .str variant.wire := hwrites
      refine Settles.of_add 1 fun _ => ?_
      cases hdescription : input.description <;>
        simp [EnumInput.descriptionEntry, hdescription, validates, keywordsHold, refHolds, typeHolds,
          rangeHolds, combinatorsHold, subschemas, itemsHold, propertiesHold, Json.object, Entries.of,
          hasType] <;>
        exact ⟨variant, hvariant, rfl⟩
    · rw [hinput]
      rintro hmergeable flat flat' entries whole ⟨variant, hvariant, -⟩
      obtain ⟨hpayload, htagging⟩ := hunit variant hvariant
      exact absurd htagging ((hunits hmergeable).1 variant hvariant hpayload).1
  · have hlist : (Plan.list (input.variants.map (Variant.plan input.tagging false))).Makes
        (AskFits inputs S components)
          (List.Forall₂ (VariantFits inputs S components input.tagging) input.variants) :=
      Plan.Makes.list fun variant hvariant => variant.plan_fits hS hfit hvariant
    refine hlist.map fun alternatives hall => ?_
    show BodyFits inputs S components i
      (alternativesSchema input.description input.combinator alternatives)
    -- otherwise, one alternative for each variant
    refine ⟨⟨_, rfl⟩, ?_, ?_, ?_⟩
    · apply mapValues_of_get
      have hget := get_alternativesSchema input.description input.combinator alternatives
        (by decide : "additionalProperties" ∈ assertions)
      rcases input.combinator_cases with hany | hone
      · rw [hany] at hget
        rw [hany]
        exact hget
      · rw [hone] at hget
        rw [hone]
        exact hget
    · rw [hinput]
      rintro value ⟨variant, hvariant, hwrites⟩
      refine valid_alternatives hfit hall hvariant (fun schema hschema => hschema.valid value hwrites) ?_
      intro hone other _ hne
      obtain ⟨htagging, huntagged⟩ := EnumInput.tagging_of_oneOf hone hvariant
      have hnamed : variant.tagging input.tagging ≠ .untagged := by
        rw [htagging]
        exact huntagged
      have hother := hwrites.namesOther hnamed hne
      rw [htagging] at hother
      exact hother
    · intro hmergeable flat flat' entries whole hmerges hamong
      rw [hinput] at hmerges
      obtain ⟨variant, hvariant, hmerges⟩ := hmerges
      obtain ⟨hunit, hmerged⟩ := hunits hmergeable
      have hvalid : Valid components
          (alternativesSchema input.description input.combinator alternatives) (.obj whole) := by
        refine valid_alternatives hfit hall hvariant ?_ ?_
        · intro schema hschema
          refine hschema.merged (hunit variant hvariant) ?_ flat' entries whole hmerges
            (hamong.mono fun key hkey => hkey.constrains hinput hvariant flat)
          intro type htype
          apply hmerged
          rw [hinput]
          exact List.mem_flatMap.mpr ⟨variant, hvariant, htype⟩
        · intro hone other hother hne
          obtain ⟨htagging, huntagged⟩ := EnumInput.tagging_of_oneOf hone hvariant
          -- the object names the variant, and the others reject that name
          have hlabels : variant.Labels S input.tagging entries := by
            unfold Variant.Merges at hmerges
            rw [htagging] at hmerges
            cases hcase : input.tagging with
            | untagged => exact absurd hcase huntagged
            | external | internal _ | adjacent _ _ =>
              rw [hcase] at hmerges
              exact hmerges
          refine hlabels.namesOther hne (fun hexternal => ?_) hamong
          refine Variant.About.constrains hinput hother (.inl ?_) flat
          rw [Variant.labels, (EnumInput.tagging_of_oneOf hone hother).1, hexternal]
          exact List.mem_singleton_self _
      split
      · exact hvalid.opened
      · exact hvalid

end OasRs.Schema
