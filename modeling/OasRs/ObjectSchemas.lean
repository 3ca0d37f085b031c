import OasRs.Describable

/-!
# Schemas of Objects

The schema of an object with named fields accepts what serde writes, also into an object that holds
more: the properties are those of the fields, and each flattened field adds a part to `allOf`, or, when
it is a map, describes all other properties.

## Main results

- `Fits`: a schema accepts what is written for a type
- `fits_schemaFor`: through the types of the library
- `objectPlan_fits`: the object that the derive generates for fields
-/

namespace OasRs.Schema

open Lib

variable {ι : Type}

section Fits

variable (inputs : ι → DeriveInput ι) (S : Serializer .finite ι) (components : String → Option Json)

/-- A schema accepts what is written for a type; the flag says whether it is opened first. -/
structure Fits (flat : Bool) (type : RustType ι) (schema : Json) : Prop where
  obj : ∃ keywords, schema = .obj keywords
  valid : ∀ value, type.Writes S value → Valid components schema value
  merged : Mergeable inputs type → ∀ flat' entries whole, type.Merges S flat' entries →
    Among (Constrains inputs flat type) entries whole →
      Valid components (if flat then opened schema else schema) (.obj whole)
  isMap : (mapValues schema).isSome = true ↔ IsMap inputs type
  values : ∀ extra, mapValues schema = some extra → ∀ flat' entries, type.Merges S flat' entries →
    ∀ e ∈ entries, Valid components extra e.2

/-- The answer to a question accepts what is written for the type. -/
def AskFits : Ask ι → Json → Prop
  | .mention k, schema => Fits inputs S components false (.named k) schema
  | .flattened k, schema => Fits inputs S components true (.named k) schema

end Fits

variable {inputs : ι → DeriveInput ι} {S : Serializer .finite ι} {components : String → Option Json}

/-! ## The types of the library -/

theorem mapValues_of_get {keywords : Entries}
    (h : Entries.get "additionalProperties" keywords = none) : mapValues (.obj keywords) = none := by
  simp [mapValues, isPureMap, Entries.contains, h]

theorem mapValues_mapSchema (values : Json) : mapValues (mapSchema values) = some values := by
  simp [mapValues, isPureMap, Entries.contains, mapSchema, Json.object, Entries.of]

/-- What is written for a scalar is read again, if it holds finite floats only. -/
theorem Scalar.Writes.deserializes {type : Scalar} {value : Json} (h : type.Writes .finite value) :
    type.deserializes (fun _ => true) value = true := by
  cases type with
  | f32 | f64 =>
    rcases h with ⟨q, rfl⟩ | ⟨hall, -⟩
    · rfl
    · cases hall
  | string | bool | int _ | isize | usize | uuid | value => exact h

/-- To serde an integer is written as such. -/
theorem Scalar.fits_of_deserializes {uuid : String → Bool} {type : Scalar} {value : Json}
    (h : type.deserializes uuid value = true) : type.fits uuid value = true := by
  cases type with
  | int kind =>
    cases value with
    | num n =>
      cases n with
      | int n => rfl
      | float q => cases h
    | null | bool _ | str _ | arr _ | obj _ => cases h
  | string | bool | isize | usize | f32 | f64 | uuid | value => exact h

theorem fits_scalar (flat : Bool) (type : Scalar) :
    Fits inputs S components flat (.scalar type) type.schema := by
  -- the schema of a scalar has no properties at all
  have hnone : mapValues type.schema = none := by
    cases type <;> exact mapValues_of_get (by simp [Entries.of])
  refine ⟨by cases type <;> exact ⟨_, rfl⟩, ?_, fun h => (by cases h), ?_, ?_⟩
  · intro value hwrites
    have hreads := Scalar.Writes.deserializes hwrites
    refine Settles.of_add 1 fun steps => ?_
    rw [validates_scalar (Scalar.fits_of_deserializes hreads)]
    exact hreads
  · rw [hnone]
    refine ⟨fun h => absurd h Bool.false_ne_true, fun h => ?_⟩
    cases h
  · intro extra h
    rw [hnone] at h
    cases h

/-- A float that is not finite does not fit: its schema refuses the `null` that is written for it. -/
theorem invalid_of_not_finite {type : Scalar} (htype : type = .f32 ∨ type = .f64) :
    type.Writes .all .null ∧ Invalid components type.schema .null := by
  rcases htype with rfl | rfl <;>
    exact ⟨.inr ⟨rfl, rfl⟩, Settles.of_add 1 fun steps => validates_scalarSchema _ _ steps⟩

/-- A type that is neither written into an object nor a map. -/
theorem Fits.of_valid {flat : Bool} {type : RustType ι} {keywords : Entries}
    (hvalid : ∀ value, type.Writes S value → Valid components (.obj keywords) value)
    (hmergeable : ¬ Mergeable inputs type) (hmap : ¬ IsMap inputs type)
    (hget : Entries.get "additionalProperties" keywords = none) :
    Fits inputs S components flat type (.obj keywords) := by
  have hnone := mapValues_of_get hget
  refine ⟨⟨_, rfl⟩, hvalid, fun h => absurd h hmergeable, ?_, ?_⟩
  · rw [hnone]
    exact ⟨fun h => absurd h Bool.false_ne_true, fun h => absurd h hmap⟩
  · intro extra h
    rw [hnone] at h
    cases h

/-- **A schema fits when the schemas do that it contains.** -/
theorem fits_schemaFor {flat : Bool} {type : RustType ι} {leaf : ι → Json}
    (h : ∀ k, type.named? = some k → Fits inputs S components flat (.named k) (leaf k)) :
    Fits inputs S components flat type (type.schemaFor leaf) := by
  induction type with
  | scalar type => exact fits_scalar flat type
  | named k => exact h k rfl
  | option inner ih =>
    refine Fits.of_valid ?_ (fun h => by cases h) (fun h => by cases h) (by simp [Entries.of])
    rintro value (rfl | hvalue)
    · exact valid_option_null
    · exact ((ih h).valid value hvalue).option
  | vec inner ih =>
    refine Fits.of_valid ?_ (fun h => by cases h) (fun h => by cases h) (by simp [Entries.of])
    rintro value ⟨items, rfl, hitems⟩
    exact valid_vec fun item hitem => (ih h).valid item (hitems item hitem)
  | ref inner ih =>
    refine ⟨(ih h).obj, (ih h).valid, ?_, ?_, (ih h).values⟩
    · intro hmergeable flat' entries whole hmerges hamong
      cases hmergeable with
      | ref hinner =>
        exact (ih h).merged hinner flat' entries whole hmerges (hamong.mono fun _ => .ref)
    · refine (ih h).isMap.trans ⟨.ref, fun hmap => ?_⟩
      cases hmap with
      | ref hinner => exact hinner
  | box inner ih =>
    refine ⟨(ih h).obj, (ih h).valid, ?_, ?_, (ih h).values⟩
    · intro hmergeable flat' entries whole hmerges hamong
      cases hmergeable with
      | box hinner =>
        exact (ih h).merged hinner flat' entries whole hmerges (hamong.mono fun _ => .box)
    · refine (ih h).isMap.trans ⟨.box, fun hmap => ?_⟩
      cases hmap with
      | box hinner => exact hinner
  | map inner ih =>
    -- the values are what counts, under whichever keys
    have hvalues : ∀ whole : Entries, (∀ e ∈ whole, inner.Writes S e.2) →
        Valid components (mapSchema (inner.schemaFor leaf)) (.obj whole) :=
      fun whole hwhole => valid_map fun e he => (ih h).valid e.2 (hwhole e he)
    refine ⟨⟨_, rfl⟩, ?_, ?_, ?_, ?_⟩
    · rintro value ⟨entries, rfl, hentries⟩
      exact hvalues entries hentries
    · -- the schema of a map is about every key
      intro _ flat' entries whole hmerges hamong
      have hwhole : ∀ e ∈ whole, inner.Writes S e.2 := by
        intro e he
        rcases hamong.rest e he with hmem | hno
        · exact hmerges e hmem
        · exact absurd .map hno
      split
      · exact (hvalues whole hwhole).opened
      · exact hvalues whole hwhole
    · rw [RustType.schemaFor, mapValues_mapSchema]
      exact ⟨fun _ => .map, fun _ => rfl⟩
    · intro extra hextra flat' entries hmerges e he
      rw [RustType.schemaFor, mapValues_mapSchema] at hextra
      cases hextra
      exact (ih h).valid e.2 (hmerges e he)

theorem plan_fits {good : Ask ι → Json → Prop} {flat : Bool} (question : ι → Ask ι)
    (hquestion : ∀ k schema, good (question k) schema →
      Fits inputs S components flat (.named k) schema) (type : RustType ι) :
    (type.plan question).Makes good (Fits inputs S components flat type) := by
  unfold RustType.plan
  cases hnamed : type.named? with
  | none =>
    apply Plan.Makes.const
    apply fits_schemaFor
    intro k hk
    rw [hnamed] at hk
    cases hk
  | some k =>
    refine (Plan.Makes.ask _).map fun schema hschema => ?_
    apply fits_schemaFor
    intro k' hk'
    rw [hnamed] at hk'
    cases hk'
    exact hquestion k schema hschema

theorem plan_mention_fits (type : RustType ι) :
    (type.plan .mention).Makes (AskFits inputs S components)
      (Fits inputs S components false type) := plan_fits .mention (fun _ _ h => h) type

theorem plan_flattened_fits (type : RustType ι) :
    (type.plan .flattened).Makes (AskFits inputs S components)
      (Fits inputs S components true type) := plan_fits .flattened (fun _ _ h => h) type

/-! ## Fields -/

/-- What the statements for a field do to the parts, with schemas that fit. -/
inductive StructField.Updates (inputs : ι → DeriveInput ι) (S : Serializer .finite ι)
    (components : String → Option Json) (containerDefault : Bool) (field : StructField ι) :
    (ObjectParts → ObjectParts) → Prop where
  | skipped (h : field.skipped = true) : Updates inputs S components containerDefault field id
  | flattened {schema : Json} (hskip : field.skipped = false) (hflatten : field.flatten = true)
      (h : Fits inputs S components true field.type.optionInner.1 schema) :
      Updates inputs S components containerDefault field fun parts =>
        flattenSchema parts schema field.type.optionInner.2
  | listed {schema : Json} (hskip : field.skipped = false) (hflatten : field.flatten = false)
      (h : Fits inputs S components false field.type schema) :
      Updates inputs S components containerDefault field fun parts =>
        parts.add field false containerDefault (field.direction (field.doc.decorate schema))

theorem StructField.plan_updates (containerDefault : Bool) (field : StructField ι) :
    (field.plan false containerDefault).Makes (AskFits inputs S components)
      (field.Updates inputs S components containerDefault) := by
  unfold StructField.plan
  cases hskip : field.skipped with
  | true => exact .const (.skipped hskip)
  | false =>
    cases hflatten : field.flatten with
    | true => exact (plan_flattened_fits _).map fun schema h => .flattened hskip hflatten h
    | false => exact (plan_mention_fits _).map fun schema h => .listed hskip hflatten h

/-- The attributes of a field do not change what its schema accepts. -/
theorem Valid.property {field : StructField ι} (hdoc : field.doc.IsAnnotation) {schema value : Json}
    (hobj : ∃ keywords, schema = .obj keywords) (h : Valid components schema value) :
    Valid components (field.direction (field.doc.decorate schema)) value := by
  obtain ⟨keywords, rfl⟩ := hobj
  -- the property of a field whose type has this schema
  obtain ⟨keywords', heq, hget⟩ :=
    @property_eq_obj Unit { field with type := .named () } hdoc (fun _ => .obj keywords) keywords rfl
  have hsame : field.direction (field.doc.decorate (.obj keywords)) = .obj keywords' := heq
  rw [hsame]
  exact h.congr hget

/-! ## Parts -/

section Parts

variable {keys : List String} {whole : Entries} {containerDefault : Bool}

/-- What the parts of a schema say of an object, with the names of the object's own properties. -/
structure ObjectParts.Sound (components : String → Option Json) (keys : List String) (whole : Entries)
    (parts : ObjectParts) : Prop where
  properties : ∀ e ∈ whole, ∀ schema, Entries.get e.1 parts.properties = some schema →
    Valid components schema e.2
  required : ∀ name ∈ parts.required, Entries.contains name whole = true
  allOf : ∀ part ∈ parts.allOf, Valid components part (.obj whole)
  extra : ∀ e ∈ whole, e.1 ∉ keys → ∀ schema,
    Entries.get "additionalProperties" parts.schema = some schema → Valid components schema e.2
  only : ∀ key, key ≠ "additionalProperties" → Entries.get key parts.schema = none

theorem valid_anyOf_plainObject (schema : Json) :
    Valid components (.object [("anyOf", .arr [schema, plainObject])]) (.obj whole) := by
  have hmem : plainObject ∈ [schema, plainObject] :=
    List.mem_cons_of_mem _ (List.mem_singleton_self _)
  show Valid components (alternativesSchema none "anyOf" [schema, plainObject]) (.obj whole)
  exact valid_anyOf hmem valid_plainObject

/-- **A statement keeps the parts sound**, where the object shows the field. -/
theorem StructField.Updates.sound {field : StructField ι} {update : ObjectParts → ObjectParts}
    (h : field.Updates inputs S components containerDefault update)
    (hdoc : field.skipped = false → field.doc.IsAnnotation)
    (hmergeable : field.skipped = false → field.flatten = true →
      Mergeable inputs field.type.optionInner.1)
    (hholds : field.skipped = false → field.Holds inputs S containerDefault keys whole)
    {parts : ObjectParts} (hparts : parts.Sound components keys whole) :
    (update parts).Sound components keys whole := by
  cases h with
  | skipped => exact hparts
  | @listed schema hskip hflatten hfits =>
    have hshown := hholds hskip
    refine { hparts with properties := ?_, required := ?_ }
    · intro e he schema' hget
      simp only [ObjectParts.add, Entries.get_insert] at hget
      split at hget
      · rename_i hkey
        cases hget
        have hvalue := hshown.listed hflatten e he hkey.symm
        exact (hfits.valid e.2 hvalue).property (hdoc hskip) hfits.obj
      · exact hparts.properties e he schema' hget
    · intro name hname
      simp only [ObjectParts.add] at hname
      split at hname
      · rename_i hrequired
        rcases List.mem_append.mp hname with hname | hname
        · exact hparts.required name hname
        · rw [List.mem_singleton.mp hname]
          simp only [Bool.or_false, Bool.and_eq_true, Bool.not_eq_true'] at hrequired
          exact hshown.required hflatten hrequired.1 hrequired.2
      · exact hparts.required name hname
  | @flattened schema hskip hflatten hfits =>
    have hshown := hholds hskip
    show (flattenSchema parts schema field.type.optionInner.2).Sound components keys whole
    rw [flattenSchema_eq]
    cases hvalues : mapValues schema with
    | some values =>
      -- a map: its values are those of the keys that are no properties
      have hmap := hfits.isMap.mp (by rw [hvalues]; rfl)
      refine { hparts with extra := ?_, only := ?_ }
      · intro e he hkey extra hget
        rw [Entries.get_insert, if_pos rfl] at hget
        cases hget
        obtain ⟨own, hown, hmem⟩ := hshown.map hflatten hmap e he hkey
        exact hfits.values values hvalues true own hown e hmem
      · intro key hkey
        rw [Entries.get_insert, if_neg (Ne.symm hkey)]
        exact hparts.only key hkey
    | none =>
      -- one more part, which an `Option` may leave to any object
      have hmap : ¬ IsMap inputs field.type.optionInner.1 := by
        intro hmap
        have hsome := hfits.isMap.mpr hmap
        rw [hvalues] at hsome
        cases hsome
      refine { hparts with allOf := ?_ }
      intro part hpart
      rcases List.mem_append.mp hpart with hpart | hpart
      · exact hparts.allOf part hpart
      · rw [List.mem_singleton.mp hpart, flattenedPart]
        split
        · exact valid_anyOf_plainObject _
        · rename_i hoption
          obtain ⟨own, hown, hamong⟩ := (hshown.merged hflatten hmap).resolve_left hoption
          exact hfits.merged (hmergeable hskip hflatten) true own whole hown hamong

/-- The parts after the statements for all fields. -/
theorem sound_foldl {fields : List (StructField ι)} {updates : List (ObjectParts → ObjectParts)}
    (h : List.Forall₂ (StructField.Updates inputs S components containerDefault) fields updates)
    (hdoc : ∀ field ∈ fields, field.skipped = false → field.doc.IsAnnotation)
    (hmergeable : ∀ type ∈ flattenedTypes fields, Mergeable inputs type)
    (hholds : ∀ field ∈ fields, field.skipped = false →
      field.Holds inputs S containerDefault keys whole)
    {parts : ObjectParts} (hparts : parts.Sound components keys whole) :
    (updates.foldl (fun parts update => update parts) parts).Sound components keys whole := by
  induction h generalizing parts with
  | nil => exact hparts
  | @cons field update fields updates hupdate _ ih =>
    refine ih (fun other hother => hdoc other (List.mem_cons_of_mem _ hother)) ?_
      (fun other hother => hholds other (List.mem_cons_of_mem _ hother))
      (hupdate.sound (hdoc field List.mem_cons_self) ?_ (hholds field List.mem_cons_self) hparts)
    · intro type htype
      obtain ⟨other, hother, heq⟩ := List.mem_map.mp htype
      obtain ⟨hmem, hflattened⟩ := List.mem_filter.mp hother
      exact hmergeable type (List.mem_map.mpr
        ⟨other, List.mem_filter.mpr ⟨List.mem_cons_of_mem _ hmem, hflattened⟩, heq⟩)
    · exact fun hskip hflatten =>
        hmergeable _ (mem_flattenedTypes List.mem_cons_self hskip hflatten)

theorem StructField.Updates.properties {field : StructField ι} {update : ObjectParts → ObjectParts}
    (h : field.Updates inputs S components containerDefault update) (parts : ObjectParts) :
    if !field.skipped && !field.flatten then
      ∃ property, (update parts).properties = Entries.insert field.wire property parts.properties
    else (update parts).properties = parts.properties := by
  cases h with
  | skipped hskip =>
    rw [hskip, if_neg (by simp)]
    rfl
  | flattened hskip hflatten _ =>
    rw [hskip, hflatten, if_neg (by simp)]
    exact (flattenSchema_rest _ _ _).1
  | listed hskip hflatten _ =>
    rw [hskip, hflatten, if_pos (by decide)]
    exact ⟨_, rfl⟩

/-- The properties are those of the fields, and those that were there. -/
theorem get_properties_foldl {fields : List (StructField ι)} {updates : List (ObjectParts → ObjectParts)}
    (h : List.Forall₂ (StructField.Updates inputs S components containerDefault) fields updates)
    (parts : ObjectParts) (key : String) :
    (key ∈ ownWires fields → (Entries.get key
        (updates.foldl (fun parts update => update parts) parts).properties).isSome = true) ∧
      (key ∉ ownWires fields → Entries.get key
        (updates.foldl (fun parts update => update parts) parts).properties =
          Entries.get key parts.properties) := by
  induction h generalizing parts with
  | nil => exact ⟨nofun, fun _ => rfl⟩
  | @cons field update fields updates hupdate _ ih =>
    obtain ⟨ihin, ihout⟩ := ih (update parts)
    have hproperties := hupdate.properties parts
    have hwires : ownWires (field :: fields) =
        if !field.skipped && !field.flatten then field.wire :: ownWires fields
        else ownWires fields := by
      unfold ownWires
      rw [List.filter_cons]
      split <;> rfl
    rw [hwires]
    split at hproperties
    · rename_i hlisted
      obtain ⟨property, hproperty⟩ := hproperties
      rw [if_pos hlisted]
      -- a later field of the same name takes the place of the property
      refine ⟨fun hkey => ?_, fun hkey => ?_⟩
      · by_cases hrest : key ∈ ownWires fields
        · exact ihin hrest
        · obtain rfl := (List.mem_cons.mp hkey).resolve_right hrest
          rw [List.foldl_cons, ihout hrest, hproperty, Entries.get_insert, if_pos rfl]
          rfl
      · rw [List.mem_cons, not_or] at hkey
        rw [List.foldl_cons, ihout hkey.2, hproperty, Entries.get_insert, if_neg (Ne.symm hkey.1)]
    · rename_i hlisted
      rw [if_neg hlisted]
      refine ⟨ihin, fun hkey => ?_⟩
      rw [List.foldl_cons, ihout hkey, hproperties]

/-- Without flattened fields, no other properties are described. -/
theorem schema_foldl {fields : List (StructField ι)} {updates : List (ObjectParts → ObjectParts)}
    (h : List.Forall₂ (StructField.Updates inputs S components containerDefault) fields updates)
    (hflatten : (fields.any fun field => !field.skipped && field.flatten) = false)
    (parts : ObjectParts) :
    (updates.foldl (fun parts update => update parts) parts).schema = parts.schema := by
  induction h generalizing parts with
  | nil => rfl
  | cons hupdate _ ih =>
    rw [List.any_cons, Bool.or_eq_false_iff] at hflatten
    rw [List.foldl_cons, ih hflatten.2]
    cases hupdate with
    | skipped | listed => rfl
    | flattened hskip hflat =>
      rw [hskip, hflat] at hflatten
      cases hflatten.1

/-- Flattened fields describe no other keyword. -/
theorem only_foldl {fields : List (StructField ι)} {updates : List (ObjectParts → ObjectParts)}
    (h : List.Forall₂ (StructField.Updates inputs S components containerDefault) fields updates)
    {parts : ObjectParts}
    (hparts : ∀ key, key ≠ "additionalProperties" → Entries.get key parts.schema = none) :
    ∀ key, key ≠ "additionalProperties" → Entries.get key
      (updates.foldl (fun parts update => update parts) parts).schema = none := by
  induction h generalizing parts with
  | nil => exact hparts
  | @cons field update fields updates hupdate _ ih =>
    have hfirst : ∀ key, key ≠ "additionalProperties" →
        Entries.get key (update parts).schema = none := ?_
    · exact ih hfirst
    cases hupdate with
    | skipped | listed => exact hparts
    | @flattened schema =>
      intro key hkey
      show Entries.get key (flattenSchema parts schema field.type.optionInner.2).schema = none
      rw [flattenSchema_eq]
      split
      · rw [Entries.get_insert, if_neg (Ne.symm hkey)]
        exact hparts key hkey
      · exact hparts key hkey

end Parts

/-! ## Objects -/

/-- The keywords of a finished object that count. -/
theorem get_finish {parts : ObjectParts}
    (honly : ∀ key, key ≠ "additionalProperties" → Entries.get key parts.schema = none)
    (description : Option String) (strict : Bool) {key : String} (hkey : key ∈ assertions) :
    Entries.get key (entriesOf (parts.finish description strict)) =
      if key = "type" then some (.str "object")
      else if key = "properties" then some (.obj parts.properties)
      else if key = "required" then
        if parts.required.isEmpty then none else some (.arr (parts.required.map .str))
      else if key = "allOf" then if parts.allOf.isEmpty then none else some (.arr parts.allOf)
      else if key = "additionalProperties" then
        if strict then some (.bool false) else Entries.get "additionalProperties" parts.schema
      else none := by
  simp only [assertions, List.mem_cons, List.not_mem_nil, or_false] at hkey
  unfold ObjectParts.finish
  cases description <;> cases strict <;> cases parts.required.isEmpty <;>
    cases parts.allOf.isEmpty <;>
    rcases hkey with rfl | rfl | rfl | rfl | rfl | rfl | rfl | rfl | rfl | rfl | rfl | rfl | rfl |
      rfl | rfl <;>
    simp [entriesOf, honly]

theorem finish_eq (parts : ObjectParts) (description : Option String) (strict : Bool) :
    parts.finish description strict = .obj (entriesOf (parts.finish description strict)) := rfl

theorem valid_finish {parts : ObjectParts} {keys : List String} {whole : Entries}
    (h : parts.Sound components keys whole)
    (hkeys : ∀ key ∈ keys, (Entries.get key parts.properties).isSome = true)
    (description : Option String) {strict : Bool} (hstrict : strict = true → ∀ e ∈ whole, e.1 ∈ keys) :
    Valid components (parts.finish description strict) (.obj whole) := by
  have hget := fun (key : String) (hkey : key ∈ assertions) =>
    get_finish h.only description strict hkey
  rw [finish_eq]
  apply valid_object
  · exact hget "$ref" (by decide)
  · rw [typeHolds, hget "type" (by decide), hget "enum" (by decide)]
    rfl
  · exact hget "anyOf" (by decide)
  · exact hget "oneOf" (by decide)
  · intro list hlist part hpart
    rw [hget "allOf" (by decide)] at hlist
    simp only [reduceIte, String.reduceEq] at hlist
    split at hlist
    · cases hlist
    · cases hlist
      exact h.allOf part hpart
  · intro e he schema hschema
    unfold propertySchema at hschema
    rw [hget "properties" (by decide), hget "additionalProperties" (by decide)] at hschema
    simp only [reduceIte, String.reduceEq] at hschema
    cases hown : Entries.get e.1 parts.properties with
    | some own =>
      rw [hown] at hschema
      cases hschema
      exact h.properties e he _ hown
    | none =>
      -- the object has no property of its own for the key
      have hkey : e.1 ∉ keys := by
        intro hkey
        have hsome := hkeys e.1 hkey
        rw [hown] at hsome
        cases hsome
      rw [hown] at hschema
      cases hs : strict with
      | true => exact absurd (hstrict hs e he) hkey
      | false =>
        rw [hs] at hschema
        exact h.extra e he hkey schema hschema
  · intro names hnames name hname
    rw [hget "required" (by decide)] at hnames
    simp only [reduceIte, String.reduceEq] at hnames
    split at hnames
    · cases hnames
    · cases hnames
      obtain ⟨name', hname', heq⟩ := List.mem_map.mp hname
      cases heq
      exact h.required name hname'

/-- A struct that is closed for itself alone accepts no less than an open one when it is opened. -/
theorem valid_opened_finish {parts : ObjectParts} {keys : List String} {whole : Entries}
    (h : parts.Sound components keys whole)
    (hkeys : ∀ key ∈ keys, (Entries.get key parts.properties).isSome = true)
    (description : Option String) {strict : Bool} (hstrict : strict = true → parts.schema = []) :
    Valid components (opened (parts.finish description strict)) (.obj whole) := by
  have hopen : Valid components (parts.finish description false) (.obj whole) :=
    valid_finish h hkeys description fun hfalse => absurd hfalse Bool.false_ne_true
  cases strict with
  | false => exact hopen.opened
  | true =>
    have hextra : Entries.get "additionalProperties" parts.schema = none := by
      rw [hstrict rfl]
      rfl
    have hclosed := get_finish h.only description true
      (by decide : "additionalProperties" ∈ assertions)
    simp only [reduceIte, String.reduceEq] at hclosed
    rw [finish_eq, opened, if_pos hclosed]
    rw [finish_eq] at hopen
    refine hopen.congr fun key hkey => ?_
    rw [Entries.get_remove, get_finish h.only description true hkey,
      get_finish h.only description false hkey]
    -- the keyword that was removed is not in an open object either
    by_cases hadditional : key = "additionalProperties"
    · subst hadditional
      simp [hextra]
    · rw [if_neg (Ne.symm hadditional), if_neg hadditional, if_neg hadditional]

/-- What an object shows of a tag and of fields. -/
structure Shows (inputs : ι → DeriveInput ι) (S : Serializer .finite ι) (tag : Option (String × String))
    (containerDefault : Bool) (fields : List (StructField ι)) (whole : Entries) : Prop where
  fields : ∀ field ∈ fields, field.skipped = false →
    field.Holds inputs S containerDefault ((tag.map Prod.fst).toList ++ ownWires fields) whole
  tag : ∀ t ∈ tag, (t.1, Json.str t.2) ∈ whole ∧ ∀ e ∈ whole, e.1 = t.1 → e.2 = .str t.2

/-- The schema of an object accepts what shows its fields, and rejects another tag. -/
structure ObjectFits (inputs : ι → DeriveInput ι) (S : Serializer .finite ι)
    (components : String → Option Json) (tag : Option (String × String))
    (containerDefault closed : Bool) (fields : List (StructField ι)) (schema : Json) : Prop where
  obj : ∃ keywords, schema = .obj keywords
  mapValues : mapValues schema = none
  valid : ∀ whole, Shows inputs S tag containerDefault fields whole →
    (closed = true → ∀ e ∈ whole, e.1 ∈ (tag.map Prod.fst).toList ++ ownWires fields) →
      Valid components schema (.obj whole)
  opened : ∀ whole, Shows inputs S tag containerDefault fields whole →
    Valid components (opened schema) (.obj whole)
  tagged : ∀ t ∈ tag, t.1 ∉ ownWires fields → ∀ whole other, (t.1, Json.str other) ∈ whole →
    other ≠ t.2 → Invalid components schema (.obj whole)

theorem sound_tagged {tag : Option (String × String)} {containerDefault : Bool}
    {fields : List (StructField ι)} {whole : Entries}
    (h : Shows inputs S tag containerDefault fields whole) :
    (ObjectParts.tagged tag).Sound components ((tag.map Prod.fst).toList ++ ownWires fields) whole := by
  cases tag with
  | none =>
    refine ⟨?_, nofun, nofun, ?_, fun _ _ => rfl⟩
    · intro e _ schema hget
      cases hget
    · intro e _ _ schema hget
      cases hget
  | some t =>
    obtain ⟨hmem, honly⟩ := h.tag t rfl
    refine ⟨?_, ?_, nofun, ?_, fun _ _ => rfl⟩
    · intro e he schema hget
      simp only [ObjectParts.tagged, Entries.get_insert, Entries.get_nil] at hget
      split at hget
      · rename_i hkey
        cases hget
        rw [honly e he hkey.symm]
        exact valid_tag t.2
      · cases hget
    · intro name hname
      rw [List.mem_singleton.mp hname]
      exact contains_of_mem hmem
    · intro e _ _ schema hget
      cases hget

/-- **The object that the derive generates for fields.** -/
theorem objectPlan_fits (tag : Option (String × String)) (containerDefault : Bool)
    {fields : List (StructField ι)}
    (hdoc : ∀ field ∈ fields, field.skipped = false → field.doc.IsAnnotation)
    (hmergeable : ∀ type ∈ flattenedTypes fields, Mergeable inputs type)
    (description : Option String) (denyUnknown : Bool) :
    (objectPlan false fields tag description containerDefault denyUnknown).Makes
      (AskFits inputs S components)
      (ObjectFits inputs S components tag containerDefault
        (denyUnknown && !fields.any fun field => !field.skipped && field.flatten) fields) := by
  have hupdates : (Plan.list (fields.map (StructField.plan false containerDefault))).Makes
      (AskFits inputs S components)
      (List.Forall₂ (StructField.Updates inputs S components containerDefault) fields) :=
    Plan.Makes.list fun field _ => field.plan_updates containerDefault
  refine hupdates.map fun updates hupdates => ?_
  have hkeys : ∀ key ∈ (tag.map Prod.fst).toList ++ ownWires fields,
      (Entries.get key (updates.foldl (fun parts update => update parts)
        (ObjectParts.tagged tag)).properties).isSome = true := by
    intro key hkey
    obtain ⟨hin, hout⟩ := get_properties_foldl hupdates (ObjectParts.tagged tag) key
    by_cases hown : key ∈ ownWires fields
    · exact hin hown
    · rw [hout hown]
      cases tag with
      | none => exact absurd ((List.mem_append.mp hkey).resolve_right hown) List.not_mem_nil
      | some t =>
        have heq := List.mem_singleton.mp ((List.mem_append.mp hkey).resolve_right hown)
        rw [heq, ObjectParts.tagged, Entries.get_insert, if_pos rfl]
        rfl
  have hsound : ∀ whole, Shows inputs S tag containerDefault fields whole →
      (updates.foldl (fun parts update => update parts) (ObjectParts.tagged tag)).Sound components
        ((tag.map Prod.fst).toList ++ ownWires fields) whole :=
    fun whole hshows => sound_foldl hupdates hdoc hmergeable hshows.fields (sound_tagged hshows)
  -- a closed object flattens nothing, so nothing was said of other properties
  have hschema : (denyUnknown && !fields.any fun field => !field.skipped && field.flatten) = true →
      (updates.foldl (fun parts update => update parts) (ObjectParts.tagged tag)).schema = [] := by
    intro hclosed
    rw [Bool.and_eq_true, Bool.not_eq_true'] at hclosed
    rw [schema_foldl hupdates hclosed.2]
    cases tag <;> rfl
  have honly : ∀ key, key ≠ "additionalProperties" →
      Entries.get key (ObjectParts.tagged tag).schema = none := by
    cases tag <;> exact fun _ _ => rfl
  have hget := fun (key : String) (hkey : key ∈ assertions) =>
    get_finish (only_foldl hupdates honly) description
      (denyUnknown && !fields.any fun field => !field.skipped && field.flatten) hkey
  refine ⟨⟨_, rfl⟩, ?_, ?_, ?_, ?_⟩
  · -- the properties are always listed
    have hproperties := hget "properties" (by decide)
    simp only [reduceIte, String.reduceEq] at hproperties
    rw [finish_eq]
    simp [mapValues, isPureMap, Entries.contains, hproperties]
  · intro whole hshows hclosed
    exact valid_finish (hsound whole hshows) hkeys description hclosed
  · intro whole hshows
    exact valid_opened_finish (hsound whole hshows) hkeys description hschema
  · intro t ht hown whole other hmem hne
    obtain rfl : tag = some t := ht
    have htag : Entries.get t.1 (updates.foldl (fun parts update => update parts)
        (ObjectParts.tagged (some t))).properties = some (tagSchema t.2) := by
      rw [(get_properties_foldl hupdates _ t.1).2 hown, ObjectParts.tagged, Entries.get_insert,
        if_pos rfl]
    rw [finish_eq]
    -- the property of the tag is still there, and it has just one value
    have hinvalid : Invalid components (tagSchema t.2) (.str other) :=
      invalid_tag fun heq => hne (Json.str.inj heq)
    refine invalid_of_property hmem ?_ hinvalid
    unfold propertySchema
    rw [hget "properties" (by decide)]
    simp only [reduceIte, String.reduceEq, htag]

end OasRs.Schema
