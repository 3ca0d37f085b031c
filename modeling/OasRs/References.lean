import OasRs.Legible

/-!
# References

Where a schema refers to others: at the keys under which JSON Schema looks for subschemas, and
not in examples or other annotations. A generated body refers to what the schemas refer to that
it was given, and to nothing else.

## Main results

- `Cites`: a schema refers to another
- `plan_citesOnly`: the references of a generated body
- `inlined_citesOnly`: what an inline registry returns refers to nothing
-/

namespace OasRs.Schema

open Lib SchemaRegistry

variable {ι : Type}

/-! ## Where a schema refers to others -/

/-- The keys with a subschema. -/
def singleKeys : List String := ["items", "additionalProperties"]

/-- The keys with an array of subschemas. -/
def listKeys : List String := ["allOf", "anyOf", "oneOf", "prefixItems"]

/-- The schema has the reference, itself or in a subschema. -/
inductive Cites : Json → String → Prop where
  | ref {entries : Entries} {text : String} (h : Entries.get "$ref" entries = some (.str text)) :
      Cites (.obj entries) text
  | single {entries : Entries} {key text : String} {schema : Json} (hkey : key ∈ singleKeys)
      (h : Entries.get key entries = some schema) (hschema : Cites schema text) :
      Cites (.obj entries) text
  | list {entries : Entries} {key text : String} {schemas : List Json} {schema : Json}
      (hkey : key ∈ listKeys) (h : Entries.get key entries = some (.arr schemas))
      (hmem : schema ∈ schemas) (hschema : Cites schema text) : Cites (.obj entries) text
  | property {entries properties : Entries} {text : String} {e : String × Json}
      (h : Entries.get "properties" entries = some (.obj properties)) (hmem : e ∈ properties)
      (hschema : Cites e.2 text) : Cites (.obj entries) text

/-- Every reference of the schema satisfies `P`. -/
def CitesOnly (P : String → Prop) (schema : Json) : Prop := ∀ text, Cites schema text → P text

/-- What an entry of a schema adds to its references. -/
structure EntryCitesOnly (P : String → Prop) (key : String) (value : Json) : Prop where
  ref : key = "$ref" → ∀ text, value = .str text → P text
  single : key ∈ singleKeys → CitesOnly P value
  list : key ∈ listKeys → ∀ schemas, value = .arr schemas → ∀ schema ∈ schemas, CitesOnly P schema
  property : key = "properties" → ∀ properties, value = .obj properties →
    ∀ e ∈ properties, CitesOnly P e.2

/-- The keys that matter. -/
def citingKeys : List String := "$ref" :: "properties" :: singleKeys ++ listKeys

variable {P Q : String → Prop}

theorem CitesOnly.mono (h : ∀ text, P text → Q text) {schema : Json} (hs : CitesOnly P schema) :
    CitesOnly Q schema := fun text htext => h text (hs text htext)

/-- Annotations have no references. -/
theorem entryCitesOnly_of_notMem {key : String} (h : key ∉ citingKeys) (value : Json) :
    EntryCitesOnly P key value where
  ref hkey := absurd (hkey ▸ List.mem_cons_self) h
  single hkey := absurd (List.mem_cons_of_mem _ (List.mem_cons_of_mem _ (List.mem_append_left _ hkey))) h
  list hkey := absurd (List.mem_cons_of_mem _ (List.mem_cons_of_mem _ (List.mem_append_right _ hkey))) h
  property hkey := absurd (hkey ▸ List.mem_cons_of_mem _ List.mem_cons_self) h

theorem entryCitesOnly_single {key : String} {value : Json} (hkey : key ∈ singleKeys)
    (h : CitesOnly P value) : EntryCitesOnly P key value where
  ref heq := by
    subst heq
    simp [singleKeys] at hkey
  single _ := h
  list hlist := by
    simp only [singleKeys, listKeys, List.mem_cons, List.not_mem_nil, or_false] at hkey hlist
    rcases hkey with rfl | rfl <;> simp at hlist
  property heq := by
    subst heq
    simp [singleKeys] at hkey

theorem entryCitesOnly_list {key : String} {schemas : List Json} (hkey : key ∈ listKeys)
    (h : ∀ schema ∈ schemas, CitesOnly P schema) : EntryCitesOnly P key (.arr schemas) where
  ref heq := by
    subst heq
    simp [listKeys] at hkey
  single hsingle := by
    simp only [singleKeys, listKeys, List.mem_cons, List.not_mem_nil, or_false] at hkey hsingle
    rcases hsingle with rfl | rfl <;> simp at hkey
  list _ := by
    intro schemas' heq
    cases heq
    exact h
  property heq := by
    subst heq
    simp [listKeys] at hkey

theorem entryCitesOnly_properties {properties : Entries} (h : ∀ e ∈ properties, CitesOnly P e.2) :
    EntryCitesOnly P "properties" (.obj properties) where
  ref heq := absurd heq (by decide)
  single hsingle := absurd hsingle (by decide)
  list hlist := absurd hlist (by decide)
  property _ := by
    intro properties' heq
    cases heq
    exact h

/-- The references of an object are those of its entries. -/
theorem citesOnly_obj_iff {entries : Entries} : CitesOnly P (.obj entries) ↔
    ∀ key value, Entries.get key entries = some value → EntryCitesOnly P key value := by
  constructor
  · intro h key value hget
    refine ⟨?_, ?_, ?_, ?_⟩
    · rintro rfl text rfl
      exact h text (.ref hget)
    · intro hkey text htext
      exact h text (.single hkey hget htext)
    · rintro hkey schemas rfl schema hmem text htext
      exact h text (.list hkey hget hmem htext)
    · rintro rfl properties rfl e hmem text htext
      exact h text (.property hget hmem htext)
  · intro h text htext
    cases htext with
    | ref hget => exact (h _ _ hget).ref rfl text rfl
    | single hkey hget hschema => exact (h _ _ hget).single hkey text hschema
    | list hkey hget hmem hschema => exact (h _ _ hget).list hkey _ rfl _ hmem text hschema
    | property hget hmem hschema => exact (h _ _ hget).property rfl _ rfl _ hmem text hschema

theorem citesOnly_of_not_obj {schema : Json} (h : ∀ entries, schema ≠ .obj entries) :
    CitesOnly P schema := by
  intro text htext
  cases htext <;> exact absurd rfl (h _)

theorem citesOnly_null : CitesOnly P .null := citesOnly_of_not_obj (by simp)

theorem CitesOnly.insert {entries : Entries} (h : CitesOnly P (.obj entries)) {key : String}
    {value : Json} (hvalue : EntryCitesOnly P key value) :
    CitesOnly P (.obj (Entries.insert key value entries)) := by
  rw [citesOnly_obj_iff] at h ⊢
  intro key' value' hget
  rw [Entries.get_insert] at hget
  split at hget
  · rename_i heq
    cases hget
    exact heq ▸ hvalue
  · exact h key' value' hget

theorem CitesOnly.remove {entries : Entries} (h : CitesOnly P (.obj entries)) (key : String) :
    CitesOnly P (.obj (Entries.remove key entries)) := by
  rw [citesOnly_obj_iff] at h ⊢
  intro key' value' hget
  rw [Entries.get_remove] at hget
  split at hget
  · cases hget
  · exact h key' value' hget

theorem citesOnly_nil : CitesOnly P (.obj []) := by
  rw [citesOnly_obj_iff]
  intro key value hget
  cases hget

/-- An annotation adds no references. -/
theorem CitesOnly.annotate {entries : Entries} (h : CitesOnly P (.obj entries)) {key : String}
    (hkey : key ∉ citingKeys) (value : Json) : CitesOnly P (.obj (Entries.insert key value entries)) :=
  h.insert (entryCitesOnly_of_notMem hkey value)

theorem CitesOnly.foldl {entries start : Entries} (hstart : CitesOnly P (.obj start))
    (h : ∀ e ∈ entries, EntryCitesOnly P e.1 e.2) :
    CitesOnly P (.obj (entries.foldl (fun m e => Entries.insert e.1 e.2 m) start)) := by
  induction entries generalizing start with
  | nil => exact hstart
  | cons e entries ih =>
    exact ih (hstart.insert (h e List.mem_cons_self)) fun e' he' => h e' (List.mem_cons_of_mem _ he')

theorem citesOnly_object {entries : Entries} (h : ∀ e ∈ entries, EntryCitesOnly P e.1 e.2) :
    CitesOnly P (.object entries) :=
  citesOnly_nil.foldl h

theorem entryCitesOnly_ref {text : String} (h : P text) : EntryCitesOnly P "$ref" (.str text) where
  ref _ := by
    rintro text' ⟨⟩
    exact h
  single hkey := absurd hkey (by decide)
  list hkey := absurd hkey (by decide)
  property hkey := absurd hkey (by decide)

theorem citesOnly_reference {component : String} (h : P ("#/components/schemas/" ++ component)) :
    CitesOnly P (reference component) := by
  apply citesOnly_object
  intro e he
  obtain rfl := List.mem_singleton.mp he
  exact entryCitesOnly_ref h

/-- An object of annotations alone. -/
theorem citesOnly_annotations {entries : Entries} (h : ∀ e ∈ entries, e.1 ∉ citingKeys) :
    CitesOnly P (.object entries) :=
  citesOnly_object fun e he => entryCitesOnly_of_notMem (h e he) e.2

/-! ## Types -/

theorem optionSchema_citesOnly {schema : Json} (h : CitesOnly P schema) :
    CitesOnly P (optionSchema schema) := by
  have hnull : CitesOnly P (.object [("type", .str "null")]) :=
    citesOnly_annotations (by decide)
  apply citesOnly_object
  intro e he
  obtain rfl := List.mem_singleton.mp he
  apply entryCitesOnly_list (by decide : "anyOf" ∈ listKeys)
  rw [List.forall_mem_cons, List.forall_mem_singleton]
  exact ⟨h, hnull⟩

/-- A wrapper refers to what is wrapped. -/
theorem citesOnly_wrapper {key : String} {schema : Json} (hkey : key ∈ singleKeys)
    (h : CitesOnly P schema) (kind : Json) : CitesOnly P (.object [("type", kind), (key, schema)]) := by
  apply citesOnly_object
  rw [List.forall_mem_cons, List.forall_mem_singleton]
  exact ⟨entryCitesOnly_of_notMem (by decide : "type" ∉ citingKeys) kind, entryCitesOnly_single hkey h⟩

theorem Scalar.schema_citesOnly (type : Scalar) : CitesOnly P type.schema := by
  cases type with
  | int kind =>
    apply citesOnly_annotations
    simp only [List.forall_mem_cons, List.not_mem_nil, false_implies, implies_true, and_true]
    decide
  | string | bool | isize | usize | f32 | f64 | uuid | value =>
    exact citesOnly_annotations (by decide)

theorem RustType.schemaFor_citesOnly {leaf : ι → Json} (h : ∀ i, CitesOnly P (leaf i))
    (type : RustType ι) : CitesOnly P (type.schemaFor leaf) := by
  induction type with
  | scalar type => exact type.schema_citesOnly
  | named type => exact h type
  | option inner ih => exact optionSchema_citesOnly ih
  | vec inner ih => exact citesOnly_wrapper (by decide) ih _
  | map inner ih => exact citesOnly_wrapper (by decide) ih _
  | ref inner ih | box inner ih => exact ih

theorem RustType.plan_citesOnly (question : ι → Ask ι) (type : RustType ι) :
    (type.plan question).Yields (CitesOnly P) (CitesOnly P) := by
  unfold RustType.plan
  split
  · exact .const (type.schemaFor_citesOnly fun _ => citesOnly_null)
  · exact (Plan.Yields.ask citesOnly_null _).map fun schema h => type.schemaFor_citesOnly fun _ => h

/-! ## Objects -/

/-- The references of what has been collected for an object. -/
structure ObjectParts.CitesOnly (P : String → Prop) (parts : ObjectParts) : Prop where
  properties : ∀ e ∈ parts.properties, Schema.CitesOnly P e.2
  allOf : ∀ schema ∈ parts.allOf, Schema.CitesOnly P schema
  schema : Schema.CitesOnly P (.obj parts.schema)

theorem keyword_notMem (keyword : Keyword) : keyword.text ∉ citingKeys := by
  cases keyword <;> decide

theorem decorate_citesOnly {schema : Json} (h : CitesOnly P schema) (doc : FieldDoc) :
    CitesOnly P (doc.decorate schema) := by
  cases schema with
  | obj entries =>
    have hentries : ∀ (added : List (Keyword × Json)) (start : Entries), CitesOnly P (.obj start) →
        CitesOnly P (.obj (added.foldl (fun entries entry =>
          Entries.insert entry.1.text entry.2 entries) start)) := by
      intro added
      induction added with
      | nil => exact fun start hstart => hstart
      | cons entry added ih =>
        intro start hstart
        exact ih _ (hstart.annotate (keyword_notMem entry.1) entry.2)
    apply hentries
    cases doc.description with
    | none =>
      split
      · exact h.annotate (by decide) _
      · exact h
    | some text =>
      have hdescription := h.annotate (by decide : "description" ∉ citingKeys) (.str text)
      split
      · exact hdescription.annotate (by decide) _
      · exact hdescription
  | null | bool _ | num _ | str _ | arr _ => exact h

theorem direction_citesOnly {schema : Json} (h : CitesOnly P schema) (field : StructField ι) :
    CitesOnly P (field.direction schema) := by
  cases schema with
  | obj entries =>
    simp only [StructField.direction]
    split
    · exact h.annotate (by decide) _
    · split
      · exact h.annotate (by decide) _
      · exact h
  | null | bool _ | num _ | str _ | arr _ => exact h

theorem plainObject_citesOnly : CitesOnly P plainObject := citesOnly_annotations (by decide)

theorem opened_citesOnly {schema : Json} (h : CitesOnly P schema) : CitesOnly P (opened schema) := by
  cases schema with
  | obj entries =>
    simp only [opened]
    split
    · exact h.remove _
    · exact h
  | null | bool _ | num _ | str _ | arr _ => exact h

theorem flattenSchema_citesOnly {parts : ObjectParts} (hparts : parts.CitesOnly P) {schema : Json}
    (h : CitesOnly P schema) (optional : Bool) : (flattenSchema parts schema optional).CitesOnly P := by
  rw [flattenSchema_eq]
  split
  · -- a pure map gives its values away
    rename_i extra hvalues
    refine { hparts with schema := hparts.schema.insert (entryCitesOnly_single (by decide) ?_) }
    cases schema with
    | obj entries =>
      simp only [mapValues] at hvalues
      split at hvalues
      · exact (citesOnly_obj_iff.mp h "additionalProperties" extra hvalues).single (by decide)
      · cases hvalues
    | null | bool _ | num _ | str _ | arr _ => cases hvalues
  · refine { hparts with allOf := ?_ }
    rw [List.forall_mem_append]
    refine ⟨hparts.allOf, ?_⟩
    rw [List.forall_mem_singleton]
    unfold flattenedPart
    split
    · apply citesOnly_object
      rw [List.forall_mem_singleton]
      apply entryCitesOnly_list (by decide : "anyOf" ∈ listKeys)
      rw [List.forall_mem_cons, List.forall_mem_singleton]
      exact ⟨opened_citesOnly h, plainObject_citesOnly⟩
    · exact opened_citesOnly h

theorem tagSchema_citesOnly (value : String) : CitesOnly P (tagSchema value) := by
  apply citesOnly_annotations
  rw [List.forall_mem_cons, List.forall_mem_singleton]
  exact ⟨by decide, (by decide : "enum" ∉ citingKeys)⟩

theorem tagged_citesOnly (tag : Option (String × String)) :
    (ObjectParts.tagged tag).CitesOnly P := by
  cases tag with
  | none => exact ⟨nofun, nofun, citesOnly_nil⟩
  | some tag =>
    refine ⟨?_, nofun, citesOnly_nil⟩
    intro e he
    obtain rfl := List.mem_singleton.mp he
    exact tagSchema_citesOnly _

theorem finish_citesOnly {parts : ObjectParts} (h : parts.CitesOnly P) (description : Option String)
    (strict : Bool) : CitesOnly P (parts.finish description strict) := by
  have htype := h.schema.annotate (by decide : "type" ∉ citingKeys) (.str "object")
  unfold ObjectParts.finish
  -- the entries are added one after the other
  extract_lets schema₁ schema₂ schema₃ schema₄ schema₅
  have h₂ : CitesOnly P (.obj schema₂) := by
    unfold schema₂
    cases description with
    | none => exact htype
    | some text => exact htype.annotate (by decide : "description" ∉ citingKeys) _
  have h₃ : CitesOnly P (.obj schema₃) := h₂.insert (entryCitesOnly_properties h.properties)
  have h₄ : CitesOnly P (.obj schema₄) := by
    unfold schema₄
    split
    · exact h₃
    · exact h₃.annotate (by decide) _
  have h₅ : CitesOnly P (.obj schema₅) := by
    unfold schema₅
    split
    · exact h₄
    · exact h₄.insert (entryCitesOnly_list (by decide) h.allOf)
  split
  · exact h₅.insert (entryCitesOnly_single (by decide) (citesOnly_of_not_obj (by simp)))
  · exact h₅

theorem statement_citesOnly (request containerDefault : Bool) (field : StructField ι) :
    (field.plan request containerDefault).Yields (CitesOnly P)
      fun update => ∀ parts : ObjectParts, parts.CitesOnly P → (update parts).CitesOnly P := by
  unfold StructField.plan
  split
  · exact .const fun _ h => h
  · split
    · refine (RustType.plan_citesOnly _ _).map ?_
      intro schema h parts hparts
      exact flattenSchema_citesOnly hparts h _
    · refine (RustType.plan_citesOnly _ _).map ?_
      intro schema h parts hparts
      refine { hparts with properties := ?_ }
      intro e he
      rcases Entries.mem_insert_key he with rfl | he
      · exact direction_citesOnly (decorate_citesOnly h _) field
      · exact hparts.properties e he

theorem objectPlan_citesOnly (request : Bool) (fields : List (StructField ι))
    (tag : Option (String × String)) (description : Option String)
    (containerDefault denyUnknown : Bool) :
    (objectPlan request fields tag description containerDefault denyUnknown).Yields (CitesOnly P)
      (CitesOnly P) := by
  have hupdates : (Plan.list (fields.map (StructField.plan request containerDefault))).Yields
      (CitesOnly P) fun updates => ∀ update ∈ updates, ∀ parts : ObjectParts, parts.CitesOnly P →
        (update parts).CitesOnly P := Plan.Yields.list ?_
  · refine hupdates.map ?_
    intro updates hupdates
    apply finish_citesOnly
    -- each field keeps the references in order
    have hfold : ∀ (updates : List (ObjectParts → ObjectParts)) (start : ObjectParts),
        start.CitesOnly P → (∀ update ∈ updates, ∀ parts : ObjectParts, parts.CitesOnly P →
          (update parts).CitesOnly P) →
        (updates.foldl (fun parts update => update parts) start).CitesOnly P := by
      intro updates
      induction updates with
      | nil => exact fun start hstart _ => hstart
      | cons update updates ih =>
        intro start hstart h
        rw [List.forall_mem_cons] at h
        exact ih _ (h.1 start hstart) h.2
    exact hfold updates _ (tagged_citesOnly tag) hupdates
  · intro p hp
    obtain ⟨field, _, rfl⟩ := List.mem_map.mp hp
    exact statement_citesOnly request containerDefault field

/-! ## Enums -/

/-- An object with the given properties. -/
theorem citesOnly_withProperties {properties : Entries} (h : ∀ e ∈ properties, CitesOnly P e.2)
    (required : Json) : CitesOnly P (.object [("type", .str "object"),
      ("properties", .object properties), ("required", required)]) := by
  apply citesOnly_object
  rw [List.forall_mem_cons, List.forall_mem_cons, List.forall_mem_singleton]
  refine ⟨entryCitesOnly_of_notMem (by decide : "type" ∉ citingKeys) _, ?_,
    entryCitesOnly_of_notMem (by decide : "required" ∉ citingKeys) _⟩
  apply entryCitesOnly_properties
  -- what is inserted comes from the list
  have hfoldl : ∀ (added start : Entries), (∀ e ∈ start, CitesOnly P e.2) →
      (∀ e ∈ added, CitesOnly P e.2) →
      ∀ e ∈ added.foldl (fun m e => Entries.insert e.1 e.2 m) start, CitesOnly P e.2 := by
    intro added
    induction added with
    | nil => exact fun start hstart _ => hstart
    | cons e added ih =>
      intro start hstart hadded
      rw [List.forall_mem_cons] at hadded
      apply ih _ _ hadded.2
      intro e' he'
      rcases Entries.mem_insert_key he' with rfl | he'
      · exact hadded.1
      · exact hstart e' he'
  exact hfoldl properties [] nofun h

theorem tagObject_citesOnly (tag wire : String) : CitesOnly P (tagObject tag wire) := by
  apply citesOnly_withProperties
  rw [List.forall_mem_singleton]
  exact tagSchema_citesOnly wire

theorem alternativeOf_citesOnly (wire : String) (tagging : Tagging) {payload : Option Json}
    (h : ∀ schema ∈ payload, CitesOnly P schema) :
    CitesOnly P (alternativeOf wire tagging payload) := by
  have hnull : CitesOnly P (.object [("type", .str "null")]) :=
    citesOnly_annotations (by decide)
  cases payload with
  | none =>
    cases tagging with
    | external => exact tagSchema_citesOnly wire
    | adjacent tag content => exact tagObject_citesOnly tag wire
    | internal _ | untagged => exact hnull
  | some schema =>
    have hschema := h schema rfl
    cases tagging with
    | external =>
      apply citesOnly_withProperties
      rw [List.forall_mem_singleton]
      exact hschema
    | adjacent tag content =>
      apply citesOnly_withProperties
      rw [List.forall_mem_cons, List.forall_mem_singleton]
      exact ⟨tagSchema_citesOnly wire, hschema⟩
    | internal _ | untagged => exact hschema

theorem payloadPlan_citesOnly (request : Bool) (variant : Variant ι) :
    (variant.payloadPlan request).Yields (CitesOnly P)
      fun payload => ∀ schema ∈ payload, CitesOnly P schema := by
  unfold Variant.payloadPlan
  cases variant.payload with
  | unit => exact .const nofun
  | newtype type =>
    refine (type.plan_citesOnly _).map ?_
    rintro schema h _ ⟨⟩
    exact h
  | tuple types =>
    have hitems : (Plan.list (types.map (RustType.plan .mention))).Yields (CitesOnly P)
        fun schemas => ∀ schema ∈ schemas, CitesOnly P schema := by
      apply Plan.Yields.list
      intro p hp
      obtain ⟨type, _, rfl⟩ := List.mem_map.mp hp
      exact type.plan_citesOnly _
    refine hitems.map ?_
    rintro items h _ ⟨⟩
    apply citesOnly_object
    rw [List.forall_mem_cons, List.forall_mem_cons, List.forall_mem_cons, List.forall_mem_singleton]
    exact ⟨entryCitesOnly_of_notMem (by decide : "type" ∉ citingKeys) _,
      entryCitesOnly_list (by decide : "prefixItems" ∈ listKeys) h,
      entryCitesOnly_of_notMem (by decide : "minItems" ∉ citingKeys) _,
      entryCitesOnly_of_notMem (by decide : "maxItems" ∉ citingKeys) _⟩
  | named fields =>
    refine (objectPlan_citesOnly _ _ _ _ _ _).map ?_
    rintro schema h _ ⟨⟩
    exact h

theorem internalNewtype_citesOnly (tag wire : String) {payload : Json} (h : CitesOnly P payload) :
    CitesOnly P (internalNewtype tag wire payload) := by
  have hparts : ObjectParts.CitesOnly P
      { properties := [], required := [], allOf := []
        schema := Entries.of [("type", .str "object"),
          ("properties", .object [(tag, tagSchema wire)]), ("required", .arr [.str tag])] } :=
    ⟨nofun, nofun, tagObject_citesOnly tag wire⟩
  have hflattened := flattenSchema_citesOnly hparts h false
  unfold internalNewtype
  simp only
  split
  · exact hflattened.schema
  · exact hflattened.schema.insert (entryCitesOnly_list (by decide) hflattened.allOf)

theorem Variant.plan_citesOnly (tagging : Tagging) (request : Bool) (variant : Variant ι) :
    (variant.plan tagging request).Yields (CitesOnly P) (CitesOnly P) := by
  have hpayload : ∀ tagging, ((variant.payloadPlan request).map
      (alternativeOf variant.wire tagging)).Yields (CitesOnly P) (CitesOnly P) := fun tagging =>
    (payloadPlan_citesOnly request variant).map fun _ h => alternativeOf_citesOnly _ _ h
  unfold Variant.plan
  cases variant.tagging tagging with
  | internal tag =>
    simp only [Variant.internalPlan]
    cases variant.payload with
    | unit | tuple _ => exact .const (tagObject_citesOnly tag variant.wire)
    | newtype type =>
      exact (type.optionInner.1.plan_citesOnly _).map fun _ h =>
        internalNewtype_citesOnly tag variant.wire h
    | named fields => exact objectPlan_citesOnly _ _ _ _ _ _
  | external | adjacent _ _ | untagged => exact hpayload _

/-- **A generated body** refers to what the schemas refer to that it is given. -/
theorem plan_citesOnly (request : Bool) (input : DeriveInput ι) :
    (input.plan request).Yields (CitesOnly P) (CitesOnly P) := by
  cases input with
  | struct _ input => exact objectPlan_citesOnly _ _ _ _ _ _
  | transparent type => exact type.plan_citesOnly _
  | enum _ input =>
    have hdescription : ∀ e ∈ input.descriptionEntry, EntryCitesOnly P e.1 e.2 := by
      intro e he
      unfold EnumInput.descriptionEntry at he
      obtain ⟨text, -, rfl⟩ := by simpa using he
      exact entryCitesOnly_of_notMem (by decide : "description" ∉ citingKeys) _
    show (input.plan request).Yields _ _
    unfold EnumInput.plan
    split
    · apply Plan.Yields.const
      apply citesOnly_object
      rw [List.forall_mem_append, List.forall_mem_cons, List.forall_mem_singleton]
      exact ⟨hdescription, entryCitesOnly_of_notMem (by decide : "type" ∉ citingKeys) _,
        entryCitesOnly_of_notMem (by decide : "enum" ∉ citingKeys) _⟩
    · have halternatives : (Plan.list (input.variants.map (Variant.plan input.tagging request))).Yields
          (CitesOnly P) fun schemas => ∀ schema ∈ schemas, CitesOnly P schema := by
        apply Plan.Yields.list
        intro p hp
        obtain ⟨variant, _, rfl⟩ := List.mem_map.mp hp
        exact variant.plan_citesOnly _ _
      refine halternatives.map ?_
      intro alternatives h
      apply citesOnly_object
      rw [List.forall_mem_append, List.forall_mem_singleton]
      refine ⟨hdescription, entryCitesOnly_list ?_ h⟩
      show input.combinator ∈ listKeys
      unfold EnumInput.combinator
      split <;> decide

/-! ## Inline registries -/

variable [DecidableEq ι] {inputs : ι → DeriveInput ι}

/-- The schema refers to nothing. -/
def Refless (schema : Json) : Prop := CitesOnly (fun _ => False) schema

theorem Refless.citesOnly {schema : Json} (h : Refless schema) : CitesOnly P schema :=
  CitesOnly.mono (fun _ => False.elim) h

theorem ensures_define {i : ι} {name : String} {build : Gen ι Json}
    (h : Ensures (fun r => r.inline = true) Refless build) :
    Ensures (fun r => r.inline = true) Refless (define i name build) := by
  intro r schema r' hr hrun
  by_cases hstack : i ∈ r.stack
  · rw [define_of_cut hr hstack] at hrun
    cases hrun
    exact ⟨hr, plainObject_citesOnly⟩
  · rw [define_of_inline hr hstack] at hrun
    obtain ⟨⟨schema', r₁⟩, hbuild, heq⟩ := Option.map_eq_some_iff.mp hrun
    cases heq
    have hresult := h { r with stack := r.stack ++ [i] } schema' r₁ hr hbuild
    exact hresult

/-- A call on an inline registry returns a schema without references. -/
theorem ensures_inlined (fuel : ℕ) (request : Bool) (i : ι) :
    Ensures (fun r => r.inline = true) Refless (derived inputs fuel request i) := by
  induction fuel generalizing request i with
  | zero =>
    intro r schema r' _ hrun
    cases hrun
  | succ fuel ih =>
    have hplan : ∀ request, Ensures (fun r => r.inline = true) Refless
        (((inputs i).plan request).run (Ask.run (derived inputs fuel) request)) := by
      intro request
      apply Ensures.run (plan_citesOnly request (inputs i))
      intro q _
      cases q with
      | mention k => exact ih request k
      | flattened k =>
        -- a fresh inline registry
        intro r schema r' hr hrun
        obtain ⟨_, hmap, heq⟩ := Option.bind_eq_some_iff.mp hrun
        obtain ⟨p, hp, rfl⟩ := Option.map_eq_some_iff.mp hmap
        cases heq
        exact ⟨hr, (ih request k .inlined p.1 p.2 rfl hp).2⟩
    cases hcomponent : (inputs i).component? with
    | some name =>
      rw [derived_of_some inputs fuel request hcomponent]
      split
      · intro r schema r' hr hrun
        rw [defineInput, if_pos hr] at hrun
        exact ensures_define (hplan true) r schema r' hr hrun
      · exact ensures_define (hplan false)
    | none =>
      rw [derived_of_none inputs fuel request hcomponent]
      exact hplan request

/-- What an inline registry returns refers to nothing. -/
theorem inlined_citesOnly {request : Bool} {i : ι} {schema : Json}
    (h : Inlined inputs request i schema) : CitesOnly P schema := by
  obtain ⟨fuel, r, hrun⟩ := h
  exact (ensures_inlined fuel request i .inlined schema r rfl hrun).2.citesOnly

/-! ## Answers -/

/-- An answer refers to the form of the component that the type comes to. -/
theorem Answers.citesOnly {differs : Finset ι} {request : Bool} {i : ι} {schema : Json}
    (h : Answers inputs differs request i schema) :
    CitesOnly (fun text => ∃ c name, Leads inputs i c ∧ (inputs c).component? = some name ∧
      text = "#/components/schemas/" ++ formName differs request c name) schema := by
  induction h with
  | @component i name hname =>
    exact citesOnly_reference ⟨i, name, .component hname, hname, rfl⟩
  | forward htransparent hk _ ih =>
    apply RustType.schemaFor_citesOnly
    intro _
    refine ih.mono ?_
    rintro text ⟨c, name, hleads, hname, rfl⟩
    exact ⟨c, name, .forward (forwards_of_transparent htransparent hk) hleads, hname, rfl⟩
  | scalar _ _ => exact RustType.schemaFor_citesOnly (fun _ => citesOnly_null) _

/-- **A body** refers to the forms of the types that it mentions. -/
theorem Body.citesOnly {differs : Finset ι} {request : Bool} {i : ι} {schema : Json}
    (h : Body inputs differs request i schema) :
    CitesOnly (fun text => ∃ c name, Mentions inputs i c ∧ (inputs c).component? = some name ∧
      text = "#/components/schemas/" ++ formName differs request c name) schema := by
  obtain ⟨answers, hanswers, rfl⟩ := h
  apply plan_citesOnly
  intro schema hschema
  obtain ⟨n, hn, rfl⟩ := List.getElem_of_mem hschema
  have hlength := hanswers.length_eq
  have hask := hanswers.get (i := n) (by omega) hn
  have hmem : (inputs i).asks.get ⟨n, by omega⟩ ∈ (inputs i).asks := List.get_mem _ _
  generalize (inputs i).asks.get ⟨n, by omega⟩ = q at hask hmem
  cases q with
  | mention k =>
    refine (Answers.citesOnly hask).mono ?_
    rintro text ⟨c, name, hleads, hname, rfl⟩
    exact ⟨c, name, ⟨k, hmem, hleads⟩, hname, rfl⟩
  | flattened k => exact inlined_citesOnly hask

end OasRs.Schema
