import OasRs.Derive
import OasRs.JsonSchema
import OasRs.Split

/-!
# Derived Structs as a Graph of Types

The bodies that the derive generates for structs without flattened fields, as functions of the
schemas of the derived types that their fields mention. This makes a finite set of such structs a
`TypeGraph`, if their names cannot conflict.

## Overview

- `RustType.named?`, `RustType.schemaFor`: the derived type in a field's type
- `StructInput.bodyFrom`, `body_eq`: a generated body without the registry
- `Structs`, `Structs.graph`: the graph
-/

namespace OasRs.Schema

open SchemaRegistry

variable {ι : Type}

/-! ## Field types -/

/-- The derived type that a type mentions, if it mentions one. -/
def RustType.named? : RustType ι → Option ι
  | .scalar _ => none
  | .named type => some type
  | .option inner => inner.named?
  | .vec inner => inner.named?
  | .ref inner => inner.named?
  | .box inner => inner.named?
  | .map inner => inner.named?

/-- The schema of a type, from the schemas of derived types. -/
def RustType.schemaFor (leaf : ι → Json) : RustType ι → Json
  | .scalar type => type.schema
  | .named type => leaf type
  | .option inner => optionSchema (inner.schemaFor leaf)
  | .vec inner => vecSchema (inner.schemaFor leaf)
  | .ref inner => inner.schemaFor leaf
  | .box inner => inner.schemaFor leaf
  | .map inner => mapSchema (inner.schemaFor leaf)

theorem schemaWith_of_none (named : Named ι) (request : Bool) (leaf : ι → Json) {type : RustType ι}
    (h : type.named? = none) :
    type.schemaWith named request = pure (type.schemaFor leaf) := by
  induction type with
  | scalar type => rfl
  | named type => cases h
  | option inner ih | vec inner ih | map inner ih =>
    rw [RustType.schemaWith, ih h, pure_bind]
    rfl
  | ref inner ih | box inner ih => exact ih h

theorem schemaWith_of_some (named : Named ι) (request : Bool) {type : RustType ι} {mentioned : ι}
    (h : type.named? = some mentioned) :
    type.schemaWith named request =
      named request mentioned >>= fun schema => pure (type.schemaFor fun _ => schema) := by
  induction type with
  | scalar type => cases h
  | named type =>
    obtain rfl := Option.some.inj h
    exact (bind_pure _).symm
  | option inner ih | vec inner ih | map inner ih =>
    rw [RustType.schemaWith, ih h, bind_assoc]
    simp only [pure_bind]
    rfl
  | ref inner ih | box inner ih => exact ih h

/-- Only the derived type that is mentioned counts. -/
theorem schemaFor_congr {type : RustType ι} {leaf leaf' : ι → Json}
    (h : ∀ mentioned, type.named? = some mentioned → leaf mentioned = leaf' mentioned) :
    type.schemaFor leaf = type.schemaFor leaf' := by
  induction type with
  | scalar type => rfl
  | named type => exact h type rfl
  | option inner ih => exact congrArg optionSchema (ih h)
  | vec inner ih => exact congrArg vecSchema (ih h)
  | map inner ih => exact congrArg mapSchema (ih h)
  | ref inner ih | box inner ih => exact ih h

/-! ## Bodies -/

/-- The property that the derive lists for a field. -/
def StructField.property (leaf : ι → Json) (field : StructField ι) : Json :=
  field.direction (field.doc.decorate (field.type.schemaFor leaf))

/-- The fields that are listed. -/
def StructInput.listed (input : StructInput ι) : List (StructField ι) :=
  input.fields.filter fun field => !field.skipped

/-- The derived types that fields mention, in order. -/
def refsOf (fields : List (StructField ι)) : List ι :=
  (fields.filter fun field => !field.skipped).filterMap fun field => field.type.named?

/-- The properties of fields, from the schemas of the derived types that they mention. -/
def propertiesFrom : List (StructField ι) → List Json → Entries
  | [], _ => []
  | field :: fields, schemas =>
    if field.skipped then propertiesFrom fields schemas
    else
      match field.type.named? with
      | none => (field.wire, field.property fun _ => .null) :: propertiesFrom fields schemas
      | some _ =>
        (field.wire, field.property fun _ => schemas.headD .null) ::
          propertiesFrom fields schemas.tail

/-- Whether a field is listed and required. -/
def StructField.isListedRequired (request containerDefault : Bool) (field : StructField ι) : Bool :=
  !field.skipped && (field.isRequired containerDefault && (!field.skipSerializingIf || request))

/-- The names that fields require. -/
def requiredOf (request containerDefault : Bool) (fields : List (StructField ι)) : List String :=
  (fields.filter (StructField.isListedRequired request containerDefault)).map StructField.wire

/-- The parts with one more property. -/
def ObjectParts.add (parts : ObjectParts) (field : StructField ι) (request containerDefault : Bool)
    (property : Json) : ObjectParts :=
  { parts with
    properties := Entries.insert field.wire property parts.properties
    required :=
      if field.isRequired containerDefault && (!field.skipSerializingIf || request) then
        parts.required ++ [field.wire] else parts.required }

section Statements

variable [DecidableEq ι] (named : Named ι) (request containerDefault : Bool)

/-- The statement for a field that mentions no derived type. -/
theorem statement_of_none {field : StructField ι} (hskip : field.skipped = false)
    (hflatten : field.flatten = false) (h : field.type.named? = none) (parts : ObjectParts) :
    field.statement named request containerDefault parts =
      pure (parts.add field request containerDefault (field.property fun _ => .null)) := by
  rw [StructField.statement, hskip, hflatten, schemaWith_of_none named request _ h]
  rfl

/-- The statement for a field that mentions one. -/
theorem statement_of_some {field : StructField ι} {mentioned : ι} (hskip : field.skipped = false)
    (hflatten : field.flatten = false) (h : field.type.named? = some mentioned)
    (parts : ObjectParts) :
    field.statement named request containerDefault parts =
      named request mentioned >>= fun schema =>
        pure (parts.add field request containerDefault (field.property fun _ => schema)) := by
  rw [StructField.statement, hskip, hflatten, schemaWith_of_some named request h]
  simp only [Bool.false_eq_true, if_false, bind_assoc, pure_bind]
  rfl

/-- The statements for fields without `flatten`. -/
theorem foldlM_statements {fields : List (StructField ι)}
    (hflatten : ∀ field ∈ fields, field.flatten = false) (parts : ObjectParts) :
    fields.foldlM (fun parts field => field.statement named request containerDefault parts) parts =
      (refsOf fields).mapM (named request) >>= fun schemas => pure { parts with
        properties := (propertiesFrom fields schemas).foldl
          (fun entries e => Entries.insert e.1 e.2 entries) parts.properties
        required := parts.required ++ requiredOf request containerDefault fields } := by
  induction fields generalizing parts with
  | nil => simp [refsOf, propertiesFrom, requiredOf]
  | cons field fields ih =>
    have hrest : ∀ field ∈ fields, field.flatten = false :=
      fun field hfield => hflatten field (List.mem_cons_of_mem _ hfield)
    have hfield : field.flatten = false := hflatten field List.mem_cons_self
    rw [List.foldlM_cons]
    cases hskip : field.skipped with
    | true =>
      have hrefs : refsOf (field :: fields) = refsOf fields := by simp [refsOf, hskip]
      have hrequired : requiredOf request containerDefault (field :: fields) =
          requiredOf request containerDefault fields := by
        simp [requiredOf, StructField.isListedRequired, hskip]
      rw [StructField.statement, if_pos hskip, pure_bind, ih hrest, hrefs, hrequired]
      simp only [propertiesFrom, hskip, if_true]
    | false =>
      -- the names that the field adds come before those of the others
      have hrequired : ∀ property, (parts.add field request containerDefault property).required ++
          requiredOf request containerDefault fields =
            parts.required ++ requiredOf request containerDefault (field :: fields) := by
        intro property
        simp only [ObjectParts.add, requiredOf, List.filter_cons, StructField.isListedRequired,
          hskip, Bool.not_false, Bool.true_and]
        split
        · rw [List.append_assoc]
          rfl
        · rfl
      cases hnamed : field.type.named? with
      | none =>
        have hrefs : refsOf (field :: fields) = refsOf fields := by simp [refsOf, hskip, hnamed]
        rw [statement_of_none named request containerDefault hskip hfield hnamed, pure_bind,
          ih hrest, hrefs]
        simp only [hrequired]
        simp only [propertiesFrom, hskip, hnamed, Bool.false_eq_true, if_false, List.foldl_cons]
        rfl
      | some mentioned =>
        have hrefs : refsOf (field :: fields) = mentioned :: refsOf fields := by
          simp [refsOf, hskip, hnamed]
        rw [statement_of_some named request containerDefault hskip hfield hnamed, hrefs,
          List.mapM_cons]
        simp only [bind_assoc, pure_bind, ih hrest, hrequired]
        simp only [propertiesFrom, hskip, hnamed, Bool.false_eq_true, if_false, List.foldl_cons,
          List.headD_cons, List.tail_cons]
        rfl

end Statements

/-- The body of a struct, from the schemas of the derived types that it mentions. -/
def StructInput.bodyFrom (input : StructInput ι) (request : Bool) (schemas : List Json) : Json :=
  ObjectParts.finish
    { properties := Entries.of (propertiesFrom input.fields schemas)
      required := requiredOf request input.default input.fields
      allOf := []
      schema := [] }
    input.description input.denyUnknownFields

/-- **A generated body asks for the derived types that it mentions, in order**, and depends on
    nothing else. -/
theorem body_eq [DecidableEq ι] {input : StructInput ι}
    (hflatten : ∀ field ∈ input.fields, field.flatten = false) (named : Named ι) (request : Bool) :
    input.body named request =
      (refsOf input.fields).mapM (named request) >>= fun schemas =>
        pure (input.bodyFrom request schemas) := by
  have hno : (input.fields.any fun field => !field.skipped && field.flatten) = false := by
    rw [List.any_eq_false]
    intro field hfield
    simp [hflatten field hfield]
  rw [StructInput.body, objectSchema, foldlM_statements named request input.default hflatten, hno]
  simp only [bind_assoc, pure_bind, Bool.not_false, Bool.and_true, List.nil_append]
  rfl

/-! ## Reading a body back -/

theorem get_of_notMem {key : String} {entries : Entries} (h : key ∉ entries.map Prod.fst) :
    Entries.get key entries = none := by
  induction entries with
  | nil => rfl
  | cons e entries ih =>
    rw [List.map_cons, List.mem_cons, not_or] at h
    rw [Entries.get, if_neg (Ne.symm h.1), ih h.2]

/-- Distinct keys keep their values. -/
theorem get_foldl_insert (key : String) {entries : Entries} (hnodup : (entries.map Prod.fst).Nodup)
    (start : Entries) :
    Entries.get key (entries.foldl (fun m e => Entries.insert e.1 e.2 m) start) =
      ((Entries.get key entries).orElse fun _ => Entries.get key start) := by
  induction entries generalizing start with
  | nil => rfl
  | cons e entries ih =>
    rw [List.map_cons, List.nodup_cons] at hnodup
    rw [List.foldl_cons, ih hnodup.2, Entries.get_insert, Entries.get]
    by_cases hkey : e.1 = key
    · rw [get_of_notMem (hkey ▸ hnodup.1), if_pos hkey, if_pos hkey]
      rfl
    · rw [if_neg hkey, if_neg hkey]

theorem get_of (key : String) {entries : Entries} (hnodup : (entries.map Prod.fst).Nodup) :
    Entries.get key (Entries.of entries) = Entries.get key entries := by
  rw [Entries.of, get_foldl_insert key hnodup]
  cases Entries.get key entries <;> rfl

/-- Values under distinct keys can be told apart. -/
theorem eq_of_get {entries entries' : Entries} (hkeys : entries.map Prod.fst = entries'.map Prod.fst)
    (hnodup : (entries.map Prod.fst).Nodup)
    (hget : ∀ key, Entries.get key entries = Entries.get key entries') : entries = entries' := by
  induction entries generalizing entries' with
  | nil => exact (List.map_eq_nil_iff.mp hkeys.symm).symm
  | cons e entries ih =>
    cases entries' with
    | nil => cases hkeys
    | cons e' entries' =>
      obtain ⟨key, value⟩ := e
      obtain ⟨key', value'⟩ := e'
      simp only [List.map_cons, List.cons.injEq] at hkeys
      obtain ⟨rfl, hrest⟩ := hkeys
      rw [List.map_cons, List.nodup_cons] at hnodup
      have hvalue := hget key
      simp only [Entries.get, if_true, Option.some.injEq] at hvalue
      subst hvalue
      congr 1
      apply ih hrest hnodup.2
      intro other
      by_cases hother : key = other
      · -- the key does not come again on either side
        subst hother
        rw [get_of_notMem hnodup.1, get_of_notMem (hrest ▸ hnodup.1)]
      · have hother' := hget other
        simpa only [Entries.get, if_neg hother] using hother'

/-- The entries of an object. -/
def entriesOf : Json → Entries
  | .obj entries => entries
  | _ => []

/-- The keywords of a generated body that count. -/
theorem get_bodyFrom (input : StructInput ι) (request : Bool) (schemas : List Json) {key : String}
    (hkey : key ∈ assertions) :
    Entries.get key (entriesOf (input.bodyFrom request schemas)) =
      if key = "type" then some (.str "object")
      else if key = "properties" then
        some (.obj (Entries.of (propertiesFrom input.fields schemas)))
      else if key = "required" then
        if (requiredOf request input.default input.fields).isEmpty then none
        else some (.arr ((requiredOf request input.default input.fields).map .str))
      else if key = "additionalProperties" then
        if input.denyUnknownFields then some (.bool false) else none
      else none := by
  simp only [assertions, List.mem_cons, List.not_mem_nil, or_false] at hkey
  unfold StructInput.bodyFrom ObjectParts.finish
  cases input.description <;> cases input.denyUnknownFields <;>
    cases (requiredOf request input.default input.fields).isEmpty <;>
    rcases hkey with rfl | rfl | rfl | rfl | rfl | rfl | rfl | rfl | rfl | rfl | rfl | rfl | rfl |
      rfl | rfl <;>
    simp [entriesOf]

/-! ## Annotations -/

/-- The attributes of a field that do not restrict its values. -/
def FieldDoc.IsAnnotation (doc : FieldDoc) : Prop :=
  ∀ entry ∈ doc.entries, entry.1 = .example ∨ entry.1 = .format

/-- Annotations leave the keywords that count alone. -/
theorem property_eq_obj {field : StructField ι} (hdoc : field.doc.IsAnnotation) {leaf : ι → Json}
    {keywords : Entries} (h : field.type.schemaFor leaf = .obj keywords) :
    ∃ keywords', field.property leaf = .obj keywords' ∧
      ∀ key ∈ assertions, Entries.get key keywords' = Entries.get key keywords := by
  have hinsert : ∀ {key name : String} {value : Json} {entries : Entries}, key ∈ assertions →
      name ∉ assertions → Entries.get key (Entries.insert name value entries) =
        Entries.get key entries := by
    intro key name value entries hkey hname
    rw [Entries.get_insert, if_neg]
    rintro rfl
    exact hname hkey
  have hfold : ∀ (written : List (Keyword × Json)) (entries : Entries),
      (∀ entry ∈ written, entry.1 = .example ∨ entry.1 = .format) → ∀ key ∈ assertions,
        Entries.get key (written.foldl (fun entries entry =>
          Entries.insert entry.1.text entry.2 entries) entries) = Entries.get key entries := by
    intro written
    induction written with
    | nil => exact fun _ _ _ _ => rfl
    | cons entry written ih =>
      intro entries hwritten key hkey
      rw [List.foldl_cons, ih _ (fun e he => hwritten e (List.mem_cons_of_mem _ he)) key hkey]
      apply hinsert hkey
      rcases hwritten entry List.mem_cons_self with heq | heq <;> rw [heq] <;> decide
  -- what the attributes of the field write
  obtain ⟨decorated, hdecorated, hcount⟩ : ∃ decorated,
      field.doc.decorate (.obj keywords) = .obj decorated ∧
        ∀ key ∈ assertions, Entries.get key decorated = Entries.get key keywords := by
    refine ⟨_, rfl, ?_⟩
    intro key hkey
    rw [hfold _ _ hdoc key hkey]
    have hdescription : Entries.get key ((field.doc.description.map fun text =>
        Entries.insert "description" (.str text) keywords).getD keywords) =
          Entries.get key keywords := by
      cases field.doc.description with
      | none => rfl
      | some text => exact hinsert hkey (by decide)
    split
    · rw [hinsert hkey (by decide), hdescription]
    · exact hdescription
  rw [StructField.property, h, hdecorated, StructField.direction]
  split
  · refine ⟨_, rfl, ?_⟩
    intro key hkey
    rw [hinsert hkey (by decide), hcount key hkey]
  · split
    · refine ⟨_, rfl, ?_⟩
      intro key hkey
      rw [hinsert hkey (by decide), hcount key hkey]
    · exact ⟨decorated, rfl, hcount⟩

/-- A schema is an object when the schema that it contains is one. -/
theorem schemaFor_eq_obj {type : RustType ι} {leaf : ι → Json}
    (h : ∀ mentioned, type.named? = some mentioned → ∃ keywords, leaf mentioned = .obj keywords) :
    ∃ keywords, type.schemaFor leaf = .obj keywords := by
  induction type with
  | scalar type => cases type <;> exact ⟨_, rfl⟩
  | named type => exact h type rfl
  | option inner ih | vec inner ih | map inner ih => exact ⟨_, rfl⟩
  | ref inner ih | box inner ih => exact ih h

/-! ## References in a body -/

theorem schemaFor_reference (type : RustType ι) (component : ι → String) :
    ∃ keywords, type.schemaFor (fun i => reference (component i)) = .obj keywords :=
  schemaFor_eq_obj fun _ _ => ⟨_, rfl⟩

/-- The component that a schema refers to can be read off it. -/
theorem component_of_schemaFor {type : RustType ι} {mentioned : ι} (h : type.named? = some mentioned)
    {c c' : String}
    (heq : ∀ key ∈ assertions,
      Entries.get key (entriesOf (type.schemaFor fun _ => reference c)) =
        Entries.get key (entriesOf (type.schemaFor fun _ => reference c'))) : c = c' := by
  induction type with
  | scalar type => cases h
  | named type =>
    have hget := heq "$ref" (by decide)
    simpa [RustType.schemaFor, reference, Json.object, Entries.of, entriesOf] using hget
  | option inner ih =>
    have hget := heq "anyOf" (by decide)
    have hinner : inner.schemaFor (fun _ => reference c) = inner.schemaFor fun _ => reference c' := by
      simpa [RustType.schemaFor, optionSchema, Json.object, Entries.of, entriesOf] using hget
    exact ih h (fun key _ => by rw [hinner])
  | vec inner ih =>
    have hget := heq "items" (by decide)
    have hinner : inner.schemaFor (fun _ => reference c) = inner.schemaFor fun _ => reference c' := by
      simpa [RustType.schemaFor, vecSchema, Json.object, Entries.of, entriesOf] using hget
    exact ih h (fun key _ => by rw [hinner])
  | map inner ih =>
    have hget := heq "additionalProperties" (by decide)
    have hinner : inner.schemaFor (fun _ => reference c) = inner.schemaFor fun _ => reference c' := by
      simpa [RustType.schemaFor, mapSchema, Json.object, Entries.of, entriesOf] using hget
    exact ih h (fun key _ => by rw [hinner])
  | ref inner ih | box inner ih => exact ih h heq

theorem component_of_property {field : StructField ι} (hdoc : field.doc.IsAnnotation)
    {mentioned : ι} (h : field.type.named? = some mentioned) {c c' : String}
    (heq : (field.property fun _ => reference c) = field.property fun _ => reference c') :
    c = c' := by
  obtain ⟨keywords, hkeywords⟩ := schemaFor_reference field.type fun _ => c
  obtain ⟨keywords', hkeywords'⟩ := schemaFor_reference field.type fun _ => c'
  obtain ⟨written, hwritten, hcount⟩ := property_eq_obj hdoc hkeywords
  obtain ⟨written', hwritten', hcount'⟩ := property_eq_obj hdoc hkeywords'
  have hsame : written = written' := by
    rw [hwritten, hwritten'] at heq
    exact Json.obj.inj heq
  apply component_of_schemaFor h
  intro key hkey
  rw [hkeywords, hkeywords']
  show Entries.get key keywords = Entries.get key keywords'
  rw [← hcount key hkey, ← hcount' key hkey, hsame]

/-- The names of the properties. -/
theorem keys_propertiesFrom (fields : List (StructField ι)) (schemas : List Json) :
    (propertiesFrom fields schemas).map Prod.fst =
      (fields.filter fun field => !field.skipped).map StructField.wire := by
  induction fields generalizing schemas with
  | nil => rfl
  | cons field fields ih =>
    unfold propertiesFrom
    cases hskip : field.skipped with
    | true => simp [hskip, ih]
    | false =>
      cases field.type.named? with
      | none => simp [hskip, ih]
      | some mentioned => simp [hskip, ih]

/-- The components that the properties refer to can be read off them. -/
theorem propertiesFrom_injective {fields : List (StructField ι)}
    (hdoc : ∀ field ∈ fields, field.doc.IsAnnotation) {cs cs' : List String}
    (hlength : cs.length = (refsOf fields).length) (hlength' : cs'.length = (refsOf fields).length)
    (heq : propertiesFrom fields (cs.map reference) = propertiesFrom fields (cs'.map reference)) :
    cs = cs' := by
  induction fields generalizing cs cs' with
  | nil =>
    rw [List.length_eq_zero_iff.mp hlength, List.length_eq_zero_iff.mp hlength']
  | cons field fields ih =>
    have hrest : ∀ field ∈ fields, field.doc.IsAnnotation :=
      fun field hfield => hdoc field (List.mem_cons_of_mem _ hfield)
    cases hskip : field.skipped with
    | true =>
      -- a field that is skipped, or not named, takes no component
      have hrefs : refsOf (field :: fields) = refsOf fields := by simp [refsOf, hskip]
      rw [hrefs] at hlength hlength'
      simp only [propertiesFrom, hskip, if_true] at heq
      exact ih hrest hlength hlength' heq
    | false =>
      cases hnamed : field.type.named? with
      | none =>
        have hrefs : refsOf (field :: fields) = refsOf fields := by simp [refsOf, hskip, hnamed]
        rw [hrefs] at hlength hlength'
        simp only [propertiesFrom, hskip, hnamed, Bool.false_eq_true, if_false, List.cons.injEq,
          true_and] at heq
        exact ih hrest hlength hlength' heq
      | some mentioned =>
        have hrefs : refsOf (field :: fields) = mentioned :: refsOf fields := by
          simp [refsOf, hskip, hnamed]
        rw [hrefs] at hlength hlength'
        -- a named one takes the first, which its property shows
        obtain ⟨c, cs, rfl⟩ := List.exists_cons_of_length_eq_add_one hlength
        obtain ⟨c', cs', rfl⟩ := List.exists_cons_of_length_eq_add_one hlength'
        simp only [propertiesFrom, hskip, hnamed, Bool.false_eq_true, if_false, List.cons.injEq,
          List.map_cons, List.headD_cons, List.tail_cons, Prod.mk.injEq, true_and] at heq
        rw [component_of_property (hdoc field List.mem_cons_self) hnamed heq.1,
          ih hrest (Nat.succ.inj hlength) (Nat.succ.inj hlength') heq.2]

/-! ## Required names -/

/-- A field that only requests require. -/
def StructInput.hasGap (input : StructInput ι) : Bool :=
  input.fields.any fun field =>
    !field.skipped && (field.isRequired input.default && field.skipSerializingIf)

theorem isListedRequired_of_no_gap {input : StructInput ι} (h : input.hasGap = false)
    {field : StructField ι} (hfield : field ∈ input.fields) :
    field.isListedRequired true input.default = field.isListedRequired false input.default := by
  have hno := List.any_eq_false.mp h field hfield
  revert hno
  unfold StructField.isListedRequired
  cases field.skipped <;> cases field.isRequired input.default <;>
    cases field.skipSerializingIf <;> simp

/-- Without such a field, requests and responses require the same. -/
theorem requiredOf_of_no_gap {input : StructInput ι} (h : input.hasGap = false) :
    requiredOf true input.default input.fields = requiredOf false input.default input.fields := by
  unfold requiredOf
  congr 1
  apply List.filter_congr
  intro field hfield
  exact isListedRequired_of_no_gap h hfield

/-- What a response requires, a request requires. -/
theorem isListedRequired_mono {field : StructField ι} {containerDefault : Bool}
    (h : field.isListedRequired false containerDefault = true) :
    field.isListedRequired true containerDefault = true := by
  simp only [StructField.isListedRequired, Bool.and_eq_true, Bool.or_true, and_true] at h ⊢
  exact ⟨h.1, h.2.1⟩

/-- With such a field, requests require more. -/
theorem length_requiredOf_lt {input : StructInput ι} (h : input.hasGap = true) :
    (requiredOf false input.default input.fields).length <
      (requiredOf true input.default input.fields).length := by
  rw [StructInput.hasGap, List.any_eq_true] at h
  obtain ⟨gap, hmem, hgap⟩ := h
  simp only [Bool.and_eq_true] at hgap
  have hrequest : gap.isListedRequired true input.default = true := by
    simp [StructField.isListedRequired, hgap]
  have hresponse : gap.isListedRequired false input.default = false := by
    simp [StructField.isListedRequired, hgap]
  have hmono : ∀ fields : List (StructField ι),
      fields.countP (StructField.isListedRequired false input.default) ≤
        fields.countP (StructField.isListedRequired true input.default) :=
    fun fields => List.countP_mono_left fun _ _ => isListedRequired_mono
  simp only [requiredOf, List.length_map, ← List.countP_eq_length_filter]
  -- the gap counts in requests alone
  obtain ⟨before, after, hfields⟩ := List.append_of_mem hmem
  rw [hfields, List.countP_append, List.countP_append, List.countP_cons_of_pos hrequest,
    List.countP_cons_of_neg (by rw [hresponse]; exact Bool.false_ne_true)]
  have hbefore := hmono before
  have hafter := hmono after
  omega

/-! ## The graph -/

/-- Derived structs without flattened fields, whose attributes do not restrict values and whose
    listed properties have names of their own. -/
structure Structs (ι : Type) where
  component : ι → String
  input : ι → StructInput ι
  flatten : ∀ i, ∀ field ∈ (input i).fields, field.flatten = false
  annotation : ∀ i, ∀ field ∈ (input i).fields, field.doc.IsAnnotation
  distinct : ∀ i, ((input i).listed.map StructField.wire).Nodup

namespace Structs

variable (structs : Structs ι)

/-- What the derive reads. -/
def derive (i : ι) : DeriveInput ι := .struct (structs.component i) (structs.input i)

theorem nodup_keys (i : ι) (schemas : List Json) :
    ((propertiesFrom (structs.input i).fields schemas).map Prod.fst).Nodup := by
  rw [keys_propertiesFrom]
  exact structs.distinct i

section Graph

variable (hinjective : Function.Injective structs.component)
  (hne : ∀ i j, structs.component i ≠ inputName (structs.component j))

/-- The structs as a graph of types, if their names cannot conflict. -/
def graph : TypeGraph ι where
  name := structs.component
  refs i := refsOf (structs.input i).fields
  gap i := (structs.input i).hasGap
  body i request schemas := (structs.input i).bodyFrom request schemas
  name_injective := hinjective
  name_ne_input := hne
  body_of_no_gap i h := by
    funext schemas
    rw [StructInput.bodyFrom, StructInput.bodyFrom, requiredOf_of_no_gap h]
  body_of_gap i h schemas schemas' heq := by
    have hlt := length_requiredOf_lt h
    have hrequired := congrArg (fun body => Entries.get "required" (entriesOf body)) heq
    simp only [get_bodyFrom _ _ _ (show "required" ∈ assertions by decide), reduceIte,
      String.reduceEq] at hrequired
    have hne : (requiredOf true (structs.input i).default (structs.input i).fields).isEmpty =
        false := by
      rw [List.isEmpty_eq_false_iff_exists_mem]
      exact List.exists_mem_of_length_pos (by omega)
    rw [hne, if_neg Bool.false_ne_true] at hrequired
    split at hrequired
    · cases hrequired
    · -- as many names on both sides
      have hsame := congrArg List.length (Json.arr.inj (Option.some.inj hrequired))
      rw [List.length_map, List.length_map] at hsame
      omega
  body_injective i request components components' hlength hlength' heq := by
    have hproperties := congrArg (fun body => Entries.get "properties" (entriesOf body)) heq
    simp only [get_bodyFrom _ _ _ (show "properties" ∈ assertions by decide), reduceIte,
      String.reduceEq, Option.some.injEq, Json.obj.injEq] at hproperties
    apply propertiesFrom_injective (structs.annotation i) hlength hlength'
    apply eq_of_get
    · rw [keys_propertiesFrom, keys_propertiesFrom]
    · exact structs.nodup_keys i _
    · intro key
      rw [← get_of key (structs.nodup_keys i _), ← get_of key (structs.nodup_keys i _), hproperties]

variable [DecidableEq ι]

/-- **What the derive generates for the structs** are the impls of the graph. -/
theorem derived_eq (fuel : ℕ) :
    derived structs.derive fuel = schemaOf (structs.graph hinjective hne).impl fuel := by
  unfold derived
  congr 1
  funext i
  show Impl.component _ _ = Impl.component _ _
  congr 1
  funext named request
  exact body_eq (structs.flatten i) named request

end Graph

end Structs

end OasRs.Schema
