import OasRs.Recursion
import OasRs.Serialization
import OasRs.Validity

/-!
# What a Schema can Describe

When the schemas of derived types describe what serde writes. JSON Schema does not merge objects: an
`allOf` part sees the properties of its neighbours. So what is written into one object must have names
that the others say nothing about, and a schema that is cut off at a recursion must only stand for
objects.

## Overview

- `Constrains`: the names that the schema of a type says something about
- `Mergeable`: the types that can be written into an object beside other things
- `Describable`: the conditions on derived types
- `merges_constrains`: what is written into an object has names that its schema knows
-/

namespace OasRs.Schema

open Lib Relation

variable {ι : Type}

/-! ## Names -/

/-- The types of the fields that are flattened, where an `Option` may write nothing. -/
def flattenedTypes (fields : List (StructField ι)) : List (RustType ι) :=
  (fields.filter fun field => !field.skipped && field.flatten).map fun field =>
    field.type.optionInner.1

def Payload.fields : Payload ι → List (StructField ι)
  | .named fields => fields
  | _ => []

def Payload.types : Payload ι → List (RustType ι)
  | .newtype type => [type]
  | _ => []

/-- What a variant writes beside its tag: the payload, unless that is the value of a key. -/
def Variant.spread (tagging : Tagging) (variant : Variant ι) : Payload ι :=
  match variant.tagging tagging with
  | .internal _ => variant.payload
  | .untagged => variant.payload
  | _ => .unit

/-- The keys of the tagging itself. -/
def Variant.labels (tagging : Tagging) (variant : Variant ι) : List String :=
  match variant.tagging tagging with
  | .external => [variant.wire]
  | .internal tag => [tag]
  | .adjacent tag content => [tag, content]
  | .untagged => []

/-- The names that the schema of a derived type has properties for, in one of its forms. -/
def DeriveInput.keys : DeriveInput ι → List String
  | .struct _ input => ownWires input.fields
  | .transparent _ => []
  | .enum _ input => input.variants.flatMap fun variant =>
      variant.labels input.tagging ++ ownWires (variant.spread input.tagging).fields

/-- The types that it flattens. -/
def DeriveInput.flattened : DeriveInput ι → List (RustType ι)
  | .struct _ input => flattenedTypes input.fields
  | .transparent _ => []
  | .enum _ input => input.variants.flatMap fun variant =>
      flattenedTypes (variant.spread input.tagging).fields

/-- The types whose values it writes into an object of its own, or as its own. -/
def DeriveInput.merged : DeriveInput ι → List (RustType ι)
  | .struct _ _ => []
  | .transparent _ => []
  | .enum _ input => input.variants.flatMap fun variant => (variant.spread input.tagging).types

/-- A struct that has no other properties. -/
def StructInput.closed (input : StructInput ι) : Bool :=
  input.denyUnknownFields && !input.fields.any fun field => !field.skipped && field.flatten

section Conditions

variable (inputs : ι → DeriveInput ι)

/-- The schema of a type says something about a key. A closed struct does so about every key, unless
    `flatten` opens it. -/
inductive Constrains : Bool → RustType ι → String → Prop where
  | map {flat : Bool} {inner : RustType ι} {key : String} : Constrains flat (.map inner) key
  | ref {flat : Bool} {inner : RustType ι} {key : String} (h : Constrains flat inner key) :
      Constrains flat (.ref inner) key
  | box {flat : Bool} {inner : RustType ι} {key : String} (h : Constrains flat inner key) :
      Constrains flat (.box inner) key
  | transparent {flat : Bool} {i : ι} {type : RustType ι} {key : String}
      (htype : inputs i = .transparent type) (h : Constrains flat type key) :
      Constrains flat (.named i) key
  | closed {i : ι} {name key : String} {input : StructInput ι} (hinput : inputs i = .struct name input)
      (h : input.closed = true) : Constrains false (.named i) key
  | own {flat : Bool} {i : ι} {key : String} (h : key ∈ (inputs i).keys) :
      Constrains flat (.named i) key
  | flattened {flat : Bool} {i : ι} {type : RustType ι} {key : String}
      (htype : type ∈ (inputs i).flattened) (h : Constrains true type key) :
      Constrains flat (.named i) key
  | merged {flat : Bool} {i : ι} {type : RustType ι} {key : String}
      (htype : type ∈ (inputs i).merged) (h : Constrains false type key) :
      Constrains flat (.named i) key

/-- A map, behind references and transparent types. -/
inductive IsMap : RustType ι → Prop where
  | map {inner : RustType ι} : IsMap (.map inner)
  | ref {inner : RustType ι} (h : IsMap inner) : IsMap (.ref inner)
  | box {inner : RustType ι} (h : IsMap inner) : IsMap (.box inner)
  | transparent {i : ι} {type : RustType ι} (htype : inputs i = .transparent type) (h : IsMap type) :
      IsMap (.named i)

/-- A type that is written into an object as its schema says: a map, a struct, or an enum without
    variants that become a key with `null`. -/
inductive Mergeable : RustType ι → Prop where
  | map {inner : RustType ι} : Mergeable (.map inner)
  | ref {inner : RustType ι} (h : Mergeable inner) : Mergeable (.ref inner)
  | box {inner : RustType ι} (h : Mergeable inner) : Mergeable (.box inner)
  | transparent {i : ι} {type : RustType ι} (htype : inputs i = .transparent type)
      (h : Mergeable type) : Mergeable (.named i)
  | struct {i : ι} {name : String} {input : StructInput ι} (hinput : inputs i = .struct name input) :
      Mergeable (.named i)
  | enum {i : ι} {name : String} {input : EnumInput ι} (hinput : inputs i = .enum name input)
      (hunit : ∀ variant ∈ input.variants, variant.payload = .unit →
        variant.tagging input.tagging ≠ .external ∧ variant.tagging input.tagging ≠ .untagged)
      (hmerged : ∀ type, type ∈ (inputs i).merged → Mergeable type) : Mergeable (.named i)

/-! ## Conditions -/

/-- The keys that the schema of a field is about. -/
def StructField.Claims (field : StructField ι) (key : String) : Prop :=
  if field.flatten then Constrains inputs true field.type.optionInner.1 key else field.wire = key

/-- A flattened map beside a field of its own name: the schema of the values is for all other keys. -/
def MapBeside (field other : StructField ι) : Prop :=
  field.flatten = true ∧ IsMap inputs field.type.optionInner.1 ∧ other.flatten = false

/-- Two fields that are about different keys. -/
def Apart (field other : StructField ι) : Prop :=
  field.skipped = false → other.skipped = false → ¬ MapBeside inputs field other →
    ¬ MapBeside inputs other field → ∀ key, ¬ (field.Claims inputs key ∧ other.Claims inputs key)

/-- Fields that are described together, in an object with a tag or without. -/
structure FieldsFit (tag : Option String) (containerDefault : Bool) (fields : List (StructField ι)) :
    Prop where
  /-- no attribute restricts the values of a field -/
  annotation : ∀ field ∈ fields, field.skipped = false → field.doc.IsAnnotation
  /-- a field that is never written is not required -/
  written : ∀ field ∈ fields, field.skipSerializing = true → field.isRequired containerDefault = false
  /-- a flattened field is written, unless it is an `Option` or a map -/
  always : ∀ field ∈ fields, field.skipped = false → field.flatten = true →
    (field.skipSerializing || field.skipSerializingIf) = true →
      field.type.optionInner.2 = true ∨ IsMap inputs field.type.optionInner.1
  /-- what is flattened can be -/
  mergeable : ∀ type ∈ flattenedTypes fields, Mergeable inputs type
  apart : fields.Pairwise (Apart inputs)
  tag : ∀ key ∈ tag, ∀ field ∈ fields, field.skipped = false →
    (field.flatten = true → ¬ IsMap inputs field.type.optionInner.1) → ¬ field.Claims inputs key

/-- The tag of the object that a variant writes its fields into. -/
def Variant.tag? (tagging : Tagging) (variant : Variant ι) : Option String :=
  match variant.tagging tagging with
  | .internal tag => some tag
  | _ => none

/-- Variants that are told apart. -/
structure VariantsFit (input : EnumInput ι) : Prop where
  /-- the names tell them apart, unless one alternative that fits is enough -/
  names : input.combinator = "oneOf" → (input.variants.map Variant.wire).Nodup
  /-- an enum of names alone has no variant without one -/
  plain : input.isPlain = true → ∀ variant ∈ input.variants, variant.untagged = false
  content : ∀ tag content, input.tagging = .adjacent tag content → tag ≠ content
  fields : ∀ variant ∈ input.variants, FieldsFit inputs (variant.tag? input.tagging) variant.default
    variant.payload.fields
  /-- a payload beside a tag can be written there, and its schema is not about the tag -/
  internal : ∀ variant ∈ input.variants, ∀ tag ∈ variant.tag? input.tagging,
    ∀ type ∈ variant.payload.types, type.optionInner.2 = false →
      Mergeable inputs type ∧ (IsMap inputs type ∨ ¬ Constrains inputs false type tag)

/-- Whether all values of a derived type are objects. -/
def WritesObjects (i : ι) : Prop :=
  ∀ depth value, (serializer .finite inputs depth).writes i value → ∃ entries, value = .obj entries

/-- Derived types whose schemas describe what serde writes. -/
structure Describable : Prop where
  struct : ∀ i name input, inputs i = .struct name input →
    FieldsFit inputs none input.default input.fields
  enum : ∀ i name input, inputs i = .enum name input → VariantsFit inputs input
  /-- where the schema of a flattened type is cut off, only objects are written -/
  cuts : ∀ i k c, Ask.flattened k ∈ (inputs i).asks →
    ReflTransGen (fun a b => Ask.mention b ∈ (inputs a).asks) k c →
      TransGen (fun a b => Ask.mention b ∈ (inputs a).asks) c c → WritesObjects inputs c

end Conditions

variable {inputs : ι → DeriveInput ι} {S : Serializer .finite ι}

theorem IsMap.constrains {type : RustType ι} (h : IsMap inputs type) (flat : Bool) (key : String) :
    Constrains inputs flat type key := by
  induction h with
  | map => exact .map
  | ref _ ih => exact .ref ih
  | box _ ih => exact .box ih
  | transparent htype _ ih => exact .transparent htype ih

/-- A component is no map. -/
theorem not_isMap {i : ι} {name : String} (h : (inputs i).component? = some name) :
    ¬ IsMap inputs (.named i) := by
  intro hmap
  cases hmap with
  | transparent htype _ =>
    rw [htype] at h
    cases h

/-! ## The fields of an object -/

theorem mem_ownWires {fields : List (StructField ι)} {field : StructField ι} (h : field ∈ fields)
    (hskip : field.skipped = false) (hflatten : field.flatten = false) :
    field.wire ∈ ownWires fields := by
  apply List.mem_map_of_mem
  exact List.mem_filter.mpr ⟨h, by simp [hskip, hflatten]⟩

theorem mem_flattenedTypes {fields : List (StructField ι)} {field : StructField ι} (h : field ∈ fields)
    (hskip : field.skipped = false) (hflatten : field.flatten = true) :
    field.type.optionInner.1 ∈ flattenedTypes fields :=
  List.mem_map.mpr ⟨field, List.mem_filter.mpr ⟨h, by simp [hskip, hflatten]⟩, rfl⟩

/-- Where an `Option` writes something, its value does. -/
theorem RustType.Merges.optionInner {type : RustType ι} {flat : Bool} {entries : Entries}
    {e : String × Json} (h : type.Merges S flat entries) (he : e ∈ entries) :
    type.optionInner.1.Merges S flat entries := by
  cases type with
  | option inner =>
    rcases h.2 with rfl | hinner
    · cases he
    · exact hinner
  | scalar _ | named _ | vec _ | ref _ | box _ | map _ => exact h

/-- An entry that a field has written. -/
theorem StructField.Writes.of_mem {beside : List String} {field : StructField ι} {entries : Entries}
    {e : String × Json} (h : field.Writes S beside entries) (he : e ∈ entries) :
    field.skipped = false ∧
      (field.flatten = false → e.1 = field.wire ∧ field.type.Writes S e.2) ∧
        (field.flatten = true → field.type.optionInner.1.Merges S true entries ∧ e.1 ∉ beside) := by
  rcases h with ⟨-, rfl⟩ | ⟨hwritten, h⟩
  · cases he
  refine ⟨by rw [StructField.skipped, hwritten, Bool.false_and], ?_, ?_⟩
  · intro hflatten
    rw [hflatten, if_neg Bool.false_ne_true] at h
    obtain ⟨value, hvalue, rfl⟩ := h
    obtain rfl := List.mem_singleton.mp he
    exact ⟨rfl, hvalue⟩
  · intro hflatten
    rw [hflatten, if_pos rfl] at h
    exact ⟨h.1.optionInner he, h.2 e he⟩

/-- Types whose entries have names that their schemas know. -/
def KeysKnown (inputs : ι → DeriveInput ι) (S : Serializer .finite ι) : Prop :=
  ∀ flat flat' type entries, Mergeable inputs type → type.Merges S flat entries →
    ∀ e ∈ entries, Constrains inputs flat' type e.1

/-- What fields write has names that one of them is about. -/
theorem WritesFields.claims (hS : KeysKnown inputs S) {fields : List (StructField ι)}
    (hmergeable : ∀ type ∈ flattenedTypes fields, Mergeable inputs type) {entries : Entries}
    (h : WritesFields S fields entries) {e : String × Json} (he : e ∈ entries) :
    ∃ field ∈ fields, field.skipped = false ∧ field.Claims inputs e.1 := by
  obtain ⟨written, hfields, hwrites, rfl⟩ := h
  obtain ⟨w, hw, hmem⟩ := List.mem_flatMap.mp he
  have hfield : w.1 ∈ fields := hfields ▸ List.mem_map_of_mem hw
  obtain ⟨hskip, hlisted, hflattened⟩ := (hwrites w hw).of_mem hmem
  refine ⟨w.1, hfield, hskip, ?_⟩
  unfold StructField.Claims
  split
  · rename_i hflatten
    exact hS _ _ _ _ (hmergeable _ (mem_flattenedTypes hfield hskip hflatten))
      (hflattened hflatten).1 e hmem
  · rename_i hflatten
    exact (hlisted (Bool.eq_false_iff.mpr hflatten)).1.symm

/-- The keys of a struct, or of a variant, that fields are about. -/
theorem claims_iff {fields : List (StructField ι)} {key : String} :
    (∃ field ∈ fields, field.skipped = false ∧ field.Claims inputs key) ↔
      key ∈ ownWires fields ∨ ∃ type ∈ flattenedTypes fields, Constrains inputs true type key := by
  constructor
  · rintro ⟨field, hfield, hskip, hclaims⟩
    unfold StructField.Claims at hclaims
    split at hclaims
    · rename_i hflatten
      exact .inr ⟨_, mem_flattenedTypes hfield hskip hflatten, hclaims⟩
    · rename_i hflatten
      exact .inl (hclaims ▸ mem_ownWires hfield hskip (Bool.eq_false_iff.mpr hflatten))
  · rintro (hkey | ⟨type, htype, hconstrains⟩)
    · obtain ⟨field, hmem, rfl⟩ := List.mem_map.mp hkey
      obtain ⟨hfield, hlisted⟩ := List.mem_filter.mp hmem
      simp only [Bool.and_eq_true, Bool.not_eq_true'] at hlisted
      refine ⟨field, hfield, hlisted.1, ?_⟩
      rw [StructField.Claims, hlisted.2, if_neg Bool.false_ne_true]
    · obtain ⟨field, hmem, rfl⟩ := List.mem_map.mp htype
      obtain ⟨hfield, hflattened⟩ := List.mem_filter.mp hmem
      simp only [Bool.and_eq_true, Bool.not_eq_true'] at hflattened
      refine ⟨field, hfield, hflattened.1, ?_⟩
      rwa [StructField.Claims, hflattened.2, if_pos rfl]

/-- The keys that a payload is about, where it is written into the object of its variant. -/
def Payload.About (inputs : ι → DeriveInput ι) (payload : Payload ι) (key : String) : Prop :=
  key ∈ ownWires payload.fields ∨
    (∃ type ∈ flattenedTypes payload.fields, Constrains inputs true type key) ∨
      ∃ type ∈ payload.types, Constrains inputs false type key

theorem Payload.Merges.about (hS : KeysKnown inputs S) {payload : Payload ι} {flat : Bool}
    (hfields : ∀ type ∈ flattenedTypes payload.fields, Mergeable inputs type) {entries : Entries}
    (h : payload.Merges S flat entries)
    (htypes : ∀ type ∈ payload.types, type.Merges S flat entries → Mergeable inputs type)
    {e : String × Json} (he : e ∈ entries) : payload.About inputs e.1 := by
  cases payload with
  | unit =>
    obtain rfl : entries = [] := h
    cases he
  | newtype type =>
    have hmergeable := htypes type (List.mem_singleton_self _) h
    exact .inr (.inr ⟨type, List.mem_singleton_self _, hS _ _ _ _ hmergeable h e he⟩)
  | tuple types => cases h
  | named fields =>
    rcases claims_iff.mp (WritesFields.claims hS hfields h he) with hkey | hkey
    · exact .inl hkey
    · exact .inr (.inl hkey)

/-- The keys that the alternative of a variant is about. -/
def Variant.About (inputs : ι → DeriveInput ι) (tagging : Tagging) (variant : Variant ι) (key : String) :
    Prop :=
  key ∈ variant.labels tagging ∨ (variant.spread tagging).About inputs key

theorem Variant.About.constrains {i : ι} {name : String} {input : EnumInput ι}
    (hinput : inputs i = .enum name input) {variant : Variant ι} (hvariant : variant ∈ input.variants)
    {key : String} (h : variant.About inputs input.tagging key) (flat : Bool) :
    Constrains inputs flat (.named i) key := by
  have hkey : ∀ {key}, key ∈ variant.labels input.tagging ++
      ownWires (variant.spread input.tagging).fields → Constrains inputs flat (.named i) key := by
    intro key hkey
    apply Constrains.own
    rw [hinput]
    exact List.mem_flatMap.mpr ⟨variant, hvariant, hkey⟩
  rcases h with hlabel | hown | ⟨type, htype, hconstrains⟩ | ⟨type, htype, hconstrains⟩
  · exact hkey (List.mem_append_left _ hlabel)
  · exact hkey (List.mem_append_right _ hown)
  · refine .flattened ?_ hconstrains
    rw [hinput]
    exact List.mem_flatMap.mpr ⟨variant, hvariant, htype⟩
  · refine .merged ?_ hconstrains
    rw [hinput]
    exact List.mem_flatMap.mpr ⟨variant, hvariant, htype⟩

/-- What a variant writes into an object has names that its alternative is about. -/
theorem Variant.Merges.about (hS : KeysKnown inputs S) {input : EnumInput ι}
    (hfit : VariantsFit inputs input) {variant : Variant ι} (hvariant : variant ∈ input.variants)
    (hmerged : ∀ type ∈ (variant.spread input.tagging).types, Mergeable inputs type) {flat : Bool}
    {entries : Entries} (h : variant.Merges S flat input.tagging entries) {e : String × Json}
    (he : e ∈ entries) : variant.About inputs input.tagging e.1 := by
  have hfields := (hfit.fields variant hvariant).mergeable
  unfold Variant.Merges at h
  unfold Variant.About Variant.labels Variant.spread
  unfold Variant.spread at hmerged
  cases htagging : variant.tagging input.tagging with
  | untagged =>
    rw [htagging] at h hmerged
    exact .inr (h.about hS hfields (fun type htype _ => hmerged type htype) he)
  | external =>
    rw [htagging] at h
    obtain ⟨inner, -, rfl⟩ := h
    obtain rfl := List.mem_singleton.mp he
    exact .inl (List.mem_singleton_self _)
  | internal tag =>
    rw [htagging] at h hmerged
    obtain ⟨inner, hinner, -, rfl⟩ := h
    rcases List.mem_cons.mp he with rfl | he
    · exact .inl (List.mem_singleton_self _)
    · exact .inr (hinner.about hS hfields (fun type htype _ => hmerged type htype) he)
  | adjacent tag content =>
    rw [htagging] at h
    have hkeys : e.1 = tag ∨ e.1 = content := by
      simp only [Variant.Labels] at h
      split at h
      · rw [h] at he
        exact .inl (by rw [List.mem_singleton.mp he])
      · obtain ⟨inner, -, rfl⟩ := h
        rcases List.mem_cons.mp he with rfl | he
        · exact .inl rfl
        · exact .inr (by rw [List.mem_singleton.mp he])
    rcases hkeys with hkey | hkey <;> simp [hkey]

/-- **What is written into an object has names that its schema knows.** -/
theorem keysKnown (h : Describable inputs) (depth : ℕ) : KeysKnown inputs (serializer .finite inputs depth) := by
  induction depth with
  | zero =>
    intro flat flat' type entries hmergeable hw e he
    induction hmergeable with
    | map => exact .map
    | ref _ ih => exact .ref (ih hw)
    | box _ ih => exact .box (ih hw)
    | transparent | struct | enum => cases hw
  | succ depth ihdepth =>
    intro flat flat' type entries hmergeable hw e he
    induction hmergeable with
    | map => exact .map
    | ref _ ih => exact .ref (ih hw)
    | box _ ih => exact .box (ih hw)
    | @transparent i type htype hmergeable _ =>
      change (inputs i).Merges (serializer .finite inputs depth) flat entries at hw
      rw [htype] at hw
      exact .transparent htype (ihdepth _ _ _ _ hmergeable hw e he)
    | @struct i name input hinput =>
      change (inputs i).Merges (serializer .finite inputs depth) flat entries at hw
      rw [hinput] at hw
      have hfit := h.struct i name input hinput
      rcases claims_iff.mp (WritesFields.claims ihdepth hfit.mergeable hw he) with hkey | hkey
      · apply Constrains.own
        rw [hinput]
        exact hkey
      · obtain ⟨type, htype, hconstrains⟩ := hkey
        refine .flattened ?_ hconstrains
        rw [hinput]
        exact htype
    | @enum i name input hinput _ hmerged _ =>
      change (inputs i).Merges (serializer .finite inputs depth) flat entries at hw
      rw [hinput] at hw
      obtain ⟨variant, hvariant, hwrites⟩ := hw
      refine (Variant.Merges.about ihdepth (h.enum i name input hinput) hvariant ?_ hwrites he).constrains
        hinput hvariant flat'
      intro type htype
      apply hmerged
      rw [hinput]
      exact List.mem_flatMap.mpr ⟨variant, hvariant, htype⟩

/-! ## What an object shows of its fields -/

/-- An object with the entries, and with others under keys that nothing is said about. -/
structure Among (about : String → Prop) (entries whole : Entries) : Prop where
  sub : ∀ e ∈ entries, e ∈ whole
  rest : ∀ e ∈ whole, e ∈ entries ∨ ¬ about e.1

theorem Among.refl (about : String → Prop) (entries : Entries) : Among about entries entries :=
  ⟨fun _ he => he, fun _ he => .inl he⟩

theorem Among.mono {about about' : String → Prop} {entries whole : Entries}
    (h : Among about entries whole) (hle : ∀ key, about' key → about key) :
    Among about' entries whole :=
  ⟨h.sub, fun e he => (h.rest e he).imp_right fun hno habout => hno (hle e.1 habout)⟩

/-- What an object shows of a field, where the other names are listed. -/
structure StructField.Holds (inputs : ι → DeriveInput ι) (S : Serializer .finite ι) (containerDefault : Bool)
    (keys : List String) (whole : Entries) (field : StructField ι) : Prop where
  listed : field.flatten = false → ∀ e ∈ whole, e.1 = field.wire → field.type.Writes S e.2
  required : field.flatten = false → field.isRequired containerDefault = true →
    field.skipSerializingIf = false → Entries.contains field.wire whole = true
  map : field.flatten = true → IsMap inputs field.type.optionInner.1 → ∀ e ∈ whole, e.1 ∉ keys →
    ∃ own, field.type.optionInner.1.Merges S true own ∧ e ∈ own
  merged : field.flatten = true → ¬ IsMap inputs field.type.optionInner.1 →
    field.type.optionInner.2 = true ∨ ∃ own, field.type.optionInner.1.Merges S true own ∧
      Among (Constrains inputs true field.type.optionInner.1) own whole

theorem Apart.symm {field other : StructField ι} (h : Apart inputs field other) :
    Apart inputs other field :=
  fun hother hfield hbeside hbeside' key hkey => h hfield hother hbeside' hbeside key hkey.symm

/-- **An object shows each of its fields**, whatever else is in it. -/
theorem FieldsFit.holds (hS : KeysKnown inputs S) {tag : Option String} {containerDefault : Bool}
    {fields : List (StructField ι)} (hfit : FieldsFit inputs tag containerDefault fields)
    {entries whole : Entries} (hwrites : WritesFields S fields entries)
    (hsub : ∀ e ∈ entries, e ∈ whole)
    (hrest : ∀ e ∈ whole, e ∈ entries ∨ e.1 ∈ tag ∨
      ∀ field ∈ fields, field.skipped = false → ¬ field.Claims inputs e.1) :
    ∀ field ∈ fields, field.skipped = false →
      field.Holds inputs S containerDefault (tag.toList ++ ownWires fields) whole := by
  obtain ⟨written, hfields, hwritten, rfl⟩ := hwrites
  have hpairwise : written.Pairwise fun w w' => Apart inputs w.1 w'.1 :=
    List.pairwise_map.mp (hfields ▸ hfit.apart)
  intro field hfield hskip
  obtain ⟨w, hw, rfl⟩ := List.mem_map.mp (hfields ▸ hfield)
  -- an entry of another field is about something else, but for maps
  have hother : ∀ w' ∈ written, ∀ e ∈ w'.2, e ∉ w.2 →
      ¬ MapBeside inputs w.1 w'.1 → ¬ MapBeside inputs w'.1 w.1 → ¬ w.1.Claims inputs e.1 := by
    intro w' hw' e he hne hbeside hbeside' hclaims
    have hfield' : w'.1 ∈ fields := hfields ▸ List.mem_map_of_mem hw'
    obtain ⟨hskip', hlisted, hflattened⟩ := (hwritten w' hw').of_mem he
    have hclaims' : w'.1.Claims inputs e.1 := by
      unfold StructField.Claims
      split
      · rename_i hflatten
        exact hS _ _ _ _ (hfit.mergeable _ (mem_flattenedTypes hfield' hskip' hflatten))
          (hflattened hflatten).1 e he
      · rename_i hflatten
        exact (hlisted (Bool.eq_false_iff.mpr hflatten)).1.symm
    have hsymm : Std.Symm fun w w' : StructField ι × Entries => Apart inputs w.1 w'.1 :=
      ⟨fun _ _ h => h.symm⟩
    have hdistinct : w ≠ w' := by
      rintro rfl
      exact hne he
    have happart := hpairwise.forall hw hw' hdistinct
    exact happart hskip hskip' hbeside hbeside' e.1 ⟨hclaims, hclaims'⟩
  have hfound : ∀ e ∈ whole, (∃ w' ∈ written, e ∈ w'.2) ∨ e.1 ∈ tag ∨ ¬ w.1.Claims inputs e.1 := by
    intro e he
    rcases hrest e he with hmem | htag | hforeign
    · exact .inl (List.mem_flatMap.mp hmem)
    · exact .inr (.inl htag)
    · exact .inr (.inr (hforeign w.1 hfield hskip))
  refine ⟨?_, ?_, ?_, ?_⟩
  · intro hflatten e he hkey
    have hclaims : w.1.Claims inputs e.1 := by
      rw [StructField.Claims, hflatten, if_neg Bool.false_ne_true, hkey]
    rcases hfound e he with ⟨w', hw', hmem⟩ | htag | hno
    · by_cases hown : e ∈ w.2
      · exact ((hwritten w hw).of_mem hown).2.1 hflatten |>.2
      · refine absurd hclaims (hother w' hw' e hmem hown ?_ ?_)
        · exact fun hbeside => Bool.false_ne_true (hflatten.symm.trans hbeside.1)
        · -- a map holds no name of a field beside it
          intro hbeside
          refine (((hwritten w' hw').of_mem hmem).2.2 hbeside.1).2 ?_
          rw [hkey]
          exact mem_ownWires hfield hskip hflatten
    · refine absurd hclaims (hfit.tag e.1 htag w.1 hfield hskip ?_)
      exact fun htrue => absurd (hflatten.symm.trans htrue) Bool.false_ne_true
    · exact absurd hclaims hno
  · intro hflatten hrequired hif
    have hserialized : w.1.skipSerializing = false := by
      by_contra hserialized
      rw [hfit.written w.1 hfield (Bool.eq_true_of_not_eq_false hserialized)] at hrequired
      cases hrequired
    rcases hwritten w hw with ⟨hnone, -⟩ | ⟨-, hvalue⟩
    · rw [hserialized, hif] at hnone
      cases hnone
    · rw [hflatten, if_neg Bool.false_ne_true] at hvalue
      obtain ⟨value, -, heq⟩ := hvalue
      have hmem : (w.1.wire, value) ∈ whole := by
        apply hsub
        refine List.mem_flatMap.mpr ⟨w, hw, ?_⟩
        rw [heq]
        exact List.mem_singleton_self _
      exact contains_of_mem hmem
  · intro hflatten hmap e he hkey
    have hkeys : e.1 ∉ tag ∧ e.1 ∉ ownWires fields := by
      rw [List.mem_append, Option.mem_toList, not_or] at hkey
      exact hkey
    have hclaims : w.1.Claims inputs e.1 := by
      rw [StructField.Claims, hflatten, if_pos rfl]
      exact hmap.constrains _ _
    rcases hfound e he with ⟨w', hw', hmem⟩ | htag | hno
    · by_cases hown : e ∈ w.2
      · exact ⟨w.2, (((hwritten w hw).of_mem hown).2.2 hflatten).1, hown⟩
      · have hfield' : w'.1 ∈ fields := hfields ▸ List.mem_map_of_mem hw'
        obtain ⟨hskip', hlisted, -⟩ := (hwritten w' hw').of_mem hmem
        cases hflatten' : w'.1.flatten with
        | false =>
          rw [(hlisted hflatten').1] at hkeys
          exact absurd (mem_ownWires hfield' hskip' hflatten') hkeys.2
        | true =>
          refine absurd hclaims (hother w' hw' e hmem hown ?_ ?_)
          · exact fun hbeside => Bool.false_ne_true (hbeside.2.2.symm.trans hflatten')
          · exact fun hbeside => Bool.false_ne_true (hbeside.2.2.symm.trans hflatten)
    · exact absurd htag hkeys.1
    · exact absurd hclaims hno
  · intro hflatten hmap
    rcases hwritten w hw with ⟨hnone, -⟩ | ⟨-, hvalue⟩
    · exact .inl ((hfit.always w.1 hfield hskip hflatten hnone).resolve_right hmap)
    · rw [hflatten, if_pos rfl] at hvalue
      cases hoption : w.1.type.optionInner.2 with
      | true => exact .inl rfl
      | false =>
        refine .inr ⟨w.2, ?_, ?_, ?_⟩
        · have hsame : w.1.type.optionInner.1 = w.1.type := by
            cases htype : w.1.type with
            | option inner =>
              rw [htype] at hoption
              cases hoption
            | scalar _ | named _ | vec _ | ref _ | box _ | map _ => rfl
          rw [hsame]
          exact hvalue.1
        · exact fun e he => hsub e (List.mem_flatMap.mpr ⟨w, hw, he⟩)
        · intro e he
          have hclaims : w.1.Claims inputs e.1 ↔
              Constrains inputs true w.1.type.optionInner.1 e.1 := by
            rw [StructField.Claims, hflatten, if_pos rfl]
          rcases hfound e he with ⟨w', hw', hmem⟩ | htag | hno
          · by_cases hown : e ∈ w.2
            · exact .inl hown
            · refine .inr fun hconstrains => hother w' hw' e hmem hown ?_ ?_ (hclaims.mpr hconstrains)
              · exact fun hbeside => hmap hbeside.2.1
              · exact fun hbeside => Bool.false_ne_true (hbeside.2.2.symm.trans hflatten)
          · exact .inr fun hconstrains =>
              hfit.tag e.1 htag w.1 hfield hskip (fun _ => hmap) (hclaims.mpr hconstrains)
          · exact .inr fun hconstrains => hno (hclaims.mpr hconstrains)

end OasRs.Schema
