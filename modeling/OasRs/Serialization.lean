import OasRs.DerivePlan
import OasRs.RequestSchema

/-!
# What serde Writes

The JSON that serde's derived `Serialize` writes for the values of a type, as a relation: which value
is written decides what stands at each place, and the function of a `skip_serializing_if` decides what
is left out. A flattened field, and the payload of an internally tagged variant, are written into a map
that is open already (serde's `FlatMapSerializer` and `TaggedSerializer`).

Of a flattened map it is assumed that it holds none of the names of the fields beside it, and of a
value under an internal tag that it has no key of that name: serde would write such a name twice, or in
the place of a field that is left out.

## Overview

- `Floats`: finite ones, or also those for which there is `null`
- `RustType.Writes`, `RustType.Merges`: a whole value, and entries for a map that is open
- `Variant.Writes`, `Variant.Merges`: the four tagging forms
- `serializer`: the derived types
-/

namespace OasRs.Schema

variable {ι : Type}

/-- Which floats the values that are written hold. -/
inductive Floats where
  | finite
  | all

/-- What derived types write: whole values, and entries for a map that is open. The flag says whether
    that is the map of a flattened field, which takes an `Option`. -/
structure Serializer (floats : Floats) (ι : Type) where
  writes : ι → Json → Prop
  merges : Bool → ι → Entries → Prop

/-- The JSON of a scalar; any text stands for that of a `Uuid`, and any fraction for that of a float.
    For an infinity or a NaN `serde_json` writes `null`. -/
def Scalar.Writes (floats : Floats) : Scalar → Json → Prop
  | .f32, json => (∃ q, json = .num (.float q)) ∨ floats = .all ∧ json = .null
  | .f64, json => (∃ q, json = .num (.float q)) ∨ floats = .all ∧ json = .null
  | type, json => type.deserializes (fun _ => true) json = true

section Types

variable {floats : Floats} (S : Serializer floats ι)

/-- What is written for a value of a type. -/
def RustType.Writes : RustType ι → Json → Prop
  | .scalar type, value => type.Writes floats value
  | .named i, value => S.writes i value
  | .option inner, value => value = .null ∨ inner.Writes value
  | .vec inner, value => ∃ items, value = .arr items ∧ ∀ item ∈ items, inner.Writes item
  | .ref inner, value => inner.Writes value
  | .box inner, value => inner.Writes value
  | .map inner, value => ∃ entries, value = .obj entries ∧ ∀ e ∈ entries, inner.Writes e.2

/-- What is written into a map that is open. Most types cannot be. -/
def RustType.Merges (flat : Bool) : RustType ι → Entries → Prop
  | .scalar type, _ => type = .value
  | .named i, entries => S.merges flat i entries
  | .option inner, entries => flat = true ∧ (entries = [] ∨ inner.Merges flat entries)
  | .vec _, _ => False
  | .ref inner, entries => inner.Merges flat entries
  | .box inner, entries => inner.Merges flat entries
  | .map inner, entries => ∀ e ∈ entries, inner.Writes S e.2

/-! ## Structs -/

/-- What a field writes, beside fields of the given names. -/
def StructField.Writes (beside : List String) (field : StructField ι) (entries : Entries) : Prop :=
  (field.skipSerializing || field.skipSerializingIf) = true ∧ entries = [] ∨
    field.skipSerializing = false ∧
      if field.flatten then field.type.Merges S true entries ∧ ∀ e ∈ entries, e.1 ∉ beside
      else ∃ value, field.type.Writes S value ∧ entries = [(field.wire, value)]

/-- The names of the fields that are not flattened. -/
def ownWires (fields : List (StructField ι)) : List String :=
  (fields.filter fun field => !field.skipped && !field.flatten).map StructField.wire

/-- What fields write, one after the other. -/
def WritesFields (fields : List (StructField ι)) (entries : Entries) : Prop :=
  ∃ written : List (StructField ι × Entries), written.map Prod.fst = fields ∧
    (∀ w ∈ written, w.1.Writes S (ownWires fields) w.2) ∧ entries = written.flatMap Prod.snd

/-! ## Enums -/

/-- The payload of a variant, without its name. -/
def Payload.Writes : Payload ι → Json → Prop
  | .unit, value => value = .null
  | .newtype type, value => type.Writes S value
  | .tuple types, value => ∃ items, value = .arr items ∧ List.Forall₂ (RustType.Writes S) types items
  | .named fields, value => ∃ entries, value = .obj entries ∧ WritesFields S fields entries

/-- The same, for a map that is open. -/
def Payload.Merges (flat : Bool) : Payload ι → Entries → Prop
  | .unit, entries => entries = []
  | .newtype type, entries => type.Merges S flat entries
  | .tuple _, _ => False
  | .named fields, entries => WritesFields S fields entries

/-- The value that names a variant outside of its payload. -/
def Variant.Labels (variant : Variant ι) : Tagging → Entries → Prop
  | .external, entries => ∃ inner, variant.payload.Writes S inner ∧ entries = [(variant.wire, inner)]
  | .internal tag, entries => ∃ inner, variant.payload.Merges S false inner ∧
      (∀ e ∈ inner, e.1 ≠ tag) ∧ entries = (tag, .str variant.wire) :: inner
  | .adjacent tag content, entries =>
    match variant.payload with
    | .unit => entries = [(tag, .str variant.wire)]
    | payload => ∃ inner, payload.Writes S inner ∧
        entries = [(tag, .str variant.wire), (content, inner)]
  | .untagged, _ => False

/-- What is written for a variant. -/
def Variant.Writes (variant : Variant ι) (tagging : Tagging) (value : Json) : Prop :=
  match variant.tagging tagging, variant.payload with
  | .external, .unit => value = .str variant.wire
  | .untagged, payload => payload.Writes S value
  | tagging, _ => ∃ entries, value = .obj entries ∧ variant.Labels S tagging entries

/-- What is written for it into a map that is open: the name of a variant without a payload becomes a
    key, with `null`. -/
def Variant.Merges (flat : Bool) (variant : Variant ι) (tagging : Tagging) (entries : Entries) : Prop :=
  match variant.tagging tagging with
  | .untagged => variant.payload.Merges S flat entries
  | tagging => variant.Labels S tagging entries

/-! ## Derived types -/

/-- What is written for a value of a derived type. -/
def DeriveInput.Writes : DeriveInput ι → Json → Prop
  | .struct _ input, value => ∃ entries, value = .obj entries ∧ WritesFields S input.fields entries
  | .transparent type, value => type.Writes S value
  | .enum _ input, value => ∃ variant ∈ input.variants, variant.Writes S input.tagging value

def DeriveInput.Merges (flat : Bool) : DeriveInput ι → Entries → Prop
  | .struct _ input, entries => WritesFields S input.fields entries
  | .transparent type, entries => type.Merges S flat entries
  | .enum _ input, entries => ∃ variant ∈ input.variants, variant.Merges S flat input.tagging entries

end Types

/-- What the derived types write, with values nested at most `depth` deep. -/
def serializer (floats : Floats) (inputs : ι → DeriveInput ι) : ℕ → Serializer floats ι
  | 0 => { writes := fun _ _ => False, merges := fun _ _ _ => False }
  | depth + 1 =>
    { writes := fun i => (inputs i).Writes (serializer floats inputs depth)
      merges := fun flat i => (inputs i).Merges (serializer floats inputs depth) flat }

end OasRs.Schema
