import OasRs.DerivePlan
import OasRs.RequestSchema

/-!
# What is Valid

Validation runs with fuel, and with enough of it the answer no longer changes. What is valid, and
what is not, by the keywords of a schema.

## Main results

- `valid_object`, `invalid_of_property`, `invalid_of_required`: objects
- `valid_anyOf`, `valid_oneOf`: alternatives
- `Valid.opened`: a schema that no longer closes its object accepts no less
-/

namespace OasRs.Schema

open Lib

variable {components : String → Option Json} {keywords whole : Entries} {schema value : Json}

/-- With enough fuel, the value is valid. -/
def Valid (components : String → Option Json) (schema value : Json) : Prop :=
  Settles (fun steps => validates components steps schema value) true

/-- With enough fuel, the value is not valid. -/
def Invalid (components : String → Option Json) (schema value : Json) : Prop :=
  Settles (fun steps => validates components steps schema value) false

/-- The keywords of an object schema decide, one step later. -/
theorem settles_obj {answer : Bool}
    (h : Settles (fun steps => keywordsHold (validates components steps) components keywords value)
      answer) : Settles (fun steps => validates components steps (.obj keywords) value) answer :=
  h.of_succ fun _ => rfl

/-- Schemas that differ in annotations only accept the same values. -/
theorem Valid.congr {keywords' : Entries} (h : Valid components (.obj keywords) value)
    (hget : ∀ key ∈ assertions, Entries.get key keywords' = Entries.get key keywords) :
    Valid components (.obj keywords') value := by
  apply Settles.congr h
  intro steps
  cases steps with
  | zero => rfl
  | succ steps => exact keywordsHold_congr hget _ _

theorem Valid.reference {component : String} (h : Valid components schema value)
    (hlookup : components component = some schema) :
    Valid components (reference component) value :=
  h.of_succ fun steps => validates_reference hlookup steps value

/-! ## Objects -/

/-- An object whose keywords all hold; the combinators are those of flattened fields. -/
theorem valid_object (href : Entries.get "$ref" keywords = none)
    (htype : typeHolds keywords (.obj whole) = true)
    (hanyOf : Entries.get "anyOf" keywords = none) (honeOf : Entries.get "oneOf" keywords = none)
    (hallOf : ∀ parts, Entries.get "allOf" keywords = some (.arr parts) →
      ∀ part ∈ parts, Valid components part (.obj whole))
    (hproperties : ∀ e ∈ whole, ∀ schema, propertySchema keywords e.1 = some schema →
      Valid components schema e.2)
    (hrequired : ∀ names, Entries.get "required" keywords = some (.arr names) →
      ∀ name, Json.str name ∈ names → Entries.contains name whole = true) :
    Valid components (.obj keywords) (.obj whole) := by
  apply settles_obj
  have hcombinators : Settles (fun steps =>
      combinatorsHold (validates components steps) keywords (.obj whole)) true := by
    have hnone : subschemas keywords "anyOf" = none ∧ subschemas keywords "oneOf" = none := by
      simp only [subschemas, hanyOf, honeOf, and_self]
    simp only [combinatorsHold, hnone.1, hnone.2, Option.all_none, Bool.and_true]
    cases hparts : subschemas keywords "allOf" with
    | none => exact Settles.const true
    | some parts =>
      have hget : Entries.get "allOf" keywords = some (.arr parts) := by
        unfold subschemas at hparts
        split at hparts
        · cases hparts
          assumption
        · cases hparts
      exact Settles.all fun part hpart => hallOf parts hget part hpart
  -- each property has its own fuel, and the object the most of these
  have heach : Settles (fun steps => whole.all fun e =>
      (propertySchema keywords e.1).all fun schema => validates components steps schema e.2)
        true := by
    apply Settles.all
    intro e he
    cases hschema : propertySchema keywords e.1 with
    | none => exact Settles.const true
    | some schema => exact hproperties e he schema hschema
  refine (hcombinators.both heach).mono fun steps hsteps => ?_
  rw [Bool.and_eq_true] at hsteps
  simp only [keywordsHold, refHolds, href, htype, rangeHolds, hsteps.1, itemsHold, Bool.true_and]
  unfold propertiesHold
  rw [Bool.and_eq_true]
  refine ⟨?_, ?_⟩
  · rw [List.all_eq_true]
    intro e he
    have hvalid := List.all_eq_true.mp hsteps.2 e he
    split
    · rename_i schema hschema
      rw [hschema] at hvalid
      exact hvalid
    · rfl
  · split
    · rename_i names hnames
      rw [List.all_eq_true]
      intro name hname
      split
      · exact hrequired names hnames _ hname
      · rfl
    · rfl

/-- An object with a property that is not valid. -/
theorem invalid_of_property {e : String × Json} (he : e ∈ whole)
    (hschema : propertySchema keywords e.1 = some schema) (h : Invalid components schema e.2) :
    Invalid components (.obj keywords) (.obj whole) := by
  apply settles_obj
  -- with the fuel that rejects the property, the object is rejected one step later
  refine h.anti fun steps hsteps => ?_
  have hproperties :
      propertiesHold (validates components steps) keywords (.obj whole) = false := by
    unfold propertiesHold
    rw [Bool.and_eq_false_iff]
    refine .inl (List.all_eq_false.mpr ⟨e, he, ?_⟩)
    simp only [hschema, hsteps, Bool.false_eq_true, not_false_eq_true]
  rw [keywordsHold, hproperties, Bool.and_false]

/-- An object without a property that it must have. -/
theorem invalid_of_required {names : List Json} {name : String}
    (hrequired : Entries.get "required" keywords = some (.arr names)) (hname : Json.str name ∈ names)
    (h : Entries.contains name whole = false) : Invalid components (.obj keywords) (.obj whole) := by
  apply settles_obj
  refine (Settles.const false).congr fun steps => ?_
  have hproperties :
      propertiesHold (validates components steps) keywords (.obj whole) = false := by
    unfold propertiesHold
    rw [Bool.and_eq_false_iff, hrequired]
    refine .inr (List.all_eq_false.mpr ⟨_, hname, ?_⟩)
    simp only [h, Bool.false_eq_true, not_false_eq_true]
  rw [keywordsHold, hproperties, Bool.and_false]

/-- A value of another type, or that is not listed. -/
theorem invalid_of_type (h : typeHolds keywords value = false) :
    Invalid components (.obj keywords) value := by
  apply settles_obj
  refine (Settles.const false).congr fun steps => ?_
  rw [keywordsHold, h, Bool.and_false, Bool.false_and, Bool.false_and, Bool.false_and, Bool.false_and]

theorem contains_of_mem {e : String × Json} (h : e ∈ whole) : Entries.contains e.1 whole = true := by
  induction whole with
  | nil => cases h
  | cons e' whole ih =>
    rw [Entries.contains, Entries.get]
    split
    · rfl
    · rename_i hne
      rcases List.mem_cons.mp h with rfl | h
      · exact absurd rfl hne
      · exact ih h

theorem contains_eq_false {key : String} (h : ∀ e ∈ whole, e.1 ≠ key) :
    Entries.contains key whole = false := by
  induction whole with
  | nil => rfl
  | cons e whole ih =>
    rw [Entries.contains, Entries.get, if_neg (h e List.mem_cons_self)]
    exact ih fun e' he' => h e' (List.mem_cons_of_mem _ he')

/-! ## Alternatives -/

section Alternatives

variable {alternatives : List Json}

/-- The schema of alternatives, with a description or without. -/
def alternativesSchema (description : Option String) (combinator : String)
    (alternatives : List Json) : Json :=
  .object ((description.map fun text => ("description", Json.str text)).toList ++
    [(combinator, .arr alternatives)])

theorem get_alternativesSchema (description : Option String) (combinator : String)
    (alternatives : List Json) {key : String} (hkey : key ∈ assertions) :
    Entries.get key (entriesOf (alternativesSchema description combinator alternatives)) =
      if combinator = key then some (.arr alternatives) else none := by
  -- a description is no assertion
  have hdescription : "description" ≠ key := by
    rintro rfl
    revert hkey
    decide
  cases description <;>
    simp [alternativesSchema, Json.object, Entries.of, entriesOf, hdescription]

theorem alternativesSchema_eq (description : Option String) (combinator : String) :
    alternativesSchema description combinator alternatives =
      .obj (entriesOf (alternativesSchema description combinator alternatives)) := rfl

/-- Only the combinator decides. -/
theorem settles_alternatives {description : Option String} {combinator : String} {answer : Bool}
    (hcombinator : combinator = "anyOf" ∨ combinator = "oneOf")
    (h : Settles (fun steps =>
      if combinator = "anyOf" then alternatives.any (validates components steps · value)
      else alternatives.countP (validates components steps · value) == 1) answer) :
    Settles (fun steps => validates components steps
      (alternativesSchema description combinator alternatives) value) answer := by
  rw [alternativesSchema_eq]
  apply settles_obj
  refine h.congr fun steps => ?_
  have hget := fun (key : String) (hkey : key ∈ assertions) =>
    get_alternativesSchema description combinator alternatives hkey
  rcases hcombinator with rfl | rfl <;> cases value <;>
    simp [keywordsHold, refHolds, typeHolds, rangeHolds, combinatorsHold, subschemas, itemsHold,
      propertySchema, propertiesHold, hget "$ref" (by decide), hget "type" (by decide),
      hget "enum" (by decide), hget "minimum" (by decide), hget "maximum" (by decide),
      hget "items" (by decide), hget "prefixItems" (by decide), hget "minItems" (by decide),
      hget "maxItems" (by decide), hget "properties" (by decide), hget "required" (by decide),
      hget "additionalProperties" (by decide), hget "allOf" (by decide), hget "anyOf" (by decide),
      hget "oneOf" (by decide)]

theorem valid_anyOf {description : Option String} {alternative : Json}
    (hmem : alternative ∈ alternatives) (h : Valid components alternative value) :
    Valid components (alternativesSchema description "anyOf" alternatives) value := by
  apply settles_alternatives (.inl rfl)
  exact Settles.any (F := fun steps => (validates components steps · value)) hmem h

/-- One alternative accepts the value and the others reject it. -/
theorem valid_oneOf {description : Option String} {left right : List Json} {alternative : Json}
    (hleft : ∀ other ∈ left, Invalid components other value)
    (h : Valid components alternative value)
    (hright : ∀ other ∈ right, Invalid components other value) :
    Valid components (alternativesSchema description "oneOf" (left ++ alternative :: right))
      value := by
  apply settles_alternatives (.inr rfl)
  exact Settles.countP_eq_one (F := fun steps => (validates components steps · value)) hleft h hright

end Alternatives

/-! ## The types of the library -/

theorem Valid.option (h : Valid components schema value) :
    Valid components (optionSchema schema) value := by
  refine Settles.of_succ ?_ (validates_optionSchema schema value)
  exact Settles.mono h fun steps hsteps => by rw [hsteps, Bool.true_or]

theorem valid_option_null : Valid components (optionSchema schema) .null := by
  refine Settles.of_succ ?_ (validates_optionSchema schema .null)
  have hnull : Valid components (.object [("type", .str "null")]) .null :=
    (Settles.const true).of_succ (validates_null .null)
  exact Settles.mono hnull fun steps hsteps => by rw [hsteps, Bool.or_true]

theorem valid_vec {items : List Json} (h : ∀ item ∈ items, Valid components schema item) :
    Valid components (vecSchema schema) (.arr items) :=
  Settles.of_succ (Settles.all h) (validates_vecSchema schema items)

theorem valid_map (h : ∀ e ∈ whole, Valid components schema e.2) :
    Valid components (mapSchema schema) (.obj whole) :=
  Settles.of_succ
    (Settles.all (F := fun steps (e : String × Json) => validates components steps schema e.2) h)
    (validates_mapSchema schema whole)

theorem valid_plainObject : Valid components plainObject (.obj whole) :=
  Settles.of_add 1 fun _ => by
    simp [validates, keywordsHold, refHolds, typeHolds, rangeHolds, combinatorsHold, subschemas,
      itemsHold, propertySchema, propertiesHold, plainObject, Json.object, Entries.of, hasType]

/-- A string with one value, and that value. -/
theorem valid_tag (text : String) : Valid components (tagSchema text) (.str text) :=
  Settles.of_add 1 fun _ => by
    simp [validates, keywordsHold, refHolds, typeHolds, rangeHolds, combinatorsHold, subschemas,
      itemsHold, propertiesHold, tagSchema, Json.object, Entries.of, hasType]

theorem invalid_tag {text : String} (h : value ≠ .str text) :
    Invalid components (tagSchema text) value := by
  apply invalid_of_type
  have henum : Entries.get "enum" (Entries.of [("type", .str "string"), ("enum", .arr [.str text])]) =
      some (.arr [.str text]) := by
    simp [Entries.of]
  rw [typeHolds, henum, Bool.and_eq_false_iff]
  refine .inr ?_
  simp [Ne.symm h]

/-! ## Opening -/

/-- A schema that no longer closes its object accepts no less. -/
theorem Valid.opened (h : Valid components schema value) :
    Valid components (opened schema) value := by
  cases schema with
  | obj keywords =>
    rw [Schema.opened]
    split
    · rename_i hclosed
      refine Settles.mono h fun steps hsteps => ?_
      cases steps with
      | zero => exact hsteps
      | succ steps =>
        have hget : ∀ key, key ≠ "additionalProperties" →
            Entries.get key (Entries.remove "additionalProperties" keywords) =
              Entries.get key keywords := by
          intro key hkey
          rw [Entries.get_remove, if_neg (Ne.symm hkey)]
        have hremoved : Entries.get "additionalProperties"
            (Entries.remove "additionalProperties" keywords) = none := by
          rw [Entries.get_remove, if_pos rfl]
        -- a property of its own keeps its schema; the others are free now
        have hproperty_of_removed : ∀ key schema,
            propertySchema (Entries.remove "additionalProperties" keywords) key = some schema →
              propertySchema keywords key = some schema := by
          intro key schema hfound
          unfold propertySchema at hfound ⊢
          rw [hget "properties" (by decide), hremoved] at hfound
          split at hfound
          · split at hfound
            · exact hfound
            · cases hfound
          · cases hfound
        change keywordsHold (validates components steps) components keywords value = true at hsteps
        show keywordsHold (validates components steps) components
          (Entries.remove "additionalProperties" keywords) value = true
        simp only [keywordsHold, Bool.and_eq_true] at hsteps ⊢
        obtain ⟨⟨⟨⟨⟨href, htype⟩, hrange⟩, hcombinators⟩, hitems⟩, hproperties⟩ := hsteps
        -- all other keywords are what they were
        refine ⟨⟨⟨⟨⟨?_, ?_⟩, ?_⟩, ?_⟩, ?_⟩, ?_⟩
        · simpa only [refHolds, hget "$ref" (by decide)] using href
        · simpa only [typeHolds, hget "type" (by decide), hget "enum" (by decide)] using htype
        · simpa only [rangeHolds, hget "minimum" (by decide), hget "maximum" (by decide)] using hrange
        · simpa only [combinatorsHold, subschemas, hget "allOf" (by decide),
            hget "anyOf" (by decide), hget "oneOf" (by decide)] using hcombinators
        · simpa only [itemsHold, subschemas, hget "prefixItems" (by decide),
            hget "items" (by decide), hget "minItems" (by decide),
            hget "maxItems" (by decide)] using hitems
        · cases value with
          | obj whole =>
            unfold propertiesHold at hproperties ⊢
            rw [Bool.and_eq_true] at hproperties ⊢
            rw [hget "required" (by decide)]
            refine ⟨?_, hproperties.2⟩
            rw [List.all_eq_true] at hproperties ⊢
            intro e he
            have hproperty := hproperties.1 e he
            cases hfound : propertySchema (Entries.remove "additionalProperties" keywords) e.1 with
            | none => rfl
            | some schema =>
              rw [hproperty_of_removed e.1 schema hfound] at hproperty
              exact hproperty
          | null | bool _ | num _ | str _ | arr _ => rfl
    · exact h
  | null | bool _ | num _ | str _ | arr _ => exact h

end OasRs.Schema
