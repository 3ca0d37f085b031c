import OasRs.Registry
import Mathlib.Logic.Relation
import Mathlib.Data.Fintype.Card

/-!
# Graphs of Named Types

What the request/response split is for, without the registry: a finite graph of types
with an output body and a request body each, and the components that a document should
hold for them.

## Overview

- `TypeGraph`: the types, their references and their bodies
- `TypeGraph.Differs`: a type with a request form of its own
- `TypeGraph.Defines`: the components that a sequence of calls should leave
- `TypeGraph.impl`: the graph as generated impls
-/

namespace OasRs.Schema

open SchemaRegistry

variable {ι : Type}

/-! ## Graphs -/

/-- A graph of named types. The two bodies of a type differ by its own gap (a field that
    is required only in requests) and by the forms of the types it refers to. -/
structure TypeGraph (ι : Type) where
  /-- the component of a type -/
  name : ι → String
  /-- the types that a type refers to, in the order of its body -/
  refs : ι → List ι
  /-- whether a type has a gap of its own -/
  gap : ι → Bool
  /-- the output body, or the request body when the flag is set, with the schemas of the
      references in their places -/
  body : ι → Bool → List Json → Json
  name_injective : Function.Injective name
  name_ne_input : ∀ i j, name i ≠ inputName (name j)
  body_of_no_gap : ∀ i, gap i = false → body i true = body i false
  body_of_gap : ∀ i, gap i = true → ∀ schemas schemas', body i true schemas ≠ body i false schemas'
  body_injective : ∀ i request (components components' : List String), components.length = (refs i).length →
    components'.length = (refs i).length →
    body i request (components.map reference) = body i request (components'.map reference) →
    components = components'

namespace TypeGraph

variable (g : TypeGraph ι)

/-- `j` is reached from `i` through references. -/
def Reaches (i j : ι) : Prop := Relation.ReflTransGen (fun i j => j ∈ g.refs i) i j

/-- A type whose request form differs from its output: it reaches a gap. -/
def Differs (i : ι) : Prop := ∃ j, g.Reaches i j ∧ g.gap j = true

open Classical in
/-- The component of the request form of a type. -/
noncomputable def requestName (i : ι) : String :=
  if g.Differs i then inputName (g.name i) else g.name i

/-- The output body of a type. -/
def outputBody (i : ι) : Json := g.body i false ((g.refs i).map fun j => reference (g.name j))

/-- The request body of a type. -/
noncomputable def requestBody (i : ι) : Json :=
  g.body i true ((g.refs i).map fun j => reference (g.requestName j))

/-! ## Calls -/

/-- A call on the registry of a document. -/
inductive Call (ι : Type) where
  | schemaWith (type : ι)
  | requestSchemaWith (type : ι)

namespace Call

/-- The type that is asked for. -/
def type : Call ι → ι
  | .schemaWith type => type
  | .requestSchemaWith type => type

/-- Make a call. -/
def run (named : Named ι) : Call ι → Gen ι Json
  | .schemaWith type => named false type
  | .requestSchemaWith type => named true type

end Call

/-- The reference that a call should return. -/
noncomputable def answer : Call ι → Json
  | .schemaWith type => reference (g.name type)
  | .requestSchemaWith type => reference (g.requestName type)

/-- A type that some call reaches. -/
def Reached (calls : List (Call ι)) (i : ι) : Prop := ∃ call ∈ calls, g.Reaches call.type i

/-- A type that some request call reaches. -/
def RequestReached (calls : List (Call ι)) (i : ι) : Prop :=
  ∃ root, .requestSchemaWith root ∈ calls ∧ g.Reaches root i

/-- What the document should define after the calls: the output of every type reached, and
    the request form of every type that a request reaches and that differs. -/
inductive Defines (calls : List (Call ι)) : String → Json → Prop where
  | output {i : ι} (h : g.Reached calls i) : Defines calls (g.name i) (g.outputBody i)
  | request {i : ι} (h : g.RequestReached calls i) (hdiffers : g.Differs i) :
      Defines calls (inputName (g.name i)) (g.requestBody i)

/-- The components that the answers and the definitions refer to. -/
inductive Refers (calls : List (Call ι)) : String → Prop where
  | schemaWith {i : ι} (h : .schemaWith i ∈ calls) : Refers calls (g.name i)
  | requestSchemaWith {i : ι} (h : .requestSchemaWith i ∈ calls) : Refers calls (g.requestName i)
  | output {i j : ι} (hi : g.Reached calls i) (hj : j ∈ g.refs i) : Refers calls (g.name j)
  | request {i j : ι} (hi : g.RequestReached calls i) (hdiffers : g.Differs i)
      (hj : j ∈ g.refs i) : Refers calls (g.requestName j)

/-! ## Generated impls -/

/-- The impl of a type of the graph. -/
def impl (i : ι) : Impl ι :=
  .component (g.name i) fun named request => do
    return g.body i request (← (g.refs i).mapM (named request))

/-! ## Facts -/

variable {g}

theorem inputName_injective : Function.Injective inputName := fun a b h => by
  simpa [inputName] using h

theorem reference_injective : Function.Injective reference := fun a b h => by
  simpa [reference, Json.object, Entries.of, Entries.insert] using h

theorem Differs.of_gap {i : ι} (h : g.gap i = true) : g.Differs i := ⟨i, .refl, h⟩

theorem Differs.of_ref {i j : ι} (hj : j ∈ g.refs i) (h : g.Differs j) : g.Differs i := by
  obtain ⟨k, hk, hgap⟩ := h
  exact ⟨k, .head hj hk, hgap⟩

/-- A set of types that is closed under references has everything it reaches. -/
theorem mem_of_reaches {S : Set ι} (hclosed : ∀ i ∈ S, ∀ j ∈ g.refs i, j ∈ S) {i j : ι}
    (hi : i ∈ S) (h : g.Reaches i j) : j ∈ S := by
  induction h with
  | refl => exact hi
  | tail _ hstep ih => exact hclosed _ ih _ hstep

/-- A set of types that is closed under references and has no gap reaches none. -/
theorem not_differs_of_closed {S : Set ι} (hclosed : ∀ i ∈ S, ∀ j ∈ g.refs i, j ∈ S)
    (hgap : ∀ i ∈ S, g.gap i = false) {i : ι} (hi : i ∈ S) : ¬ g.Differs i := by
  rintro ⟨j, hreach, hj⟩
  rw [hgap j (mem_of_reaches hclosed hi hreach)] at hj
  cases hj

theorem reached_append {calls : List (Call ι)} (call : Call ι) (i : ι) :
    g.Reached (calls ++ [call]) i ↔ g.Reached calls i ∨ g.Reaches call.type i := by
  simp [Reached, or_and_right, exists_or]

theorem requestReached_append {calls : List (Call ι)} (call : Call ι) (i : ι) :
    g.RequestReached (calls ++ [call]) i ↔ g.RequestReached calls i ∨
      ∃ root, call = .requestSchemaWith root ∧ g.Reaches root i := by
  simp only [RequestReached, List.mem_append, List.mem_singleton, or_and_right, exists_or,
    eq_comm]

/-- What should be defined depends on the calls, not on their order or number. -/
theorem Defines.congr {calls calls' : List (Call ι)} (h : ∀ call, call ∈ calls' ↔ call ∈ calls)
    {component : String} {schema : Json} :
    g.Defines calls' component schema ↔ g.Defines calls component schema := by
  have hreached : ∀ i, g.Reached calls' i ↔ g.Reached calls i := fun i => by
    simp only [Reached, h]
  have hrequest : ∀ i, g.RequestReached calls' i ↔ g.RequestReached calls i := fun i => by
    simp only [RequestReached, h]
  constructor
  · rintro (hi | ⟨hi, hdiffers⟩)
    · exact .output ((hreached _).mp hi)
    · exact .request ((hrequest _).mp hi) hdiffers
  · rintro (hi | ⟨hi, hdiffers⟩)
    · exact .output ((hreached _).mpr hi)
    · exact .request ((hrequest _).mpr hi) hdiffers

theorem RequestReached.reached {calls : List (Call ι)} {i : ι} (h : g.RequestReached calls i) :
    g.Reached calls i := by
  obtain ⟨root, hroot, hi⟩ := h
  exact ⟨_, hroot, hi⟩

/-- The request form of a type that a request reaches is defined, under one of its names. -/
theorem RequestReached.defines {calls : List (Call ι)} {i : ι} (h : g.RequestReached calls i) :
    ∃ schema, g.Defines calls (g.requestName i) schema := by
  rw [requestName]
  split
  · exact ⟨_, .request h ‹_›⟩
  · exact ⟨_, .output h.reached⟩

/-- Nothing dangles: what the answers and the definitions refer to should be defined. -/
theorem Refers.defines {calls : List (Call ι)} {component : String}
    (h : g.Refers calls component) : ∃ schema, g.Defines calls component schema := by
  cases h with
  | schemaWith h => exact ⟨_, .output ⟨_, h, .refl⟩⟩
  | requestSchemaWith h => exact RequestReached.defines ⟨_, h, .refl⟩
  | output hi hj =>
    obtain ⟨call, hcall, hreach⟩ := hi
    exact ⟨_, .output ⟨call, hcall, hreach.tail hj⟩⟩
  | request hi _ hj =>
    obtain ⟨root, hroot, hreach⟩ := hi
    exact RequestReached.defines ⟨root, hroot, hreach.tail hj⟩

end TypeGraph

end OasRs.Schema
