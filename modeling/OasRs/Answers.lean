import OasRs.Recursion

/-!
# What Calls Answer

What `schema_with` and `request_schema_with` should answer for a derived type, as a relation that
does not mention a registry: which types differ in requests is a parameter. The body of a type then
depends on the answers for the types that it mentions, and on the inlined schemas of those that it
flattens.

## Overview

- `Leads`: the component that a type comes to
- `Answers`, `Inlined`, `Body`: what calls answer, and the bodies made of that
- `derived_mono`: more nested calls change no result
- `Body.unique`: a type has one body
-/

namespace OasRs.Schema

open Lib SchemaRegistry

variable {ι : Type} (inputs : ι → DeriveInput ι)

/-! ## Components -/

/-- A type comes to a component: it is one, or it is transparent and forwards to a type that comes
    to it. -/
inductive Leads : ι → ι → Prop where
  | component {i : ι} {name : String} (h : (inputs i).component? = some name) : Leads i i
  | forward {i k c : ι} (h : Forwards inputs i k) (hk : Leads k c) : Leads i c

/-- The components that the body of a type refers to. -/
def Mentions (i c : ι) : Prop := ∃ k, Ask.mention k ∈ (inputs i).asks ∧ Leads inputs k c

variable {inputs}

theorem forwards_of_transparent {i k : ι} {type : RustType ι} (h : inputs i = .transparent type)
    (hk : type.named? = some k) : Forwards inputs i k := by
  refine ⟨?_, ?_⟩
  · rw [h]
    rfl
  · rw [h, DeriveInput.asks, RustType.asks, hk]
    exact List.mem_singleton_self _

variable [DecidableEq ι] (inputs)

/-! ## Answers -/

/-- The component of the form of a type. -/
def formName (differs : Finset ι) (request : Bool) (i : ι) (name : String) : String :=
  if request = true ∧ i ∈ differs then inputName name else name

/-- The answer for a type, when the types of `differs` have a request form of their own. -/
inductive Answers (differs : Finset ι) (request : Bool) : ι → Json → Prop where
  | component {i : ι} {name : String} (h : (inputs i).component? = some name) :
      Answers differs request i (reference (formName differs request i name))
  | forward {i k : ι} {type : RustType ι} {schema : Json} (h : inputs i = .transparent type)
      (hk : type.named? = some k) (hschema : Answers differs request k schema) :
      Answers differs request i (type.schemaFor fun _ => schema)
  | scalar {i : ι} {type : RustType ι} (h : inputs i = .transparent type)
      (hk : type.named? = none) : Answers differs request i (type.schemaFor fun _ => .null)

/-- The answer of a fresh inline registry. -/
def Inlined (request : Bool) (i : ι) (schema : Json) : Prop :=
  ∃ fuel r, derived inputs fuel request i .inlined = some (schema, r)

/-- The answer to what a body asks. -/
def AskAnswers (differs : Finset ι) (request : Bool) : Ask ι → Json → Prop
  | .mention k, schema => Answers inputs differs request k schema
  | .flattened k, schema => Inlined inputs request k schema

/-- The body of a type, made of the answers. -/
def Body (differs : Finset ι) (request : Bool) (i : ι) (schema : Json) : Prop :=
  ∃ answers, List.Forall₂ (AskAnswers inputs differs request) (inputs i).asks answers ∧
    schema = ((inputs i).plan request).answer answers

variable {inputs} {D D' : Finset ι} {request : Bool} {i : ι} {schema schema' : Json}

/-! ## The results of calls do not depend on the fuel -/

theorem extends_define {name : String} {build build' : Gen ι Json} (h : Extends build' build) :
    Extends (define i name build') (define i name build) := by
  intro r p hrun
  cases hinline : r.inline with
  | true =>
    by_cases hstack : i ∈ r.stack
    · rw [define_of_cut hinline hstack] at hrun ⊢
      exact hrun
    · rw [define_of_inline hinline hstack] at hrun ⊢
      obtain ⟨q, hq, hp⟩ := Option.map_eq_some_iff.mp hrun
      exact Option.map_eq_some_iff.mpr ⟨q, h _ _ hq, hp⟩
  | false =>
    unfold define at hrun ⊢
    rw [hinline, if_neg Bool.false_ne_true] at hrun ⊢
    cases howner : r.owners.lookup name with
    | some existing =>
      rw [howner] at hrun
      exact hrun
    | none =>
      rw [howner] at hrun
      obtain ⟨q, hq, hp⟩ := Option.bind_eq_some_iff.mp hrun
      exact Option.bind_eq_some_iff.mpr ⟨q, h _ _ hq, hp⟩

/-- `define_input` returned for a new type of a document: so did its first two steps. -/
theorem exists_of_defineInput {r : SchemaRegistry ι} {name : String} {output input : Gen ι Json}
    {p : Json × SchemaRegistry ι} (hinline : r.inline = false) (hnone : r.inputs.lookup i = none)
    (h : defineInput i name output input r = some p) :
    ∃ outputRef r₁ built r₂,
      define i name output { r with inputs := r.inputs.insert i .building } = some (outputRef, r₁) ∧
        input r₁ = some (built, r₂) := by
  unfold defineInput at h
  rw [if_neg (by simp [hinline])] at h
  simp only [hnone] at h
  obtain ⟨⟨outputRef, r₁⟩, hdefine, h⟩ := Option.bind_eq_some_iff.mp h
  obtain ⟨⟨built, r₂⟩, hinput, -⟩ := Option.bind_eq_some_iff.mp h
  exact ⟨outputRef, r₁, built, r₂, hdefine, hinput⟩

theorem extends_defineInput {name : String} {output output' input input' : Gen ι Json}
    (houtput : Extends output' output) (hinput : Extends input' input) :
    Extends (defineInput i name output' input') (defineInput i name output input) := by
  intro r p hrun
  cases hinline : r.inline with
  | true =>
    rw [defineInput, if_pos hinline] at hrun ⊢
    exact extends_define hinput r p hrun
  | false =>
    cases hlookup : r.inputs.lookup i with
    | some state =>
      cases state with
      | done schema =>
        rw [defineInput_of_done hinline hlookup] at hrun ⊢
        exact hrun
      | building =>
        rw [defineInput_of_building hinline hlookup] at hrun ⊢
        exact hrun
    | none =>
      obtain ⟨outputRef, r₁, built, r₂, hdefine, hfirst⟩ :=
        exists_of_defineInput hinline hlookup hrun
      rw [defineInput_of_new hinline hlookup hdefine hfirst] at hrun
      rw [defineInput_of_new hinline hlookup (extends_define houtput _ _ hdefine)
        (hinput _ _ hfirst)]
      split
      · rename_i hequal
        rw [if_pos hequal] at hrun
        exact hrun
      · rename_i hequal
        rw [if_neg hequal] at hrun
        obtain ⟨q, hsecond, hp⟩ := Option.map_eq_some_iff.mp hrun
        refine Option.map_eq_some_iff.mpr ⟨q, ?_, hp⟩
        split
        · rename_i hassumed
          rw [if_pos hassumed] at hsecond
          exact hinput _ _ hsecond
        · rename_i hassumed
          rw [if_neg hassumed] at hsecond
          exact hsecond

/-- More nested calls change no result. -/
theorem derived_succ (fuel : ℕ) (request : Bool) (i : ι) :
    Extends (derived inputs (fuel + 1) request i) (derived inputs fuel request i) := by
  induction fuel generalizing request i with
  | zero =>
    intro r p hrun
    cases hrun
  | succ fuel ih =>
    have hplan : ∀ request, Extends
        (((inputs i).plan request).run (Ask.run (derived inputs (fuel + 1)) request))
        (((inputs i).plan request).run (Ask.run (derived inputs fuel) request)) := by
      intro request
      apply Extends.run
      intro q _
      cases q with
      | mention k => exact ih request k
      | flattened k =>
        intro r p hrun
        obtain ⟨schema, hmap, hp⟩ := Option.bind_eq_some_iff.mp hrun
        obtain ⟨q, hq, rfl⟩ := Option.map_eq_some_iff.mp hmap
        exact Option.bind_eq_some_iff.mpr
          ⟨q.1, Option.map_eq_some_iff.mpr ⟨q, ih request k _ _ hq, rfl⟩, hp⟩
    cases hcomponent : (inputs i).component? with
    | some name =>
      rw [derived_of_some inputs fuel request hcomponent,
        derived_of_some inputs (fuel + 1) request hcomponent]
      split
      · exact extends_defineInput (hplan false) (hplan true)
      · exact extends_define (hplan false)
    | none =>
      rw [derived_of_none inputs fuel request hcomponent,
        derived_of_none inputs (fuel + 1) request hcomponent]
      exact hplan request

theorem derived_mono {fuel fuel' : ℕ} (h : fuel ≤ fuel') (request : Bool) (i : ι) :
    Extends (derived inputs fuel' request i) (derived inputs fuel request i) := by
  induction h with
  | refl => exact Extends.refl _
  | step _ ih => exact fun r p hrun => derived_succ _ request i r p (ih r p hrun)

/-! ## Uniqueness -/

theorem Inlined.unique (h : Inlined inputs request i schema) (h' : Inlined inputs request i schema') :
    schema = schema' := by
  obtain ⟨fuel, r, hrun⟩ := h
  obtain ⟨fuel', r', hrun'⟩ := h'
  have hleft := derived_mono (le_max_left fuel fuel') request i _ _ hrun
  have hright := derived_mono (le_max_right fuel fuel') request i _ _ hrun'
  rw [hleft] at hright
  cases hright
  rfl

theorem Answers.of_component {name : String} (hname : (inputs i).component? = some name)
    (h : Answers inputs D request i schema) :
    schema = reference (formName D request i name) := by
  cases h with
  | component hname' =>
    rw [hname] at hname'
    cases hname'
    rfl
  | forward htransparent | scalar htransparent =>
    rw [htransparent] at hname
    cases hname

theorem Answers.of_some {type : RustType ι} {k : ι} (htransparent : inputs i = .transparent type)
    (hk : type.named? = some k) (h : Answers inputs D request i schema) :
    ∃ inner, Answers inputs D request k inner ∧ schema = type.schemaFor fun _ => inner := by
  cases h with
  | component hname =>
    rw [htransparent] at hname
    cases hname
  | forward htransparent' hk' hschema =>
    rw [htransparent] at htransparent'
    cases htransparent'
    rw [hk] at hk'
    cases hk'
    exact ⟨_, hschema, rfl⟩
  | scalar htransparent' hk' =>
    rw [htransparent] at htransparent'
    cases htransparent'
    rw [hk] at hk'
    cases hk'

theorem Answers.of_none {type : RustType ι} (htransparent : inputs i = .transparent type)
    (hk : type.named? = none) (h : Answers inputs D request i schema) :
    schema = type.schemaFor fun _ => .null := by
  cases h with
  | component hname =>
    rw [htransparent] at hname
    cases hname
  | forward htransparent' hk' =>
    rw [htransparent] at htransparent'
    cases htransparent'
    rw [hk] at hk'
    cases hk'
  | scalar htransparent' =>
    rw [htransparent] at htransparent'
    cases htransparent'
    rfl

theorem Answers.unique (h : Answers inputs D request i schema)
    (h' : Answers inputs D request i schema') : schema = schema' := by
  induction h generalizing schema' with
  | component hname => exact (h'.of_component hname).symm
  | forward htransparent hk _ ih =>
    obtain ⟨inner, hinner, rfl⟩ := h'.of_some htransparent hk
    rw [ih hinner]
  | scalar htransparent hk => exact (h'.of_none htransparent hk).symm

theorem AskAnswers.unique {q : Ask ι} (h : AskAnswers inputs D request q schema)
    (h' : AskAnswers inputs D request q schema') : schema = schema' := by
  cases q with
  | mention k => exact Answers.unique h h'
  | flattened k => exact Inlined.unique h h'

theorem Body.unique (h : Body inputs D request i schema) (h' : Body inputs D request i schema') :
    schema = schema' := by
  obtain ⟨answers, hanswers, rfl⟩ := h
  obtain ⟨answers', hanswers', rfl⟩ := h'
  have hsame : answers = answers' := by
    generalize (inputs i).asks = asks at hanswers hanswers'
    induction hanswers generalizing answers' with
    | nil =>
      cases hanswers'
      rfl
    | cons h _ ih =>
      cases hanswers' with
      | cons h' hanswers' => rw [AskAnswers.unique h h', ih _ hanswers']
  rw [hsame]

/-! ## Which types differ counts only where they are mentioned -/

theorem Answers.congr (h : Answers inputs D request i schema)
    (hsame : request = true → ∀ c, Leads inputs i c → (c ∈ D ↔ c ∈ D')) :
    Answers inputs D' request i schema := by
  induction h with
  | @component i name hname =>
    have hform : formName D request i name = formName D' request i name := by
      unfold formName
      by_cases hrequest : request = true
      · simp only [hsame hrequest i (.component hname)]
      · rw [if_neg fun h => hrequest h.1, if_neg fun h => hrequest h.1]
    rw [hform]
    exact .component hname
  | forward htransparent hk _ ih =>
    apply Answers.forward htransparent hk
    exact ih fun hrequest c hc =>
      hsame hrequest c (.forward (forwards_of_transparent htransparent hk) hc)
  | scalar htransparent hk => exact .scalar htransparent hk

theorem Body.congr (h : Body inputs D request i schema)
    (hsame : request = true → ∀ c, Mentions inputs i c → (c ∈ D ↔ c ∈ D')) :
    Body inputs D' request i schema := by
  obtain ⟨answers, hanswers, hschema⟩ := h
  refine ⟨answers, ?_, hschema⟩
  have hmem := (List.forall₂_and_left (inputs i).asks answers).mpr ⟨fun q hq => hq, hanswers⟩
  refine hmem.imp fun q schema h => ?_
  cases q with
  | mention k => exact h.2.congr fun hrequest c hc => hsame hrequest c ⟨k, h.1, hc⟩
  | flattened k => exact h.2

/-- Outputs do not depend on which types differ. -/
theorem Body.output (h : Body inputs D false i schema) (D' : Finset ι) :
    Body inputs D' false i schema :=
  h.congr fun hrequest => absurd hrequest Bool.false_ne_true

end OasRs.Schema
