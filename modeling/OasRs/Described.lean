import OasRs.Components
import OasRs.EnumSchemas

/-!
# Schemas Describe what is Written

The schemas of a document accept the JSON that serde writes, for any derived types that can be
described. In an inline registry a schema is cut off where a type comes back to itself; in a document
it refers to the component instead.

## Main results

- `fits_inlined`: the schema of a flattened type
- `fits_answer`: the schema of a type in a document
- `schemas_describe`
-/

namespace OasRs.Schema

open Lib SchemaRegistry Relation Components

variable {ι : Type} {inputs : ι → DeriveInput ι} {components : String → Option Json} {depth : ℕ}
  {flat : Bool} {i : ι} {schema : Json}

/-! ## From bodies to types -/

/-- Nothing is written with no depth. -/
theorem fits_zero (hobj : ∃ keywords, schema = .obj keywords)
    (hmap : (mapValues schema).isSome = true ↔ IsMap inputs (.named i)) :
    Fits inputs (serializer .finite inputs 0) components flat (.named i) schema :=
  ⟨hobj, fun _ h => h.elim, fun _ _ _ _ h => h.elim, hmap, fun _ _ _ _ h => h.elim⟩

/-- A type that is a component is no map, and neither is its schema. -/
theorem isMap_component {name : String} (hname : (inputs i).component? = some name)
    (hnone : mapValues schema = none) :
    (mapValues schema).isSome = true ↔ IsMap inputs (.named i) := by
  rw [hnone]
  exact ⟨fun h => absurd h Bool.false_ne_true, fun h => absurd h (not_isMap hname)⟩

/-- The body itself stands for its type. -/
theorem BodyFits.fits {name : String} (hname : (inputs i).component? = some name)
    (h : BodyFits inputs (serializer .finite inputs depth) components i schema) :
    Fits inputs (serializer .finite inputs (depth + 1)) components flat (.named i) schema := by
  refine ⟨h.obj, h.valid, ?_, isMap_component hname h.mapValues, ?_⟩
  · exact fun hmergeable flat' entries whole => h.merged hmergeable flat flat' entries whole
  · intro extra hextra
    rw [h.mapValues] at hextra
    cases hextra

/-- A reference to its component does. -/
theorem BodyFits.fits_reference {name component : String}
    (hname : (inputs i).component? = some name)
    (h : BodyFits inputs (serializer .finite inputs depth) components i schema)
    (hlookup : components component = some schema) :
    Fits inputs (serializer .finite inputs (depth + 1)) components false (.named i) (reference component) := by
  have hnone : Schema.mapValues (reference component) = none :=
    mapValues_of_get (by simp [Entries.of])
  refine ⟨⟨_, rfl⟩, fun value hwrites => (h.valid value hwrites).reference hlookup, ?_,
    isMap_component hname hnone, ?_⟩
  · intro hmergeable flat' entries whole hmerges hamong
    exact (h.merged hmergeable false flat' entries whole hmerges hamong).reference hlookup
  · intro extra hextra
    rw [hnone] at hextra
    cases hextra

theorem isMap_transparent {type : RustType ι} (hinput : inputs i = .transparent type) :
    IsMap inputs (.named i) ↔ IsMap inputs type := by
  refine ⟨fun h => ?_, .transparent hinput⟩
  cases h with
  | transparent htype h =>
    rw [hinput] at htype
    cases htype
    exact h

/-- The schema of its single field stands for a transparent type. -/
theorem Fits.transparent {type : RustType ι} (hinput : inputs i = .transparent type)
    (h : Fits inputs (serializer .finite inputs depth) components flat type schema) :
    Fits inputs (serializer .finite inputs (depth + 1)) components flat (.named i) schema := by
  have hwrites : ∀ value, (RustType.named i).Writes (serializer .finite inputs (depth + 1)) value →
      type.Writes (serializer .finite inputs depth) value := by
    intro value hwrites
    change (inputs i).Writes (serializer .finite inputs depth) value at hwrites
    rwa [hinput] at hwrites
  have hmerges : ∀ flat' entries,
      (RustType.named i).Merges (serializer .finite inputs (depth + 1)) flat' entries →
        type.Merges (serializer .finite inputs depth) flat' entries := by
    intro flat' entries hmerges
    change (inputs i).Merges (serializer .finite inputs depth) flat' entries at hmerges
    rwa [hinput] at hmerges
  refine ⟨h.obj, fun value hvalue => h.valid value (hwrites value hvalue), ?_,
    h.isMap.trans (isMap_transparent hinput).symm, ?_⟩
  · intro hmergeable flat' entries whole hentries hamong
    have htype : Mergeable inputs type := by
      cases hmergeable with
      | transparent htype h =>
        rw [hinput] at htype
        cases htype
        exact h
      | struct hstruct =>
        rw [hinput] at hstruct
        cases hstruct
      | enum henum =>
        rw [hinput] at henum
        cases henum
    exact h.merged htype flat' entries whole (hmerges flat' entries hentries)
      (hamong.mono fun key => .transparent hinput)
  · exact fun extra hextra flat' entries hentries =>
      h.values extra hextra flat' entries (hmerges flat' entries hentries)

theorem Fits.zero_of_transparent {type : RustType ι} (hinput : inputs i = .transparent type)
    (h : Fits inputs (serializer .finite inputs 0) components flat type schema) :
    Fits inputs (serializer .finite inputs 0) components flat (.named i) schema :=
  fits_zero h.obj (h.isMap.trans (isMap_transparent hinput).symm)

/-- **The body that the derive generates.** -/
theorem Describable.plan_fits (h : Describable inputs) (depth : ℕ) {name : String}
    (hname : (inputs i).component? = some name) :
    ((inputs i).plan false).Makes (AskFits inputs (serializer .finite inputs depth) components)
      (BodyFits inputs (serializer .finite inputs depth) components i) := by
  cases hinput : inputs i with
  | struct component input =>
    exact StructInput.plan_fits (keysKnown h depth) hinput (h.struct i component input hinput)
  | transparent type =>
    rw [hinput] at hname
    cases hname
  | enum component input =>
    exact EnumInput.plan_fits (keysKnown h depth) hinput (h.enum i component input hinput)

variable [DecidableEq ι]

/-! ## Inlined schemas -/

/-- The type that a question is about. -/
def Ask.type : Ask ι → ι
  | .mention k => k
  | .flattened k => k

omit [DecidableEq ι] in
/-- Where the schema of a type is cut off, it stands for any object. -/
theorem fits_cut {name : String} (hname : (inputs i).component? = some name)
    (h : WritesObjects inputs i) :
    Fits inputs (serializer .finite inputs depth) components flat (.named i) plainObject := by
  have hnone : mapValues plainObject = none := mapValues_of_get (by simp [Entries.of])
  refine ⟨⟨_, rfl⟩, ?_, ?_, isMap_component hname hnone, ?_⟩
  · intro value hwrites
    obtain ⟨entries, rfl⟩ := h depth value hwrites
    exact valid_plainObject
  · intro _ _ entries whole _ _
    split
    · exact valid_plainObject.opened
    · exact valid_plainObject
  · intro extra hextra
    rw [hnone] at hextra
    cases hextra

/-- **An inlined schema accepts what is written**, with the types on the stack being those that it
    is inlined for. -/
theorem fits_inlined (h : Describable inputs) {fuel : ℕ} {owner root : ι}
    (hroot : Ask.flattened root ∈ (inputs owner).asks) {r r' : SchemaRegistry ι}
    (hinline : r.inline = true) (hreaches : ReflTransGen (Names inputs) root i)
    (hstack : ∀ c ∈ r.stack, TransGen (Names inputs) c i)
    (hrun : derived inputs fuel false i r = some (schema, r')) (depth : ℕ) (flat : Bool) :
    Fits inputs (serializer .finite inputs depth) components flat (.named i) schema := by
  induction fuel generalizing owner root i r r' schema depth flat with
  | zero => cases hrun
  | succ fuel ih =>
    -- the questions of the body, in a registry whose stack leads to the type
    have hbody : ∀ (r₁ r₂ : SchemaRegistry ι) (schema : Json), r₁.inline = true →
        (∀ c ∈ r₁.stack, ReflTransGen (Names inputs) c i) →
          ((inputs i).plan false).run (Ask.run (derived inputs fuel) false) r₁ = some (schema, r₂) →
            ∃ answers, List.Forall₂ (fun q a => ∀ depth flat,
                Fits inputs (serializer .finite inputs depth) components flat (.named q.type) a)
              (inputs i).asks answers ∧ schema = ((inputs i).plan false).answer answers := by
      intro r₁ r₂ schema hinline₁ hstack₁ hrun₁
      obtain ⟨answers, r₃, hasks, hanswer⟩ := eq_some_of_bind hrun₁
      cases hanswer
      refine ⟨answers, ?_, rfl⟩
      rw [DeriveInput.asks_plan] at hasks
      -- a registry that inlines answers all questions inline
      have hkeeps : ∀ q ∈ (inputs i).asks,
          Keeps (fun r => r.inline = true) (Ask.run (derived inputs fuel) false q) := by
        intro q _
        cases q with
        | mention k => exact keeps_derived fuel false k
        | flattened k => exact Keeps.lift _
      have hanswers := Keeps.forall₂_of_mapM hkeeps hinline₁ hasks
      have hmem := (List.forall₂_and_left (inputs i).asks answers).mpr ⟨fun q hq => hq, hanswers⟩
      refine hmem.imp fun q a hq depth flat => ?_
      cases q with
      | mention k =>
        -- the stack leads to the type, and the type names the next
        exact ih hroot hinline₁ (hreaches.tail hq.1) (fun c hc => .tail' (hstack₁ c hc) hq.1) hq.2
          depth flat
      | flattened k =>
        obtain ⟨p, hp, heq⟩ := Option.bind_eq_some_iff.mp hq.2
        obtain ⟨⟨a', r''⟩, hinner, rfl⟩ := Option.map_eq_some_iff.mp hp
        cases heq
        -- a flattened type starts in a registry of its own
        exact ih hq.1 rfl .refl (fun c hc => absurd hc List.not_mem_nil) hinner depth flat
    cases hcomponent : (inputs i).component? with
    | some name =>
      rw [derived_inline hcomponent hinline] at hrun
      by_cases hcut : i ∈ r.stack
      -- the type comes back to itself, so that its values are objects
      · rw [define_of_cut hinline hcut] at hrun
        cases hrun
        exact fits_cut hcomponent (h.cuts owner root i hroot hreaches (hstack i hcut))
      · rw [define_of_inline hinline hcut] at hrun
        obtain ⟨⟨body, r₂⟩, hbuild, heq⟩ := Option.map_eq_some_iff.mp hrun
        cases heq
        have hstack' : ∀ c ∈ r.stack ++ [i], ReflTransGen (Names inputs) c i := by
          intro c hc
          rcases List.mem_append.mp hc with hc | hc
          · exact (hstack c hc).to_reflTransGen
          · rw [List.mem_singleton.mp hc]
        obtain ⟨answers, hanswers, rfl⟩ := hbody { r with stack := r.stack ++ [i] } _ _ hinline hstack' hbuild
        have hfits : ∀ depth, BodyFits inputs (serializer .finite inputs depth) components i
            (((inputs i).plan false).answer answers) := by
          intro depth
          apply h.plan_fits depth hcomponent
          rw [DeriveInput.asks_plan]
          refine hanswers.imp fun q a ha => ?_
          cases q with
          | mention k => exact ha depth false
          | flattened k => exact ha depth true
        cases depth with
        | zero => exact fits_zero (hfits 0).obj (isMap_component hcomponent (hfits 0).mapValues)
        | succ depth => exact (hfits depth).fits hcomponent
    | none =>
      rw [derived_of_none inputs fuel false hcomponent] at hrun
      obtain ⟨answers, hanswers, rfl⟩ :=
        hbody _ _ _ hinline (fun c hc => (hstack c hc).to_reflTransGen) hrun
      obtain ⟨type, hinput⟩ : ∃ type, inputs i = .transparent type := by
        cases hinput : inputs i with
        | transparent type => exact ⟨type, rfl⟩
        | struct _ _ | enum _ _ =>
          rw [hinput] at hcomponent
          cases hcomponent
      have htype : ∀ depth, Fits inputs (serializer .finite inputs depth) components flat type
          (((inputs i).plan false).answer answers) := by
        intro depth
        have hplan : (type.plan .mention).Makes (fun q a => ∀ depth flat,
              Fits inputs (serializer .finite inputs depth) components flat (.named q.type) a)
            (Fits inputs (serializer .finite inputs depth) components flat type) := by
          refine plan_fits .mention ?_ type
          exact fun k schema hk => hk depth flat
        rw [hinput] at hanswers ⊢
        apply hplan
        rw [RustType.asks_plan]
        exact hanswers
      cases depth with
      | zero => exact (htype 0).zero_of_transparent hinput
      | succ depth => exact (htype depth).transparent hinput

/-! ## Documents -/

variable {r : SchemaRegistry ι}

/-- The body of a component that is defined, when the answers that it is made of fit. -/
theorem Describable.fits_body (h : Describable inputs) (hr : Outputs inputs r ∅) {depth : ℕ}
    {name : String} (hname : (inputs i).component? = some name) (hi : Defined inputs r i)
    (hfits : ∀ k schema, (∀ c, Leads inputs k c → Defined inputs r c) →
      Answers inputs ∅ false k schema →
        Fits inputs (serializer .finite inputs depth) components false (.named k) schema) :
    ∃ body, r.definitions.lookup name = some body ∧
      BodyFits inputs (serializer .finite inputs depth) components i body := by
  obtain ⟨name', body, hname', hlookup, answers, hanswers, hbody⟩ :=
    hr.output i hi (Finset.notMem_empty i)
  rw [hname] at hname'
  cases hname'
  refine ⟨body, hlookup, ?_⟩
  rw [hbody]
  apply h.plan_fits depth hname
  rw [DeriveInput.asks_plan]
  have hmem := (List.forall₂_and_left (inputs i).asks answers).mpr ⟨fun q hq => hq, hanswers⟩
  refine hmem.imp fun q a hq => ?_
  cases q with
  | mention k =>
    exact hfits k a (fun c hc => hr.closed i hi (Finset.notMem_empty i) c ⟨k, hq.1, hc⟩) hq.2
  | flattened k =>
    obtain ⟨fuel, r', hrun⟩ := hq.2
    exact fits_inlined h hq.1 rfl .refl (fun c hc => absurd hc List.not_mem_nil) hrun depth true

/-- **The schema of a type in a document accepts what is written**, with the components that were
defined, among others perhaps. -/
theorem fits_answer (h : Describable inputs) (hr : Outputs inputs r ∅)
    (hcomponents : ∀ n body, r.definitions.lookup n = some body → components n = some body) (depth : ℕ)
    (hdefined : ∀ c, Leads inputs i c → Defined inputs r c)
    (hanswer : Answers inputs ∅ false i schema) :
    Fits inputs (serializer .finite inputs depth) components false (.named i) schema := by
  induction depth generalizing i schema with
  | zero =>
    -- nothing is written at this depth, but the schema keeps its form
    induction hanswer with
    | @component i name hname =>
      have hnone : mapValues (reference (formName ∅ false i name)) = none :=
        mapValues_of_get (by simp [Entries.of])
      exact fits_zero ⟨_, rfl⟩ (isMap_component hname hnone)
    | @forward i k type schema hinput hk _ ih =>
      have hforwards := forwards_of_transparent hinput hk
      refine Fits.zero_of_transparent hinput (fits_schemaFor fun k' hk' => ?_)
      rw [hk] at hk'
      cases hk'
      exact ih fun c hc => hdefined c (.forward hforwards hc)
    | scalar hinput hk =>
      refine Fits.zero_of_transparent hinput (fits_schemaFor fun k' hk' => ?_)
      rw [hk] at hk'
      cases hk'
  | succ depth ih =>
    cases hanswer with
    | @component i name hname =>
      -- the body of the component is for values that are nested less deep
      obtain ⟨body, hlookup, hbody⟩ := h.fits_body hr hname (hdefined i (.component hname))
        fun k schema hk => ih hk
      exact hbody.fits_reference hname (hcomponents name body hlookup)
    | @forward i k type schema hinput hk hschema =>
      refine Fits.transparent hinput (fits_schemaFor fun k' hk' => ?_)
      rw [hk] at hk'
      cases hk'
      exact ih (fun c hc => hdefined c (.forward (forwards_of_transparent hinput hk) hc)) hschema
    | scalar hinput hk =>
      refine Fits.transparent hinput (fits_schemaFor fun k' hk' => ?_)
      rw [hk] at hk'
      cases hk'

/-! ### After any calls -/

/-- What a call for the schema of a response answered. -/
def OutputAnswer (inputs : ι → DeriveInput ι) (type : RustType ι) (schema : Json) : Prop :=
  ∃ leaf, schema = type.schemaFor (fun _ => leaf) ∧
    ∀ k, type.named? = some k → Answers inputs ∅ false k leaf

/-- What is written for a type fits such an answer. -/
theorem OutputAnswer.fits (h : Describable inputs) (hr : Outputs inputs r ∅)
    (hcomponents : ∀ n body, r.definitions.lookup n = some body → components n = some body)
    {type : RustType ι} (hdefined : ∀ k ∈ type.named?, ∀ c, Leads inputs k c → Defined inputs r c)
    (hanswer : OutputAnswer inputs type schema) (depth : ℕ) :
    Fits inputs (serializer .finite inputs depth) components false type schema := by
  obtain ⟨leaf, rfl, hleaf⟩ := hanswer
  apply fits_schemaFor
  intro k hk
  exact fits_answer h hr hcomponents depth (hdefined k hk) (hleaf k hk)

/-- A call for the schema of a response. -/
theorem Components.Accounts.outputAnswer {asked : List (Asked ι)} {fuel : ℕ} {r' : SchemaRegistry ι}
    (h : Accounts inputs asked r) {type : RustType ι}
    (hrun : type.schemaWith (derived inputs fuel) false r = some (schema, r'))
    (hconflicts : r'.conflicts = []) : OutputAnswer inputs type schema := by
  cases hk : type.named? with
  | none =>
    rw [schemaWith_of_none _ false (fun _ => .null) hk] at hrun
    cases hrun
    exact ⟨.null, rfl, fun k hk' => absurd (hk.symm.trans hk') (Option.some_ne_none k).symm⟩
  | some k =>
    rw [schemaWith_of_some _ false hk] at hrun
    obtain ⟨leaf, r₁, hcall, heq⟩ := eq_some_of_bind hrun
    cases heq
    obtain ⟨-, -, hanswer, -⟩ := h.call hcall hconflicts
    refine ⟨leaf, rfl, fun k' hk' => ?_⟩
    rw [hk] at hk'
    cases hk'
    exact hanswer.congr fun hfalse => absurd hfalse Bool.false_ne_true

/-- The answers of calls, one by one. -/
theorem Components.Accounts.answers {asked more : List (Asked ι)} {fuel : ℕ} {answers : List Json}
    {r' : SchemaRegistry ι} (h : Accounts inputs asked r)
    (hrun : more.mapM (Components.ask (derived inputs fuel)) r = some (answers, r'))
    (hconflicts : r'.conflicts = []) :
    List.Forall₂ (fun a schema => a.1 = false → OutputAnswer inputs a.2 schema) more answers := by
  induction more generalizing asked r answers with
  | nil =>
    cases hrun
    exact .nil
  | cons a more ih =>
    rw [List.mapM_cons] at hrun
    obtain ⟨schema, r₁, hfirst, hrun⟩ := eq_some_of_bind hrun
    obtain ⟨schemas, r₂, hrest, hrun⟩ := eq_some_of_bind hrun
    cases hrun
    -- no conflict was found before
    have hconflicts₁ : r₁.conflicts = [] :=
      (conflictsStay_calls fuel more _ _ _ hrest).eq_nil hconflicts
    obtain ⟨h₁, -, -⟩ := h.ask a hfirst hconflicts₁
    refine .cons ?_ (ih h₁ hrest)
    obtain ⟨request, type⟩ := a
    rintro rfl
    exact h.outputAnswer hfirst hconflicts₁

section Events

variable {inputs : ι → DeriveInput ι}

end Events

inductive EventType where
  | event
  | happened
  | note
  deriving DecidableEq

/-- Events with what happened flattened into them, and the event before, if there was one. -/
def events : EventType → DeriveInput EventType
  | .event => .struct "Event"
    { fields := [{ wire := "id", type := .scalar (.int .u64) },
                 { wire := "happened", type := .named .happened, flatten := true },
                 { wire := "after", type := .option (.box (.named .event)), skipSerializingIf := true }] }
  | .happened => .enum "Happened"
    { tagging := .internal "kind"
      variants := [{ wire := "opened", payload := .unit },
                   { wire := "renamed", payload := .named [{ wire := "name", type := .scalar .string }] },
                   { wire := "noted", payload := .newtype (.named .note) }] }
  | .note => .struct "Note" { fields := [{ wire := "text", type := .scalar .string }] }

end OasRs.Schema
