import OasRs.Answers

/-!
# The Components of a Document: Outputs

What `define` leaves in the registry of a document, for any derived types, as long as no conflict of
names was found: every component that a call defined is the output body of its type, and the types
that it mentions have their components too.

## Main results

- `conflicts_le`: conflicts that were found stay
- `Outputs`, `OutputStep`: what holds between calls, and what a call changes
- `outputs_call`
-/

namespace OasRs.Schema

open Lib SchemaRegistry

variable {ι : Type} [DecidableEq ι] {inputs : ι → DeriveInput ι}

/-! ## Conflicts stay -/

omit [DecidableEq ι] in
theorem conflict_ne_nil (r : SchemaRegistry ι) (name : String) : (r.conflict name).conflicts ≠ [] := by
  unfold conflict
  split
  · rename_i hmem
    exact List.ne_nil_of_mem hmem
  · simp

omit [DecidableEq ι] in
theorem conflicts_conflict (r : SchemaRegistry ι) (name : String) :
    r.conflicts <+: (r.conflict name).conflicts := by
  unfold conflict
  split
  · exact List.prefix_rfl
  · exact List.prefix_append _ _

/-- The conflicts of the first registry are among those of the second. -/
def ConflictsStay (r r' : SchemaRegistry ι) : Prop := r.conflicts <+: r'.conflicts

omit [DecidableEq ι] in
theorem ConflictsStay.refl (r : SchemaRegistry ι) : ConflictsStay r r := List.prefix_rfl

omit [DecidableEq ι] in
theorem ConflictsStay.trans {r₁ r₂ r₃ : SchemaRegistry ι} (h : ConflictsStay r₁ r₂)
    (h' : ConflictsStay r₂ r₃) : ConflictsStay r₁ r₃ := List.IsPrefix.trans h h'

omit [DecidableEq ι] in
theorem ConflictsStay.eq_nil {r r' : SchemaRegistry ι} (h : ConflictsStay r r')
    (hr' : r'.conflicts = []) : r.conflicts = [] := by
  rw [ConflictsStay, hr'] at h
  exact List.prefix_nil.mp h

theorem conflictsStay_define {i : ι} {name : String} {build : Gen ι Json}
    (h : Moves ConflictsStay build) : Moves ConflictsStay (define i name build) := by
  intro r schema r' hrun
  cases hinline : r.inline with
  | true =>
    by_cases hstack : i ∈ r.stack
    · rw [define_of_cut hinline hstack] at hrun
      cases hrun
      exact List.prefix_rfl
    · rw [define_of_inline hinline hstack] at hrun
      obtain ⟨⟨schema', r₁⟩, hbuild, heq⟩ := Option.map_eq_some_iff.mp hrun
      cases heq
      have hstay := h _ _ _ hbuild
      exact hstay
  | false =>
    unfold define at hrun
    rw [hinline, if_neg Bool.false_ne_true] at hrun
    cases howner : r.owners.lookup name with
    | some existing =>
      rw [howner] at hrun
      cases hrun
      split
      · exact List.prefix_rfl
      · exact conflicts_conflict r name
    | none =>
      rw [howner] at hrun
      obtain ⟨⟨schema', r₁⟩, hbuild, heq⟩ := Option.bind_eq_some_iff.mp hrun
      cases heq
      have hstay := h _ _ _ hbuild
      exact hstay

theorem conflicts_registerInput (r : SchemaRegistry ι) (i : ι) (name : String) (built : Json) :
    r.conflicts <+: (r.registerInput i name built).conflicts := by
  unfold registerInput
  split
  · split
    · exact List.prefix_rfl
    · exact conflicts_conflict r _
  · exact List.prefix_rfl

theorem conflictsStay_defineInput {i : ι} {name : String} {output input : Gen ι Json}
    (houtput : Moves ConflictsStay output) (hinput : Moves ConflictsStay input) :
    Moves ConflictsStay (defineInput i name output input) := by
  intro r schema r' hrun
  cases hinline : r.inline with
  | true =>
    rw [defineInput, if_pos hinline] at hrun
    exact conflictsStay_define hinput r schema r' hrun
  | false =>
    cases hlookup : r.inputs.lookup i with
    | some state =>
      cases state with
      | done schema =>
        rw [defineInput_of_done hinline hlookup] at hrun
        cases hrun
        exact List.prefix_rfl
      | building =>
        rw [defineInput_of_building hinline hlookup] at hrun
        split at hrun <;> cases hrun <;> exact List.prefix_rfl
    | none =>
      obtain ⟨outputRef, r₁, built, r₂, hdefine, hfirst⟩ :=
        exists_of_defineInput hinline hlookup hrun
      have h₁ := conflictsStay_define houtput _ _ _ hdefine
      have h₂ : r.conflicts <+: r₂.conflicts := h₁.trans (hinput _ _ _ hfirst)
      rw [defineInput_of_new hinline hlookup hdefine hfirst] at hrun
      split at hrun
      · cases hrun
        exact h₂
      · obtain ⟨⟨built', r₃⟩, hsecond, heq⟩ := Option.map_eq_some_iff.mp hrun
        cases heq
        refine List.IsPrefix.trans ?_ (conflicts_registerInput r₃ i name built')
        split at hsecond
        · have h₃ := hinput _ _ _ hsecond
          rw [ConflictsStay, discard_rest] at h₃
          exact h₂.trans h₃
        · cases hsecond
          exact h₂

/-- The conflicts that were found before a call are still there after it. -/
theorem conflicts_le (fuel : ℕ) (request : Bool) (i : ι) :
    Moves ConflictsStay (derived inputs fuel request i) := by
  induction fuel generalizing request i with
  | zero =>
    intro r schema r' hrun
    cases hrun
  | succ fuel ih =>
    have hplan : ∀ request, Moves ConflictsStay
        (((inputs i).plan request).run (Ask.run (derived inputs fuel) request)) := by
      intro request
      apply Moves.run ConflictsStay.refl fun _ _ _ => ConflictsStay.trans
      intro q _
      cases q with
      | mention k => exact ih request k
      | flattened k => exact Moves.lift ConflictsStay.refl _
    cases hcomponent : (inputs i).component? with
    | some name =>
      rw [derived_of_some inputs fuel request hcomponent]
      split
      · exact conflictsStay_defineInput (hplan false) (hplan true)
      · exact conflictsStay_define (hplan false)
    | none =>
      rw [derived_of_none inputs fuel request hcomponent]
      exact hplan request

theorem conflictsStay_asks (fuel : ℕ) (request : Bool) (asks : List (Ask ι)) :
    Moves ConflictsStay (asks.mapM (Ask.run (derived inputs fuel) request)) := by
  refine Moves.mapM ConflictsStay.refl (fun _ _ _ => ConflictsStay.trans) ?_
  intro q _
  cases q with
  | mention k => exact conflicts_le fuel request k
  | flattened k => exact Moves.lift ConflictsStay.refl _

/-! ## Outputs -/

namespace Components

/-- The component of a type is defined, or being defined. -/
def Defined (inputs : ι → DeriveInput ι) (r : SchemaRegistry ι) (i : ι) : Prop :=
  ∃ name, (inputs i).component? = some name ∧ r.owners.lookup name = some i

/-- The registry of a document while the outputs of `pending` are being built. -/
structure Outputs (inputs : ι → DeriveInput ι) (r : SchemaRegistry ι) (pending : Finset ι) :
    Prop where
  document : r.inline = false
  owner : ∀ n i, r.owners.lookup n = some i →
    ∃ name, (inputs i).component? = some name ∧ (n = name ∨ n = inputName name)
  keys : ∀ n, (r.definitions.lookup n).isSome = (r.owners.lookup n).isSome
  output : ∀ i, Defined inputs r i → i ∉ pending →
    ∃ name schema, (inputs i).component? = some name ∧ r.definitions.lookup name = some schema ∧
      Body inputs ∅ false i schema
  closed : ∀ i, Defined inputs r i → i ∉ pending → ∀ c, Mentions inputs i c → Defined inputs r c

/-- `r'` has the tables of `r`, and components of more types. -/
structure OutputStep (inputs : ι → DeriveInput ι) (r r' : SchemaRegistry ι) : Prop where
  rest : r' = { r with owners := r'.owners, definitions := r'.definitions }
  old : ∀ n i, r.owners.lookup n = some i →
    r'.owners.lookup n = some i ∧ r'.definitions.lookup n = r.definitions.lookup n
  new : ∀ n i, r'.owners.lookup n = some i →
    r.owners.lookup n = some i ∨ (inputs i).component? = some n

omit [DecidableEq ι] in
theorem OutputStep.refl (r : SchemaRegistry ι) : OutputStep inputs r r where
  rest := rfl
  old _ _ h := ⟨h, rfl⟩
  new _ _ h := .inl h

omit [DecidableEq ι] in
theorem OutputStep.trans {r r' r'' : SchemaRegistry ι} (h : OutputStep inputs r r')
    (h' : OutputStep inputs r' r'') : OutputStep inputs r r'' where
  rest := by
    rw [h'.rest, h.rest]
  old n i hn := by
    obtain ⟨ho, hd⟩ := h.old n i hn
    obtain ⟨ho', hd'⟩ := h'.old n i ho
    exact ⟨ho', hd'.trans hd⟩
  new n i hn := (h'.new n i hn).elim (h.new n i) .inr

omit [DecidableEq ι] in
theorem OutputStep.defined {r r' : SchemaRegistry ι} (h : OutputStep inputs r r') {i : ι}
    (hi : Defined inputs r i) : Defined inputs r' i := by
  obtain ⟨name, hname, howner⟩ := hi
  exact ⟨name, hname, (h.old _ _ howner).1⟩

omit [DecidableEq ι] in
theorem defined_insert {r : SchemaRegistry ι} {i j : ι} {name : String}
    (hname : (inputs i).component? = some name) (hfresh : r.owners.lookup name = none)
    {definitions : Table String Json} :
    Defined inputs { r with owners := r.owners.insert name i, definitions } j ↔
      j = i ∨ Defined inputs r j := by
  constructor
  · rintro ⟨name', hname', howner⟩
    rw [Table.lookup_insert] at howner
    split at howner
    · exact .inl (Option.some.inj howner).symm
    · exact .inr ⟨name', hname', howner⟩
  · rintro (rfl | ⟨name', hname', howner⟩)
    · exact ⟨name, hname, by rw [Table.lookup_insert, if_pos rfl]⟩
    · refine ⟨name', hname', ?_⟩
      rw [Table.lookup_insert, if_neg]
      · exact howner
      · rintro rfl
        rw [hfresh] at howner
        cases howner

/-- A type whose output is about to be built. -/
theorem Outputs.begin {r : SchemaRegistry ι} {pending : Finset ι} (h : Outputs inputs r pending)
    {i : ι} {name : String} (hname : (inputs i).component? = some name)
    (hfresh : r.owners.lookup name = none) :
    Outputs inputs { r with
      owners := r.owners.insert name i
      definitions := r.definitions.insert name .null } (insert i pending) where
  document := h.document
  owner n j hn := by
    rw [Table.lookup_insert] at hn
    split at hn
    · rename_i heq
      cases hn
      exact ⟨name, hname, .inl heq⟩
    · exact h.owner n j hn
  keys n := by
    rw [Table.lookup_insert, Table.lookup_insert]
    split
    · rfl
    · exact h.keys n
  output j hj hpending := by
    rw [Finset.mem_insert, not_or] at hpending
    obtain ⟨name', hname', howner⟩ := ((defined_insert hname hfresh).mp hj).resolve_left hpending.1
    obtain ⟨name'', schema, hname'', hlookup, hbody⟩ :=
      h.output j ⟨name', hname', howner⟩ hpending.2
    rw [hname'] at hname''
    cases hname''
    refine ⟨name', schema, hname', ?_, hbody⟩
    rw [Table.lookup_insert, if_neg]
    · exact hlookup
    · rintro rfl
      rw [hfresh] at howner
      cases howner
  closed j hj hpending c hc := by
    rw [Finset.mem_insert, not_or] at hpending
    have hj' := ((defined_insert hname hfresh).mp hj).resolve_left hpending.1
    exact (defined_insert hname hfresh).mpr (.inr (h.closed j hj' hpending.2 c hc))

/-- The output of a type has been built. -/
theorem Outputs.finish {r : SchemaRegistry ι} {pending : Finset ι} {i : ι} {name : String}
    {schema : Json} (h : Outputs inputs r (insert i pending))
    (hname : (inputs i).component? = some name) (howner : r.owners.lookup name = some i)
    (hbody : Body inputs ∅ false i schema) (hmentions : ∀ c, Mentions inputs i c → Defined inputs r c) :
    Outputs inputs { r with definitions := r.definitions.insert name schema } pending where
  document := h.document
  owner := h.owner
  keys n := by
    rw [Table.lookup_insert]
    split
    · rename_i heq
      rw [heq, howner]
      rfl
    · exact h.keys n
  output j hj hpending := by
    by_cases hji : j = i
    · rw [hji]
      exact ⟨name, schema, hname, by rw [Table.lookup_insert, if_pos rfl], hbody⟩
    · obtain ⟨name', schema', hname', hlookup, hbody'⟩ := h.output j hj (by simp [hji, hpending])
      refine ⟨name', schema', hname', ?_, hbody'⟩
      rw [Table.lookup_insert, if_neg]
      · exact hlookup
      · -- a component has one owner
        rintro rfl
        obtain ⟨name'', hname'', howner''⟩ := hj
        rw [hname'] at hname''
        cases hname''
        rw [howner] at howner''
        exact hji (Option.some.inj howner'').symm
  closed j hj hpending c hc := by
    by_cases hji : j = i
    · exact hmentions c (hji ▸ hc)
    · exact h.closed j hj (by simp [hji, hpending]) c hc

/-! ## Calls -/

/-- What a call for an output does on a document, unless it finds a conflict. -/
def OutputsCall (inputs : ι → DeriveInput ι) (named : Named ι) : Prop :=
  ∀ i r schema r' pending, Outputs inputs r pending → named false i r = some (schema, r') →
    r'.conflicts = [] → Outputs inputs r' pending ∧ OutputStep inputs r r' ∧
      Answers inputs ∅ false i schema ∧ ∀ c, Leads inputs i c → Defined inputs r' c

/-- The questions of a body, one after the other. -/
theorem OutputsCall.mapM {fuel : ℕ} (h : OutputsCall inputs (derived inputs fuel))
    {asks : List (Ask ι)} {answers : List Json} {r r' : SchemaRegistry ι} {pending : Finset ι}
    (hr : Outputs inputs r pending)
    (hrun : asks.mapM (Ask.run (derived inputs fuel) false) r = some (answers, r'))
    (hconflicts : r'.conflicts = []) :
    Outputs inputs r' pending ∧ OutputStep inputs r r' ∧
      List.Forall₂ (AskAnswers inputs ∅ false) asks answers ∧
        ∀ k, Ask.mention k ∈ asks → ∀ c, Leads inputs k c → Defined inputs r' c := by
  induction asks generalizing r answers with
  | nil =>
    cases hrun
    exact ⟨hr, .refl _, .nil, fun k hk => absurd hk List.not_mem_nil⟩
  | cons q asks ih =>
    rw [List.mapM_cons] at hrun
    obtain ⟨schema, r₁, hfirst, hrun⟩ := eq_some_of_bind hrun
    obtain ⟨schemas, r₂, hrest, hrun⟩ := eq_some_of_bind hrun
    cases hrun
    -- no conflict was found meanwhile
    have hconflicts₁ := (conflictsStay_asks fuel false asks _ _ _ hrest).eq_nil hconflicts
    cases q with
    | mention k =>
      obtain ⟨hr₁, hstep, hanswer, hleads⟩ := h k r schema r₁ pending hr hfirst hconflicts₁
      obtain ⟨hr', hstep', hanswers, hall⟩ := ih hr₁ hrest
      refine ⟨hr', hstep.trans hstep', .cons hanswer hanswers, fun k' hk' c hc => ?_⟩
      rcases List.mem_cons.mp hk' with heq | hk'
      · cases heq
        exact hstep'.defined (hleads c hc)
      · exact hall k' hk' c hc
    | flattened k =>
      obtain ⟨_, hmap, heq⟩ := Option.bind_eq_some_iff.mp hfirst
      obtain ⟨p, hp, rfl⟩ := Option.map_eq_some_iff.mp hmap
      cases heq
      obtain ⟨hr', hstep', hanswers, hall⟩ := ih hr hrest
      refine ⟨hr', hstep', .cons ⟨fuel, p.2, hp⟩ hanswers, fun k' hk' c hc => ?_⟩
      rcases List.mem_cons.mp hk' with heq | hk'
      · cases heq
      · exact hall k' hk' c hc

/-- `define` registers the output of a type and of everything that it mentions. -/
theorem OutputsCall.define {fuel : ℕ} (h : OutputsCall inputs (derived inputs fuel)) {i : ι}
    {name : String} (hname : (inputs i).component? = some name) {r r' : SchemaRegistry ι}
    {pending : Finset ι} {schema : Json} (hr : Outputs inputs r pending)
    (hrun : define i name (((inputs i).plan false).run (Ask.run (derived inputs fuel) false)) r =
      some (schema, r'))
    (hconflicts : r'.conflicts = []) :
    Outputs inputs r' pending ∧ OutputStep inputs r r' ∧ schema = reference name ∧
      r'.owners.lookup name = some i := by
  unfold SchemaRegistry.define at hrun
  rw [if_neg (by simp [hr.document])] at hrun
  cases howner : r.owners.lookup name with
  | some existing =>
    rw [howner] at hrun
    cases hrun
    -- a name that is taken: by the type itself, or there is a conflict
    by_cases hexisting : existing = i
    · rw [if_pos hexisting] at hconflicts ⊢
      exact ⟨hr, .refl r, rfl, hexisting ▸ howner⟩
    · rw [if_neg hexisting] at hconflicts
      exact absurd hconflicts (conflict_ne_nil r name)
  | none =>
    rw [howner] at hrun
    obtain ⟨⟨built, r₂⟩, hbuild, heq⟩ := Option.bind_eq_some_iff.mp hrun
    cases heq
    obtain ⟨answers, r₃, hasks, hanswer⟩ := eq_some_of_bind hbuild
    cases hanswer
    -- the questions of the body are asked while the type itself is pending
    obtain ⟨hr₂, hstep, hanswers, hall⟩ := h.mapM (hr.begin hname howner) hasks hconflicts
    rw [DeriveInput.asks_plan] at hanswers hall
    have howner₂ : r₂.owners.lookup name = some i :=
      (hstep.old name i (by rw [Table.lookup_insert, if_pos rfl])).1
    refine ⟨hr₂.finish hname howner₂ ⟨answers, hanswers, rfl⟩ fun c hc => ?_, ⟨?_, ?_, ?_⟩, rfl,
      howner₂⟩
    · obtain ⟨k, hk, hleads⟩ := hc
      exact hall k hk c hleads
    · rw [hstep.rest]
    · intro n j hn
      -- a component from before is not the one that was built
      have hne : n ≠ name := by
        rintro rfl
        rw [howner] at hn
        cases hn
      obtain ⟨ho, hd⟩ := hstep.old n j (by rw [Table.lookup_insert, if_neg hne, hn])
      rw [Table.lookup_insert, if_neg hne] at hd
      refine ⟨ho, ?_⟩
      rw [Table.lookup_insert, if_neg hne, hd]
    · intro n j hn
      rcases hstep.new n j hn with hold | hnew
      · rw [Table.lookup_insert] at hold
        split at hold
        · rename_i heq
          cases hold
          exact .inr (heq ▸ hname)
        · exact .inl hold
      · exact .inr hnew

omit [DecidableEq ι] in
/-- A component leads to itself only. -/
theorem eq_of_leads {i c : ι} {name : String} (hname : (inputs i).component? = some name)
    (h : Leads inputs i c) : c = i := by
  cases h with
  | component _ => rfl
  | forward hforwards _ =>
    rw [hforwards.1] at hname
    cases hname

/-- The answers for the types that `i` forwards to are answers for `i`. -/
theorem answers_of_transparent {D : Finset ι} {request : Bool} {i : ι}
    (hnone : (inputs i).component? = none) {answers : List Json}
    (h : List.Forall₂ (AskAnswers inputs D request) (inputs i).asks answers) :
    Answers inputs D request i (((inputs i).plan request).answer answers) := by
  cases hinput : inputs i with
  | struct _ _ | enum _ _ =>
    rw [hinput] at hnone
    cases hnone
  | transparent type =>
    rw [hinput, DeriveInput.asks, RustType.asks] at h
    show Answers inputs D request i ((type.plan .mention).answer answers)
    unfold RustType.plan
    cases hk : type.named? with
    | none => exact .scalar hinput hk
    | some k =>
      rw [hk] at h
      cases h with
      | cons hanswer hrest =>
        cases hrest
        exact .forward hinput hk hanswer

omit [DecidableEq ι] in
theorem mention_of_forwards {i c : ι} (hnone : (inputs i).component? = none)
    (h : Leads inputs i c) : ∃ k, Ask.mention k ∈ (inputs i).asks ∧ Leads inputs k c := by
  cases h with
  | component hname =>
    rw [hnone] at hname
    cases hname
  | forward hforwards hk => exact ⟨_, hforwards.2, hk⟩

/-- **Calls for outputs** keep the components of a document in order. -/
theorem outputs_call (fuel : ℕ) : OutputsCall inputs (derived inputs fuel) := by
  induction fuel with
  | zero =>
    intro i r schema r' pending _ hrun
    cases hrun
  | succ fuel ih =>
    intro i r schema r' pending hr hrun hconflicts
    cases hcomponent : (inputs i).component? with
    | some name =>
      rw [derived_of_some inputs fuel false hcomponent, if_neg Bool.false_ne_true] at hrun
      obtain ⟨hr', hstep, rfl, howner⟩ := ih.define hcomponent hr hrun hconflicts
      refine ⟨hr', hstep, .component hcomponent, ?_⟩
      intro c hc
      rw [eq_of_leads hcomponent hc]
      exact ⟨name, hcomponent, howner⟩
    | none =>
      rw [derived_of_none inputs fuel false hcomponent] at hrun
      obtain ⟨answers, r₁, hasks, hanswer⟩ := eq_some_of_bind hrun
      cases hanswer
      obtain ⟨hr', hstep, hanswers, hall⟩ := ih.mapM hr hasks hconflicts
      rw [DeriveInput.asks_plan] at hanswers hall
      refine ⟨hr', hstep, answers_of_transparent hcomponent hanswers, ?_⟩
      intro c hc
      obtain ⟨k, hk, hleads⟩ := mention_of_forwards hcomponent hc
      exact hall k hk c hleads

end Components

end OasRs.Schema
