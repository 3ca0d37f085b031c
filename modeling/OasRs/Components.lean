import OasRs.RequestComponents
import Mathlib.Logic.Relation

/-!
# The Components of a Document

Which components the registry of a document holds after any sequence of calls, for any derived
types: the output of every type that was reached, and a request form for exactly the types that
requests reach and that differ.

## Main results

- `Defines`: the components that calls should leave
- `Accounts`: what holds after any calls
- `components_exact`
-/

namespace OasRs.Schema

open Lib SchemaRegistry Relation

variable {ι : Type} [DecidableEq ι] (inputs : ι → DeriveInput ι)

/-! ## What calls should leave -/

/-- A type whose schema is asked for: `request_schema_with` if the flag is set. -/
abbrev Asked (ι : Type) : Type := Bool × RustType ι

/-- The generated code of `a` asks for a schema of `b` in the same registry. -/
def Names (a b : ι) : Prop := Ask.mention b ∈ (inputs a).asks

/-- A type that the calls reach. -/
def Reached (asked : List (Asked ι)) (i : ι) : Prop :=
  ∃ a ∈ asked, ∃ k ∈ a.2.named?, ReflTransGen (Names inputs) k i

/-- A type that the calls for requests reach. -/
def Requested (asked : List (Asked ι)) (i : ι) : Prop :=
  ∃ a ∈ asked, a.1 = true ∧ ∃ k ∈ a.2.named?, ReflTransGen (Names inputs) k i

/-- The components that calls should leave. -/
inductive Defines (asked : List (Asked ι)) : String → Json → Prop where
  | output {i : ι} {name : String} {schema : Json} (h : Reached inputs asked i)
      (hname : (inputs i).component? = some name) (hbody : Body inputs ∅ false i schema) :
      Defines asked name schema
  | request {i : ι} {name : String} {schema : Json} (h : Requested inputs asked i)
      (hname : (inputs i).component? = some name) (hdiffers : Differs inputs i) (D : Finset ι)
      (hD : ∀ c, Mentions inputs i c → (c ∈ D ↔ Differs inputs c))
      (hbody : Body inputs D true i schema) : Defines asked (inputName name) schema

variable {inputs} {asked : List (Asked ι)} {i : ι}

omit [DecidableEq ι] in
theorem Requested.reached (h : Requested inputs asked i) : Reached inputs asked i := by
  obtain ⟨a, ha, -, hreaches⟩ := h
  exact ⟨a, ha, hreaches⟩

omit [DecidableEq ι] in
/-- The way to a component: to the one that a type comes to, and from component to component. -/
theorem exists_leads {k : ι} {name : String} (h : ReflTransGen (Names inputs) k i)
    (hname : (inputs i).component? = some name) :
    ∃ c, Leads inputs k c ∧ ReflTransGen (Mentions inputs) c i := by
  induction h using ReflTransGen.head_induction_on with
  | refl => exact ⟨i, .component hname, .refl⟩
  | @head a b hab _ ih =>
    obtain ⟨c, hleads, hreaches⟩ := ih
    cases hcomponent : (inputs a).component? with
    | some _ => exact ⟨a, .component hcomponent, .head ⟨b, hab, hleads⟩ hreaches⟩
    | none => exact ⟨c, .forward ⟨hcomponent, hab⟩ hleads, hreaches⟩

namespace Components

/-! ## What calls do not touch -/

/-- Only types of `O` get components, and only types of `I` get request forms. -/
structure Touches (O I : ι → Prop) (r r' : SchemaRegistry ι) : Prop where
  owners : ∀ n j, r'.owners.lookup n = some j → r.owners.lookup n = some j ∨ O j
  inputs : ∀ j, r'.inputs.lookup j ≠ none → r.inputs.lookup j ≠ none ∨ I j

variable {O I : ι → Prop}

theorem Touches.refl (r : SchemaRegistry ι) : Touches O I r r where
  owners _ _ := .inl
  inputs _ := .inl

theorem Touches.trans {r₁ r₂ r₃ : SchemaRegistry ι} (h : Touches O I r₁ r₂)
    (h' : Touches O I r₂ r₃) : Touches O I r₁ r₃ where
  owners n j hn := (h'.owners n j hn).elim (h.owners n j) .inr
  inputs j hj := (h'.inputs j hj).elim (h.inputs j) .inr

theorem touches_conflict (r : SchemaRegistry ι) (name : String) :
    Touches O I r (r.conflict name) := by
  unfold conflict
  split
  · exact .refl r
  · exact ⟨fun _ _ => .inl, fun _ => .inl⟩

theorem touches_define {name : String} {build : Gen ι Json} (hi : O i)
    (h : Moves (Touches O I) build) : Moves (Touches O I) (define i name build) := by
  intro r schema r' hrun
  cases hinline : r.inline with
  | true =>
    by_cases hstack : i ∈ r.stack
    · rw [define_of_cut hinline hstack] at hrun
      cases hrun
      exact .refl r
    · rw [define_of_inline hinline hstack] at hrun
      obtain ⟨⟨schema', r₁⟩, hbuild, heq⟩ := Option.map_eq_some_iff.mp hrun
      cases heq
      have htouches := h _ _ _ hbuild
      exact ⟨htouches.owners, htouches.inputs⟩
  | false =>
    unfold define at hrun
    rw [if_neg (by simp [hinline])] at hrun
    cases howner : r.owners.lookup name with
    | some existing =>
      rw [howner] at hrun
      cases hrun
      split
      · exact .refl r
      · exact touches_conflict r name
    | none =>
      rw [howner] at hrun
      obtain ⟨⟨schema', r₁⟩, hbuild, heq⟩ := Option.bind_eq_some_iff.mp hrun
      cases heq
      have htouches := h _ _ _ hbuild
      refine ⟨fun n j hn => ?_, htouches.inputs⟩
      rcases htouches.owners n j hn with hn | hj
      · rw [Table.lookup_insert] at hn
        split at hn
        · cases hn
          exact .inr hi
        · exact .inl hn
      · exact .inr hj

theorem touches_discard (r : SchemaRegistry ι) (start : ℕ) :
    Touches O I r (r.discard start) where
  owners n j hn := by
    rw [owners_discard] at hn
    split at hn
    · cases hn
    · exact .inl hn
  inputs j hj := by
    rw [inputs_discard] at hj
    split at hj
    · exact absurd rfl hj
    · exact .inl hj

theorem touches_finish (r : SchemaRegistry ι) (hi : I i) (result : Json) (defined : Option String) :
    Touches O I r (r.finish i result defined) where
  owners _ _ := .inl
  inputs j hj := by
    rw [finish, Table.lookup_insert] at hj
    split at hj
    · exact .inr (‹j = i› ▸ hi)
    · exact .inl hj

theorem touches_registerInput (r : SchemaRegistry ι) (hi : O i) (name : String) (built : Json) :
    Touches O I r (r.registerInput i name built) := by
  have hregister : Touches O I r { r with
      owners := r.owners.insert (inputName name) i
      definitions := r.definitions.insert (inputName name) built } := by
    refine ⟨fun n j hn => ?_, fun _ => .inl⟩
    rw [Table.lookup_insert] at hn
    split at hn
    · cases hn
      exact .inr hi
    · exact .inl hn
  unfold registerInput
  split
  · split
    · exact hregister
    · exact touches_conflict r _
  · exact hregister

theorem touches_defineInput {name : String} {output input : Gen ι Json} (hO : O i) (hI : I i)
    (houtput : Moves (Touches O I) output) (hinput : Moves (Touches O I) input) :
    Moves (Touches O I) (defineInput i name output input) := by
  intro r schema r' hrun
  cases hinline : r.inline with
  | true =>
    rw [defineInput, if_pos hinline] at hrun
    exact touches_define hO hinput r schema r' hrun
  | false =>
    cases hlookup : r.inputs.lookup i with
    | some state =>
      cases state with
      | done schema =>
        rw [defineInput_of_done hinline hlookup] at hrun
        cases hrun
        exact .refl r
      | building =>
        rw [defineInput_of_building hinline hlookup] at hrun
        split at hrun <;> cases hrun <;> exact ⟨fun _ _ => .inl, fun _ => .inl⟩
    | none =>
      -- the output, then the body once, and once more if the type turns out to differ
      obtain ⟨outputRef, r₁, built, r₂, hdefine, hfirst⟩ :=
        exists_of_defineInput hinline hlookup hrun
      have hbegin : Touches O I r { r with inputs := r.inputs.insert i .building } := by
        refine ⟨fun _ _ => .inl, fun j hj => ?_⟩
        rw [Table.lookup_insert] at hj
        split at hj
        · exact .inr (‹j = i› ▸ hI)
        · exact .inl hj
      have h₂ := (hbegin.trans (touches_define hO houtput _ _ _ hdefine)).trans (hinput _ _ _ hfirst)
      rw [defineInput_of_new hinline hlookup hdefine hfirst] at hrun
      split at hrun
      · cases hrun
        exact h₂.trans (touches_finish r₂ hI _ _)
      · obtain ⟨⟨built', r₃⟩, hsecond, heq⟩ := Option.map_eq_some_iff.mp hrun
        cases heq
        have h₃ : Touches O I r r₃ := by
          split at hsecond
          · -- what was taken back counts for nothing
            have hdiffers : Touches O I r₂ { r₂ with
                inputDiffers := insert i r₂.inputDiffers
                assumedSame := r₂.assumedSame.erase i } := ⟨fun _ _ => .inl, fun _ => .inl⟩
            exact ((h₂.trans hdiffers).trans (touches_discard _ _)).trans (hinput _ _ _ hsecond)
          · cases hsecond
            exact ⟨h₂.owners, h₂.inputs⟩
        exact (h₃.trans (touches_registerInput r₃ hO name built')).trans (touches_finish _ hI _ _)

/-- A call touches what it reaches. -/
theorem touches_derived (hO : ∀ a b, O a → Names inputs a b → O b)
    (hI : ∀ a b, I a → Names inputs a b → I b) (fuel : ℕ) (request : Bool) (i : ι) (hi : O i)
    (hrequest : request = true → I i) : Moves (Touches O I) (derived inputs fuel request i) := by
  induction fuel generalizing request i with
  | zero =>
    intro r schema r' hrun
    cases hrun
  | succ fuel ih =>
    have hplan : ∀ request, (request = true → I i) → Moves (Touches O I)
        (((inputs i).plan request).run (Ask.run (derived inputs fuel) request)) := by
      intro request hrequest
      refine Moves.run Touches.refl (fun _ _ _ => Touches.trans) ?_
      intro q hq
      rw [DeriveInput.asks_plan] at hq
      cases q with
      | mention k => exact ih request k (hO i k hi hq) fun h => hI i k (hrequest h) hq
      | flattened k => exact Moves.lift Touches.refl _
    cases hcomponent : (inputs i).component? with
    | some name =>
      rw [derived_of_some inputs fuel request hcomponent]
      split
      · rename_i h
        exact touches_defineInput hi (hrequest h) (hplan false nofun) (hplan true fun _ => hrequest h)
      · exact touches_define hi (hplan false nofun)
    | none =>
      rw [derived_of_none inputs fuel request hcomponent]
      exact hplan request hrequest

/-! ## After any calls -/

/-- Ask for the schema of a type. -/
def ask (named : Named ι) (a : Asked ι) : Gen ι Json := a.2.schemaWith named a.1

omit [DecidableEq ι] in
/-- Calls in a row. -/
theorem mapM_append_eq_some {named : Named ι} {first second : List (Asked ι)}
    {answers answers' : List Json} {r r₁ r' : SchemaRegistry ι}
    (h : first.mapM (ask named) r = some (answers, r₁))
    (h' : second.mapM (ask named) r₁ = some (answers', r')) :
    (first ++ second).mapM (ask named) r = some (answers ++ answers', r') := by
  rw [List.mapM_append, bind_apply, h]
  show (second.mapM (ask named) >>= fun bs => pure (answers ++ bs)) r₁ = _
  rw [bind_apply, h']
  rfl

/-- The registry of a document after the calls. -/
structure Accounts (inputs : ι → DeriveInput ι) (asked : List (Asked ι)) (r : SchemaRegistry ι) :
    Prop where
  requests : Requests inputs r
  idle : ∀ i, r.inputs.lookup i ≠ some .building
  reached : ∀ n i, r.owners.lookup n = some i → Reached inputs asked i
  requested : ∀ i, r.inputs.lookup i ≠ none → Requested inputs asked i
  defined : ∀ a ∈ asked, ∀ k ∈ a.2.named?, ∀ c, Leads inputs k c → Defined inputs r c
  settled : ∀ a ∈ asked, a.1 = true → ∀ k ∈ a.2.named?, ∀ c, Leads inputs k c → Settled r c

variable {r r' : SchemaRegistry ι}

theorem accounts_document : Accounts inputs [] document where
  requests :=
    { outputs := ⟨rfl, nofun, fun _ => rfl, nofun, nofun⟩
      building := nofun
      done := nofun
      keys := nofun
      finished := nofun
      registered := nofun
      changed := nofun }
  idle _ := nofun
  reached _ _ := nofun
  requested _ h := absurd rfl h
  defined := nofun
  settled := nofun

/-- With nothing being built, a type that is settled is done. -/
theorem Accounts.exists_form (h : Accounts inputs asked r) (hi : Settled r i) :
    ∃ answer name built, Form inputs r i answer name built := by
  obtain ⟨state, hlookup, -⟩ := hi
  cases state with
  | building => exact absurd hlookup (h.idle i)
  | done answer =>
    obtain ⟨name, built, hform⟩ := h.requests.done i answer hlookup
    exact ⟨answer, name, built, hform⟩

theorem Form.defined {answer built : Json} {name : String} (h : Form inputs r i answer name built) :
    Defined inputs r i := ⟨name, h.component, h.owner⟩

/-- Every reference of a schema is the key of a component. -/
def Resolves (r : SchemaRegistry ι) (schema : Json) : Prop :=
  CitesOnly (fun text => ∃ n, text = "#/components/schemas/" ++ n ∧
    (r.definitions.lookup n).isSome = true) schema

theorem Resolves.mono {own : Option ι} (hr : Requests inputs r) (hstep : Step own r r') {schema : Json}
    (h : Resolves r schema) : Resolves r' schema := by
  refine CitesOnly.mono ?_ h
  rintro text ⟨n, rfl, hn⟩
  refine ⟨n, rfl, ?_⟩
  have howner := hr.outputs.keys n
  rw [hn] at howner
  obtain ⟨j, hj⟩ := Option.isSome_iff_exists.mp howner.symm
  rw [(hstep.tables n j hj).2]
  exact hn

/-- The form of a type is a key. -/
theorem Accounts.isSome_lookup (h : Accounts inputs asked r) {request : Bool} {name : String}
    (hname : (inputs i).component? = some name) (hi : Defined inputs r i)
    (hsettled : request = true → Settled r i) :
    (r.definitions.lookup (formName r.inputDiffers request i name)).isSome = true := by
  have hkeys := h.requests.outputs.keys
  unfold formName
  by_cases hboth : request = true ∧ i ∈ r.inputDiffers
  · rw [if_pos hboth]
    obtain ⟨_, name', _, hform⟩ := h.exists_form (hsettled hboth.1)
    have hname' := hform.component
    rw [hname] at hname'
    cases hname'
    rw [hkeys, (hform.differs hboth.2).1]
    rfl
  · rw [if_neg hboth]
    obtain ⟨name', hname', howner⟩ := hi
    rw [hname] at hname'
    cases hname'
    rw [hkeys, howner]
    rfl

/-- What a call for a derived type does. -/
theorem Accounts.call {fuel : ℕ} {request : Bool} (h : Accounts inputs asked r) {schema : Json}
    (hrun : derived inputs fuel request i r = some (schema, r')) (hconflicts : r'.conflicts = []) :
    Requests inputs r' ∧ Step none r r' ∧ Answers inputs r'.inputDiffers request i schema ∧
      (∀ c, Leads inputs i c → Defined inputs r' c) ∧
        (request = true → ∀ c, Leads inputs i c → Settled r' c) ∧
          ∀ i, r'.inputs.lookup i ≠ some .building := by
  cases request with
  | false =>
    obtain ⟨houtputs, hstep, hanswer, hleads⟩ :=
      outputs_call fuel i r schema r' ∅ h.requests.outputs hrun hconflicts
    obtain ⟨hr', hstep'⟩ := h.requests.output houtputs hstep
    refine ⟨hr', hstep', hanswer.congr fun hfalse => absurd hfalse Bool.false_ne_true, hleads, nofun, ?_⟩
    intro j
    rw [hstep.rest]
    exact h.idle j
  | true =>
    obtain ⟨hr', hstep, hanswer, hleads⟩ := requests_call fuel i r schema r' h.requests hrun hconflicts
    have hidle : ∀ i, r'.inputs.lookup i ≠ some .building := by
      intro j hj
      rcases hstep.new j _ hj with hj | hown | ⟨n, hn⟩
      · exact h.idle j hj
      · cases hown
      · obtain ⟨answer, hdone⟩ := hr'.finished _ (List.mem_of_mem_drop hn)
        rw [hj] at hdone
        cases hdone
    refine ⟨hr', hstep, hanswer, ?_, fun _ => hleads, hidle⟩
    intro c hc
    obtain ⟨state, hstate, -⟩ := hleads c hc
    cases state with
    | building => exact absurd hstate (hidle c)
    | done answer =>
      obtain ⟨name, built, hform⟩ := hr'.done c answer hstate
      exact hform.defined

/-- One more type is asked for. -/
theorem Accounts.ask {fuel : ℕ} (h : Accounts inputs asked r) (a : Asked ι) {schema : Json}
    (hrun : ask (derived inputs fuel) a r = some (schema, r')) (hconflicts : r'.conflicts = []) :
    Accounts inputs (asked ++ [a]) r' ∧ Step none r r' ∧ Resolves r' schema := by
  obtain ⟨request, type⟩ := a
  have hsub : ∀ {a'}, a' ∈ asked → a' ∈ asked ++ [(request, type)] := List.mem_append_left _
  unfold Components.ask at hrun
  cases hk : type.named? with
  | none =>
    -- nothing is asked
    rw [schemaWith_of_none _ request (fun _ => .null) hk] at hrun
    cases hrun
    refine ⟨?_, .refl r, RustType.schemaFor_citesOnly (fun _ => citesOnly_null) type⟩
    refine
      { requests := h.requests
        idle := h.idle
        reached := fun n i hn => ?_
        requested := fun i hi => ?_
        defined := fun a' ha' k hk' => ?_
        settled := fun a' ha' hflag k hk' => ?_ }
    · obtain ⟨a', ha', hreaches⟩ := h.reached n i hn
      exact ⟨a', hsub ha', hreaches⟩
    · obtain ⟨a', ha', hreaches⟩ := h.requested i hi
      exact ⟨a', hsub ha', hreaches⟩
    · rcases List.mem_append.mp ha' with ha' | ha'
      · exact h.defined a' ha' k hk'
      · rw [List.mem_singleton.mp ha', hk] at hk'
        cases hk'
    · rcases List.mem_append.mp ha' with ha' | ha'
      · exact h.settled a' ha' hflag k hk'
      · rw [List.mem_singleton.mp ha', hk] at hk'
        cases hk'
  | some k =>
    rw [schemaWith_of_some _ request hk] at hrun
    obtain ⟨inner, r₁, hcall, heq⟩ := eq_some_of_bind hrun
    cases heq
    -- one call, and it touches only what the type reaches
    obtain ⟨hr', hstep, hanswer, hdefined, hsettled, hidle⟩ := h.call hcall hconflicts
    have htouches := touches_derived (O := fun j => ReflTransGen (Names inputs) k j)
      (I := fun j => request = true ∧ ReflTransGen (Names inputs) k j)
      (fun _ _ h hnames => h.tail hnames) (fun _ _ h hnames => ⟨h.1, h.2.tail hnames⟩)
      fuel request k .refl (fun hflag => ⟨hflag, .refl⟩) r inner r' hcall
    have hlast : (request, type) ∈ asked ++ [(request, type)] :=
      List.mem_append_right _ (List.mem_singleton_self _)
    have haccounts : Accounts inputs (asked ++ [(request, type)]) r' := by
      refine
        { requests := hr'
          idle := hidle
          reached := fun n i hn => ?_
          requested := fun i hi => ?_
          defined := fun a' ha' k' hk' c hc => ?_
          settled := fun a' ha' hflag k' hk' c hc => ?_ }
      -- an owner, or a request form, is from before or is reached now
      · rcases htouches.owners n i hn with hn | hreaches
        · obtain ⟨a', ha', hreaches⟩ := h.reached n i hn
          exact ⟨a', hsub ha', hreaches⟩
        · exact ⟨_, hlast, k, hk, hreaches⟩
      · rcases htouches.inputs i hi with hi | ⟨hflag, hreaches⟩
        · obtain ⟨a', ha', hreaches⟩ := h.requested i hi
          exact ⟨a', hsub ha', hreaches⟩
        · exact ⟨_, hlast, hflag, k, hk, hreaches⟩
      · rcases List.mem_append.mp ha' with ha' | ha'
        -- earlier calls keep what they defined
        · exact hstep.defined (h.defined a' ha' k' hk' c hc)
        · rw [List.mem_singleton.mp ha', hk] at hk'
          cases hk'
          exact hdefined c hc
      · rcases List.mem_append.mp ha' with ha' | ha'
        · exact hstep.settled (h.settled a' ha' hflag k' hk' c hc)
        · rw [List.mem_singleton.mp ha'] at hk' hflag
          rw [hk] at hk'
          cases hk'
          exact hsettled hflag c hc
    refine ⟨haccounts, hstep, ?_⟩
    apply RustType.schemaFor_citesOnly
    intro _
    refine hanswer.citesOnly.mono ?_
    rintro text ⟨c, name, hleads, hname, rfl⟩
    exact ⟨_, rfl, haccounts.isSome_lookup hname (hdefined c hleads) fun hflag => hsettled hflag c hleads⟩

/-! ## What the registry holds -/

/-- A component that is reached is defined. -/
theorem Accounts.defined_of_reached (h : Accounts inputs asked r) {name : String}
    (hi : Reached inputs asked i) (hname : (inputs i).component? = some name) :
    Defined inputs r i := by
  obtain ⟨a, ha, k, hk, hreaches⟩ := hi
  obtain ⟨c, hleads, hmentions⟩ := exists_leads hreaches hname
  clear hname hreaches
  induction hmentions with
  | refl => exact h.defined a ha k hk c hleads
  | tail _ hstep ih => exact h.requests.outputs.closed _ ih (Finset.notMem_empty _) _ hstep

/-- One that requests reach is settled. -/
theorem Accounts.settled_of_requested (h : Accounts inputs asked r) {name : String}
    (hi : Requested inputs asked i) (hname : (inputs i).component? = some name) : Settled r i := by
  obtain ⟨a, ha, hflag, k, hk, hreaches⟩ := hi
  obtain ⟨c, hleads, hmentions⟩ := exists_leads hreaches hname
  clear hname hreaches
  induction hmentions with
  | refl => exact h.settled a ha hflag k hk c hleads
  | tail _ hstep ih =>
    obtain ⟨_, _, _, hform⟩ := h.exists_form ih
    exact hform.settled _ hstep

/-- **The types with a request form are those that differ.** -/
theorem Accounts.differs_iff (h : Accounts inputs asked r) (hi : Settled r i) :
    i ∈ r.inputDiffers ↔ Differs inputs i := by
  refine ⟨fun hmem => (h.requests.changed i hmem).2, fun hdiffers => ?_⟩
  induction hdiffers with
  | @intro i D hD hchanged ih =>
    by_contra hmem
    obtain ⟨answer, name, built, hform⟩ := h.exists_form hi
    -- of the types of `D`, those that count were found to differ
    obtain ⟨body, output, hbody, houtput, hne⟩ := hchanged
    have hsame : ∀ c, Mentions inputs i c → (c ∈ D ↔ c ∈ D ∩ r.inputDiffers) := by
      intro c hc
      rw [Finset.mem_inter]
      exact ⟨fun hcD => ⟨hcD, ih c hcD (hform.settled c hc)⟩, And.left⟩
    have hchanged : Changed inputs (D ∩ r.inputDiffers) i :=
      ⟨body, output, hbody.congr fun _ => hsame, houtput, hne⟩
    exact (hchanged.mono Finset.inter_subset_right).ne hform.body (hform.same hmem) rfl

/-- What the components are. -/
theorem Accounts.lookup_iff (h : Accounts inputs asked r) (n : String) (schema : Json) :
    r.definitions.lookup n = some schema ↔ Defines inputs asked n schema := by
  constructor
  · intro hlookup
    have hkeys := h.requests.outputs.keys n
    rw [hlookup] at hkeys
    obtain ⟨i, howner⟩ := Option.isSome_iff_exists.mp hkeys.symm
    rcases h.requests.keys n i howner with hname | hentry
    · obtain ⟨output, houtput, hbody⟩ := h.requests.exists_output hname ⟨n, hname, howner⟩
      rw [hlookup] at houtput
      cases houtput
      exact .output (h.reached n i howner) hname hbody
    · obtain ⟨-, hmem, name, hname, rfl⟩ := h.requests.registered i n hentry
      obtain ⟨answer, hdone⟩ := h.requests.finished _ hentry
      obtain ⟨name', built, hform⟩ := h.requests.done i answer hdone
      have hname' := hform.component
      rw [hname] at hname'
      cases hname'
      have hbuilt := (hform.differs hmem).2
      rw [hlookup] at hbuilt
      cases hbuilt
      refine .request (h.requested i (by simp [hdone])) hname (h.requests.changed i hmem).2
        r.inputDiffers ?_ hform.body
      exact fun c hc => h.differs_iff (hform.settled c hc)
  · intro hdefines
    cases hdefines with
    | @output i name schema hreached hname hbody =>
      obtain ⟨output, houtput, hbody'⟩ :=
        h.requests.exists_output hname (h.defined_of_reached hreached hname)
      rw [houtput, hbody.unique hbody']
    | @request i name schema hrequested hname hdiffers D hD hbody =>
      have hsettled := h.settled_of_requested hrequested hname
      obtain ⟨answer, name', built, hform⟩ := h.exists_form hsettled
      have hname' := hform.component
      rw [hname] at hname'
      cases hname'
      rw [(hform.differs ((h.differs_iff hsettled).mpr hdiffers)).2]
      -- the two bodies have the same answers
      have hbody' : Body inputs D true i _ := hform.body.congr fun _ c hc =>
        (h.differs_iff (hform.settled c hc)).trans (hD c hc).symm
      rw [hbody.unique hbody']

/-- **No reference dangles** in what was built. -/
theorem Accounts.resolves (h : Accounts inputs asked r) {n : String} {schema : Json}
    (hlookup : r.definitions.lookup n = some schema) : Resolves r schema := by
  cases (h.lookup_iff n schema).mp hlookup with
  | @output i name schema hreached hname hbody =>
    have hi := h.defined_of_reached hreached hname
    refine hbody.citesOnly.mono ?_
    rintro text ⟨c, name', hc, hname', rfl⟩
    have hdefined := h.requests.outputs.closed i hi (Finset.notMem_empty i) c hc
    have hkey := @Accounts.isSome_lookup _ _ _ _ _ _ h false _ hname' hdefined nofun
    exact ⟨_, rfl, hkey⟩
  | @request i name schema hrequested hname hdiffers D hD hbody =>
    obtain ⟨_, _, _, hform⟩ := h.exists_form (h.settled_of_requested hrequested hname)
    have hbody' : Body inputs r.inputDiffers true i schema := hbody.congr fun _ c hc =>
      (hD c hc).trans (h.differs_iff (hform.settled c hc)).symm
    refine hbody'.citesOnly.mono ?_
    rintro text ⟨c, name', hc, hname', rfl⟩
    obtain ⟨_, _, _, hform'⟩ := h.exists_form (hform.settled c hc)
    exact ⟨_, rfl, h.isSome_lookup hname' hform'.defined fun _ => hform.settled c hc⟩

theorem conflictsStay_ask (fuel : ℕ) (a : Asked ι) :
    Moves ConflictsStay (ask (derived inputs fuel) a) := by
  unfold Components.ask
  cases hk : a.2.named? with
  | none =>
    rw [schemaWith_of_none _ a.1 (fun _ => .null) hk]
    exact Moves.pure ConflictsStay.refl _
  | some k =>
    rw [schemaWith_of_some _ a.1 hk]
    apply Moves.bind (fun r₁ r₂ r₃ => @ConflictsStay.trans ι r₁ r₂ r₃) (conflicts_le fuel a.1 k)
    exact fun schema => Moves.pure ConflictsStay.refl _

/-- Conflicts that were found stay through any calls. -/
theorem conflictsStay_calls (fuel : ℕ) (asked : List (Asked ι)) :
    Moves ConflictsStay (asked.mapM (ask (derived inputs fuel))) :=
  Moves.mapM ConflictsStay.refl (fun _ _ _ => ConflictsStay.trans) fun a _ => conflictsStay_ask fuel a

/-- After any calls, the registry accounts for them. -/
theorem Accounts.run {fuel : ℕ} {more : List (Asked ι)} (h : Accounts inputs asked r)
    {answers : List Json}
    (hrun : more.mapM (Components.ask (derived inputs fuel)) r = some (answers, r'))
    (hconflicts : r'.conflicts = []) :
    Accounts inputs (asked ++ more) r' ∧ Step none r r' ∧ ∀ schema ∈ answers, Resolves r' schema := by
  induction more generalizing asked r answers with
  | nil =>
    cases hrun
    rw [List.append_nil]
    exact ⟨h, .refl _, nofun⟩
  | cons a more ih =>
    rw [List.mapM_cons] at hrun
    obtain ⟨schema, r₁, hfirst, hrun⟩ := eq_some_of_bind hrun
    obtain ⟨schemas, r₂, hrest, hrun⟩ := eq_some_of_bind hrun
    cases hrun
    have hconflicts₁ : r₁.conflicts = [] :=
      (conflictsStay_calls fuel more _ _ _ hrest).eq_nil hconflicts
    obtain ⟨h₁, hstep₁, hresolves⟩ := h.ask a hfirst hconflicts₁
    obtain ⟨h', hstep', hall⟩ := ih h₁ hrest
    rw [List.append_assoc] at h'
    refine ⟨h', hstep₁.trans hstep', ?_⟩
    intro schema' hmem
    rcases List.mem_cons.mp hmem with rfl | hmem
    · exact hresolves.mono h₁.requests hstep'
    · exact hall schema' hmem

end Components

open Components

/-- **The components of a document are exact**, for any derived types: structs and enums in any form,
flattened or recursive. After any sequence of calls that returned and found no conflict of names, the
registry holds the output of every type that was reached and the request form of exactly those types
that requests reach and that differ, each built as the others turned out to be, and nothing else; so
the order of the calls does not matter. Every reference in the components and in the answers resolves. -/
theorem components_exact {fuel : ℕ} {answers : List Json} {r : SchemaRegistry ι}
    (hrun : asked.mapM (ask (derived inputs fuel)) document = some (answers, r))
    (hconflicts : r.conflicts = []) :
    (∀ n schema, r.definitions.lookup n = some schema ↔ Defines inputs asked n schema) ∧
      (∀ n schema, r.definitions.lookup n = some schema → Resolves r schema) ∧
        ∀ schema ∈ answers, Resolves r schema := by
  obtain ⟨haccounts, -, hanswers⟩ := accounts_document.run hrun hconflicts
  rw [List.nil_append] at haccounts
  exact ⟨haccounts.lookup_iff, fun n schema => haccounts.resolves, hanswers⟩

/-- Orders with items that have a note, which may be left out of responses only, or an order. -/
def orders : Fin 2 → DeriveInput (Fin 2)
  | 0 => .struct "Order"
    { fields := [{ wire := "id", type := .scalar (.int .u64) },
                 { wire := "items", type := .vec (.named ⟨1, Nat.one_lt_two⟩) }] }
  | 1 => .enum "Item"
    { tagging := .adjacent "kind" "content"
      variants := [{ wire := "note", payload := .named
                      [{ wire := "text", type := .scalar .string, skipSerializingIf := true }] },
                   { wire := "order", payload := .newtype (.named ⟨0, Nat.two_pos⟩) }] }

/-- The order is assumed not to differ while the item is built, which is built again when it does. -/
theorem components_exact_orders : ∃ answers r,
    [(true, RustType.named 0), (false, .vec (.named 1))].mapM (ask (derived orders 9)) document =
        some (answers, r) ∧
      (r.definitions.lookup "OrderInput").isSome = true ∧
        (∀ n schema, r.definitions.lookup n = some schema ↔
          Defines orders [(true, RustType.named 0), (false, .vec (.named 1))] n schema) ∧
          (∀ n schema, r.definitions.lookup n = some schema → Resolves r schema) ∧
            ∀ schema ∈ answers, Resolves r schema := by
  have hrun : ([(true, RustType.named 0), (false, .vec (.named 1))].mapM (ask (derived orders 9))
      document).map (fun p => (p.2.conflicts, (p.2.definitions.lookup "OrderInput").isSome)) =
        some ([], true) := by
    decide +kernel
  obtain ⟨⟨answers, r⟩, hanswers, heq⟩ := Option.map_eq_some_iff.mp hrun
  obtain ⟨hconflicts, hlookup⟩ := Prod.mk.inj heq
  exact ⟨answers, r, hanswers, hlookup, components_exact hanswers hconflicts⟩

end OasRs.Schema
