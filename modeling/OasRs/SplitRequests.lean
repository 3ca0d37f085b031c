import OasRs.SplitOutputs

/-!
# Request Forms

What `define_input` adds to the registry of a document. A type that is met while it is
being built is taken to be unchanged; if it turns out to differ, what was completed
meanwhile is forgotten and built again.

The invariant `Requests` holds between calls, also while types are being built: a type
that is done refers to types that are done or being built, and where it took a type to
be unchanged, the registry remembers that.

## Main results

- `Requests.discard`: forgetting what a type's first attempt completed
- `defineInput_spec`: one call
- `callsRequests`: with enough fuel every call on a request form returns
-/

namespace OasRs.Schema

open SchemaRegistry Lib

variable {ι : Type}

namespace TypeGraph

/-! ## States of a type -/

/-- The request form of a type is done. -/
def IsDone (r : SchemaRegistry ι) [DecidableEq ι] (i : ι) : Prop :=
  ∃ schema, r.inputs.lookup i = some (.done schema)

/-- The request form of a type is being built. -/
def IsBuilding (r : SchemaRegistry ι) [DecidableEq ι] (i : ι) : Prop :=
  r.inputs.lookup i = some .building

variable [DecidableEq ι] {g : TypeGraph ι}

instance (r : SchemaRegistry ι) (i : ι) : Decidable (IsBuilding r i) :=
  inferInstanceAs (Decidable (_ = _))

/-- The component of the request form of a type, as far as the registry knows. -/
def component (g : TypeGraph ι) (r : SchemaRegistry ι) (i : ι) : String :=
  if i ∈ r.inputDiffers then inputName (g.name i) else g.name i

/-- A type with a request form to refer to. If that is only an assumption, it is
    recorded. -/
def Known (r : SchemaRegistry ι) (i : ι) : Prop :=
  IsDone r i ∨ IsBuilding r i ∧ (i ∉ r.inputDiffers → i ∈ r.assumedSame)

theorem Known.isDone_or {r : SchemaRegistry ι} {i : ι} (h : Known r i) :
    IsDone r i ∨ IsBuilding r i :=
  h.imp_right And.left

theorem not_isDone_of_isBuilding {r : SchemaRegistry ι} {i : ι} (h : IsBuilding r i) :
    ¬ IsDone r i := by
  rintro ⟨schema, hdone⟩
  rw [show r.inputs.lookup i = some .building from h] at hdone
  cases hdone

theorem component_congr {r r' : SchemaRegistry ι} {i : ι}
    (h : i ∈ r'.inputDiffers ↔ i ∈ r.inputDiffers) : g.component r' i = g.component r i := by
  simp only [component, h]

/-- The request body of a type, as far as the registry knows. -/
def knownBody (g : TypeGraph ι) (r : SchemaRegistry ι) (i : ι) : Json :=
  g.body i true ((g.refs i).map fun j => reference (g.component r j))

theorem knownBody_congr {r r' : SchemaRegistry ι} {i : ι}
    (h : ∀ j ∈ g.refs i, (j ∈ r'.inputDiffers ↔ j ∈ r.inputDiffers)) :
    g.knownBody r' i = g.knownBody r i := by
  have hmap : ((g.refs i).map fun j => reference (g.component r' j)) =
      (g.refs i).map fun j => reference (g.component r j) :=
    List.map_congr_left fun j hj => by rw [component_congr (h j hj)]
  rw [knownBody, hmap, knownBody]

/-! ## The invariant -/

/-- The registry of a document between calls for request forms. -/
structure Requests (g : TypeGraph ι) (r : SchemaRegistry ι) : Prop where
  outputs : g.Outputs r ∅
  defined : ∀ i, IsDone r i → g.Defined r i
  nodup : (r.completed.map Prod.fst).Nodup
  completed_iff : ∀ i, i ∈ r.completed.map Prod.fst ↔ IsDone r i
  completed : ∀ e ∈ r.completed,
    e.2 = if e.1 ∈ r.inputDiffers then some (inputName (g.name e.1)) else none
  done : ∀ i schema, r.inputs.lookup i = some (.done schema) →
    schema = reference (g.component r i)
  known : ∀ i, IsDone r i → ∀ j ∈ g.refs i, Known r j
  same : ∀ i, IsDone r i → i ∉ r.inputDiffers →
    g.gap i = false ∧ ∀ j ∈ g.refs i, j ∉ r.inputDiffers
  request : ∀ i, IsDone r i → i ∈ r.inputDiffers →
    r.definitions.lookup (inputName (g.name i)) = some (g.knownBody r i)
  input_owner : ∀ i, (r.owners.lookup (inputName (g.name i))).isSome ↔
    IsDone r i ∧ i ∈ r.inputDiffers
  reason : ∀ i ∈ r.inputDiffers, g.gap i = true ∨ ∃ j ∈ g.refs i, j ∈ r.inputDiffers
  sound : ∀ i ∈ r.inputDiffers, g.Differs i

/-- Calls for request forms of `sources`, made while the types of `own` go through their
    own states. -/
structure RequestStep (g : TypeGraph ι) (own : Finset ι) (sources : List ι)
    (r r' : SchemaRegistry ι) : Prop where
  building : ∀ i ∉ own, (IsBuilding r' i ↔ IsBuilding r i)
  done : ∀ i schema, r.inputs.lookup i = some (.done schema) →
    r'.inputs.lookup i = some (.done schema)
  differs : ∀ i ∉ own, IsDone r i ∨ IsBuilding r i → (i ∈ r'.inputDiffers ↔ i ∈ r.inputDiffers)
  assumed : ∀ i ∉ own, IsBuilding r i → i ∈ r.assumedSame → i ∈ r'.assumedSame
  completed : r.completed <+: r'.completed
  defined : ∀ i, g.Defined r i → g.Defined r' i
  newDefined : ∀ i, g.Defined r' i → g.Defined r i ∨ ∃ s ∈ sources, g.Reaches s i
  newDone : ∀ i, IsDone r' i → IsDone r i ∨ ∃ s ∈ sources, g.Reaches s i

namespace RequestStep

variable {own own' : Finset ι} {sources sources' : List ι} {r r' r'' : SchemaRegistry ι}

theorem isDone (h : g.RequestStep own sources r r') {i : ι} (hi : IsDone r i) : IsDone r' i :=
  hi.imp fun schema => h.done i schema

theorem refl (r : SchemaRegistry ι) (own : Finset ι) (sources : List ι) :
    g.RequestStep own sources r r where
  building _ _ := .rfl
  done _ _ := id
  differs _ _ _ := .rfl
  assumed _ _ _ := id
  completed := List.prefix_rfl
  defined _ := id
  newDefined _ := .inl
  newDone _ := .inl

theorem trans (h : g.RequestStep own sources r r') (h' : g.RequestStep own sources r' r'') :
    g.RequestStep own sources r r'' where
  building i hi := (h'.building i hi).trans (h.building i hi)
  done i schema hi := h'.done i schema (h.done i schema hi)
  differs i hi hs :=
    (h'.differs i hi (hs.imp h.isDone (h.building i hi).mpr)).trans (h.differs i hi hs)
  assumed i hi hs ha := h'.assumed i hi ((h.building i hi).mpr hs) (h.assumed i hi hs ha)
  completed := h.completed.trans h'.completed
  defined i hi := h'.defined i (h.defined i hi)
  newDefined i hi := (h'.newDefined i hi).elim (h.newDefined i) .inr
  newDone i hi := (h'.newDone i hi).elim (h.newDone i) .inr

theorem mono (h : g.RequestStep own sources r r') (hown : own ⊆ own')
    (hsources : ∀ s ∈ sources, ∃ s' ∈ sources', g.Reaches s' s) :
    g.RequestStep own' sources' r r' :=
  have hreach : ∀ i, (∃ s ∈ sources, g.Reaches s i) → ∃ s' ∈ sources', g.Reaches s' i :=
    fun _ ⟨s, hs, hi⟩ =>
      let ⟨s', hs', hss'⟩ := hsources s hs
      ⟨s', hs', hss'.trans hi⟩
  { h with
    building := fun i hi => h.building i fun h => hi (hown h)
    differs := fun i hi => h.differs i fun h => hi (hown h)
    assumed := fun i hi => h.assumed i fun h => hi (hown h)
    newDefined := fun i hi => (h.newDefined i hi).imp_right (hreach i)
    newDone := fun i hi => (h.newDone i hi).imp_right (hreach i) }

/-- What is known stays known. -/
theorem known (h : g.RequestStep own sources r r') {i : ι} (hown : i ∉ own) (hi : Known r i) :
    Known r' i := by
  rcases hi with hdone | ⟨hbuilding, hassumed⟩
  · exact .inl (h.isDone hdone)
  · refine .inr ⟨(h.building i hown).mpr hbuilding, fun hdiffers => ?_⟩
    rw [h.differs i hown (.inr hbuilding)] at hdiffers
    exact h.assumed i hown hbuilding (hassumed hdiffers)

/-- What is known keeps its component. -/
theorem component (h : g.RequestStep own sources r r') {i : ι} (hown : i ∉ own) (hi : Known r i) :
    g.component r' i = g.component r i :=
  component_congr (h.differs i hown hi.isDone_or)

end RequestStep

/-! ## Starting a type -/

section Start

variable {r : SchemaRegistry ι} {i : ι}

theorem isBuilding_start {j : ι} :
    IsBuilding { r with inputs := r.inputs.insert i .building } j ↔ j = i ∨ IsBuilding r j := by
  unfold IsBuilding
  rw [Table.lookup_insert]
  by_cases h : j = i <;> simp [h]

theorem isDone_start (hnone : r.inputs.lookup i = none) {j : ι} :
    IsDone { r with inputs := r.inputs.insert i .building } j ↔ IsDone r j := by
  unfold IsDone
  rw [Table.lookup_insert]
  by_cases h : j = i
  · subst h
    simp [hnone]
  · simp [h]

theorem not_known_of_none (hnone : r.inputs.lookup i = none) : ¬ Known r i := by
  rintro (⟨schema, h⟩ | ⟨h, -⟩)
  · simp [hnone] at h
  · simp [IsBuilding, hnone] at h

theorem ne_of_known (hnone : r.inputs.lookup i = none) {j : ι} (h : Known r j) : j ≠ i := by
  rintro rfl
  exact not_known_of_none hnone h

theorem Known.start (hnone : r.inputs.lookup i = none) {j : ι} (h : Known r j) :
    Known { r with inputs := r.inputs.insert i .building } j :=
  h.imp (isDone_start hnone).mpr fun h => ⟨isBuilding_start.mpr (.inr h.1), h.2⟩

/-- A type without a request form starts to be built. -/
theorem Requests.start (h : g.Requests r) (hnone : r.inputs.lookup i = none) :
    g.Requests { r with inputs := r.inputs.insert i .building } where
  outputs := { h.outputs with }
  defined j hj := h.defined j ((isDone_start hnone).mp hj)
  nodup := h.nodup
  completed_iff j := (h.completed_iff j).trans (isDone_start hnone).symm
  completed := h.completed
  done j schema hj := by
    rw [Table.lookup_insert] at hj
    split at hj
    · cases hj
    · exact h.done j schema hj
  known j hj k hk := (h.known j ((isDone_start hnone).mp hj) k hk).start hnone
  same j hj := h.same j ((isDone_start hnone).mp hj)
  request j hj := h.request j ((isDone_start hnone).mp hj)
  input_owner j := by
    rw [isDone_start hnone]
    exact h.input_owner j
  reason := h.reason
  sound := h.sound

end Start

/-- An output is added while a type is being built. -/
theorem Requests.outputStep {r r' : SchemaRegistry ι} {sources : List ι} (h : g.Requests r)
    (hstep : g.OutputStep sources r r') (houtputs : g.Outputs r' ∅) : g.Requests r' := by
  -- an output step writes names only: everything about inputs is as before
  have hrest := hstep.rest
  have hinputs : r'.inputs = r.inputs := by rw [hrest]
  have hdiffers : r'.inputDiffers = r.inputDiffers := by rw [hrest]
  have hassumed : r'.assumedSame = r.assumedSame := by rw [hrest]
  have hcompleted : r'.completed = r.completed := by rw [hrest]
  have hdone : ∀ i, IsDone r' i ↔ IsDone r i := fun i => by rw [IsDone, IsDone, hinputs]
  have hknown : ∀ i, Known r' i ↔ Known r i := fun i => by
    rw [Known, Known, hdone, IsBuilding, IsBuilding, hinputs, hdiffers, hassumed]
  have hbody : ∀ i, g.knownBody r' i = g.knownBody r i := fun i =>
    knownBody_congr fun j _ => by rw [hdiffers]
  -- so each clause is the clause before the step
  refine
    { outputs := houtputs
      defined := fun i hi => hstep.defined (h.defined i ((hdone i).mp hi))
      nodup := hcompleted ▸ h.nodup
      completed_iff := fun i => by rw [hcompleted, hdone, h.completed_iff]
      completed := by rw [hcompleted, hdiffers]; exact h.completed
      done := fun i schema hi => by
        rw [hinputs] at hi
        have hcomponent : g.component r' i = g.component r i := component_congr (by rw [hdiffers])
        rw [hcomponent]
        exact h.done i schema hi
      known := fun i hi j hj => (hknown j).mpr (h.known i ((hdone i).mp hi) j hj)
      same := fun i hi hi' => by
        rw [hdiffers] at hi' ⊢
        exact h.same i ((hdone i).mp hi) hi'
      request := fun i hi hi' => ?_
      input_owner := fun i => ?_
      reason := by rw [hdiffers]; exact h.reason
      sound := by rw [hdiffers]; exact h.sound }
  · rw [hdiffers] at hi'
    have howned := (h.input_owner i).mpr ⟨(hdone i).mp hi, hi'⟩
    obtain ⟨owner, howner⟩ := Option.isSome_iff_exists.mp howned
    rw [(hstep.old _ _ howner).2, hbody]
    exact h.request i ((hdone i).mp hi) hi'
  · -- outputs are registered under names without the suffix
    rw [hdone, hdiffers, ← h.input_owner]
    constructor
    · intro howned
      obtain ⟨owner, howner⟩ := Option.isSome_iff_exists.mp howned
      rcases hstep.new _ _ howner with hold | ⟨hname, -⟩
      · rw [hold]
        rfl
      · exact absurd hname.symm (g.name_ne_input _ _)
    · intro howned
      obtain ⟨owner, howner⟩ := Option.isSome_iff_exists.mp howned
      rw [(hstep.old _ _ howner).1]
      rfl

/-! ## Finding a difference -/

/-- Nothing that is known changes with a type that nothing took to be unchanged. -/
theorem Known.differs_insert {r : SchemaRegistry ι} {i j : ι} (hi : IsBuilding r i)
    (hfree : i ∉ r.assumedSame) (hj : Known r j) :
    j ∈ insert i r.inputDiffers ↔ j ∈ r.inputDiffers := by
  by_cases hmem : i ∈ r.inputDiffers
  · rw [Finset.insert_eq_of_mem hmem]
  · have hne : j ≠ i := by
      rintro rfl
      rcases hj with hdone | ⟨-, hassumed⟩
      · exact not_isDone_of_isBuilding hi hdone
      · exact hfree (hassumed hmem)
    rw [Finset.mem_insert, or_iff_right hne]

/-- A type that is being built is found to differ, and nothing took it to be unchanged. -/
theorem Requests.differ {r : SchemaRegistry ι} (h : g.Requests r) {i : ι} (hi : IsBuilding r i)
    (hfree : i ∉ r.assumedSame) (hreason : g.gap i = true ∨ ∃ j ∈ g.refs i, j ∈ r.inputDiffers) :
    g.Requests { r with inputDiffers := insert i r.inputDiffers } := by
  -- the new name is still being built, so no answer that is known has looked at it
  have hdiffers : ∀ j, Known r j → (j ∈ insert i r.inputDiffers ↔ j ∈ r.inputDiffers) :=
    fun j hj => hj.differs_insert hi hfree
  -- so the clauses about known names are those before
  refine
    { outputs := { h.outputs with }
      defined := h.defined
      nodup := h.nodup
      completed_iff := h.completed_iff
      completed := fun e he => ?_
      done := fun j schema hj => ?_
      known := fun j hj k hk => ?_
      same := fun j hj hj' => ?_
      request := fun j hj hj' => ?_
      input_owner := fun j => ?_
      reason := fun j hj => ?_
      sound := fun j hj => ?_ }
  · have hdone := (h.completed_iff e.1).mp (List.mem_map_of_mem he)
    simp only [hdiffers e.1 (.inl hdone)]
    exact h.completed e he
  · rw [component_congr (hdiffers j (.inl ⟨schema, hj⟩))]
    exact h.done j schema hj
  · refine (h.known j hj k hk).imp_right fun hbuilding => ⟨hbuilding.1, fun hk' => ?_⟩
    exact hbuilding.2 fun hk'' => hk' (Finset.mem_insert_of_mem hk'')
  · obtain ⟨hgap, hrefs⟩ := h.same j hj fun hj'' => hj' (Finset.mem_insert_of_mem hj'')
    exact ⟨hgap, fun k hk hk' => hrefs k hk ((hdiffers k (h.known j hj k hk)).mp hk')⟩
  · rw [knownBody_congr fun k hk => hdiffers k (h.known j hj k hk)]
    exact h.request j hj ((hdiffers j (.inl hj)).mp hj')
  · rw [h.input_owner]
    exact and_congr_right fun hj => (hdiffers j (.inl hj)).symm
  · rcases Finset.mem_insert.mp hj with rfl | hj
    · -- the last two are what the new name has to bring
      exact hreason.imp_right fun ⟨k, hk, hk'⟩ => ⟨k, hk, Finset.mem_insert_of_mem hk'⟩
    · exact (h.reason j hj).imp_right fun ⟨k, hk, hk'⟩ => ⟨k, hk, Finset.mem_insert_of_mem hk'⟩
  · rcases Finset.mem_insert.mp hj with rfl | hj
    · exact hreason.elim .of_gap fun ⟨k, hk, hk'⟩ => .of_ref hk (h.sound k hk')
    · exact h.sound j hj

/-! ## Forgetting a first attempt -/

section Discard

variable {r r' : SchemaRegistry ι} {i : ι} {sources : List ι}

/-- The types that are forgotten: done in `r'`, and not in `r`. -/
theorem mem_drop_completed (hr : g.Requests r) (hr' : g.Requests r')
    (hstep : g.RequestStep ∅ sources r r') (j : ι) :
    j ∈ (r'.completed.drop r.completed.length).map Prod.fst ↔ IsDone r' j ∧ ¬ IsDone r j := by
  obtain ⟨new, hnew⟩ := hstep.completed
  have hnodup := hr'.nodup
  rw [← hr'.completed_iff, ← hr.completed_iff, ← hnew, List.drop_left, List.map_append,
    List.mem_append]
  rw [← hnew, List.map_append, List.nodup_append] at hnodup
  constructor
  · intro hj
    exact ⟨.inr hj, fun hold => hnodup.2.2 j hold j hj rfl⟩
  · rintro ⟨hj | hj, hold⟩
    · exact absurd hj hold
    · exact hj

/-- The components that are forgotten. -/
theorem mem_drop_components (hr : g.Requests r) (hr' : g.Requests r')
    (hstep : g.RequestStep ∅ sources r r') (n : String) :
    some n ∈ (r'.completed.drop r.completed.length).map Prod.snd ↔
      ∃ j, n = inputName (g.name j) ∧ j ∈ r'.inputDiffers ∧ IsDone r' j ∧ ¬ IsDone r j := by
  have hdrop := mem_drop_completed hr hr' hstep
  constructor
  · intro hmem
    obtain ⟨e, he, hn⟩ := List.mem_map.mp hmem
    have hdone := (hdrop e.1).mp (List.mem_map_of_mem he)
    rw [hr'.completed e (List.mem_of_mem_drop he)] at hn
    split at hn
    · exact ⟨e.1, (Option.some.inj hn).symm, ‹_›, hdone⟩
    · cases hn
  · rintro ⟨j, rfl, hdiffers, hdone⟩
    obtain ⟨e, he, rfl⟩ := List.mem_map.mp ((hdrop j).mpr hdone)
    refine List.mem_map.mpr ⟨e, he, ?_⟩
    rw [hr'.completed e (List.mem_of_mem_drop he), if_pos hdiffers]

/-- The registry without what was completed since `r`, now that `i` is known to differ. -/
def rewind (r r' : SchemaRegistry ι) (i : ι) : SchemaRegistry ι :=
  SchemaRegistry.discard { r' with
    inputDiffers := insert i r'.inputDiffers
    assumedSame := r'.assumedSame.erase i } r.completed.length

/-- The state of every type after a rewind: what was done in `r` is done, and what was
    being built still is. -/
theorem states_rewind (hr : g.Requests r) (hr' : g.Requests r')
    (hstep : g.RequestStep ∅ sources r r') (i : ι) :
    (∀ j schema, (rewind r r' i).inputs.lookup j = some (.done schema) ↔
      r.inputs.lookup j = some (.done schema)) ∧
    ∀ j, IsBuilding (rewind r r' i) j ↔ IsBuilding r j := by
  have hinputs : ∀ j, (rewind r r' i).inputs.lookup j =
      if j ∈ (r'.completed.drop r.completed.length).map Prod.fst then none
      else r'.inputs.lookup j := fun j => inputs_discard _ _ _
  have hdrop := mem_drop_completed hr hr' hstep
  constructor
  · intro j schema
    rw [hinputs]
    by_cases hj : j ∈ (r'.completed.drop r.completed.length).map Prod.fst
    · have hnew := ((hdrop j).mp hj).2
      simp only [hj, if_true, reduceCtorEq, false_iff]
      exact fun h => hnew ⟨schema, h⟩
    · rw [if_neg hj]
      constructor
      · intro h
        obtain ⟨schema', hold⟩ : IsDone r j := by
          by_contra hold
          exact hj ((hdrop j).mpr ⟨⟨schema, h⟩, hold⟩)
        rw [hstep.done j schema' hold, Option.some.injEq, InputState.done.injEq] at h
        rw [hold, h]
      · exact hstep.done j schema
  · intro j
    rw [← hstep.building j (Finset.notMem_empty j)]
    unfold IsBuilding
    rw [hinputs]
    by_cases hj : j ∈ (r'.completed.drop r.completed.length).map Prod.fst
    · obtain ⟨⟨schema, hdone⟩, -⟩ := (hdrop j).mp hj
      simp [hdone]
    · rw [if_neg hj]

theorem differs_rewind (r r' : SchemaRegistry ι) (i : ι) :
    (rewind r r' i).inputDiffers = insert i r'.inputDiffers := by
  have hrest : rewind r r' i = _ := discard_rest _ _
  rw [hrest]

/-- A type that is being built is found to differ, and something may have taken it to be
    unchanged: what was completed since it started is forgotten. -/
theorem Requests.rewound (hr : g.Requests r) (hr' : g.Requests r')
    (hstep : g.RequestStep ∅ sources r r') (hi : IsBuilding r i)
    (hrefs : ∀ j, IsDone r j → i ∉ g.refs j)
    (hreason : g.gap i = true ∨ ∃ j ∈ g.refs i, j ∈ r'.inputDiffers) :
    g.Requests (rewind r r' i) ∧ g.RequestStep {i} sources r (rewind r r' i) := by
  have hrest : rewind r r' i = _ := discard_rest _ _
  have hdiffers := differs_rewind r r' i
  have hassumed : (rewind r r' i).assumedSame = r'.assumedSame.erase i := by rw [hrest]
  have hcompleted : (rewind r r' i).completed = r.completed := by
    rw [hrest]
    obtain ⟨new, hnew⟩ := hstep.completed
    show r'.completed.take r.completed.length = _
    rw [← hnew, List.take_left]
  obtain ⟨hdone, hbuilding⟩ := states_rewind hr hr' hstep i
  have hisDone : ∀ j, IsDone (rewind r r' i) j ↔ IsDone r j := fun j =>
    exists_congr fun schema => hdone j schema
  -- Tables: only request forms of types that are not done any more are missing.
  have hdrop := mem_drop_components hr hr' hstep
  have hnames : ∀ j, some (g.name j) ∉
      (r'.completed.drop r.completed.length).map Prod.snd := fun j hj => by
    obtain ⟨k, hname, -⟩ := (hdrop _).mp hj
    exact g.name_ne_input j k hname
  have hdefinitions : ∀ n, (rewind r r' i).definitions.lookup n =
      if some n ∈ (r'.completed.drop r.completed.length).map Prod.snd then none
      else r'.definitions.lookup n := fun n => definitions_discard _ _ _
  have howners : ∀ n, (rewind r r' i).owners.lookup n =
      if some n ∈ (r'.completed.drop r.completed.length).map Prod.snd then none
      else r'.owners.lookup n := fun n => owners_discard _ _ _
  have hdefined : ∀ j, g.Defined (rewind r r' i) j ↔ g.Defined r' j := fun j => by
    rw [Defined, howners, if_neg (hnames j), Defined]
  -- What was known in `r` differs as it did there, apart from `i`.
  have hsame : ∀ j, IsDone r j ∨ IsBuilding r j → j ≠ i →
      (j ∈ (rewind r r' i).inputDiffers ↔ j ∈ r.inputDiffers) := by
    intro j hj hne
    rw [hdiffers, Finset.mem_insert, or_iff_right hne]
    exact hstep.differs j (Finset.notMem_empty j) hj
  have hdone_ne : ∀ j, IsDone r j → j ≠ i := by
    rintro j hj rfl
    exact not_isDone_of_isBuilding hi hj
  have hstep' : g.RequestStep {i} sources r (rewind r r' i) :=
    { building := fun j _ => hbuilding j
      done := fun j schema => (hdone j schema).mpr
      differs := fun j hj hs => hsame j hs (by simpa using hj)
      assumed := fun j hj hs ha => by
        rw [hassumed, Finset.mem_erase]
        exact ⟨by simpa using hj, hstep.assumed j (Finset.notMem_empty j) hs ha⟩
      completed := by rw [hcompleted]
      defined := fun j hj => (hdefined j).mpr (hstep.defined j hj)
      newDefined := fun j hj => hstep.newDefined j ((hdefined j).mp hj)
      newDone := fun j hj => .inl ((hisDone j).mp hj) }
  have hrefs_ne : ∀ j, IsDone r j → ∀ k ∈ g.refs j, k ≠ i := by
    rintro j hj k hk rfl
    exact hrefs j hj hk
  refine ⟨?_, hstep'⟩
  refine
    { outputs := ?_
      defined := fun j hj => hstep'.defined j (hr.defined j ((hisDone j).mp hj))
      nodup := hcompleted ▸ hr.nodup
      completed_iff := fun j => by rw [hcompleted, hr.completed_iff, hisDone]
      completed := fun e he => ?_
      done := fun j schema hj => ?_
      known := fun j hj k hk => ?_
      same := fun j hj hj' => ?_
      request := fun j hj hj' => ?_
      input_owner := fun j => ?_
      reason := fun j hj => ?_
      sound := fun j hj => ?_ }
  · exact
      { document := by rw [hrest]; exact hr'.outputs.document
        conflicts := by rw [hrest]; exact hr'.outputs.conflicts
        owner := fun n j hn => by
          rw [howners] at hn
          split at hn
          · cases hn
          · exact hr'.outputs.owner n j hn
        keys := fun n => by
          rw [hdefinitions, howners]
          split
          · rfl
          · exact hr'.outputs.keys n
        output := fun j hj hbuilding => by
          rw [hdefinitions, if_neg (hnames j)]
          exact hr'.outputs.output j ((hdefined j).mp hj) hbuilding
        closed := fun j hj hbuilding k hk =>
          (hdefined k).mpr (hr'.outputs.closed j ((hdefined j).mp hj) hbuilding k hk) }
  · rw [hcompleted] at he
    have he' := (hr.completed_iff e.1).mp (List.mem_map_of_mem he)
    simp only [hsame e.1 (.inl he') (hdone_ne _ he')]
    exact hr.completed e he
  · rw [hdone] at hj
    have hj' : IsDone r j := ⟨schema, hj⟩
    rw [component_congr (hsame j (.inl hj') (hdone_ne j hj'))]
    exact hr.done j schema hj
  · have hj' := (hisDone j).mp hj
    exact hstep'.known (by simpa using hrefs_ne j hj' k hk) (hr.known j hj' k hk)
  · rw [hisDone] at hj
    obtain ⟨hgap, hrefs'⟩ := hr.same j hj
      ((hsame j (.inl hj) (hdone_ne j hj)).not.mp hj')
    refine ⟨hgap, fun k hk => ?_⟩
    rw [hsame k (hr.known j hj k hk).isDone_or (hrefs_ne j hj k hk)]
    exact hrefs' k hk
  · rw [hisDone] at hj
    have hkept : some (inputName (g.name j)) ∉
        (r'.completed.drop r.completed.length).map Prod.snd := fun hmem => by
      obtain ⟨k, hname, -, -, hk⟩ := (hdrop _).mp hmem
      exact hk (g.name_injective (inputName_injective hname) ▸ hj)
    have hbody : g.knownBody (rewind r r' i) j = g.knownBody r' j := knownBody_congr fun k hk => by
      rw [hdiffers, Finset.mem_insert, or_iff_right (hrefs_ne j hj k hk)]
    rw [hdiffers, Finset.mem_insert, or_iff_right (hdone_ne j hj)] at hj'
    rw [hdefinitions, if_neg hkept, hbody]
    exact hr'.request j (hstep.isDone hj) hj'
  · have howned := hr'.input_owner j
    rw [howners, hisDone, hdiffers, Finset.mem_insert]
    split
    · rename_i hmem
      obtain ⟨k, hname, -, -, hk⟩ := (hdrop _).mp hmem
      obtain rfl := g.name_injective (inputName_injective hname)
      simp [hk]
    · rename_i hkept
      rw [howned]
      constructor
      · rintro ⟨hj, hj'⟩
        refine ⟨?_, .inr hj'⟩
        by_contra hold
        exact hkept ((hdrop _).mpr ⟨j, rfl, hj', hj, hold⟩)
      · rintro ⟨hj, hj'⟩
        exact ⟨hstep.isDone hj, hj'.resolve_left (hdone_ne j hj)⟩
  · rw [hdiffers] at hj ⊢
    have hmore : (∃ k ∈ g.refs j, k ∈ r'.inputDiffers) →
        ∃ k ∈ g.refs j, k ∈ insert i r'.inputDiffers := by
      rintro ⟨k, hk, hk'⟩
      exact ⟨k, hk, Finset.mem_insert_of_mem hk'⟩
    rcases Finset.mem_insert.mp hj with rfl | hj
    · exact hreason.imp_right hmore
    · exact (hr'.reason j hj).imp_right hmore
  · rw [hdiffers] at hj
    rcases Finset.mem_insert.mp hj with rfl | hj
    · rcases hreason with hgap | ⟨k, hk, hk'⟩
      · exact .of_gap hgap
      · exact .of_ref hk (hr'.sound k hk')
    · exact hr'.sound j hj

end Discard

/-! ## Finishing a type -/

section Finish

variable {r : SchemaRegistry ι} {i : ι} {result : Json} {defined : Option String}

theorem isDone_finish {j : ι} : IsDone (r.finish i result defined) j ↔ j = i ∨ IsDone r j := by
  unfold IsDone SchemaRegistry.finish
  simp only [Table.lookup_insert]
  by_cases h : j = i <;> simp [h]

theorem isBuilding_finish {j : ι} :
    IsBuilding (r.finish i result defined) j ↔ j ≠ i ∧ IsBuilding r j := by
  unfold IsBuilding SchemaRegistry.finish
  simp only [Table.lookup_insert]
  by_cases h : j = i <;> simp [h]

theorem Known.finish {j : ι} (h : Known r j) : Known (r.finish i result defined) j := by
  by_cases hj : j = i
  · exact .inl (isDone_finish.mpr (.inl hj))
  · exact h.imp (fun h => isDone_finish.mpr (.inr h)) fun h =>
      ⟨isBuilding_finish.mpr ⟨hj, h.1⟩, h.2⟩

/-- A type is done, once the entries of its request form are right. -/
theorem Requests.finish (owners : Table String ι) (definitions : Table String Json)
    (h : g.Requests r) (hi : IsBuilding r i) (hdefined : g.Defined r i)
    (hrefs : ∀ j ∈ g.refs i, Known r j)
    (howners : ∀ n ≠ inputName (g.name i), owners.lookup n = r.owners.lookup n)
    (hdefinitions : ∀ n ≠ inputName (g.name i), definitions.lookup n = r.definitions.lookup n)
    (hkeys : (definitions.lookup (inputName (g.name i))).isSome =
      (owners.lookup (inputName (g.name i))).isSome)
    (howner : ∀ j, owners.lookup (inputName (g.name i)) = some j → j = i)
    (hsame : i ∉ r.inputDiffers → owners.lookup (inputName (g.name i)) = none ∧
      g.gap i = false ∧ ∀ j ∈ g.refs i, j ∉ r.inputDiffers)
    (hrequest : i ∈ r.inputDiffers →
      definitions.lookup (inputName (g.name i)) = some (g.knownBody r i)) :
    g.Requests ({ r with owners, definitions }.finish i (reference (g.component r i))
      (if i ∈ r.inputDiffers then some (inputName (g.name i)) else none)) := by
  -- the names of output forms are never those of request forms, so their entries stay
  have hname : ∀ j, owners.lookup (g.name j) = r.owners.lookup (g.name j) := fun j =>
    howners _ (g.name_ne_input j i)
  have hinput : ∀ j, j ≠ i → inputName (g.name j) ≠ inputName (g.name i) := fun j hj hn =>
    hj (g.name_injective (inputName_injective hn))
  -- `i` was being built until now, so it is new among the completed types
  have hnot : ¬ IsDone r i := not_isDone_of_isBuilding hi
  exact
    { outputs :=
        { document := h.outputs.document
          conflicts := h.outputs.conflicts
          -- only the entry of the request form of `i` is new in the tables
          owner := fun n j hn => by
            by_cases hne : n = inputName (g.name i)
            · rw [hne] at hn ⊢
              rw [howner j hn]
              exact .inr rfl
            · exact h.outputs.owner n j ((howners n hne).symm.trans hn)
          keys := fun n => by
            by_cases hne : n = inputName (g.name i)
            · rw [hne]
              exact hkeys
            · show (definitions.lookup n).isSome = (owners.lookup n).isSome
              rw [hdefinitions n hne, howners n hne]
              exact h.outputs.keys n
          output := fun j hj hbuilding =>
            (hdefinitions _ (g.name_ne_input j i)).trans
              (h.outputs.output j ((hname j).symm.trans hj) hbuilding)
          closed := fun j hj hbuilding k hk =>
            (hname k).trans (h.outputs.closed j ((hname j).symm.trans hj) hbuilding k hk) }
      defined := fun j hj => by
        refine (hname j).trans ?_
        rcases isDone_finish.mp hj with rfl | hj
        · exact hdefined
        · exact h.defined j hj
      nodup := by
        have hfresh : i ∉ r.completed.map Prod.fst := (h.completed_iff i).not.mpr hnot
        simp only [SchemaRegistry.finish, List.map_append, List.map_cons, List.map_nil]
        rw [List.nodup_append]
        exact ⟨h.nodup, List.nodup_singleton _, fun j hj k hk hjk =>
          hfresh ((List.mem_singleton.mp hk) ▸ hjk ▸ hj)⟩
      completed_iff := fun j => by
        rw [isDone_finish]
        simp only [SchemaRegistry.finish, List.map_append, List.mem_append, h.completed_iff,
          List.map_cons, List.map_nil, List.mem_singleton]
        exact or_comm
      completed := fun e he => by
        rcases List.mem_append.mp he with he | he
        · exact h.completed e he
        · rw [List.mem_singleton.mp he]
          rfl
      done := fun j schema hj => by
        simp only [SchemaRegistry.finish, Table.lookup_insert] at hj
        by_cases hji : j = i
        · rw [if_pos hji, Option.some.injEq, InputState.done.injEq] at hj
          rw [← hj, hji]
          rfl
        · rw [if_neg hji] at hj
          exact h.done j schema hj
      known := fun j hj k hk => by
        rcases isDone_finish.mp hj with rfl | hj
        · exact Known.finish (hrefs k hk)
        · exact Known.finish (h.known j hj k hk)
      same := fun j hj hj' => by
        rcases isDone_finish.mp hj with rfl | hj
        · exact (hsame hj').2
        · exact h.same j hj hj'
      -- the body of `i` is the one that was just stored, the others were right before
      request := fun j hj hj' => by
        by_cases hji : j = i
        · rw [hji] at hj' ⊢
          exact hrequest hj'
        · rcases isDone_finish.mp hj with hji' | hj
          · exact absurd hji' hji
          · exact (hdefinitions _ (hinput j hji)).trans (h.request j hj hj')
      -- a request form has an owner exactly if its type differs
      input_owner := fun j => by
        rw [isDone_finish]
        by_cases hji : j = i
        · rw [hji]
          show (owners.lookup (inputName (g.name i))).isSome ↔ _ ∧ i ∈ r.inputDiffers
          rw [← hkeys]
          by_cases hdiffers : i ∈ r.inputDiffers
          · simp [hrequest hdiffers, hdiffers]
          · simp [hkeys, (hsame hdiffers).1, hdiffers]
        · show (owners.lookup (inputName (g.name j))).isSome ↔ _
          rw [howners _ (hinput j hji), h.input_owner, or_iff_right hji]
          rfl
      reason := h.reason
      sound := h.sound }

/-- The step from before a type was started to its end. -/
theorem RequestStep.finish {r₀ : SchemaRegistry ι} {sources : List ι} {owners : Table String ι}
    {definitions : Table String Json} (h : g.RequestStep {i} sources r₀ r)
    (hnone : r₀.inputs.lookup i = none) (hi : i ∈ sources)
    (howners : ∀ n ≠ inputName (g.name i), owners.lookup n = r.owners.lookup n) :
    g.RequestStep ∅ sources r₀ ({ r with owners, definitions }.finish i result defined) := by
  have hne : ∀ j, IsDone r₀ j ∨ IsBuilding r₀ j → j ≠ i := by
    rintro j hj rfl
    rcases hj with ⟨schema, hj⟩ | hj
    · rw [hnone] at hj
      cases hj
    · rw [IsBuilding, hnone] at hj
      cases hj
  have hown : ∀ j, j ≠ i → j ∉ ({i} : Finset ι) := fun j hj => by simpa using hj
  have hname : ∀ j, owners.lookup (g.name j) = r.owners.lookup (g.name j) := fun j =>
    howners _ (g.name_ne_input j i)
  exact
    { building := fun j _ => by
        rw [isBuilding_finish]
        by_cases hji : j = i
        · rw [hji, IsBuilding, IsBuilding, hnone]
          simp
        · exact (and_iff_right hji).trans (h.building j (hown j hji))
      done := fun j schema hj => by
        simp only [SchemaRegistry.finish, Table.lookup_insert]
        rw [if_neg (hne j (.inl ⟨schema, hj⟩))]
        exact h.done j schema hj
      differs := fun j _ hj => h.differs j (hown j (hne j hj)) hj
      assumed := fun j _ hj => h.assumed j (hown j (hne j (.inr hj))) hj
      completed := h.completed.trans (List.prefix_append _ _)
      defined := fun j hj => (hname j).trans (h.defined j hj)
      newDefined := fun j hj => h.newDefined j ((hname j).symm.trans hj)
      newDone := fun j hj => by
        rcases isDone_finish.mp hj with rfl | hj
        · exact .inr ⟨j, hi, .refl⟩
        · exact h.newDone j hj }

end Finish

/-! ## Calls -/

/-- A type whose bodies are equal so far has no gap, and refers to no type that differs. -/
theorem same_of_body_eq {r : SchemaRegistry ι} {i : ι} (h : g.knownBody r i = g.outputBody i) :
    g.gap i = false ∧ ∀ j ∈ g.refs i, j ∉ r.inputDiffers := by
  have hgap : g.gap i = false := by
    by_contra hgap
    exact g.body_of_gap i (by simpa using hgap) _ _ h
  refine ⟨hgap, fun j hj hdiffers => ?_⟩
  have hmap : ∀ f : ι → String, ((g.refs i).map fun j => reference (f j)) =
      ((g.refs i).map f).map reference := fun f => by rw [List.map_map]; rfl
  rw [knownBody, outputBody, g.body_of_no_gap i hgap, hmap, hmap] at h
  have hcomponents := g.body_injective i false _ _ (by simp) (by simp) h
  have hj' := List.map_inj_left.mp hcomponents j hj
  rw [component, if_pos hdiffers] at hj'
  exact g.name_ne_input j j hj'.symm

theorem reason_of_body_ne {r : SchemaRegistry ι} {i : ι} (h : g.knownBody r i ≠ g.outputBody i) :
    g.gap i = true ∨ ∃ j ∈ g.refs i, j ∈ r.inputDiffers := by
  by_contra hcontra
  push Not at hcontra
  obtain ⟨hgap, hrefs⟩ := hcontra
  apply h
  have hmap : ((g.refs i).map fun j => reference (g.component r j)) =
      (g.refs i).map fun j => reference (g.name j) :=
    List.map_congr_left fun j hj => by rw [component, if_neg (hrefs j hj)]
  rw [knownBody, outputBody, hmap, g.body_of_no_gap i (by simpa using hgap)]

/-- A type that is being built is taken to be unchanged. -/
theorem Requests.assume {r : SchemaRegistry ι} (h : g.Requests r) (i : ι) :
    g.Requests { r with assumedSame := insert i r.assumedSame } :=
  { h with
    outputs := { h.outputs with }
    known := fun j hj k hk => (h.known j hj k hk).imp_right fun hbuilding =>
      ⟨hbuilding.1, fun hk' => Finset.mem_insert_of_mem (hbuilding.2 hk')⟩ }

/-- A type that differs is done: its request form is registered. -/
theorem Requests.register {r₀ r : SchemaRegistry ι} {i : ι} (h : g.Requests r)
    (hi : IsBuilding r i) (hdiffers : i ∈ r.inputDiffers) (hdefined : g.Defined r i)
    (hrefs : ∀ j ∈ g.refs i, Known r j) (hstep : g.RequestStep {i} [i] r₀ r)
    (hnone : r₀.inputs.lookup i = none) :
    ∃ r', (r.registerInput i (g.name i) (g.knownBody r i)).finish i
        (reference (inputName (g.name i))) (some (inputName (g.name i))) = r' ∧
      g.component r' i = inputName (g.name i) ∧ g.Requests r' ∧ g.RequestStep ∅ [i] r₀ r' ∧
      Known r' i := by
  have hfree : r.owners.lookup (inputName (g.name i)) = none := by
    rw [← Option.not_isSome_iff_eq_none, h.input_owner]
    exact fun hdone => not_isDone_of_isBuilding hi hdone.1
  have hcomponent : g.component r i = inputName (g.name i) := if_pos hdiffers
  have hregister : r.registerInput i (g.name i) (g.knownBody r i) = { r with
      owners := r.owners.insert (inputName (g.name i)) i
      definitions := r.definitions.insert (inputName (g.name i)) (g.knownBody r i) } := by
    simp [registerInput, hfree]
  have hother : ∀ n ≠ inputName (g.name i),
      (r.owners.insert (inputName (g.name i)) i).lookup n = r.owners.lookup n := fun n hn => by
    rw [Table.lookup_insert, if_neg hn]
  have hfinish := Requests.finish (r.owners.insert (inputName (g.name i)) i)
    (r.definitions.insert (inputName (g.name i)) (g.knownBody r i)) h hi hdefined hrefs hother
    (fun n hn => by rw [Table.lookup_insert, if_neg hn])
    (by rw [AList.lookup_insert, AList.lookup_insert]; rfl)
    (fun j hj => by rw [AList.lookup_insert, Option.some.injEq] at hj; exact hj.symm)
    (fun hn => absurd hdiffers hn) (fun _ => AList.lookup_insert _)
  rw [hcomponent, if_pos hdiffers] at hfinish
  rw [hregister]
  exact ⟨_, rfl, hcomponent, hfinish, hstep.finish hnone (List.mem_singleton_self i) hother,
    .inl (isDone_finish.mpr (.inl rfl))⟩

/-- A type that turns out to be unchanged is done. -/
theorem Requests.keep {r₀ r : SchemaRegistry ι} {i : ι} (h : g.Requests r)
    (hi : IsBuilding r i) (hsame : g.gap i = false ∧ ∀ j ∈ g.refs i, j ∉ r.inputDiffers)
    (hdefined : g.Defined r i) (hrefs : ∀ j ∈ g.refs i, Known r j)
    (hstep : g.RequestStep {i} [i] r₀ r) (hnone : r₀.inputs.lookup i = none) :
    ∃ r', r.finish i (reference (g.name i)) none = r' ∧ g.component r' i = g.name i ∧
      g.Requests r' ∧ g.RequestStep ∅ [i] r₀ r' ∧ Known r' i := by
  have hdiffers : i ∉ r.inputDiffers := fun hmem => by
    rcases h.reason i hmem with hgap | ⟨j, hj, hj'⟩
    · rw [hsame.1] at hgap
      cases hgap
    · exact hsame.2 j hj hj'
  have hcomponent : g.component r i = g.name i := if_neg hdiffers
  have hfree : r.owners.lookup (inputName (g.name i)) = none := by
    rw [← Option.not_isSome_iff_eq_none, h.input_owner]
    exact fun hdone => not_isDone_of_isBuilding hi hdone.1
  have hfinish := Requests.finish r.owners r.definitions h hi hdefined hrefs (fun _ _ => rfl)
    (fun _ _ => rfl) (h.outputs.keys _) (fun j hj => by rw [hfree] at hj; cases hj)
    (fun _ => ⟨hfree, hsame⟩) (fun hmem => absurd hmem hdiffers)
  rw [hcomponent, if_neg hdiffers] at hfinish
  exact ⟨_, rfl, hcomponent, hfinish,
    hstep.finish hnone (List.mem_singleton_self i) fun _ _ => rfl,
    .inl (isDone_finish.mpr (.inl rfl))⟩

/-- A type starts to be built, and its output is defined. -/
theorem RequestStep.start {r r₁ : SchemaRegistry ι} {i : ι}
    (hnone : r.inputs.lookup i = none)
    (h : g.OutputStep [i] { r with inputs := r.inputs.insert i .building } r₁) :
    g.RequestStep {i} [i] r r₁ := by
  have hrest := h.rest
  have hinputs : r₁.inputs = r.inputs.insert i .building := by rw [hrest]
  have hdone : ∀ j, IsDone r₁ j ↔ IsDone r j := fun j => by
    rw [IsDone, hinputs]
    exact isDone_start hnone
  exact
    { building := fun j hj => by
        rw [IsBuilding, hinputs]
        exact isBuilding_start.trans (or_iff_right (by simpa using hj))
      done := fun j schema hj => by
        rw [hinputs, Table.lookup_insert, if_neg (ne_of_known hnone (.inl ⟨schema, hj⟩))]
        exact hj
      differs := fun j _ _ => by rw [hrest]
      assumed := fun j _ _ hj => by rw [hrest]; exact hj
      completed := by rw [hrest]
      defined := fun j hj => h.defined hj
      newDefined := fun j hj => (h.new _ _ hj).imp_right fun hj => hj.2
      newDone := fun j hj => .inl ((hdone j).mp hj) }

variable [Fintype ι]

/-- The types whose request form is being built. -/
def buildingSet (r : SchemaRegistry ι) : Finset ι := Finset.univ.filter fun i => IsBuilding r i

theorem buildingSet_congr {r r' : SchemaRegistry ι} (h : ∀ i, IsBuilding r' i ↔ IsBuilding r i) :
    buildingSet r' = buildingSet r := by
  ext i
  simp [buildingSet, h]

/-- What `named` does when it is asked for request forms while at least `least` of them are
    being built. -/
def CallsRequests (g : TypeGraph ι) (named : Named ι) (least : ℕ) : Prop :=
  ∀ i r, g.Requests r → least ≤ (buildingSet r).card →
    ∃ r', named true i r = some (reference (g.component r' i), r') ∧ g.Requests r' ∧
      g.RequestStep ∅ [i] r r' ∧ Known r' i

/-- The request forms of a list of types, one after the other. What one call returns is
    still right after the next ones. -/
theorem CallsRequests.mapM {named : Named ι} {least : ℕ} (h : g.CallsRequests named least)
    (types : List ι) {r : SchemaRegistry ι} (hr : g.Requests r)
    (hleast : least ≤ (buildingSet r).card) :
    ∃ r', types.mapM (named true) r =
        some (types.map fun i => reference (g.component r' i), r') ∧
      g.Requests r' ∧ g.RequestStep ∅ types r r' ∧ ∀ i ∈ types, Known r' i := by
  induction types generalizing r with
  | nil => exact ⟨r, rfl, hr, .refl r ∅ [], by simp⟩
  | cons i types ih =>
    obtain ⟨r₁, hi, hr₁, hstep₁, hknown⟩ := h i r hr hleast
    have hcard : buildingSet r₁ = buildingSet r :=
      buildingSet_congr fun i => hstep₁.building i (Finset.notMem_empty i)
    obtain ⟨r₂, htypes, hr₂, hstep₂, hall⟩ := ih hr₁ (hcard ▸ hleast)
    have hfirst : g.component r₂ i = g.component r₁ i :=
      hstep₂.component (Finset.notMem_empty i) hknown
    refine ⟨r₂, ?_, hr₂, ?_, ?_⟩
    · rw [List.mapM_cons, bind_apply, hi, Option.bind_some, bind_apply, htypes, List.map_cons, hfirst]
      rfl
    · exact (hstep₁.mono le_rfl fun s hs => ⟨s, by simp_all, .refl⟩).trans
        (hstep₂.mono le_rfl fun s hs => ⟨s, List.mem_cons_of_mem _ hs, .refl⟩)
    · intro j hj
      rcases List.mem_cons.mp hj with rfl | hj
      · exact hstep₂.known (Finset.notMem_empty _) hknown
      · exact hall j hj


/-- The request body of a type, as far as the registry knows when it is built. -/
theorem CallsRequests.body {named : Named ι} {least : ℕ} (h : g.CallsRequests named least)
    (i : ι) {r : SchemaRegistry ι} (hr : g.Requests r) (hleast : least ≤ (buildingSet r).card) :
    ∃ r', (do return g.body i true (← (g.refs i).mapM (named true)) : Gen ι Json) r =
        some (g.knownBody r' i, r') ∧
      g.Requests r' ∧ g.RequestStep ∅ [i] r r' ∧ ∀ j ∈ g.refs i, Known r' j := by
  obtain ⟨r', hrefs, hr', hstep, hknown⟩ := h.mapM (g.refs i) hr hleast
  exact ⟨r', body_apply hrefs, hr', hstep.mono le_rfl fun s hs =>
    ⟨i, List.mem_singleton_self i, .single hs⟩, hknown⟩

/-- `define_input` returns the component that a type turns out to have. -/
theorem defineInput_spec {named : Named ι} {least : ℕ} (houtputs : g.CallsOutputs named 1)
    (hrequests : g.CallsRequests named (least + 1)) {i : ι} {r : SchemaRegistry ι}
    (hr : g.Requests r) (hleast : least ≤ (buildingSet r).card) :
    ∃ r', defineInput i (g.name i)
        (do return g.body i false (← (g.refs i).mapM (named false)))
        (do return g.body i true (← (g.refs i).mapM (named true))) r =
          some (reference (g.component r' i), r') ∧
      g.Requests r' ∧ g.RequestStep ∅ [i] r r' ∧ Known r' i := by
  have hdocument := hr.outputs.document
  cases hstate : r.inputs.lookup i with
  | some state =>
    cases state with
    | done schema =>
      refine ⟨r, ?_, hr, .refl r ∅ [i], .inl ⟨schema, hstate⟩⟩
      rw [defineInput_of_done hdocument hstate, hr.done i schema hstate]
    | building =>
      rw [defineInput_of_building hdocument hstate]
      by_cases hdiffers : i ∈ r.inputDiffers
      · refine ⟨r, ?_, hr, .refl r ∅ [i], .inr ⟨hstate, fun h => absurd hdiffers h⟩⟩
        rw [if_pos hdiffers, component, if_pos hdiffers]
      · refine ⟨_, ?_, hr.assume i, ?_,
          .inr ⟨hstate, fun _ => Finset.mem_insert_self i r.assumedSame⟩⟩
        · rw [if_neg hdiffers, component, if_neg hdiffers]
        · exact { RequestStep.refl (g := g) r ∅ [i] with
            assumed := fun j _ _ hj => Finset.mem_insert_of_mem hj }
  | none =>
    -- The output, and the first attempt at the request body.
    have hr₀ := hr.start hstate
    obtain ⟨r₁, houtput, houtputs₁, hstep₀, hdefined₁⟩ :=
      define_spec houtputs hr₀.outputs (Nat.zero_le _)
    have hr₁ := hr₀.outputStep hstep₀ houtputs₁
    have hstart : g.RequestStep {i} [i] r r₁ := .start hstate hstep₀
    have hinputs₁ : r₁.inputs = r.inputs.insert i .building := by rw [hstep₀.rest]
    have hbuilding₁ : ∀ j, IsBuilding r₁ j ↔ j = i ∨ IsBuilding r j := fun j => by
      rw [IsBuilding, hinputs₁]
      exact isBuilding_start
    have hi₁ : IsBuilding r₁ i := (hbuilding₁ i).mpr (.inl rfl)
    have hleast₁ : least + 1 ≤ (buildingSet r₁).card := by
      have hset : buildingSet r₁ = insert i (buildingSet r) := by
        ext j
        simp [buildingSet, hbuilding₁]
      have hi : i ∉ buildingSet r := fun hmem => by
        have hbuilding := (Finset.mem_filter.mp hmem).2
        rw [IsBuilding, hstate] at hbuilding
        cases hbuilding
      rw [hset, Finset.card_insert_of_notMem hi]
      omega
    obtain ⟨r₂, hinput, hr₂, hstep₁, hknown₂⟩ := hrequests.body i hr₁ hleast₁
    have hstep₂ : g.RequestStep {i} [i] r r₂ :=
      hstart.trans (hstep₁.mono (Finset.empty_subset _) fun s hs => ⟨s, hs, .refl⟩)
    have hi₂ : IsBuilding r₂ i := (hstep₁.building i (Finset.notMem_empty i)).mpr hi₁
    have hdefined₂ := hstep₁.defined i hdefined₁
    rw [defineInput_of_new hdocument hstate houtput hinput,
      hr₂.outputs.output i hdefined₂ (Finset.notMem_empty i)]
    by_cases hsame : g.knownBody r₂ i = g.outputBody i
    · rw [if_pos (congrArg some hsame.symm)]
      obtain ⟨r', hr', hcomponent, hfinal⟩ :=
        hr₂.keep hi₂ (same_of_body_eq hsame) hdefined₂ hknown₂ hstep₂ hstate
      exact ⟨r', by rw [hr', hcomponent], hfinal⟩
    rw [if_neg fun h => hsame (Option.some.inj h).symm]
    have hreason := reason_of_body_ne hsame
    by_cases hassumed : i ∈ r₂.assumedSame
    · -- Something took the type to be unchanged: back to where it started.
      have hfresh : ∀ j, IsDone r₁ j → i ∉ g.refs j := by
        intro j hj hmem
        rw [IsDone, hinputs₁] at hj
        exact ne_of_known hstate (hr.known j ((isDone_start hstate).mp hj) i hmem) rfl
      obtain ⟨hr₃, hrewind⟩ := hr₁.rewound hr₂ hstep₁ hi₁ hfresh hreason
      have hbuilding₃ := (states_rewind hr₁ hr₂ hstep₁ i).2
      have hi₃ : IsBuilding (rewind r₁ r₂ i) i := (hbuilding₃ i).mpr hi₁
      obtain ⟨r₄, hinput₄, hr₄, hstep₄, hknown₄⟩ :=
        hrequests.body i hr₃ (buildingSet_congr hbuilding₃ ▸ hleast₁)
      have hdiffers₄ : i ∈ r₄.inputDiffers := by
        rw [hstep₄.differs i (Finset.notMem_empty i) (.inr hi₃), differs_rewind]
        exact Finset.mem_insert_self i _
      have hstep : g.RequestStep {i} [i] r r₄ := (hstart.trans hrewind).trans
        (hstep₄.mono (Finset.empty_subset _) fun s hs => ⟨s, hs, .refl⟩)
      obtain ⟨r', hr', hcomponent, hfinal⟩ := hr₄.register
        ((hstep₄.building i (Finset.notMem_empty i)).mpr hi₃) hdiffers₄
        (hstep₄.defined i (hrewind.defined i hdefined₁)) hknown₄
        hstep hstate
      have hcompleted : r₁.completed = r.completed := by rw [hstep₀.rest]
      have hinput₃ := hinput₄
      rw [rewind, hcompleted] at hinput₃
      exact ⟨r', by rw [if_pos hassumed, hinput₃, Option.map_some, hr', hcomponent], hfinal⟩
    · -- Nothing did: the body is right as it is.
      have hr₃ := hr₂.differ hi₂ hassumed hreason
      have hbody : g.knownBody { r₂ with inputDiffers := insert i r₂.inputDiffers } i =
          g.knownBody r₂ i :=
        knownBody_congr fun j hj => (hknown₂ j hj).differs_insert hi₂ hassumed
      have hknown₃ : ∀ j ∈ g.refs i, Known { r₂ with
          inputDiffers := insert i r₂.inputDiffers } j := fun j hj =>
        (hknown₂ j hj).imp_right fun hbuilding =>
          ⟨hbuilding.1, fun h => hbuilding.2 fun h' => h (Finset.mem_insert_of_mem h')⟩
      have hstep₃ : g.RequestStep {i} [i] r { r₂ with inputDiffers := insert i r₂.inputDiffers } :=
        { hstep₂ with
          differs := fun j hj hs => by
            rw [Finset.mem_insert, or_iff_right (by simpa using hj)]
            exact hstep₂.differs j hj hs }
      obtain ⟨r', hr', hcomponent, hfinal⟩ := hr₃.register hi₂ (Finset.mem_insert_self i _)
        hdefined₂ hknown₃ hstep₃ hstate
      rw [hbody] at hr'
      exact ⟨r', by rw [if_neg hassumed, Option.map_some, hr', hcomponent], hfinal⟩

/-- Request forms are generated for every type, with enough fuel. -/
theorem callsRequests {fuel least : ℕ} (hfuel : 2 * Fintype.card ι + 1 < fuel + least) :
    g.CallsRequests (schemaOf g.impl fuel) least := by
  induction fuel generalizing least with
  | zero =>
    intro i r _ hleast
    have := Finset.card_le_univ (buildingSet r)
    omega
  | succ fuel ih =>
    intro i r hr hleast
    have hcard := Finset.card_le_univ (buildingSet r)
    exact defineInput_spec (callsOutputs (by omega)) (ih (by omega)) hr hleast

end TypeGraph

end OasRs.Schema
