import OasRs.SplitRequests
import Mathlib.Tactic.FinCases

/-!
# The Request/Response Split is Exact

What a document registry holds after any sequence of calls: the output of every type
that was reached, the request form of every type that a request reached and that reaches
a gap, and nothing else.

## Main results

- `Settled.call`: one more call
- `run_exact`: a sequence of calls on a fresh registry
-/

namespace OasRs.Schema

open SchemaRegistry Lib

variable {ι : Type} [DecidableEq ι]

namespace TypeGraph

variable {g : TypeGraph ι}

/-! ## Between two calls -/

/-- The registry of a document after some calls. -/
structure Settled (g : TypeGraph ι) (calls : List (Call ι)) (r : SchemaRegistry ι) : Prop where
  requests : g.Requests r
  idle : ∀ i, ¬ IsBuilding r i
  defined_iff : ∀ i, g.Defined r i ↔ g.Reached calls i
  done_iff : ∀ i, IsDone r i ↔ g.RequestReached calls i

theorem settled_document : g.Settled [] (document : SchemaRegistry ι) := by
  have hdone : ∀ i, ¬ IsDone (document : SchemaRegistry ι) i := by
    rintro i ⟨schema, h⟩
    simp [document] at h
  have hdefined : ∀ i, ¬ g.Defined (document : SchemaRegistry ι) i := by
    intro i h
    simp [Defined, document] at h
  exact
    { requests :=
        { outputs :=
            { document := rfl
              conflicts := rfl
              owner := fun n i h => by simp [document] at h
              keys := fun n => by simp [document]
              output := fun i h => absurd h (hdefined i)
              closed := fun i h => absurd h (hdefined i) }
          defined := fun i h => absurd h (hdone i)
          nodup := List.nodup_nil
          completed_iff := fun i => by simpa [document] using hdone i
          completed := fun e he => absurd he List.not_mem_nil
          done := fun i schema h => absurd ⟨schema, h⟩ (hdone i)
          known := fun i h => absurd h (hdone i)
          same := fun i h => absurd h (hdone i)
          request := fun i h => absurd h (hdone i)
          input_owner := fun i => by simp [document]
          reason := fun i hi => absurd hi (Finset.notMem_empty i)
          sound := fun i hi => absurd hi (Finset.notMem_empty i) }
      idle := fun i h => by simp [IsBuilding, document] at h
      defined_iff := fun i => by simpa [Reached] using hdefined i
      done_iff := fun i => by simpa [RequestReached] using hdone i }

namespace Settled

variable {calls : List (Call ι)} {r r' : SchemaRegistry ι}

/-- Between calls, what is known is done. -/
theorem isDone_of_known (h : g.Settled calls r) {i : ι} (hi : Known r i) : IsDone r i :=
  hi.elim id fun hi => absurd hi.1 (h.idle i)

/-- Between calls, the registry knows exactly which of the types that are done differ. -/
theorem differs_iff (h : g.Settled calls r) {i : ι} (hi : IsDone r i) :
    i ∈ r.inputDiffers ↔ g.Differs i := by
  refine ⟨h.requests.sound i, fun hdiffers => ?_⟩
  by_contra hmem
  -- The types that are done and unchanged are closed under references and have no gap.
  refine not_differs_of_closed (S := { j | IsDone r j ∧ j ∉ r.inputDiffers }) ?_ ?_ ⟨hi, hmem⟩
    hdiffers
  · rintro j ⟨hj, hj'⟩ k hk
    exact ⟨h.isDone_of_known (h.requests.known j hj k hk), (h.requests.same j hj hj').2 k hk⟩
  · rintro j ⟨hj, hj'⟩
    exact (h.requests.same j hj hj').1

theorem component_eq (h : g.Settled calls r) {i : ι} (hi : IsDone r i) :
    g.component r i = g.requestName i := by
  rw [component, requestName]
  by_cases hdiffers : g.Differs i
  · rw [if_pos ((h.differs_iff hi).mpr hdiffers), if_pos hdiffers]
  · rw [if_neg ((h.differs_iff hi).not.mpr hdiffers), if_neg hdiffers]

theorem knownBody_eq (h : g.Settled calls r) {i : ι} (hi : IsDone r i) :
    g.knownBody r i = g.requestBody i := by
  rw [knownBody, requestBody]
  congr 1
  exact List.map_congr_left fun j hj => by
    rw [h.component_eq (h.isDone_of_known (h.requests.known i hi j hj))]

/-- The output of one more type, and of what it reaches. -/
theorem schemaWith (h : g.Settled calls r) {i : ι} (hstep : g.OutputStep [i] r r')
    (houtputs : g.Outputs r' ∅) (hdefined : g.Defined r' i) :
    g.Settled (calls ++ [.schemaWith i]) r' where
  requests := h.requests.outputStep hstep houtputs
  idle j := by
    rw [hstep.rest]
    exact h.idle j
  defined_iff j := by
    rw [reached_append, ← h.defined_iff]
    constructor
    · intro hj
      refine (hstep.new _ _ hj).imp_right fun ⟨_, s, hs, hreach⟩ => ?_
      rwa [List.mem_singleton.mp hs] at hreach
    · rintro (hj | hj)
      · exact hstep.defined hj
      · exact mem_of_reaches (S := { k | g.Defined r' k })
          (fun k hk => houtputs.closed k hk (Finset.notMem_empty k)) hdefined hj
  done_iff j := by
    rw [requestReached_append, ← h.done_iff, hstep.rest]
    simp [IsDone]

/-- The request form of one more type, and of what it reaches. -/
theorem requestSchemaWith (h : g.Settled calls r) {i : ι} (hr' : g.Requests r')
    (hstep : g.RequestStep ∅ [i] r r') (hknown : Known r' i) :
    g.Settled (calls ++ [.requestSchemaWith i]) r' := by
  have hidle : ∀ j, ¬ IsBuilding r' j := fun j hj =>
    h.idle j ((hstep.building j (Finset.notMem_empty j)).mp hj)
  have hdone_of_known : ∀ j, Known r' j → IsDone r' j := fun j hj =>
    hj.elim id fun hj => absurd hj.1 (hidle j)
  have hdone : ∀ j, g.Reaches i j → IsDone r' j := fun j =>
    mem_of_reaches (S := { k | IsDone r' k })
      (fun k hk l hl => hdone_of_known l (hr'.known k hk l hl)) (hdone_of_known i hknown)
  exact
    { requests := hr'
      idle := hidle
      defined_iff := fun j => by
        rw [reached_append, ← h.defined_iff]
        constructor
        · intro hj
          refine (hstep.newDefined j hj).imp_right fun ⟨s, hs, hreach⟩ => ?_
          rwa [List.mem_singleton.mp hs] at hreach
        · rintro (hj | hj)
          · exact hstep.defined j hj
          · exact hr'.defined j (hdone j hj)
      done_iff := fun j => by
        rw [requestReached_append, ← h.done_iff]
        constructor
        · intro hj
          refine (hstep.newDone j hj).imp_right fun ⟨s, hs, hreach⟩ => ⟨i, rfl, ?_⟩
          rwa [List.mem_singleton.mp hs] at hreach
        · rintro (hj | ⟨root, hroot, hj⟩)
          · exact hstep.isDone hj
          · rw [Call.requestSchemaWith.injEq] at hroot
            exact hdone j (hroot ▸ hj) }

end Settled

/-! ## Sequences of calls -/

/-- What a document registry defines between calls. -/
theorem Settled.definitions_iff {calls : List (Call ι)} {r : SchemaRegistry ι}
    (h : g.Settled calls r) (component : String) (schema : Json) :
    r.definitions.lookup component = some schema ↔ g.Defines calls component schema := by
  constructor
  · intro hlookup
    have howned : (r.owners.lookup component).isSome := by
      rw [← h.requests.outputs.keys, hlookup]
      rfl
    obtain ⟨i, hi⟩ := Option.isSome_iff_exists.mp howned
    rcases h.requests.outputs.owner component i hi with rfl | rfl
    · rw [h.requests.outputs.output i hi (Finset.notMem_empty i), Option.some.injEq] at hlookup
      exact hlookup ▸ .output ((h.defined_iff i).mp hi)
    · obtain ⟨hdone, hdiffers⟩ := (h.requests.input_owner i).mp howned
      rw [h.requests.request i hdone hdiffers, Option.some.injEq, h.knownBody_eq hdone] at hlookup
      exact hlookup ▸ .request ((h.done_iff i).mp hdone) (h.requests.sound i hdiffers)
  · rintro (hreached | ⟨hreached, hdiffers⟩)
    · exact h.requests.outputs.output _ ((h.defined_iff _).mpr hreached) (Finset.notMem_empty _)
    · have hdone := (h.done_iff _).mpr hreached
      rw [h.requests.request _ hdone ((h.differs_iff hdone).mpr hdiffers), h.knownBody_eq hdone]

variable [Fintype ι]

/-- One more call returns what it should. -/
theorem Settled.call {fuel : ℕ} (hfuel : 2 * Fintype.card ι + 1 < fuel) {calls : List (Call ι)}
    {r : SchemaRegistry ι} (h : g.Settled calls r) (call : Call ι) :
    ∃ r', call.run (schemaOf g.impl fuel) r = some (g.answer call, r') ∧
      g.Settled (calls ++ [call]) r' := by
  cases call with
  | schemaWith i =>
    obtain ⟨r', hrun, houtputs, hstep, hdefined⟩ :=
      callsOutputs (show Fintype.card ι < fuel + 0 by omega) i r ∅ h.requests.outputs
        (Nat.zero_le _)
    exact ⟨r', hrun, h.schemaWith hstep houtputs hdefined⟩
  | requestSchemaWith i =>
    obtain ⟨r', hrun, hr', hstep, hknown⟩ :=
      callsRequests (show 2 * Fintype.card ι + 1 < fuel + 0 by omega) i r h.requests
        (Nat.zero_le _)
    have hsettled := h.requestSchemaWith hr' hstep hknown
    refine ⟨r', ?_, hsettled⟩
    rw [answer, ← hsettled.component_eq (hsettled.isDone_of_known hknown)]
    exact hrun

theorem Settled.run {fuel : ℕ} (hfuel : 2 * Fintype.card ι + 1 < fuel) {calls : List (Call ι)}
    {r : SchemaRegistry ι} (h : g.Settled calls r) (more : List (Call ι)) :
    ∃ r', more.mapM (fun call => call.run (schemaOf g.impl fuel)) r =
        some (more.map g.answer, r') ∧ g.Settled (calls ++ more) r' := by
  induction more generalizing calls r with
  | nil => exact ⟨r, rfl, by simpa using h⟩
  | cons call more ih =>
    obtain ⟨r₁, hcall, h₁⟩ := h.call hfuel call
    obtain ⟨r₂, hmore, h₂⟩ := ih h₁
    refine ⟨r₂, ?_, by simpa using h₂⟩
    rw [List.mapM_cons, bind_apply, hcall, Option.bind_some, bind_apply, hmore]
    rfl

/-- **The request/response split is exact.** With enough fuel (so for the code: always),
    any sequence of calls on a fresh document registry returns; every call returns the
    reference it should, no conflict is reported, the definitions are exactly those of
    the types reached, nothing that is referred to is missing, and other calls on the same
    types leave the same definitions. -/
theorem run_exact (g : TypeGraph ι) :
    ∃ bound, ∀ fuel ≥ bound, ∀ calls : List (Call ι),
      ∃ r, calls.mapM (fun call => call.run (schemaOf g.impl fuel)) document =
          some (calls.map g.answer, r) ∧
        r.conflicts = [] ∧
        (∀ component schema,
          r.definitions.lookup component = some schema ↔ g.Defines calls component schema) ∧
        (∀ component, g.Refers calls component → (r.definitions.lookup component).isSome) ∧
        ∀ calls' : List (Call ι), (∀ call, call ∈ calls' ↔ call ∈ calls) → ∀ answers r',
          calls'.mapM (fun call => call.run (schemaOf g.impl fuel)) document =
            some (answers, r') →
          ∀ component, r'.definitions.lookup component = r.definitions.lookup component := by
  refine ⟨2 * Fintype.card ι + 2, fun fuel hfuel calls => ?_⟩
  -- the invariant holds of the empty registry, and each call keeps it
  have hstart : g.Settled [] document := settled_document
  obtain ⟨r, hrun, hsettled⟩ := hstart.run hfuel calls
  rw [List.nil_append] at hsettled
  have hdefinitions := hsettled.definitions_iff
  refine ⟨r, hrun, hsettled.requests.outputs.conflicts, hdefinitions, ?_, ?_⟩
  · intro component hrefers
    obtain ⟨schema, hdefines⟩ := hrefers.defines
    rw [(hdefinitions component schema).mpr hdefines]
    rfl
  · intro calls' hcalls answers r' hrun' component
    -- the definitions are a function of the set of calls
    obtain ⟨r'', hrun'', hsettled'⟩ := hstart.run hfuel calls'
    rw [hrun', Option.some.injEq, Prod.mk.injEq] at hrun''
    rw [List.nil_append, ← hrun''.2] at hsettled'
    apply Option.ext
    intro schema
    rw [hsettled'.definitions_iff, hdefinitions]
    exact Defines.congr hcalls

/-! ## A ring of types -/

/-- Three types, each with a field of the next one's type; the last has a field that is
    required only in requests. -/
def ring : TypeGraph (Fin 3) where
  name i := ["X", "Y", "Z"].get i
  refs i := [i + 1]
  gap i := i == 2
  body i request schemas := .obj
    [("properties", .arr schemas), ("required", .bool (request && i == 2))]
  name_injective := by decide +kernel
  name_ne_input := by decide +kernel
  body_of_no_gap i h := by simp [h]
  body_of_gap i h schemas schemas' := by simp [h]
  body_injective i request components components' _ _ h := by
    have h' : components.map reference = components'.map reference := by simpa using h
    exact reference_injective.list_map h'

/-- The middle of the ring is asked for twice, first as a response, and its request form
    is a component of its own. -/
theorem run_exact_ring : ∃ fuel r,
    ring.Defines [.schemaWith 1, .requestSchemaWith 1] "YInput" (ring.requestBody 1) ∧
      [Call.schemaWith 1, .requestSchemaWith 1].mapM
          (fun call => call.run (schemaOf ring.impl fuel)) document =
        some ([reference "Y", reference "YInput"], r) ∧
      r.definitions.lookup "YInput" = some (ring.requestBody 1) := by
  have hdiffers : ring.Differs 1 := .of_ref (List.mem_singleton.mpr rfl) (.of_gap rfl)
  have hdefines : ring.Defines [.schemaWith 1, .requestSchemaWith 1] "YInput"
      (ring.requestBody 1) :=
    .request ⟨1, by simp, .refl⟩ hdiffers
  obtain ⟨fuel, hrun⟩ := ring.run_exact
  obtain ⟨r, hanswers, -, hdefinitions, -⟩ :=
    hrun fuel (le_refl fuel) [.schemaWith 1, .requestSchemaWith 1]
  refine ⟨fuel, r, hdefines, ?_, (hdefinitions _ _).mpr hdefines⟩
  rw [hanswers, List.map_cons, List.map_cons, List.map_nil, answer, answer, requestName,
    if_pos hdiffers]
  rfl

end TypeGraph

end OasRs.Schema
