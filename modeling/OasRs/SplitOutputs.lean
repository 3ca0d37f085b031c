import OasRs.TypeGraph

/-!
# Outputs

What `define` adds to the registry of a document: the output of a type, and of
everything that it reaches. The types whose bodies are being built are a parameter of
the invariant, since their entries are placeholders.

## Main results

- `define_spec`: one call, on a registry where it may nest deeply enough
- `callsOutputs`: with enough fuel every call on an output returns
-/

namespace OasRs.Schema

open SchemaRegistry Lib

variable {ι : Type}

namespace TypeGraph

variable {g : TypeGraph ι}

/-! ## Outputs -/

/-- A type whose output is defined, or being defined. -/
def Defined (g : TypeGraph ι) (r : SchemaRegistry ι) (i : ι) : Prop :=
  r.owners.lookup (g.name i) = some i

instance [DecidableEq ι] (g : TypeGraph ι) (r : SchemaRegistry ι) (i : ι) : Decidable (g.Defined r i) :=
  inferInstanceAs (Decidable (_ = _))

/-- The registry of a document while the outputs of `building` are being built. -/
structure Outputs (g : TypeGraph ι) (r : SchemaRegistry ι) (building : Finset ι) : Prop where
  document : r.inline = false
  conflicts : r.conflicts = []
  owner : ∀ n i, r.owners.lookup n = some i → n = g.name i ∨ n = inputName (g.name i)
  keys : ∀ n, (r.definitions.lookup n).isSome = (r.owners.lookup n).isSome
  output : ∀ i, g.Defined r i → i ∉ building →
    r.definitions.lookup (g.name i) = some (g.outputBody i)
  closed : ∀ i, g.Defined r i → i ∉ building → ∀ j ∈ g.refs i, g.Defined r j

/-- `r'` has the tables of `r` and the outputs of types that `sources` reach. -/
structure OutputStep (g : TypeGraph ι) (sources : List ι) (r r' : SchemaRegistry ι) : Prop where
  rest : r' = { r with owners := r'.owners, definitions := r'.definitions }
  old : ∀ n i, r.owners.lookup n = some i →
    r'.owners.lookup n = some i ∧ r'.definitions.lookup n = r.definitions.lookup n
  new : ∀ n i, r'.owners.lookup n = some i →
    r.owners.lookup n = some i ∨ n = g.name i ∧ ∃ s ∈ sources, g.Reaches s i

theorem OutputStep.refl (r : SchemaRegistry ι) (sources : List ι) : g.OutputStep sources r r where
  rest := rfl
  old _ _ h := ⟨h, rfl⟩
  new _ _ h := .inl h

theorem OutputStep.trans {sources : List ι} {r r' r'' : SchemaRegistry ι}
    (h : g.OutputStep sources r r') (h' : g.OutputStep sources r' r'') :
    g.OutputStep sources r r'' where
  rest := by
    rw [h'.rest, h.rest]
  old n i hn := by
    obtain ⟨ho, hd⟩ := h.old n i hn
    obtain ⟨ho', hd'⟩ := h'.old n i ho
    exact ⟨ho', hd'.trans hd⟩
  new n i hn := (h'.new n i hn).elim (h.new n i) .inr

theorem OutputStep.mono {sources sources' : List ι} {r r' : SchemaRegistry ι}
    (h : g.OutputStep sources r r')
    (hsources : ∀ s ∈ sources, ∃ s' ∈ sources', g.Reaches s' s) : g.OutputStep sources' r r' where
  rest := h.rest
  old := h.old
  new n i hn := (h.new n i hn).imp_right fun ⟨hname, s, hs, hreach⟩ => by
    obtain ⟨s', hs', hreach'⟩ := hsources s hs
    exact ⟨hname, s', hs', hreach'.trans hreach⟩

theorem OutputStep.defined {sources : List ι} {r r' : SchemaRegistry ι}
    (h : g.OutputStep sources r r') {i : ι} (hi : g.Defined r i) : g.Defined r' i :=
  (h.old _ _ hi).1

/-- The body of a type, once the schemas of its references are there. -/
theorem body_apply {named : Named ι} {request : Bool} {i : ι} {r r' : SchemaRegistry ι}
    {schemas : List Json} (h : (g.refs i).mapM (named request) r = some (schemas, r')) :
    (do return g.body i request (← (g.refs i).mapM (named request)) : Gen ι Json) r =
      some (g.body i request schemas, r') := by
  rw [bind_apply, h]
  rfl

theorem defined_insert {r : SchemaRegistry ι} {i j : ι} {definitions : Table String Json} :
    g.Defined { r with owners := r.owners.insert (g.name i) i, definitions } j ↔
      j = i ∨ g.Defined r j := by
  unfold Defined
  rw [Table.lookup_insert]
  by_cases h : j = i
  · simp [h]
  · simp [h, g.name_injective.ne h]

variable [DecidableEq ι]

/-- A type whose output is about to be built. -/
theorem Outputs.begin {r : SchemaRegistry ι} {building : Finset ι} (h : g.Outputs r building)
    (i : ι) : g.Outputs { r with
      owners := r.owners.insert (g.name i) i
      definitions := r.definitions.insert (g.name i) .null } (insert i building) where
  document := h.document
  conflicts := h.conflicts
  owner n j hn := by
    rw [Table.lookup_insert] at hn
    split at hn
    · rename_i hname
      rw [Option.some.injEq] at hn
      exact .inl (hn ▸ hname)
    · exact h.owner n j hn
  keys n := by
    rw [Table.lookup_insert, Table.lookup_insert]
    split
    · rfl
    · exact h.keys n
  output j hj hbuilding := by
    rw [Finset.mem_insert, not_or] at hbuilding
    rw [Table.lookup_insert, if_neg (g.name_injective.ne hbuilding.1)]
    exact h.output j ((defined_insert.mp hj).resolve_left hbuilding.1) hbuilding.2
  closed j hj hbuilding k hk := by
    rw [Finset.mem_insert, not_or] at hbuilding
    exact defined_insert.mpr
      (.inr (h.closed j ((defined_insert.mp hj).resolve_left hbuilding.1) hbuilding.2 k hk))

/-- The output of a type has been built. -/
theorem Outputs.finish {r : SchemaRegistry ι} {building : Finset ι} {i : ι}
    (h : g.Outputs r (insert i building)) (hi : g.Defined r i)
    (hrefs : ∀ j ∈ g.refs i, g.Defined r j) :
    g.Outputs { r with definitions := r.definitions.insert (g.name i) (g.outputBody i) }
      building where
  document := h.document
  conflicts := h.conflicts
  owner := h.owner
  keys n := by
    rw [Table.lookup_insert]
    split
    · rename_i hname
      rw [hname, show r.owners.lookup (g.name i) = some i from hi]
      rfl
    · exact h.keys n
  output j hj hbuilding := by
    rw [Table.lookup_insert]
    by_cases hji : j = i
    · rw [hji, if_pos rfl]
    · rw [if_neg (g.name_injective.ne hji)]
      exact h.output j hj (by simp [hji, hbuilding])
  closed j hj hbuilding k hk := by
    by_cases hji : j = i
    · exact hrefs k (hji ▸ hk)
    · exact h.closed j hj (by simp [hji, hbuilding]) k hk

variable [Fintype ι]

/-- The types whose output is defined. -/
def definedSet (g : TypeGraph ι) (r : SchemaRegistry ι) : Finset ι :=
  Finset.univ.filter fun i => g.Defined r i

theorem OutputStep.card_le {sources : List ι} {r r' : SchemaRegistry ι}
    (h : g.OutputStep sources r r') : (g.definedSet r).card ≤ (g.definedSet r').card := by
  apply Finset.card_le_card
  intro i hi
  simp only [definedSet, Finset.mem_filter, Finset.mem_univ, true_and] at hi ⊢
  exact h.defined hi

/-- What `named` does when it is asked for outputs on a registry that has `least` of them. -/
def CallsOutputs (g : TypeGraph ι) (named : Named ι) (least : ℕ) : Prop :=
  ∀ i r building, g.Outputs r building → least ≤ (g.definedSet r).card →
    ∃ r', named false i r = some (reference (g.name i), r') ∧ g.Outputs r' building ∧
      g.OutputStep [i] r r' ∧ g.Defined r' i

/-- The outputs of a list of types, one after the other. -/
theorem CallsOutputs.mapM {named : Named ι} {least : ℕ} (h : g.CallsOutputs named least)
    (types : List ι) {r : SchemaRegistry ι} {building : Finset ι} (hr : g.Outputs r building)
    (hleast : least ≤ (g.definedSet r).card) :
    ∃ r', types.mapM (named false) r = some (types.map fun i => reference (g.name i), r') ∧
      g.Outputs r' building ∧ g.OutputStep types r r' ∧ ∀ i ∈ types, g.Defined r' i := by
  induction types generalizing r with
  | nil => exact ⟨r, rfl, hr, .refl r [], by simp⟩
  | cons i types ih =>
    obtain ⟨r₁, hi, hr₁, hstep₁, hdefined⟩ := h i r building hr hleast
    obtain ⟨r₂, htypes, hr₂, hstep₂, hall⟩ := ih hr₁ (hleast.trans hstep₁.card_le)
    refine ⟨r₂, ?_, hr₂, ?_, ?_⟩
    · rw [List.mapM_cons, bind_apply, hi, Option.bind_some, bind_apply, htypes]
      rfl
    · exact (hstep₁.mono fun s hs => ⟨s, by simp_all, .refl⟩).trans
        (hstep₂.mono fun s hs => ⟨s, List.mem_cons_of_mem _ hs, .refl⟩)
    · intro j hj
      rcases List.mem_cons.mp hj with rfl | hj
      · exact hstep₂.defined hdefined
      · exact hall j hj

theorem card_definedSet_insert {r : SchemaRegistry ι} {i : ι} (h : ¬ g.Defined r i)
    (definitions : Table String Json) :
    (g.definedSet { r with owners := r.owners.insert (g.name i) i, definitions }).card =
      (g.definedSet r).card + 1 := by
  have hset : g.definedSet { r with owners := r.owners.insert (g.name i) i, definitions } =
      insert i (g.definedSet r) := by
    ext j
    simp [definedSet, defined_insert]
  rw [hset, Finset.card_insert_of_notMem (by simpa [definedSet] using h)]

/-- `define` registers the output of a type and of everything it reaches. -/
theorem define_spec {named : Named ι} {least : ℕ} (hnamed : g.CallsOutputs named (least + 1))
    {i : ι} {r : SchemaRegistry ι} {building : Finset ι} (hr : g.Outputs r building)
    (hleast : least ≤ (g.definedSet r).card) :
    ∃ r', define i (g.name i) (do return g.body i false (← (g.refs i).mapM (named false))) r =
        some (reference (g.name i), r') ∧
      g.Outputs r' building ∧ g.OutputStep [i] r r' ∧ g.Defined r' i := by
  cases howner : r.owners.lookup (g.name i) with
  | some j =>
    -- the name is taken, by this very type
    have hji : j = i := (hr.owner _ _ howner).elim (fun h => g.name_injective h.symm)
      fun h => absurd h (g.name_ne_input i j)
    rw [hji] at howner
    exact ⟨r, define_of_owned hr.document howner, hr, .refl r [i], howner⟩
  | none =>
    have hfresh : ¬ g.Defined r i := by simp [Defined, howner]
    have hcard := card_definedSet_insert hfresh (r.definitions.insert (g.name i) .null)
    obtain ⟨r', hrefs, hr', hstep, hdefined⟩ := hnamed.mapM (g.refs i) (hr.begin i) (by omega)
    have hi : g.Defined r' i := hstep.defined (defined_insert.mpr (.inl rfl))
    refine ⟨_, define_of_new hr.document howner (body_apply hrefs), hr'.finish hi hdefined,
      ⟨?_, ?_, ?_⟩, hi⟩
    · rw [hstep.rest]
    · intro n j hn
      have hne : n ≠ g.name i := by
        rintro rfl
        rw [howner] at hn
        cases hn
      have hold : (r.owners.insert (g.name i) i).lookup n = some j := by
        rw [Table.lookup_insert, if_neg hne, hn]
      obtain ⟨ho, hd⟩ := hstep.old n j hold
      refine ⟨ho, ?_⟩
      rw [Table.lookup_insert, if_neg hne, hd, Table.lookup_insert, if_neg hne]
    · intro n j hn
      rcases hstep.new n j hn with hold | ⟨hname, s, hs, hreach⟩
      · rw [Table.lookup_insert] at hold
        split at hold
        · rename_i hname
          rw [Option.some.injEq] at hold
          exact .inr ⟨hold ▸ hname, i, List.mem_singleton_self i, hold ▸ .refl⟩
        · exact .inl hold
      · exact .inr ⟨hname, i, List.mem_singleton_self i, .head hs hreach⟩

/-- Outputs are generated for every type, with enough fuel. -/
theorem callsOutputs {fuel least : ℕ} (hfuel : Fintype.card ι < fuel + least) :
    g.CallsOutputs (schemaOf g.impl fuel) least := by
  induction fuel generalizing least with
  | zero =>
    intro i r building _ hleast
    have := Finset.card_le_univ (g.definedSet r)
    omega
  | succ fuel ih =>
    intro i r building hr hleast
    exact define_spec (ih (by omega)) hr hleast

end TypeGraph

end OasRs.Schema
