import OasRs.DerivePlan
import OasRs.Lib.Returning
import OasRs.Lib.Walk
import Mathlib.Data.Fintype.EquivFin
import Mathlib.Order.Filter.AtTopBot.Basic
import Mathlib.Order.Filter.Finite

/-!
# When Schema Generation Returns

Three guards stop schema generation on types that contain themselves: the owners of a document
registry, the `Building` state of `define_input`, and the stack of an inline registry. None of them
is in force when a body asks for a flattened field, which starts a fresh inline registry, and none
is asked when a transparent type forwards to its single field. So schema generation returns on all
types of a finite graph if and only if no cycle of the graph goes through a flattened field or
through transparent types alone.

## Main results

- `Guarded`: the condition on the graph
- `returns_of_guarded`: then every call returns, whatever the registry holds
- `isSome_visit`: what has run when a call on an inline registry has returned
- `terminates_iff`
-/

namespace OasRs.Schema

open Lib SchemaRegistry Relation

variable {ι : Type} (inputs : ι → DeriveInput ι)

/-! ## The graph -/

/-- The generated code of `a` asks for the flattened schema of `b`. -/
def Flattens (a b : ι) : Prop := Ask.flattened b ∈ (inputs a).asks

/-- The generated code of `a` asks for a schema of `b`. -/
def RefersTo (a b : ι) : Prop := Ask.mention b ∈ (inputs a).asks ∨ Flattens inputs a b

/-- `a` is transparent, and forwards to a type that mentions `b`. -/
def Forwards (a b : ι) : Prop :=
  (inputs a).component? = none ∧ Ask.mention b ∈ (inputs a).asks

/-- No cycle escapes the guards. -/
structure Guarded : Prop where
  flatten : ∀ a b, Flattens inputs a b → ¬ ReflTransGen (RefersTo inputs) b a
  transparent : ∀ a, ¬ TransGen (Forwards inputs) a a

/-- `b` is reached from `a` through a flattened field. -/
def Below (a b : ι) : Prop :=
  ∃ c d, ReflTransGen (RefersTo inputs) a c ∧ Flattens inputs c d ∧
    ReflTransGen (RefersTo inputs) d b

variable {inputs} in
theorem below_acyclic (h : Guarded inputs) (a : ι) : ¬ TransGen (Below inputs) a a := by
  have htrans : ∀ b, TransGen (Below inputs) a b → Below inputs a b := by
    intro b hb
    induction hb with
    | single hb => exact hb
    | tail _ hstep ih =>
      obtain ⟨c, d, hac, hcd, hdb⟩ := ih
      obtain ⟨c', d', hbc, hcd', hdb'⟩ := hstep
      exact ⟨c, d, hac, hcd, (hdb.trans hbc).trans (.head (.inr hcd') hdb')⟩
  intro hcycle
  obtain ⟨c, d, hac, hcd, hda⟩ := htrans a hcycle
  exact h.flatten c d hcd (hda.trans hac)

/-- What holds one call deeper. -/
theorem eventually_succ {p q : ℕ → Prop} (h : ∀ᶠ fuel in Filter.atTop, p fuel)
    (hpq : ∀ fuel, p fuel → q (fuel + 1)) : ∀ᶠ fuel in Filter.atTop, q fuel := by
  obtain ⟨bound, hbound⟩ := Filter.eventually_atTop.mp h
  refine Filter.eventually_atTop.mpr ⟨bound + 1, fun fuel hfuel => ?_⟩
  obtain ⟨fuel, rfl⟩ : ∃ fuel', fuel = fuel' + 1 := ⟨fuel - 1, by omega⟩
  exact hpq fuel (hbound fuel (by omega))

variable [DecidableEq ι]

/-! ## The stack of an inline registry -/

theorem define_of_cut {r : SchemaRegistry ι} {owner : ι} {name : String}
    {build : Gen ι Json} (hinline : r.inline = true) (hstack : owner ∈ r.stack) :
    define owner name build r = some (plainObject, r) := by
  rw [define, if_pos hinline, if_pos hstack]

theorem define_of_inline {r : SchemaRegistry ι} {owner : ι} {name : String}
    {build : Gen ι Json} (hinline : r.inline = true) (hstack : owner ∉ r.stack) :
    define owner name build r =
      (build { r with stack := r.stack ++ [owner] }).map fun p =>
        (p.1, { p.2 with stack := p.2.stack.dropLast }) := by
  rw [define, if_pos hinline, if_neg hstack, Option.map_eq_bind]
  rfl

/-! ## What is left to guard -/

section Level

variable [Fintype ι]

/-- The types that are not being inlined. -/
def freeStack (r : SchemaRegistry ι) : Finset ι := Finset.univ.filter fun i => i ∉ r.stack

/-- The types whose component has no owner. -/
def unowned (r : SchemaRegistry ι) : Finset ι :=
  Finset.univ.filter fun i => ∃ name ∈ (inputs i).component?, r.owners.lookup name = none

/-- The types without a request form. -/
def unasked (r : SchemaRegistry ι) : Finset ι :=
  Finset.univ.filter fun i => r.inputs.lookup i = none

/-- The types that may still turn out to differ after they were assumed not to. -/
def undecided (r : SchemaRegistry ι) : Finset ι :=
  Finset.univ.filter fun i => i ∉ r.inputDiffers ∨ i ∈ r.assumedSame

/-- How many nested calls can still go on. Forgetting what was built makes types unowned and
    unasked again, but it decides one type. -/
def level (r : SchemaRegistry ι) : ℕ :=
  if r.inline then (freeStack r).card
  else (undecided r).card * (2 * Fintype.card ι + 1) + ((unowned inputs r).card + (unasked r).card)

/-- A call leaves an inline registry as it is, and the level of a document registry does not
    rise. -/
structure Within (r r' : SchemaRegistry ι) : Prop where
  inline : r'.inline = r.inline
  eq : r.inline = true → r' = r
  level_le : level inputs r' ≤ level inputs r

theorem steady (m : ℕ) : Steady (fun r => level inputs r < m) (Within inputs) where
  refl _ := ⟨rfl, fun _ => rfl, le_rfl⟩
  trans _ _ _ h h' :=
    ⟨h'.inline.trans h.inline, fun hr => (h'.eq (h.inline.trans hr)).trans (h.eq hr),
      h'.level_le.trans h.level_le⟩
  closed _ _ hr h := h.level_le.trans_lt hr

variable {inputs} {r r' : SchemaRegistry ι}

theorem level_document (h : r.inline = false) : level inputs r =
    (undecided r).card * (2 * Fintype.card ι + 1) +
      ((unowned inputs r).card + (unasked r).card) := by
  rw [level, h, if_neg Bool.false_ne_true]

theorem level_le (h : r.inline = false) (h' : r'.inline = false)
    (hundecided : undecided r' ⊆ undecided r) (hunowned : unowned inputs r' ⊆ unowned inputs r)
    (hunasked : unasked r' ⊆ unasked r) : level inputs r' ≤ level inputs r := by
  rw [level_document h, level_document h']
  have h₁ := Finset.card_le_card hundecided
  have h₂ := Finset.card_le_card hunowned
  have h₃ := Finset.card_le_card hunasked
  gcongr

/-- A type got an owner for its component, or a request form. -/
theorem level_lt (h : r.inline = false) (h' : r'.inline = false)
    (hundecided : undecided r' ⊆ undecided r) (hunowned : unowned inputs r' ⊆ unowned inputs r)
    (hunasked : unasked r' ⊆ unasked r)
    (hnew : unowned inputs r' ≠ unowned inputs r ∨ unasked r' ≠ unasked r) :
    level inputs r' < level inputs r := by
  rw [level_document h, level_document h']
  have h₁ := Nat.mul_le_mul_right (2 * Fintype.card ι + 1) (Finset.card_le_card hundecided)
  have h₂ := Finset.card_le_card hunowned
  have h₃ := Finset.card_le_card hunasked
  rcases hnew with hnew | hnew
  · have hlt := Finset.card_lt_card (Finset.ssubset_iff_subset_ne.mpr ⟨hunowned, hnew⟩)
    omega
  · have hlt := Finset.card_lt_card (Finset.ssubset_iff_subset_ne.mpr ⟨hunasked, hnew⟩)
    omega

/-- A type was decided. -/
theorem level_lt_of_decided (h : r.inline = false) (h' : r'.inline = false)
    (hundecided : undecided r' ⊂ undecided r) : level inputs r' < level inputs r := by
  rw [level_document h, level_document h']
  have hunowned : (unowned inputs r').card ≤ Fintype.card ι := Finset.card_le_univ _
  have hunasked : (unasked r').card ≤ Fintype.card ι := Finset.card_le_univ _
  have hlt := Nat.mul_le_mul_right (2 * Fintype.card ι + 1) (Finset.card_lt_card hundecided)
  rw [Nat.succ_mul] at hlt
  omega

/-- A type is pushed on the stack. -/
theorem level_push (h : r.inline = true) {type : ι} (htype : type ∉ r.stack) :
    level inputs { r with stack := r.stack ++ [type] } < level inputs r := by
  rw [level, level, if_pos h, if_pos h]
  apply Finset.card_lt_card
  refine Finset.ssubset_iff_subset_ne.mpr ⟨?_, ?_⟩
  · intro i hi
    simp only [freeStack, Finset.mem_filter, List.mem_append, not_or] at hi ⊢
    exact ⟨hi.1, hi.2.1⟩
  · intro heq
    have hmem : type ∈ freeStack r := by simp [freeStack, htype]
    rw [← heq] at hmem
    simp [freeStack] at hmem

omit [DecidableEq ι] in
/-- An owner more leaves no more components without one. -/
theorem unowned_insert {name : String} {type : ι}
    (howners : r'.owners = r.owners.insert name type) : unowned inputs r' ⊆ unowned inputs r := by
  intro i hi
  simp only [unowned, Finset.mem_filter, howners, Table.lookup_insert] at hi ⊢
  obtain ⟨hi, name', hname', hlookup⟩ := hi
  split at hlookup
  · cases hlookup
  · exact ⟨hi, name', hname', hlookup⟩

theorem unasked_insert {type : ι} {state : InputState}
    (hinputs : r'.inputs = r.inputs.insert type state) : unasked r' ⊆ unasked r := by
  intro i hi
  simp only [unasked, Finset.mem_filter, hinputs, Table.lookup_insert] at hi ⊢
  obtain ⟨hi, hlookup⟩ := hi
  split at hlookup
  · cases hlookup
  · exact ⟨hi, hlookup⟩

omit [DecidableEq ι] [Fintype ι] in
theorem conflict_rest (r : SchemaRegistry ι) (name : String) :
    r.conflict name = { r with conflicts := (r.conflict name).conflicts } := by
  unfold conflict
  split <;> rfl

/-- The level of a registry does not depend on its definitions, conflicts and completed types. -/
theorem level_congr (hinline : r'.inline = r.inline) (hstack : r'.stack = r.stack)
    (howners : r'.owners = r.owners) (hinputs : r'.inputs = r.inputs)
    (hdiffers : r'.inputDiffers = r.inputDiffers) (hassumed : r'.assumedSame = r.assumedSame) :
    level inputs r' = level inputs r := by
  unfold level freeStack undecided unowned unasked
  rw [hinline, hstack, howners, hinputs, hdiffers, hassumed]

theorem level_conflict (r : SchemaRegistry ι) (name : String) :
    level inputs (r.conflict name) = level inputs r := by
  rw [conflict_rest]
  exact level_congr rfl rfl rfl rfl rfl rfl

/-! ## The guards -/

/-- `define` returns when the body does with less to guard. -/
theorem returns_define {m : ℕ} {type : ι} {name : String} {build : Gen ι Json}
    (hname : (inputs type).component? = some name)
    (hbuild : Returns (fun r => level inputs r < m) (Within inputs) build) :
    Returns (fun r => level inputs r < m + 1) (Within inputs) (define type name build) := by
  intro r hr
  cases hinline : r.inline with
  | true =>
    by_cases hstack : type ∈ r.stack
    · exact ⟨plainObject, r, define_of_cut hinline hstack, rfl, fun _ => rfl, le_rfl⟩
    · have hpush : level inputs { r with stack := r.stack ++ [type] } < level inputs r :=
        level_push hinline hstack
      obtain ⟨schema, r', hrun, hwithin⟩ := hbuild { r with stack := r.stack ++ [type] }
        (show level inputs _ < m by omega)
      obtain rfl := hwithin.eq hinline
      refine ⟨schema, r, ?_, rfl, fun _ => rfl, le_rfl⟩
      rw [define_of_inline hinline hstack, hrun]
      simp
  | false =>
    cases howner : r.owners.lookup name with
    | some existing =>
      refine ⟨reference name, if existing = type then r else r.conflict name, ?_, ?_⟩
      · simp [define, hinline, howner]
      · split
        · exact ⟨rfl, fun _ => rfl, le_rfl⟩
        · refine ⟨?_, fun h => ?_, (level_conflict r name).le⟩
          · rw [conflict_rest]
          · rw [hinline] at h
            cases h
    | none =>
      -- the component of the type gets an owner
      have hlt : level inputs { r with
          owners := r.owners.insert name type
          definitions := r.definitions.insert name .null } < level inputs r := by
        refine level_lt hinline hinline (Finset.Subset.refl _) (unowned_insert rfl)
          (Finset.Subset.refl _) (.inl fun heq => ?_)
        have hmem : type ∈ unowned inputs r := by simp [unowned, hname, howner]
        rw [← heq] at hmem
        simp [unowned, hname, Table.lookup_insert] at hmem
      obtain ⟨schema, r', hrun, hwithin⟩ := hbuild _ (hlt.trans_le (Nat.le_of_lt_succ hr))
      refine ⟨_, _, define_of_new hinline howner hrun, hwithin.inline, fun h => ?_, ?_⟩
      · rw [hinline] at h
        cases h
      · have hsame : level inputs { r' with definitions := r'.definitions.insert name schema } =
            level inputs r' := level_congr rfl rfl rfl rfl rfl rfl
        rw [hsame]
        exact hwithin.level_le.trans hlt.le

/-- The steps at the end of `define_input` leave no more to guard. -/
theorem level_registerInput_le (hinline : r.inline = false) (owner : ι) (name : String)
    (built : Json) : (r.registerInput owner name built).inline = false ∧
      level inputs (r.registerInput owner name built) ≤ level inputs r := by
  have hregister : ∀ r' : SchemaRegistry ι,
      r' = { r with
        owners := r.owners.insert (inputName name) owner
        definitions := r.definitions.insert (inputName name) built } →
      r'.inline = false ∧ level inputs r' ≤ level inputs r := by
    rintro r' rfl
    exact ⟨hinline, level_le hinline hinline (Finset.Subset.refl _) (unowned_insert rfl)
      (Finset.Subset.refl _)⟩
  unfold registerInput
  split
  · split
    · exact hregister _ rfl
    · refine ⟨?_, (level_conflict r _).le⟩
      rw [conflict_rest]
      exact hinline
  · exact hregister _ rfl

theorem level_finish_le (hinline : r.inline = false) (owner : ι) (result : Json)
    (defined : Option String) : level inputs (r.finish owner result defined) ≤ level inputs r :=
  level_le hinline hinline (Finset.Subset.refl _) (Finset.Subset.refl _) (unasked_insert rfl)

/-- When a type that was assumed not to differ does, one type is decided. -/
theorem level_discard_lt (hinline : r.inline = false) {type : ι} (hassumed : type ∈ r.assumedSame)
    (startedAt : ℕ) :
    (discard { r with
      inputDiffers := insert type r.inputDiffers
      assumedSame := r.assumedSame.erase type } startedAt).inline = false ∧
    level inputs (discard { r with
      inputDiffers := insert type r.inputDiffers
      assumedSame := r.assumedSame.erase type } startedAt) < level inputs r := by
  rw [discard_rest]
  refine ⟨hinline, level_lt_of_decided hinline hinline ?_⟩
  refine Finset.ssubset_iff_subset_ne.mpr ⟨?_, fun heq => ?_⟩
  · intro i hi
    simp only [undecided, Finset.mem_filter, Finset.mem_insert, Finset.mem_erase, not_or] at hi ⊢
    exact ⟨hi.1, hi.2.imp And.right And.right⟩
  · have hmem : type ∈ undecided r := by simp [undecided, hassumed]
    rw [← heq] at hmem
    simp [undecided] at hmem

/-- `define_input` returns when both bodies do with less to guard. -/
theorem returns_defineInput {m : ℕ} {type : ι} {name : String} {output input : Gen ι Json}
    (hname : (inputs type).component? = some name)
    (houtput : Returns (fun r => level inputs r < m) (Within inputs) output)
    (hinput : Returns (fun r => level inputs r < m) (Within inputs) input) :
    Returns (fun r => level inputs r < m + 1) (Within inputs)
      (defineInput type name output input) := by
  intro r hr
  cases hinline : r.inline with
  | true =>
    obtain ⟨schema, r', hrun, hwithin⟩ := returns_define hname hinput r hr
    refine ⟨schema, r', ?_, hwithin⟩
    rw [defineInput, if_pos hinline, hrun]
  | false =>
    -- in a document registry, only the level counts
    have hwithin : ∀ r' : SchemaRegistry ι, r'.inline = false → level inputs r' ≤ level inputs r →
        Within inputs r r' := by
      intro r' hinline' hlevel
      refine ⟨hinline'.trans hinline.symm, fun h => ?_, hlevel⟩
      rw [hinline] at h
      cases h
    cases hlookup : r.inputs.lookup type with
    | some state =>
      cases state with
      | done schema => exact ⟨_, _, defineInput_of_done hinline hlookup, hwithin r hinline le_rfl⟩
      | building =>
        have hrun : defineInput type name output input r = _ :=
          defineInput_of_building hinline hlookup
        by_cases hdiffers : type ∈ r.inputDiffers
        · rw [if_pos hdiffers] at hrun
          exact ⟨_, _, hrun, hwithin r hinline le_rfl⟩
        · rw [if_neg hdiffers] at hrun
          refine ⟨_, _, hrun, hwithin _ hinline ?_⟩
          refine level_le hinline hinline ?_ (Finset.Subset.refl _) (Finset.Subset.refl _)
          intro i hi
          simp only [undecided, Finset.mem_filter, Finset.mem_insert] at hi ⊢
          refine ⟨hi.1, ?_⟩
          rcases hi.2 with hi | rfl | hi
          · exact .inl hi
          · exact .inl hdiffers
          · exact .inr hi
    | none =>
      -- the type gets a request form
      have hlt : level inputs { r with inputs := r.inputs.insert type .building } <
          level inputs r := by
        refine level_lt hinline hinline (Finset.Subset.refl _) (Finset.Subset.refl _)
          (unasked_insert rfl) (.inr fun heq => ?_)
        have hmem : type ∈ unasked r := by simp [unasked, hlookup]
        rw [← heq] at hmem
        simp [unasked, Table.lookup_insert] at hmem
      have hm : level inputs { r with inputs := r.inputs.insert type .building } < m :=
        hlt.trans_le (Nat.le_of_lt_succ hr)
      obtain ⟨outputRef, r₁, hrun₁, hwithin₁⟩ := returns_define hname houtput _ (hm.trans m.lt_succ_self)
      have hm₁ : level inputs r₁ < m := hwithin₁.level_le.trans_lt hm
      obtain ⟨built, r₂, hrun₂, hwithin₂⟩ := hinput r₁ hm₁
      have hinline₂ : r₂.inline = false := (hwithin₂.inline.trans hwithin₁.inline).trans hinline
      have hle₂ : level inputs r₂ ≤ level inputs r :=
        (hwithin₂.level_le.trans hwithin₁.level_le).trans hlt.le
      rw [defineInput_of_new hinline hlookup hrun₁ hrun₂]
      -- what is left after the last body
      have hrest : ∀ (built : Json) (r₃ : SchemaRegistry ι), r₃.inline = false →
          level inputs r₃ ≤ level inputs r →
          Within inputs r ((r₃.registerInput type name built).finish type
            (reference (inputName name)) (some (inputName name))) := by
        intro built r₃ hinline₃ hle₃
        obtain ⟨hinline₄, hle₄⟩ : _ ∧ level inputs _ ≤ level inputs r₃ :=
          level_registerInput_le hinline₃ type name built
        exact hwithin _ hinline₄ ((level_finish_le hinline₄ _ _ _).trans (hle₄.trans hle₃))
      split
      · exact ⟨_, _, rfl, hwithin _ hinline₂ ((level_finish_le hinline₂ _ _ _).trans hle₂)⟩
      · split
        · rename_i hassumed
          obtain ⟨hinline₃, hlt₃⟩ : _ ∧ level inputs _ < level inputs r₂ :=
            level_discard_lt hinline₂ hassumed r.completed.length
          have hle₃ := hlt₃.le.trans hle₂
          obtain ⟨built', r₄, hrun₄, hwithin₄⟩ := hinput _ (hlt₃.trans
            ((hwithin₂.level_le).trans_lt hm₁))
          rw [hrun₄]
          exact ⟨_, _, rfl, hrest built' r₄ (hwithin₄.inline.trans hinline₃)
            (hwithin₄.level_le.trans hle₃)⟩
        · refine ⟨_, _, rfl, hrest built _ hinline₂ (le_trans ?_ hle₂)⟩
          refine level_le hinline₂ hinline₂ ?_ (Finset.Subset.refl _) (Finset.Subset.refl _)
          intro i hi
          simp only [undecided, Finset.mem_filter, Finset.mem_insert, not_or] at hi ⊢
          exact ⟨hi.1, hi.2.imp_left And.right⟩

/-! ## Guarded graphs -/

/-- The body of a type returns when the types that it mentions do, and the types that it flattens do
    on a fresh inline registry. -/
theorem returns_plan {m fuel : ℕ} {type : ι} (request : Bool)
    (hmention : ∀ t, Ask.mention t ∈ (inputs type).asks → ∀ request,
      Returns (fun r => level inputs r < m) (Within inputs) (derived inputs fuel request t))
    (hflattened : ∀ t, Flattens inputs type t → ∀ request,
      ((derived inputs fuel request t .inlined).map Prod.fst).isSome) :
    Returns (fun r => level inputs r < m) (Within inputs)
      (((inputs type).plan request).run (Ask.run (derived inputs fuel) request)) := by
  apply Returns.run (steady inputs m)
  intro q hq
  rw [DeriveInput.asks_plan] at hq
  cases q with
  | mention t => exact hmention t hq request
  | flattened t => exact Returns.lift (steady inputs m) (hflattened t hq request)

/-- Types that are reached return: by induction on the flattened fields below, then on what is left
    to guard, then along transparent types. -/
theorem eventually_returns (h : Guarded inputs) (a : ι) (m : ℕ) :
    ∀ᶠ fuel in Filter.atTop, ∀ b, ReflTransGen (RefersTo inputs) a b → ∀ request,
      Returns (fun r => level inputs r < m) (Within inputs) (derived inputs fuel request b) := by
  induction a using (wellFounded_of_acyclic (below_acyclic h)).induction generalizing m with
  | _ a ih =>
    -- what is flattened below `a` has been planned with enough fuel, by induction on `a`
    have hflattened : ∀ᶠ fuel in Filter.atTop, ∀ t, Below inputs a t → ∀ request,
        ((derived inputs fuel request t .inlined).map Prod.fst).isSome := by
      rw [Filter.eventually_all]
      intro t
      by_cases hbelow : Below inputs a t
      · filter_upwards [ih t hbelow (level inputs .inlined + 1)] with fuel hfuel _ request
        obtain ⟨schema, r, hrun, -⟩ := hfuel t .refl request .inlined (Nat.lt_succ_self _)
        rw [hrun]
        rfl
      · exact .of_forall fun _ hb => absurd hb hbelow
    -- then the level: a component one level up runs its plan at the level below
    induction m with
    | zero => exact .of_forall fun _ _ _ _ _ hr => absurd hr (Nat.not_lt_zero _)
    | succ m ihm =>
      rw [Filter.eventually_all]
      intro b
      -- and last the types in between, which forward to others at the same level
      induction b using (wellFounded_of_acyclic h.transparent).induction with
      | _ b ihb =>
        cases hcomponent : (inputs b).component? with
        | some name =>
          apply eventually_succ (ihm.and hflattened)
          rintro fuel ⟨hmention, hflattened⟩ hab request
          have hplan : ∀ request, Returns (fun r => level inputs r < m) (Within inputs)
              (((inputs b).plan request).run (Ask.run (derived inputs fuel) request)) := by
            intro request
            refine returns_plan request (fun t ht => hmention t (hab.tail (.inl ht))) ?_
            exact fun t ht => hflattened t ⟨b, t, hab, ht, .refl⟩
          rw [derived_of_some inputs fuel request hcomponent]
          split
          · exact returns_defineInput hcomponent (hplan false) (hplan true)
          · exact returns_define hcomponent (hplan false)
        | none =>
          have hforward : ∀ᶠ fuel in Filter.atTop, ∀ t, Forwards inputs b t →
              ReflTransGen (RefersTo inputs) a t → ∀ request,
                Returns (fun r => level inputs r < m + 1) (Within inputs)
                  (derived inputs fuel request t) := by
            rw [Filter.eventually_all]
            intro t
            by_cases ht : Forwards inputs b t
            · exact (ihb t ht).mono fun _ hfuel _ => hfuel
            · exact .of_forall fun _ hb => absurd hb ht
          apply eventually_succ (hforward.and hflattened)
          rintro fuel ⟨hforward, hflattened⟩ hab request
          rw [derived_of_none inputs fuel request hcomponent]
          refine returns_plan request ?_ fun t ht => hflattened t ⟨b, t, hab, ht, .refl⟩
          exact fun t ht => hforward t ⟨hcomponent, ht⟩ (hab.tail (.inl ht))

/-- No registry has more to guard than this. -/
theorem level_lt_bound (r : SchemaRegistry ι) :
    level inputs r < (Fintype.card ι + 1) * (2 * Fintype.card ι + 1) := by
  have hstack : (freeStack r).card ≤ Fintype.card ι := Finset.card_le_univ _
  have hundecided : (undecided r).card ≤ Fintype.card ι := Finset.card_le_univ _
  have hunowned : (unowned inputs r).card ≤ Fintype.card ι := Finset.card_le_univ _
  have hunasked : (unasked r).card ≤ Fintype.card ι := Finset.card_le_univ _
  unfold level
  split
  · nlinarith
  · nlinarith

/-- **In a guarded graph, every call returns**, whatever the registry holds and whichever calls it
    is in the middle of. -/
theorem returns_of_guarded (h : Guarded inputs) :
    ∃ bound, ∀ fuel ≥ bound, ∀ (request : Bool) (type : ι) (r : SchemaRegistry ι),
      (derived inputs fuel request type r).isSome := by
  rw [← Filter.eventually_atTop]
  have hall : ∀ᶠ fuel in Filter.atTop, ∀ type : ι, ∀ request,
      Returns (fun r => level inputs r < (Fintype.card ι + 1) * (2 * Fintype.card ι + 1))
        (Within inputs) (derived inputs fuel request type) := by
    rw [Filter.eventually_all]
    intro type
    exact (eventually_returns h type _).mono fun _ hfuel => hfuel type .refl
  filter_upwards [hall] with fuel hfuel request type r
  obtain ⟨schema, r', hrun, -⟩ := hfuel type request r (level_lt_bound r)
  rw [hrun]
  rfl

end Level

/-! ## Inline registries -/

section Inline

variable {inputs} {r : SchemaRegistry ι} {fuel : ℕ} {request : Bool} {type : ι}

/-- In an inline registry, the request form is the schema of the request body. -/
theorem derived_inline {name : String} (hname : (inputs type).component? = some name)
    (hinline : r.inline = true) : derived inputs (fuel + 1) request type r =
      define type name (((inputs type).plan request).run (Ask.run (derived inputs fuel) request)) r := by
  rw [derived_of_some inputs fuel request hname]
  cases request with
  | false => rfl
  | true => rw [if_pos rfl, defineInput, if_pos hinline]

theorem keeps_define {name : String} {build : Gen ι Json}
    (hbuild : Keeps (fun r => r.inline = true) build) :
    Keeps (fun r => r.inline = true) (define type name build) := by
  intro r schema r' hinline hrun
  by_cases hstack : type ∈ r.stack
  · rw [define_of_cut hinline hstack] at hrun
    cases hrun
    rfl
  · rw [define_of_inline hinline hstack] at hrun
    obtain ⟨⟨schema', r''⟩, hrun', heq⟩ := Option.map_eq_some_iff.mp hrun
    obtain rfl := hbuild { r with stack := r.stack ++ [type] } schema' r'' hinline hrun'
    cases heq
    simp

/-- A call leaves an inline registry as it is. -/
theorem keeps_derived (fuel : ℕ) (request : Bool) (type : ι) :
    Keeps (fun r => r.inline = true) (derived inputs fuel request type) := by
  induction fuel generalizing request type with
  | zero =>
    intro r schema r' _ hrun
    cases hrun
  | succ fuel ih =>
    have hplan : Keeps (fun r => r.inline = true)
        (((inputs type).plan request).run (Ask.run (derived inputs fuel) request)) := by
      apply Keeps.run
      intro q _
      cases q with
      | mention t => exact ih request t
      | flattened t => exact Keeps.lift _
    cases hcomponent : (inputs type).component? with
    | some name =>
      intro r schema r' hinline hrun
      rw [derived_inline hcomponent hinline] at hrun
      exact keeps_define hplan r schema r' hinline hrun
    | none =>
      rw [derived_of_none inputs fuel request hcomponent]
      exact hplan

/-- A call that returned has asked what its body asks, in an inline registry whose stack has grown
    by the type at most. -/
theorem isSome_ask (hinline : r.inline = true) (hstack : type ∉ r.stack)
    (h : (derived inputs (fuel + 1) request type r).isSome) {q : Ask ι}
    (hq : q ∈ (inputs type).asks) :
    ∃ r', r'.inline = true ∧ {i | i ∈ r'.stack} ⊆ insert type {i | i ∈ r.stack} ∧
      (q.run (derived inputs fuel) request r').isSome := by
  have hkeeps : ∀ q ∈ ((inputs type).plan request).asks,
      Keeps (fun r => r.inline = true) (Ask.run (derived inputs fuel) request q) := by
    intro q _
    cases q with
    | mention t => exact keeps_derived fuel request t
    | flattened t => exact Keeps.lift _
  rw [← DeriveInput.asks_plan request] at hq
  cases hcomponent : (inputs type).component? with
  | some name =>
    rw [derived_inline hcomponent hinline, define_of_inline hinline hstack, Option.isSome_map] at h
    refine ⟨{ r with stack := r.stack ++ [type] }, hinline, ?_,
      Keeps.exists_of_run hkeeps (by exact hinline) h hq⟩
    intro i hi
    rcases List.mem_append.mp hi with hi | hi
    · exact .inr hi
    · exact .inl (List.mem_singleton.mp hi)
  | none =>
    rw [derived_of_none inputs fuel request hcomponent] at h
    exact ⟨r, hinline, Set.subset_insert _ _, Keeps.exists_of_run hkeeps hinline h hq⟩

theorem isSome_flattened {t : ι}
    (h : (Ask.run (derived inputs fuel) request (.flattened t) r).isSome) :
    (derived inputs fuel request t .inlined).isSome := by
  obtain ⟨⟨schema, r'⟩, hrun⟩ := Option.isSome_iff_exists.mp h
  obtain ⟨_, hmap, -⟩ := Option.bind_eq_some_iff.mp hrun
  obtain ⟨p, hp, -⟩ := Option.map_eq_some_iff.mp hmap
  rw [hp]
  rfl

/-- A call that returned has called every type to which a walk leads that keeps off the stack. -/
theorem isSome_visit {a : ι} (hinline : r.inline = true) (hstack : type ∉ r.stack)
    (hwalk : Avoids (RefersTo inputs) {i | i ∈ r.stack} type a)
    (h : (derived inputs fuel request type r).isSome) :
    ∃ fuel' ≤ fuel, ∃ r', r'.inline = true ∧ a ∉ r'.stack ∧
      (derived inputs fuel' request a r').isSome := by
  induction fuel generalizing type r with
  | zero => cases h
  | succ fuel ih =>
    by_cases ha : a = type
    · exact ⟨fuel + 1, le_rfl, r, hinline, ha ▸ hstack, ha ▸ h⟩
    · -- the walk goes on after it has left `type` for the last time
      obtain ⟨c, hrefers, hc, hwalk'⟩ := hwalk.exists_last_exit ha
      have hnext : ∃ r', r'.inline = true ∧ c ∉ r'.stack ∧
          Avoids (RefersTo inputs) {i | i ∈ r'.stack} c a ∧
          (derived inputs fuel request c r').isSome := by
        rcases hrefers with hmention | hflattens
        · obtain ⟨r', hinline', hsub, hrun⟩ := isSome_ask hinline hstack h hmention
          exact ⟨r', hinline', fun hmem => hc (hsub hmem), hwalk'.anti hsub, hrun⟩
        · obtain ⟨r', -, -, hrun⟩ := isSome_ask hinline hstack h hflattens
          exact ⟨.inlined, rfl, List.not_mem_nil, hwalk'.anti (fun _ hi => absurd hi List.not_mem_nil),
            isSome_flattened hrun⟩
      obtain ⟨r', hinline', hc', hwalk'', hrun⟩ := hnext
      obtain ⟨fuel', hle, rest⟩ := ih hinline' hc' hwalk'' hrun
      exact ⟨fuel', Nat.le_succ_of_le hle, rest⟩

/-- A type on a cycle through a flattened field never returns, however many calls are nested. -/
theorem not_isSome_of_flattens {a b : ι} (hflattens : Flattens inputs a b)
    (hreach : ReflTransGen (RefersTo inputs) b a) (fuel : ℕ) (request : Bool) :
    ¬ (derived inputs fuel request b .inlined).isSome := by
  induction fuel using Nat.strong_induction_on with
  | _ fuel ih =>
    intro h
    obtain ⟨fuel', hle, r, hinline, hstack, hrun⟩ :=
      isSome_visit rfl List.not_mem_nil ((avoids_empty hreach).anti
        (fun _ hi => absurd hi List.not_mem_nil)) h
    cases fuel' with
    | zero => cases hrun
    | succ fuel' =>
      obtain ⟨r', -, -, hrun'⟩ := isSome_ask hinline hstack hrun hflattens
      exact ih fuel' hle (isSome_flattened hrun')

omit [DecidableEq ι] in
/-- A transparent type asks a single question. -/
theorem plan_of_forwards {a b : ι} (h : Forwards inputs a b) (request : Bool) :
    ∃ f, (inputs a).plan request = (Plan.ask (.mention b)).map f := by
  obtain ⟨hcomponent, hmention⟩ := h
  cases hinput : inputs a with
  | struct _ _ | enum _ _ =>
    rw [hinput] at hcomponent
    cases hcomponent
  | transparent type =>
    rw [hinput, DeriveInput.asks, RustType.asks, Option.mem_toList, Option.map_eq_some_iff]
      at hmention
    obtain ⟨b', hnamed, heq⟩ := hmention
    obtain rfl := Ask.mention.inj heq
    refine ⟨fun schema => type.schemaFor fun _ => schema, ?_⟩
    rw [DeriveInput.plan, RustType.plan, hnamed]

/-- A type on a cycle of transparent types never returns. -/
theorem not_isSome_of_forwards {a : ι} (hcycle : TransGen (Forwards inputs) a a) (fuel : ℕ)
    (request : Bool) : ¬ (derived inputs fuel request a r).isSome := by
  have hstep : ∀ {fuel : ℕ} {b c : ι}, Forwards inputs b c →
      (derived inputs fuel request b r).isSome →
      ∃ fuel' < fuel, (derived inputs fuel' request c r).isSome := by
    intro fuel b c hforwards h
    cases fuel with
    | zero => cases h
    | succ fuel =>
      refine ⟨fuel, Nat.lt_succ_self fuel, ?_⟩
      obtain ⟨f, hplan⟩ := plan_of_forwards hforwards request
      rw [derived_of_none inputs fuel request hforwards.1, hplan, Plan.run_map, Plan.run_ask] at h
      obtain ⟨⟨schema, r'⟩, hrun⟩ := Option.isSome_iff_exists.mp h
      obtain ⟨_, _, hask, -⟩ := eq_some_of_bind hrun
      exact Option.isSome_iff_exists.mpr ⟨_, hask⟩
  have hwalk : ∀ {fuel : ℕ} {b c : ι}, TransGen (Forwards inputs) b c →
      (derived inputs fuel request b r).isSome →
      ∃ fuel' < fuel, (derived inputs fuel' request c r).isSome := by
    intro fuel b c hbc h
    induction hbc with
    | single hforwards => exact hstep hforwards h
    | tail _ hforwards ih =>
      obtain ⟨fuel', hlt, hrun⟩ := ih
      obtain ⟨fuel'', hlt', hrun'⟩ := hstep hforwards hrun
      exact ⟨fuel'', hlt'.trans hlt, hrun'⟩
  induction fuel using Nat.strong_induction_on with
  | _ fuel ih =>
    intro h
    obtain ⟨fuel', hlt, hrun⟩ := hwalk hcycle h
    exact ih fuel' hlt hrun

end Inline

/-! ## Exactly the guarded graphs -/

/-- Every call on a registry returns, if enough calls may be nested. -/
def ReturnsFrom (r : SchemaRegistry ι) : Prop :=
  ∀ (request : Bool) (type : ι), ∃ bound, ∀ fuel ≥ bound,
    (derived inputs fuel request type r).isSome

/-- Schema generation returns: `schema` does on every type, and `schema_with` and
    `request_schema_with` do with a document registry and with an inline registry. -/
structure Terminates : Prop where
  schema : ∀ type, ∃ bound, ∀ fuel ≥ bound,
    ((RustType.named type).schema (derived inputs fuel)).isSome
  document : ReturnsFrom inputs document
  inline : ReturnsFrom inputs .inlined

/-- **Schema generation returns exactly on the guarded graphs**, and there it returns whatever a
    registry holds: it needs no more nested calls than a bound for the graph. -/
theorem terminates_iff [Fintype ι] :
    (Terminates inputs ↔ Guarded inputs) ∧
      (Guarded inputs → ∃ bound, ∀ fuel ≥ bound, ∀ (request : Bool) (type : ι)
        (r : SchemaRegistry ι), (derived inputs fuel request type r).isSome) := by
  refine ⟨⟨fun h => ⟨?_, ?_⟩, fun h => ?_⟩, returns_of_guarded⟩
  · intro a b hflattens hreach
    obtain ⟨bound, hbound⟩ := h.inline false b
    exact not_isSome_of_flattens hflattens hreach bound false (hbound bound le_rfl)
  · intro a hcycle
    obtain ⟨bound, hbound⟩ := h.inline false a
    exact not_isSome_of_forwards hcycle bound false (hbound bound le_rfl)
  · obtain ⟨bound, hbound⟩ := returns_of_guarded h
    refine ⟨fun type => ⟨bound, fun fuel hfuel => ?_⟩, ?_, ?_⟩
    · rw [RustType.schema, Option.isSome_map]
      exact hbound fuel hfuel false type .inlined
    · exact fun request type => ⟨bound, fun fuel hfuel => hbound fuel hfuel request type _⟩
    · exact fun request type => ⟨bound, fun fuel hfuel => hbound fuel hfuel request type _⟩

/-! ## A comment and its replies -/

/-- `struct Comment { text: String, #[serde(flatten)] meta: Meta }`,
    `struct Meta { replies: Vec<Comment> }` -/
def thread : Fin 2 → DeriveInput (Fin 2)
  | 0 => .struct "Comment"
    { fields :=
        [{ wire := "text", type := .scalar .string },
          { wire := "meta", type := .named 1, flatten := true }] }
  | 1 => .struct "Meta" { fields := [{ wire := "replies", type := .vec (.named 0) }] }

/-- `Meta::schema()` does not return, however deep its calls may be nested. -/
theorem not_terminates_thread :
    ¬ Terminates thread ∧ ∀ fuel, (RustType.named 1).schema (derived thread fuel) = none := by
  have hflattens : Flattens thread 0 1 := by
    show Ask.flattened 1 ∈ (thread 0).asks
    decide
  have hreach : ReflTransGen (RefersTo thread) 1 0 := .single (.inl (by decide))
  have hnone : ∀ fuel, (RustType.named 1).schema (derived thread fuel) = none := by
    intro fuel
    have hnot := not_isSome_of_flattens hflattens hreach fuel false
    rw [RustType.schema, Option.map_eq_none_iff]
    exact Option.not_isSome_iff_eq_none.mp hnot
  refine ⟨fun h => ?_, hnone⟩
  obtain ⟨bound, hbound⟩ := h.schema 1
  have hsome := hbound bound le_rfl
  rw [hnone bound] at hsome
  cases hsome

/-- `#[serde(transparent)] struct Nested { items: Vec<Nested> }` does not return either. -/
example : ¬ Terminates fun _ : Unit => .transparent (.vec (.named ())) := by
  intro h
  obtain ⟨bound, hbound⟩ := h.document false ()
  exact not_isSome_of_forwards (.single ⟨rfl, by decide⟩) bound false (hbound bound le_rfl)

end OasRs.Schema
