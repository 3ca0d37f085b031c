import OasRs.Lib.Plan

/-!
# Computations that Return

Total correctness of stateful computations that may fail to return: from the states of an
invariant, the computation returns, and its last state is related to its first.

## Overview

- `Steady`: an invariant and a relation between states that fit together
- `Returns`: the computation returns, with `Returns.bind`, `Returns.mapM` and `Returns.run`
- `Keeps`: the computation leaves the states of the invariant as they are, if it returns
- `Keeps.exists_of_mapM`, `Keeps.forall₂_of_mapM`: what a computation that returned has run
- `Moves`: the last state is related to the first, if the computation returns
- `Ensures`: the computation keeps an invariant, and its result is good, if it returns
- `Extends`: one computation returns what another does
-/

namespace OasRs.Lib

variable {σ Q R α β : Type}

/-- States of the invariant are related to states of the invariant only, by a preorder. -/
structure Steady (P : σ → Prop) (within : σ → σ → Prop) : Prop where
  refl : ∀ s, within s s
  trans : ∀ s₁ s₂ s₃, within s₁ s₂ → within s₂ s₃ → within s₁ s₃
  closed : ∀ s s', P s → within s s' → P s'

/-- From the states of the invariant, the computation returns. -/
def Returns (P : σ → Prop) (within : σ → σ → Prop) (x : StateT σ Option α) : Prop :=
  ∀ s, P s → ∃ a s', x s = some (a, s') ∧ within s s'

namespace Returns

variable {P : σ → Prop} {within : σ → σ → Prop}

theorem pure (h : Steady P within) (a : α) :
    Returns P within (Pure.pure a : StateT σ Option α) :=
  fun s _ => ⟨a, s, rfl, h.refl s⟩

/-- A result that does not touch the state. -/
theorem lift (h : Steady P within) {x : Option α} (hx : x.isSome) :
    Returns P within (StateT.lift x : StateT σ Option α) := by
  intro s _
  obtain ⟨a, rfl⟩ := Option.isSome_iff_exists.mp hx
  exact ⟨a, s, rfl, h.refl s⟩

theorem bind (h : Steady P within) {x : StateT σ Option α} {f : α → StateT σ Option β}
    (hx : Returns P within x) (hf : ∀ a, Returns P within (f a)) : Returns P within (x >>= f) := by
  intro s hs
  obtain ⟨a, s', hrun, hwithin⟩ := hx s hs
  obtain ⟨b, s'', hrun', hwithin'⟩ := hf a s' (h.closed s s' hs hwithin)
  refine ⟨b, s'', ?_, h.trans s s' s'' hwithin hwithin'⟩
  show (x s >>= fun p => f p.1 p.2) = some (b, s'')
  rw [hrun]
  exact hrun'

theorem mapM (h : Steady P within) {f : Q → StateT σ Option R} {qs : List Q}
    (hf : ∀ q ∈ qs, Returns P within (f q)) : Returns P within (qs.mapM f) := by
  induction qs with
  | nil => exact pure h _
  | cons q qs ih =>
    rw [List.mapM_cons]
    apply bind h (hf q List.mem_cons_self)
    intro r
    apply bind h (ih fun q' hq' => hf q' (List.mem_cons_of_mem _ hq'))
    intro rs
    exact pure h _

/-- A plan returns when its questions do. -/
theorem run (h : Steady P within) {query : Q → StateT σ Option R} {p : Plan Q R α}
    (hquery : ∀ q ∈ p.asks, Returns P within (query q)) : Returns P within (p.run query) :=
  bind h (mapM h hquery) fun _ => pure h _

end Returns

/-- The computation leaves the states of the invariant as they are. -/
def Keeps (P : σ → Prop) (x : StateT σ Option α) : Prop :=
  ∀ s a s', P s → x s = some (a, s') → s' = s

/-- A sequence returned: its parts did. -/
theorem eq_some_of_bind {x : StateT σ Option α} {f : α → StateT σ Option β} {s s'' : σ} {b : β}
    (h : (x >>= f) s = some (b, s'')) :
    ∃ a s', x s = some (a, s') ∧ f a s' = some (b, s'') := by
  obtain ⟨⟨a, s'⟩, hx, hf⟩ := Option.bind_eq_some_iff.mp h
  exact ⟨a, s', hx, hf⟩

namespace Keeps

variable {P : σ → Prop}

theorem pure (a : α) : Keeps P (Pure.pure a : StateT σ Option α) := by
  intro s b s' _ h
  cases h
  rfl

theorem lift (x : Option α) : Keeps P (StateT.lift x : StateT σ Option α) := by
  intro s a s' _ h
  obtain ⟨b, _, hb⟩ := Option.bind_eq_some_iff.mp h
  cases hb
  rfl

theorem bind {x : StateT σ Option α} {f : α → StateT σ Option β} (hx : Keeps P x)
    (hf : ∀ a, Keeps P (f a)) : Keeps P (x >>= f) := by
  intro s b s'' hs h
  obtain ⟨a, s', hx', hf'⟩ := eq_some_of_bind h
  obtain rfl := hx s a s' hs hx'
  exact hf a _ b s'' hs hf'

variable {f : Q → StateT σ Option R} {qs : List Q}

theorem mapM (hf : ∀ q ∈ qs, Keeps P (f q)) : Keeps P (qs.mapM f) := by
  induction qs with
  | nil => exact pure _
  | cons q qs ih =>
    rw [List.mapM_cons]
    apply bind (hf q List.mem_cons_self)
    intro r
    apply bind (ih fun q' hq' => hf q' (List.mem_cons_of_mem _ hq'))
    intro rs
    exact pure _

theorem run {query : Q → StateT σ Option R} {p : Plan Q R α}
    (hquery : ∀ q ∈ p.asks, Keeps P (query q)) : Keeps P (p.run query) :=
  bind (mapM hquery) fun _ => pure _

/-- Every part of a sequence that returned has returned, from the same state. -/
theorem exists_of_mapM (hf : ∀ q ∈ qs, Keeps P (f q)) {s s' : σ} {rs : List R} (hs : P s)
    (h : qs.mapM f s = some (rs, s')) {q : Q} (hq : q ∈ qs) : (f q s).isSome := by
  induction qs generalizing rs s' with
  | nil => cases hq
  | cons q' qs ih =>
    rw [List.mapM_cons] at h
    obtain ⟨r, s₁, hfirst, hrest⟩ := eq_some_of_bind h
    obtain rfl := hf q' List.mem_cons_self s r s₁ hs hfirst
    obtain ⟨rs', s₂, hrest, -⟩ := eq_some_of_bind hrest
    rcases List.mem_cons.mp hq with rfl | hq
    · rw [hfirst]
      rfl
    · exact ih (fun q' hq' => hf q' (List.mem_cons_of_mem _ hq')) hrest hq

/-- What the parts of a sequence returned, each from the same state. -/
theorem forall₂_of_mapM (hf : ∀ q ∈ qs, Keeps P (f q)) {s s' : σ} {rs : List R} (hs : P s)
    (h : qs.mapM f s = some (rs, s')) : List.Forall₂ (fun q r => f q s = some (r, s)) qs rs := by
  induction qs generalizing rs s' with
  | nil =>
    cases h
    exact .nil
  | cons q qs ih =>
    rw [List.mapM_cons] at h
    obtain ⟨r, s₁, hfirst, hrest⟩ := eq_some_of_bind h
    obtain rfl := hf q List.mem_cons_self s r s₁ hs hfirst
    obtain ⟨rs', s₂, hrest, hpure⟩ := eq_some_of_bind hrest
    cases hpure
    exact .cons hfirst (ih (fun q' hq' => hf q' (List.mem_cons_of_mem _ hq')) hrest)

theorem exists_of_run {query : Q → StateT σ Option R} {p : Plan Q R α}
    (hquery : ∀ q ∈ p.asks, Keeps P (query q)) {s : σ} (hs : P s) (h : (p.run query s).isSome)
    {q : Q} (hq : q ∈ p.asks) : (query q s).isSome := by
  obtain ⟨⟨a, s'⟩, hrun⟩ := Option.isSome_iff_exists.mp h
  obtain ⟨rs, s₁, hasks, -⟩ := eq_some_of_bind hrun
  exact exists_of_mapM hquery hs hasks hq

end Keeps

/-- Where the computation returns, its last state is related to its first. -/
def Moves (rel : σ → σ → Prop) (x : StateT σ Option α) : Prop :=
  ∀ s a s', x s = some (a, s') → rel s s'

namespace Moves

variable {rel : σ → σ → Prop}

theorem pure (hrefl : ∀ s, rel s s) (a : α) : Moves rel (Pure.pure a : StateT σ Option α) := by
  intro s b s' h
  cases h
  exact hrefl s

theorem lift (hrefl : ∀ s, rel s s) (x : Option α) :
    Moves rel (StateT.lift x : StateT σ Option α) := by
  intro s a s' h
  obtain ⟨b, _, hb⟩ := Option.bind_eq_some_iff.mp h
  cases hb
  exact hrefl s

theorem bind (htrans : ∀ s₁ s₂ s₃, rel s₁ s₂ → rel s₂ s₃ → rel s₁ s₃) {x : StateT σ Option α}
    {f : α → StateT σ Option β} (hx : Moves rel x) (hf : ∀ a, Moves rel (f a)) :
    Moves rel (x >>= f) := by
  intro s b s'' h
  obtain ⟨a, s', hx', hf'⟩ := eq_some_of_bind h
  exact htrans s s' s'' (hx s a s' hx') (hf a s' b s'' hf')

theorem mapM (hrefl : ∀ s, rel s s) (htrans : ∀ s₁ s₂ s₃, rel s₁ s₂ → rel s₂ s₃ → rel s₁ s₃)
    {f : Q → StateT σ Option R} {qs : List Q} (hf : ∀ q ∈ qs, Moves rel (f q)) :
    Moves rel (qs.mapM f) := by
  induction qs with
  | nil => exact pure hrefl _
  | cons q qs ih =>
    rw [List.mapM_cons]
    apply bind htrans (hf q List.mem_cons_self)
    intro r
    apply bind htrans (ih fun q' hq' => hf q' (List.mem_cons_of_mem _ hq'))
    intro rs
    exact pure hrefl _

theorem run (hrefl : ∀ s, rel s s) (htrans : ∀ s₁ s₂ s₃, rel s₁ s₂ → rel s₂ s₃ → rel s₁ s₃)
    {query : Q → StateT σ Option R} {p : Plan Q R α} (hquery : ∀ q ∈ p.asks, Moves rel (query q)) :
    Moves rel (p.run query) :=
  bind htrans (mapM hrefl htrans hquery) fun _ => pure hrefl _

end Moves

/-- From the states of the invariant, the computation returns to them, with a good result. -/
def Ensures (P : σ → Prop) (good : α → Prop) (x : StateT σ Option α) : Prop :=
  ∀ s a s', P s → x s = some (a, s') → P s' ∧ good a

namespace Ensures

variable {P : σ → Prop} {good : R → Prop}

theorem mapM {f : Q → StateT σ Option R} {qs : List Q} (hf : ∀ q ∈ qs, Ensures P good (f q)) :
    Ensures P (fun rs => ∀ r ∈ rs, good r) (qs.mapM f) := by
  induction qs with
  | nil =>
    intro s rs s' hs h
    cases h
    exact ⟨hs, nofun⟩
  | cons q qs ih =>
    intro s rs s'' hs h
    rw [List.mapM_cons] at h
    obtain ⟨r, s₁, hfirst, h⟩ := eq_some_of_bind h
    obtain ⟨rs', s₂, hrest, h⟩ := eq_some_of_bind h
    cases h
    obtain ⟨hs₁, hr⟩ := hf q List.mem_cons_self s r s₁ hs hfirst
    obtain ⟨hs₂, hrs⟩ := ih (fun q' hq' => hf q' (List.mem_cons_of_mem _ hq')) s₁ rs' s'' hs₁ hrest
    exact ⟨hs₂, List.forall_mem_cons.mpr ⟨hr, hrs⟩⟩

/-- A plan has a good result when its questions have good answers. -/
theorem run {query : Q → StateT σ Option R} {p : Plan Q R α} {S : α → Prop}
    (hp : p.Yields good S) (hquery : ∀ q ∈ p.asks, Ensures P good (query q)) :
    Ensures P S (p.run query) := by
  intro s a s' hs h
  obtain ⟨rs, s₁, hasks, h⟩ := eq_some_of_bind h
  cases h
  obtain ⟨hs', hrs⟩ := mapM hquery s rs s' hs hasks
  exact ⟨hs', hp rs hrs⟩

end Ensures

/-- `y` returns what `x` does, wherever `x` returns. -/
def Extends (y x : StateT σ Option α) : Prop := ∀ s p, x s = some p → y s = some p

namespace Extends

theorem refl (x : StateT σ Option α) : Extends x x := fun _ _ h => h

theorem bind {x y : StateT σ Option α} {f g : α → StateT σ Option β} (hxy : Extends y x)
    (hfg : ∀ a, Extends (g a) (f a)) : Extends (y >>= g) (x >>= f) := by
  rintro s ⟨b, s''⟩ h
  obtain ⟨a, s', hx, hf⟩ := eq_some_of_bind h
  show (y s >>= fun p => g p.1 p.2) = some (b, s'')
  rw [hxy s _ hx]
  exact hfg a s' _ hf

theorem mapM {f g : Q → StateT σ Option R} {qs : List Q} (hfg : ∀ q ∈ qs, Extends (g q) (f q)) :
    Extends (qs.mapM g) (qs.mapM f) := by
  induction qs with
  | nil => exact refl _
  | cons q qs ih =>
    rw [List.mapM_cons, List.mapM_cons]
    apply bind (hfg q List.mem_cons_self)
    intro r
    apply bind (ih fun q' hq' => hfg q' (List.mem_cons_of_mem _ hq'))
    intro rs
    exact refl _

theorem run {query query' : Q → StateT σ Option R} {p : Plan Q R α}
    (hquery : ∀ q ∈ p.asks, Extends (query' q) (query q)) :
    Extends (p.run query') (p.run query) :=
  bind (mapM hquery) fun _ => refl _

end Extends

end OasRs.Lib
