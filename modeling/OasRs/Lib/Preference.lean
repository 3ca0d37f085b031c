import Mathlib.Data.Set.Basic
import Mathlib.Data.List.Forall2

/-!
# Preference Among Patterns

Patterns over sequences, made of literals and wildcards, and the choice between
several patterns that accept the same sequence: at the first position where two of
them differ, the literal wins.

## Main results

- `IsPreferred.unique`: there is at most one preferred pattern
- `IsPreferred.literal`, `IsPreferred.wild`: the two steps of a search that tries the
  literal branch first and comes back to the wildcard
- `exists_isPreferred`: if a pattern accepts, one is preferred
-/

namespace OasRs.Lib.Preference

/-- One position of a pattern. -/
inductive Piece (α : Type*) where
  | literal (a : α)
  | wild
  deriving DecidableEq, Repr

variable {α : Type*} [DecidableEq α] (ok : α → Bool)

/-- A literal accepts itself, a wildcard whatever is `ok`. -/
def Piece.accepts : Piece α → α → Bool
  | .literal a, b => a == b
  | .wild, b => ok b

/-- A pattern accepts a sequence of its own length, position by position. -/
def Accepts (p : List (Piece α)) (l : List α) : Prop :=
  List.Forall₂ (fun piece a => piece.accepts ok a = true) p l

instance (p : List (Piece α)) (l : List α) : Decidable (Accepts ok p l) :=
  inferInstanceAs (Decidable (List.Forall₂ _ p l))

/-- `p` has a literal where `q` has a wildcard, and they agree before that. -/
def Precedes : List (Piece α) → List (Piece α) → Prop
  | .literal _ :: _, .wild :: _ => True
  | .literal a :: p, .literal b :: q => a = b ∧ Precedes p q
  | .wild :: p, .wild :: q => Precedes p q
  | _, _ => False

instance decidablePrecedes : (p q : List (Piece α)) → Decidable (Precedes p q)
  | .literal _ :: _, .wild :: _ => isTrue trivial
  | .literal a :: p, .literal b :: q =>
    have := decidablePrecedes p q
    inferInstanceAs (Decidable (a = b ∧ Precedes p q))
  | .wild :: p, .wild :: q => decidablePrecedes p q
  | [], _ => isFalse id
  | .literal _ :: _, [] => isFalse id
  | .wild :: _, [] => isFalse id
  | .wild :: _, .literal _ :: _ => isFalse id

/-- `p` is the member of `S` to choose for `l`. -/
structure IsPreferred (S : Set (List (Piece α))) (l : List α) (p : List (Piece α)) : Prop where
  mem : p ∈ S
  accepts : Accepts ok p l
  first : ∀ q ∈ S, Accepts ok q l → q = p ∨ Precedes p q

/-- The members of `S` that start with `piece`, without it. -/
def deriv (S : Set (List (Piece α))) (piece : Piece α) : Set (List (Piece α)) :=
  { p | piece :: p ∈ S }

variable {ok}

/-! ## Accepting -/

@[simp] theorem accepts_nil : Accepts ok ([] : List (Piece α)) [] := .nil

theorem accepts_nil_iff {p : List (Piece α)} : Accepts ok p [] ↔ p = [] :=
  List.forall₂_nil_right_iff

@[simp] theorem accepts_cons {x : Piece α} {p : List (Piece α)} {a : α} {l : List α} :
    Accepts ok (x :: p) (a :: l) ↔ x.accepts ok a = true ∧ Accepts ok p l :=
  List.forall₂_cons

theorem Accepts.length_eq {p : List (Piece α)} {l : List α} (h : Accepts ok p l) :
    p.length = l.length :=
  List.Forall₂.length_eq h

/-- A pattern that accepts `a :: l` starts with the literal `a` or with a wildcard. -/
theorem accepts_cons_right {p : List (Piece α)} {a : α} {l : List α} :
    Accepts ok p (a :: l) ↔
      (∃ q, p = .literal a :: q ∧ Accepts ok q l) ∨
      (∃ q, p = .wild :: q ∧ ok a = true ∧ Accepts ok q l) := by
  cases p with
  | nil => simp [Accepts]
  | cons x q =>
    cases x with
    | literal b =>
      simp only [accepts_cons, Piece.accepts, beq_iff_eq, List.cons.injEq, Piece.literal.injEq,
        reduceCtorEq, false_and, exists_false, or_false]
      constructor
      · rintro ⟨rfl, h⟩
        exact ⟨q, ⟨rfl, rfl⟩, h⟩
      · rintro ⟨_, ⟨rfl, rfl⟩, h⟩
        exact ⟨rfl, h⟩
    | wild => simp [Piece.accepts]

/-! ## Choosing -/

omit [DecidableEq α] in
theorem Precedes.asymm {p q : List (Piece α)} (hpq : Precedes p q) : ¬ Precedes q p := by
  induction p generalizing q with
  | nil => simp [Precedes] at hpq
  | cons x p ih =>
    cases q with
    | nil => cases x <;> simp [Precedes] at hpq
    | cons y q =>
      cases x with
      | literal a =>
        cases y with
        | literal b => exact fun hqp => ih hpq.2 hqp.2
        | wild => simp [Precedes]
      | wild =>
        cases y with
        | literal b => simp [Precedes] at hpq
        | wild => exact fun hqp => ih hpq hqp

/-- Choosing is deterministic. -/
theorem IsPreferred.unique {S : Set (List (Piece α))} {l : List α} {p q : List (Piece α)}
    (hp : IsPreferred ok S l p) (hq : IsPreferred ok S l q) : p = q := by
  rcases hp.first q hq.mem hq.accepts with h | hpq
  · exact h.symm
  · rcases hq.first p hp.mem hp.accepts with h | hqp
    · exact h
    · exact absurd hqp hpq.asymm

theorem isPreferred_nil {S : Set (List (Piece α))} (h : [] ∈ S) : IsPreferred ok S [] [] where
  mem := h
  accepts := accepts_nil
  first _ _ hq := .inl (accepts_nil_iff.mp hq)

/-- Where the literal branch succeeds, it decides. -/
theorem IsPreferred.literal {S : Set (List (Piece α))} {a : α} {l : List α} {p : List (Piece α)}
    (h : IsPreferred ok (deriv S (.literal a)) l p) :
    IsPreferred ok S (a :: l) (.literal a :: p) where
  mem := h.mem
  accepts := accepts_cons.mpr ⟨by simp [Piece.accepts], h.accepts⟩
  first q hq hacc := by
    rcases accepts_cons_right.mp hacc with ⟨q, rfl, hq'⟩ | ⟨q, rfl, -, -⟩
    · rcases h.first q hq hq' with rfl | hlt
      · exact .inl rfl
      · exact .inr ⟨rfl, hlt⟩
    · exact .inr trivial

/-- Where it fails, the wildcard branch decides. -/
theorem IsPreferred.wild {S : Set (List (Piece α))} {a : α} {l : List α} {p : List (Piece α)}
    (hnone : ∀ q ∈ deriv S (.literal a), ¬ Accepts ok q l) (hok : ok a = true)
    (h : IsPreferred ok (deriv S .wild) l p) : IsPreferred ok S (a :: l) (.wild :: p) where
  mem := h.mem
  accepts := accepts_cons.mpr ⟨hok, h.accepts⟩
  first q hq hacc := by
    rcases accepts_cons_right.mp hacc with ⟨q, rfl, hq'⟩ | ⟨q, rfl, -, hq'⟩
    · exact absurd hq' (hnone q hq)
    · rcases h.first q hq hq' with rfl | hlt
      · exact .inl rfl
      · exact .inr hlt

/-- Where both fail, nothing accepts. -/
theorem not_accepts_cons {S : Set (List (Piece α))} {a : α} {l : List α}
    (hliteral : ∀ q ∈ deriv S (.literal a), ¬ Accepts ok q l)
    (hwild : ok a = true → ∀ q ∈ deriv S .wild, ¬ Accepts ok q l) :
    ∀ p ∈ S, ¬ Accepts ok p (a :: l) := by
  intro p hp hacc
  rcases accepts_cons_right.mp hacc with ⟨q, rfl, hq⟩ | ⟨q, rfl, hok, hq⟩
  · exact hliteral q hp hq
  · exact hwild hok q hp hq

/-- If a member accepts, one of them is preferred. -/
theorem exists_isPreferred {S : Set (List (Piece α))} {l : List α}
    (h : ∃ p ∈ S, Accepts ok p l) : ∃ p, IsPreferred ok S l p := by
  induction l generalizing S with
  | nil =>
    obtain ⟨p, hp, hacc⟩ := h
    rw [accepts_nil_iff] at hacc
    exact ⟨[], isPreferred_nil (hacc ▸ hp)⟩
  | cons a l ih =>
    by_cases hliteral : ∃ q ∈ deriv S (.literal a), Accepts ok q l
    · obtain ⟨p, hp⟩ := ih hliteral
      exact ⟨_, hp.literal⟩
    · push Not at hliteral
      obtain ⟨p, hp, hacc⟩ := h
      rcases accepts_cons_right.mp hacc with ⟨q, rfl, hq⟩ | ⟨q, rfl, hok, hq⟩
      · exact absurd hq (hliteral q hp)
      · obtain ⟨p, hp⟩ := ih (S := deriv S .wild) ⟨q, hp, hq⟩
        exact ⟨_, hp.wild hliteral hok⟩

/-- A pattern without wildcards wins wherever it accepts. -/
theorem precedes_of_literals {p q : List (Piece α)} {l : List α} (hwild : .wild ∉ p)
    (hp : Accepts ok p l) (hq : Accepts ok q l) : q = p ∨ Precedes p q := by
  induction l generalizing p q with
  | nil =>
    rw [accepts_nil_iff] at hp hq
    exact .inl (hq.trans hp.symm)
  | cons a l ih =>
    rcases accepts_cons_right.mp hp with ⟨p, rfl, hp'⟩ | ⟨p, rfl, -, -⟩
    · rcases accepts_cons_right.mp hq with ⟨q, rfl, hq'⟩ | ⟨q, rfl, -, -⟩
      · rcases ih (fun h => hwild (List.mem_cons_of_mem _ h)) hp' hq' with rfl | h
        · exact .inl rfl
        · exact .inr ⟨rfl, h⟩
      · exact .inr trivial
    · exact absurd List.mem_cons_self hwild

/-- The choice depends only on the members that accept. -/
theorem IsPreferred.congr {S T : Set (List (Piece α))} {l : List α} {p : List (Piece α)}
    (h : IsPreferred ok S l p) (hST : ∀ q, Accepts ok q l → (q ∈ S ↔ q ∈ T)) :
    IsPreferred ok T l p where
  mem := (hST p h.accepts).mp h.mem
  accepts := h.accepts
  first q hq hacc := h.first q ((hST q hacc).mpr hq) hacc

end OasRs.Lib.Preference
