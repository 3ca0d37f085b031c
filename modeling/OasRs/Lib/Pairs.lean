import Mathlib.Data.List.Basic
import Mathlib.Tactic.Common

/-!
# Pairs in a Text

A list that is cut into pieces at one separator, and each piece at the first of another: the
shape of a query string. An encoding that maps the separators, and nothing else, to separators
can be applied before the cuts or after them.

## Main results

- `splitOn_flatMap`, `cut_flatMap`: cutting an encoded list
- `pairsOf_flatMap`: the pairs of an encoded list are the encoded pairs
-/

namespace OasRs.Lib.Pairs

variable {α β : Type*} [DecidableEq α] [DecidableEq β]

/-! ## Cuts -/

/-- What is before the first separator, and what is after it. -/
def cut (s : α) : List α → Option (List α × List α)
  | [] => none
  | x :: l => if x = s then some ([], l) else (cut s l).map fun parts => (x :: parts.1, parts.2)

/-- The pieces between the separators `s` that are not empty, each cut at its first `t`. -/
def pairsOf (s t : α) (l : List α) : List (List α × List α) :=
  ((l.splitOn s).filter fun piece => !piece.isEmpty).map fun piece => (cut t piece).getD (piece, [])

theorem cut_append {s : α} {xs : List α} (h : s ∉ xs) (ys : List α) :
    cut s (xs ++ ys) = (cut s ys).map fun parts => (xs ++ parts.1, parts.2) := by
  induction xs with
  | nil => simp
  | cons x xs ih =>
    rw [List.mem_cons, not_or] at h
    rw [List.cons_append, cut, if_neg (Ne.symm h.1), ih h.2, Option.map_map]
    rfl

/-- Cutting at the first separator. -/
theorem cut_append_cons {s : α} {xs : List α} (h : s ∉ xs) (ys : List α) :
    cut s (xs ++ s :: ys) = some (xs, ys) := by
  rw [cut_append h, cut, if_pos rfl]
  simp

theorem cut_of_notMem {s : α} {xs : List α} (h : s ∉ xs) : cut s xs = none := by
  simpa [cut] using cut_append h []

/-- Cutting finds the first separator. -/
theorem cut_eq_some_iff {s : α} {xs as bs : List α} :
    cut s xs = some (as, bs) ↔ xs = as ++ s :: bs ∧ s ∉ as := by
  constructor
  · intro h
    by_cases hs : s ∈ xs
    · obtain ⟨as', bs', rfl, has'⟩ := List.eq_append_cons_of_mem hs
      rw [cut_append_cons has'] at h
      cases h
      exact ⟨rfl, has'⟩
    · rw [cut_of_notMem hs] at h
      cases h
  · rintro ⟨rfl, has⟩
    exact cut_append_cons has bs

theorem splitOn_append {s : α} {xs : List α} (h : s ∉ xs) (ys : List α) :
    (xs ++ ys).splitOn s = (ys.splitOn s).modifyHead (xs ++ ·) := by
  induction xs with
  | nil =>
    rw [List.nil_append]
    cases h : ys.splitOn s with
    | nil => rfl
    | cons piece pieces => rfl
  | cons x xs ih =>
    rw [List.mem_cons, not_or] at h
    rw [List.cons_append, List.splitOn_cons_eq_if_modifyHead, if_neg (by simpa using Ne.symm h.1), ih h.2]
    cases ys.splitOn s with
    | nil => rfl
    | cons piece pieces => rfl

/-! ## Encodings -/

/-- An encoding of single elements that keeps a separator, and makes it from nothing else. -/
structure Keeps (f : α → List β) (s : α) (s' : β) : Prop where
  self : f s = [s']
  other : ∀ x, x ≠ s → s' ∉ f x

variable {f : α → List β} {s t : α} {s' t' : β}

theorem splitOn_flatMap (h : Keeps f s s') (l : List α) :
    (l.flatMap f).splitOn s' = (l.splitOn s).map (List.flatMap f) := by
  induction l with
  | nil => rfl
  | cons x l ih =>
    rw [List.flatMap_cons, List.splitOn_cons_eq_if_modifyHead]
    by_cases hx : x = s
    · rw [hx, h.self, if_pos (by simp), List.singleton_append, List.splitOn_cons_eq_if_modifyHead,
        if_pos (by simp), ih]
      rfl
    · rw [if_neg (by simpa using hx), splitOn_append (h.other x hx), ih]
      cases l.splitOn s with
      | nil => rfl
      | cons piece pieces => rfl

theorem cut_flatMap (h : Keeps f s s') (l : List α) :
    cut s' (l.flatMap f) = (cut s l).map fun parts => (parts.1.flatMap f, parts.2.flatMap f) := by
  induction l with
  | nil => rfl
  | cons x l ih =>
    rw [List.flatMap_cons, cut]
    by_cases hx : x = s
    · rw [hx, h.self, if_pos rfl, List.singleton_append, cut, if_pos rfl]
      rfl
    · rw [if_neg hx, cut_append (h.other x hx), ih, Option.map_map, Option.map_map]
      congr 1

/-- **The pairs of an encoded list are the encoded pairs.** -/
theorem pairsOf_flatMap (hs : Keeps f s s') (ht : Keeps f t t') (hne : ∀ x, f x ≠ []) (l : List α) :
    pairsOf s' t' (l.flatMap f) =
      (pairsOf s t l).map fun pair => (pair.1.flatMap f, pair.2.flatMap f) := by
  have hempty : ∀ piece : List α, (piece.flatMap f).isEmpty = piece.isEmpty := by
    intro piece
    cases piece with
    | nil => rfl
    | cons x piece => simp [hne x]
  rw [pairsOf, pairsOf, splitOn_flatMap hs, List.filter_map, List.map_map, List.map_map]
  have hfilter : ((fun piece : List β => !piece.isEmpty) ∘ List.flatMap f) =
      fun piece : List α => !piece.isEmpty := by
    funext piece
    simp only [Function.comp_apply, hempty]
  rw [hfilter]
  apply List.map_congr_left
  intro piece _
  simp only [Function.comp_apply, cut_flatMap ht]
  cases cut t piece with
  | none => rfl
  | some parts => rfl

end OasRs.Lib.Pairs
