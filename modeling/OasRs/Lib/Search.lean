import Mathlib.Data.List.Infix
import Mathlib.Tactic.Common

/-!
# Searching a Stream for a Pattern

Finding the first occurrence of a pattern in a list, and finding it in a list that comes
in pieces, of which only the last few elements are kept.

## Overview

- `OccursAt`, `find`: occurrences, and the first one
- `find_append`: what comes before can be cut off if no occurrence begins there
- `Remembers`: a carry-over that is enough of what was seen
- `Remembers.find_eq`, `Remembers.next`: a piece that brings an occurrence, and one that
  does not
-/

namespace OasRs.Lib.Search

variable {α : Type*}

/-! ## Occurrences -/

/-- The pattern begins at the index `i` of the text. -/
def OccursAt (pattern text : List α) (i : ℕ) : Prop := pattern <+: text.drop i

instance [DecidableEq α] (pattern text : List α) (i : ℕ) : Decidable (OccursAt pattern text i) :=
  inferInstanceAs (Decidable (_ <+: _))

variable {pattern text more : List α} {i : ℕ}

/-- An occurrence ends within the text. -/
theorem OccursAt.le_length (hne : pattern ≠ []) (h : OccursAt pattern text i) :
    i + pattern.length ≤ text.length := by
  have hle := List.IsPrefix.length_le h
  have hpos := List.length_pos_of_ne_nil hne
  rw [List.length_drop] at hle
  omega

/-- An occurrence stays one when the text goes on. -/
theorem OccursAt.append (h : OccursAt pattern text i) (hi : i ≤ text.length) (more : List α) :
    OccursAt pattern (text ++ more) i := by
  rw [OccursAt, List.drop_append_of_le_length hi]
  exact h.trans (List.prefix_append _ _)

/-- An occurrence that ends before the rest of a text is one without the rest. -/
theorem OccursAt.of_append (h : OccursAt pattern (text ++ more) i)
    (hi : i + pattern.length ≤ text.length) : OccursAt pattern text i := by
  rw [OccursAt, List.drop_append_of_le_length (by omega)] at h
  apply List.prefix_of_prefix_length_le h (List.prefix_append _ _)
  rw [List.length_drop]
  omega

/-- Cutting off what comes before shifts the occurrences. -/
theorem occursAt_length_add (before : List α) :
    OccursAt pattern (before ++ text) (before.length + i) ↔ OccursAt pattern text i := by
  rw [OccursAt, OccursAt, List.drop_append, List.drop_eq_nil_of_le (by omega),
    List.nil_append, Nat.add_sub_cancel_left]

variable [DecidableEq α]

/-- The index of the first occurrence. -/
def find (pattern : List α) : List α → Option ℕ
  | [] => if pattern = [] then some 0 else none
  | x :: text =>
    if pattern <+: x :: text then some 0 else (find pattern text).map (· + 1)

theorem find_eq_none_iff : find pattern text = none ↔ ∀ i, ¬ OccursAt pattern text i := by
  induction text with
  | nil =>
    rw [find]
    split
    · simp [OccursAt, *]
    · simp [OccursAt, *]
  | cons x text ih =>
    rw [find]
    split
    · rename_i h
      refine iff_of_false (by simp) fun hno => hno 0 ?_
      simpa [OccursAt] using h
    · rename_i h
      rw [Option.map_eq_none_iff, ih]
      constructor
      · intro hno i
        cases i with
        | zero => simpa [OccursAt] using h
        | succ i => exact hno i
      · intro hno i
        exact hno (i + 1)

/-- What was found is an occurrence, and none begins before it. -/
theorem find_eq_some_iff :
    find pattern text = some i ↔
      (OccursAt pattern text i ∧ i ≤ text.length) ∧ ∀ j < i, ¬ OccursAt pattern text j := by
  induction text generalizing i with
  | nil =>
    rw [find]
    split
    · rename_i h
      simp only [Option.some.injEq, OccursAt, h, List.nil_prefix, true_and, List.length_nil,
        Nat.le_zero, not_true_eq_false]
      constructor
      · rintro rfl
        exact ⟨rfl, fun j hj => absurd hj (Nat.not_lt_zero j)⟩
      · exact fun h => h.1.symm
    · simp [OccursAt, *]
  | cons x text ih =>
    rw [find]
    split
    · rename_i h
      -- it occurs here, and nothing is before
      have hzero : OccursAt pattern (x :: text) 0 := h
      rw [Option.some.injEq]
      constructor
      · rintro rfl
        exact ⟨⟨hzero, Nat.zero_le _⟩, fun j hj => absurd hj (Nat.not_lt_zero j)⟩
      · rintro ⟨-, hfirst⟩
        by_contra hne
        exact hfirst 0 (by omega) hzero
    · rename_i h
      -- it does not occur here: shift what is found in the rest
      have hzero : ¬ OccursAt pattern (x :: text) 0 := h
      rw [Option.map_eq_some_iff]
      constructor
      · rintro ⟨j, hj, rfl⟩
        obtain ⟨⟨hoccurs, hle⟩, hfirst⟩ := ih.mp hj
        refine ⟨⟨hoccurs, by simpa using hle⟩, fun k hk => ?_⟩
        cases k with
        | zero => exact hzero
        | succ k => exact hfirst k (by omega)
      · rintro ⟨⟨hoccurs, hle⟩, hfirst⟩
        cases i with
        | zero => exact absurd hoccurs hzero
        | succ i =>
          refine ⟨i, ih.mpr ⟨⟨hoccurs, by simpa using hle⟩, fun k hk => ?_⟩, rfl⟩
          exact hfirst (k + 1) (by omega)

/-- There is a first occurrence if there is one, and it is not behind it. -/
theorem OccursAt.find_le (h : OccursAt pattern text i) : ∃ j ≤ i, find pattern text = some j := by
  cases hfind : find pattern text with
  | none => exact absurd h (find_eq_none_iff.mp hfind i)
  | some j =>
    refine ⟨j, ?_, rfl⟩
    by_contra hlt
    exact (find_eq_some_iff.mp hfind).2 i (by omega) h

/-- What comes before can be cut off if no occurrence begins there. -/
theorem find_append {before : List α} (h : ∀ i < before.length, ¬ OccursAt pattern (before ++ text) i) :
    find pattern (before ++ text) = (find pattern text).map (· + before.length) := by
  induction before with
  | nil => simp
  | cons x before ih =>
    have hzero : ¬ pattern <+: x :: (before ++ text) := h 0 (Nat.succ_pos _)
    have hrest : ∀ i < before.length, ¬ OccursAt pattern (before ++ text) i := fun i hi =>
      h (i + 1) (Nat.succ_lt_succ hi)
    rw [List.cons_append, find, if_neg hzero, ih hrest, Option.map_map]
    rfl

/-! ## Pieces -/

/-- What is kept of a text in which the pattern does not occur: its last elements, one less
    than the pattern has, or all of it. -/
structure Remembers (pattern seen carry : List α) : Prop where
  suffix : carry <:+ seen
  enough : seen = carry ∨ pattern.length ≤ carry.length + 1
  absent : ∀ i, ¬ OccursAt pattern seen i

/-- The end of a list, of a given length. -/
def keep (n : ℕ) (window : List α) : List α := window.drop (window.length - n)

namespace Remembers

variable {seen carry chunk : List α}

omit [DecidableEq α] in
/-- A list that is shorter than the pattern remembers itself. -/
theorem of_short (h : seen.length < pattern.length) : Remembers pattern seen seen where
  suffix := List.suffix_refl _
  enough := .inl rfl
  absent i hoccurs := by
    have hne : pattern ≠ [] := by
      rintro rfl
      exact absurd h (Nat.not_lt_zero _)
    have := hoccurs.le_length hne
    omega

/-- With a further piece, the first occurrence is found in what was kept and the piece. -/
theorem find_eq (hne : pattern ≠ []) (h : Remembers pattern seen carry) (chunk : List α) :
    find pattern (seen ++ chunk) =
      (find pattern (carry ++ chunk)).map (· + (seen.length - carry.length)) := by
  obtain ⟨before, hbefore⟩ := h.suffix
  have hlength : seen.length - carry.length = before.length := by
    rw [← hbefore, List.length_append]
    omega
  have hsplit : seen ++ chunk = before ++ (carry ++ chunk) := by
    rw [← hbefore, List.append_assoc]
  rw [hlength, hsplit]
  apply find_append
  intro i hi hoccurs
  rcases h.enough with heq | henough
  · -- nothing was cut off
    rw [heq, Nat.sub_self] at hlength
    omega
  · -- an occurrence that begins in what was cut off ends in what was seen
    apply h.absent i
    rw [← hsplit] at hoccurs
    apply hoccurs.of_append
    rw [← hbefore, List.length_append]
    have hpos := List.length_pos_of_ne_nil hne
    omega

/-- A piece that brings no occurrence: the end of what was kept and the piece is kept. -/
theorem next (hne : pattern ≠ []) (h : Remembers pattern seen carry)
    (hnone : find pattern (carry ++ chunk) = none) :
    Remembers pattern (seen ++ chunk)
      (keep (min (pattern.length - 1) (carry ++ chunk).length) (carry ++ chunk)) where
  suffix := by
    apply (List.drop_suffix _ _).trans
    obtain ⟨before, hbefore⟩ := h.suffix
    exact ⟨before, by rw [← hbefore, List.append_assoc]⟩
  enough := by
    have hpos := List.length_pos_of_ne_nil hne
    rcases Nat.lt_or_ge (carry ++ chunk).length (pattern.length - 1) with hshort | hlong
    · -- a short window is all that was seen
      left
      have hseen : seen = carry := by
        rcases h.enough with heq | henough
        · exact heq
        · rw [List.length_append] at hshort
          omega
      rw [keep, Nat.min_eq_right hshort.le, Nat.sub_self, List.drop_zero, hseen]
    · right
      rw [keep, Nat.min_eq_left hlong, List.length_drop]
      omega
  absent := by
    rw [← find_eq_none_iff, h.find_eq hne, hnone]
    rfl

end Remembers

end OasRs.Lib.Search
