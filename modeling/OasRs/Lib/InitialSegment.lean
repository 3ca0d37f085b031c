import Mathlib.Data.Seq.Basic

/-!
# Initial Segments of Sequences

Lists that begin a sequence, which may be finite or infinite, and sequences that are read piece by
piece.

## Overview

- `Begins`: a list is an initial segment of a sequence
- `Begins.append`: a further piece is read
- `Begins.eq_ofList`, `Begins.eq_ofList_append`: lists that end where the sequence ends
- `begins_ofList`, `Begins.isPrefix`: initial segments of lists, and two initial segments
-/

namespace OasRs.Lib

open Stream'

variable {α : Type*} {s : Seq α} {l m : List α}

/-- The list is an initial segment of the sequence. -/
def Begins (l : List α) (s : Seq α) : Prop := s.take l.length = l

theorem begins_iff_get? : Begins l s ↔ ∀ i < l.length, s.get? i = l[i]? := by
  constructor
  · intro h i hi
    have htake : (s.take l.length)[i]? = s.get? i := by rw [Seq.getElem?_take, if_pos hi]
    rw [← htake, h]
  · intro h
    apply List.ext_getElem?
    intro i
    rw [Seq.getElem?_take]
    split
    · exact h i ‹_›
    · rw [List.getElem?_eq_none (by omega)]

theorem begins_nil (s : Seq α) : Begins [] s := Seq.take_zero

/-- What is taken is an initial segment. -/
theorem begins_take (s : Seq α) (n : ℕ) : Begins (s.take n) s := by
  rw [begins_iff_get?]
  intro i hi
  have hn : i < n := hi.trans_le Seq.length_take_le
  rw [Seq.getElem?_take, if_pos hn]

/-- A segment, and a segment of what comes behind it. -/
theorem Begins.append (hl : Begins l s) (hm : Begins m (s.drop l.length)) : Begins (l ++ m) s := by
  rw [begins_iff_get?] at hl hm ⊢
  intro i hi
  rw [List.length_append] at hi
  rcases Nat.lt_or_ge i l.length with hlt | hge
  · rw [List.getElem?_append_left hlt, hl i hlt]
  · have hrest := hm (i - l.length) (by omega)
    rw [Seq.drop_get?, Nat.add_sub_cancel' hge] at hrest
    rw [List.getElem?_append_right hge, hrest]

/-- The two parts of a segment. -/
theorem Begins.of_append (h : Begins (l ++ m) s) : Begins l s ∧ Begins m (s.drop l.length) := by
  simp only [begins_iff_get?] at h ⊢
  constructor
  · intro i hi
    rw [h i (by rw [List.length_append]; omega), List.getElem?_append_left hi]
  · intro i hi
    rw [Seq.drop_get?, h _ (by rw [List.length_append]; omega),
      List.getElem?_append_right (by omega), Nat.add_sub_cancel_left]

/-- Something is taken unless the sequence has ended. -/
theorem get?_zero_of_take_eq_nil {n : ℕ} (hn : 0 < n) (h : s.take n = []) : s.get? 0 = none := by
  have htake : (s.take n)[0]? = s.get? 0 := by rw [Seq.getElem?_take, if_pos hn]
  rw [← htake, h]
  rfl

/-- A segment that ends where the sequence ends is all of it. -/
theorem Begins.eq_ofList (h : Begins l s) (hend : s.get? l.length = none) : s = Seq.ofList l := by
  rw [begins_iff_get?] at h
  apply Seq.ext
  intro i
  rw [Seq.ofList_get?]
  rcases Nat.lt_or_ge i l.length with hlt | hge
  · exact h i hlt
  · rw [List.getElem?_eq_none hge]
    exact Seq.le_stable s hge hend

/-- A sequence in two parts, the second of them a list. -/
theorem Begins.eq_ofList_append (h : Begins l s) (hdrop : s.drop l.length = Seq.ofList m) :
    s = Seq.ofList (l ++ m) := by
  apply Begins.eq_ofList
  · apply h.append
    rw [hdrop]
    -- a list begins itself
    rw [begins_iff_get?]
    intro i _
    rw [Seq.ofList_get?]
  · rw [List.length_append, ← Seq.drop_get?, hdrop, Seq.ofList_get?]
    exact List.getElem?_eq_none le_rfl

/-- The initial segments of a list are its prefixes. -/
theorem begins_ofList : Begins l (Seq.ofList m) ↔ l <+: m := by
  rw [begins_iff_get?, List.prefix_iff_eq_take]
  simp only [Seq.ofList_get?]
  constructor
  · intro h
    apply List.ext_getElem?
    intro i
    rw [List.getElem?_take]
    split
    · exact (h i ‹_›).symm
    · rw [List.getElem?_eq_none (by omega)]
  · intro h i hi
    have htake : l[i]? = (m.take l.length)[i]? := congrArg (·[i]?) h
    rw [htake, List.getElem?_take, if_pos hi]

/-- Of two initial segments, the shorter one begins the longer one. -/
theorem Begins.isPrefix (hl : Begins l s) (hm : Begins m s) (hle : l.length ≤ m.length) :
    l <+: m := by
  rw [List.prefix_iff_eq_take]
  rw [begins_iff_get?] at hl hm
  apply List.ext_getElem?
  intro i
  rw [List.getElem?_take]
  split
  · rename_i hi
    rw [← hl i hi, hm i (by omega)]
  · rw [List.getElem?_eq_none (by omega)]

end OasRs.Lib
