import Mathlib.Data.List.Basic

/-!
# Transducers

A machine that reads events one by one and gives an output for each of them.

## Overview

- `final`, `outputs`: where a run ends, and what it gives
- `final_append`, `outputs_append`: a run in two parts
- `outputs_prefix`: what was given is not taken back
-/

namespace OasRs.Lib.Transducer

variable {S E O : Type*} (step : S → E → O × S)

/-- The state after some events. -/
def final (s : S) (es : List E) : S := es.foldl (fun s e => (step s e).2) s

/-- The outputs for some events, in order. -/
def outputs : S → List E → List O
  | _, [] => []
  | s, e :: es => (step s e).1 :: outputs (step s e).2 es

@[simp] theorem final_nil (s : S) : final step s [] = s := rfl

@[simp] theorem final_cons (s : S) (e : E) (es : List E) :
    final step s (e :: es) = final step (step s e).2 es := rfl

@[simp] theorem outputs_nil (s : S) : outputs step s [] = [] := rfl

@[simp] theorem outputs_cons (s : S) (e : E) (es : List E) :
    outputs step s (e :: es) = (step s e).1 :: outputs step (step s e).2 es := rfl

theorem final_append (s : S) (as bs : List E) :
    final step s (as ++ bs) = final step (final step s as) bs := List.foldl_append

theorem outputs_append (s : S) (as bs : List E) :
    outputs step s (as ++ bs) = outputs step s as ++ outputs step (final step s as) bs := by
  induction as generalizing s with
  | nil => rfl
  | cons a as ih => exact congrArg (_ :: ·) (ih _)

@[simp] theorem length_outputs (s : S) (es : List E) :
    (outputs step s es).length = es.length := by
  induction es generalizing s with
  | nil => rfl
  | cons e es ih => exact congrArg (· + 1) (ih _)

/-- What was given is not taken back. -/
theorem outputs_prefix (s : S) {as bs : List E} (h : as <+: bs) :
    outputs step s as <+: outputs step s bs := by
  obtain ⟨cs, rfl⟩ := h
  exact ⟨_, (outputs_append step s as cs).symm⟩

/-- The outputs of the second part of a run. -/
theorem drop_outputs (s : S) (as bs : List E) :
    (outputs step s (as ++ bs)).drop as.length = outputs step (final step s as) bs := by
  rw [outputs_append, ← length_outputs step s as, List.drop_left]

end OasRs.Lib.Transducer
