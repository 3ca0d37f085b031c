import Mathlib.Data.Fintype.Card
import Mathlib.Logic.Relation
import Mathlib.Tactic.Common

/-!
# Walks in a Relation

Walks that stay out of a set, and relations without cycles.

## Overview

- `Avoids`: a walk on which no later vertex is in a set
- `Avoids.exists_last_exit`: the part of a walk after it leaves a vertex for the last time
- `wellFounded_of_acyclic`: a relation on a finite type without cycles is well founded
-/

namespace OasRs.Lib

variable {α : Type} {r : α → α → Prop}

/-- A walk from `a` to `b` whose vertices after `a` are not in the set. -/
def Avoids (r : α → α → Prop) (S : Set α) (a b : α) : Prop :=
  Relation.ReflTransGen (fun x y => r x y ∧ y ∉ S) a b

theorem avoids_empty {a b : α} (h : Relation.ReflTransGen r a b) : Avoids r ∅ a b := by
  have hstep : ∀ x y, r x y → r x y ∧ y ∉ (∅ : Set α) := fun _ y hxy => ⟨hxy, Set.notMem_empty y⟩
  exact Relation.ReflTransGen.mono hstep a b h

theorem Avoids.anti {S T : Set α} {a b : α} (h : Avoids r T a b) (hST : S ⊆ T) : Avoids r S a b := by
  have hstep : ∀ x y, r x y ∧ y ∉ T → r x y ∧ y ∉ S := fun _ _ hxy => ⟨hxy.1, fun hy => hxy.2 (hST hy)⟩
  exact Relation.ReflTransGen.mono hstep a b h

/-- A walk that ends elsewhere leaves its first vertex for a last time. -/
theorem Avoids.exists_last_exit {S : Set α} {a b : α} (h : Avoids r S a b) (hab : b ≠ a) :
    ∃ c, r a c ∧ c ∉ insert a S ∧ Avoids r (insert a S) c b := by
  induction h with
  | refl => exact absurd rfl hab
  | @tail x y hwalk hstep ih =>
    have hy : y ∉ insert a S := by
      rintro (rfl | hy)
      · exact hab rfl
      · exact hstep.2 hy
    by_cases hx : x = a
    · -- the last step leaves `a`
      exact ⟨y, hx ▸ hstep.1, hy, .refl⟩
    · obtain ⟨c, hac, hc, hwalk'⟩ := ih hx
      exact ⟨c, hac, hc, hwalk'.tail ⟨hstep.1, hy⟩⟩

/-- Without cycles, a relation on a finite type is well founded. -/
theorem wellFounded_of_acyclic [Finite α] (h : ∀ a, ¬ Relation.TransGen r a a) :
    WellFounded (Function.swap r) := by
  have : Std.Irrefl (Relation.TransGen (Function.swap r)) :=
    ⟨fun a ha => h a (Relation.transGen_swap.mp ha)⟩
  have hwf := Finite.wellFounded_of_trans_of_irrefl (Relation.TransGen (Function.swap r))
  exact Subrelation.wf Relation.TransGen.single hwf

end OasRs.Lib
