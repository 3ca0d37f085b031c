import Mathlib.Order.Filter.AtTopBot.Basic
import Mathlib.Tactic.Common

/-!
# Computations with Fuel that Settle

Yes/no computations that are run with fuel, and what they answer when there is enough of it.

## Overview

- `Settles f answer`: with enough fuel, the answer of `f`
- `Settles.all`, `Settles.any`, `Settles.countP_eq_one`: the parts of a list settle one by one
- `Coincide f g`: two computations come to one answer
- `Coincide.map₂`, `Coincide.all`: their parts may be compared one by one
- `Coincide.of_succ`: fuel that one of them spends
-/

namespace OasRs.Lib

open Filter

variable {α : Type*} {f g f' g' : ℕ → Bool} {a b : Bool}

/-- With enough fuel, the computation gives the answer. -/
def Settles (f : ℕ → Bool) (answer : Bool) : Prop := ∀ᶠ fuel in atTop, f fuel = answer

/-- With enough fuel, both computations give the same answer. -/
def Coincide (f g : ℕ → Bool) : Prop := ∃ answer, Settles f answer ∧ Settles g answer

namespace Settles

theorem const (b : Bool) : Settles (fun _ => b) b := Eventually.of_forall fun _ => rfl

theorem congr (h : Settles f a) (heq : ∀ fuel, f' fuel = f fuel) : Settles f' a := by
  filter_upwards [h] with fuel hfuel
  rw [heq, hfuel]

/-- The answer from some fuel on. -/
theorem of_add (least : ℕ) (h : ∀ fuel, f (fuel + least) = a) : Settles f a := by
  apply eventually_atTop.mpr
  refine ⟨least, ?_⟩
  intro fuel hfuel
  obtain ⟨rest, rfl⟩ := Nat.exists_eq_add_of_le' hfuel
  exact h rest

/-- A step that costs fuel. -/
theorem of_succ (h : Settles f a) (hstep : ∀ fuel, f' (fuel + 1) = f fuel) : Settles f' a := by
  obtain ⟨bound, hbound⟩ := eventually_atTop.mp h
  apply eventually_atTop.mpr
  refine ⟨bound + 1, ?_⟩
  intro fuel hfuel
  obtain ⟨rest, rfl⟩ := Nat.exists_eq_add_of_le' (Nat.le_of_add_left_le hfuel)
  rw [hstep]
  exact hbound rest (by omega)

theorem map₂ (op : Bool → Bool → Bool) (hf : Settles f a) (hg : Settles g b) :
    Settles (fun fuel => op (f fuel) (g fuel)) (op a b) := by
  filter_upwards [hf, hg] with fuel hf hg
  rw [hf, hg]

/-- A computation that answers yes wherever another one does. -/
theorem mono (h : Settles f true) (hle : ∀ fuel, f fuel = true → f' fuel = true) :
    Settles f' true := by
  filter_upwards [h] with fuel hfuel
  exact hle fuel hfuel

/-- A computation that answers no wherever another one does. -/
theorem anti (h : Settles f false) (hle : ∀ fuel, f fuel = false → f' fuel = false) :
    Settles f' false := by
  filter_upwards [h] with fuel hfuel
  exact hle fuel hfuel

theorem both (hf : Settles f true) (hg : Settles g true) :
    Settles (fun fuel => f fuel && g fuel) true := hf.map₂ Bool.and hg

section Lists

variable {l : List α} {F : ℕ → α → Bool}

theorem all (h : ∀ x ∈ l, Settles (fun fuel => F fuel x) true) :
    Settles (fun fuel => l.all (F fuel)) true := by
  induction l with
  | nil => exact const true
  | cons x l ih =>
    have hrest := ih fun y hy => h y (List.mem_cons_of_mem _ hy)
    exact (h x List.mem_cons_self).both hrest

theorem any {x : α} (hx : x ∈ l) (h : Settles (fun fuel => F fuel x) true) :
    Settles (fun fuel => l.any (F fuel)) true :=
  h.mono fun _ hfuel => List.any_eq_true.mpr ⟨x, hx, hfuel⟩

theorem countP_eq_zero (h : ∀ x ∈ l, Settles (fun fuel => F fuel x) false) :
    Settles (fun fuel => l.countP (F fuel) == 0) true := by
  have hnone : Settles (fun fuel => l.all fun x => !F fuel x) true :=
    all fun x hx => (h x hx).map₂ (fun a _ => !a) (const true)
  refine hnone.mono fun fuel hfuel => ?_
  rw [beq_iff_eq, List.countP_eq_zero]
  intro x hx
  simpa using List.all_eq_true.mp hfuel x hx

/-- One part holds and no other does. -/
theorem countP_eq_one {l l' : List α} {x : α}
    (hleft : ∀ y ∈ l, Settles (fun fuel => F fuel y) false)
    (hx : Settles (fun fuel => F fuel x) true)
    (hright : ∀ y ∈ l', Settles (fun fuel => F fuel y) false) :
    Settles (fun fuel => (l ++ x :: l').countP (F fuel) == 1) true := by
  have hall := ((countP_eq_zero hleft).both hx).both (countP_eq_zero hright)
  refine hall.mono fun fuel hfuel => ?_
  simp only [Bool.and_eq_true, beq_iff_eq] at hfuel
  obtain ⟨⟨hleft, hx⟩, hright⟩ := hfuel
  rw [List.countP_append, List.countP_cons_of_pos hx, hleft, hright]
  rfl

end Lists

/-- A computation has one answer. -/
theorem unique (ha : Settles f a) (hb : Settles f b) : a = b := by
  obtain ⟨fuel, ha, hb⟩ := (ha.and hb).exists
  rw [← ha, hb]

end Settles

namespace Coincide

theorem const (b : Bool) : Coincide (fun _ => b) (fun _ => b) := ⟨b, .const b, .const b⟩

theorem congr (h : Coincide f g) (hf : ∀ fuel, f' fuel = f fuel)
    (hg : ∀ fuel, g' fuel = g fuel) : Coincide f' g' := by
  obtain ⟨answer, hanswer, hanswer'⟩ := h
  exact ⟨answer, hanswer.congr hf, hanswer'.congr hg⟩

/-- A step of the first computation that costs fuel. -/
theorem of_succ (h : Coincide f g) (hstep : ∀ fuel, f' (fuel + 1) = f fuel) : Coincide f' g := by
  obtain ⟨answer, hf, hg⟩ := h
  exact ⟨answer, hf.of_succ hstep, hg⟩

theorem symm (h : Coincide f g) : Coincide g f := by
  obtain ⟨answer, hf, hg⟩ := h
  exact ⟨answer, hg, hf⟩

/-- Two parts on each side. -/
theorem map₂ (op : Bool → Bool → Bool) (h : Coincide f g) (h' : Coincide f' g') :
    Coincide (fun fuel => op (f fuel) (f' fuel)) (fun fuel => op (g fuel) (g' fuel)) := by
  obtain ⟨answer, hf, hg⟩ := h
  obtain ⟨answer', hf', hg'⟩ := h'
  exact ⟨op answer answer', hf.map₂ op hf', hg.map₂ op hg'⟩

/-- One part for each element of a list. -/
theorem all {l : List α} {f g : ℕ → α → Bool}
    (h : ∀ x ∈ l, Coincide (fun fuel => f fuel x) (fun fuel => g fuel x)) :
    Coincide (fun fuel => l.all (f fuel)) (fun fuel => l.all (g fuel)) := by
  induction l with
  | nil => exact const true
  | cons x l ih =>
    have hx := h x List.mem_cons_self
    have hl := ih fun y hy => h y (List.mem_cons_of_mem _ hy)
    exact (hx.map₂ and hl).congr (fun _ => rfl) (fun _ => rfl)

end Coincide

end OasRs.Lib
