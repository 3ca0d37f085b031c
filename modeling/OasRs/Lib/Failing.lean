import Mathlib.Data.List.Forall2
import Mathlib.Tactic.Common

/-!
# How Computations Fail

Postconditions of the errors of a fallible computation.

## Overview

- `FailsWith x P`: every error of `x` satisfies `P`
- `FailsWith.bind`, `FailsWith.foldlM`, `FailsWith.mapM`: the rules of the monad
- `mapM_eq_some`: a list of results, one for each element
- `toOption_bind`, `toOption_foldlM`: what is left without the errors
-/

namespace OasRs.Lib

variable {ε α β : Type}

/-- Every error of the computation satisfies `P`. -/
def FailsWith (x : Except ε α) (P : ε → Prop) : Prop := ∀ error, x = .error error → P error

namespace FailsWith

variable {P Q : ε → Prop}

theorem ok (a : α) : FailsWith (.ok a) P := by
  intro error h
  cases h

theorem pure (a : α) : FailsWith (Pure.pure a : Except ε α) P := ok a

theorem error {error : ε} (h : P error) : FailsWith (.error error : Except ε α) P := by
  intro error' h'
  cases h'
  exact h

theorem mono {x : Except ε α} (h : FailsWith x P) (hPQ : ∀ error, P error → Q error) :
    FailsWith x Q :=
  fun error herror => hPQ error (h error herror)

/-- Errors of a sequence are errors of one of its parts. -/
theorem bind {x : Except ε α} {f : α → Except ε β} (hx : FailsWith x P)
    (hf : ∀ a, x = .ok a → FailsWith (f a) P) : FailsWith (x >>= f) P := by
  intro error h
  cases hcase : x with
  | error error' =>
    rw [hcase] at h
    cases h
    exact hx _ hcase
  | ok a =>
    rw [hcase] at h
    exact hf a hcase error h

theorem map {x : Except ε α} (hx : FailsWith x P) (f : α → β) : FailsWith (x.map f) P := by
  intro error h
  cases hcase : x with
  | error error' =>
    rw [hcase] at h
    cases h
    exact hx _ hcase
  | ok a =>
    rw [hcase] at h
    cases h

theorem foldlM {f : β → α → Except ε β} (hf : ∀ b a, FailsWith (f b a) P) (xs : List α) (b : β) :
    FailsWith (xs.foldlM f b) P := by
  induction xs generalizing b with
  | nil => exact pure b
  | cons x xs ih =>
    rw [List.foldlM_cons]
    exact (hf b x).bind fun b' _ => ih b'

theorem forM {f : α → Except ε PUnit} {xs : List α} (hf : ∀ x ∈ xs, FailsWith (f x) P) :
    FailsWith (xs.forM f) P := by
  induction xs with
  | nil => exact pure _
  | cons x xs ih =>
    show FailsWith (f x >>= fun _ => xs.forM f) P
    exact (hf x List.mem_cons_self).bind fun _ _ => ih fun y hy => hf y (List.mem_cons_of_mem _ hy)

theorem mapM {f : α → Except ε β} {xs : List α} (hf : ∀ x ∈ xs, FailsWith (f x) P) :
    FailsWith (xs.mapM f) P := by
  induction xs with
  | nil => exact pure _
  | cons x xs ih =>
    rw [List.mapM_cons]
    refine (hf x List.mem_cons_self).bind fun _ _ => ?_
    exact (ih fun y hy => hf y (List.mem_cons_of_mem _ hy)).bind fun _ _ => pure _

end FailsWith

/-! ## Loops -/

section Loops

variable {m : Type → Type} [Monad m]

theorem foldlM_congr {f g : β → α → m β} {xs : List α} (h : ∀ a ∈ xs, ∀ b, f b a = g b a) (b : β) :
    xs.foldlM f b = xs.foldlM g b := by
  induction xs generalizing b with
  | nil => rfl
  | cons x xs ih =>
    rw [List.foldlM_cons, List.foldlM_cons, h x List.mem_cons_self b]
    congr 1
    funext b'
    exact ih (fun a ha => h a (List.mem_cons_of_mem _ ha)) b'

theorem mapM_congr [LawfulMonad m] {f g : α → m β} {xs : List α} (h : ∀ a ∈ xs, f a = g a) :
    xs.mapM f = xs.mapM g := by
  induction xs with
  | nil => rfl
  | cons x xs ih =>
    rw [List.mapM_cons, List.mapM_cons, h x List.mem_cons_self,
      ih fun a ha => h a (List.mem_cons_of_mem _ ha)]

end Loops

/-! ## Lists of results -/

theorem mapM_eq_some {f : α → Option β} {as : List α} {bs : List β} :
    as.mapM f = some bs ↔ List.Forall₂ (fun a b => f a = some b) as bs := by
  induction as generalizing bs with
  | nil =>
    rw [List.mapM_nil, Option.pure_def, Option.some.injEq, List.forall₂_nil_left_iff]
    exact eq_comm
  | cons a as ih =>
    simp only [List.mapM_cons, Option.bind_eq_bind, Option.pure_def, Option.bind_eq_some_iff,
      Option.some.injEq, ih, List.forall₂_cons_left_iff]
    constructor
    · rintro ⟨b, hb, bs, hbs, rfl⟩
      exact ⟨b, bs, hb, hbs, rfl⟩
    · rintro ⟨b, bs, hb, hbs, rfl⟩
      exact ⟨b, hb, bs, hbs, rfl⟩

/-- Every element on the right is related to one on the left. -/
theorem forall₂_exists {R : α → β → Prop} {as : List α} {bs : List β}
    (h : List.Forall₂ R as bs) : ∀ b ∈ bs, ∃ a ∈ as, R a b := by
  induction h with
  | nil =>
    intro b hb
    cases hb
  | @cons a b as bs hab _ ih =>
    intro b' hb'
    rcases List.mem_cons.mp hb' with rfl | hb'
    · exact ⟨a, List.mem_cons_self, hab⟩
    · obtain ⟨a', ha', hab'⟩ := ih b' hb'
      exact ⟨a', List.mem_cons_of_mem _ ha', hab'⟩

/-! ## Without the errors -/

section ToOption

variable {γ : Type}

theorem toOption_eq_some {x : Except ε α} {a : α} : x.toOption = some a ↔ x = .ok a := by
  cases x with
  | error error => simp [Except.toOption]
  | ok b => simp [Except.toOption]

theorem toOption_bind (x : Except ε α) (f : α → Except ε β) :
    (x >>= f).toOption = x.toOption.bind fun a => (f a).toOption := by
  cases x with
  | error error => rfl
  | ok a => rfl

theorem toOption_map (x : Except ε α) (f : α → β) : (x.map f).toOption = x.toOption.map f := by
  cases x with
  | error error => rfl
  | ok a => rfl

theorem toOption_foldlM (f : β → α → Except ε β) (xs : List α) (b : β) :
    (xs.foldlM f b).toOption = xs.foldlM (fun b a => (f b a).toOption) b := by
  induction xs generalizing b with
  | nil => rfl
  | cons x xs ih =>
    rw [List.foldlM_cons, List.foldlM_cons, toOption_bind]
    exact Option.bind_congr fun b' _ => ih b'

theorem toOption_forM {f : α → Except ε PUnit.{1}} {g : α → Option γ}
    (h : ∀ a, (f a).toOption = (g a).map fun _ => ⟨⟩) (xs : List α) :
    (xs.forM f).toOption = (xs.mapM g).map fun _ => ⟨⟩ := by
  induction xs with
  | nil => rfl
  | cons x xs ih =>
    show (f x >>= fun _ => xs.forM f).toOption = _
    rw [toOption_bind, h, ih, List.mapM_cons]
    cases g x with
    | none => rfl
    | some y =>
      cases xs.mapM g with
      | none => rfl
      | some ys => rfl

/-- A function that succeeds more often gives the same list where the other gives one. -/
theorem mapM_mono {f g : α → Option γ} {xs : List α} {ys : List γ}
    (h : ∀ a ∈ xs, ∀ b, f a = some b → g a = some b) (hf : xs.mapM f = some ys) :
    xs.mapM g = some ys := by
  induction xs generalizing ys with
  | nil => exact hf
  | cons x xs ih =>
    rw [List.mapM_cons, Option.bind_eq_bind, Option.bind_eq_some_iff] at hf ⊢
    obtain ⟨y, hy, hf⟩ := hf
    refine ⟨y, h x List.mem_cons_self y hy, ?_⟩
    rw [Option.bind_eq_bind, Option.bind_eq_some_iff] at hf ⊢
    obtain ⟨others, hothers, hf⟩ := hf
    exact ⟨others, ih (fun a ha => h a (List.mem_cons_of_mem _ ha)) hothers, hf⟩

/-- A loop that decodes an element and then uses it decodes all of them first: without errors
    nobody can tell. -/
theorem foldlM_bind (g : α → Option γ) (f : β → γ → Option β) (xs : List α) (b : β) :
    xs.foldlM (fun b a => (g a).bind (f b)) b = (xs.mapM g).bind fun ys => ys.foldlM f b := by
  induction xs generalizing b with
  | nil => rfl
  | cons x xs ih =>
    rw [List.foldlM_cons, List.mapM_cons]
    cases g x with
    | none => rfl
    | some y =>
      show ((f b y).bind fun b' => xs.foldlM _ b') =
        ((xs.mapM g).bind fun ys => some (y :: ys)).bind fun ys => ys.foldlM f b
      rw [Option.bind_assoc]
      have hleft : ((f b y).bind fun b' => xs.foldlM (fun b a => (g a).bind (f b)) b') =
          (f b y).bind fun b' => (xs.mapM g).bind fun ys => ys.foldlM f b' :=
        Option.bind_congr fun b' _ => ih b'
      rw [hleft, Option.bind_comm]
      rfl

end ToOption

end OasRs.Lib
