import Mathlib.Data.List.Forall2
import Mathlib.Tactic.Common

/-!
# Plans

A computation whose questions do not depend on the answers: it asks them all, one after the other,
and what it returns is a function of the answers. Such computations compose, and what holds of the
questions holds of the whole.

## Overview

- `Plan`: the questions, and the function of the answers
- `Plan.const`, `Plan.ask`, `Plan.map`, `Plan.seq`, `Plan.list`: composition
- `Plan.Yields`, `Plan.Makes`: what good answers make, and answers that are good for their questions
- `Plan.run`: the computation in a monad, with `run_map`, `run_seq` and `run_list`
-/

namespace OasRs.Lib

universe u v

variable {Q R α β γ : Type u}

/-- Questions, and what is made of the answers. -/
structure Plan (Q R α : Type u) where
  asks : List Q
  answer : List R → α

namespace Plan

/-- The plan that asks nothing. -/
def const (a : α) : Plan Q R α := ⟨[], fun _ => a⟩

/-- The plan of a single question. -/
def ask [Inhabited R] (q : Q) : Plan Q R R := ⟨[q], fun answers => answers.headD default⟩

def map (f : α → β) (p : Plan Q R α) : Plan Q R β := ⟨p.asks, fun answers => f (p.answer answers)⟩

/-- One plan after the other; each reads its own answers. -/
def seq (p : Plan Q R α) (q : Plan Q R β) : Plan Q R (α × β) where
  asks := p.asks ++ q.asks
  answer answers :=
    (p.answer (answers.take p.asks.length), q.answer (answers.drop p.asks.length))

/-- Plans in a row. -/
def list : List (Plan Q R α) → Plan Q R (List α)
  | [] => const []
  | p :: ps => (p.seq (list ps)).map fun a => a.1 :: a.2

@[simp] theorem asks_const (a : α) : (const a : Plan Q R α).asks = [] := rfl

@[simp] theorem asks_ask [Inhabited R] (q : Q) : (ask q : Plan Q R R).asks = [q] := rfl

@[simp] theorem asks_map (f : α → β) (p : Plan Q R α) : (p.map f).asks = p.asks := rfl

@[simp] theorem asks_seq (p : Plan Q R α) (q : Plan Q R β) :
    (p.seq q).asks = p.asks ++ q.asks := rfl

theorem asks_list (ps : List (Plan Q R α)) : (list ps).asks = ps.flatMap asks := by
  induction ps with
  | nil => rfl
  | cons p ps ih => simp [list, ih]

/-! ## What is made of the answers -/

section Yields

variable {good : R → Prop} {S : α → Prop} {T : β → Prop} {p : Plan Q R α} {q : Plan Q R β}

/-- Good answers make what satisfies `S`. -/
def Yields (good : R → Prop) (S : α → Prop) (p : Plan Q R α) : Prop :=
  ∀ answers, (∀ a ∈ answers, good a) → S (p.answer answers)

theorem Yields.const {a : α} (h : S a) : (const a : Plan Q R α).Yields good S := fun _ _ => h

theorem Yields.ask [Inhabited R] (hdefault : good default) (q : Q) :
    (ask q : Plan Q R R).Yields good good := by
  intro answers hanswers
  cases answers with
  | nil => exact hdefault
  | cons a answers => exact hanswers a List.mem_cons_self

theorem Yields.map {f : α → β} (h : p.Yields good S) (hf : ∀ a, S a → T (f a)) :
    (p.map f).Yields good T := fun answers hanswers => hf _ (h answers hanswers)

theorem Yields.seq (hp : p.Yields good S) (hq : q.Yields good T) :
    (p.seq q).Yields good fun a => S a.1 ∧ T a.2 := by
  intro answers hanswers
  refine ⟨hp _ fun a ha => ?_, hq _ fun a ha => ?_⟩
  · exact hanswers a (List.mem_of_mem_take ha)
  · exact hanswers a (List.mem_of_mem_drop ha)

theorem Yields.list {ps : List (Plan Q R α)} (h : ∀ p ∈ ps, p.Yields good S) :
    (list ps).Yields good fun as => ∀ a ∈ as, S a := by
  induction ps with
  | nil => exact .const nofun
  | cons p ps ih =>
    have hrest := ih fun p' hp' => h p' (List.mem_cons_of_mem _ hp')
    refine ((h p List.mem_cons_self).seq hrest).map ?_
    intro a ha
    rw [List.forall_mem_cons]
    exact ha

end Yields

section Makes

variable {good : Q → R → Prop} {S : α → Prop} {T : β → Prop} {p : Plan Q R α} {q : Plan Q R β}

/-- Answers that are good for their questions make what satisfies `S`. -/
def Makes (good : Q → R → Prop) (S : α → Prop) (p : Plan Q R α) : Prop :=
  ∀ answers, List.Forall₂ good p.asks answers → S (p.answer answers)

theorem Makes.const {a : α} (h : S a) : (const a : Plan Q R α).Makes good S := fun _ _ => h

theorem Makes.ask [Inhabited R] (q : Q) : (ask q : Plan Q R R).Makes good (good q) := by
  intro answers hanswers
  obtain ⟨a, rest, ha, -, rfl⟩ := List.forall₂_cons_left_iff.mp hanswers
  exact ha

theorem Makes.map {f : α → β} (h : p.Makes good S) (hf : ∀ a, S a → T (f a)) :
    (p.map f).Makes good T := fun answers hanswers => hf _ (h answers hanswers)

theorem Makes.mono {S' : α → Prop} (h : p.Makes good S) (hS : ∀ a, S a → S' a) :
    p.Makes good S' := fun answers hanswers => hS _ (h answers hanswers)

theorem Makes.seq (hp : p.Makes good S) (hq : q.Makes good T) :
    (p.seq q).Makes good fun a => S a.1 ∧ T a.2 := by
  intro answers hanswers
  refine ⟨hp _ ?_, hq _ ?_⟩
  · have htake := List.forall₂_take p.asks.length hanswers
    rwa [asks_seq, List.take_left] at htake
  · have hdrop := List.forall₂_drop p.asks.length hanswers
    rwa [asks_seq, List.drop_left] at hdrop

/-- One plan for each element of a list. -/
theorem Makes.list {X : Type*} {xs : List X} {f : X → Plan Q R α} {S : X → α → Prop}
    (h : ∀ x ∈ xs, (f x).Makes good (S x)) :
    (list (xs.map f)).Makes good fun as => List.Forall₂ S xs as := by
  induction xs with
  | nil => exact .const .nil
  | cons x xs ih =>
    have hrest := ih fun x' hx' => h x' (List.mem_cons_of_mem _ hx')
    exact ((h x List.mem_cons_self).seq hrest).map fun a ha => .cons ha.1 ha.2

end Makes

/-! ## Running a plan -/

section Run

variable {m : Type u → Type v} [Monad m]

/-- Ask the questions, then answer. -/
def run (query : Q → m R) (p : Plan Q R α) : m α := do
  let answers ← p.asks.mapM query
  return p.answer answers

variable [LawfulMonad m] {query : Q → m R}

/-- There is an answer for every question. -/
theorem mapM_bind_congr {qs : List Q} {f g : List R → m α}
    (h : ∀ answers, answers.length = qs.length → f answers = g answers) :
    qs.mapM query >>= f = qs.mapM query >>= g := by
  induction qs generalizing f g with
  | nil => simpa using h [] rfl
  | cons q qs ih =>
    rw [List.mapM_cons]
    simp only [bind_assoc, pure_bind]
    congr 1
    funext r
    exact ih fun answers hanswers => h (r :: answers) (congrArg Nat.succ hanswers)

@[simp] theorem run_const (a : α) : (const a).run query = pure a := by
  simp [run, const]

@[simp] theorem run_ask [Inhabited R] (q : Q) : (ask q).run query = query q := by
  simp [run, ask]

theorem run_map (f : α → β) (p : Plan Q R α) :
    (p.map f).run query = p.run query >>= fun a => pure (f a) := by
  simp [run, map]

theorem run_seq (p : Plan Q R α) (q : Plan Q R β) :
    (p.seq q).run query =
      p.run query >>= fun a => q.run query >>= fun b => pure (a, b) := by
  unfold run seq
  rw [List.mapM_append]
  simp only [bind_assoc, pure_bind]
  apply mapM_bind_congr
  intro answers hanswers
  simp only [← hanswers, List.take_left', List.drop_left']

theorem run_list (ps : List (Plan Q R α)) :
    (list ps).run query = ps.mapM fun p => p.run query := by
  induction ps with
  | nil => simp [list]
  | cons p ps ih =>
    rw [list, run_map, run_seq, ih, List.mapM_cons]
    simp only [bind_assoc, pure_bind]

end Run

end Plan

end OasRs.Lib
