import Mathlib.Algebra.Order.Field.Basic
import Mathlib.Algebra.Order.Ring.Nat
import Mathlib.Algebra.BigOperators.Group.Finset.Basic
import Mathlib.Data.Fintype.BigOperators
import Mathlib.Tactic.Linarith
import Mathlib.Tactic.Ring

/-!
# Counting Events in a Time Window

The potential method for rate bounds. A machine processes timestamped events;
some of them are *charged*. If a state has a potential that grows with time at
most at a fixed rate, that never exceeds a fixed capacity, and that pays one unit
for every charged event, then no window of length `d` contains more than
`capacity + rate * d` charged events.

Events that leave the potential alone may carry any timestamp: only the
*relevant* ones have to come in time order.

## Main results

- `Potential.charged_le`: the bound for a run that starts at a given time
- `Potential.window_le`: the bound for an arbitrary window of a run
-/

namespace OasRs.Lib

universe u v w

section Visits

variable {S : Type u} {E : Type v}

/-- The steps of a run: each event with the state that it finds. -/
def visits (step : S → E → S) : S → List E → List (S × E)
  | _, [] => []
  | s, e :: es => (s, e) :: visits step (step s e) es

variable (step : S → E → S)

@[simp] theorem visits_nil (s : S) : visits step s [] = [] := rfl

@[simp] theorem visits_cons (s : S) (e : E) (es : List E) :
    visits step s (e :: es) = (s, e) :: visits step (step s e) es := rfl

/-- The events of a run, in order, are the events it was given. -/
theorem map_snd_visits (s : S) (es : List E) : (visits step s es).map Prod.snd = es := by
  induction es generalizing s with
  | nil => rfl
  | cons e es ih => simp [ih]

/-- What holds initially and is kept by every step holds in every visited state. -/
theorem visits_invariant (inv : S → Prop) (hstep : ∀ s e, inv s → inv (step s e))
    {s : S} (hs : inv s) (es : List E) : ∀ x ∈ visits step s es, inv x.1 := by
  induction es generalizing s with
  | nil => simp
  | cons e es ih =>
    intro x hx
    rcases List.mem_cons.mp hx with rfl | hx
    · exact hs
    · exact ih (hstep s e hs) x hx

end Visits

/-- A potential for a machine `step` whose events are stamped by `time`.

`charge s e` says whether the event `e`, met in state `s`, is counted;
`relevant e` whether it may move the potential at all. -/
structure Potential {S : Type u} {E : Type v} (K : Type w) [Field K] [LinearOrder K]
    [IsStrictOrderedRing K] (step : S → E → S) (time : E → K) where
  /-- Invariant of the states of a run. -/
  inv : S → Prop
  /-- The potential of a state at a time. -/
  value : S → K → K
  /-- Upper bound of the potential. -/
  capacity : K
  /-- Growth of the potential per unit of time. -/
  rate : K
  /-- Events that may change the potential. -/
  relevant : E → Bool
  inv_step : ∀ s e, inv s → inv (step s e)
  value_nonneg : ∀ s t, inv s → 0 ≤ value s t
  value_le : ∀ s t, inv s → value s t ≤ capacity
  rate_nonneg : 0 ≤ rate
  value_grow : ∀ s t t', inv s → t ≤ t' → value s t' ≤ value s t + rate * (t' - t)
  value_irrelevant : ∀ s e t, inv s → relevant e = false → value (step s e) t = value s t

namespace Potential

variable {S : Type u} {E : Type v} {K : Type w} [Field K] [LinearOrder K]
  [IsStrictOrderedRing K] {step : S → E → S} {time : E → K}
  (P : Potential K step time)

/-- A step that pays for the event it processes out of the potential. -/
def Pays (charge : S → E → Bool) (s : S) (e : E) : Prop :=
  P.value (step s e) (time e) + (if charge s e then 1 else 0) ≤ P.value s (time e)

/-- Number of charged events of a run that fall into the window `[a, b]`. -/
def chargedIn (time : E → K) (charge : S → E → Bool) (a b : K) (l : List (S × E)) : ℕ :=
  l.countP fun x => decide (a ≤ time x.2 ∧ time x.2 ≤ b) && charge x.1 x.2

omit [Field K] [IsStrictOrderedRing K] in
/-- Counting class by class. -/
theorem chargedIn_eq_sum {ι : Type*} [Fintype ι] [DecidableEq ι] (time : E → K) (charge : S → E → Bool)
    (cls : E → ι) (a b : K) (l : List (S × E)) :
    chargedIn time charge a b l =
      ∑ i, chargedIn time (fun s e => decide (cls e = i) && charge s e) a b l := by
  induction l with
  | nil => simp [chargedIn]
  | cons x l ih =>
    have hone : ∀ p : Bool,
        (∑ i, if p && (decide (cls x.2 = i) && charge x.1 x.2) then 1 else 0) =
          if p && charge x.1 x.2 then 1 else 0 := by
      intro p
      cases p <;> cases charge x.1 x.2 <;> simp
    simp only [chargedIn, List.countP_cons] at ih ⊢
    rw [Finset.sum_add_distrib, ← ih, hone]

section Bound

variable (charge : S → E → Bool) {a b : K}

/-- From a time `t₀` inside the window on, the charged events of the window are
    paid by the potential at `t₀` and its growth until the end of the window. -/
theorem charged_le {t₀ : K} (hb : t₀ ≤ b) (es : List E) :
    ∀ s, P.inv s →
      (es.filter P.relevant).Pairwise (fun e e' => time e ≤ time e') →
      (∀ e ∈ es, P.relevant e = true → t₀ ≤ time e) →
      (∀ x ∈ visits step s es, charge x.1 x.2 = true → P.relevant x.2 = true) →
      (∀ x ∈ visits step s es, P.relevant x.2 = true → time x.2 ≤ b →
        a ≤ time x.2 → P.Pays charge x.1 x.2) →
      a ≤ t₀ →
      (chargedIn time charge a b (visits step s es) : K) ≤ P.value s t₀ + P.rate * (b - t₀) := by
  induction es generalizing t₀ with
  | nil =>
    intro s hs _ _ _ _ _
    have h₁ := P.value_nonneg s t₀ hs
    have h₂ := mul_nonneg P.rate_nonneg (sub_nonneg.mpr hb)
    simpa [chargedIn] using add_nonneg h₁ h₂
  | cons e es ih =>
    intro s hs hsort hfrom hrel hpays ha
    have hs' := P.inv_step s e hs
    have hfrom' : ∀ e' ∈ es, P.relevant e' = true → t₀ ≤ time e' :=
      fun e' he' => hfrom e' (List.mem_cons_of_mem _ he')
    have hrel' := fun x hx => hrel x (List.mem_cons_of_mem _ hx)
    have hpays' := fun x hx => hpays x (List.mem_cons_of_mem _ hx)
    cases hre : P.relevant e with
    | false =>
      -- not counted, and invisible to the potential
      have hsort' : (es.filter P.relevant).Pairwise (fun e e' => time e ≤ time e') := by
        simpa [List.filter_cons, hre] using hsort
      have hch : charge s e = false := by
        cases hc : charge s e with
        | false => rfl
        | true => simpa [hre] using hrel (s, e) (List.mem_cons_self ..) hc
      have hcount : chargedIn time charge a b (visits step s (e :: es)) =
          chargedIn time charge a b (visits step (step s e) es) := by
        simp [chargedIn, hch]
      rw [hcount, ← P.value_irrelevant s e t₀ hs hre]
      exact ih hb (step s e) hs' hsort' hfrom' hrel' hpays' ha
    | true =>
      have hcons : (∀ e' ∈ es.filter P.relevant, time e ≤ time e') ∧
          (es.filter P.relevant).Pairwise (fun e e' => time e ≤ time e') := by
        simpa [List.filter_cons, hre] using hsort
      have ht₀ : t₀ ≤ time e := hfrom e (List.mem_cons_self ..) hre
      have hae : a ≤ time e := ha.trans ht₀
      have hlater : ∀ e' ∈ es, P.relevant e' = true → time e ≤ time e' :=
        fun e' he' hr => hcons.1 e' (List.mem_filter.mpr ⟨he', hr⟩)
      by_cases heb : time e ≤ b
      · -- inside the window: pay for `e`, then wait from `time e` on
        have hpay := hpays (s, e) (List.mem_cons_self ..) hre heb hae
        have hrest := ih heb (step s e) hs' hcons.2 hlater hrel' hpays' hae
        have hcount : (chargedIn time charge a b (visits step s (e :: es)) : K) =
            (chargedIn time charge a b (visits step (step s e) es) : K) +
              (if charge s e then 1 else 0) := by
          cases hc : charge s e <;> simp [chargedIn, hc, hae, heb]
        have hgrow := P.value_grow s t₀ (time e) hs ht₀
        rw [hcount]
        simp only [Pays] at hpay
        linarith
      · -- past the window: nothing later is counted either
        have hzero : chargedIn time charge a b (visits step s (e :: es)) = 0 := by
          refine List.countP_eq_zero.mpr fun x hx => ?_
          have hxe : x.2 ∈ e :: es := by
            have := List.mem_map_of_mem (f := Prod.snd) hx
            rwa [map_snd_visits] at this
          intro hcontra
          simp only [Bool.and_eq_true, decide_eq_true_eq] at hcontra
          have hr := hrel x hx hcontra.2
          have hle : time e ≤ time x.2 := by
            rcases List.mem_cons.mp hxe with h | h
            · rw [h]
            · exact hlater x.2 h hr
          exact heb (hle.trans hcontra.1.2)
        have h₁ := P.value_nonneg s t₀ hs
        have h₂ := mul_nonneg P.rate_nonneg (sub_nonneg.mpr hb)
        rw [hzero, Nat.cast_zero]
        exact add_nonneg h₁ h₂

/-- **Window bound**: a window `[a, b]` of a run contains at most
    `capacity + rate * (b - a)` charged events. Only the steps inside the window
    have to pay. -/
theorem window_le (hab : a ≤ b) (es : List E) {s : S} (hs : P.inv s)
    (hsort : (es.filter P.relevant).Pairwise (fun e e' => time e ≤ time e'))
    (hrel : ∀ x ∈ visits step s es, charge x.1 x.2 = true → P.relevant x.2 = true)
    (hpays : ∀ x ∈ visits step s es, P.relevant x.2 = true → time x.2 ≤ b →
      a ≤ time x.2 → P.Pays charge x.1 x.2) :
    (chargedIn time charge a b (visits step s es) : K) ≤ P.capacity + P.rate * (b - a) := by
  induction es generalizing s with
  | nil =>
    -- nothing is charged, and the bound is not negative
    have h₁ := (P.value_nonneg s a hs).trans (P.value_le s a hs)
    have h₂ := mul_nonneg P.rate_nonneg (sub_nonneg.mpr hab)
    simpa [chargedIn] using add_nonneg h₁ h₂
  | cons e es ih =>
    by_cases hskip : P.relevant e = true ∧ a ≤ time e
    · -- the window starts here
      have hfrom : ∀ e' ∈ e :: es, P.relevant e' = true → a ≤ time e' := by
        intro e' he' hr
        rcases List.mem_cons.mp he' with rfl | he'
        · exact hskip.2
        · have hcons : ∀ e' ∈ es.filter P.relevant, time e ≤ time e' := by
            have := hsort
            simp only [List.filter_cons, hskip.1, if_true] at this
            exact (List.pairwise_cons.mp this).1
          exact hskip.2.trans (hcons e' (List.mem_filter.mpr ⟨he', hr⟩))
      have hrun := P.charged_le charge hab (e :: es) s hs hsort hfrom hrel hpays le_rfl
      have hcap := P.value_le s a hs
      linarith
    · -- `e` is not counted: go on after it
      have hch : (decide (a ≤ time e ∧ time e ≤ b) && charge s e) = false := by
        cases hc : charge s e with
        | false => simp
        | true =>
          have hr := hrel (s, e) (List.mem_cons_self ..) hc
          have : ¬ a ≤ time e := fun h => hskip ⟨hr, h⟩
          simp [this]
      have hcount : chargedIn time charge a b (visits step s (e :: es)) =
          chargedIn time charge a b (visits step (step s e) es) := by
        simp only [chargedIn, visits_cons, List.countP_cons, hch]
        simp
      rw [hcount]
      refine ih (P.inv_step s e hs) ?_ (fun x hx => hrel x (List.mem_cons_of_mem _ hx))
        (fun x hx => hpays x (List.mem_cons_of_mem _ hx))
      cases hre : P.relevant e with
      | false => simpa [List.filter_cons, hre] using hsort
      | true =>
        simp only [List.filter_cons, hre, if_true] at hsort
        exact (List.pairwise_cons.mp hsort).2

end Bound

end Potential

end OasRs.Lib
