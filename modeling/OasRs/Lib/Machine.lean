import Mathlib.Data.List.Induction
import Mathlib.Tactic.Common

/-!
# Machines

State machines whose steps can be refused: an event that cannot happen in a state has no next
state. A run is a list of events that all happen, one after the other.

## Overview

- `Machine`, `Machine.run`, `Machine.Reachable`
- `Machine.runFrom_append`, `Machine.runFrom_concat`: runs in parts
- `Machine.runFrom_induction`: what holds of runs, by one event at the end
- `Machine.invariant`: what every step keeps holds in every reachable state
-/

namespace OasRs.Lib

/-- A state machine; `step s e` is `none` where the event cannot happen. -/
structure Machine (S E : Type*) where
  init : S
  step : S → E → Option S

namespace Machine

variable {S E : Type*} (m : Machine S E)

/-- Events from a state. -/
def runFrom (s : S) (events : List E) : Option S := events.foldlM m.step s

/-- Events from the initial state. -/
def run (events : List E) : Option S := m.runFrom m.init events

/-- A state at the end of some run. -/
def Reachable (s : S) : Prop := ∃ events, m.run events = some s

@[simp] theorem runFrom_nil (s : S) : m.runFrom s [] = some s := rfl

@[simp] theorem runFrom_cons (s : S) (e : E) (events : List E) :
    m.runFrom s (e :: events) = (m.step s e).bind fun s' => m.runFrom s' events := rfl

theorem runFrom_append (s : S) (as bs : List E) :
    m.runFrom s (as ++ bs) = (m.runFrom s as).bind fun s' => m.runFrom s' bs :=
  List.foldlM_append

/-- The last event of a run happens in a state that the run before it reaches. -/
theorem runFrom_concat {s₀ s' : S} {events : List E} {e : E} :
    m.runFrom s₀ (events ++ [e]) = some s' ↔
      ∃ s, m.runFrom s₀ events = some s ∧ m.step s e = some s' := by
  rw [runFrom_append, Option.bind_eq_some_iff]
  apply exists_congr
  intro s
  apply and_congr_right
  intro _
  rw [runFrom_cons, Option.bind_eq_some_iff]
  constructor
  · rintro ⟨s'', hstep, hnil⟩
    cases hnil
    exact hstep
  · intro hstep
    exact ⟨s', hstep, rfl⟩

variable {m}

/-- What holds at the start, and is kept by one more event, holds of every run from there. -/
theorem runFrom_induction {P : List E → S → Prop} {s₀ : S} (hinit : P [] s₀)
    (hstep : ∀ events s e s', m.runFrom s₀ events = some s → P events s → m.step s e = some s' →
      P (events ++ [e]) s') {events : List E} {s : S} (h : m.runFrom s₀ events = some s) :
    P events s := by
  -- on the run from its end: the last event is the one that the step is about
  induction events using List.reverseRecOn generalizing s with
  | nil =>
    cases h
    exact hinit
  | append_singleton events e ih =>
    obtain ⟨s₁, hrun, he⟩ := m.runFrom_concat.mp h
    exact hstep events s₁ e s hrun (ih hrun) he

/-- What every step keeps holds in every reachable state. -/
theorem invariant {P : S → Prop} (hinit : P m.init)
    (hstep : ∀ s e s', P s → m.step s e = some s' → P s') {s : S} (h : m.Reachable s) : P s := by
  obtain ⟨events, hrun⟩ := h
  apply runFrom_induction (P := fun _ s => P s) hinit ?_ hrun
  intro _ s e s' _ hs hse
  exact hstep s e s' hs hse

end Machine

end OasRs.Lib
