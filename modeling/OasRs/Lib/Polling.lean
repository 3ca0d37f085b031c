import Mathlib.Tactic.Common

/-!
# Polled Computations

Machines that are polled until they give a value, and the futures of asynchronous code.

## Overview

- `drive`: poll a machine up to a number of times
- `Simulates.drive_eq`: machines in a simulation give the same value after as many polls
- `Future`: a machine with one value, `Future.map` and `Future.bind`
- `Future.Gives`: the value that a future gives when it is awaited
- `Traced`: a future with events, `Traced.run`
-/

namespace OasRs.Lib.Polling

/-! ## Machines -/

section Machines

variable {σ τ α : Type*}

/-- Poll a machine up to `n` times, until it gives a value. -/
def drive (poll : σ → Option α × σ) : ℕ → σ → Option α
  | 0, _ => none
  | n + 1, s =>
    match poll s with
    | (some value, _) => some value
    | (none, rest) => drive poll n rest

/-- A relation between machines that give the same, and that polls keep as long as nothing
    is given. -/
def Simulates (poll : σ → Option α × σ) (poll' : τ → Option α × τ) (R : σ → τ → Prop) : Prop :=
  ∀ s t, R s t → (poll s).1 = (poll' t).1 ∧ ((poll s).1 = none → R (poll s).2 (poll' t).2)

/-- Machines in a simulation give the same value after the same number of polls. -/
theorem Simulates.drive_eq {poll : σ → Option α × σ} {poll' : τ → Option α × τ} {R : σ → τ → Prop}
    (h : Simulates poll poll' R) {s : σ} {t : τ} (hst : R s t) (n : ℕ) :
    drive poll n s = drive poll' n t := by
  induction n generalizing s t with
  | zero => rfl
  | succ n ih =>
    obtain ⟨hvalue, hrest⟩ := h s t hst
    rw [drive, drive]
    -- the value is compared first, what is left only matters without one
    cases hs : poll s with
    | mk value rest =>
      cases ht : poll' t with
      | mk value' rest' =>
        simp only [hs, ht] at hvalue hrest
        subst hvalue
        cases value with
        | some value => rfl
        | none => exact ih (hrest rfl)

end Machines

/-! ## Futures -/

variable {α β : Type}

/-- A future: the value, or what is left after a poll. -/
inductive Future (α : Type) where
  | ready (value : α)
  | pending (rest : Future α)
  /-- pending for ever -/
  | never

namespace Future

/-- `Future::poll` -/
def poll : Future α → Option α × Future α
  | ready value => (some value, ready value)
  | pending rest => (none, rest)
  | never => (none, never)

/-- The value after at most `n` polls. -/
def run (n : ℕ) (future : Future α) : Option α := drive poll n future

/-- Await a future and continue with another. -/
def bind : Future α → (α → Future β) → Future β
  | ready value, next => next value
  | pending rest, next => pending (rest.bind next)
  | never, _ => never

/-- Await a future and compute with the value. -/
def map (f : α → β) : Future α → Future β
  | ready value => ready (f value)
  | pending rest => pending (rest.map f)
  | never => never

@[simp] theorem poll_map (f : α → β) (future : Future α) :
    (future.map f).poll = (future.poll.1.map f, future.poll.2.map f) := by
  cases future with
  | ready value => rfl
  | pending rest => rfl
  | never => rfl

/-- Computing with the value takes no further poll. -/
theorem run_map (f : α → β) (n : ℕ) (future : Future α) :
    (future.map f).run n = (future.run n).map f := by
  induction n generalizing future with
  | zero => rfl
  | succ n ih =>
    rw [run, run, drive, drive, poll_map]
    cases future with
    | ready value => rfl
    | pending rest => exact ih rest
    | never => exact ih never

theorem run_never (n : ℕ) : (never : Future α).run n = none := by
  induction n with
  | zero => rfl
  | succ n ih => exact ih

/-- Awaited for long enough, a future gives a value. -/
def Gives (future : Future α) (value : α) : Prop := ∃ n, future.run n = some value

@[simp] theorem gives_ready {value value' : α} : (ready value).Gives value' ↔ value = value' := by
  constructor
  · intro h
    obtain ⟨n, hn⟩ := h
    cases n with
    | zero => cases hn
    | succ n => exact Option.some.inj hn
  · intro h
    exact ⟨1, congrArg some h⟩

@[simp] theorem gives_pending {rest : Future α} {value : α} :
    (pending rest).Gives value ↔ rest.Gives value := by
  constructor
  · intro h
    obtain ⟨n, hn⟩ := h
    cases n with
    | zero => cases hn
    | succ n => exact ⟨n, hn⟩
  · intro h
    obtain ⟨n, hn⟩ := h
    exact ⟨n + 1, hn⟩

@[simp] theorem not_gives_never {value : α} : ¬ (never : Future α).Gives value := by
  intro h
  obtain ⟨n, hn⟩ := h
  induction n with
  | zero => cases hn
  | succ n ih => exact ih hn

/-- Computing with the value of a future. -/
theorem gives_map {f : α → β} {future : Future α} {result : β} :
    (future.map f).Gives result ↔ ∃ value, future.Gives value ∧ f value = result := by
  simp only [Gives, run_map, Option.map_eq_some_iff]
  constructor
  · intro h
    obtain ⟨n, value, hvalue, hresult⟩ := h
    exact ⟨value, ⟨n, hvalue⟩, hresult⟩
  · intro h
    obtain ⟨value, ⟨n, hvalue⟩, hresult⟩ := h
    exact ⟨n, value, hvalue, hresult⟩

/-- A future gives at most one value. -/
theorem Gives.unique {future : Future α} {value value' : α} (h : future.Gives value)
    (h' : future.Gives value') : value = value' := by
  induction future with
  | ready value => exact (gives_ready.mp h).symm.trans (gives_ready.mp h')
  | pending rest ih => exact ih (gives_pending.mp h) (gives_pending.mp h')
  | never => exact absurd h not_gives_never

/-- Awaiting two futures in turn. -/
theorem gives_bind {future : Future α} {next : α → Future β} {result : β} :
    (future.bind next).Gives result ↔ ∃ value, future.Gives value ∧ (next value).Gives result := by
  induction future with
  | ready value => simp [bind]
  | pending rest ih => simp [bind, ih]
  | never => simp [bind]

/-- If the first value is known, the second future decides. -/
theorem Gives.bind {future : Future α} {value : α} (h : future.Gives value)
    (next : α → Future β) (result : β) :
    (future.bind next).Gives result ↔ (next value).Gives result := by
  rw [gives_bind]
  constructor
  · intro hgives
    obtain ⟨value', hvalue', hresult⟩ := hgives
    rwa [h.unique hvalue']
  · intro hresult
    exact ⟨value, h, hresult⟩

end Future

/-! ## Futures with events -/

/-- A future that lets something be seen while it is polled. -/
inductive Traced (ε α : Type) where
  | ready (value : α)
  | pending (rest : Traced ε α)
  /-- pending for ever -/
  | never
  /-- an event, in the course of the current poll -/
  | event (event : ε) (rest : Traced ε α)

namespace Traced

variable {ε : Type}

/-- The events in at most `n` polls, and the value. -/
def run : Traced ε α → ℕ → List ε × Option α
  | _, 0 => ([], none)
  | ready value, _ + 1 => ([], some value)
  | pending rest, n + 1 => rest.run n
  | never, _ + 1 => ([], none)
  | event e rest, n + 1 => ((e :: (rest.run (n + 1)).1), (rest.run (n + 1)).2)

/-- Await a future and continue with another. -/
def bind : Traced ε α → (α → Traced ε β) → Traced ε β
  | ready value, next => next value
  | pending rest, next => pending (rest.bind next)
  | never, _ => never
  | event e rest, next => event e (rest.bind next)

/-- A future without events. -/
def ofFuture : Future α → Traced ε α
  | .ready value => ready value
  | .pending rest => pending (ofFuture rest)
  | .never => never

/-- What comes after a future matters only for the values that it can give. -/
theorem bind_congr {future : Future α} {next next' : α → Traced ε β}
    (h : ∀ value, future.Gives value → next value = next' value) :
    (ofFuture future : Traced ε α).bind next = (ofFuture future).bind next' := by
  induction future with
  | ready value => exact h value (Future.gives_ready.mpr rfl)
  | pending rest ih =>
    rw [ofFuture, bind, bind, ih]
    intro value hvalue
    exact h value (Future.gives_pending.mpr hvalue)
  | never => rfl

/-- Nothing is seen of a future without events, and it gives its value. -/
theorem run_ofFuture (future : Future α) (n : ℕ) :
    (ofFuture future : Traced ε α).run n = ([], future.run n) := by
  induction n generalizing future with
  | zero => cases future <;> rfl
  | succ n ih =>
    cases future with
    | ready value => rfl
    | pending rest => exact ih rest
    | never =>
      rw [Future.run_never]
      rfl

end Traced

end OasRs.Lib.Polling
