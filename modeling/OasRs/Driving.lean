import OasRs.Activity
import OasRs.Lib.Machine

/-!
# Driving HTTP/2 Connections

The loop of `drive_h2` in `src/runtime.rs`, over everything that can happen on its connection. The
loop looks at the connection each time its ticker fires, and the task of the connection runs within
a latency of the time when it is due.

## Main results

- `cut_only`: when a connection is dropped, and when it is asked to finish
- `ends_in_time`: how long a connection can be idle, closing or stalled
-/

namespace OasRs.Http2

open Lib

/-- The settings of the loop; the latency is the scheduler's. -/
structure Limits where
  idle : Option ℕ
  stall : Option ℕ
  latency : ℕ

/-- How the loop ends. -/
inductive Outcome where
  /-- the connection is over -/
  | ended
  /-- the loop returns, and the connection is dropped -/
  | cut
  deriving DecidableEq

/-- The loop, its connection and the time of the next tick. -/
structure Driver where
  limits : Limits
  connection : Connection
  closing : Option ℕ
  nextTick : ℕ
  outcome : Option Outcome

/-- What can happen. -/
inductive Happening where
  /-- time passes -/
  | tick (ms : ℕ)
  /-- something happens on the connection -/
  | connection (event : Event)
  /-- `stop.changed()` -/
  | stop
  /-- `ticker.tick()` -/
  | look
  /-- the future of the connection is ready -/
  | ended

/-- Whether an event is neither the time nor the watchdog. -/
def Event.isOwn : Event → Bool
  | .tick _ | .watch => false
  | _ => true

/-- The period of the ticker -/
def tickPeriod : ℕ := 250

/-- When the tick after one that was due is: `tokio` counts from the due time unless the tick comes
    more than 5 ms late (`MissedTickBehavior::Delay`). -/
def tickAfter (due now : ℕ) : ℕ := if now ≤ due + 5 then due + tickPeriod else now + tickPeriod

theorem tickAfter_bounds {due now : ℕ} (h : due ≤ now) :
    now ≤ tickAfter due now ∧ tickAfter due now ≤ now + tickPeriod := by
  unfold tickAfter tickPeriod
  split <;> omega

namespace Driver

/-- The loop when it begins; the first tick is due at once. -/
def new (limits : Limits) : Driver where
  limits
  connection := .new
  closing := none
  nextTick := 0
  outcome := none

/-- A tick of the loop. -/
def look (driver : Driver) (connection : Connection) : Driver :=
  match tickH2 driver.connection driver.limits.stall driver.limits.idle driver.closing with
  | .goOn => { driver with connection, nextTick := tickAfter driver.nextTick connection.clock }
  | .close =>
    { driver with
      connection, closing := some connection.clock
      nextTick := tickAfter driver.nextTick connection.clock }
  | .cut => { driver with connection, outcome := some .cut }

/-- One thing that happens while the loop runs, or nothing where it cannot happen. -/
def step (driver : Driver) (happening : Happening) : Option Driver :=
  if driver.outcome.isSome then none
  else
    match happening with
    | .tick ms =>
      if driver.connection.clock + ms ≤ driver.nextTick + driver.limits.latency then
        (driver.connection.step (.tick ms)).map fun connection => { driver with connection }
      else none
    | .connection event =>
      if event.isOwn then
        (driver.connection.step event).map fun connection => { driver with connection }
      else none
    | .stop =>
      if driver.closing.isNone then some { driver with closing := some driver.connection.clock }
      else none
    | .look =>
      if driver.nextTick ≤ driver.connection.clock then
        (driver.connection.step .watch).map driver.look
      else none
    | .ended => some { driver with outcome := some .ended }

/-- What a step can do. -/
inductive Step (driver : Driver) : Happening → Driver → Prop where
  | tick (ms : ℕ) (connection : Connection)
      (hdue : driver.connection.clock + ms ≤ driver.nextTick + driver.limits.latency)
      (h : driver.connection.step (.tick ms) = some connection) :
      driver.Step (.tick ms) { driver with connection }
  | connection (event : Event) (connection : Connection) (hown : event.isOwn = true)
      (h : driver.connection.step event = some connection) :
      driver.Step (.connection event) { driver with connection }
  | stop (h : driver.closing = none) :
      driver.Step .stop { driver with closing := some driver.connection.clock }
  | look (connection : Connection) (hdue : driver.nextTick ≤ driver.connection.clock)
      (h : driver.connection.step .watch = some connection) :
      driver.Step .look (driver.look connection)
  | ended : driver.Step .ended { driver with outcome := some .ended }

theorem step_cases {driver driver' : Driver} {happening : Happening}
    (h : driver.step happening = some driver') :
    driver.outcome = none ∧ driver.Step happening driver' := by
  unfold step at h
  split at h
  · cases h
  · refine ⟨Option.not_isSome_iff_eq_none.mp ‹_›, ?_⟩
    cases happening with
    | tick ms =>
      simp only [Option.ite_none_right_eq_some, Option.map_eq_some_iff] at h
      obtain ⟨hdue, connection, hconnection, rfl⟩ := h
      exact .tick ms connection hdue hconnection
    | connection event =>
      simp only [Option.ite_none_right_eq_some, Option.map_eq_some_iff] at h
      obtain ⟨hown, connection, hconnection, rfl⟩ := h
      exact .connection event connection hown hconnection
    | stop =>
      simp only [Option.ite_none_right_eq_some, Option.some.injEq, Option.isNone_iff_eq_none] at h
      obtain ⟨hnone, rfl⟩ := h
      exact .stop hnone
    | look =>
      simp only [Option.ite_none_right_eq_some, Option.map_eq_some_iff] at h
      obtain ⟨hdue, connection, hconnection, rfl⟩ := h
      exact .look connection hdue hconnection
    | ended =>
      cases h
      exact .ended

end Driver

/-- The loop with these settings, on every connection. -/
def driving (limits : Limits) : Machine Driver Happening where
  init := .new limits
  step := Driver.step

/-- What happens on the connection. -/
def Happening.events : Happening → List Event
  | .tick ms => [.tick ms]
  | .connection event => [event]
  | .look => [.watch]
  | .stop | .ended => []

/-- The ledger of a run of the loop. -/
def ledgerOf (happenings : List Happening) : Ledger := .run (happenings.flatMap Happening.events)

theorem ledgerOf_concat (happenings : List Happening) (happening : Happening) :
    ledgerOf (happenings ++ [happening]) =
      happening.events.foldl Ledger.step (ledgerOf happenings) := by
  rw [ledgerOf, ledgerOf, Ledger.run, Ledger.run, List.flatMap_append, List.foldl_append,
    List.flatMap_singleton]

/-! ## Ledgers and their requests -/

section Ledgers

variable {connection connection' : Connection} {ledger : Ledger} {event : Event}

/-- A body that waits was waiting before, or waits since now. -/
theorem waiting_step {since : ℕ} (hown : event.isOwn = true)
    (h : .waiting since ∈ (ledger.step event).lives) :
    .waiting since ∈ ledger.lives ∨ since = ledger.clock := by
  have hset : ∀ {i : ℕ} {life : Life}, .waiting since ∈ ledger.lives.set i life →
      .waiting since ∈ ledger.lives ∨ .waiting since = life := List.mem_or_eq_of_mem_set
  cases event with
  | tick | watch => cases hown
  | progress => exact .inl h
  | start =>
    rcases List.mem_append.mp h with hold | hnew
    · exact .inl hold
    · cases List.mem_singleton.mp hnew
  | finish i response =>
    cases houtlives : outlives response.body with
    | true =>
      simp only [Ledger.step, houtlives, if_true] at h
      exact (hset h).imp_right nofun
    | false =>
      simp only [Ledger.step, houtlives, Bool.false_eq_true, if_false] at h
      exact (hset h).imp_right nofun
  | poll i answer =>
    cases answer with
    | chunk bytes =>
      apply (hset h).imp_right
      intro heq
      cases heq
      rfl
    | pending | ended => exact (hset h).imp_right nofun
  | drop i => exact (hset h).imp_right nofun

/-- The time of the last progress does not go back, and it is never in the future. -/
theorem lastMs_step (h : connection.step event = some connection') :
    connection.activity.lastMs ≤ connection'.activity.lastMs ∧
      connection'.activity.lastMs ≤ max connection.activity.lastMs connection.clock := by
  have hsame : connection.activity.lastMs ≤ connection.activity.lastMs ∧
      connection.activity.lastMs ≤ max connection.activity.lastMs connection.clock :=
    ⟨Nat.le_refl _, Nat.le_max_left _ _⟩
  have htouched : connection.activity.lastMs ≤ max connection.activity.lastMs connection.clock ∧
      max connection.activity.lastMs connection.clock ≤
        max connection.activity.lastMs connection.clock :=
    ⟨Nat.le_max_left _ _, Nat.le_refl _⟩
  cases event with
  | tick ms | start | watch =>
    cases h
    exact hsame
  | progress =>
    cases h
    exact htouched
  | finish i response =>
    obtain ⟨_, ⟨_, source, rfl⟩ | ⟨_, rfl⟩⟩ := finish_inv h
    · exact hsame
    · exact htouched
  | poll i answer =>
    obtain ⟨source, source', _, rfl⟩ := poll_inv h
    cases answer <;> exact hsame
  | drop i =>
    rcases drop_inv h with ⟨_, rfl⟩ | ⟨source, _, rfl⟩ <;> exact htouched

theorem clock_step (hown : event.isOwn = true) (h : connection.step event = some connection') :
    connection'.clock = connection.clock := by
  cases event with
  | tick | watch => cases hown
  | start | progress =>
    cases h
    rfl
  | finish i response =>
    obtain ⟨_, ⟨_, source, rfl⟩ | ⟨_, rfl⟩⟩ := finish_inv h <;> rfl
  | poll i answer =>
    obtain ⟨source, source', _, rfl⟩ := poll_inv h
    rfl
  | drop i =>
    rcases drop_inv h with ⟨_, rfl⟩ | ⟨source, _, rfl⟩ <;> rfl

/-- Where no request is left, none was, or the last one ends now. -/
theorem live_step (htracks : Tracks ledger connection) (hown : event.isOwn = true)
    (h : connection.step event = some connection') (hlive : (ledger.step event).live = 0) :
    ledger.live = 0 ∨ connection.clock ≤ connection'.activity.lastMs := by
  have hbefore := htracks.inFlight
  have hafter := (htracks.step h).inFlight
  rw [hlive] at hafter
  -- each end of a request is stamped before it is counted
  have hcases : connection.activity.inFlight ≤ connection'.activity.inFlight ∨
      connection.clock ≤ connection'.activity.lastMs := by
    cases event with
    | tick | watch => cases hown
    | start =>
      cases h
      left
      show connection.activity.inFlight ≤ connection.activity.inFlight + 1
      omega
    | progress =>
      cases h
      exact .inr (Nat.le_max_right _ _)
    | finish i response =>
      obtain ⟨_, ⟨_, source, rfl⟩ | ⟨_, rfl⟩⟩ := finish_inv h
      · exact .inl le_rfl
      · exact .inr (Nat.le_max_right _ _)
    | poll i answer =>
      obtain ⟨source, source', _, rfl⟩ := poll_inv h
      cases answer <;> exact .inl le_rfl
    | drop i =>
      rcases drop_inv h with ⟨_, rfl⟩ | ⟨source, _, rfl⟩ <;> exact .inr (Nat.le_max_right _ _)
  rcases hcases with hle | hstamped
  · left
    omega
  · exact .inr hstamped

end Ledgers

/-! ## What the loop keeps -/

/-- Nothing has been idle, closing or stalled for long when the loop looks next. -/
structure Timely (ledger : Ledger) (driver : Driver) : Prop where
  past : driver.connection.activity.lastMs ≤ driver.connection.clock
  due : driver.nextTick ≤ driver.connection.clock + tickPeriod
  onTime : driver.connection.clock ≤ driver.nextTick + driver.limits.latency
  stalled : ∀ limit ∈ driver.limits.stall, ∀ since, .waiting since ∈ ledger.lives →
    driver.nextTick ≤ since + limit + tickPeriod
  idle : driver.closing = none → ∀ limit ∈ driver.limits.idle, ledger.live = 0 →
    driver.nextTick ≤ driver.connection.activity.lastMs + limit + tickPeriod
  closing : ∀ since ∈ driver.closing, ledger.live = 0 →
    driver.nextTick ≤ max since driver.connection.activity.lastMs + h2ShutdownGrace + tickPeriod

/-- What lets the loop drop a connection: a stalled body, or silence while it is closing. -/
def Abandoned (ledger : Ledger) (driver : Driver) : Prop :=
  (∃ limit ∈ driver.limits.stall, ∃ ms ∈ ledger.waits, limit ≤ ms) ∨
    ledger.live = 0 ∧ ledger.lastEnd + h2ShutdownGrace ≤ ledger.clock ∧
      ∃ since ∈ driver.closing, since + h2ShutdownGrace ≤ ledger.clock

variable {driver driver' : Driver} {ledger : Ledger} {happening : Happening}

theorem timely_new (limits : Limits) : Timely .new (.new limits) where
  past := Nat.zero_le _
  due := Nat.zero_le _
  onTime := Nat.zero_le _
  stalled := nofun
  idle := by
    intro _ limit _ _
    exact Nat.zero_le _
  closing := nofun

/-- What a tick reads of a connection, in terms of its requests. -/
theorem overdue_iff (htracks : Tracks ledger driver.connection) :
    overdue driver.limits.stall (driver.connection.activity.stalledFor driver.connection.clock).1 =
        true ↔ ∃ limit ∈ driver.limits.stall, ∃ ms ∈ ledger.waits, limit ≤ ms := by
  constructor
  · intro hoverdue
    unfold overdue at hoverdue
    split at hoverdue
    · rename_i limit stalled hstall hread
      have hgreatest := (htracks.stalledFor_some stalled).mp hread
      exact ⟨limit, hstall, stalled, hgreatest.1, of_decide_eq_true hoverdue⟩
    · cases hoverdue
  · rintro ⟨limit, hstall, ms, hms, hle⟩
    cases hread : (driver.connection.activity.stalledFor driver.connection.clock).1 with
    | none =>
      rw [htracks.stalledFor_none.mp hread] at hms
      exact absurd hms (Set.notMem_empty ms)
    | some stalled =>
      have hgreatest := (htracks.stalledFor_some stalled).mp hread
      rw [Option.mem_def] at hstall
      rw [hstall]
      exact decide_eq_true (hle.trans (hgreatest.2 hms))

/-- No body has been waiting for the whole limit. -/
def NotStalled (ledger : Ledger) (driver : Driver) : Prop :=
  ∀ limit ∈ driver.limits.stall, ∀ since, .waiting since ∈ ledger.lives →
    driver.connection.clock < since + limit

theorem notStalled_of_overdue (htracks : Tracks ledger driver.connection)
    (h : overdue driver.limits.stall
      (driver.connection.activity.stalledFor driver.connection.clock).1 ≠ true) :
    NotStalled ledger driver := by
  intro limit hlimit since hwaiting
  by_contra hlate
  refine h ((overdue_iff htracks).mpr ⟨limit, hlimit, _, ⟨since, hwaiting, rfl⟩, ?_⟩)
  rw [htracks.clock]
  omega

/-- Whether and for how long the connection is idle. -/
theorem idleFor_cases (htracks : Tracks ledger driver.connection) :
    (0 < ledger.live ∧ driver.connection.activity.idleFor driver.connection.clock = none) ∨
      (ledger.live = 0 ∧ driver.connection.activity.idleFor driver.connection.clock =
        some (driver.connection.clock - driver.connection.activity.lastMs)) := by
  rcases Nat.eq_zero_or_pos ledger.live with hnone | hlive
  · right
    refine ⟨hnone, ?_⟩
    have hinFlight : driver.connection.activity.inFlight = 0 := by
      rw [htracks.inFlight, hnone]
      rfl
    rw [Activity.idleFor, if_pos hinFlight]
  · exact .inl ⟨hlive, htracks.idleFor_none.mpr hlive⟩

/-- What the loop has seen when it does not drop the connection. -/
structure Unhurried (ledger : Ledger) (driver : Driver) : Prop where
  stalled : NotStalled ledger driver
  idle : driver.closing = none → ∀ limit ∈ driver.limits.idle, ledger.live = 0 →
    driver.connection.clock < driver.connection.activity.lastMs + limit
  closing : ∀ since ∈ driver.closing, ledger.live = 0 →
    driver.connection.clock < max since driver.connection.activity.lastMs + h2ShutdownGrace

/-- What lets the loop ask the connection to finish, besides the shutdown. -/
def Idle (limits : Limits) (ledger : Ledger) : Prop :=
  ledger.live = 0 ∧ ∃ limit ∈ limits.idle, ledger.lastEnd + limit ≤ ledger.clock

theorem tickH2_cases (htracks : Tracks ledger driver.connection)
    (hpast : driver.connection.activity.lastMs ≤ driver.connection.clock) :
    (tickH2 driver.connection driver.limits.stall driver.limits.idle driver.closing = .cut ∧
        Abandoned ledger driver) ∨
      (tickH2 driver.connection driver.limits.stall driver.limits.idle driver.closing = .close ∧
        driver.closing = none ∧ Idle driver.limits ledger ∧ NotStalled ledger driver) ∨
      (tickH2 driver.connection driver.limits.stall driver.limits.idle driver.closing = .goOn ∧
        Unhurried ledger driver) := by
  have hclock := htracks.clock
  have hlastEnd := htracks.lastEnd
  have hgrace : 0 < h2ShutdownGrace := Nat.zero_lt_succ _
  by_cases hoverdue : overdue driver.limits.stall
    (driver.connection.activity.stalledFor driver.connection.clock).1 = true
  -- a stalled body comes first: the connection is cut
  · left
    unfold tickH2
    rw [if_pos hoverdue]
    exact ⟨rfl, .inl ((overdue_iff htracks).mp hoverdue)⟩
  · have hstalled := notStalled_of_overdue htracks hoverdue
    unfold tickH2
    rw [if_neg hoverdue]
    rcases idleFor_cases htracks with ⟨hlive, hidle⟩ | ⟨hnone, hidle⟩
    · -- with a request in flight the loop goes on
      right; right
      rw [hidle]
      refine ⟨by cases driver.closing <;> rfl, hstalled, ?_, ?_⟩
      · intro _ limit _ hnone
        omega
      · intro since _ hnone
        omega
    · rw [hidle]
      cases hclosing : driver.closing with
      -- closing already: it is cut when it was silent for the grace period
      | some since =>
        dsimp only
        split
        · rename_i hgone
          left
          have hsilent : ledger.lastEnd + h2ShutdownGrace ≤ ledger.clock := by omega
          have hwaited : since + h2ShutdownGrace ≤ ledger.clock := by omega
          exact ⟨rfl, .inr ⟨hnone, hsilent, since, hclosing, hwaited⟩⟩
        · right; right
          refine ⟨rfl, hstalled, ?_, ?_⟩
          · intro hopen
            rw [hclosing] at hopen
            cases hopen
          · intro since' hsince _
            rw [hclosing] at hsince
            cases hsince
            omega
      -- not closing: it is asked to finish when it was idle for the limit
      | none =>
        dsimp only
        split
        · rename_i hany
          obtain ⟨limit, hlimit, hle⟩ := (Option.any_eq_true _ _).mp hany
          have hle := of_decide_eq_true hle
          right; left
          exact ⟨rfl, rfl, ⟨hnone, limit, hlimit, by omega⟩, hstalled⟩
        · right; right
          refine ⟨rfl, hstalled, ?_, ?_⟩
          · intro _ limit hlimit _
            by_contra hlate
            refine ‹¬ _› ((Option.any_eq_true _ _).mpr ⟨limit, hlimit, decide_eq_true ?_⟩)
            omega
          · intro since hsince
            rw [hclosing] at hsince
            cases hsince

/-- The ledger after a step of the loop. -/
def Happening.account (happening : Happening) (ledger : Ledger) : Ledger :=
  happening.events.foldl Ledger.step ledger

theorem tracks_step (htracks : Tracks ledger driver.connection) (h : driver.Step happening driver') :
    Tracks (happening.account ledger) driver'.connection := by
  cases h with
  | tick ms connection hdue h => exact htracks.step h
  | connection event connection hown h => exact htracks.step h
  | stop | ended => exact htracks
  | look connection hdue h =>
    have hconnection : (driver.look connection).connection = connection := by
      unfold Driver.look
      split <;> rfl
    rw [hconnection]
    exact htracks.step h

/-- Where the loop goes on after a tick. -/
theorem timely_look {connection : Connection} (hs : Timely ledger driver)
    (htracks : Tracks ledger driver.connection)
    (hdue : driver.nextTick ≤ driver.connection.clock)
    (h : driver.connection.step .watch = some connection)
    (hrunning : (driver.look connection).outcome = none) :
    Timely ledger (driver.look connection) := by
  cases h
  have hgrace : 0 < h2ShutdownGrace := Nat.zero_lt_succ _
  obtain ⟨hafter, hnext⟩ := tickAfter_bounds hdue
  unfold Driver.look at hrunning ⊢
  rcases tickH2_cases htracks hs.past with ⟨hverdict, _⟩ | ⟨hverdict, _, hidle, hstalled⟩ |
    ⟨hverdict, hunhurried⟩
  -- a connection that is cut does not run any more
  · rw [hverdict] at hrunning
    cases hrunning
  · -- the loop asks the connection to finish, and is closing since now
    rw [hverdict]
    constructor
    · exact hs.past
    · exact hnext
    · exact hafter.trans (Nat.le_add_right _ _)
    · intro limit hlimit since hwaiting
      have hlate := hstalled limit hlimit since hwaiting
      show tickAfter driver.nextTick driver.connection.clock ≤ _
      omega
    · exact nofun
    · intro since hsince _
      cases hsince
      show tickAfter driver.nextTick driver.connection.clock ≤
        max driver.connection.clock _ + h2ShutdownGrace + tickPeriod
      omega
  -- the loop goes on: nothing was due at this tick, and the next is a period away at most
  · rw [hverdict]
    constructor
    · exact hs.past
    · exact hnext
    · exact hafter.trans (Nat.le_add_right _ _)
    · intro limit hlimit since hwaiting
      have hlate := hunhurried.stalled limit hlimit since hwaiting
      show tickAfter driver.nextTick driver.connection.clock ≤ _
      omega
    · intro hopen limit hlimit hnone
      have hidle := hunhurried.idle hopen limit hlimit hnone
      show tickAfter driver.nextTick driver.connection.clock ≤
        driver.connection.activity.lastMs + limit + tickPeriod
      omega
    · intro since hsince hnone
      have hclosing := hunhurried.closing since hsince hnone
      show tickAfter driver.nextTick driver.connection.clock ≤
        max since driver.connection.activity.lastMs + h2ShutdownGrace + tickPeriod
      omega

theorem timely_step (hs : Timely ledger driver) (htracks : Tracks ledger driver.connection)
    (h : driver.Step happening driver') (hrunning : driver'.outcome = none) :
    Timely (happening.account ledger) driver' := by
  cases h with
  -- time passes, but not beyond the tick and the latency
  | tick ms connection hdue h =>
    cases h
    constructor
    · exact hs.past.trans (Nat.le_add_right _ _)
    · exact hs.due.trans (Nat.add_le_add_right (Nat.le_add_right _ _) _)
    · exact hdue
    · exact hs.stalled
    · exact hs.idle
    · exact hs.closing
  | connection event connection hown h =>
    -- what the connection does itself takes no time, and only stamps its activity
    have hclock := clock_step hown h
    have hlast := lastMs_step h
    have hpast := hs.past
    have hdue := hs.due
    constructor
    · show connection.activity.lastMs ≤ connection.clock
      omega
    · show driver.nextTick ≤ connection.clock + tickPeriod
      rw [hclock]
      exact hdue
    · show connection.clock ≤ driver.nextTick + driver.limits.latency
      rw [hclock]
      exact hs.onTime
    · intro limit hlimit since hwaiting
      rcases waiting_step hown hwaiting with hold | rfl
      · exact hs.stalled limit hlimit since hold
      · -- a chunk that was just handed out
        rw [htracks.clock]
        show driver.nextTick ≤ _
        omega
    · intro hopen limit hlimit hnone
      show driver.nextTick ≤ connection.activity.lastMs + limit + tickPeriod
      rcases live_step htracks hown h hnone with hbefore | hstamped
      · have hidle := hs.idle hopen limit hlimit hbefore
        omega
      · omega
    · intro since hsince hnone
      show driver.nextTick ≤ max since connection.activity.lastMs + h2ShutdownGrace + tickPeriod
      rcases live_step htracks hown h hnone with hbefore | hstamped
      · have hclosing := hs.closing since hsince hbefore
        omega
      · omega
  -- asked to finish by the shutdown, at this moment
  | stop h =>
    have hdue := hs.due
    constructor
    · exact hs.past
    · exact hs.due
    · exact hs.onTime
    · exact hs.stalled
    · exact nofun
    · intro since hsince _
      cases hsince
      show driver.nextTick ≤ _
      omega
  | look connection hdue h => exact timely_look hs htracks hdue h hrunning
  | ended => cases hrunning

/-! ## Runs of the loop -/

/-- The loop is asked to finish the connection by the shutdown, or by its own look at it. -/
def Asked (limits : Limits) (happenings : List Happening) : Prop :=
  .stop ∈ happenings ∨ ∃ before, before ++ [.look] <+: happenings ∧ Idle limits (ledgerOf before)

theorem Asked.append {limits : Limits} {happenings : List Happening} (h : Asked limits happenings)
    (happening : Happening) : Asked limits (happenings ++ [happening]) := by
  rcases h with hstop | ⟨before, hbefore, hidle⟩
  · exact .inl (List.mem_append_left _ hstop)
  · exact .inr ⟨before, hbefore.trans (List.prefix_append _ _), hidle⟩

/-- What is so after a run of the loop. -/
structure Accounts (limits : Limits) (happenings : List Happening) (driver : Driver) : Prop where
  settings : driver.limits = limits
  tracks : Tracks (ledgerOf happenings) driver.connection
  running : driver.outcome = none → Timely (ledgerOf happenings) driver
  cut : driver.outcome = some .cut → Abandoned (ledgerOf happenings) driver
  asked : driver.closing.isSome = true → Asked limits happenings

theorem limits_step (h : driver.Step happening driver') : driver'.limits = driver.limits := by
  cases h with
  | look connection =>
    unfold Driver.look
    split <;> rfl
  | _ => rfl

theorem accounts_new (limits : Limits) : Accounts limits [] (.new limits) where
  settings := rfl
  tracks := .new
  running := fun _ => timely_new limits
  cut := nofun
  asked := nofun

/-- A tick that drops the connection, or that asks it to finish. -/
theorem accounts_look {limits : Limits} {happenings : List Happening} {connection : Connection}
    (hs : Accounts limits happenings driver) (hrunning : driver.outcome = none) :
    ((driver.look connection).outcome = some .cut →
        Abandoned (ledgerOf happenings) (driver.look connection)) ∧
      ((driver.look connection).closing.isSome = true → Asked limits (happenings ++ [.look])) := by
  unfold Driver.look
  rcases tickH2_cases hs.tracks (hs.running hrunning).past with ⟨hverdict, habandoned⟩ |
    ⟨hverdict, _, hidle, _⟩ | ⟨hverdict, _⟩
  · rw [hverdict]
    exact ⟨fun _ => habandoned, fun hclosing => (hs.asked hclosing).append .look⟩
  · rw [hverdict]
    refine ⟨?_, ?_⟩
    · intro hcut
      rw [hrunning] at hcut
      cases hcut
    · intro _
      right
      rw [hs.settings] at hidle
      exact ⟨happenings, List.prefix_rfl, hidle⟩
  · rw [hverdict]
    refine ⟨?_, fun hclosing => (hs.asked hclosing).append .look⟩
    intro hcut
    rw [hrunning] at hcut
    cases hcut

theorem accounts_step {limits : Limits} {happenings : List Happening}
    (hs : Accounts limits happenings driver) (hrunning : driver.outcome = none)
    (h : driver.Step happening driver') : Accounts limits (happenings ++ [happening]) driver' := by
  have hledger := ledgerOf_concat happenings happening
  constructor
  · rw [limits_step h, hs.settings]
  · rw [hledger]
    exact tracks_step hs.tracks h
  · intro hrunning'
    rw [hledger]
    exact timely_step (hs.running hrunning) hs.tracks h hrunning'
  · intro hcut
    rw [hledger]
    cases h with
    | look connection => exact (accounts_look hs hrunning).1 hcut
    | ended => cases hcut
    | _ =>
      -- the loop goes on
      rw [hrunning] at hcut
      cases hcut
  · intro hclosing
    cases h with
    | look connection => exact (accounts_look hs hrunning).2 hclosing
    | stop => exact .inl (List.mem_append_right _ (List.mem_singleton_self _))
    | _ => exact (hs.asked hclosing).append _

theorem accounts_run {limits : Limits} {happenings : List Happening}
    (h : (driving limits).run happenings = some driver) : Accounts limits happenings driver := by
  apply Machine.runFrom_induction (P := Accounts limits) (accounts_new limits) ?_ h
  intro happenings driver happening driver' _ hs hstep
  obtain ⟨hrunning, hcases⟩ := Driver.step_cases hstep
  exact accounts_step hs hrunning hcases

/-- **The loop drops a connection only when it is stalled or silent.** In every run: the loop
returns by itself only if the body of a response has been waiting for the whole limit, or if no
request is in flight, none has been for the grace period, and the connection has been closing for
as long; and it asks a connection to finish only at the shutdown, or when no request is in flight
and none has been for the idle limit. -/
theorem cut_only {limits : Limits} {happenings : List Happening}
    (h : (driving limits).run happenings = some driver) :
    (driver.outcome = some .cut → Abandoned (ledgerOf happenings) driver) ∧
      (driver.closing.isSome = true → Asked limits happenings) :=
  ⟨(accounts_run h).cut, (accounts_run h).asked⟩

/-- A body that the client does not take: the loop returns when the limit has passed. -/
theorem cut_only_stalled :
    let limits : Limits := { idle := none, stall := some 500, latency := 10 }
    let response : Response := { status := 200, headers := .empty, body := .stream [] }
    let happenings : List Happening := [.connection .start, .connection (.finish 0 response),
      .connection (.poll 0 (.chunk [])), .look, .tick 250, .look, .tick 255, .look]
    ∃ driver, (driving limits).run happenings = some driver ∧ driver.outcome = some .cut ∧
      Abandoned (ledgerOf happenings) driver := by
  intro limits response happenings
  have hrun : ((driving limits).run happenings).map Driver.outcome = some (some .cut) := by
    decide +kernel
  obtain ⟨driver, h, hcut⟩ := Option.map_eq_some_iff.mp hrun
  exact ⟨driver, h, hcut, (cut_only h).1 hcut⟩

/-- **No connection is stalled, idle or closing for long.** In every run, while the loop goes on:
no body of a response waits for longer than its limit, no connection that was not asked to finish
is idle for longer than its limit, and none that was is silent for longer than the grace period,
up to the period of the ticker and the latency of the scheduler. -/
theorem ends_in_time {limits : Limits} {happenings : List Happening}
    (h : (driving limits).run happenings = some driver) (hrunning : driver.outcome = none) :
    (∀ limit ∈ limits.stall, ∀ ms ∈ (ledgerOf happenings).waits,
        ms ≤ limit + tickPeriod + limits.latency) ∧
      (driver.closing = none → ∀ limit ∈ limits.idle,
        ∀ ms ∈ driver.connection.activity.idleFor driver.connection.clock,
          ms ≤ limit + tickPeriod + limits.latency) ∧
      (∀ since ∈ driver.closing, ∀ ms ∈ driver.connection.activity.idleFor driver.connection.clock,
        min (driver.connection.clock - since) ms ≤
          h2ShutdownGrace + tickPeriod + limits.latency) := by
  have haccounts := accounts_run h
  obtain rfl := haccounts.settings
  have htimely := haccounts.running hrunning
  have honTime := htimely.onTime
  have hidleFor := idleFor_cases haccounts.tracks
  -- each limit was kept at the last tick, and the next one is due soon
  refine ⟨?_, ?_, ?_⟩
  · rintro limit hlimit ms ⟨since, hwaiting, rfl⟩
    have hstalled := htimely.stalled limit hlimit since hwaiting
    rw [haccounts.tracks.clock]
    omega
  · intro hopen limit hlimit ms hms
    rcases hidleFor with ⟨_, hidle⟩ | ⟨hnone, hidle⟩
    · rw [hidle] at hms
      cases hms
    · rw [hidle] at hms
      cases hms
      have hbound := htimely.idle hopen limit hlimit hnone
      omega
  · intro since hsince ms hms
    rcases hidleFor with ⟨_, hidle⟩ | ⟨hnone, hidle⟩
    · rw [hidle] at hms
      cases hms
    · rw [hidle] at hms
      cases hms
      have hbound := htimely.closing since hsince hnone
      omega

/-- A connection without requests, just before the loop asks it to finish. -/
theorem ends_in_time_idle :
    let limits : Limits := { idle := some 300, stall := none, latency := 10 }
    let happenings : List Happening := [.look, .tick 256, .look, .tick 260]
    ∃ driver, (driving limits).run happenings = some driver ∧ driver.closing = none ∧
      ∀ ms ∈ driver.connection.activity.idleFor driver.connection.clock, ms ≤ 300 + 250 + 10 := by
  intro limits happenings
  have hrun : ((driving limits).run happenings).map (fun driver => (driver.outcome, driver.closing)) =
      some (none, none) := by
    decide +kernel
  obtain ⟨driver, h, hnone⟩ := Option.map_eq_some_iff.mp hrun
  obtain ⟨hrunning, hopen⟩ := Prod.mk.inj hnone
  exact ⟨driver, h, hopen, (ends_in_time h hrunning).2.1 hopen 300 rfl⟩

end OasRs.Http2
