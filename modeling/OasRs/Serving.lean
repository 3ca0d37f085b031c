import OasRs.Lib.Machine
import OasRs.Number

/-!
# Serving Connections

`serve_runtime` of `src/runtime.rs` (and `serve_tls`, whose loop is the same): the accept loop with
its connection limit, and the shutdown. A slot of the limit is shared: the task of a connection,
the requests in flight and the WebSocket sessions that they opened all hold a reference, and the
slot is free again when the last of them is dropped. What the tasks of connections do is any
sequence of events. Time is in whole milliseconds, as it is for the timers of the language's
runtime, and the loop is run in time: no timer of its own that is due, and no signal that it waits
for, is passed over.

## Main results

- `slots_conserved`: no slot is lost or handed out twice
- `returns_in_time`: how long `serve_runtime` takes to return after the shutdown signal
- `cancelled_late`: when connections are cancelled
-/

namespace OasRs.Serving

open Lib

/-! ## Accept errors -/

/-- `io::ErrorKind`, as far as `classify_accept_error` tells kinds apart -/
inductive ErrorKind where
  | connectionAborted
  | connectionReset
  | interrupted
  | outOfMemory
  | other
  deriving DecidableEq, Repr

/-- `io::Error` -/
structure AcceptError where
  kind : ErrorKind
  rawOsError : Option ℕ
  deriving DecidableEq, Repr

/-- `AcceptAction` -/
inductive AcceptAction where
  /-- accept the next one right away -/
  | retry
  /-- wait for the process to recover -/
  | backoff
  /-- stop serving -/
  | fatal
  deriving DecidableEq, Repr

/-- `classify_accept_error`, on Unix: `EMFILE`, `ENFILE`, `ENOMEM` and `ENOBUFS` are waited for. -/
def classifyAcceptError (error : AcceptError) : AcceptAction :=
  match error.kind with
  | .connectionAborted | .connectionReset | .interrupted => .retry
  | .outOfMemory => .backoff
  | .other => if error.rawOsError.any [23, 24, 12, 105, 55].contains then .backoff else .fatal

/-! ## State -/

/-- `Semaphore::MAX_PERMITS` -/
def maxPermits : ℕ := usizeMax / 8

/-- The settings of `AppRuntime` that the loop reads. -/
structure Settings where
  maxConnections : Option ℕ
  shutdownTimeout : ℕ

/-- `connection_limit` -/
def Settings.limit (settings : Settings) : Option ℕ := settings.maxConnections.map (min · maxPermits)

/-- `ACCEPT_BACKOFF` -/
def acceptBackoff : ℕ := 100

/-- `ABORT_GRACE` -/
def abortGrace : ℕ := 1000

/-- The task of a connection in the `JoinSet`. -/
inductive Task where
  | running
  /-- cancelled, but it has not yielded since -/
  | aborted
  | ended
  deriving DecidableEq, Repr

/-- An accepted connection, with what holds references to its slot. -/
structure Connection where
  task : Task
  /-- the requests in flight; under HTTP/2 they are tasks of their own -/
  requests : ℕ
  /-- the WebSocket sessions that its requests opened -/
  sessions : ℕ
  deriving DecidableEq, Repr

/-- Whether anything of the connection is left. -/
def Connection.held (connection : Connection) : Bool :=
  connection.task != .ended || connection.requests != 0 || connection.sessions != 0

/-- `JoinSet::abort_all`, for one task -/
def Connection.abort (connection : Connection) : Connection :=
  if connection.task = .running then { connection with task := .aborted } else connection

/-- Where the serve call is. -/
inductive Phase where
  /-- `accept_next` waits for a slot -/
  | acquiring
  /-- `accept_next` waits for a connection; with a limit it holds a slot -/
  | accepting
  /-- `accept_next` pauses after an error -/
  | pausing (wake : ℕ)
  /-- `drain_connections` waits for the tasks -/
  | draining (deadline : ℕ)
  /-- `drain_connections` waits for the tasks that it aborted -/
  | aborting (deadline : ℕ)
  | returned (ok : Bool)
  deriving DecidableEq, Repr

/-- Whether `accept_next` is past its wait for a slot. -/
def Phase.isAccepting : Phase → Bool
  | .accepting | .pausing _ => true
  | _ => false

/-- A serve call with everything that it accepted. -/
structure State where
  settings : Settings
  clock : ℕ
  /-- the permits of the semaphore -/
  free : ℕ
  phase : Phase
  connections : List Connection
  /-- when the shutdown future completed -/
  signalled : Option ℕ

namespace State

/-- Where the loop goes for the next connection: for a slot first, if there is a limit. -/
def nextPhase (settings : Settings) : Phase :=
  if settings.limit.isSome then .acquiring else .accepting

/-- A serve call that begins. -/
def new (settings : Settings) : State where
  settings
  clock := 0
  free := settings.limit.getD 0
  phase := nextPhase settings
  connections := []
  signalled := none

/-- Whether `accept_next` holds a slot. -/
def reserved (s : State) : Bool := s.settings.limit.isSome && s.phase.isAccepting

/-- How many connections something is left of. -/
def inUse (s : State) : ℕ := s.connections.countP Connection.held

/-- Whether the `JoinSet` is empty. -/
def drained (s : State) : Bool := s.connections.all fun connection => connection.task = .ended

/-- The slot that `accept_next` held is dropped. -/
def release (s : State) : State := if s.reserved then { s with free := s.free + 1 } else s

/-- Something of a connection changes; its slot comes back when nothing of it is left. -/
def modify (s : State) (i : ℕ) (connection connection' : Connection) : State :=
  { s with
    connections := s.connections.set i connection'
    free := if s.settings.limit.isSome && connection.held && !connection'.held then s.free + 1
      else s.free }

end State

/-! ## Steps -/

/-- What can happen. -/
inductive Event where
  /-- time passes -/
  | tick (ms : ℕ)
  /-- the shutdown future completes -/
  | signal
  /-- a `select!` of `accept_next` takes the branch of the shutdown -/
  | stop
  /-- the semaphore hands out a slot -/
  | acquire
  | accept
  | acceptError (error : AcceptError)
  /-- the pause is over -/
  | wake
  /-- a request on a connection begins -/
  | request (i : ℕ)
  /-- a request and its extensions are dropped -/
  | respond (i : ℕ)
  /-- `on_upgrade` of a request: the session gets the slot of its connection, too -/
  | upgrade (i : ℕ)
  /-- a session is over, or its idle timeout drops the slot -/
  | sessionEnd (i : ℕ)
  /-- the task of a connection ends, by itself or because it was aborted -/
  | taskEnd (i : ℕ)
  /-- `join_next` says that there are no tasks left -/
  | joined
  /-- a timeout of `drain_connections` -/
  | timeout
  deriving Repr

namespace State

/-- How long time may pass before the loop has to act. -/
def mayPass (s : State) (ms : ℕ) : Bool :=
  match s.phase with
  | .acquiring | .accepting => s.signalled.isNone
  | .pausing wake => s.clock + ms ≤ wake
  | .draining deadline | .aborting deadline => s.clock + ms ≤ deadline && !s.drained
  | .returned _ => true

/-- One thing that happens, or nothing where it cannot happen. -/
def step (s : State) : Event → Option State
  | .tick ms => if s.mayPass ms then some { s with clock := s.clock + ms } else none
  | .signal => if s.signalled.isNone then some { s with signalled := some s.clock } else none
  | .stop =>
    match s.phase with
    | .acquiring | .accepting =>
      -- `accept_next` returns `None`, and the loop goes on to `drain_connections`
      if s.signalled.isSome then
        some { s.release with phase := .draining (s.clock + s.settings.shutdownTimeout) }
      else none
    | _ => none
  | .acquire =>
    if s.phase = .acquiring ∧ 0 < s.free then some { s with phase := .accepting, free := s.free - 1 }
    else none
  | .accept =>
    if s.phase = .accepting then
      some { s with
        phase := nextPhase s.settings
        connections := s.connections ++ [{ task := .running, requests := 0, sessions := 0 }] }
    else none
  | .acceptError error =>
    if s.phase = .accepting then
      match classifyAcceptError error with
      | .retry => some s
      | .backoff => some { s with phase := .pausing (s.clock + acceptBackoff) }
      | .fatal =>
        -- the `?` of the loop: dropping the `JoinSet` aborts its tasks
        some { s.release with
          phase := .returned false, connections := s.connections.map Connection.abort }
    else none
  | .wake => if s.phase = .pausing s.clock then some { s with phase := .accepting } else none
  | .request i =>
    match s.connections[i]? with
    | some connection =>
      if connection.task ≠ .ended then
        some (s.modify i connection { connection with requests := connection.requests + 1 })
      else none
    | none => none
  | .respond i =>
    match s.connections[i]? with
    | some connection =>
      if 0 < connection.requests then
        some (s.modify i connection { connection with requests := connection.requests - 1 })
      else none
    | none => none
  | .upgrade i =>
    match s.connections[i]? with
    | some connection =>
      if 0 < connection.requests then
        some (s.modify i connection { connection with sessions := connection.sessions + 1 })
      else none
    | none => none
  | .sessionEnd i =>
    match s.connections[i]? with
    | some connection =>
      if 0 < connection.sessions then
        some (s.modify i connection { connection with sessions := connection.sessions - 1 })
      else none
    | none => none
  | .taskEnd i =>
    match s.connections[i]? with
    | some connection =>
      if connection.task ≠ .ended then some (s.modify i connection { connection with task := .ended })
      else none
    | none => none
  | .joined =>
    match s.phase with
    | .draining _ | .aborting _ =>
      if s.drained then some { s with phase := .returned true } else none
    | _ => none
  | .timeout =>
    match s.phase with
    | .draining deadline =>
      if deadline ≤ s.clock then
        some { s with
          phase := .aborting (s.clock + abortGrace), connections := s.connections.map Connection.abort }
      else none
    | .aborting deadline => if deadline ≤ s.clock then some { s with phase := .returned true } else none
    | _ => none

/-- What a step can do. -/
inductive Step (s : State) : Event → State → Prop where
  | tick (ms : ℕ) (h : s.mayPass ms = true) : s.Step (.tick ms) { s with clock := s.clock + ms }
  | signal (h : s.signalled = none) : s.Step .signal { s with signalled := some s.clock }
  | stop (h : s.phase = .acquiring ∨ s.phase = .accepting) (hsignal : s.signalled.isSome = true) :
      s.Step .stop { s.release with phase := .draining (s.clock + s.settings.shutdownTimeout) }
  | acquire (h : s.phase = .acquiring) (hfree : 0 < s.free) :
      s.Step .acquire { s with phase := .accepting, free := s.free - 1 }
  | accept (h : s.phase = .accepting) : s.Step .accept
      { s with
        phase := nextPhase s.settings
        connections := s.connections ++ [{ task := .running, requests := 0, sessions := 0 }] }
  | retry (error : AcceptError) (h : classifyAcceptError error = .retry) : s.Step (.acceptError error) s
  | pause (error : AcceptError) (h : s.phase = .accepting)
      (herror : classifyAcceptError error = .backoff) :
      s.Step (.acceptError error) { s with phase := .pausing (s.clock + acceptBackoff) }
  | fail (error : AcceptError) (h : s.phase = .accepting)
      (herror : classifyAcceptError error = .fatal) :
      s.Step (.acceptError error) { s.release with
        phase := .returned false, connections := s.connections.map Connection.abort }
  | wake (h : s.phase = .pausing s.clock) : s.Step .wake { s with phase := .accepting }
  /-- something of a connection begins or ends -/
  | modify (e : Event) (i : ℕ) (connection connection' : Connection)
      (hget : s.connections[i]? = some connection) (hheld : connection.held = true)
      (htask : connection'.task = connection.task ∨ connection'.task = .ended)
      (he : ∀ error, e ≠ .acceptError error) (hsignal : e ≠ .signal) :
      s.Step e (s.modify i connection connection')
  | join (h : (∃ deadline, s.phase = .draining deadline) ∨ ∃ deadline, s.phase = .aborting deadline)
      (hdrained : s.drained = true) : s.Step .joined { s with phase := .returned true }
  | abort (deadline : ℕ) (h : s.phase = .draining deadline) (hclock : deadline ≤ s.clock) :
      s.Step .timeout { s with
        phase := .aborting (s.clock + abortGrace), connections := s.connections.map Connection.abort }
  | leave (deadline : ℕ) (h : s.phase = .aborting deadline) (hclock : deadline ≤ s.clock) :
      s.Step .timeout { s with phase := .returned true }

theorem held_of_task {connection : Connection} (h : connection.task ≠ .ended) :
    connection.held = true := by
  simp [Connection.held, h]

theorem held_of_requests {connection : Connection} (h : 0 < connection.requests) :
    connection.held = true := by
  simp [Connection.held, Nat.ne_of_gt h]

theorem held_of_sessions {connection : Connection} (h : 0 < connection.sessions) :
    connection.held = true := by
  simp [Connection.held, Nat.ne_of_gt h]

theorem step_cases {s s' : State} {e : Event} (h : s.step e = some s') : s.Step e s' := by
  cases e with
  | tick ms =>
    simp only [step, Option.ite_none_right_eq_some, Option.some.injEq] at h
    obtain ⟨hpass, rfl⟩ := h
    exact .tick ms hpass
  | signal =>
    simp only [step, Option.ite_none_right_eq_some, Option.some.injEq, Option.isNone_iff_eq_none] at h
    obtain ⟨hnone, rfl⟩ := h
    exact .signal hnone
  | stop =>
    simp only [step] at h
    -- the loop stops where it waits for a permit, or for a connection
    split at h
    · simp only [Option.ite_none_right_eq_some, Option.some.injEq] at h
      obtain ⟨hsignal, rfl⟩ := h
      exact .stop (.inl ‹_›) hsignal
    · simp only [Option.ite_none_right_eq_some, Option.some.injEq] at h
      obtain ⟨hsignal, rfl⟩ := h
      exact .stop (.inr ‹_›) hsignal
    · cases h
  | acquire =>
    simp only [step, Option.ite_none_right_eq_some, Option.some.injEq] at h
    obtain ⟨⟨hphase, hfree⟩, rfl⟩ := h
    exact .acquire hphase hfree
  | accept =>
    simp only [step, Option.ite_none_right_eq_some, Option.some.injEq] at h
    obtain ⟨hphase, rfl⟩ := h
    exact .accept hphase
  -- an error of one connection, of the process, or of the listener
  | acceptError error =>
    simp only [step, Option.ite_none_right_eq_some] at h
    obtain ⟨hphase, h⟩ := h
    split at h
    · cases h
      exact .retry error ‹_›
    · cases h
      exact .pause error hphase ‹_›
    · cases h
      exact .fail error hphase ‹_›
  | wake =>
    simp only [step, Option.ite_none_right_eq_some, Option.some.injEq] at h
    obtain ⟨hphase, rfl⟩ := h
    exact .wake hphase
  -- what happens on a connection changes it alone, and it holds its permit
  | request i =>
    simp only [step] at h
    split at h
    · simp only [Option.ite_none_right_eq_some, Option.some.injEq] at h
      obtain ⟨htask, rfl⟩ := h
      exact .modify _ i _ _ ‹_› (held_of_task htask) (.inl rfl) nofun nofun
    · cases h
  | respond i =>
    simp only [step] at h
    split at h
    · simp only [Option.ite_none_right_eq_some, Option.some.injEq] at h
      obtain ⟨hrequests, rfl⟩ := h
      exact .modify _ i _ _ ‹_› (held_of_requests hrequests) (.inl rfl) nofun nofun
    · cases h
  | upgrade i =>
    simp only [step] at h
    split at h
    · simp only [Option.ite_none_right_eq_some, Option.some.injEq] at h
      obtain ⟨hrequests, rfl⟩ := h
      exact .modify _ i _ _ ‹_› (held_of_requests hrequests) (.inl rfl) nofun nofun
    · cases h
  | sessionEnd i =>
    simp only [step] at h
    split at h
    · simp only [Option.ite_none_right_eq_some, Option.some.injEq] at h
      obtain ⟨hsessions, rfl⟩ := h
      exact .modify _ i _ _ ‹_› (held_of_sessions hsessions) (.inl rfl) nofun nofun
    · cases h
  | taskEnd i =>
    simp only [step] at h
    split at h
    · simp only [Option.ite_none_right_eq_some, Option.some.injEq] at h
      obtain ⟨htask, rfl⟩ := h
      exact .modify _ i _ _ ‹_› (held_of_task htask) (.inr rfl) nofun nofun
    · cases h
  -- all tasks have ended, before the timeout or after it
  | joined =>
    simp only [step] at h
    split at h
    · simp only [Option.ite_none_right_eq_some, Option.some.injEq] at h
      obtain ⟨hdrained, rfl⟩ := h
      exact .join (.inl ⟨_, ‹_›⟩) hdrained
    · simp only [Option.ite_none_right_eq_some, Option.some.injEq] at h
      obtain ⟨hdrained, rfl⟩ := h
      exact .join (.inr ⟨_, ‹_›⟩) hdrained
    · cases h
  -- the first timeout aborts the tasks, and the second returns
  | timeout =>
    simp only [step] at h
    split at h
    · simp only [Option.ite_none_right_eq_some, Option.some.injEq] at h
      obtain ⟨hclock, rfl⟩ := h
      exact .abort _ ‹_› hclock
    · simp only [Option.ite_none_right_eq_some, Option.some.injEq] at h
      obtain ⟨hclock, rfl⟩ := h
      exact .leave _ ‹_› hclock
    · cases h

end State

/-- Every serve call with these settings. -/
def machine (settings : Settings) : Machine State Event where
  init := .new settings
  step := State.step

variable {settings : Settings} {s s' : State} {e : Event}

/-! ## Slots -/

namespace State

@[simp] theorem release_settings : s.release.settings = s.settings := by
  unfold release
  split <;> rfl

@[simp] theorem release_clock : s.release.clock = s.clock := by
  unfold release
  split <;> rfl

@[simp] theorem release_signalled : s.release.signalled = s.signalled := by
  unfold release
  split <;> rfl

@[simp] theorem release_connections : s.release.connections = s.connections := by
  unfold release
  split <;> rfl

theorem release_free : s.release.free = s.free + s.reserved.toNat := by
  unfold release
  cases h : s.reserved <;> simp

end State

@[simp] theorem held_abort (connection : Connection) : connection.abort.held = connection.held := by
  unfold Connection.abort
  split
  · have hrunning : connection.task = .running := ‹_›
    rw [Connection.held, Connection.held, hrunning]
    rfl
  · rfl

/-- A cancelled task holds its slot until it is gone. -/
theorem countP_held_abort (connections : List Connection) :
    (connections.map Connection.abort).countP Connection.held = connections.countP Connection.held := by
  rw [List.countP_map]
  apply List.countP_congr
  intro connection _
  rw [Function.comp_apply, held_abort]

theorem settings_step (h : s.Step e s') : s'.settings = s.settings := by
  cases h with
  | stop | fail => exact State.release_settings
  | _ => rfl

theorem settings_of_reachable (h : (machine settings).Reachable s) : s.settings = settings := by
  apply Machine.invariant (P := fun s => s.settings = settings) rfl ?_ h
  intro s e s' hs hstep
  rw [settings_step (State.step_cases hstep), hs]

/-- The slots that are accounted for: free, of the accept loop, of connections. -/
def State.accounted (s : State) : ℕ := s.free + s.reserved.toNat + s.inUse

/-- One connection becomes another one that something is left of, or that nothing is left of. -/
theorem accounted_modify {limit i : ℕ} {connection connection' : Connection}
    (hlimit : s.settings.limit = some limit) (hget : s.connections[i]? = some connection)
    (hheld : connection.held = true) :
    (s.modify i connection connection').accounted = s.accounted := by
  obtain ⟨hi, heq⟩ := List.getElem?_eq_some_iff.mp hget
  have hpos : 0 < s.connections.countP Connection.held :=
    List.countP_pos_iff.mpr ⟨connection, List.mem_of_getElem? hget, hheld⟩
  have hcount : (s.modify i connection connection').inUse =
      s.inUse - 1 + if connection'.held then 1 else 0 := by
    rw [State.inUse, State.modify, List.countP_set hi, heq, if_pos hheld]
    rfl
  have hfree : (s.modify i connection connection').free =
      s.free + if connection'.held then 0 else 1 := by
    rw [State.modify, hlimit, hheld]
    cases connection'.held <;> rfl
  have hreserved : (s.modify i connection connection').reserved = s.reserved := rfl
  have hinUse : s.inUse = s.connections.countP Connection.held := rfl
  rw [State.accounted, State.accounted, hcount, hfree, hreserved]
  split <;> omega

theorem nextPhase_cases (settings : Settings) :
    State.nextPhase settings = .acquiring ∨ State.nextPhase settings = .accepting := by
  unfold State.nextPhase
  split
  · exact .inl rfl
  · exact .inr rfl

theorem nextPhase_of_limit {limit : ℕ} (hlimit : settings.limit = some limit) :
    State.nextPhase settings = .acquiring := by
  rw [State.nextPhase, hlimit]
  rfl

theorem accounted_of_limit {limit : ℕ} (hlimit : s.settings.limit = some limit) :
    s.accounted =
      s.free + s.phase.isAccepting.toNat + s.connections.countP Connection.held := by
  rw [State.accounted, State.reserved, hlimit]
  rfl

theorem accounted_step {limit : ℕ} (hlimit : s.settings.limit = some limit) (h : s.Step e s') :
    s'.accounted = s.accounted := by
  have hlimit' : s'.settings.limit = some limit := by rw [settings_step h, hlimit]
  have hreserved : s.reserved = s.phase.isAccepting := by
    rw [State.reserved, hlimit, Option.isSome_some, Bool.true_and]
  rw [accounted_of_limit hlimit, accounted_of_limit hlimit']
  cases h with
  | tick | signal | retry => rfl
  | stop h hsignal =>
    -- the slot of the accept loop, where it has one, is free again
    simp [State.release_free, hreserved, Phase.isAccepting]
  | acquire h hfree =>
    simp only [h, Phase.isAccepting, Bool.toNat_true, Bool.toNat_false]
    omega
  | accept h =>
    -- the slot of the accept loop is the slot of the connection
    have hnew : ({ task := .running, requests := 0, sessions := 0 } : Connection).held = true := rfl
    simp [h, nextPhase_of_limit hlimit, Phase.isAccepting, List.countP_append, hnew]
    omega
  | pause error h herror => simp [h, Phase.isAccepting]
  | fail error h herror =>
    simp [-List.countP_map, State.release_free, hreserved, Phase.isAccepting, countP_held_abort]
  | wake h => simp [h, Phase.isAccepting]
  | modify _ i connection connection' hget hheld =>
    have haccounted := @accounted_modify _ _ _ _ connection' hlimit hget hheld
    rw [accounted_of_limit hlimit, accounted_of_limit hlimit'] at haccounted
    exact haccounted
  | join h hdrained =>
    rcases h with ⟨deadline, h⟩ | ⟨deadline, h⟩ <;> simp [h, Phase.isAccepting]
  | abort deadline h hclock => simp [-List.countP_map, h, Phase.isAccepting, countP_held_abort]
  | leave deadline h hclock => simp [h, Phase.isAccepting]

/-- **No slot is lost or handed out twice.** With a connection limit, in every state of every serve
call, the slots are the free ones, the one that the accept loop holds, and one for each connection
that something is left of: its task, a request in flight, or a WebSocket session. So the loop gets
its next slot exactly when fewer connections than the limit are left. -/
theorem slots_conserved {limit : ℕ} (hlimit : settings.limit = some limit)
    (h : (machine settings).Reachable s) :
    s.free + s.reserved.toNat + s.inUse = limit ∧
      (s.phase = .acquiring → ((s.step .acquire).isSome = true ↔ s.inUse < limit)) := by
  have hinvariant : s.settings = settings ∧ s.accounted = limit := by
    apply Machine.invariant (P := fun s => s.settings = settings ∧ s.accounted = limit) ?_ ?_ h
    · refine ⟨rfl, ?_⟩
      rw [accounted_of_limit (show (machine settings).init.settings.limit = some limit from hlimit)]
      simp [machine, State.new, nextPhase_of_limit hlimit, hlimit, Phase.isAccepting]
    · intro s e s' hs hstep
      obtain ⟨hsettings, haccounted⟩ := hs
      have hcases := State.step_cases hstep
      refine ⟨(settings_step hcases).trans hsettings, ?_⟩
      rw [accounted_step (by rw [hsettings, hlimit]) hcases, haccounted]
  obtain ⟨hsettings, haccounted⟩ := hinvariant
  refine ⟨haccounted, ?_⟩
  intro hphase
  -- while the loop waits for a slot it holds none
  have hreserved : s.reserved = false := by simp [State.reserved, hphase, Phase.isAccepting]
  rw [State.accounted, hreserved, Bool.toNat_false] at haccounted
  simp only [State.step, hphase, true_and, Option.isSome_ite]
  omega

/-- An upgraded connection is over, and its session still holds the only slot. -/
theorem slots_conserved_of_session :
    ∃ s, (machine { maxConnections := some 1, shutdownTimeout := 30000 }).run
        [.acquire, .accept, .request 0, .upgrade 0, .respond 0, .taskEnd 0] = some s ∧
      s.free + s.reserved.toNat + s.inUse = 1 ∧
      (s.phase = .acquiring → ((s.step .acquire).isSome = true ↔ s.inUse < 1)) := by
  obtain ⟨s, h⟩ : ∃ s, (machine { maxConnections := some 1, shutdownTimeout := 30000 }).run
      [.acquire, .accept, .request 0, .upgrade 0, .respond 0, .taskEnd 0] = some s := ⟨_, rfl⟩
  exact ⟨s, h, slots_conserved rfl ⟨_, h⟩⟩

/-! ## The time to return -/

/-- Whether `accept_next` pauses after this. -/
def Event.isPause : Event → Bool
  | .acceptError error => classifyAcceptError error = .backoff
  | _ => false

/-- Whether this is a move of the serve call itself, and of no connection. -/
def Event.isLoop : Event → Bool
  | .tick _ | .stop | .wake | .joined | .timeout => true
  | _ => false

/-- What is so before a signal, too: pauses are short, and only a signal ends the loop. -/
def State.Waiting (s : State) : Prop :=
  match s.phase with
  | .pausing wake => s.clock ≤ wake ∧ wake ≤ s.clock + acceptBackoff
  | .draining _ | .aborting _ => s.signalled.isSome = true
  | _ => True

theorem waiting_step (hs : s.Waiting) (h : s.Step e s') : s'.Waiting := by
  unfold State.Waiting at hs ⊢
  cases h with
  | tick ms hpass =>
    cases hphase : s.phase with
    | pausing wake =>
      simp only [State.mayPass, hphase, decide_eq_true_eq] at hpass
      simp only [hphase] at hs ⊢
      omega
    | draining | aborting => simpa only [hphase] using hs
    | _ => trivial
  | signal hnone =>
    cases hphase : s.phase with
    | pausing wake => simpa only [hphase] using hs
    | _ => trivial
  | stop h hsignal => simpa using hsignal
  | pause error h herror => exact ⟨Nat.le_add_right _ _, Nat.le_refl _⟩
  | modify => exact hs
  | retry => exact hs
  | abort deadline h hclock => simpa only [h] using hs
  | accept h =>
    rcases nextPhase_cases s.settings with hnext | hnext <;> simp only [hnext]
  | _ => trivial

/-- A serve call that is told to shut down and that leaves the accept loop by `latest`. -/
def State.Punctual (latest : ℕ) (s : State) : Prop :=
  s.signalled.isSome = true ∧
    match s.phase with
    | .acquiring | .accepting => s.clock ≤ latest
    | .pausing wake => s.clock ≤ wake ∧ wake ≤ latest
    | .draining deadline => s.clock ≤ deadline ∧ deadline ≤ latest + s.settings.shutdownTimeout
    | .aborting deadline =>
      s.clock ≤ deadline ∧ deadline ≤ latest + s.settings.shutdownTimeout + abortGrace
    | .returned _ => True

theorem punctual_signal (hs : s.Waiting) (hnone : s.signalled = none) :
    { s with signalled := some s.clock : State }.Punctual (s.clock + acceptBackoff) := by
  refine ⟨rfl, ?_⟩
  unfold State.Waiting at hs
  cases hphase : s.phase with
  | pausing wake => simpa only [hphase] using hs
  | draining | aborting => simp [hphase, hnone] at hs
  | acquiring | accepting => exact Nat.le_add_right _ _
  | returned => trivial

/-- Only a pause of the accept loop makes it later. -/
theorem punctual_step {latest latest' : ℕ} (hlatest : latest ≤ latest')
    (hpause : e.isPause = true → latest + acceptBackoff ≤ latest') (hs : s.Punctual latest)
    (h : s.Step e s') : s'.Punctual latest' := by
  obtain ⟨hsignal, hs⟩ := hs
  cases h with
  | tick ms hpass =>
    refine ⟨hsignal, ?_⟩
    cases hphase : s.phase with
    | acquiring | accepting =>
      -- the signal is there, and the loop takes it before any time passes
      simp [State.mayPass, hphase, Option.isSome_iff_ne_none.mp hsignal] at hpass
    | returned => trivial
    | _ =>
      simp only [State.mayPass, hphase, decide_eq_true_eq, Bool.and_eq_true] at hpass
      simp only [hphase] at hs ⊢
      omega
  | signal hnone => simp [hnone] at hsignal
  | stop h =>
    refine ⟨by simpa using hsignal, ?_⟩
    -- the shutdown starts by then, and its timeout is counted from there
    have hclock : s.clock ≤ latest := by
      rcases h with h | h <;> simpa only [h] using hs
    simp only [State.release_clock, State.release_settings]
    omega
  | acquire h | wake h =>
    refine ⟨hsignal, ?_⟩
    simp only [h] at hs ⊢
    omega
  | accept h =>
    refine ⟨hsignal, ?_⟩
    simp only [h] at hs
    rcases nextPhase_cases s.settings with hnext | hnext <;> simp only [hnext] <;> omega
  | pause error h herror =>
    refine ⟨hsignal, ?_⟩
    -- a pause of the accept loop is what may make it later
    have hlater := hpause (decide_eq_true herror)
    simp only [h] at hs
    exact ⟨Nat.le_add_right _ _, by omega⟩
  | fail => exact ⟨by simpa using hsignal, trivial⟩
  | join | leave => exact ⟨hsignal, trivial⟩
  | abort deadline h hclock =>
    refine ⟨hsignal, Nat.le_add_right _ _, ?_⟩
    simp only [h] at hs
    show s.clock + abortGrace ≤ latest' + s.settings.shutdownTimeout + abortGrace
    omega
  | retry | modify =>
    refine ⟨hsignal, ?_⟩
    cases hphase : s.phase <;> simp only [State.modify, hphase] at hs ⊢ <;> omega

/-- A serve call that can get to its end by moves of its own. -/
def State.CanReturn (s : State) : Prop :=
  ∃ (events : List Event) (s' : State), events.all Event.isLoop = true ∧
    events.foldlM State.step s = some s' ∧ ∃ ok, s'.phase = .returned ok

theorem canReturn_of_step (he : e.isLoop = true) (hstep : s.step e = some s') (h : s'.CanReturn) :
    s.CanReturn := by
  obtain ⟨events, s'', hloop, hrun, hok⟩ := h
  refine ⟨e :: events, s'', ?_, ?_, hok⟩
  · rw [List.all_cons, he, hloop]
    rfl
  · rw [List.foldlM_cons, hstep]
    exact hrun

theorem canReturn_of_returned {ok : Bool} (h : s.phase = .returned ok) : s.CanReturn :=
  ⟨[], s, rfl, rfl, ok, h⟩

/-- Nothing that is left of the connections can hold the call up beyond the deadline. -/
theorem canReturn_of_deadline {deadline : ℕ}
    (hphase : s.phase = .draining deadline ∨ s.phase = .aborting deadline)
    (hclock : s.clock ≤ deadline) (hdue : { s with clock := deadline : State }.CanReturn) :
    s.CanReturn := by
  cases hdrained : s.drained with
  | true =>
    apply canReturn_of_step (e := .joined) rfl
    · rcases hphase with hphase | hphase <;>
      · simp only [State.step, hphase, hdrained]
        rfl
    · exact canReturn_of_returned rfl
  | false =>
    apply canReturn_of_step (e := .tick (deadline - s.clock)) rfl ?_ hdue
    have hpass : s.mayPass (deadline - s.clock) = true := by
      rcases hphase with hphase | hphase <;>
        simp [State.mayPass, hphase, hdrained, Nat.add_sub_cancel' hclock]
    rw [State.step, if_pos hpass, Nat.add_sub_cancel' hclock]

theorem canReturn_of_aborting {deadline : ℕ} (hphase : s.phase = .aborting deadline)
    (hclock : s.clock ≤ deadline) : s.CanReturn := by
  apply canReturn_of_deadline (.inr hphase) hclock
  apply canReturn_of_step (e := .timeout) rfl
  · simp only [State.step, hphase, Nat.le_refl, if_true]
    rfl
  · exact canReturn_of_returned rfl

theorem canReturn_of_draining {deadline : ℕ} (hphase : s.phase = .draining deadline)
    (hclock : s.clock ≤ deadline) : s.CanReturn := by
  apply canReturn_of_deadline (.inl hphase) hclock
  apply canReturn_of_step (e := .timeout) rfl
  · simp only [State.step, hphase, Nat.le_refl, if_true]
    rfl
  · exact canReturn_of_aborting rfl (Nat.le_add_right _ _)

theorem canReturn_of_serving (hphase : s.phase = .acquiring ∨ s.phase = .accepting)
    (hsignal : s.signalled.isSome = true) : s.CanReturn := by
  apply canReturn_of_step (e := .stop) rfl
  · have hstep : s.step .stop =
        some { s.release with phase := .draining (s.clock + s.settings.shutdownTimeout) } := by
      rcases hphase with hphase | hphase <;> simp only [State.step, hphase, if_pos hsignal]
    exact hstep
  · apply canReturn_of_draining rfl
    simp

theorem canReturn_of_punctual {latest : ℕ} (h : s.Punctual latest) : s.CanReturn := by
  obtain ⟨hsignal, h⟩ := h
  cases hphase : s.phase with
  | acquiring => exact canReturn_of_serving (.inl hphase) hsignal
  | accepting => exact canReturn_of_serving (.inr hphase) hsignal
  | pausing wake =>
    simp only [hphase] at h
    apply canReturn_of_step (e := .tick (wake - s.clock)) rfl
    · simp only [State.step, State.mayPass, hphase]
      rw [if_pos (by simp [Nat.add_sub_cancel' h.1])]
    · apply canReturn_of_step (e := .wake) rfl
      · simp only [State.step]
        rw [if_pos (by rw [Nat.add_sub_cancel' h.1])]
      · exact canReturn_of_serving (.inr rfl) hsignal
  | draining deadline =>
    simp only [hphase] at h
    exact canReturn_of_draining hphase h.1
  | aborting deadline =>
    simp only [hphase] at h
    exact canReturn_of_aborting hphase h.1
  | returned ok => exact canReturn_of_returned hphase

theorem clock_of_punctual {latest : ℕ} (h : s.Punctual latest) :
    (∃ ok, s.phase = .returned ok) ∨
      s.clock ≤ latest + s.settings.shutdownTimeout + abortGrace := by
  obtain ⟨_, h⟩ := h
  cases hphase : s.phase with
  | returned ok => exact .inl ⟨ok, rfl⟩
  | _ =>
    right
    simp only [hphase] at h
    omega

/-- When the accept loop ends at the latest, after a signal at `t` and these events. -/
def latestStop (t : ℕ) (events : List Event) : ℕ :=
  t + acceptBackoff * (events.countP Event.isPause + 1)

theorem latestStop_concat (t : ℕ) (events : List Event) (e : Event) :
    latestStop t (events ++ [e]) =
      latestStop t events + if e.isPause then acceptBackoff else 0 := by
  simp only [latestStop, acceptBackoff, List.countP_append, List.countP_singleton]
  split <;> omega

/-- **A serve call returns in time.** From the shutdown signal on, whatever the connections do:
until it has returned, no more time passes than for the pause that the accept loop is in, one more
for each accept error that it still pauses for, the shutdown timeout and the grace; and moves of its own
lead to its end. -/
theorem returns_in_time {before after : List Event} {s₀ : State}
    (hbefore : (machine settings).run before = some s₀)
    (h : (machine settings).runFrom s₀ (.signal :: after) = some s) :
    ((∃ ok, s.phase = .returned ok) ∨
      s.clock ≤ latestStop s₀.clock after + settings.shutdownTimeout + abortGrace) ∧
        s.CanReturn := by
  have hreachable : (machine settings).Reachable s₀ := ⟨before, hbefore⟩
  -- before the signal, the call only accepts
  have hwaiting : s₀.Waiting := by
    apply Machine.invariant (P := State.Waiting) ?_ ?_ hreachable
    · have hinit : (machine settings).init.phase = State.nextPhase settings := rfl
      unfold State.Waiting
      rcases nextPhase_cases settings with hnext | hnext <;> simp only [hinit, hnext]
    · intro s e s' hs hstep
      exact waiting_step hs (State.step_cases hstep)
  obtain ⟨s₁, hsignal, hafter⟩ := Option.bind_eq_some_iff.mp h
  -- each pause after the signal moves the latest end of the accept loop
  have hpunctual : s.Punctual (latestStop s₀.clock after) := by
    apply Machine.runFrom_induction (P := fun events s => s.Punctual (latestStop s₀.clock events))
      ?_ ?_ hafter
    · simp only [machine, State.step, Option.ite_none_right_eq_some, Option.some.injEq,
        Option.isNone_iff_eq_none] at hsignal
      obtain ⟨hnone, rfl⟩ := hsignal
      exact punctual_signal hwaiting hnone
    · intro events s e s' _ hs hstep
      rw [latestStop_concat]
      apply punctual_step (Nat.le_add_right _ _) ?_ hs (State.step_cases hstep)
      intro hpause
      rw [if_pos hpause]
  refine ⟨?_, canReturn_of_punctual hpunctual⟩
  have hsettings : s.settings = settings := by
    apply @settings_of_reachable settings _ ⟨before ++ .signal :: after, ?_⟩
    rw [Machine.run, Machine.runFrom_append, show (machine settings).runFrom _ before = _ from hbefore]
    exact h
  rw [← hsettings]
  exact clock_of_punctual hpunctual

/-- A request that does not end: the call waits for the timeout and for the grace. -/
theorem returns_in_time_of_busy :
    ∃ s₀ s, (machine { maxConnections := none, shutdownTimeout := 30000 }).run
        [.accept, .request 0, .tick 5] = some s₀ ∧
      (machine { maxConnections := none, shutdownTimeout := 30000 }).runFrom s₀
        [.signal, .stop, .tick 30000, .timeout, .tick 1000] = some s ∧
      ((∃ ok, s.phase = .returned ok) ∨ s.clock ≤ latestStop s₀.clock
        [.stop, .tick 30000, .timeout, .tick 1000] + 30000 + abortGrace) ∧ s.CanReturn := by
  obtain ⟨s₀, s, hbefore, h⟩ : ∃ s₀ s,
      (machine { maxConnections := none, shutdownTimeout := 30000 }).run
        [.accept, .request 0, .tick 5] = some s₀ ∧
      (machine { maxConnections := none, shutdownTimeout := 30000 }).runFrom s₀
        [.signal, .stop, .tick 30000, .timeout, .tick 1000] = some s := ⟨_, _, rfl, rfl⟩
  exact ⟨s₀, s, hbefore, h, returns_in_time hbefore h⟩

/-! ## Cancelled tasks -/

def NoneAborted (connections : List Connection) : Prop :=
  ∀ connection ∈ connections, connection.task ≠ .aborted

def NoneRunning (connections : List Connection) : Prop :=
  ∀ connection ∈ connections, connection.task ≠ .running

def AllEnded (connections : List Connection) : Prop :=
  ∀ connection ∈ connections, connection.task = .ended

/-- The signal came at least this long before a time. -/
def Since (signalled : Option ℕ) (ms time : ℕ) : Prop := ∃ t, signalled = some t ∧ t + ms ≤ time

theorem Since.mono {signalled : Option ℕ} {ms time time' : ℕ} (h : Since signalled ms time)
    (hle : time ≤ time') : Since signalled ms time' := by
  obtain ⟨t, hsignal, ht⟩ := h
  exact ⟨t, hsignal, ht.trans hle⟩

/-- What is so of the tasks where the serve call is. -/
def State.Orderly (s : State) : Prop :=
  match s.phase with
  | .acquiring | .accepting | .pausing _ => NoneAborted s.connections
  | .draining deadline =>
    NoneAborted s.connections ∧ Since s.signalled s.settings.shutdownTimeout deadline
  | .aborting deadline =>
    NoneRunning s.connections ∧ Since s.signalled s.settings.shutdownTimeout s.clock ∧
      Since s.signalled (s.settings.shutdownTimeout + abortGrace) deadline
  | .returned true =>
    NoneRunning s.connections ∧ (AllEnded s.connections ∧ Since s.signalled 0 s.clock ∨
      Since s.signalled (s.settings.shutdownTimeout + abortGrace) s.clock)
  | .returned false => NoneRunning s.connections

theorem noneRunning_abort (connections : List Connection) :
    NoneRunning (connections.map Connection.abort) := by
  intro connection hmem
  obtain ⟨before, _, rfl⟩ := List.mem_map.mp hmem
  unfold Connection.abort
  split
  · exact nofun
  · assumption

theorem noneRunning_of_allEnded {connections : List Connection} (h : AllEnded connections) :
    NoneRunning connections := by
  intro connection hmem
  rw [h connection hmem]
  exact nofun

theorem allEnded_of_drained (h : s.drained = true) : AllEnded s.connections := by
  intro connection hmem
  exact of_decide_eq_true (List.all_eq_true.mp h connection hmem)

/-- What is so of a task that has ended, and of each task before, is so of each task after a change
of one connection. -/
theorem forall_modify {P : Task → Prop} {i : ℕ} {connection connection' : Connection}
    (hended : P .ended) (hget : s.connections[i]? = some connection)
    (htask : connection'.task = connection.task ∨ connection'.task = .ended)
    (h : ∀ c ∈ s.connections, P c.task) :
    ∀ c ∈ (s.modify i connection connection').connections, P c.task := by
  intro c hmem
  rcases List.mem_or_eq_of_mem_set hmem with hold | rfl
  · exact h c hold
  · rcases htask with hsame | htask
    · rw [hsame]
      exact h connection (List.mem_of_getElem? hget)
    · rw [htask]
      exact hended

/-- The signal, if there was one, is not in the future. -/
def State.Past (s : State) : Prop := ∀ t, s.signalled = some t → t ≤ s.clock

theorem past_step (hs : s.Past) (h : s.Step e s') : s'.Past := by
  intro t hsignal
  cases h with
  | tick ms hpass => exact (hs t hsignal).trans (Nat.le_add_right _ _)
  | signal hnone =>
    cases hsignal
    exact Nat.le_refl _
  | stop | fail =>
    simp only [State.release_signalled] at hsignal
    simpa using hs t hsignal
  | _ => exact hs t hsignal

theorem orderly_step (hpast : s.Past) (hs : s.Orderly) (h : s.Step e s') : s'.Orderly := by
  unfold State.Orderly at hs ⊢
  cases h with
  | tick ms hpass =>
    -- time only passes, and what is since long stays so
    have hlater : s.clock ≤ s.clock + ms := Nat.le_add_right _ _
    cases hphase : s.phase with
    | aborting deadline =>
      simp only [hphase] at hs ⊢
      exact ⟨hs.1, hs.2.1.mono hlater, hs.2.2⟩
    | returned ok =>
      simp only [hphase] at hs ⊢
      cases ok with
      | false => exact hs
      | true =>
        obtain ⟨hrunning, ⟨hended, hsince⟩ | hsince⟩ := hs
        · exact ⟨hrunning, .inl ⟨hended, hsince.mono hlater⟩⟩
        · exact ⟨hrunning, .inr (hsince.mono hlater)⟩
    | _ => simpa only [hphase] using hs
  | signal hnone =>
    -- where the phase tells of a signal, there was one already
    have hsince : ∀ ms time, ¬ Since s.signalled ms time := by
      rintro ms time ⟨t, ht, _⟩
      rw [hnone] at ht
      cases ht
    cases hphase : s.phase with
    | draining deadline =>
      simp only [hphase] at hs
      exact absurd hs.2 (hsince _ _)
    | aborting deadline =>
      simp only [hphase] at hs
      exact absurd hs.2.2 (hsince _ _)
    | returned ok =>
      simp only [hphase] at hs ⊢
      cases ok with
      | false => exact hs
      | true =>
        obtain ⟨_, ⟨_, hsome⟩ | hsome⟩ := hs
        · exact absurd hsome (hsince _ _)
        · exact absurd hsome (hsince _ _)
    | _ => simpa only [hphase] using hs
  | stop h hsignal =>
    -- the deadline counts from now, which is after the signal
    have hnone : NoneAborted s.connections := by
      rcases h with h | h <;> simpa only [h] using hs
    obtain ⟨t, ht⟩ := Option.isSome_iff_exists.mp hsignal
    simp only [State.release_connections, State.release_signalled, State.release_settings]
    exact ⟨hnone, t, ht, Nat.add_le_add_right (hpast t ht) _⟩
  | acquire h | wake h =>
    simp only [h] at hs
    exact hs
  | accept h =>
    simp only [h] at hs
    -- the new connection is running
    have hnew : NoneAborted
        (s.connections ++ [{ task := .running, requests := 0, sessions := 0 }]) := by
      intro connection hmem
      rcases List.mem_append.mp hmem with hold | hnew
      · exact hs connection hold
      · rw [List.mem_singleton.mp hnew]
        exact nofun
    rcases nextPhase_cases s.settings with hnext | hnext <;> simp only [hnext] <;> exact hnew
  | pause error h =>
    simp only [h] at hs
    exact hs
  | retry => exact hs
  | fail error h herror => exact noneRunning_abort s.connections
  | modify _ i connection connection' hget hheld htask =>
    -- a step of a connection never starts a task again, and never aborts it
    have haborted : NoneAborted s.connections →
        NoneAborted (s.modify i connection connection').connections :=
      forall_modify (P := (· ≠ .aborted)) nofun hget htask
    have hrunning : NoneRunning s.connections →
        NoneRunning (s.modify i connection connection').connections :=
      forall_modify (P := (· ≠ .running)) nofun hget htask
    have hended : AllEnded s.connections →
        AllEnded (s.modify i connection connection').connections :=
      forall_modify (P := (· = .ended)) rfl hget htask
    have hphase' : (s.modify i connection connection').phase = s.phase := rfl
    cases hphase : s.phase with
    | draining | aborting =>
      simp only [hphase, hphase'] at hs ⊢
      first
        | exact ⟨haborted hs.1, hs.2⟩
        | exact ⟨hrunning hs.1, hs.2⟩
    | returned ok =>
      simp only [hphase, hphase'] at hs ⊢
      cases ok with
      | false => exact hrunning hs
      | true => exact ⟨hrunning hs.1, hs.2.imp_left (And.imp_left hended)⟩
    | _ =>
      simp only [hphase, hphase'] at hs ⊢
      exact haborted hs
  | join h hdrained =>
    -- the loop returns because all tasks have ended
    have hended := allEnded_of_drained hdrained
    refine ⟨noneRunning_of_allEnded hended, .inl ⟨hended, ?_⟩⟩
    have hsignal : ∃ t, s.signalled = some t := by
      rcases h with ⟨deadline, h⟩ | ⟨deadline, h⟩
      · simp only [h] at hs
        obtain ⟨_, t, ht, _⟩ := hs
        exact ⟨t, ht⟩
      · simp only [h] at hs
        obtain ⟨_, ⟨t, ht, _⟩, _⟩ := hs
        exact ⟨t, ht⟩
    obtain ⟨t, ht⟩ := hsignal
    exact ⟨t, ht, hpast t ht⟩
  | abort deadline h hclock =>
    simp only [h] at hs
    -- from here, at most the grace period is left
    refine ⟨noneRunning_abort s.connections, hs.2.mono hclock, ?_⟩
    obtain ⟨t, ht, hle⟩ := hs.2
    refine ⟨t, ht, ?_⟩
    rw [← Nat.add_assoc]
    exact Nat.add_le_add_right (hle.trans hclock) _
  | leave deadline h hclock =>
    simp only [h] at hs
    exact ⟨hs.1, .inr (hs.2.2.mono hclock)⟩

theorem aborted_of_orderly (hs : s.Orderly) :
    NoneAborted s.connections ∨ s.phase = .returned false ∨
      Since s.signalled s.settings.shutdownTimeout s.clock := by
  unfold State.Orderly at hs
  cases hphase : s.phase with
  | acquiring | accepting | pausing =>
    simp only [hphase] at hs
    exact .inl hs
  | draining deadline =>
    simp only [hphase] at hs
    exact .inl hs.1
  | aborting deadline =>
    simp only [hphase] at hs
    exact .inr (.inr hs.2.1)
  | returned ok =>
    simp only [hphase] at hs
    cases ok with
    | false => exact .inr (.inl rfl)
    | true =>
      obtain ⟨_, ⟨hended, _⟩ | ⟨t, ht, hle⟩⟩ := hs
      · left
        intro connection hmem
        rw [hended connection hmem]
        exact nofun
      · exact .inr (.inr ⟨t, ht, by omega⟩)

theorem returned_of_orderly {ok : Bool} (hphase : s.phase = .returned ok) (hs : s.Orderly) :
    NoneRunning s.connections ∧
      (ok = true → AllEnded s.connections ∧ Since s.signalled 0 s.clock ∨
        Since s.signalled (s.settings.shutdownTimeout + abortGrace) s.clock) := by
  unfold State.Orderly at hs
  simp only [hphase] at hs
  cases ok with
  | false => exact ⟨hs, nofun⟩
  | true => exact ⟨hs.1, fun _ => hs.2⟩

/-- **Only a broken listener or the end of the shutdown timeout cancels a connection.** In every
state of every serve call: a task is cancelled only if the call failed, or if the shutdown timeout
has passed since the signal; after the call no task goes on that was not told to end; and a call
that did not fail returned after a signal, when all tasks had ended or, at the earliest, when the
timeout and the grace had passed. -/
theorem cancelled_late (h : (machine settings).Reachable s) :
    (NoneAborted s.connections ∨ s.phase = .returned false ∨
        Since s.signalled settings.shutdownTimeout s.clock) ∧
      ∀ ok, s.phase = .returned ok → NoneRunning s.connections ∧
        (ok = true → AllEnded s.connections ∧ Since s.signalled 0 s.clock ∨
          Since s.signalled (settings.shutdownTimeout + abortGrace) s.clock) := by
  have hinvariant : s.Past ∧ s.Orderly := by
    apply Machine.invariant (P := fun s => s.Past ∧ s.Orderly) ?_ ?_ h
    · have hinit : (machine settings).init.phase = State.nextPhase settings := rfl
      refine ⟨nofun, ?_⟩
      unfold State.Orderly
      rcases nextPhase_cases settings with hnext | hnext <;> simp only [hinit, hnext] <;> exact nofun
    · intro s e s' hs hstep
      have hcases := State.step_cases hstep
      exact ⟨past_step hs.1 hcases, orderly_step hs.1 hs.2 hcases⟩
  obtain ⟨_, horderly⟩ := hinvariant
  rw [← settings_of_reachable h]
  refine ⟨aborted_of_orderly horderly, ?_⟩
  intro ok hphase
  exact returned_of_orderly hphase horderly

/-- A request that does not end is cancelled, and a task that does not yield is left behind. -/
theorem cancelled_late_of_busy :
    ∃ s, (machine { maxConnections := none, shutdownTimeout := 30000 }).run
        [.accept, .request 0, .signal, .stop, .tick 30000, .timeout, .tick 1000, .timeout] =
          some s ∧
      (NoneAborted s.connections ∨ s.phase = .returned false ∨
          Since s.signalled 30000 s.clock) ∧
        ∀ ok, s.phase = .returned ok → NoneRunning s.connections ∧
          (ok = true → AllEnded s.connections ∧ Since s.signalled 0 s.clock ∨
            Since s.signalled (30000 + abortGrace) s.clock) := by
  obtain ⟨s, h⟩ : ∃ s, (machine { maxConnections := none, shutdownTimeout := 30000 }).run
      [.accept, .request 0, .signal, .stop, .tick 30000, .timeout, .tick 1000, .timeout] =
        some s := ⟨_, rfl⟩
  exact ⟨s, h, cancelled_late ⟨_, h⟩⟩

end OasRs.Serving
