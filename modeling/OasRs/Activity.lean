import OasRs.Http
import Mathlib.Order.Bounds.Basic
import Mathlib.Data.List.MinMax

/-!
# HTTP/2 Activity

`Activity`, `ActivityGuard`, `Guarded` and the watchdog of `drive_h2` in `src/runtime.rs`: what a
connection knows about its requests. Requests run as tasks of their own, so the events of a
connection come in any order that ownership allows. Each operation is one step. The clock is what
`now_ms` reads: whole milliseconds since the connection was created.

## Main results

- `Tracks.step`: what every event keeps between the connection and a ledger of its requests
- `activity_exact`: what the watchdog reads, in every run
- `not_cut_in_flight`: a connection with a request in flight ends only for a stalled stream
-/

namespace OasRs.Http2

/-! ## `Activity` -/

/-- An `Arc<AtomicU64>` of `Activity::streams`. -/
structure Slot where
  /-- `0`, or one more than the millisecond of the last chunk -/
  value : ℕ
  strongCount : ℕ

/-- `Activity`; its streams are references, and the memory they refer to is beside them. A counter
    below zero would be an underflow. -/
structure Activity where
  inFlight : ℤ
  lastMs : ℕ
  streams : List ℕ
  slots : ℕ → Slot

namespace Activity

/-- `Activity::new` -/
def new : Activity where
  inFlight := 0
  lastMs := 0
  streams := []
  slots := fun _ => { value := 0, strongCount := 0 }

variable (activity : Activity)

/-- `Activity::touch` -/
def touch (now : ℕ) : Activity := { activity with lastMs := max activity.lastMs now }

/-- `Activity::register_stream`, with the reference that is allocated -/
def registerStream (slot : ℕ) : Activity :=
  { activity with
    streams := activity.streams ++ [slot]
    slots := Function.update activity.slots slot { value := 0, strongCount := 2 } }

/-- `AtomicU64::store` -/
def store (slot value : ℕ) : Activity :=
  { activity with
    slots := Function.update activity.slots slot { activity.slots slot with value } }

/-- Another owner of a slot is gone. -/
def dropSlot (slot : ℕ) : Activity :=
  { activity with
    slots := Function.update activity.slots slot
      { activity.slots slot with strongCount := (activity.slots slot).strongCount - 1 } }

/-- How long the stream of a slot has been waiting. -/
def waitingFor (now slot : ℕ) : Option ℕ :=
  let since := (activity.slots slot).value
  if since ≠ 0 then some (now - (since - 1)) else none

/-- The streams that are not gone. -/
def retained : List ℕ := activity.streams.filter fun slot => 1 < (activity.slots slot).strongCount

/-- `Activity::stalled_for` -/
def stalledFor (now : ℕ) : Option ℕ × Activity :=
  ((activity.retained.filterMap (activity.waitingFor now)).max?,
    { activity with streams := activity.retained })

/-- `Activity::idle_for` -/
def idleFor (now : ℕ) : Option ℕ :=
  if activity.inFlight = 0 then some (now - activity.lastMs) else none

/-! ## `ActivityGuard` -/

/-- `ActivityGuard::start` -/
def startGuard : Activity := { activity with inFlight := activity.inFlight + 1 }

/-- `ActivityGuard::drop` -/
def dropGuard (now : ℕ) : Activity :=
  let activity := activity.touch now
  { activity with inFlight := activity.inFlight - 1 }

end Activity

/-- `LARGE_BUFFERED_BODY` -/
def largeBufferedBody : ℕ := 32 * 1024

/-- `CHUNK` -/
def chunkSize : ℕ := 16 * 1024

/-- `Poll<Option<Bytes>>` -/
inductive Answer where
  | pending
  | chunk (bytes : Text)
  | ended
  deriving DecidableEq

/-- `Chunked::poll_next` -/
def pollChunked (bytes : Text) : Answer × Text :=
  if bytes = [] then (.ended, [])
  else (.chunk (bytes.take (min chunkSize bytes.length)),
    bytes.drop (min chunkSize bytes.length))

/-- The stream in a `Guarded`: one of a handler, which answers what it likes, or a `Chunked`. -/
inductive Source where
  | handler
  | chunked (bytes : Text)

/-- `ActivityGuard::finish_with`: the headers, and the stream that keeps the guard, if one does. -/
def finishWith (activity : Activity) (slot now : ℕ) (response : Response) :
    HeaderMap × Option Source × Activity :=
  match response.body with
  | .stream _ => (response.headers, some .handler, activity.registerStream slot)
  | .full (some bytes) =>
    if bytes.len > largeBufferedBody then
      let headers :=
        if response.headers.containsKey .contentLength then response.headers
        else response.headers.insert .contentLength (decimal bytes.len)
      (headers, some (.chunked bytes.data), activity.registerStream slot)
    else (response.headers, none, activity.dropGuard now)
  | .full none => (response.headers, none, activity.dropGuard now)

/-- `Guarded::poll_next`, when the stream gives an answer -/
def pollGuarded (activity : Activity) (slot now : ℕ) (answer : Answer) : Activity :=
  let activity := activity.store slot 0
  match answer with
  | .chunk _ => activity.store slot (now + 1)
  | _ => activity

/-- `Guarded::drop`, and then the guard and the reference to the slot -/
def dropGuarded (activity : Activity) (slot now : ℕ) : Activity :=
  ((activity.store slot 0).dropGuard now).dropSlot slot

/-- A large body that becomes a stream still has its length in the headers. -/
theorem contentLength_finishWith {response : Response} (h : response.Honest) {bytes : Bytes}
    (hbody : response.body = .full (some bytes)) (hlarge : largeBufferedBody < bytes.len)
    (activity : Activity) (slot now : ℕ) :
    (finishWith activity slot now response).1.contentLength = some bytes.len := by
  unfold finishWith
  rw [hbody]
  simp only [if_pos hlarge]
  split
  · rename_i hdeclared
    rw [h hdeclared, hbody]
    rfl
  · exact contentLength_insert bytes.length_le _

/-- A `Chunked` hands out its bytes in order, and ends when there are none. -/
theorem pollChunked_spec (bytes : Text) :
    ((pollChunked bytes).1 = .ended ∧ bytes = []) ∨
      ∃ chunk, (pollChunked bytes).1 = .chunk chunk ∧ chunk ≠ [] ∧ chunk.length ≤ chunkSize ∧
        chunk ++ (pollChunked bytes).2 = bytes := by
  unfold pollChunked
  split
  · exact Or.inl ⟨rfl, ‹_›⟩
  · rename_i hne
    refine Or.inr ⟨_, rfl, ?_, ?_, List.take_append_drop _ _⟩
    · have hpos := List.length_pos_of_ne_nil hne
      apply List.ne_nil_of_length_pos
      rw [List.length_take, chunkSize]
      omega
    · rw [List.length_take]
      omega

/-! ## A connection -/

/-- What there is of a request: the future of its handler, the body of its response, or nothing
    that is counted. -/
inductive Request where
  | handling
  | responding (source : Source)
  | ended

/-- What can happen on a connection. -/
inductive Event where
  /-- time passes -/
  | tick (ms : ℕ)
  /-- a request is started -/
  | start
  /-- the handler of a request completes -/
  | finish (request : ℕ) (response : Response)
  /-- the body of a response is polled -/
  | poll (request : ℕ) (answer : Answer)
  /-- a handler or a body is dropped -/
  | drop (request : ℕ)
  /-- the watchdog looks -/
  | watch
  /-- response data moves out on the socket -/
  | progress

/-- A connection; the slot of a request's stream is the request's number. -/
structure Connection where
  clock : ℕ
  activity : Activity
  requests : List Request

namespace Connection

def new : Connection where
  clock := 0
  activity := .new
  requests := []

variable (connection : Connection)

/-- A request is something else from now on. -/
def become (i : ℕ) (request : Request) (activity : Activity) : Connection :=
  { connection with activity, requests := connection.requests.set i request }

/-- A handler completes. -/
def finish (i : ℕ) (response : Response) : Option Connection :=
  match connection.requests[i]? with
  | some .handling =>
    match finishWith connection.activity i connection.clock response with
    | (_, some source, activity) => some (connection.become i (.responding source) activity)
    | (_, none, activity) => some (connection.become i .ended activity)
  | _ => none

/-- A body is polled and answers; a `Chunked` gives its own answer. -/
def poll (i : ℕ) (answer : Answer) : Option Connection :=
  match connection.requests[i]? with
  | some (.responding .handler) =>
    some (connection.become i (.responding .handler)
      (pollGuarded connection.activity i connection.clock answer))
  | some (.responding (.chunked bytes)) =>
    if (pollChunked bytes).1 = answer then
      some (connection.become i (.responding (.chunked (pollChunked bytes).2))
        (pollGuarded connection.activity i connection.clock answer))
    else none
  | _ => none

/-- What there is of a request is dropped. -/
def drop (i : ℕ) : Option Connection :=
  match connection.requests[i]? with
  | some .handling =>
    some (connection.become i .ended (connection.activity.dropGuard connection.clock))
  | some (.responding _) =>
    some (connection.become i .ended (dropGuarded connection.activity i connection.clock))
  | _ => none

/-- An event, or nothing when it cannot happen: only what is there completes, is polled or is
    dropped. -/
def step : Event → Option Connection
  | .tick ms => some { connection with clock := connection.clock + ms }
  | .start =>
    some { connection with
      activity := connection.activity.startGuard
      requests := connection.requests ++ [.handling] }
  | .finish i response => connection.finish i response
  | .poll i answer => connection.poll i answer
  | .drop i => connection.drop i
  | .watch =>
    some { connection with activity := (connection.activity.stalledFor connection.clock).2 }
  | .progress => some { connection with activity := connection.activity.touch connection.clock }

/-- A run, from a connection on which nothing has happened. -/
def run (events : List Event) : Option Connection := events.foldlM step new

end Connection

/-- `H2_SHUTDOWN_GRACE` -/
def h2ShutdownGrace : ℕ := 2000

/-- What a tick of `drive_h2` does: nothing, a graceful shutdown, or the end of the connection. -/
inductive Verdict where
  | goOn
  | close
  | cut
  deriving DecidableEq

/-- Whether a stream has been waiting for the whole limit. -/
def overdue (stall stalled : Option ℕ) : Bool :=
  match stall, stalled with
  | some limit, some stalled => limit ≤ stalled
  | _, _ => false

/-- A tick of `drive_h2`, with its limits for stalled streams and idle connections and the time
    since when it is closing. -/
def tickH2 (connection : Connection) (stall idle closing : Option ℕ) : Verdict :=
  if overdue stall (connection.activity.stalledFor connection.clock).1 then .cut
  else
    match closing, connection.activity.idleFor connection.clock with
    | some since, some idleFor =>
      if h2ShutdownGrace ≤ connection.clock - since ∧ h2ShutdownGrace ≤ idleFor then .cut
      else .goOn
    | none, some idleFor => if idle.any (· ≤ idleFor) then .close else .goOn
    | _, none => .goOn

/-! ## The ledger -/

/-- Where a request stands: its handler is running, its body is moving (nothing was handed out
    since it was last polled), its body waits since it handed out a chunk, or it is over. -/
inductive Life where
  | handling
  | moving
  | waiting (since : ℕ)
  | ended
  deriving DecidableEq

/-- Not over -/
def Life.isLive : Life → Bool
  | .ended => false
  | _ => true

/-- One for a request that is live. -/
def Life.count (life : Life) : ℕ := if life.isLive then 1 else 0

/-- A streaming or large response outlives its handler. -/
def outlives : ResponseBody → Bool
  | .stream _ => true
  | .full (some bytes) => largeBufferedBody < bytes.len
  | .full none => false

/-- The requests of a connection, as its events tell. -/
structure Ledger where
  clock : ℕ
  lives : List Life
  /-- when a request last ended -/
  lastEnd : ℕ

namespace Ledger

def new : Ledger where
  clock := 0
  lives := []
  lastEnd := 0

def step (ledger : Ledger) : Event → Ledger
  | .tick ms => { ledger with clock := ledger.clock + ms }
  | .start => { ledger with lives := ledger.lives ++ [.handling] }
  | .finish i response =>
    if outlives response.body then { ledger with lives := ledger.lives.set i .moving }
    else { ledger with lives := ledger.lives.set i .ended, lastEnd := ledger.clock }
  | .poll i answer =>
    match answer with
    | .chunk _ => { ledger with lives := ledger.lives.set i (.waiting ledger.clock) }
    | _ => { ledger with lives := ledger.lives.set i .moving }
  | .drop i => { ledger with lives := ledger.lives.set i .ended, lastEnd := ledger.clock }
  | .watch => ledger
  | .progress => ledger

def run (events : List Event) : Ledger := events.foldl step new

/-- The number of requests whose handler is running or whose body is not dropped. -/
def live (ledger : Ledger) : ℕ := ledger.lives.countP Life.isLive

/-- How long the bodies that wait have been waiting. -/
def waits (ledger : Ledger) : Set ℕ :=
  {ms | ∃ since, .waiting since ∈ ledger.lives ∧ ms = ledger.clock - since}

end Ledger

/-! ## What an event can do -/

section Inversion

variable {connection connection' : Connection} {i : ℕ}

/-- A response that outlives its handler registers its stream; any other one ends the guard. -/
theorem finishWith_cases (activity : Activity) (slot now : ℕ) (response : Response) :
    (outlives response.body = true ∧ ∃ headers source,
      finishWith activity slot now response =
        (headers, some source, activity.registerStream slot)) ∨
    (outlives response.body = false ∧
      finishWith activity slot now response =
        (response.headers, none, activity.dropGuard now)) := by
  unfold finishWith outlives
  cases response.body with
  | stream chunks => exact Or.inl ⟨rfl, _, _, rfl⟩
  | full bytes =>
    cases bytes with
    | none => exact Or.inr ⟨rfl, rfl⟩
    | some bytes =>
      by_cases hlarge : bytes.len > largeBufferedBody
      · left
        simp only [if_pos hlarge]
        exact ⟨decide_eq_true hlarge, _, _, rfl⟩
      · right
        refine ⟨decide_eq_false hlarge, ?_⟩
        simp only [if_neg hlarge]

theorem finish_inv {response : Response}
    (h : connection.finish i response = some connection') :
    connection.requests[i]? = some .handling ∧
      ((outlives response.body = true ∧ ∃ source, connection' =
          connection.become i (.responding source) (connection.activity.registerStream i)) ∨
        (outlives response.body = false ∧ connection' =
          connection.become i .ended (connection.activity.dropGuard connection.clock))) := by
  unfold Connection.finish at h
  split at h
  · rename_i hrequest
    refine ⟨hrequest, ?_⟩
    rcases finishWith_cases connection.activity i connection.clock response with
      ⟨houtlives, headers, source, hfinish⟩ | ⟨houtlives, hfinish⟩
    · rw [hfinish] at h
      exact Or.inl ⟨houtlives, source, (Option.some.inj h).symm⟩
    · rw [hfinish] at h
      exact Or.inr ⟨houtlives, (Option.some.inj h).symm⟩
  · cases h

theorem poll_inv {answer : Answer} (h : connection.poll i answer = some connection') :
    ∃ source source', connection.requests[i]? = some (.responding source) ∧ connection' =
      connection.become i (.responding source')
        (pollGuarded connection.activity i connection.clock answer) := by
  unfold Connection.poll at h
  split at h
  · rename_i hrequest
    exact ⟨_, _, hrequest, (Option.some.inj h).symm⟩
  · rename_i hrequest
    split at h
    · exact ⟨_, _, hrequest, (Option.some.inj h).symm⟩
    · cases h
  · cases h

theorem drop_inv (h : connection.drop i = some connection') :
    (connection.requests[i]? = some .handling ∧ connection' =
      connection.become i .ended (connection.activity.dropGuard connection.clock)) ∨
    (∃ source, connection.requests[i]? = some (.responding source) ∧ connection' =
      connection.become i .ended (dropGuarded connection.activity i connection.clock)) := by
  unfold Connection.drop at h
  split at h
  · rename_i hrequest
    exact Or.inl ⟨hrequest, (Option.some.inj h).symm⟩
  · rename_i hrequest
    exact Or.inr ⟨_, hrequest, (Option.some.inj h).symm⟩
  · cases h

end Inversion

/-! ## One slot at a time -/

/-- Nothing changes about the other slots. -/
def SameElsewhere (slot : ℕ) (before after : Activity) : Prop :=
  ∀ other, other ≠ slot →
    (other ∈ after.streams ↔ other ∈ before.streams) ∧ after.slots other = before.slots other

section Slots

variable (activity : Activity) (slot now : ℕ)

theorem sameElsewhere_registerStream :
    SameElsewhere slot activity (activity.registerStream slot) := by
  intro other hne
  simp [Activity.registerStream, hne]

theorem sameElsewhere_dropGuard : SameElsewhere slot activity (activity.dropGuard now) := by
  intro other _
  exact ⟨Iff.rfl, rfl⟩

theorem sameElsewhere_pollGuarded (answer : Answer) :
    SameElsewhere slot activity (pollGuarded activity slot now answer) := by
  intro other hne
  cases answer <;> simp [pollGuarded, Activity.store, hne]

theorem sameElsewhere_dropGuarded :
    SameElsewhere slot activity (dropGuarded activity slot now) := by
  intro other hne
  simp [dropGuarded, Activity.dropSlot, Activity.dropGuard, Activity.touch, Activity.store, hne]

end Slots

/-- A request in the code and in the ledger. -/
inductive Agrees (activity : Activity) (slot : ℕ) : Request → Life → Prop where
  | handling (hnew : slot ∉ activity.streams) : Agrees activity slot .handling .handling
  | moving (source : Source) (hmem : slot ∈ activity.streams)
      (hslot : activity.slots slot = { value := 0, strongCount := 2 }) :
      Agrees activity slot (.responding source) .moving
  | waiting (source : Source) (since : ℕ) (hmem : slot ∈ activity.streams)
      (hslot : activity.slots slot = { value := since + 1, strongCount := 2 }) :
      Agrees activity slot (.responding source) (.waiting since)
  | ended (hvalue : slot ∈ activity.streams → (activity.slots slot).value = 0) :
      Agrees activity slot .ended .ended

/-- Only its own slot matters to a request. -/
theorem Agrees.frame {before after : Activity} {slot : ℕ} {request : Request} {life : Life}
    (h : Agrees before slot request life) (hmem : slot ∈ after.streams ↔ slot ∈ before.streams)
    (hslot : after.slots slot = before.slots slot) : Agrees after slot request life := by
  cases h with
  | handling hnew => exact .handling (mt hmem.mp hnew)
  | moving source hin heq => exact .moving source (hmem.mpr hin) (hslot.trans heq)
  | waiting source since hin heq => exact .waiting source since (hmem.mpr hin) (hslot.trans heq)
  | ended hvalue =>
    apply Agrees.ended
    intro hin
    rw [hslot]
    exact hvalue (hmem.mp hin)

/-- A body in the ledger: it has its slot in the list. -/
theorem Agrees.of_responding {activity : Activity} {slot : ℕ} {source : Source} {life : Life}
    (h : Agrees activity slot (.responding source) life) :
    life.isLive = true ∧ slot ∈ activity.streams ∧ (activity.slots slot).strongCount = 2 := by
  cases h with
  | moving source hmem hslot => exact ⟨rfl, hmem, by rw [hslot]⟩
  | waiting source since hmem hslot => exact ⟨rfl, hmem, by rw [hslot]⟩

/-! ## The connection and its ledger -/

/-- What an activity keeps is what the ledger tells. -/
structure Tracks (ledger : Ledger) (connection : Connection) : Prop where
  clock : ledger.clock = connection.clock
  known : ∀ slot ∈ connection.activity.streams, slot < connection.requests.length
  length : ledger.lives.length = connection.requests.length
  agrees : ∀ i request life, connection.requests[i]? = some request → ledger.lives[i]? = some life →
    Agrees connection.activity i request life
  inFlight : connection.activity.inFlight = ledger.live
  lastEnd : ledger.lastEnd ≤ connection.activity.lastMs

namespace Tracks

variable {ledger : Ledger} {connection connection' : Connection} {i : ℕ}

theorem new : Tracks .new .new where
  clock := rfl
  known := by
    intro slot hslot
    cases hslot
  length := rfl
  agrees := by
    intro i request life hrequest
    cases hrequest
  inFlight := rfl
  lastEnd := le_rfl

/-- Every request is in the ledger. -/
theorem exists_life (h : Tracks ledger connection) {request : Request}
    (hrequest : connection.requests[i]? = some request) :
    ∃ life, ledger.lives[i]? = some life ∧ Agrees connection.activity i request life := by
  obtain ⟨hi, -⟩ := List.getElem?_eq_some_iff.mp hrequest
  have hi' : i < ledger.lives.length := by
    rw [h.length]
    exact hi
  have hlife : ledger.lives[i]? = some ledger.lives[i] := List.getElem?_eq_getElem hi'
  exact ⟨_, hlife, h.agrees i request _ hrequest hlife⟩

/-- The number of live requests after one has changed. -/
theorem live_set {life life' : Life} (hlife : ledger.lives[i]? = some life) (lastEnd : ℕ) :
    ({ ledger with lives := ledger.lives.set i life', lastEnd } : Ledger).live + life.count =
      ledger.live + life'.count := by
  obtain ⟨hi, heq⟩ := List.getElem?_eq_some_iff.mp hlife
  unfold Ledger.live Life.count
  rw [List.countP_set hi, heq]
  -- a request that is live is counted
  have hpos : life.isLive = true → 0 < ledger.lives.countP Life.isLive := by
    intro hlive
    rw [List.countP_pos_iff]
    exact ⟨life, List.mem_of_getElem? hlife, hlive⟩
  split
  · have hcounted := hpos ‹_›
    omega
  · omega

/-- One request becomes something else, in the code and in the ledger. -/
theorem become (h : Tracks ledger connection) {request : Request} {life life' : Life}
    {request' : Request} {activity : Activity} {lastEnd : ℕ}
    (hrequest : connection.requests[i]? = some request) (hlife : ledger.lives[i]? = some life)
    (hframe : SameElsewhere i connection.activity activity)
    (hagrees : Agrees activity i request' life')
    (hinFlight : activity.inFlight + life.count = connection.activity.inFlight + life'.count)
    (hlastEnd : lastEnd ≤ activity.lastMs) :
    Tracks { ledger with lives := ledger.lives.set i life', lastEnd }
      (connection.become i request' activity) := by
  obtain ⟨hi, -⟩ := List.getElem?_eq_some_iff.mp hrequest
  constructor
  · exact h.clock
  · intro slot hslot
    show slot < (connection.requests.set i request').length
    rw [List.length_set]
    by_cases hne : slot = i
    · rw [hne]
      exact hi
    · exact h.known slot ((hframe slot hne).1.mp hslot)
  · show (ledger.lives.set i life').length = (connection.requests.set i request').length
    rw [List.length_set, List.length_set, h.length]
  · intro j request₁ life₁ hrequest₁ hlife₁
    by_cases hne : j = i
    · subst hne
      have hrequest₁ : (connection.requests.set j request')[j]? = some request₁ := hrequest₁
      have hlife₁ : (ledger.lives.set j life')[j]? = some life₁ := hlife₁
      rw [List.getElem?_set_self hi] at hrequest₁
      rw [List.getElem?_set_self (by rw [h.length]; exact hi)] at hlife₁
      obtain rfl := Option.some.inj hrequest₁
      obtain rfl := Option.some.inj hlife₁
      exact hagrees
    · have hrequest₁ : (connection.requests.set i request')[j]? = some request₁ := hrequest₁
      have hlife₁ : (ledger.lives.set i life')[j]? = some life₁ := hlife₁
      rw [List.getElem?_set_ne (Ne.symm hne)] at hrequest₁ hlife₁
      obtain ⟨hmem, hslot⟩ := hframe j hne
      exact (h.agrees j request₁ life₁ hrequest₁ hlife₁).frame hmem hslot
  · have hlive : ({ ledger with lives := ledger.lives.set i life', lastEnd } : Ledger).live +
        life.count = ledger.live + life'.count := live_set hlife lastEnd
    have hcount := h.inFlight
    show activity.inFlight = _
    omega
  · exact hlastEnd

/-- A new request. -/
theorem start (h : Tracks ledger connection) :
    Tracks { ledger with lives := ledger.lives ++ [.handling] }
      { connection with
        activity := connection.activity.startGuard
        requests := connection.requests ++ [.handling] } := by
  constructor
  · exact h.clock
  · intro slot hslot
    rw [List.length_append]
    exact Nat.lt_add_right _ (h.known slot hslot)
  · rw [List.length_append, List.length_append, h.length]
    rfl
  · intro i request life hrequest hlife
    rcases Nat.lt_or_ge i connection.requests.length with hlt | hge
    · rw [List.getElem?_append_left hlt] at hrequest
      rw [List.getElem?_append_left (by rw [h.length]; exact hlt)] at hlife
      exact (h.agrees i request life hrequest hlife).frame Iff.rfl rfl
    · rw [List.getElem?_append_right hge] at hrequest
      rw [List.getElem?_append_right (by rw [h.length]; exact hge), h.length] at hlife
      rw [List.getElem?_singleton] at hrequest hlife
      split at hrequest
      · rw [if_pos ‹_›] at hlife
        obtain rfl := Option.some.inj hrequest
        obtain rfl := Option.some.inj hlife
        apply Agrees.handling
        intro hmem
        exact absurd (h.known i hmem) (Nat.not_lt.mpr hge)
      · cases hrequest
  · show connection.activity.inFlight + 1 = ((ledger.lives ++ [Life.handling]).countP Life.isLive : ℕ)
    rw [h.inFlight, Ledger.live, List.countP_append]
    rfl
  · exact h.lastEnd

/-- A handler completes. -/
theorem finish (h : Tracks ledger connection) {response : Response}
    (hstep : connection.finish i response = some connection') :
    Tracks (ledger.step (.finish i response)) connection' := by
  obtain ⟨hrequest, hcases⟩ := finish_inv hstep
  obtain ⟨life, hlife, hagrees⟩ := h.exists_life hrequest
  cases hagrees
  unfold Ledger.step
  rcases hcases with ⟨houtlives, source, rfl⟩ | ⟨houtlives, rfl⟩
  · simp only [houtlives, if_true]
    apply h.become hrequest hlife (sameElsewhere_registerStream _ i)
    · apply Agrees.moving
      · exact List.mem_append_right _ (List.mem_singleton_self i)
      · exact Function.update_self ..
    · rfl
    · exact h.lastEnd
  · simp only [houtlives, Bool.false_eq_true, if_false]
    apply h.become hrequest hlife (sameElsewhere_dropGuard _ i _)
    · apply Agrees.ended
      -- a request whose handler is running has no slot
      intro hmem
      exact absurd hmem ‹_›
    · show connection.activity.inFlight - 1 + 1 = connection.activity.inFlight + 0
      omega
    · rw [h.clock]
      exact Nat.le_max_right _ _

/-- A body is polled. -/
theorem poll (h : Tracks ledger connection) {answer : Answer}
    (hstep : connection.poll i answer = some connection') :
    Tracks (ledger.step (.poll i answer)) connection' := by
  obtain ⟨source, source', hrequest, rfl⟩ := poll_inv hstep
  obtain ⟨life, hlife, hagrees⟩ := h.exists_life hrequest
  obtain ⟨hlive, hmem, hcount⟩ := hagrees.of_responding
  have hone : life.count = 1 := by rw [Life.count, if_pos hlive]
  have hframe := sameElsewhere_pollGuarded connection.activity i connection.clock answer
  cases answer with
  | chunk bytes =>
    apply h.become hrequest hlife hframe
    · rw [h.clock]
      apply Agrees.waiting
      · exact hmem
      · simp [pollGuarded, Activity.store, hcount]
    · rw [hone]
      rfl
    · exact h.lastEnd
  | pending =>
    apply h.become hrequest hlife hframe
    · apply Agrees.moving
      · exact hmem
      · simp [pollGuarded, Activity.store, hcount]
    · rw [hone]
      rfl
    · exact h.lastEnd
  | ended =>
    apply h.become hrequest hlife hframe
    · apply Agrees.moving
      · exact hmem
      · simp [pollGuarded, Activity.store, hcount]
    · rw [hone]
      rfl
    · exact h.lastEnd

/-- A handler or a body is dropped. -/
theorem drop (h : Tracks ledger connection) (hstep : connection.drop i = some connection') :
    Tracks (ledger.step (.drop i)) connection' := by
  have hclock : ledger.clock ≤ max connection.activity.lastMs connection.clock := by
    rw [h.clock]
    exact Nat.le_max_right _ _
  rcases drop_inv hstep with ⟨hrequest, rfl⟩ | ⟨source, hrequest, rfl⟩
  · obtain ⟨life, hlife, hagrees⟩ := h.exists_life hrequest
    cases hagrees
    apply h.become hrequest hlife (sameElsewhere_dropGuard _ i _)
    · apply Agrees.ended
      intro hmem
      exact absurd hmem ‹_›
    · show connection.activity.inFlight - 1 + 1 = connection.activity.inFlight + 0
      omega
    · exact hclock
  · obtain ⟨life, hlife, hagrees⟩ := h.exists_life hrequest
    obtain ⟨hlive, hmem, hcount⟩ := hagrees.of_responding
    have hone : life.count = 1 := by rw [Life.count, if_pos hlive]
    apply h.become hrequest hlife (sameElsewhere_dropGuarded _ i _)
    · apply Agrees.ended
      intro _
      simp [dropGuarded, Activity.dropSlot, Activity.dropGuard, Activity.touch, Activity.store]
    · rw [hone]
      show connection.activity.inFlight - 1 + 1 = connection.activity.inFlight + 0
      omega
    · exact hclock

/-- The watchdog forgets the slots of streams that are gone. -/
theorem watch (h : Tracks ledger connection) :
    Tracks ledger
      { connection with activity := (connection.activity.stalledFor connection.clock).2 } := by
  have hsub : ∀ slot ∈ connection.activity.retained, slot ∈ connection.activity.streams :=
    fun slot hslot => List.mem_of_mem_filter hslot
  have hkept : ∀ slot ∈ connection.activity.streams,
      (connection.activity.slots slot).strongCount = 2 → slot ∈ connection.activity.retained := by
    intro slot hmem hcount
    apply List.mem_filter.mpr
    exact ⟨hmem, by rw [hcount]; rfl⟩
  constructor
  · exact h.clock
  · intro slot hslot
    exact h.known slot (hsub slot hslot)
  · exact h.length
  · intro i request life hrequest hlife
    cases h.agrees i request life hrequest hlife with
    | handling hnew => exact .handling (mt (hsub i) hnew)
    | moving source hmem hslot =>
      exact .moving source (hkept i hmem (by rw [hslot])) hslot
    | waiting source since hmem hslot =>
      exact .waiting source since (hkept i hmem (by rw [hslot])) hslot
    | ended hvalue => exact .ended (fun hmem => hvalue (hsub i hmem))
  · exact h.inFlight
  · exact h.lastEnd

/-- **Every event keeps the connection and its ledger together.** -/
theorem step (h : Tracks ledger connection) {event : Event}
    (hstep : connection.step event = some connection') :
    Tracks (ledger.step event) connection' := by
  cases event with
  | tick ms =>
    obtain rfl := Option.some.inj hstep
    constructor
    · exact congrArg (· + ms) h.clock
    · exact h.known
    · exact h.length
    · exact h.agrees
    · exact h.inFlight
    · exact h.lastEnd
  | start =>
    obtain rfl := Option.some.inj hstep
    exact h.start
  | finish i response => exact h.finish hstep
  | poll i answer => exact h.poll hstep
  | drop i => exact h.drop hstep
  | watch =>
    obtain rfl := Option.some.inj hstep
    exact h.watch
  | progress =>
    obtain rfl := Option.some.inj hstep
    constructor
    · exact h.clock
    · exact h.known
    · exact h.length
    · intro i request life hrequest hlife
      exact (h.agrees i request life hrequest hlife).frame Iff.rfl rfl
    · exact h.inFlight
    · exact h.lastEnd.trans (Nat.le_max_left _ _)

/-- Every run keeps them together. -/
theorem foldlM (h : Tracks ledger connection) {events : List Event}
    (hrun : events.foldlM Connection.step connection = some connection') :
    Tracks (events.foldl Ledger.step ledger) connection' := by
  induction events generalizing ledger connection with
  | nil =>
    obtain rfl : connection = connection' := Option.some.inj hrun
    exact h
  | cons event events ih =>
    rw [List.foldlM_cons] at hrun
    obtain ⟨next, hnext, hrest⟩ := Option.bind_eq_some_iff.mp hrun
    exact ih (h.step hnext) hrest

/-! ## What the watchdog reads -/

/-- The times of the slots are the waits of the ledger. -/
theorem mem_waits (h : Tracks ledger connection) (ms : ℕ) :
    ms ∈ connection.activity.retained.filterMap
      (connection.activity.waitingFor connection.clock) ↔ ms ∈ ledger.waits := by
  rw [List.mem_filterMap]
  constructor
  · rintro ⟨slot, hslot, hms⟩
    have hmem : slot ∈ connection.activity.streams := List.mem_of_mem_filter hslot
    obtain ⟨request, hrequest⟩ : ∃ request, connection.requests[slot]? = some request :=
      ⟨_, List.getElem?_eq_getElem (h.known slot hmem)⟩
    obtain ⟨life, hlife, hagrees⟩ := h.exists_life hrequest
    unfold Activity.waitingFor at hms
    cases hagrees with
    | handling hnew => exact absurd hmem hnew
    | moving source _ hvalue =>
      rw [hvalue] at hms
      cases hms
    | waiting source since _ hvalue =>
      rw [hvalue] at hms
      obtain rfl : connection.clock - since = ms := Option.some.inj hms
      exact ⟨since, List.mem_of_getElem? hlife, by rw [h.clock]⟩
    | ended hvalue =>
      -- a stream that is over has released its slot
      rw [if_neg (not_not.mpr (hvalue hmem))] at hms
      cases hms
  · rintro ⟨since, hlife, rfl⟩
    obtain ⟨i, hi, hget⟩ := List.mem_iff_getElem.mp hlife
    have hlife : ledger.lives[i]? = some (.waiting since) := List.getElem?_eq_some_iff.mpr ⟨hi, hget⟩
    have hi' : i < connection.requests.length := by
      rw [← h.length]
      exact hi
    obtain ⟨request, hrequest⟩ : ∃ request, connection.requests[i]? = some request :=
      ⟨_, List.getElem?_eq_getElem hi'⟩
    have hagrees := h.agrees i _ _ hrequest hlife
    cases hagrees with
    | waiting source since hmem hvalue =>
      refine ⟨i, ?_, ?_⟩
      · apply List.mem_filter.mpr
        exact ⟨hmem, by rw [hvalue]; rfl⟩
      · rw [Activity.waitingFor, hvalue, h.clock]
        rfl

theorem stalledFor_some (h : Tracks ledger connection) (ms : ℕ) :
    (connection.activity.stalledFor connection.clock).1 = some ms ↔ IsGreatest ledger.waits ms := by
  show (connection.activity.retained.filterMap _).max? = some ms ↔ _
  rw [List.max?_eq_some_iff, h.mem_waits]
  apply and_congr_right
  intro _
  constructor
  · intro hle other hother
    exact hle other ((h.mem_waits other).mpr hother)
  · intro hle other hother
    exact hle ((h.mem_waits other).mp hother)

theorem stalledFor_none (h : Tracks ledger connection) :
    (connection.activity.stalledFor connection.clock).1 = none ↔ ledger.waits = ∅ := by
  show (connection.activity.retained.filterMap _).max? = none ↔ _
  rw [List.max?_eq_none_iff, List.eq_nil_iff_forall_not_mem, Set.eq_empty_iff_forall_notMem]
  apply forall_congr'
  intro ms
  rw [h.mem_waits]

theorem idleFor_none (h : Tracks ledger connection) :
    connection.activity.idleFor connection.clock = none ↔ 0 < ledger.live := by
  rw [Activity.idleFor, h.inFlight]
  split
  · simp only [reduceCtorEq, false_iff]
    omega
  · simp only [true_iff]
    omega

theorem idleFor_le (h : Tracks ledger connection) {ms : ℕ}
    (hidle : connection.activity.idleFor connection.clock = some ms) :
    ms ≤ ledger.clock - ledger.lastEnd := by
  have hlastEnd := h.lastEnd
  unfold Activity.idleFor at hidle
  split at hidle
  · obtain rfl := Option.some.inj hidle
    rw [h.clock]
    omega
  · cases hidle

end Tracks

/-! ## Runs -/

theorem tracks_run {events : List Event} {connection : Connection}
    (h : Connection.run events = some connection) : Tracks (.run events) connection :=
  Tracks.new.foldlM h

/-- **Activity tracking is exact.** After any events that can happen, the counter is the number of
    requests whose handler is running or whose large or streaming body is not dropped; the
    connection is idle when there is none, for no longer than since the last one ended; and
    `stalled_for` is the longest time that a body has been waiting since it handed out a chunk. -/
theorem activity_exact {events : List Event} {connection : Connection}
    (h : Connection.run events = some connection) :
    connection.activity.inFlight = (Ledger.run events).live ∧
      (connection.activity.idleFor connection.clock = none ↔ 0 < (Ledger.run events).live) ∧
      (∀ ms, connection.activity.idleFor connection.clock = some ms →
        ms ≤ (Ledger.run events).clock - (Ledger.run events).lastEnd) ∧
      (∀ ms, (connection.activity.stalledFor connection.clock).1 = some ms ↔
        IsGreatest (Ledger.run events).waits ms) ∧
      ((connection.activity.stalledFor connection.clock).1 = none ↔
        (Ledger.run events).waits = ∅) := by
  have htracks := tracks_run h
  refine ⟨htracks.inFlight, htracks.idleFor_none, ?_, htracks.stalledFor_some,
    htracks.stalledFor_none⟩
  intro ms hidle
  exact htracks.idleFor_le hidle

/-- A stream that waits behind one that moves and ends: the longest wait is its own. -/
theorem activity_exact_hidden :
    let response : Response := { status := 200, headers := .empty, body := .stream [] }
    ∃ connection,
      Connection.run [.start, .finish 0 response, .start, .finish 1 response, .poll 0 (.chunk []),
        .tick 500, .poll 1 (.chunk []), .tick 100, .poll 1 .pending, .watch, .drop 1] =
          some connection ∧
      connection.activity.inFlight = 1 ∧
      (connection.activity.stalledFor connection.clock).1 = some 600 := by
  intro response
  obtain ⟨connection, hrun⟩ : ∃ connection,
      Connection.run [.start, .finish 0 response, .start, .finish 1 response, .poll 0 (.chunk []),
        .tick 500, .poll 1 (.chunk []), .tick 100, .poll 1 .pending, .watch, .drop 1] =
          some connection := ⟨_, rfl⟩
  obtain ⟨hinFlight, -, -, hstalled, -⟩ := activity_exact hrun
  refine ⟨connection, hrun, hinFlight, (hstalled 600).mpr ?_⟩
  constructor
  · exact ⟨0, List.mem_cons_self, rfl⟩
  · rintro ms ⟨since, hlife, rfl⟩
    exact Nat.sub_le _ _

/-- **A connection with a request in flight is not asked to close**, and it is cut only when a body
    has been waiting for the limit. -/
theorem not_cut_in_flight {events : List Event} {connection : Connection}
    (h : Connection.run events = some connection) (hlive : 0 < (Ledger.run events).live)
    (stall idle closing : Option ℕ) :
    tickH2 connection stall idle closing = .goOn ∨
      (tickH2 connection stall idle closing = .cut ∧
        ∃ limit ∈ stall, ∃ ms ∈ (Ledger.run events).waits, limit ≤ ms) := by
  have htracks := tracks_run h
  have hidle := htracks.idleFor_none.mpr hlive
  unfold tickH2
  rw [hidle]
  split
  · rename_i hoverdue
    right
    refine ⟨rfl, ?_⟩
    unfold overdue at hoverdue
    split at hoverdue
    · rename_i limit stalled hread
      have hgreatest := (htracks.stalledFor_some stalled).mp hread
      exact ⟨limit, rfl, stalled, hgreatest.1, of_decide_eq_true hoverdue⟩
    · cases hoverdue
  · left
    cases closing <;> rfl

end OasRs.Http2
