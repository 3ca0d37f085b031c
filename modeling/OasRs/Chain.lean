import OasRs.Runtime

/-!
# The Middleware Chain

`Next::run` threads an index through the layer list and reads each scope when a layer is
reached; `ConnectionRuntime::prepare` and `AppRuntime::oneshot` read all of them first, and skip
the chain if none covers the request. Both are the composition of the layers, where a layer is
left out for the requests that it does not cover.

## Main results

- `Next.run_eq_composition`: `Next::run` for any layers and any end of the chain
- `Server.chain_eq_composition`: both entry points, poll by poll
-/

namespace OasRs

open Lib.Polling

/-! ## Composition -/

section Composition

variable {M Q R : Type} (head : Q → Request) (handle : M → Q → (Q → R) → R) (dispatch : Q → R)

/-- A layer in front of what comes next. -/
def ScopedLayer.wrap (entry : ScopedLayer M) (next : Q → R) (request : Q) : R :=
  if entry.covers (head request) then handle entry.layer request next else next request

/-- The composition of the layers, in the order of their registration. -/
def composition (middleware : List (ScopedLayer M)) : Q → R :=
  middleware.foldr (ScopedLayer.wrap head handle) dispatch

/-- The composition passes over the layers that do not cover the request. -/
theorem composition_skip (middleware : List (ScopedLayer M)) (request : Q) :
    composition head handle dispatch middleware request =
      match middleware.findIdx? fun entry => entry.covers (head request) with
      | some k =>
        match middleware[k]? with
        | some entry =>
          handle entry.layer request (composition head handle dispatch (middleware.drop (k + 1)))
        | none => dispatch request
      | none => dispatch request := by
  induction middleware with
  | nil => rfl
  | cons entry middleware ih =>
    rw [composition, List.foldr_cons, ScopedLayer.wrap, List.findIdx?_cons]
    split
    · rfl
    · show composition head handle dispatch middleware request = _
      rw [ih]
      cases middleware.findIdx? fun entry => entry.covers (head request) with
      | none => rfl
      | some k => rfl

/-- A request that no layer covers goes through. -/
theorem composition_of_not_covered {middleware : List (ScopedLayer M)} {request : Q}
    (h : hasMatchingLayer middleware (head request).method (head request).path = false) :
    composition head handle dispatch middleware request = dispatch request := by
  have hnone : (middleware.findIdx? fun entry => entry.covers (head request)) = none := by
    rw [List.findIdx?_eq_none_iff]
    intro entry hentry
    rw [hasMatchingLayer, List.any_eq_false] at h
    exact Bool.eq_false_iff.mpr (h entry hentry)
  rw [composition_skip, hnone]

/-- **`Next::run` is the composition of the layers that are left.** -/
theorem Next.run_eq_composition (middleware : List (ScopedLayer M)) (fuel index : ℕ)
    (hfuel : middleware.length ≤ index + fuel) (request : Q) :
    Next.run head handle dispatch middleware fuel index request =
      composition head handle dispatch (middleware.drop index) request := by
  induction fuel generalizing index request with
  | zero =>
    rw [List.drop_eq_nil_of_le (by omega)]
    rfl
  | succ fuel ih =>
    rw [composition_skip, Next.run, Next.skip]
    cases (middleware.drop index).findIdx? fun entry => entry.covers (head request) with
    | none => rfl
    | some k =>
      simp only [Option.map_some, List.getElem?_drop, List.drop_drop]
      cases middleware[index + k]? with
      | none => rfl
      | some entry =>
        simp only
        -- the layers behind the one that was found
        have hrest : Next.run head handle dispatch middleware fuel (index + k + 1) =
            composition head handle dispatch (middleware.drop (index + (k + 1))) :=
          funext (ih (index + k + 1) (by omega))
        rw [hrest]

end Composition

/-! ## Layers -/

variable {S Incoming M : Type}

/-- `RequestBody` of the middleware -/
inductive Middleware.RequestBody (Incoming : Type) where
  | incoming (body : Incoming)
  | full (bytes : Bytes)

/-- What a layer comes to: it answers itself, or it calls `next` once, with the request or a
    changed one, and does something with the response. -/
inductive LayerStep (Incoming : Type) where
  | answer (response : Response)
  | next (request : HttpRequest (Middleware.RequestBody Incoming)) (after : Response → Future Response)

/-- `Middleware` -/
abbrev Layer (Incoming : Type) : Type :=
  HttpRequest (Middleware.RequestBody Incoming) → Future (LayerStep Incoming)

/-- What polling a chain does: layers are run, and a response or a fault is given. -/
abbrev Run (M : Type) : Type := Traced M (Except Fault Response)

/-- What the scopes read of a request. -/
def HttpRequest.head {B : Type} (request : HttpRequest B) : Request :=
  { method := request.parts.method, path := request.parts.path }

/-- `Middleware::handle` -/
def Layer.handle (behave : M → Layer Incoming) (layer : M)
    (request : HttpRequest (Middleware.RequestBody Incoming))
    (next : HttpRequest (Middleware.RequestBody Incoming) → Run M) : Run M :=
  .event layer ((Traced.ofFuture (behave layer request)).bind fun
    | .answer response => .ready (.ok response)
    | .next request after => (next request).bind fun
      | .ok response => .ofFuture ((after response).map .ok)
      | .error fault => .ready (.error fault))

/-! ## Entry points -/

/-- The rest of a prepared dispatch, as a future. -/
def PreparedDispatch.future : PreparedDispatch → Future (Except Fault Response)
  | .ready (some response) => .ready (.ok response)
  | .ready none => .ready (.error .polledTwice)
  | .handler isHead future => future.map fun response => .ok (maybeHeadFlag isHead response)
  | .buffered future => future

/-- Boxing a prepared dispatch changes nothing that polls see. -/
theorem PreparedDispatch.drive_poll (dispatch : PreparedDispatch) (n : ℕ) :
    drive PreparedDispatch.poll n dispatch = dispatch.future.run n := by
  have hmatches : ∀ {future}, Matches dispatch future →
      drive PreparedDispatch.poll n dispatch = future.run n :=
    fun h => simulates_poll.drive_eq h n
  cases dispatch with
  | ready response =>
    cases response with
    | some response => exact hmatches (.ready response)
    | none =>
      cases n with
      | zero => rfl
      | succ n => rfl
  | handler isHead future => exact hmatches (.handler isHead future)
  | buffered future => exact hmatches (.buffered future)

namespace Server

variable (env : Environment Incoming) (server : Server S Incoming M) (behave : M → Layer Incoming)

/-- `Host::dispatch`: plain dispatch, at the end of the chain. -/
def hostDispatch (request : HttpRequest (Middleware.RequestBody Incoming)) : Run M :=
  match request.body with
  | .incoming body =>
    match server.prepareDirect env { parts := request.parts, body } with
    | .ok dispatch => .ofFuture dispatch.future
    | .error fault => .ready (.error fault)
  | .full bytes => .ofFuture (server.handle env { parts := request.parts, body := bytes })

/-- `Next::new(host).run(request)` -/
def runChain : HttpRequest (Middleware.RequestBody Incoming) → Run M :=
  Next.run HttpRequest.head (Layer.handle behave) (server.hostDispatch env) server.runtime.middleware
    server.runtime.middleware.length 0

/-- `ConnectionRuntime::prepare`, and at most `n` polls of what it returns. -/
def prepare (request : HttpRequest Incoming) (n : ℕ) : List M × Option (Except Fault Response) :=
  if hasMatchingLayer server.runtime.middleware request.parts.method request.parts.path then
    (server.runChain env behave { parts := request.parts, body := .incoming request.body }).run n
  else ([], server.network env request n)

/-- `AppRuntime::oneshot`, and at most `n` polls. -/
def oneshot (request : HttpRequest Bytes) (n : ℕ) : List M × Option (Except Fault Response) :=
  if hasMatchingLayer server.runtime.middleware request.parts.method request.parts.path then
    (server.runChain env behave { parts := request.parts, body := .full request.body }).run n
  else ([], server.memory env request n)

/-- The composition of the server's layers, with plain dispatch at the end. -/
def composed : HttpRequest (Middleware.RequestBody Incoming) → Run M :=
  composition HttpRequest.head (Layer.handle behave) (server.hostDispatch env)
    server.runtime.middleware

theorem runChain_eq : server.runChain env behave = server.composed env behave := by
  funext request
  rw [runChain, Next.run_eq_composition _ _ _ _ _ _ (Nat.le_add_left _ _), List.drop_zero]
  rfl

/-- Polls of plain dispatch, for a request from the network. -/
theorem run_hostDispatch_incoming (request : HttpRequest Incoming) (n : ℕ) :
    (server.hostDispatch env { parts := request.parts, body := .incoming request.body }).run (n + 1) =
      ([], server.network env request (n + 1)) := by
  rw [hostDispatch, network]
  simp only
  cases server.prepareDirect env request with
  | error fault => rfl
  | ok dispatch =>
    simp only
    rw [Traced.run_ofFuture, PreparedDispatch.drive_poll]

theorem run_hostDispatch_full (request : HttpRequest Bytes) (n : ℕ) :
    (server.hostDispatch env { parts := request.parts, body := .full request.body }).run n =
      ([], server.memory env request n) :=
  Traced.run_ofFuture _ n

/-- A request that no layer covers takes the chain to its end. -/
theorem composed_of_not_covered {request : HttpRequest (Middleware.RequestBody Incoming)}
    (h : ¬ hasMatchingLayer server.runtime.middleware request.parts.method request.parts.path = true) :
    server.composed env behave request = server.hostDispatch env request :=
  composition_of_not_covered _ _ _ (Bool.eq_false_iff.mpr h)

/-- **The chain is the composition of the layers**: both entry points run the layers of the
composition, in its order, and give its response, poll by poll. Skipping the chain gives what
running it would give. -/
theorem chain_eq_composition :
    (∀ (request : HttpRequest Incoming) (n : ℕ), server.prepare env behave request (n + 1) =
      (server.composed env behave
        { parts := request.parts, body := .incoming request.body }).run (n + 1)) ∧
    (∀ (request : HttpRequest Bytes) (n : ℕ), server.oneshot env behave request (n + 1) =
      (server.composed env behave
        { parts := request.parts, body := .full request.body }).run (n + 1)) ∧
    ∀ request : HttpRequest (Middleware.RequestBody Incoming),
      (if hasMatchingLayer server.runtime.middleware request.parts.method request.parts.path then
        server.runChain env behave request
      else server.hostDispatch env request) = server.runChain env behave request := by
  refine ⟨fun request n => ?_, fun request n => ?_, fun request => ?_⟩
  · rw [prepare]
    split
    · rw [runChain_eq]
    · rw [composed_of_not_covered env server behave ‹_›, run_hostDispatch_incoming]
  · rw [oneshot]
    split
    · rw [runChain_eq]
    · rw [composed_of_not_covered env server behave ‹_›, run_hostDispatch_full]
  · rw [runChain_eq]
    split
    · rfl
    · exact (composed_of_not_covered env server behave ‹_›).symm

end Server

end OasRs
