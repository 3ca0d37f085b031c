import OasRs.Dispatch
import OasRs.Lib.Polling
import OasRs.Responses

/-!
# Network and In-Memory Dispatch

`src/runtime.rs` answers a request twice: `ConnectionRuntime::prepare_direct` for a request
from the network, whose body still has to be collected, and `RuntimeRef::handle` for one in
memory. Collecting a body and serializing JSON are parameters.

## Main results

- `Program.sound_build`: how the plans that `build` freezes fit their handlers
- `simulates_poll`: polling a `PreparedDispatch` is awaiting the handler
- `network_iff_memory`: both paths give the same response
-/

namespace OasRs

open Lib.Polling

/-! ## Requests and parameters -/

/-- `http::Request`, with a body of type `B`. -/
structure HttpRequest (B : Type) where
  parts : Parts
  body : B

/-- `Params` -/
structure Params where
  packed : Vector ℕ 8
  count : ℕ
  /-- the names and the decoded values -/
  owned : Option (List Text × List Text)
  deriving DecidableEq

namespace Params

/-- `Params::empty` -/
def empty : Params := { packed := Vector.replicate 8 0, count := 0, owned := none }

/-- `Params::from_match`, as the router calls it: nothing is materialized. -/
def fromMatch (captures : CaptureSet) : Params :=
  { packed := captures.packed, count := captures.count, owned := none }

/-- `Params::from_materialized_names`. Every range below the count is there. -/
def fromMaterializedNames (names : List Text) (captures : CaptureSet) (path : Text) :
    Except ApiError Params :=
  match (captures.texts path).mapM percentDecode with
  | .ok values =>
    .ok { packed := captures.packed, count := captures.count, owned := some (names, values) }
  | .error error => .error error.toApiError

/-- `Params::get` -/
def get (params : Params) (name : Text) : Option Text :=
  params.owned.bind fun owned =>
    ((owned.1.zip owned.2).find? fun (key, _) => key == name).map Prod.snd

/-- `Params::range` -/
def range (params : Params) (index : ℕ) : Option CaptureRange :=
  CaptureSet.range { packed := params.packed, count := params.count } index

/-- `Params::first_raw` -/
def firstRaw (params : Params) (path : Text) : Option Text :=
  (params.range 0).map fun range => PathParts.slice path range.start range.stop

end Params

/-! ## Handlers -/

/-- What registration erases a handler to: each `HandlerKind` calls its own entry. -/
structure Endpoint (S Incoming : Type) where
  /-- `Handler::zero_handler` -/
  zero : Future Response
  /-- `Handler::call` -/
  call : HttpRequest Bytes → Params → S → Future Response
  /-- `RawHandler::call` -/
  raw : HttpRequest Incoming → Future Response
  /-- the response of a static route -/
  static : StaticResponse

/-- `NEEDS_PARAMS`, `NEEDS_CAPTURE` and `NEEDS_BODY` of an extractor. -/
structure Needs where
  params : Bool
  capture : Bool
  body : Bool
  deriving DecidableEq, Repr

/-- The `Handler` implementations of `src/handler.rs`: functions of extractors. Only the
    function of none has a `zero_handler`. -/
def Handler.of {H : Type} (arguments : List Needs) (call : H) : Handler H where
  call
  zero := arguments.isEmpty
  needsBody := arguments.any Needs.body
  needsParams := arguments.any Needs.params
  needsCapture := arguments.any Needs.capture

/-- The handler does not read the body. -/
def Endpoint.IgnoresBody {S Incoming : Type} (endpoint : Endpoint S Incoming) : Prop :=
  ∀ parts body params state,
    endpoint.call { parts, body } params state = endpoint.call { parts, body := .new } params state

/-- Whether a handler takes the original body. -/
def HandlerKind.isRaw {H : Type} : HandlerKind H → Bool
  | .raw _ => true
  | .zero _ | .typedNoParams _ | .typed _ | .static _ => false

/-- A handler as the library implements it, which reads the body only if it says so. -/
def Handler.Lawful {S Incoming : Type} (handler : Handler (Endpoint S Incoming)) : Prop :=
  (∃ arguments, handler = .of arguments handler.call) ∧
    (handler.needsBody = false → handler.call.IgnoresBody)

/-! ## Faults -/

/-- The panics that dispatch guards with `unreachable!` and `expect`. -/
inductive Fault where
  /-- "only raw handlers may receive Incoming" -/
  | incomingNotRaw
  /-- "raw handler requires Incoming" -/
  | rawWithoutIncoming
  /-- "raw routes require Incoming request bodies" -/
  | rawInMemory
  /-- "fast handlers returned before typed dispatch" -/
  | fastHandler
  /-- "materialized captures have names" -/
  | captureNames
  /-- the plan of an index that is out of bounds -/
  | noPlan
  /-- "prepared response polled twice" -/
  | polledTwice
  deriving DecidableEq, Repr

/-! ## The environment -/

/-- How collecting a body fails. -/
inductive CollectError where
  /-- `LengthLimitError` -/
  | lengthLimit
  | interrupted
  deriving DecidableEq, Repr

/-- What the runtime uses of other crates. -/
structure Environment (Incoming : Type) where
  /-- `serde_json::to_vec` -/
  toVec : Json → Bytes
  /-- `Limited::new(body, limit).collect()` -/
  collect : ℕ → Incoming → Future (Except CollectError Bytes)
  /-- `tokio::time::timeout` -/
  timeout : ℕ → Future (Except CollectError Bytes) → Future (Option (Except CollectError Bytes))

/-- The body is complete and has these bytes: the collection gives them, or fails if they are
    more than the limit, and does so before a timeout that is set. -/
structure Environment.Arrives {Incoming : Type} (env : Environment Incoming) (timeout : Option ℕ)
    (body : Incoming) (bytes : Bytes) : Prop where
  collect : ∀ limit, (env.collect limit body).Gives
    (if bytes.len ≤ limit then .ok bytes else .error .lengthLimit)
  inTime : ∀ limit, ∀ duration ∈ timeout, (env.timeout duration (env.collect limit body)).Gives
    (some (if bytes.len ≤ limit then .ok bytes else .error .lengthLimit))

/-! ## `CaptureProvider` -/

/-- The implementations of `CaptureProvider`. -/
inductive Captures where
  | static
  | dynamic (captures : CaptureSet)

/-- `CaptureProvider::invoke`. The `debug_assert!` of `StaticCaptures` is not modelled. -/
def Captures.invoke {S Incoming : Type} (env : Environment Incoming) (captures : Captures)
    (mode : CaptureMode) (request : HttpRequest Bytes) (captureNames : Option (List Text))
    (handler : HttpRequest Bytes → Params → S → Future Response) (state : S) :
    Except Fault (Future Response) :=
  match captures with
  | .static => .ok (handler request .empty state)
  | .dynamic captures =>
    let path := normalizeRequestPath request.parts.path
    match mode with
    | .none => .ok (handler request .empty state)
    | .borrowed => .ok (handler request (.fromMatch captures) state)
    | .materialized =>
      match captureNames with
      | none => .error .captureNames
      | some names =>
        match Params.fromMaterializedNames names captures path with
        | .ok params => .ok (handler request params state)
        | .error error => .ok (.ready (error.intoResponse env.toVec))

/-! ## In memory -/

/-- `RuntimeInner` with its state, and the middleware left out. -/
structure Server (S Incoming M : Type) where
  runtime : Runtime (Endpoint S Incoming) M
  state : S
  bodyReadTimeout : Option ℕ

namespace Server

variable {S Incoming M : Type} (env : Environment Incoming) (server : Server S Incoming M)

/-- `RuntimeRef::handle_matched` -/
def handleMatched (request : HttpRequest Bytes) (index : RouteId) (captures : Captures)
    (isHead : Bool) : Future (Except Fault Response) :=
  match server.runtime.plans[index]? with
  | none => .ready (.error .noPlan)
  | some plan =>
    match plan.handler with
    | .zero endpoint => endpoint.zero.map fun response => .ok (maybeHeadFlag isHead response)
    | .static endpoint => .ready (.ok (maybeHeadFlag isHead endpoint.static.toResponse))
    | _ =>
      if plan.bodyMode = .buffered ∧ plan.bodyLimit < request.body.len then
        .ready (.ok (payloadTooLargeResponse env.toVec))
      else
        match plan.handler with
        | .typedNoParams endpoint =>
          (endpoint.call request .empty server.state).map fun response =>
            .ok (maybeHeadFlag isHead response)
        | .typed endpoint =>
          match captures.invoke env plan.captureMode request
              (server.runtime.captureNames[index]?.getD none) endpoint.call server.state with
          | .ok future => future.map fun response => .ok (maybeHeadFlag isHead response)
          | .error fault => .ready (.error fault)
        | .raw _ => .ready (.error .rawInMemory)
        | .zero _ | .static _ => .ready (.error .fastHandler)

/-- `RuntimeRef::handle` -/
def handle (request : HttpRequest Bytes) : Future (Except Fault Response) :=
  let isHead := request.parts.method == .head
  let path := normalizeRequestPath request.parts.path
  match server.runtime.staticRoutes.lookup path with
  | some routes =>
    match resolveRouteSet request.parts.method routes with
    | .ok index => server.handleMatched env request index .static isHead
    | .error (.options allow) => .ready (.ok (optionsResponse allow))
    | .error (.methodNotAllowed allow) => .ready (.ok (methodNotAllowedResponse allow))
  | none =>
    match server.runtime.dynamicRoutes.find path with
    | none => .ready (.ok notFound)
    | some (routes, captures) =>
      match resolveRouteSet request.parts.method routes with
      | .ok index => server.handleMatched env request index (.dynamic captures) isHead
      | .error (.options allow) => .ready (.ok (optionsResponse allow))
      | .error (.methodNotAllowed allow) => .ready (.ok (methodNotAllowedResponse allow))

end Server

/-! ## From the network -/

/-- `PreparedDispatch` -/
inductive PreparedDispatch where
  | ready (response : Option Response)
  | handler (isHead : Bool) (future : Future Response)
  | buffered (future : Future (Except Fault Response))

/-- `PreparedDispatch::poll` -/
def PreparedDispatch.poll : PreparedDispatch → Option (Except Fault Response) × PreparedDispatch
  | ready (some response) => (some (.ok response), ready none)
  | ready none => (some (.error .polledTwice), ready none)
  | handler isHead future =>
    match future.poll with
    | (some response, rest) => (some (.ok (maybeHeadFlag isHead response)), handler isHead rest)
    | (none, rest) => (none, handler isHead rest)
  | buffered future => (future.poll.1, buffered future.poll.2)

namespace Server

variable {S Incoming M : Type} (env : Environment Incoming) (server : Server S Incoming M)

/-- What the buffered branch does with the collected body. -/
def afterCollect (parts : Parts) (index : RouteId) (captures : Captures) (isHead : Bool) :
    Except CollectError Bytes → Future (Except Fault Response)
  | .ok body => server.handleMatched env { parts, body } index captures isHead
  | .error .lengthLimit => .ready (.ok (payloadTooLargeResponse env.toVec))
  | .error .interrupted => .ready (.ok (interruptedResponse env.toVec))

/-- `prepare_matched` -/
def prepareMatched (request : HttpRequest Incoming) (index : RouteId) (captures : Captures)
    (isHead : Bool) : Except Fault PreparedDispatch :=
  match server.runtime.plans[index]? with
  | none => .error .noPlan
  | some plan =>
    match plan.bodyMode with
    | .incoming =>
      match plan.handler with
      | .raw endpoint => .ok (.handler isHead (endpoint.raw request))
      | .zero _ | .typedNoParams _ | .typed _ | .static _ => .error .incomingNotRaw
    | .none =>
      let request : HttpRequest Bytes := { parts := request.parts, body := .new }
      match plan.handler with
      | .zero endpoint => .ok (.handler isHead endpoint.zero)
      | .static endpoint => .ok (.ready (some (maybeHeadFlag isHead endpoint.static.toResponse)))
      | .typedNoParams endpoint => .ok (.handler isHead (endpoint.call request .empty server.state))
      | .typed endpoint => do
        let future ← captures.invoke env plan.captureMode request
          (server.runtime.captureNames[index]?.getD none) endpoint.call server.state
        return .handler isHead future
      | .raw _ => .error .rawWithoutIncoming
    | .buffered =>
      let tooLarge := request.parts.headers.contentLength.any fun length => plan.bodyLimit < length
      if tooLarge then .ok (.ready (some (payloadTooLargeResponse env.toVec)))
      else
        let collected := env.collect plan.bodyLimit request.body
        .ok (.buffered (match server.bodyReadTimeout with
          | some timeout => (env.timeout timeout collected).bind fun
            | some collected => server.afterCollect env request.parts index captures isHead collected
            | none => .ready (.ok (requestTimeoutResponse env.toVec))
          | none => collected.bind (server.afterCollect env request.parts index captures isHead)))

/-- `prepare_direct` -/
def prepareDirect (request : HttpRequest Incoming) : Except Fault PreparedDispatch :=
  let method := request.parts.method
  let isHead := method == .head
  let pathEnd := (normalizeRequestPath request.parts.path).length
  let path := request.parts.path.take pathEnd
  match server.runtime.staticRoutes.lookup path with
  | some routes =>
    match resolveRouteSet method routes with
    | .ok index => server.prepareMatched env request index .static isHead
    | .error (.options allow) => .ok (.ready (some (optionsResponse allow)))
    | .error (.methodNotAllowed allow) => .ok (.ready (some (methodNotAllowedResponse allow)))
  | none =>
    match server.runtime.dynamicRoutes.find path with
    | none => .ok (.ready (some notFound))
    | some (routes, captures) =>
      match resolveRouteSet method routes with
      | .ok index => server.prepareMatched env request index (.dynamic captures) isHead
      | .error (.options allow) => .ok (.ready (some (optionsResponse allow)))
      | .error (.methodNotAllowed allow) => .ok (.ready (some (methodNotAllowedResponse allow)))

/-- The network's answer after at most `n` polls. -/
def network (request : HttpRequest Incoming) (n : ℕ) : Option (Except Fault Response) :=
  match server.prepareDirect env request with
  | .ok dispatch => drive PreparedDispatch.poll n dispatch
  | .error fault => some (.error fault)

/-- The answer in memory after at most `n` polls. -/
def memory (request : HttpRequest Bytes) (n : ℕ) : Option (Except Fault Response) :=
  (server.handle env request).run n

end Server

/-! ## The plans that registration makes -/

section Plans

/-- Every call of a program, also in groups. -/
def Program.All {H M : Type} (P : Call H M → Prop) : Program H M → Prop
  | .done => True
  | .call c rest => P c ∧ rest.All P
  | .group _ body rest => body.All P ∧ rest.All P

/-- The handler of a typed route has a property. -/
def Call.Registers {H M : Type} (P : Handler H → Prop) : Call H M → Prop
  | .route _ _ handler => P handler
  | _ => True

/-- What registration keeps of a route: its metadata beside its plan. The limit is whatever was
    set last. -/
inductive Planned {H : Type} (P : Handler H → Prop) : RouteMetadata → RoutePlan H → Prop where
  /-- `add_route` -/
  | typed (md : RouteMetadata) (handler : Handler H) (limit : ℕ) (hP : P handler)
      (hnames : md.captureNames =
        if handler.needsParams then some (App.captureNames md.segments) else none) :
      Planned P md
        { handler :=
            if handler.zero then .zero handler.call
            else if !handler.needsCapture then .typedNoParams handler.call
            else .typed handler.call
          bodyLimit := limit
          captureMode :=
            if md.captureNames.isSome then .materialized
            else if !App.isStatic md.segments then .borrowed
            else .none
          bodyMode := if handler.needsBody then .buffered else .none }
  /-- `add_raw_route` -/
  | raw (md : RouteMetadata) (handler : H) (limit : ℕ) :
      Planned P md
        { handler := .raw handler, bodyLimit := limit, captureMode := .none, bodyMode := .incoming }
  /-- `add_static_route` and `add_generated_static_route` -/
  | static (md : RouteMetadata) (response : H) (limit : ℕ) :
      Planned P md
        { handler := .static response, bodyLimit := limit, captureMode := .none, bodyMode := .none }

section Registration

variable {H M : Type} {P : Handler H → Prop} {app app' : App H M}

/-- Every plan was registered with the metadata at its index. -/
def App.Planned (P : Handler H → Prop) (app : App H M) : Prop :=
  List.Forall₂ (OasRs.Planned P) app.metadata app.plans

theorem Planned.withLimit {plan : RoutePlan H} {md : RouteMetadata} (h : Planned P md plan)
    (limit : ℕ) : Planned P md (plan.withLimit limit) := by
  rw [RoutePlan.withLimit]
  split
  · cases h with
    | typed handler _ hP hnames => exact .typed md handler limit hP hnames
    | raw handler _ => exact .raw md handler limit
    | static response _ => exact .static md response limit
  · exact h

/-- Materialized captures have the names of the template. -/
theorem Planned.captureNames {plan : RoutePlan H} {md : RouteMetadata} (h : Planned P md plan)
    (hmode : plan.captureMode = .materialized) :
    md.captureNames = some (App.captureNames md.segments) := by
  cases h with
  | typed handler limit hP hnames =>
    rw [hnames] at hmode ⊢
    cases hparams : handler.needsParams with
    | true => rfl
    | false =>
      simp only [hparams, Bool.false_eq_true, if_false, Option.isSome_none] at hmode
      split at hmode
      · cases hmode
      · cases hmode
  | raw handler limit => cases hmode
  | static response limit => cases hmode

theorem App.Planned.push {md : RouteMetadata} {plan : RoutePlan H} (hs : app.Planned P)
    (hplan : OasRs.Planned P md plan) (h : app.push md plan = .ok app') : app'.Planned P := by
  obtain ⟨_, _, rfl, -⟩ := App.push_ok h
  exact List.rel_append hs (.cons hplan .nil)

theorem App.Planned.pushWithinLimit {md : RouteMetadata} {plan : RoutePlan H}
    (hs : app.Planned P) (hplan : OasRs.Planned P md plan)
    (h : app.pushWithinLimit md plan = .ok app') : app'.Planned P := by
  rw [App.pushWithinLimit] at h
  split at h
  · cases h
    exact hs
  · simp only [bind_eq_ok, pure_eq_ok] at h
    obtain ⟨pushed, hpush, rfl⟩ := h
    have hpushed : pushed.Planned P := hs.push hplan hpush
    exact hpushed

theorem App.Planned.addRoute {method : Method} {path : Text} {handler : Handler H}
    (hs : app.Planned P) (hP : P handler) (h : app.addRoute method path handler = .ok app') :
    app'.Planned P := by
  simp only [App.addRoute, bind_eq_ok] at h
  obtain ⟨_, -, _, -, segments, -, h⟩ := h
  refine hs.pushWithinLimit ?_ h
  exact .typed _ handler _ hP rfl

theorem App.Planned.addRawRoute {method : Method} {path : Text} {handler : H}
    (hs : app.Planned P) (h : app.addRawRoute method path handler = .ok app') :
    app'.Planned P := by
  simp only [App.addRawRoute, bind_eq_ok] at h
  obtain ⟨_, -, _, -, segments, -, h⟩ := h
  exact hs.pushWithinLimit (.raw _ _ _) h

theorem App.Planned.addStaticRoute {path : Text} {response : H} (hs : app.Planned P)
    (h : app.addStaticRoute path response = .ok app') : app'.Planned P := by
  simp only [App.addStaticRoute, bind_eq_ok, pure_eq_ok] at h
  obtain ⟨_, -, segments, -, _, -, _, -, pushed, hpush, rfl⟩ := h
  have hpushed : pushed.Planned P := hs.push (.static _ _ _) hpush
  exact hpushed

/-- What is at an index of one list is related to what is there in the other. -/
theorem forall₂_exists_getElem? {α β : Type} {R : α → β → Prop} {as : List α} {bs : List β}
    (h : List.Forall₂ R as bs) {i : ℕ} {a : α} (ha : as[i]? = some a) :
    ∃ b, bs[i]? = some b ∧ R a b := by
  obtain ⟨hi, rfl⟩ := List.getElem?_eq_some_iff.mp ha
  have hj : i < bs.length := h.length_eq ▸ hi
  exact ⟨bs[i], List.getElem?_eq_getElem hj, h.get hi hj⟩

theorem getElem?_of_isPrefix {α : Type} {xs ys : List α} (h : xs <+: ys) {i : ℕ} {a : α}
    (hi : xs[i]? = some a) : ys[i]? = some a := by
  obtain ⟨rest, rfl⟩ := h
  rw [List.getElem?_append_left (List.getElem?_eq_some_iff.mp hi).1, hi]

theorem Call.planned_run {group : Option Text} {c : Call H M} (hs : app.Planned P)
    (hP : c.Registers P) (h : c.run group app = .ok app') : app'.Planned P := by
  -- without a registration, only the limits of plans change
  have hkept (hc : c.registers group = none) : app'.Planned P := by
    have hkeeps := Call.keeps_of_run hc h
    rw [App.Planned, hkeeps.metadata]
    exact hkeeps.forall₂_plans (fun _ _ limit hplanned => hplanned.withLimit limit) hs
  cases c with
  | route method path handler => exact hs.addRoute hP h
  | raw method path handler => exact hs.addRawRoute h
  | static path response => exact hs.addStaticRoute h
  | layer _ | layerFor _ _ | routeLayer _ | maxBodySize _ | bodyLimit _ | openapi _ | swagger _ =>
    exact hkept rfl

theorem Program.planned_run {group : Option Text} {p : Program H M} (hs : app.Planned P)
    (hP : p.All (Call.Registers P)) (h : p.run group app = .ok app') : app'.Planned P := by
  induction p generalizing group app app' with
  | done =>
    cases h
    exact hs
  | call c rest ih =>
    simp only [Program.run, bind_eq_ok] at h
    obtain ⟨app₁, hcall, hrest⟩ := h
    exact ih (Call.planned_run hs hP.1 hcall) hP.2 hrest
  | group path body rest ihbody ihrest =>
    simp only [Program.run, bind_eq_ok] at h
    obtain ⟨app₁, hbody, hrest⟩ := h
    exact ihrest (ihbody hs hP.1 hbody) hP.2 hrest

theorem App.Planned.installPage {config : Option Text} {page : H} (hs : app.Planned P)
    (h : app.installPage config page = .ok app') : app'.Planned P := by
  cases config with
  | none =>
    cases h
    exact hs
  | some path =>
    simp only [App.installPage, App.addGeneratedStaticRoute, bind_eq_ok, orStop_eq_ok] at h
    obtain ⟨segments, -, h⟩ := h
    split at h
    · cases h
    · split at h
      · cases h
      · rw [orStop_eq_ok] at h
        exact hs.push (.static _ _ _) h

/-- **Registration by registration**: every plan of a built application comes from a call. -/
theorem Program.planned_build {p : Program H M} {validation : Option BuildError}
    {document page : H} (hP : p.All (Call.Registers P))
    (h : p.build validation document page = .ok app) : app.Planned P := by
  obtain ⟨registered, hrun, hinstall⟩ := Program.build_ok h
  have hnew : (App.new : App H M).Planned P := List.Forall₂.nil
  have hs : registered.Planned P := Program.planned_run hnew hP hrun
  rw [App.install] at hinstall
  split at hinstall
  · cases hinstall
  · simp only [bind_eq_ok] at hinstall
    obtain ⟨app₁, hdocument, hpage⟩ := hinstall
    exact (hs.installPage hdocument).installPage hpage

end Registration

/-! ### How a plan fits its handler -/

variable {S Incoming M : Type}

/-- A call that registers a lawful handler, if it registers one. -/
def Call.Lawful : Call (Endpoint S Incoming) M → Prop
  | .route _ _ handler => handler.Lawful
  | _ => True

/-- How a plan fits its handler, and the names that the route keeps. -/
def RoutePlan.Sound (plan : RoutePlan (Endpoint S Incoming)) (md : RouteMetadata) : Prop :=
  match plan.handler with
  | .zero _ | .static _ => plan.bodyMode = .none
  | .typedNoParams endpoint | .typed endpoint =>
    plan.bodyMode ≠ .incoming ∧ (plan.bodyMode = .none → endpoint.IgnoresBody) ∧
      (plan.captureMode = .materialized → md.captureNames.isSome = true)
  | .raw _ => plan.bodyMode = .incoming

/-- Every plan fits the route at its index. -/
def App.Sound (app : App (Endpoint S Incoming) M) : Prop :=
  List.Forall₂ (fun md plan => plan.Sound md) app.metadata app.plans

/-- A handler without arguments needs no body. -/
theorem Handler.Lawful.needsBody_of_zero {handler : Handler (Endpoint S Incoming)}
    (h : handler.Lawful) (hzero : handler.zero = true) : handler.needsBody = false := by
  obtain ⟨⟨arguments, harguments⟩, -⟩ := h
  rw [harguments] at hzero ⊢
  have : arguments = [] := List.isEmpty_iff.mp hzero
  simp [Handler.of, this]

/-- A lawful handler gets a plan that fits it. -/
theorem Planned.sound {plan : RoutePlan (Endpoint S Incoming)} {md : RouteMetadata}
    (h : Planned Handler.Lawful md plan) : plan.Sound md := by
  have hnames := h.captureNames
  cases h with
  | raw handler limit => rfl
  | static response limit => rfl
  | typed handler limit hlawful _ =>
    have hsome : _ → md.captureNames.isSome = true := fun hmode =>
      Option.isSome_of_eq_some (hnames hmode)
    -- the body is ignored exactly when it is not collected
    have hmode : (if handler.needsBody then BodyMode.buffered else .none) ≠ .incoming := by
      split
      · decide
      · decide
    have hignores : (if handler.needsBody then BodyMode.buffered else .none) = .none →
        handler.call.IgnoresBody := by
      intro hnone
      apply hlawful.2
      by_contra hneeds
      rw [if_pos (by simpa using hneeds)] at hnone
      cases hnone
    rw [RoutePlan.Sound]
    by_cases hisZero : handler.zero = true
    · simp only [hisZero, if_true, hlawful.needsBody_of_zero hisZero]
      rfl
    · by_cases hcapture : handler.needsCapture = true
      · simp only [hisZero, hcapture, Bool.not_true, Bool.false_eq_true, if_false]
        exact ⟨hmode, hignores, hsome⟩
      · simp only [hisZero, hcapture, Bool.not_false, Bool.false_eq_true, if_true, if_false]
        exact ⟨hmode, hignores, hsome⟩

theorem Call.Lawful.registers {c : Call (Endpoint S Incoming) M} (h : c.Lawful) :
    c.Registers Handler.Lawful := by
  cases c with
  | route method path handler => exact h
  | _ => trivial

theorem Program.All.imp {H : Type} {P Q : Call H M → Prop} (hPQ : ∀ c, P c → Q c)
    {p : Program H M} (h : p.All P) : p.All Q := by
  induction p with
  | done => trivial
  | call c rest ih => exact ⟨hPQ c h.1, ih h.2⟩
  | group path body rest ihbody ihrest => exact ⟨ihbody h.1, ihrest h.2⟩

/-- **Every plan of a built application fits its handler.** -/
theorem Program.sound_build {p : Program (Endpoint S Incoming) M}
    {app : App (Endpoint S Incoming) M} {validation : Option BuildError}
    {document page : Endpoint S Incoming} (hlawful : p.All Call.Lawful)
    (h : p.build validation document page = .ok app) : app.Sound :=
  (Program.planned_build (hlawful.imp fun _ => Call.Lawful.registers) h).imp
    fun _ _ h => h.sound

end Plans

/-! ## Statuses of futures -/

/-- The statuses of the responses that a future gives. -/
def StatusIn (future : Future (Except Fault Response)) (P : ℕ → Prop) : Prop :=
  ∀ response, future.Gives (.ok response) → P response.status

section StatusIn

variable {P : ℕ → Prop}

theorem StatusIn.ready {response : Response} (h : P response.status) :
    StatusIn (.ready (.ok response)) P := by
  intro response' hgives
  cases Future.gives_ready.mp hgives
  exact h

theorem StatusIn.fault (fault : Fault) : StatusIn (.ready (.error fault)) P := by
  intro response hgives
  cases Future.gives_ready.mp hgives

theorem status_eq_maybeHeadFlag (isHead : Bool) (response : Response) :
    (maybeHeadFlag isHead response).status = response.status := by
  cases isHead with
  | false => rfl
  | true => rfl

theorem StatusIn.map {future : Future Response} (h : ∀ response, future.Gives response → P response.status)
    (isHead : Bool) :
    StatusIn (future.map fun response => .ok (maybeHeadFlag isHead response)) P := by
  intro response hgives
  obtain ⟨value, hvalue, heq⟩ := Future.gives_map.mp hgives
  cases heq
  rw [status_eq_maybeHeadFlag]
  exact h value hvalue

theorem StatusIn.bind {α : Type} {future : Future α} {next : α → Future (Except Fault Response)}
    (h : ∀ a, StatusIn (next a) P) : StatusIn (future.bind next) P := by
  intro response hgives
  obtain ⟨a, -, hnext⟩ := Future.gives_bind.mp hgives
  exact h a response hnext

end StatusIn

/-! ## The two paths -/

section Paths

variable {S Incoming M : Type} {env : Environment Incoming} {server : Server S Incoming M}

/-- What a prepared dispatch awaits. -/
inductive Matches : PreparedDispatch → Future (Except Fault Response) → Prop where
  | ready (response : Response) : Matches (.ready (some response)) (.ready (.ok response))
  | handler (isHead : Bool) (future : Future Response) :
      Matches (.handler isHead future) (future.map fun response => .ok (maybeHeadFlag isHead response))
  | buffered (future : Future (Except Fault Response)) : Matches (.buffered future) future

/-- Polling a prepared dispatch is polling what it awaits. -/
theorem simulates_poll : Simulates PreparedDispatch.poll Future.poll Matches := by
  intro dispatch future h
  cases h with
  | ready response => exact ⟨rfl, fun hnone => by cases hnone⟩
  | handler isHead future =>
    rw [Future.poll_map]
    cases future with
    | ready response => exact ⟨rfl, fun hnone => by cases hnone⟩
    | pending rest => exact ⟨rfl, fun _ => .handler isHead rest⟩
    | never => exact ⟨rfl, fun _ => .handler isHead .never⟩
  | buffered future => exact ⟨rfl, fun _ => .buffered _⟩

/-- A prepared dispatch gives what a future gives, when it is polled for long enough. -/
def Awaits (dispatch : PreparedDispatch) (future : Future (Except Fault Response)) : Prop :=
  ∀ answer, (∃ n, drive PreparedDispatch.poll n dispatch = some answer) ↔ future.Gives answer

theorem Matches.awaits {dispatch : PreparedDispatch} {future : Future (Except Fault Response)}
    (h : Matches dispatch future) : Awaits dispatch future := by
  intro answer
  simp only [simulates_poll.drive_eq h]
  rfl

/-- A future without faults. -/
def Faultless (future : Future (Except Fault Response)) : Prop :=
  ∃ response : Future Response, future = response.map .ok

theorem faultless_ready (response : Response) : Faultless (.ready (.ok response)) :=
  ⟨.ready response, rfl⟩

theorem Future.map_map {α β γ : Type} (f : α → β) (g : β → γ) (future : Future α) :
    (future.map f).map g = future.map (g ∘ f) := by
  induction future with
  | ready value => rfl
  | pending rest ih => exact congrArg Future.pending ih
  | never => rfl

theorem faultless_map (future : Future Response) (isHead : Bool) :
    Faultless (future.map fun response => .ok (maybeHeadFlag isHead response)) :=
  ⟨future.map (maybeHeadFlag isHead), (Future.map_map _ _ future).symm⟩

/-- A future without faults gives none. -/
theorem Faultless.run_ne {future : Future (Except Fault Response)} (h : Faultless future) (n : ℕ)
    (fault : Fault) : future.run n ≠ some (.error fault) := by
  obtain ⟨response, rfl⟩ := h
  rw [Future.run_map]
  cases response.run n with
  | none => simp
  | some response => simp

/-! ### Routing -/

/-- The provider of the captures that dispatch found. -/
def Captures.of : Option CaptureSet → Captures
  | none => .static
  | some captures => .dynamic captures

/-- The plan that answers, with its captures, or the answer that the router gives itself. -/
def Outcome.answer : Outcome → Except Response (RouteId × Captures)
  | .route index captures => .ok (index, .of captures)
  | .options allow => .error (optionsResponse allow)
  | .methodNotAllowed allow => .error (methodNotAllowedResponse allow)
  | .notFound => .error OasRs.notFound

/-- The path that the network cuts out is the one that is looked up in memory. -/
theorem take_normalizeRequestPath (path : Text) :
    path.take (normalizeRequestPath path).length = normalizeRequestPath path := by
  symm
  apply List.prefix_iff_eq_take.mp
  rw [normalizeRequestPath]
  split
  · exact List.rdropWhile_prefix _ path
  · exact List.prefix_refl path

/-- The routing of a request from the network. -/
theorem prepareDirect_eq (request : HttpRequest Incoming) :
    server.prepareDirect env request =
      match (server.runtime.dispatch request.parts.method request.parts.path).answer with
      | .ok (index, captures) =>
        server.prepareMatched env request index captures (request.parts.method == .head)
      | .error response => .ok (.ready (some response)) := by
  rw [Server.prepareDirect, Runtime.dispatch, take_normalizeRequestPath]
  cases server.runtime.staticRoutes.lookup (normalizeRequestPath request.parts.path) with
  | some routes =>
    simp only [Outcome.resolve]
    cases resolveRouteSet request.parts.method routes with
    | ok index => rfl
    | error failure => cases failure <;> rfl
  | none =>
    simp only
    cases server.runtime.dynamicRoutes.find (normalizeRequestPath request.parts.path) with
    | none => rfl
    | some found =>
      simp only [Outcome.resolve]
      cases resolveRouteSet request.parts.method found.1 with
      | ok index => rfl
      | error failure => cases failure <;> rfl

/-- The routing of a request in memory. -/
theorem handle_eq (request : HttpRequest Bytes) :
    server.handle env request =
      match (server.runtime.dispatch request.parts.method request.parts.path).answer with
      | .ok (index, captures) =>
        server.handleMatched env request index captures (request.parts.method == .head)
      | .error response => .ready (.ok response) := by
  rw [Server.handle, Runtime.dispatch]
  cases server.runtime.staticRoutes.lookup (normalizeRequestPath request.parts.path) with
  | some routes =>
    simp only [Outcome.resolve]
    cases resolveRouteSet request.parts.method routes with
    | ok index => rfl
    | error failure => cases failure <;> rfl
  | none =>
    simp only
    cases server.runtime.dynamicRoutes.find (normalizeRequestPath request.parts.path) with
    | none => rfl
    | some found =>
      simp only [Outcome.resolve]
      cases resolveRouteSet request.parts.method found.1 with
      | ok index => rfl
      | error failure => cases failure <;> rfl

/-! ### The plan -/

/-- Captures that are materialized have names, so invoking a handler is no fault. -/
theorem invoke_ok {captures : Captures} {mode : CaptureMode} {names : Option (List Text)}
    (hnames : mode = .materialized → names.isSome = true) (request : HttpRequest Bytes)
    (handler : HttpRequest Bytes → Params → S → Future Response) (state : S) :
    ∃ future, captures.invoke env mode request names handler state = .ok future := by
  cases captures with
  | static => exact ⟨_, rfl⟩
  | dynamic captures =>
    cases mode with
    | none => exact ⟨_, rfl⟩
    | borrowed => exact ⟨_, rfl⟩
    | materialized =>
      obtain ⟨names, rfl⟩ := Option.isSome_iff_exists.mp (hnames rfl)
      simp only [Captures.invoke]
      cases Params.fromMaterializedNames names captures (normalizeRequestPath request.parts.path) with
      | ok params => exact ⟨_, rfl⟩
      | error error => exact ⟨_, rfl⟩

/-- A handler that ignores the body is invoked alike with and without it. -/
theorem invoke_ignoresBody {endpoint : Endpoint S Incoming} (h : endpoint.IgnoresBody)
    (captures : Captures) (mode : CaptureMode) (names : Option (List Text)) (parts : Parts)
    (body : Bytes) (state : S) :
    captures.invoke env mode { parts, body } names endpoint.call state =
      captures.invoke env mode { parts, body := .new } names endpoint.call state := by
  cases captures with
  | static => exact congrArg Except.ok (h parts body .empty state)
  | dynamic captures =>
    cases mode with
    | none => exact congrArg Except.ok (h parts body .empty state)
    | borrowed => exact congrArg Except.ok (h parts body (.fromMatch captures) state)
    | materialized =>
      cases names with
      | none => rfl
      | some names =>
        simp only [Captures.invoke]
        cases Params.fromMaterializedNames names captures (normalizeRequestPath parts.path) with
        | ok params => exact congrArg Except.ok (h parts body params state)
        | error error => rfl

section Plan

variable {index : RouteId} {plan : RoutePlan (Endpoint S Incoming)} {md : RouteMetadata}

/-- A plan that fits and is not raw answers in memory without a fault. -/
theorem faultless_handleMatched (hplan : server.runtime.plans[index]? = some plan)
    (hnames : server.runtime.captureNames[index]? = some md.captureNames) (hsound : plan.Sound md)
    (hraw : plan.handler.isRaw = false) (request : HttpRequest Bytes)
    (captures : Captures) (isHead : Bool) :
    Faultless (server.handleMatched env request index captures isHead) := by
  rw [RoutePlan.Sound] at hsound
  simp only [Server.handleMatched, hplan, hnames, Option.getD_some]
  cases hhandler : plan.handler with
  | zero endpoint => exact faultless_map _ _
  | static endpoint => exact faultless_ready _
  | typedNoParams endpoint =>
    simp only
    split
    · exact faultless_ready _
    · exact faultless_map _ _
  | typed endpoint =>
    rw [hhandler] at hsound
    obtain ⟨future, hfuture⟩ : ∃ future, captures.invoke env plan.captureMode request
        md.captureNames endpoint.call server.state = .ok future := invoke_ok hsound.2.2 _ _ _
    simp only [hfuture]
    split
    · exact faultless_ready _
    · exact faultless_map _ _
  | raw endpoint => simp [hhandler, HandlerKind.isRaw] at hraw

/-- A body that is too large is refused in memory, whatever the plan calls. -/
theorem handleMatched_of_large (hplan : server.runtime.plans[index]? = some plan)
    (hsound : plan.Sound md) (hraw : plan.handler.isRaw = false)
    (hmode : plan.bodyMode = .buffered) {request : HttpRequest Bytes}
    (hlarge : plan.bodyLimit < request.body.len) (captures : Captures) (isHead : Bool) :
    server.handleMatched env request index captures isHead =
      .ready (.ok (payloadTooLargeResponse env.toVec)) := by
  rw [RoutePlan.Sound] at hsound
  simp only [Server.handleMatched, hplan, hmode, true_and, if_pos hlarge]
  cases hhandler : plan.handler with
  | zero endpoint => simp [hhandler, hmode] at hsound
  | static endpoint => simp [hhandler, hmode] at hsound
  | raw endpoint => simp [hhandler, HandlerKind.isRaw] at hraw
  | typedNoParams endpoint => rfl
  | typed endpoint => rfl

/-- The collected body, however long it is, leads to the answer in memory. -/
theorem gives_afterCollect (env : Environment Incoming)
    (hplan : server.runtime.plans[index]? = some plan)
    (hsound : plan.Sound md) (hraw : plan.handler.isRaw = false)
    (hmode : plan.bodyMode = .buffered) (parts : Parts) (bytes : Bytes) (captures : Captures)
    (isHead : Bool) :
    server.afterCollect env parts index captures isHead
        (if bytes.len ≤ plan.bodyLimit then .ok bytes else .error .lengthLimit) =
      server.handleMatched env { parts, body := bytes } index captures isHead := by
  split
  · rfl
  · rename_i hlarge
    rw [handleMatched_of_large hplan hsound hraw hmode (Nat.not_le.mp hlarge)]
    rfl

/-- **The plan's answer**: what is prepared for the network awaits the answer in memory. -/
theorem awaits_handleMatched (hplan : server.runtime.plans[index]? = some plan)
    (hnames : server.runtime.captureNames[index]? = some md.captureNames) (hsound : plan.Sound md)
    (hraw : plan.handler.isRaw = false) {parts : Parts} {body : Incoming}
    {bytes : Bytes} (hbody : env.Arrives server.bodyReadTimeout body bytes)
    (hlength : ∀ length, parts.headers.contentLength = some length → length = bytes.len)
    (captures : Captures) (isHead : Bool) :
    ∃ dispatch, server.prepareMatched env { parts, body } index captures isHead = .ok dispatch ∧
      Awaits dispatch (server.handleMatched env { parts, body := bytes } index captures isHead) := by
  have hafter := gives_afterCollect env hplan hsound hraw
  rw [RoutePlan.Sound] at hsound
  simp only [Server.prepareMatched, hplan, hnames, Option.getD_some]
  cases hmode : plan.bodyMode with
  | incoming =>
    -- only raw handlers
    cases hhandler : plan.handler with
    | raw endpoint => simp [hhandler, HandlerKind.isRaw] at hraw
    | zero endpoint => simp [hhandler, hmode] at hsound
    | static endpoint => simp [hhandler, hmode] at hsound
    | typedNoParams endpoint => simp [hhandler, hmode] at hsound
    | typed endpoint => simp [hhandler, hmode] at hsound
  | none =>
    simp only [Server.handleMatched, hplan, hnames, Option.getD_some, hmode, reduceCtorEq, false_and,
      if_false]
    cases hhandler : plan.handler with
    | raw endpoint => simp [hhandler, HandlerKind.isRaw] at hraw
    | zero endpoint => exact ⟨_, rfl, (Matches.handler isHead _).awaits⟩
    | static endpoint => exact ⟨_, rfl, (Matches.ready _).awaits⟩
    | typedNoParams endpoint =>
      rw [hhandler] at hsound
      simp only
      rw [hsound.2.1 hmode parts bytes .empty server.state]
      exact ⟨_, rfl, (Matches.handler isHead _).awaits⟩
    | typed endpoint =>
      rw [hhandler] at hsound
      simp only
      rw [invoke_ignoresBody (hsound.2.1 hmode) captures _ _ parts bytes]
      obtain ⟨future, hfuture⟩ : ∃ future, captures.invoke env plan.captureMode
          { parts, body := .new } md.captureNames endpoint.call server.state = .ok future :=
        invoke_ok hsound.2.2 _ _ _
      rw [hfuture]
      exact ⟨_, rfl, (Matches.handler isHead future).awaits⟩
  | buffered =>
    simp only
    split
    · -- the declared length tells that the body is too large
      rename_i hdeclared
      have hlarge : plan.bodyLimit < bytes.len := by
        cases hparsed : parts.headers.contentLength with
        | none => simp [hparsed] at hdeclared
        | some length =>
          rw [← hlength length hparsed]
          simpa [hparsed] using hdeclared
      rw [handleMatched_of_large hplan hsound hraw hmode hlarge]
      exact ⟨_, rfl, (Matches.ready _).awaits⟩
    · refine ⟨_, rfl, fun answer => ((Matches.buffered _).awaits answer).trans ?_⟩
      cases htimeout : server.bodyReadTimeout with
      | none =>
        simp only
        rw [(hbody.collect _).bind, hafter hmode]
      | some duration =>
        simp only
        rw [(hbody.inTime _ duration htimeout).bind]
        simp only
        rw [hafter hmode]

end Plan

/-! ### Every request -/

/-- The route at the index that dispatch chooses. -/
theorem plan_of_dispatch {app : App (Endpoint S Incoming) M} (hc : app.Consistent) (hs : app.Sound)
    {method : Method} {path : Text} {index : RouteId} {captures : Option CaptureSet}
    (h : app.freeze.dispatch method path = .route index captures) :
    ∃ plan md, app.freeze.plans[index]? = some plan ∧
      app.freeze.captureNames[index]? = some md.captureNames ∧ plan.Sound md := by
  obtain ⟨-, md, hmd, -⟩ := dispatch_sound hc h
  have hlt := (List.getElem?_eq_some_iff.mp hmd).1
  have hplan : app.plans[index]? = some (app.plans.get ⟨index, hc.length_plans ▸ hlt⟩) :=
    List.getElem?_eq_getElem _
  refine ⟨_, md, hplan, ?_, ?_⟩
  · show (app.metadata.map RouteMetadata.captureNames)[index]? = _
    rw [List.getElem?_map, hmd, Option.map_some]
  · have hmd' : app.metadata.get ⟨index, hlt⟩ = md := (List.getElem?_eq_some_iff.mp hmd).2
    rw [← hmd']
    exact hs.get hlt (hc.length_plans ▸ hlt)

/-- **The network and the memory agree**: for a request with a complete body, which the router
does not give to a raw handler, both paths give the same response or none, and neither of them
meets an unreachable branch. -/
theorem network_iff_memory {p : Program (Endpoint S Incoming) M} {validation : Option BuildError}
    {document page : Endpoint S Incoming} {app : App (Endpoint S Incoming) M}
    (hbuild : p.build validation document page = .ok app) (hlawful : p.All Call.Lawful)
    (hserver : server.runtime = app.freeze) {parts : Parts} {body : Incoming} {bytes : Bytes}
    (hbody : env.Arrives server.bodyReadTimeout body bytes)
    (hlength : ∀ length, parts.headers.contentLength = some length → length = bytes.len)
    (hraw : ∀ index captures, app.freeze.dispatch parts.method parts.path = .route index captures →
      ∀ plan, app.plans[index]? = some plan → plan.handler.isRaw = false) :
    (∀ answer, (∃ n, server.network env { parts, body } n = some answer) ↔
        ∃ n, server.memory env { parts, body := bytes } n = some answer) ∧
      ∀ n fault, server.memory env { parts, body := bytes } n ≠ some (.error fault) := by
  have hc := Program.consistent_build hbuild
  have hs := Program.sound_build hlawful hbuild
  -- dispatch is the same for both, so only a route is left
  obtain ⟨dispatch, hprepare, hawaits, hfaultless⟩ : ∃ dispatch,
      server.prepareDirect env { parts, body } = .ok dispatch ∧
      Awaits dispatch (server.handle env { parts, body := bytes }) ∧
      Faultless (server.handle env { parts, body := bytes }) := by
    rw [prepareDirect_eq, handle_eq, hserver]
    cases hdispatch : app.freeze.dispatch parts.method parts.path with
    | options allow => exact ⟨_, rfl, (Matches.ready _).awaits, faultless_ready _⟩
    | methodNotAllowed allow => exact ⟨_, rfl, (Matches.ready _).awaits, faultless_ready _⟩
    | notFound => exact ⟨_, rfl, (Matches.ready _).awaits, faultless_ready _⟩
    | route index captures =>
      obtain ⟨plan, md, hplan, hnames, hsound⟩ := plan_of_dispatch hc hs hdispatch
      -- the plan decides the body and the captures on both paths
      have hnotRaw := hraw index captures hdispatch plan hplan
      rw [← hserver] at hplan hnames
      obtain ⟨dispatch, hprepared, hawaits⟩ := awaits_handleMatched hplan hnames hsound hnotRaw
        hbody hlength (.of captures) (parts.method == .head)
      exact ⟨dispatch, hprepared, hawaits,
        faultless_handleMatched hplan hnames hsound hnotRaw _ _ _⟩
  constructor
  · intro answer
    simp only [Server.network, hprepare]
    exact hawaits answer
  · intro n fault
    exact hfaultless.run_ne n fault

end Paths

/-! ### A server that answers with the body -/

/-- Bodies that are there already. -/
def instant : Environment Bytes where
  toVec _ := .new
  collect limit body := .ready (if body.len ≤ limit then .ok body else .error .lengthLimit)
  timeout _ collected := collected.map some

/-- A handler that waits once and returns the body. -/
def echo : Endpoint Unit Bytes where
  zero := .never
  call request _ _ := .pending (.ready (responseText 200 request.body))
  raw _ := .never
  static := .json .new

/-- `app.post("/notes", |body: Json<..>| ..).body_limit(4)` -/
def echoProgram : Program (Endpoint Unit Bytes) Unit :=
  .call (.route .post (str "/notes") (.of [{ params := false, capture := false, body := true }] echo))
    (.call (.bodyLimit 4) .done)

/-- What it builds. -/
def echoApp : App (Endpoint Unit Bytes) Unit :=
  returned (echoProgram.build none echo echo) (by decide +kernel)

def echoServer : Server Unit Bytes Unit :=
  { runtime := echoApp.freeze, state := (), bodyReadTimeout := some 60 }

/-- `POST /notes`, with the length of the body -/
def echoParts (body : Bytes) : Parts where
  method := .post
  path := str "/notes"
  query := none
  headers := HeaderMap.empty.insert .contentLength (decimal body.len)

/-- A body of as many bytes as the route takes. -/
def milk : Bytes := { data := str "milk", length_le := by decide +kernel }

/-- A body that is longer. -/
def bread : Bytes := { data := str "bread", length_le := by decide +kernel }

theorem arrives_instant (timeout : Option ℕ) (body : Bytes) : instant.Arrives timeout body body where
  collect _ := Future.gives_ready.mpr rfl
  inTime _ _ _ := Future.gives_ready.mpr rfl

theorem network_iff_memory_echo :
    let agree : Bytes → Prop := fun body =>
      (∀ answer, (∃ n, echoServer.network instant { parts := echoParts body, body } n = some answer) ↔
          ∃ n, echoServer.memory instant { parts := echoParts body, body } n = some answer) ∧
        ∀ n fault, echoServer.memory instant { parts := echoParts body, body } n ≠
          some (.error fault)
    agree milk ∧ agree bread := by
  intro agree
  have hagree : ∀ body, agree body := by
    intro body
    apply network_iff_memory (p := echoProgram) (eq_returned _)
    · exact ⟨⟨⟨_, rfl⟩, fun h => by cases h⟩, trivial, trivial⟩
    · rfl
    · exact arrives_instant _ _
    · intro length h
      exact Option.some.inj (h.symm.trans (contentLength_insert body.length_le _))
    · intro index _ _ plan hplan
      have hall : (echoApp.plans.all fun plan => !plan.handler.isRaw) = true := by decide +kernel
      simpa using List.all_eq_true.mp hall plan (List.mem_of_getElem? hplan)
  exact ⟨hagree milk, hagree bread⟩

end OasRs
