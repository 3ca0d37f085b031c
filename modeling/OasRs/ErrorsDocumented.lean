import OasRs.Captures
import OasRs.Extraction
import OasRs.DocumentUnique

/-!
# Documented Errors

`framework_errors` lists the statuses of a route from its metadata: the parameters, the path
schemas and the body that its extractors declare. Two extractors leave no metadata and still
lead to a `400`: `Params`, whose captures are decoded before the handler is called, and a
`Query` of a struct without parameters, whose encoding is checked.

## Main results

- `answers_cases`: the statuses that the framework answers with
- `errors_documented_iff`: when the document lists them
-/

namespace OasRs

open Lib Lib.Polling Schema

variable {ι S V T F Incoming M : Type}

/-! ## The framework's answers -/

/-- The same kind of handler with another call. -/
def HandlerKind.withCall {H : Type} (kind : HandlerKind H) (call : H) : HandlerKind H :=
  match kind with
  | .zero _ => .zero call
  | .typedNoParams _ => .typedNoParams call
  | .typed _ => .typed call
  | .raw _ => .raw call
  | .static _ => .static call

/-- The server with another endpoint for a route. -/
def Server.withEndpoint (server : Server S Incoming M) (index : RouteId)
    (endpoint : Endpoint S Incoming) : Server S Incoming M where
  runtime := { server.runtime with
    plans := server.runtime.plans.modify index fun plan =>
      { plan with handler := plan.handler.withCall endpoint } }
  state := server.state
  bodyReadTimeout := server.bodyReadTimeout

/-- A request from the network is answered with a status. -/
def Server.AnswersStatus (env : Environment Incoming) (server : Server S Incoming M)
    (request : HttpRequest Incoming) (status : ℕ) : Prop :=
  ∃ n response, server.network env request n = some (.ok response) ∧ response.status = status

/-- The framework itself answers for a route: whatever the code of the application is. -/
def Server.FrameworkAnswers [DecidableEq ι] (named : Named ι) (extraction : Extraction ι V T F)
    (env : Environment Incoming) (server : Server S Incoming M) (index : RouteId)
    (signature : Signature ι) (request : HttpRequest Incoming) (status : ℕ) : Prop :=
  ∀ application : Application S V T,
    (server.withEndpoint index (signature.endpoint named extraction env application)).AnswersStatus
      env request status

/-! ## What a signature takes -/

/-- Whether the extractor is a `Query`, or an `Option` of one. -/
def Extractor.isQuery : Extractor ι → Bool
  | .query _ => true
  | .option inner => inner.isQuery
  | _ => false

/-- Whether the extractor is one that leaves no more than a client error. -/
def Extractor.blamesClient : Extractor ι → Bool
  | .connectInfo => false
  | .option inner => inner.blamesClient
  | _ => true

namespace Signature

def takesQuery (signature : Signature ι) : Bool := signature.extractors.any Extractor.isQuery

def takesParams (signature : Signature ι) : Bool :=
  signature.extractors.any fun extractor => extractor.needs.params

def takesBody (signature : Signature ι) : Bool :=
  signature.extractors.any fun extractor => extractor.needs.body

end Signature

/-- The texts of the captures decode. -/
def Decodes (path : Text) (captures : Option CaptureSet) : Prop :=
  ∀ set ∈ captures, ∃ values, (set.texts (normalizeRequestPath path)).mapM percentDecode = .ok values

/-! ## The plan of a signature -/

/-- The plan and the names that registration makes for a handler with a signature. -/
structure Signature.Fits {H : Type} (signature : Signature ι) (call : H) (plan : RoutePlan H)
    (names : Option (List Text)) : Prop where
  handler : (signature.extractors = [] ∧ plan.handler = .zero call) ∨
    (signature.extractors ≠ [] ∧ signature.takesParams = false ∧
      plan.handler = .typedNoParams call) ∨
    (signature.extractors ≠ [] ∧ plan.handler = .typed call)
  body : plan.bodyMode = if signature.takesBody then .buffered else .none
  capture : plan.captureMode = .materialized ↔ signature.takesParams = true
  names : signature.takesParams = true → names.isSome = true

theorem Signature.Fits.withCall {H : Type} {signature : Signature ι} {call : H} {plan : RoutePlan H}
    {names : Option (List Text)} (h : signature.Fits call plan names) (call' : H) :
    signature.Fits call' { plan with handler := plan.handler.withCall call' } names := by
  refine { handler := ?_, body := h.body, capture := h.capture, names := h.names }
  rcases h.handler with ⟨hnil, hkind⟩ | ⟨hne, hparams, hkind⟩ | ⟨hne, hkind⟩
  · exact .inl ⟨hnil, by rw [hkind]; rfl⟩
  · exact .inr (.inl ⟨hne, hparams, by rw [hkind]; rfl⟩)
  · exact .inr (.inr ⟨hne, by rw [hkind]; rfl⟩)

/-- The server has the route of a signature at an index. -/
def Server.HasRoute (server : Server S Incoming M) (index : RouteId) (signature : Signature ι)
    (endpoint : Endpoint S Incoming) : Prop :=
  ∃ plan names, server.runtime.plans[index]? = some plan ∧
    server.runtime.captureNames[index]? = some names ∧ signature.Fits endpoint plan names

theorem Server.HasRoute.withEndpoint {server : Server S Incoming M} {index : RouteId}
    {signature : Signature ι} {endpoint : Endpoint S Incoming}
    (h : server.HasRoute index signature endpoint) (endpoint' : Endpoint S Incoming) :
    (server.withEndpoint index endpoint').HasRoute index signature endpoint' := by
  obtain ⟨plan, names, hplan, hnames, hfits⟩ := h
  refine ⟨_, names, ?_, hnames, hfits.withCall endpoint'⟩
  show (server.runtime.plans.modify index _)[index]? = _
  rw [List.getElem?_modify_eq, hplan]
  rfl

/-- The framework needs the captures of a handler that takes `Params`. -/
theorem needs_capture_of_params (extractor : Extractor ι) (h : extractor.needs.params = true) :
    extractor.needs.capture = true := by
  induction extractor with
  | params => rfl
  | option inner ih => exact ih h
  | state | path _ | query _ | header _ | json _ | form _ | multipart | cookies | headers
  | connectInfo => cases h

/-! ## The statuses of a route -/

/-- The statuses with which a route is answered, if the code of the application answers with
    `200` and refuses with `500`. -/
inductive Signature.Answers (signature : Signature ι) (path : Text) (captures : Option CaptureSet) :
    ℕ → Prop where
  | handler : signature.Answers path captures 200
  | refusal : signature.Answers path captures 500
  | extraction {status : ℕ} (hstatus : status ∈ signature.extractors.flatMap Extractor.statuses) :
      signature.Answers path captures status
  | body {status : ℕ} (hbody : signature.takesBody = true) (hstatus : status ∈ [400, 408, 413]) :
      signature.Answers path captures status
  | captures (hparams : signature.takesParams = true) (hdecodes : ¬ Decodes path captures) :
      signature.Answers path captures 400

/-- An application whose code answers with `200` and refuses with `500`. -/
def placid : Application S V T where
  refuse _ _ := .new 500 "Internal Server Error" ""
  respond _ := .ready (responseText 200 .new)

section Cases

variable [DecidableEq ι] {named : Named ι} {extraction : Extraction ι V T F}
  {env : Environment Incoming} {server : Server S Incoming M} {index : RouteId}
  {signature : Signature ι} {path : Text} {captures : Option CaptureSet}

/-- A call answers as the handler or as an extractor. -/
theorem answers_call {request : HttpRequest Bytes} {params : Params} {state : S}
    {response : Response}
    (h : ((signature.endpoint named extraction env placid).call request params state).Gives response) :
    signature.Answers path captures response.status := by
  simp only [Signature.endpoint] at h
  split at h
  · cases Future.gives_ready.mp h
    exact .handler
  · rename_i error herror
    cases Future.gives_ready.mp h
    show signature.Answers path captures error.status
    rcases failsWith_extractAll signature.extractors params state request error herror with
      hstatus | ⟨name, text, rfl⟩
    · exact .extraction hstatus
    · exact .refusal

/-- Invoking a handler answers as the call does, or refuses the captures. -/
theorem answers_invoke {request : HttpRequest Bytes} {mode : CaptureMode}
    {names : Option (List Text)} {state : S} {future : Future Response} {response : Response}
    (hmode : mode = .materialized → signature.takesParams = true)
    (hinvoke : (Captures.of captures).invoke env mode request names
      (signature.endpoint named extraction env placid).call state = .ok future)
    (h : future.Gives response) : signature.Answers request.parts.path captures response.status := by
  cases captures with
  | none =>
    cases hinvoke
    exact answers_call h
  | some set =>
    cases mode with
    | none =>
      cases hinvoke
      exact answers_call h
    | borrowed =>
      cases hinvoke
      exact answers_call h
    | materialized =>
      cases names with
      | none => cases hinvoke
      | some names =>
        simp only [Captures.of, Captures.invoke, Params.fromMaterializedNames] at hinvoke
        -- only materialized captures are decoded before the handler is called
        cases htexts : (set.texts (normalizeRequestPath request.parts.path)).mapM percentDecode with
        | ok values =>
          rw [htexts] at hinvoke
          cases hinvoke
          exact answers_call h
        | error error =>
          rw [htexts] at hinvoke
          cases hinvoke
          cases Future.gives_ready.mp h
          apply Signature.Answers.captures (hmode rfl)
          intro hdecodes
          obtain ⟨values, hvalues⟩ := hdecodes set rfl
          rw [htexts] at hvalues
          cases hvalues

/-- The statuses of a request whose body is in memory. -/
theorem statusIn_handleMatched
    (h : server.HasRoute index signature (signature.endpoint named extraction env placid))
    (request : HttpRequest Bytes) (isHead : Bool) :
    StatusIn (server.handleMatched env request index (.of captures) isHead)
      (signature.Answers request.parts.path captures) := by
  obtain ⟨plan, names, hplan, hnames, hfits⟩ := h
  have hlarge : plan.bodyMode = .buffered → StatusIn
      (.ready (.ok (payloadTooLargeResponse env.toVec)))
      (signature.Answers request.parts.path captures) := by
    intro hbuffered
    rw [hfits.body] at hbuffered
    refine .ready (.body ?_ (List.mem_cons_of_mem _ (List.mem_cons_of_mem _ List.mem_cons_self)))
    by_contra hbody
    rw [if_neg hbody] at hbuffered
    cases hbuffered
  simp only [Server.handleMatched, hplan, hnames, Option.getD_some]
  rcases hfits.handler with ⟨-, hkind⟩ | ⟨-, -, hkind⟩ | ⟨-, hkind⟩
  · simp only [hkind]
    refine StatusIn.map (fun response hgives => ?_) isHead
    cases Future.gives_ready.mp hgives
    exact .handler
  · simp only [hkind]
    split
    · rename_i hbody
      exact hlarge hbody.1
    · exact StatusIn.map (fun response hgives => answers_call hgives) isHead
  · simp only [hkind]
    split
    · rename_i hbody
      exact hlarge hbody.1
    · split
      · rename_i future hinvoke
        exact StatusIn.map (fun response hgives => answers_invoke hfits.capture.mp hinvoke hgives) isHead
      · exact StatusIn.fault _

/-- The statuses of what is prepared for a request from the network. -/
theorem answers_prepareMatched
    (h : server.HasRoute index signature (signature.endpoint named extraction env placid))
    {request : HttpRequest Incoming} {isHead : Bool} {dispatch : PreparedDispatch}
    (hprepare : server.prepareMatched env request index (.of captures) isHead = .ok dispatch)
    {n : ℕ} {response : Response}
    (hdrive : drive PreparedDispatch.poll n dispatch = some (.ok response)) :
    signature.Answers request.parts.path captures response.status := by
  -- what is prepared awaits a future with these statuses
  suffices hfuture : ∃ future, Matches dispatch future ∧
      StatusIn future (signature.Answers request.parts.path captures) by
    obtain ⟨future, hmatches, hstatus⟩ := hfuture
    exact hstatus response ((hmatches.awaits (.ok response)).mp ⟨n, hdrive⟩)
  have hroute := h
  obtain ⟨plan, names, hplan, hnames, hfits⟩ := h
  simp only [Server.prepareMatched, hplan, hnames, Option.getD_some] at hprepare
  by_cases hbody : signature.takesBody = true
  · have hmode := hfits.body
    rw [if_pos hbody] at hmode
    simp only [hmode] at hprepare
    have hlarge : StatusIn (.ready (.ok (payloadTooLargeResponse env.toVec)))
        (signature.Answers request.parts.path captures) :=
      .ready (.body hbody (List.mem_cons_of_mem _ (List.mem_cons_of_mem _ List.mem_cons_self)))
    have hafter : ∀ collected, StatusIn
        (server.afterCollect env request.parts index (.of captures) isHead collected)
        (signature.Answers request.parts.path captures) := by
      intro collected
      cases collected with
      | ok body => exact statusIn_handleMatched hroute { parts := request.parts, body } isHead
      | error error =>
        cases error with
        | lengthLimit => exact hlarge
        | interrupted => exact .ready (.body hbody List.mem_cons_self)
    split at hprepare
    · cases hprepare
      exact ⟨_, .ready _, hlarge⟩
    · cases hprepare
      refine ⟨_, .buffered _, ?_⟩
      split
      · refine StatusIn.bind fun collected => ?_
        cases collected with
        | some collected => exact hafter collected
        | none => exact .ready (.body hbody (List.mem_cons_of_mem _ List.mem_cons_self))
      · exact StatusIn.bind hafter
  · have hmode := hfits.body
    rw [if_neg hbody] at hmode
    simp only [hmode] at hprepare
    rcases hfits.handler with ⟨-, hkind⟩ | ⟨-, -, hkind⟩ | ⟨-, hkind⟩
    · simp only [hkind] at hprepare
      cases hprepare
      refine ⟨_, .handler _ _, StatusIn.map (fun response hgives => ?_) isHead⟩
      cases Future.gives_ready.mp hgives
      exact .handler
    · simp only [hkind] at hprepare
      cases hprepare
      refine ⟨_, .handler _ _, StatusIn.map (fun response hgives => ?_) isHead⟩
      exact answers_call hgives
    · simp only [hkind, bind_eq_ok, pure_eq_ok] at hprepare
      obtain ⟨future, hinvoke, rfl⟩ := hprepare
      refine ⟨_, .handler _ _, StatusIn.map (fun response hgives => ?_) isHead⟩
      exact answers_invoke hfits.capture.mp hinvoke hgives

/-- The status of a routed request. -/
theorem Server.answersStatus_iff {request : HttpRequest Incoming} {status : ℕ}
    (hdispatch : server.runtime.dispatch request.parts.method request.parts.path =
      .route index captures) :
    server.AnswersStatus env request status ↔ ∃ dispatch n response,
      server.prepareMatched env request index (.of captures) (request.parts.method == .head) =
          .ok dispatch ∧
        drive PreparedDispatch.poll n dispatch = some (.ok response) ∧ response.status = status := by
  have hdirect : server.prepareDirect env request =
      server.prepareMatched env request index (.of captures) (request.parts.method == .head) := by
    rw [prepareDirect_eq, hdispatch]
    rfl
  simp only [Server.AnswersStatus, Server.network, hdirect]
  cases server.prepareMatched env request index (.of captures) (request.parts.method == .head) with
  | ok dispatch => simp
  | error fault => simp

/-- **The statuses that the framework answers with** are among those of the route. -/
theorem answers_cases {request : HttpRequest Incoming} {status : ℕ} {endpoint : Endpoint S Incoming}
    (h : server.HasRoute index signature endpoint)
    (hdispatch : server.runtime.dispatch request.parts.method request.parts.path =
      .route index captures)
    (hanswers : server.FrameworkAnswers named extraction env index signature request status) :
    signature.Answers request.parts.path captures status := by
  obtain ⟨dispatch, n, response, hprepare, hdrive, rfl⟩ :=
    (Server.answersStatus_iff (by exact hdispatch)).mp (hanswers placid)
  exact answers_prepareMatched (h.withEndpoint _) hprepare hdrive

/-! ## Requests that are refused -/

omit [DecidableEq ι] in
/-- What is prepared for a handler without a body: its call, or the error of its captures. -/
theorem prepareMatched_of_bodyless {endpoint : Endpoint S Incoming}
    (h : server.HasRoute index signature endpoint) (hbody : signature.takesBody = false)
    (hne : signature.extractors ≠ []) (parts : Parts) (body : Incoming) (isHead : Bool) :
    ∃ future, server.prepareMatched env { parts, body } index (.of captures) isHead =
        .ok (.handler isHead future) ∧
      ((signature.takesParams = true → Decodes parts.path captures) ∧
          (∃ params, future = endpoint.call { parts, body := .new } params server.state) ∨
        ∃ error : DecodeError, future = .ready (error.toApiError.intoResponse env.toVec)) := by
  obtain ⟨plan, names, hplan, hnames, hfits⟩ := h
  have hmode := hfits.body
  rw [hbody, if_neg (by decide)] at hmode
  simp only [Server.prepareMatched, hplan, hnames, Option.getD_some, hmode]
  rcases hfits.handler with ⟨hnil, -⟩ | ⟨-, hparams, hkind⟩ | ⟨-, hkind⟩
  · -- without extractors there is nothing to prepare
    exact absurd hnil hne
  · simp only [hkind]
    exact ⟨_, rfl, .inl ⟨fun htakes => (Bool.eq_false_iff.mp hparams htakes).elim, _, rfl⟩⟩
  · simp only [hkind]
    -- parameters are decoded where the plan materializes captures
    cases captures with
    | none =>
      exact ⟨_, rfl, .inl ⟨fun _ set hset => (by cases hset), _, rfl⟩⟩
    | some set =>
      have hnone : plan.captureMode ≠ .materialized → ¬ signature.takesParams = true :=
        fun hmode htakes => hmode (hfits.capture.mpr htakes)
      cases hcapture : plan.captureMode with
      | none =>
        refine ⟨_, rfl, .inl ⟨fun htakes => ?_, _, rfl⟩⟩
        exact (hnone (by rw [hcapture]; decide) htakes).elim
      | borrowed =>
        refine ⟨_, rfl, .inl ⟨fun htakes => ?_, _, rfl⟩⟩
        exact (hnone (by rw [hcapture]; decide) htakes).elim
      | materialized =>
        obtain ⟨names, rfl⟩ := Option.isSome_iff_exists.mp
          (hfits.names (hfits.capture.mp hcapture))
        simp only [Captures.of, Captures.invoke, Params.fromMaterializedNames]
        cases htexts : (set.texts (normalizeRequestPath parts.path)).mapM percentDecode with
        | ok values =>
          refine ⟨_, rfl, .inl ⟨fun _ set' hset' => ?_, _, rfl⟩⟩
          cases hset'
          exact ⟨values, htexts⟩
        | error error => exact ⟨_, rfl, .inr ⟨error, rfl⟩⟩

/-- A handler without a body that is invoked in vain: its captures do not decode, or its
    extractors refuse whatever they are given. -/
theorem frameworkAnswers_of_refused {parts : Parts} {body : Incoming}
    {endpoint : Endpoint S Incoming} (h : server.HasRoute index signature endpoint)
    (hdispatch : server.runtime.dispatch parts.method parts.path = .route index captures)
    (hbody : signature.takesBody = false) (hne : signature.extractors ≠ [])
    (hrefused : (signature.takesParams = true → Decodes parts.path captures) →
      ∀ (application : Application S V T) (params : Params), ∃ error : ApiError, error.status = 400 ∧
        extractAll named extraction application.refuse params server.state signature.extractors
          { parts, body := .new } = .error error) :
    server.FrameworkAnswers named extraction env index signature { parts, body } 400 := by
  intro application
  apply (Server.answersStatus_iff (by exact hdispatch)).mpr
  obtain ⟨future, hprepare, hfuture⟩ := prepareMatched_of_bodyless
    (h.withEndpoint (signature.endpoint named extraction env application)) hbody hne parts body
    (parts.method == .head)
  -- the future is ready with a response whose status is `400`
  obtain ⟨response, hready, hstatus⟩ : ∃ response, future = .ready response ∧ response.status = 400 := by
    rcases hfuture with ⟨hdecodes, params, rfl⟩ | ⟨error, rfl⟩
    · obtain ⟨error, hstatus, herror⟩ := hrefused hdecodes application params
      refine ⟨error.intoResponse env.toVec, ?_, hstatus⟩
      simp only [Signature.endpoint]
      rw [show (server.withEndpoint index _).state = server.state from rfl, herror]
    · exact ⟨_, rfl, rfl⟩
  subst hready
  refine ⟨_, 1, maybeHeadFlag (parts.method == .head) response, hprepare, rfl, ?_⟩
  rw [status_eq_maybeHeadFlag, hstatus]

end Cases

/-! ## Extractors without metadata -/

section Silent

variable [DecidableEq ι] {named : Named ι} {extraction : Extraction ι V T F}
  {refuse : Text → Text → ApiError}

/-- An extractor that leaves no metadata. -/
structure Extractor.Silent (named : Named ι) (extractor : Extractor ι) : Prop where
  pathSchemas : extractor.pathSchemas named = some []
  parameters : extractor.parameters named = some []
  body : extractor.needs.body = false

theorem Extractor.Silent.inner {inner : Extractor ι} (h : (Extractor.option inner).Silent named) :
    inner.Silent named := by
  refine { pathSchemas := h.pathSchemas, parameters := ?_, body := h.body }
  obtain ⟨parameters, hparameters, hnil⟩ := Option.map_eq_some_iff.mp h.parameters
  rw [hparameters, List.map_eq_nil_iff.mp hnil]

/-- Only a query refuses without metadata, as far as the client is concerned. -/
theorem Extractor.Silent.statuses {extractor : Extractor ι} (h : extractor.Silent named)
    (hquery : extractor.isQuery = false) : ∀ status ∈ extractor.statuses, status = 500 := by
  induction extractor with
  | option inner ih => exact ih h.inner hquery
  | query type => cases hquery
  | path type =>
    obtain ⟨schema, -, hnil⟩ := Option.map_eq_some_iff.mp h.pathSchemas
    cases hnil
  | header name => cases h.parameters
  | json type => cases h.body
  | form type => cases h.body
  | multipart => cases h.body
  | connectInfo =>
    intro status hstatus
    exact List.mem_singleton.mp hstatus
  | state | params | cookies | headers =>
    intro status hstatus
    cases hstatus

omit [DecidableEq ι] in
/-- Only an extractor of the body refuses with `415`. -/
theorem Extractor.status_cases (extractor : Extractor ι) : ∀ status ∈ extractor.statuses,
    status = 400 ∨ status = 500 ∨ (status = 415 ∧ extractor.needs.body = true) := by
  induction extractor with
  | option inner ih => exact ih
  | json type | form type | multipart =>
    intro status hstatus
    rcases List.mem_cons.mp hstatus with rfl | hstatus
    · exact .inl rfl
    · exact .inr (.inr ⟨List.mem_singleton.mp hstatus, rfl⟩)
  | path type | query type | header name =>
    intro status hstatus
    exact .inl (List.mem_singleton.mp hstatus)
  | connectInfo =>
    intro status hstatus
    exact .inr (.inl (List.mem_singleton.mp hstatus))
  | state | params | cookies | headers =>
    intro status hstatus
    cases hstatus

omit [DecidableEq ι] in
theorem dedupParameters_eq_nil {parameters : List Parameter} (h : dedupParameters parameters = []) :
    parameters = [] := by
  cases parameters with
  | nil => rfl
  | cons parameter parameters =>
    rw [dedupParameters, dedupFrom, if_neg (by simp)] at h
    cases h

/-- A direct struct without parameters has no fields. -/
theorem fields_eq_nil {input : StructInput ι} (hdirect : input.isDirect = true)
    (h : (QueryStruct.struct input).parameters named = some []) : input.fields = [] := by
  obtain ⟨groups, hgroups, hnil⟩ := Option.map_eq_some_iff.mp h
  have hflatten := dedupParameters_eq_nil hnil
  have hfields := mapM_eq_some.mp hgroups
  rw [StructInput.isDirect, Bool.and_eq_true, List.all_eq_true] at hdirect
  generalize input.fields = fields at hfields hdirect ⊢
  cases hfields with
  | nil => rfl
  | @cons field group fields groups hfield _ =>
    -- the field has a parameter of its own
    have hown := hdirect.2 field List.mem_cons_self
    rw [StructField.isDirect, Bool.and_eq_true, Bool.and_eq_true, Bool.not_eq_true'] at hown
    simp only [QueryStruct.fieldParameters, Option.bind_eq_bind, Option.pure_def,
      Option.bind_eq_some_iff, Option.some.injEq] at hfield
    obtain ⟨flattened, -, own, hown', rfl⟩ := hfield
    rw [QueryStruct.ownParameters, hown.1.1] at hown'
    obtain ⟨schema, -, rfl⟩ := Option.map_eq_some_iff.mp hown'
    simp at hflatten

/-- A struct without parameters still refuses a query with a bad encoding. -/
theorem parse_percent (decoders : Decoders ι V T F) {query : QueryStruct ι}
    (h : query.parameters named = some []) :
    ∃ error, query.parse named decoders [percent] = .error error := by
  cases query with
  | transparent type => exact ⟨_, rfl⟩
  | struct input =>
    simp only [QueryStruct.parse]
    split
    · rename_i hdirect
      rw [StructInput.directFields, fields_eq_nil hdirect h]
      exact ⟨_, rfl⟩
    · split
      · exact ⟨_, rfl⟩
      · exact ⟨_, rfl⟩

/-- A query without metadata refuses a bad encoding. -/
theorem extract_query {extractor : Extractor ι} (h : extractor.Silent named)
    (hquery : extractor.isQuery = true) (params : Params) (state : S) {request : HttpRequest Bytes}
    (hpercent : request.parts.query = some [percent]) :
    ∃ error : ApiError, error.IsBadRequest ∧
      extractor.extract named extraction refuse params state request = .error error := by
  induction extractor with
  | query type =>
    obtain ⟨error, herror⟩ := parse_percent extraction.toDecoders h.parameters
    have hbad := isBadRequest_parse _ error herror
    refine ⟨error, hbad, ?_⟩
    simp only [Extractor.extract, Extractor.readQuery, hpercent, Option.getD_some, herror]
    rfl
  | option inner ih =>
    obtain ⟨error, hbad, herror⟩ := ih h.inner hquery
    refine ⟨error, hbad, ?_⟩
    simp only [Extractor.extract, herror, hbad.missing]
    rfl
  | state | path _ | params | header _ | json _ | form _ | multipart | cookies | headers
  | connectInfo => cases hquery

/-- Any other extractor without metadata does not refuse. -/
theorem extract_silent {extractor : Extractor ι} (h : extractor.Silent named)
    (hquery : extractor.isQuery = false) (hclient : extractor.blamesClient = true)
    (params : Params) (state : S) (request : HttpRequest Bytes) :
    ∃ value : Argument S V T,
      extractor.extract named extraction refuse params state request = .ok (value, request) := by
  induction extractor with
  | option inner ih =>
    obtain ⟨value, hvalue⟩ := ih h.inner hquery hclient
    refine ⟨.option (some value), ?_⟩
    simp only [Extractor.extract, hvalue]
  | query type => cases hquery
  | connectInfo => cases hclient
  | path type =>
    obtain ⟨schema, -, hnil⟩ := Option.map_eq_some_iff.mp h.pathSchemas
    cases hnil
  | header name => cases h.parameters
  | json type => cases h.body
  | form type => cases h.body
  | multipart => cases h.body
  | state | params | cookies | headers => exact ⟨_, rfl⟩

/-- Among extractors without metadata, the first query refuses. -/
theorem extractAll_query {extractors : List (Extractor ι)}
    (h : ∀ extractor ∈ extractors, extractor.Silent named)
    (hclient : ∀ extractor ∈ extractors, extractor.blamesClient = true)
    (hquery : extractors.any Extractor.isQuery = true) (params : Params) (state : S)
    {request : HttpRequest Bytes} (hpercent : request.parts.query = some [percent]) :
    ∃ error : ApiError, error.status = 400 ∧
      extractAll named extraction refuse params state extractors request = .error error := by
  induction extractors with
  | nil => cases hquery
  | cons extractor extractors ih =>
    have hsilent := h extractor List.mem_cons_self
    cases hfirst : extractor.isQuery with
    | true =>
      obtain ⟨error, hbad, herror⟩ := extract_query hsilent hfirst params state hpercent
      refine ⟨error, hbad.status, ?_⟩
      rw [extractAll, herror]
      rfl
    | false =>
      obtain ⟨value, hvalue⟩ := extract_silent hsilent hfirst
        (hclient extractor List.mem_cons_self) params state request
      rw [List.any_cons, hfirst, Bool.false_or] at hquery
      obtain ⟨error, hstatus, herror⟩ := ih (fun other hother => h other (List.mem_cons_of_mem _ hother))
        (fun other hother => hclient other (List.mem_cons_of_mem _ hother)) hquery
      refine ⟨error, hstatus, ?_⟩
      rw [extractAll, hvalue]
      show (extractAll named extraction refuse params state extractors request >>= _) = _
      rw [herror]
      rfl

end Silent

/-! ## The documented responses -/

section Documented

variable {H : Type}

/-- The metadata of an operation puts `400` among the errors of the framework. -/
def Operation.Declares (operation : Operation) : Prop :=
  operation.request.parameters ≠ [] ∨ operation.request.pathSchemas ≠ [] ∨
    operation.request.requestBody.isSome = true

theorem mem_responses (doc : AppDoc ι H M) (route : Route H) (status : ℕ) :
    status ∈ doc.responses route ↔
      status = route.operation.responseStatus ∨ status ∈ doc.errors route := by
  have hfold : ∀ (errors : List ℕ) (responses : Table ℕ ResponseObject),
      status ∈ errors.foldl (fun responses code => responses.insert code
          { description := (canonicalReason code).getD "Error", schema := some (Schema.reference "Problem") })
        responses ↔ status ∈ responses ∨ status ∈ errors := by
    intro errors
    induction errors with
    | nil => simp
    | cons code errors ih =>
      intro responses
      rw [List.foldl_cons, ih, AList.mem_insert, List.mem_cons]
      constructor
      · rintro ((h | h) | h)
        · exact .inr (.inl h)
        · exact .inl h
        · exact .inr (.inr h)
      · rintro (h | h | h)
        · exact .inl (.inr h)
        · exact .inl (.inl h)
        · exact .inr h
  rw [AppDoc.responses, hfold, AList.mem_insert]
  simp [AList.notMem_empty]

theorem mem_errors (doc : AppDoc ι H M) (hdocs : doc.documentsErrors = true) (route : Route H)
    (status : ℕ) : status ∈ doc.errors route ↔
      status ∈ frameworkErrors route.operation route.plan.bodyMode doc.defaultSecured ∨
        status ∈ route.operation.problemResponses := by
  rw [AppDoc.errors, if_pos hdocs, List.mem_append]

/-- The framework lists `400` exactly when the metadata declares something. -/
theorem badRequest_mem_frameworkErrors {operation : Operation} {bodyMode : BodyMode}
    (hmode : bodyMode ≠ .incoming) (secured : Bool) :
    400 ∈ frameworkErrors operation bodyMode secured ↔ operation.Declares := by
  have hparsed : (bodyMode != .incoming) = true := by simpa using hmode
  simp only [frameworkErrors, hparsed, Bool.true_and, List.mem_append, Operation.Declares]
  constructor
  · rintro ((h | h) | h)
    · split at h
      · rename_i hdeclares
        simpa [or_assoc] using hdeclares
      · cases h
    · split at h
      · rename_i hbody
        exact .inr (.inr hbody)
      · cases h
    · simp at h
  · intro h
    left
    left
    rw [if_pos]
    · exact List.mem_singleton_self 400
    · simpa [or_assoc] using h

/-- The framework lists what collecting a body leads to. -/
theorem body_mem_frameworkErrors {operation : Operation} {secured : Bool}
    (hbody : operation.request.requestBody.isSome = true) {status : ℕ}
    (hstatus : status ∈ [400, 408, 413, 415]) :
    status ∈ frameworkErrors operation .buffered secured := by
  simp only [frameworkErrors, hbody]
  simp at hstatus
  rcases hstatus with rfl | rfl | rfl | rfl
  · simp
  · simp
  · simp
  · simp

/-- The parts of a route. -/
theorem AppDoc.getElem?_allRoutes {doc : AppDoc ι H M} {index : ℕ} {route : Route H}
    (h : doc.allRoutes[index]? = some route) :
    doc.app.metadata[index]? = some route.md ∧ doc.operations[index]? = some route.operation ∧
      doc.app.plans[index]? = some route.plan := by
  rw [allRoutes, List.getElem?_map, Option.map_eq_some_iff] at h
  obtain ⟨⟨md, operation, plan⟩, hzip, rfl⟩ := h
  obtain ⟨hmd, hrest⟩ := List.getElem?_zip_eq_some.mp hzip
  obtain ⟨hoperation, hplan⟩ := List.getElem?_zip_eq_some.mp hrest
  exact ⟨hmd, hoperation, hplan⟩

/-- A page comes after the routes. -/
theorem App.prefix_installPage {app app' : App H M} {config : Option Text} {page : H}
    (h : app.installPage config page = .ok app') :
    app.metadata <+: app'.metadata ∧ app.plans <+: app'.plans := by
  cases config with
  | none =>
    cases h
    exact ⟨List.prefix_rfl, List.prefix_rfl⟩
  | some path =>
    simp only [App.installPage, App.addGeneratedStaticRoute, bind_eq_ok, orStop_eq_ok] at h
    obtain ⟨segments, -, h⟩ := h
    split at h
    · cases h
    · split at h
      · cases h
      · rw [orStop_eq_ok] at h
        obtain ⟨_, _, rfl, -⟩ := App.push_ok h
        exact ⟨List.prefix_append _ _, List.prefix_append _ _⟩

/-- The routes of a built application begin with those that were registered. -/
theorem AppDoc.prefix_install {doc : AppDoc ι H M} {render : Document → H} {page : H}
    {built : App H M} (h : doc.install render page = .ok built) :
    doc.app.metadata <+: built.metadata ∧ doc.app.plans <+: built.plans := by
  rw [install, App.install] at h
  split at h
  · cases h
  · simp only [bind_eq_ok] at h
    obtain ⟨app, hdocument, hpage⟩ := h
    obtain ⟨hmetadata, hplans⟩ := App.prefix_installPage hdocument
    obtain ⟨hmetadata', hplans'⟩ := App.prefix_installPage hpage
    exact ⟨hmetadata.trans hmetadata', hplans.trans hplans'⟩

end Documented

/-! ## The theorem -/

section Main

variable [DecidableEq ι] {named : Named ι} {extraction : Extraction ι V T F}
  {env : Environment Incoming} {server : Server S Incoming M}
  {p : DocProgram ι (Endpoint S Incoming) M} {doc : AppDoc ι (Endpoint S Incoming) M}
  {render : Document → Endpoint S Incoming} {page : Endpoint S Incoming}
  {built : App (Endpoint S Incoming) M} {index : RouteId} {r : Registered ι (Endpoint S Incoming)}
  {route : Route (Endpoint S Incoming)} {signature : Signature ι} {handler : Endpoint S Incoming}

/-- A registered handler gets a plan that fits its signature. -/
theorem Registered.Describes.fits (h : r.Describes named route)
    (hsource : r.source = .typed signature handler) :
    signature.Fits handler route.plan route.md.captureNames := by
  have hsignature : r.signature = signature := by rw [Registered.signature, hsource]
  have hplan := h.plan
  simp only [Registered.plan, hsource, Registered.captureNames, hsignature] at hplan
  have hnames : route.md.captureNames = if signature.takesParams then
      some (App.captureNames route.md.segments) else none := by
    rw [h.metadata, Registered.metadata, Registered.captureNames, hsignature]
    rfl
  rw [hplan]
  refine { handler := ?_, body := rfl, capture := ?_, names := ?_ }
  · -- the plan has the handler kind that the extractors ask for
    by_cases hnil : signature.extractors = []
    · left
      simp [hnil]
    · have hempty : signature.extractors.isEmpty = false := by simpa using hnil
      simp only [hempty, Bool.false_eq_true, if_false]
      by_cases hcapture : (signature.extractors.any fun extractor => extractor.needs.capture) = true
      · simp [hcapture, hnil]
      · right
        left
        refine ⟨hnil, ?_, by simp only [hcapture]; rfl⟩
        apply Bool.eq_false_iff.mpr
        -- captures are needed wherever parameters are
        intro hparams
        obtain ⟨extractor, hmem, hneeds⟩ := List.any_eq_true.mp hparams
        exact hcapture (List.any_eq_true.mpr ⟨extractor, hmem, needs_capture_of_params _ hneeds⟩)
  · cases hparams : signature.takesParams with
    | true =>
      rw [Signature.takesParams] at hparams
      simp [hparams]
    | false =>
      rw [Signature.takesParams] at hparams
      simp only [hparams, Bool.false_eq_true, if_false, Option.isSome_none]
      split
      · simp
      · simp
  · intro hparams
    rw [hnames, if_pos hparams]
    rfl

theorem forall₂_getElem? {α β : Type} {R : α → β → Prop} {as : List α} {bs : List β}
    (h : List.Forall₂ R as bs) {i : ℕ} {a : α} {b : β} (ha : as[i]? = some a)
    (hb : bs[i]? = some b) : R a b := by
  obtain ⟨hi, rfl⟩ := List.getElem?_eq_some_iff.mp ha
  obtain ⟨hj, rfl⟩ := List.getElem?_eq_some_iff.mp hb
  exact h.get hi hj

/-- The server of a built application has the routes that were registered. -/
theorem hasRoute_of_build (hbuild : p.build named render page = .ok (doc, built))
    (hroute : doc.allRoutes[index]? = some route) (hdescribes : r.Describes named route)
    (hsource : r.source = .typed signature handler) (hserver : server.runtime = built.freeze) :
    server.HasRoute index signature handler := by
  obtain ⟨hmd, -, hplan⟩ := AppDoc.getElem?_allRoutes hroute
  obtain ⟨hmetadata, hplans⟩ := AppDoc.prefix_install (DocProgram.build_ok hbuild).2
  refine ⟨route.plan, route.md.captureNames, ?_, ?_, hdescribes.fits hsource⟩
  · rw [hserver]
    exact getElem?_of_isPrefix hplans hplan
  · rw [hserver]
    show (built.metadata.map RouteMetadata.captureNames)[index]? = _
    rw [List.getElem?_map, getElem?_of_isPrefix hmetadata hmd, Option.map_some]

/-- The extractors of a route whose operation declares nothing leave no metadata. -/
theorem Registered.Describes.silent (h : r.Describes named route)
    (hsource : r.source = .typed signature handler) (hdeclares : ¬ route.operation.Declares) :
    (∀ extractor ∈ signature.extractors, extractor.Silent named) ∧ signature.takesBody = false := by
  have hsignature : r.signature = signature := by rw [Registered.signature, hsource]
  have hparameters := h.parameters
  have hpathSchemas := h.pathSchemas
  have hbody := h.body
  rw [hsignature] at hparameters hpathSchemas hbody
  rw [Operation.Declares, not_or, not_or, not_not, not_not] at hdeclares
  obtain ⟨hnoParameters, hnoPaths, hnoBody⟩ := hdeclares
  have htakes : signature.takesBody = false := by
    apply Bool.eq_false_iff.mpr
    intro htakes
    exact hnoBody (hbody htakes)
  refine ⟨fun extractor hextractor => ?_, htakes⟩
  -- every part of a flat list that is empty is empty
  have hempty : ∀ {α : Type} {f : Extractor ι → Option (List α)},
      (signature.extractors.mapM f).map List.flatten = some [] → f extractor = some [] := by
    intro α f hflat
    obtain ⟨groups, hgroups, hnil⟩ := Option.map_eq_some_iff.mp hflat
    obtain ⟨group, hgroup, hvalue⟩ := forall₂_exists (mapM_eq_some.mp hgroups).flip extractor hextractor
    rw [hvalue, List.flatten_eq_nil_iff.mp hnil group hgroup]
  exact
    { pathSchemas := hempty (hnoPaths ▸ hpathSchemas)
      parameters := hempty (hnoParameters ▸ hparameters)
      body := by
        have hnone := List.any_eq_false.mp htakes extractor hextractor
        simpa using hnone }

omit [DecidableEq ι] in
/-- The body mode of a typed handler. -/
theorem Signature.Fits.bodyMode {H : Type} {call : H} {plan : RoutePlan H} {names : Option (List Text)}
    (h : signature.Fits call plan names) :
    plan.bodyMode ≠ .incoming ∧ (signature.takesBody = true → plan.bodyMode = .buffered) := by
  rw [h.body]
  split
  · exact ⟨by decide, fun _ => rfl⟩
  · rename_i hbody
    exact ⟨by decide, fun htakes => absurd htakes hbody⟩

/-- A route that declares nothing does not list `400`, unless it is listed by hand. -/
theorem badRequest_notMem_responses (hdocs : doc.documentsErrors = true)
    (hdescribes : r.Describes named route) (hmode : route.plan.bodyMode ≠ .incoming)
    (hdeclares : ¬ route.operation.Declares) (hproblem : 400 ∉ route.operation.problemResponses) :
    400 ∉ doc.responses route := by
  rw [mem_responses, mem_errors doc hdocs, badRequest_mem_frameworkErrors hmode]
  rintro (hstatus | hdeclared | hlisted)
  · rw [hdescribes.status] at hstatus
    exact absurd (ResponseType.statusCode_lt r.signature.response) (by rw [← hstatus]; decide)
  · exact hdeclares hdeclared
  · exact hproblem hlisted

/-- The framework refuses a request for a route that declares nothing: one with a bad query, or
    with captures that do not decode. -/
theorem frameworkAnswers_of_silent (extraction : Extraction ι V T F)
    (env : Environment Incoming) (hhas : server.HasRoute index signature handler)
    (hdescribes : r.Describes named route) (hsource : r.source = .typed signature handler)
    (hclient : ∀ extractor ∈ signature.extractors, extractor.blamesClient = true)
    (hdeclares : ¬ route.operation.Declares) {path : Text} {method : Method}
    {captures : Option CaptureSet} (hdispatch : server.runtime.dispatch method path = .route index captures)
    (hgap : signature.takesQuery = true ∨
      (signature.takesParams = true ∧ ¬ Decodes path captures)) (body : Incoming) :
    server.FrameworkAnswers named extraction env index signature
      { parts := { method, path, query := some [percent], headers := .empty }, body } 400 := by
  obtain ⟨hsilent, htakes⟩ := hdescribes.silent hsource hdeclares
  rcases hgap with hquery | ⟨hparams, hdecodes⟩
  · refine frameworkAnswers_of_refused hhas (by exact hdispatch) htakes ?_ ?_
    · intro hnil
      rw [Signature.takesQuery, hnil] at hquery
      cases hquery
    · intro _ application params
      exact extractAll_query hsilent hclient hquery params _ rfl
  · refine frameworkAnswers_of_refused hhas (by exact hdispatch) htakes ?_ ?_
    · intro hnil
      rw [Signature.takesParams, hnil] at hparams
      cases hparams
    · intro hdecode
      exact absurd (hdecode hparams) hdecodes

/-- **When the document lists the errors of the framework**: `400` is listed because of the
metadata or by hand, or the handler takes no `Query`, and takes no `Params` that a request could
spell in a way that does not decode. -/
theorem errors_documented_iff [Inhabited Incoming] (legal : UInt8 → Bool)
    (hbuild : p.build named render page = .ok (doc, built)) (hdocs : doc.documentsErrors = true)
    (hserver : server.runtime = built.freeze) (hr : p.registered[index]? = some r)
    (hroute : doc.allRoutes[index]? = some route) (hsource : r.source = .typed signature handler)
    (hclient : ∀ extractor ∈ signature.extractors, extractor.blamesClient = true) :
    (∀ (path : RequestPath legal) (request : HttpRequest Incoming) (captures : Option CaptureSet)
        (status : ℕ), request.parts.path = path.text →
      server.runtime.dispatch request.parts.method request.parts.path = .route index captures →
      400 ≤ status → status < 500 →
      server.FrameworkAnswers named extraction env index signature request status →
      ∃ object, doc.document.operation r.template (AppDoc.methodKey r.method) = some object ∧
        status ∈ object.responses) ↔
    route.operation.Declares ∨ 400 ∈ route.operation.problemResponses ∨
      ∀ (path : RequestPath legal) (method : Method) (captures : Option CaptureSet),
        server.runtime.dispatch method path.text = .route index captures →
        signature.takesQuery = false ∧ (signature.takesParams = true → Decodes path.text captures) := by
  obtain ⟨hrun, hinstall⟩ := DocProgram.build_ok hbuild
  obtain ⟨hnone, -, -⟩ := AppDoc.install_ok hinstall
  have hdescribes : r.Describes named route :=
    forall₂_getElem? ((describes_run hrun).2 hnone) hr hroute
  have hhas : server.HasRoute index signature handler :=
    hasRoute_of_build hbuild hroute hdescribes hsource hserver
  obtain ⟨hmode, hbuffered⟩ := (hdescribes.fits hsource).bodyMode
  -- the operation of the route in the document
  have hobject : doc.document.operation r.template (AppDoc.methodKey r.method) =
      some (doc.operationObject route) := by
    apply (operation_iff hrun hnone _ _ _).mpr
    refine ⟨route, List.mem_of_getElem? hroute, ?_, ?_, rfl⟩
    · rw [hdescribes.metadata]
      rfl
    · rw [hdescribes.metadata]
      rfl
  constructor
  · intro hcovers
    by_contra hmissed
    rw [not_or, not_or] at hmissed
    obtain ⟨hdeclares, hproblem, hreached⟩ := hmissed
    apply hreached
    intro path method captures hdispatch
    -- a request that the framework refused would be a status that is not listed
    have hrefused : ¬ (signature.takesQuery = true ∨
        (signature.takesParams = true ∧ ¬ Decodes path.text captures)) := by
      intro hgap
      have hanswers := frameworkAnswers_of_silent extraction env hhas hdescribes hsource hclient
        hdeclares hdispatch hgap default
      obtain ⟨object, hfound, hlisted⟩ := hcovers path _ captures 400 rfl hdispatch (by decide)
        (by decide) hanswers
      rw [hobject] at hfound
      cases hfound
      exact badRequest_notMem_responses hdocs hdescribes hmode hdeclares hproblem hlisted
    rw [not_or, not_and, not_not] at hrefused
    exact ⟨Bool.eq_false_iff.mpr hrefused.1, hrefused.2⟩
  · intro hlists path request captures status hpath hdispatch hclientError hlt hanswers
    refine ⟨_, hobject, ?_⟩
    show status ∈ doc.responses route
    rw [mem_responses, mem_errors doc hdocs]
    right
    -- the errors of a body are listed wherever a handler takes one
    have hbodyErrors : signature.takesBody = true → ∀ status ∈ [400, 408, 413, 415],
        status ∈ frameworkErrors route.operation route.plan.bodyMode doc.defaultSecured := by
      intro htakes status hstatus
      rw [hbuffered htakes]
      refine body_mem_frameworkErrors (hdescribes.body ?_) hstatus
      rw [Registered.signature, hsource]
      exact htakes
    -- `400` is listed, unless the route is silent and decodes everything
    have hbadRequest : (¬ route.operation.Declares → signature.takesQuery = false →
          (signature.takesParams = true → Decodes path.text captures) → False) →
        400 ∈ frameworkErrors route.operation route.plan.bodyMode doc.defaultSecured ∨
          400 ∈ route.operation.problemResponses := by
      intro habsurd
      rw [badRequest_mem_frameworkErrors hmode]
      by_contra hmissed
      rw [not_or] at hmissed
      rcases hlists with hdeclares | hproblem | hreached
      · exact hmissed.1 hdeclares
      · exact hmissed.2 hproblem
      · obtain ⟨hquery, hdecodes⟩ := hreached path _ captures (hpath ▸ hdispatch)
        exact habsurd hmissed.1 hquery hdecodes
    -- who refused the request: the framework before the handler, or an extractor
    cases answers_cases hhas hdispatch hanswers with
    | handler => omega
    | refusal => omega
    | body htakes hstatus =>
      left
      apply hbodyErrors htakes
      simp only [List.mem_cons, List.not_mem_nil, or_false] at hstatus ⊢
      omega
    | captures hparams hdecodes =>
      apply hbadRequest
      intro _ _ hdecode
      rw [hpath] at hdecodes
      exact hdecodes (hdecode hparams)
    | extraction hstatus =>
      obtain ⟨extractor, hextractor, hstatus⟩ := List.mem_flatMap.mp hstatus
      rcases extractor.status_cases status hstatus with rfl | rfl | ⟨rfl, hneeds⟩
      · apply hbadRequest
        intro hdeclares hquery _
        have hsilent := (hdescribes.silent hsource hdeclares).1 extractor hextractor
        have hnotQuery := List.any_eq_false.mp hquery extractor hextractor
        have h500 := hsilent.statuses (by simpa using hnotQuery) 400 hstatus
        cases h500
      · omega
      · left
        exact hbodyErrors (List.any_eq_true.mpr ⟨extractor, hextractor, hneeds⟩) 415 (by decide)

end Main

/-! ## Captures that do not decode -/

/-- `%FF` with some letters. -/
def garbled (n : ℕ) : Text := percent :: 0x46 :: 0x46 :: letters (n + 1)

theorem unescape_garbled (n : ℕ) : unescape (garbled n) = .ok (0xFF :: letters (n + 1)) := by
  have hletters : unescape (letters (n + 1)) = .ok (letters (n + 1)) := by
    apply unescape_of_not_mem
    intro hmem
    have := List.eq_of_mem_replicate hmem
    revert this
    decide
  have h46 : hex 0x46 = some 15 := by decide
  rw [garbled, unescape_escape h46 h46, hletters]
  rfl

/-- No character begins with this byte. -/
theorem percentDecode_garbled (n : ℕ) : percentDecode (garbled n) = .error .utf8 := by
  have hinvalid : validUtf8 (0xFF :: letters (n + 1)) = false := by
    rw [validUtf8, decide_eq_false_iff_not]
    intro hvalid
    have hsize : 0 < (0xFF :: letters (n + 1) : Text).toByteArray.size := by
      rw [List.size_toByteArray]
      exact Nat.succ_pos _
    have hfirst := hvalid.isUTF8FirstByte_getElem_zero hsize
    rw [List.getElem_toByteArray] at hfirst
    revert hfirst
    show ¬ (0xFF : UInt8).IsUTF8FirstByte
    decide
  simp only [percentDecode, unescape_garbled]
  show (if validUtf8 (0xFF :: letters (n + 1)) then _ else _) = _
  rw [hinvalid]
  rfl

theorem capturedTexts_filled (filler : Text) (p : Pattern) :
    capturedTexts p (filled filler p) = List.replicate (wilds p) filler := by
  induction p with
  | nil => rfl
  | cons piece p ih =>
    cases piece with
    | literal value =>
      show capturedTexts p (filled filler p) = _
      rw [ih]
      simp [wilds]
    | wild =>
      show filler :: capturedTexts p (filled filler p) = _
      rw [ih]
      simp [wilds, List.replicate_succ]

/-- **A template with captures can be spelled so that they do not decode**: there is a text for
its captures, such that every request path with it selects the route. -/
theorem exists_undecodable {H : Type} {app : App H M} (hc : app.Consistent) {index : ℕ}
    {md : RouteMetadata} (hmd : app.metadata[index]? = some md) (hindex : index ≠ RouteId.none)
    (hstatic : App.isStatic md.segments = false) :
    ∃ filler, Tokens.IsToken slash filler ∧ ∀ path : Text, path.length < 2 ^ 32 →
      segments path = filled filler (patternOf md.segments) →
      ∃ captures, app.freeze.dispatch md.method path = .route index captures ∧
        ¬ Decodes path captures := by
  obtain ⟨n, hfresh⟩ := exists_filler [percent, 0x46, 0x46]
    (app.metadata.map fun md => patternOf md.segments)
  have hvalid : validPercentEncoding (garbled n) = true :=
    (validPercentEncoding_iff _).mpr ⟨_, unescape_garbled n⟩
  refine ⟨garbled n, ⟨List.cons_ne_nil _ _, ?_⟩, fun path hlength hpath => ?_⟩
  · intro hmem
    rcases List.mem_cons.mp hmem with h | hmem
    · revert h
      decide
    rcases List.mem_cons.mp hmem with h | hmem
    · revert h
      decide
    rcases List.mem_cons.mp hmem with h | hmem
    · revert h
      decide
    exact (isToken_letters n).2 hmem
  · have hdispatch := dispatch_dynamic hc hmd hindex hstatic hvalid
      (fun other hother => hfresh _ (List.mem_map_of_mem hother)) hpath
    refine ⟨_, hdispatch, fun hdecodes => ?_⟩
    obtain ⟨values, hvalues⟩ := hdecodes _ rfl
    have hnormalized : (normalizeRequestPath path).length < 2 ^ 32 := by
      have htake := congrArg List.length (take_normalizeRequestPath path)
      rw [List.length_take] at htake
      omega
    have hlimit : wilds (patternOf md.segments) ≤ maxCaptureParams :=
      hc.limit md (List.mem_of_getElem? hmd)
    rw [texts_capturesOf hnormalized hlimit, segments_normalizeRequestPath, hpath,
      capturedTexts_filled] at hvalues
    -- there is a capture
    obtain ⟨k, hk⟩ : ∃ k, wilds (patternOf md.segments) = k + 1 := by
      apply Nat.exists_eq_succ_of_ne_zero
      intro hzero
      rw [isStatic_iff.mpr (List.count_eq_zero.mp hzero)] at hstatic
      cases hstatic
    rw [hk, List.replicate_succ, List.mapM_cons, percentDecode_garbled] at hvalues
    cases hvalues

/-! ## Two applications -/

/-- Extraction in an application without derived types, whose numbers are read with
    `FromStr`. -/
def plainExtraction : Extraction Empty ℤ Unit Unit where
  fromStr type text :=
    match type with
    | .scalar (.int kind) =>
      match kind.parse text with
      | some value => .ok value
      | none => .error "invalid digit found in string"
    | _ => .error "not read"
  finite _ := none
  serde _ := { urlencoded := fun _ => .ok (), fromValue := fun _ => .ok () }
  record _ _ := ()
  fromSlice _ _ := .ok ()
  header _ _ := none
  parseBoundary _ := .error .other
  lossy text := text
  peer := none

/-- `app.get("/notes/{id}", |id: Path<u64>, params: Params| ..)` -/
def typedSignature : Signature Empty :=
  { extractors := [.path (.scalar (.int .u64)), .params], response := .text }

def typedExample : DocProgram Empty (Endpoint Unit Bytes) Unit :=
  .call (.openapi none) (.call (.route .get (str "/notes/{id}") typedSignature echo) .done)

def typedBuilt : AppDoc Empty (Endpoint Unit Bytes) Unit × App (Endpoint Unit Bytes) Unit :=
  returned (typedExample.build noTypes (fun _ => echo) echo) (by decide +kernel)

def typedServer : Server Unit Bytes Unit :=
  { runtime := typedBuilt.2.freeze, state := (), bodyReadTimeout := some 60 }

instance : Inhabited Bytes := ⟨.new⟩

/-- `/notes/%FF` -/
def garbledNote : RequestPath httpLegal :=
  { text := str "/notes/%FF", isRequestPath := by decide +kernel, length_le := by decide +kernel }

def garbledNoteRequest : HttpRequest Bytes :=
  { parts := { method := .get, path := garbledNote.text, query := none, headers := .empty }
    body := .new }

/-- The path schema of the route puts `400`, with which `GET /notes/%FF` is refused, in the
document. -/
theorem errors_documented_typed :
    typedServer.FrameworkAnswers noTypes plainExtraction instant 0 typedSignature
        garbledNoteRequest 400 ∧
      ∃ object, typedBuilt.1.document.operation (str "/notes/{id}") (str "get") = some object ∧
        400 ∈ object.responses := by
  have hbuild : typedExample.build noTypes (fun _ => echo) echo = .ok typedBuilt :=
    eq_returned (by decide +kernel)
  obtain ⟨hrun, hinstall⟩ := DocProgram.build_ok hbuild
  have hlength : 0 < typedBuilt.1.allRoutes.length := by decide +kernel
  have hroute := List.getElem?_eq_getElem hlength
  have hdispatch : typedServer.runtime.dispatch .get garbledNote.text =
      .route 0 (some (CaptureSet.empty.push { start := 7, stop := 10, value := str "%FF" })) := by
    decide +kernel
  have hrefused : typedServer.FrameworkAnswers noTypes plainExtraction instant 0 typedSignature
      garbledNoteRequest 400 := by
    have hdescribes := forall₂_getElem? ((describes_run hrun).2 (AppDoc.install_ok hinstall).1)
      (i := 0) (a := ⟨.get, str "/notes/{id}", .typed typedSignature echo⟩) rfl hroute
    have hhas : typedServer.HasRoute 0 typedSignature echo :=
      hasRoute_of_build hbuild hroute hdescribes rfl rfl
    refine frameworkAnswers_of_refused hhas hdispatch rfl (by decide) fun hdecodes => ?_
    -- the capture does not decode
    obtain ⟨values, hvalues⟩ := hdecodes rfl _ rfl
    have herror : ((CaptureSet.empty.push { start := 7, stop := 10, value := str "%FF" }).texts
        (normalizeRequestPath garbledNote.text)).mapM percentDecode = .error .utf8 := by
      decide +kernel
    cases herror.symm.trans hvalues
  have hdeclares : typedBuilt.1.allRoutes[0].operation.Declares := by
    have hpaths : typedBuilt.1.allRoutes[0]?.map
        (fun route => route.operation.request.pathSchemas.length) = some 1 := by decide +kernel
    refine .inr (.inl fun hnil => ?_)
    rw [hroute, Option.map_some, hnil] at hpaths
    cases hpaths
  exact ⟨hrefused, (errors_documented_iff httpLegal (r := ⟨.get, str "/notes/{id}", .typed typedSignature echo⟩)
    hbuild (by decide +kernel) rfl rfl hroute rfl (by decide)).mpr
      (.inl hdeclares) garbledNote garbledNoteRequest _ 400 rfl hdispatch
      (by decide) (by decide) hrefused⟩

/-- `app.get("/users/{id}", |params: Params| ..)` -/
def untypedSignature : Signature Empty := { extractors := [.params], response := .text }

def untypedExample : DocProgram Empty (Endpoint Unit Bytes) Unit :=
  .call (.openapi none) (.call (.route .get (str "/users/{id}") untypedSignature echo) .done)

def untypedBuilt : AppDoc Empty (Endpoint Unit Bytes) Unit × App (Endpoint Unit Bytes) Unit :=
  returned (untypedExample.build noTypes (fun _ => echo) echo) (by decide +kernel)

def untypedServer : Server Unit Bytes Unit :=
  { runtime := untypedBuilt.2.freeze, state := (), bodyReadTimeout := some 60 }

/-- `GET /users/%FF` -/
def garbledRequest : HttpRequest Bytes :=
  { parts := { method := .get, path := str "/users/%FF", query := none, headers := .empty }
    body := .new }

/-- **The framework refuses `GET /users/%FF` with a status that the document does not list.** -/
theorem not_errors_documented_untyped :
    untypedExample.build noTypes (fun _ => echo) echo = .ok untypedBuilt ∧
      untypedBuilt.1.documentsErrors = true ∧
      (∃ captures, untypedServer.runtime.dispatch .get (str "/users/%FF") = .route 0 captures) ∧
      untypedServer.FrameworkAnswers noTypes plainExtraction instant 0 untypedSignature
        garbledRequest 400 ∧
      (untypedBuilt.1.document.operation (str "/users/{id}") (str "get")).map
        (fun object => decide (400 ∈ object.responses)) = some false := by
  have hbuild : untypedExample.build noTypes (fun _ => echo) echo = .ok untypedBuilt :=
    eq_returned (by decide +kernel)
  obtain ⟨hrun, hinstall⟩ := DocProgram.build_ok hbuild
  have hdispatch : untypedServer.runtime.dispatch .get (str "/users/%FF") =
      .route 0 (some (CaptureSet.empty.push { start := 7, stop := 10, value := str "%FF" })) := by
    decide +kernel
  refine ⟨hbuild, by decide +kernel, ⟨_, hdispatch⟩, ?_, by decide +kernel⟩
  have hlength : 0 < untypedBuilt.1.allRoutes.length := by decide +kernel
  have hroute := List.getElem?_eq_getElem hlength
  have hdescribes := forall₂_getElem? ((describes_run hrun).2 (AppDoc.install_ok hinstall).1)
    (i := 0) (a := ⟨.get, str "/users/{id}", .typed untypedSignature echo⟩) rfl hroute
  have hhas : untypedServer.HasRoute 0 untypedSignature echo :=
    hasRoute_of_build hbuild hroute hdescribes rfl rfl
  refine frameworkAnswers_of_refused hhas hdispatch rfl (by decide) fun hdecodes => ?_
  -- the capture does not decode
  obtain ⟨values, hvalues⟩ := hdecodes rfl _ rfl
  have herror : ((CaptureSet.empty.push { start := 7, stop := 10, value := str "%FF" }).texts
      (normalizeRequestPath (str "/users/%FF"))).mapM percentDecode = .error .utf8 := by
    decide +kernel
  cases herror.symm.trans hvalues

end OasRs
