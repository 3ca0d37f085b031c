import OasRs.Document
import OasRs.AppSpec

/-!
# What a Documented Builder Holds

A program with documentation registers a list of routes, which can be read off the program.
After a run without a dropped route, the routes of the builder are those of the list, in
order, each with a plan and an operation that its handler's signature determines; only the
limits, the request body and the texts of an operation can have been edited since.

## Main results

- `DocProgram.run_eq_foldlM`: a program is the list of its calls
- `DocCall.step_of_run`: what one call does
- `describes_run`: the routes of a builder are those of its program
- `erase_run`: what a run does to routes and layers
-/

namespace OasRs

open Lib Schema

variable {ι H M : Type}

/-! ## Registrations -/

/-- What a route is made of. -/
inductive Source (ι H : Type) where
  | typed (signature : Signature ι) (handler : H)
  | raw (response : ResponseType ι) (handler : H)
  | static (response : H)

/-- A route that a program registers, with its full path. -/
structure Registered (ι H : Type) where
  method : Method
  path : Text
  source : Source ι H

namespace Registered

/-- The template of the route. -/
def template (r : Registered ι H) : Text := normalizePath r.path

/-- The signature, as far as the document is concerned. -/
def signature (r : Registered ι H) : Signature ι :=
  match r.source with
  | .typed signature _ => signature
  | .raw response _ => { extractors := [], response }
  | .static _ => { extractors := [], response := .text }

/-- The names that the route keeps for its captures. -/
def captureNames (r : Registered ι H) (segments : List Segment) : Option (List Text) :=
  if r.signature.extractors.any fun extractor => extractor.needs.params
  then some (App.captureNames segments) else none

/-- The metadata of the route. -/
def metadata (r : Registered ι H) (segments : List Segment) : RouteMetadata where
  builtin := false
  method := r.method
  template := r.template
  segments
  captureNames := r.captureNames segments

/-- The plan of the route, with this body limit. -/
def plan (r : Registered ι H) (segments : List Segment) (bodyLimit : ℕ) : RoutePlan H :=
  match r.source with
  | .typed signature handler =>
    { handler :=
        if signature.extractors.isEmpty then .zero handler
        else if !signature.extractors.any fun extractor => extractor.needs.capture then
          .typedNoParams handler
        else .typed handler
      bodyLimit
      captureMode :=
        if (r.captureNames segments).isSome then .materialized
        else if !App.isStatic segments then .borrowed
        else .none
      bodyMode := if signature.extractors.any fun extractor => extractor.needs.body
        then .buffered else .none }
  | .raw _ handler => { handler := .raw handler, bodyLimit, captureMode := .none, bodyMode := .incoming }
  | .static response =>
    { handler := .static response, bodyLimit, captureMode := .none, bodyMode := .none }

theorem plan_withLimit (r : Registered ι H) (segments : List Segment) (limit limit' : ℕ) :
    { r.plan segments limit with bodyLimit := limit' } = r.plan segments limit' := by
  obtain ⟨method, path, source⟩ := r
  cases source <;> rfl

/-- A route of the builder is the one that was registered. -/
structure Describes [DecidableEq ι] (named : Named ι) (r : Registered ι H) (route : Route H) :
    Prop where
  parsed : parseTemplate r.template = .ok route.md.segments
  metadata : route.md = r.metadata route.md.segments
  plan : route.plan = r.plan route.md.segments route.plan.bodyLimit
  status : route.operation.responseStatus = r.signature.response.statusCode
  pathSchemas : r.signature.pathSchemas named = some route.operation.request.pathSchemas
  pathSchemas_le : route.operation.request.pathSchemas.length ≤ 1
  parameters : r.signature.parameters named = some route.operation.request.parameters
  body : (r.signature.extractors.any fun extractor => extractor.needs.body) = true →
    route.operation.request.requestBody.isSome = true

end Registered

/-- What a call registers. -/
def DocCall.registered (group : Option Text) : DocCall ι H M → Option (Registered ι H)
  | .route method path signature handler =>
    some { method, path := fullPath group path, source := .typed signature handler }
  | .raw method path response handler =>
    some { method, path := fullPath group path, source := .raw response handler }
  | .static path response =>
    some { method := .get, path := fullPath group path, source := .static response }
  | _ => none

/-- The calls of a program, each with the prefix of its group. -/
def DocProgram.calls (group : Option Text) : DocProgram ι H M → List (Option Text × DocCall ι H M)
  | .done => []
  | .call c rest => (group, c) :: rest.calls group
  | .group path body rest => body.calls (some (fullPath group path)) ++ rest.calls group

/-- The routes that calls register. -/
def registeredBy (calls : List (Option Text × DocCall ι H M)) : List (Registered ι H) :=
  calls.filterMap fun call => call.2.registered call.1

/-- The routes that a program registers. -/
def DocProgram.registered (p : DocProgram ι H M) : List (Registered ι H) :=
  registeredBy (p.calls none)

/-! ## What the application keeps -/

/-- A plan up to its body limit. -/
structure RoutePlan.Edit (plan plan' : RoutePlan H) : Prop where
  eq : plan' = { plan with bodyLimit := plan'.bodyLimit }

theorem RoutePlan.Edit.refl (plan : RoutePlan H) : plan.Edit plan := ⟨rfl⟩

theorem RoutePlan.edit_withLimit (plan : RoutePlan H) (limit : ℕ) : plan.Edit (plan.withLimit limit) := by
  constructor
  rw [withLimit]
  split
  · rfl
  · rfl

/-- A call that registers nothing keeps the routes, up to their body limits. -/
theorem Call.plans_run {group : Option Text} {c : Call H M} {app app' : App H M}
    (hc : c.registers group = none) (h : c.run group app = .ok app') :
    app'.metadata = app.metadata ∧ List.Forall₂ RoutePlan.Edit app.plans app'.plans ∧
      app'.routeError = app.routeError ∧ app'.lastRoute = app.lastRoute := by
  have hrefl : List.Forall₂ RoutePlan.Edit app.plans app.plans :=
    List.forall₂_same.mpr fun plan _ => .refl plan
  have hkeeps := Call.keeps_of_run hc h
  refine ⟨hkeeps.metadata, hkeeps.forall₂_plans (fun plan plan' limit hedit => ⟨?_⟩) hrefl,
    hkeeps.routeError, hkeeps.lastRoute⟩
  rw [(plan'.edit_withLimit limit).eq, hedit.eq]

/-- How a registration ends: the route is dropped with an error, or it is added. -/
inductive App.Adds (app : App H M) (md : RouteMetadata) (plan : RoutePlan H) : App H M → Prop where
  | drops (error : BuildError) :
      app.Adds md plan { app with routeError := app.routeError.or (some error) }
  | adds (app' : App H M) (hmetadata : app'.metadata = app.metadata ++ [md])
      (hplans : app'.plans = app.plans ++ [plan]) (herror : app'.routeError = app.routeError)
      (hopenapi : app'.openapiConfig = app.openapiConfig)
      (hlast : app'.lastRoute = some app.plans.length) : app.Adds md plan app'

theorem App.adds_of_pushWithinLimit {app app' : App H M} {md : RouteMetadata} {plan : RoutePlan H}
    (h : app.pushWithinLimit md plan = .ok app') : app.Adds md plan app' := by
  rw [App.pushWithinLimit] at h
  split at h
  · cases h
    exact .drops _
  · simp only [bind_eq_ok, pure_eq_ok] at h
    obtain ⟨pushed, hpush, rfl⟩ := h
    obtain ⟨_, _, rfl, -⟩ := App.push_ok hpush
    exact .adds _ rfl rfl rfl rfl rfl

/-! ## What a call does -/

section Step

variable [DecidableEq ι] {named : Named ι} {group : Option Text} {c : DocCall ι H M}
  {doc doc' : AppDoc ι H M}

/-- An operation up to what calls after the registration change. -/
structure Operation.Edit (operation operation' : Operation) : Prop where
  status : operation'.responseStatus = operation.responseStatus
  schema : operation'.responseSchema = operation.responseSchema
  pathSchemas : operation'.request.pathSchemas = operation.request.pathSchemas
  parameters : operation'.request.parameters = operation.request.parameters
  body : operation'.request.requestBody = operation.request.requestBody ∨
    ∃ fields, operation'.request.requestBody = some (MultipartField.body fields)

theorem Operation.Edit.refl (operation : Operation) : operation.Edit operation :=
  ⟨rfl, rfl, rfl, rfl, .inl rfl⟩

/-- What a call does to the routes. -/
inductive DocCall.Step (named : Named ι) (group : Option Text) (c : DocCall ι H M)
    (doc : AppDoc ι H M) : AppDoc ι H M → Prop where
  /-- a route with too many captures -/
  | drops (error : BuildError) : c.Step named group doc
      { doc with app := { doc.app with routeError := doc.app.routeError.or (some error) } }
  | registers (r : Registered ι H) (app : App H M) (segments : List Segment) (limit : ℕ)
      (schema : Option Json) (request : OpenApiRequest) (schemas₁ schemas₂ : SchemaRegistry ι)
      (hr : c.registered group = some r) (habsolute : r.path.head? = some slash)
      (hparsed : parseTemplate r.template = .ok segments)
      (hmetadata : app.metadata = doc.app.metadata ++ [r.metadata segments])
      (hplans : app.plans = doc.app.plans ++ [r.plan segments limit])
      (herror : app.routeError = doc.app.routeError)
      (hopenapi : app.openapiConfig = doc.app.openapiConfig)
      (hlast : app.lastRoute = some doc.app.plans.length)
      (hresponse : r.signature.response.responseSchema named doc.schemas = some (schema, schemas₁))
      (hrequest : r.signature.openapiRequest named schemas₁ = some (request, schemas₂))
      (hpaths : request.pathSchemas.length ≤ 1) :
      c.Step named group doc
        { app
          operations := doc.operations ++ [.new r.signature.response.statusCode schema request]
          settings := doc.settings
          schemas := schemas₂ }
  | edits (doc' : AppDoc ι H M) (hr : c.registered group = none)
      (hmetadata : doc'.app.metadata = doc.app.metadata)
      (hplans : List.Forall₂ RoutePlan.Edit doc.app.plans doc'.app.plans)
      (herror : doc'.app.routeError = doc.app.routeError)
      (hoperations : List.Forall₂ Operation.Edit doc.operations doc'.operations)
      (hschemas : doc'.schemas = doc.schemas) : c.Step named group doc doc'

omit [DecidableEq ι] in
/-- There is nothing to describe before the first route. -/
theorem AppDoc.describe_of_none (h : doc.app.lastRoute = none) (f : Operation → Operation) :
    doc.describe f = doc := by
  rw [describe, h]

/-- What a call that registers no route does. -/
inductive DocCall.Neutral (group : Option Text) (c : DocCall ι H M) (doc : AppDoc ι H M) :
    AppDoc ι H M → Prop where
  /-- about layers, limits and the Swagger page -/
  | calls (call : Call H M) (app : App H M) (herase : c.erase = some call)
      (hregisters : call.registers group = none) (hrun : call.run group doc.app = .ok app) :
      c.Neutral group doc { doc with app }
  | openapi (option : Option OpenApiOption) (hc : c = .openapi option) :
      c.Neutral group doc { doc with
        app := doc.app.openapi (option.bind OpenApiOption.path?)
        settings := (option.map (OpenApiOption.set doc.settings)).getD doc.settings }
  /-- about the route registered last -/
  | describes (f : Operation → Operation) (herase : c.erase = none)
      (hedit : ∀ operation : Operation, operation.Edit (f operation))
      (hid : ∀ (operation : Operation) (id : Text), (f operation).operationId = some id →
        operation.operationId = some id ∨ ∀ other ∈ doc.operations, other.operationId ≠ some id) :
      c.Neutral group doc (doc.describe f)

theorem DocCall.neutral_of_run (hr : c.registered group = none)
    (h : c.run named group doc = .ok doc') : c.Neutral group doc doc' := by
  cases c with
  | route method path signature handler => cases hr
  | raw method path response handler => cases hr
  | static path response => cases hr
  | layer _ | layerFor _ _ | routeLayer _ | maxBodySize _ | bodyLimit _ | swagger _ =>
    simp only [DocCall.run, DocCall.erase, bind_eq_ok, orHalt_eq_ok, pure_eq_ok] at h
    obtain ⟨app, happ, rfl⟩ := h
    exact .calls _ app rfl rfl happ
  | openapi option =>
    cases h
    exact .openapi option rfl
  | tag _ | summary _ | security _ | isPublic =>
    cases h
    exact .describes _ rfl (fun operation => ⟨rfl, rfl, rfl, rfl, .inl rfl⟩) fun _ _ => .inl
  | operationId id =>
    simp only [DocCall.run, bind_eq_ok, require_eq_ok, pure_eq_ok, List.all_eq_true,
      bne_iff_ne] at h
    obtain ⟨_, hfresh, rfl⟩ := h
    refine .describes _ rfl (fun operation => ⟨rfl, rfl, rfl, rfl, .inl rfl⟩) ?_
    intro operation id' hid
    cases hid
    exact .inr hfresh
  | problemResponses statuses =>
    simp only [DocCall.run, bind_eq_ok, pure_eq_ok] at h
    obtain ⟨_, -, rfl⟩ := h
    exact .describes _ rfl (fun operation => ⟨rfl, rfl, rfl, rfl, .inl rfl⟩) fun _ _ => .inl
  | multipartFields fields =>
    simp only [DocCall.run] at h
    -- before the first route it is ignored
    split at h
    · rename_i hlast
      cases h
      have hnothing : Neutral group (.multipartFields fields) doc (doc.describe id) :=
        .describes id rfl Operation.Edit.refl fun _ _ => .inl
      rw [AppDoc.describe_of_none hlast] at hnothing
      exact hnothing
    · simp only [bind_eq_ok, pure_eq_ok] at h
      obtain ⟨_, -, rfl⟩ := h
      refine .describes _ rfl ?_ fun _ _ => .inl
      exact fun operation => ⟨rfl, rfl, rfl, rfl, .inr ⟨fields, rfl⟩⟩

/-- A registration runs the call without its documentation, and records the operation. -/
theorem DocCall.record_of_run {r : Registered ι H} (hr : c.registered group = some r)
    (h : c.run named group doc = .ok doc') :
    ∃ call app, c.erase = some call ∧ call.run group doc.app = .ok app ∧
      doc.record named app r.signature.response (r.signature.openapiRequest named) = .ok doc' := by
  cases c with
  | route _ _ _ _ | raw _ _ _ _ | static _ _ =>
    cases hr
    simp only [DocCall.run, bind_eq_ok, orHalt_eq_ok] at h
    obtain ⟨app, happ, hrecord⟩ := h
    exact ⟨_, app, rfl, happ, hrecord⟩
  | layer _ | layerFor _ _ | routeLayer _ | maxBodySize _ | bodyLimit _ | swagger _ | openapi _
  | tag _ | summary _ | security _ | isPublic | operationId _ | problemResponses _
  | multipartFields _ => cases hr

/-- The end of a registration. -/
theorem DocCall.step_of_record (r : Registered ι H) (segments : List Segment) (limit : ℕ)
    {app : App H M} (hr : c.registered group = some r) (habsolute : r.path.head? = some slash)
    (hparsed : parseTemplate r.template = .ok segments)
    (happ : doc.app.Adds (r.metadata segments) (r.plan segments limit) app)
    (h : doc.record named app r.signature.response (r.signature.openapiRequest named) = .ok doc') :
    c.Step named group doc doc' := by
  rw [AppDoc.record] at h
  cases happ with
  | drops error =>
    rw [if_pos rfl] at h
    cases h
    exact .drops error
  | adds app hmetadata hplans herror hopenapi hlast =>
    rw [if_neg (by simp [hmetadata])] at h
    simp only [bind_eq_ok, generate_eq_ok, require_eq_ok, pure_eq_ok, decide_eq_true_eq] at h
    obtain ⟨⟨schema, schemas₁⟩, hresponse, ⟨request, schemas₂⟩, hrequest, _, hpaths, rfl⟩ := h
    exact .registers r app segments limit schema request schemas₁ schemas₂ hr habsolute hparsed
      hmetadata hplans herror hopenapi hlast hresponse hrequest hpaths

/-- A call that only describes the route registered last. -/
theorem DocCall.step_of_describe {f : Operation → Operation} (hr : c.registered group = none)
    (hf : ∀ operation : Operation, operation.Edit (f operation)) : c.Step named group doc (doc.describe f) := by
  have hplans : List.Forall₂ RoutePlan.Edit doc.app.plans doc.app.plans :=
    List.forall₂_same.mpr fun plan _ => .refl plan
  have hsame : List.Forall₂ Operation.Edit doc.operations doc.operations :=
    List.forall₂_same.mpr fun operation _ => .refl operation
  rw [AppDoc.describe]
  split
  · refine .edits _ hr rfl hplans rfl ?_ rfl
    refine forall₂_modify (fun operation operation' hedit => ?_) hsame _
    obtain ⟨hstatus, hschema, hpaths, hparameters, hbody⟩ := hedit
    obtain ⟨hstatus', hschema', hpaths', hparameters', hbody'⟩ := hf operation'
    refine ⟨hstatus'.trans hstatus, hschema'.trans hschema, hpaths'.trans hpaths,
      hparameters'.trans hparameters, ?_⟩
    rcases hbody' with hbody' | hbody'
    · rw [hbody']
      exact hbody
    · exact .inr hbody'
  · exact .edits _ hr rfl hplans rfl hsame rfl

theorem DocCall.Neutral.step (hr : c.registered group = none) (h : c.Neutral group doc doc') :
    c.Step named group doc doc' := by
  have hsame : List.Forall₂ Operation.Edit doc.operations doc.operations :=
    List.forall₂_same.mpr fun operation _ => .refl operation
  cases h with
  | calls call app herase hregisters hrun =>
    obtain ⟨hmetadata, hplans, herror, -⟩ := Call.plans_run hregisters hrun
    exact .edits _ hr hmetadata hplans herror hsame rfl
  | openapi option hc =>
    exact .edits _ hr rfl (List.forall₂_same.mpr fun plan _ => .refl plan) rfl hsame rfl
  | describes f herase hedit => exact step_of_describe hr hedit

/-- **What one call does**: it registers a route, drops one, or edits what is there. -/
theorem DocCall.step_of_run (h : c.run named group doc = .ok doc') : c.Step named group doc doc' := by
  cases hr : c.registered group with
  | none => exact (neutral_of_run hr h).step hr
  | some r =>
    obtain ⟨call, app, herase, happ, hrecord⟩ := record_of_run hr h
    -- each registration parses its template and pushes a plan of its own kind
    cases c with
    | route method path signature handler =>
      cases hr
      cases herase
      simp only [Call.run, App.addRoute, bind_eq_ok, check_eq_ok, beq_iff_eq] at happ
      obtain ⟨_, habsolute, _, -, segments, hparsed, hpush⟩ := happ
      refine step_of_record ⟨method, fullPath group path, .typed signature handler⟩ segments
        (if signature.extractors.any fun extractor => extractor.needs.body then doc.app.maxBodySize
          else 0) rfl habsolute hparsed ?_ hrecord
      have hadds := App.adds_of_pushWithinLimit hpush
      simp only [Signature.handler, Handler.of, List.any_map, List.isEmpty_map, Function.comp_def]
        at hadds
      exact hadds
    | raw method path response handler =>
      cases hr
      cases herase
      simp only [Call.run, App.addRawRoute, bind_eq_ok, check_eq_ok, beq_iff_eq] at happ
      obtain ⟨_, habsolute, _, -, segments, hparsed, hpush⟩ := happ
      exact step_of_record ⟨method, fullPath group path, .raw response handler⟩ segments 0 rfl
        habsolute hparsed (App.adds_of_pushWithinLimit hpush) hrecord
    | static path response =>
      cases hr
      cases herase
      simp only [Call.run, App.addStaticRoute, bind_eq_ok, check_eq_ok, pure_eq_ok, beq_iff_eq]
        at happ
      obtain ⟨_, habsolute, segments, hparsed, _, -, _, -, pushed, hpush, rfl⟩ := happ
      refine step_of_record ⟨.get, fullPath group path, .static response⟩ segments 0 rfl habsolute
        hparsed ?_ hrecord
      obtain ⟨_, _, rfl, -⟩ := App.push_ok hpush
      exact .adds _ rfl rfl rfl rfl rfl
    | layer _ | layerFor _ _ | routeLayer _ | maxBodySize _ | bodyLimit _ | swagger _ | openapi _
    | tag _ | summary _ | security _ | isPublic | operationId _ | problemResponses _
    | multipartFields _ => cases hr

end Step

/-! ## Programs -/

section Run

variable [DecidableEq ι] {named : Named ι}

/-- A program is the list of its calls. -/
theorem DocProgram.run_eq_foldlM (p : DocProgram ι H M) (group : Option Text) (doc : AppDoc ι H M) :
    p.run named group doc =
      (p.calls group).foldlM (fun doc call => call.2.run named call.1 doc) doc := by
  induction p generalizing group doc with
  | done => rfl
  | call c rest ih =>
    simp only [run, calls, List.foldlM_cons, ih]
  | group path body rest ihbody ihrest =>
    simp only [run, calls, List.foldlM_append, ihbody, ihrest]

/-- What every call keeps, a program keeps. -/
theorem DocProgram.run_induction {motive : List (Registered ι H) → AppDoc ι H M → Prop}
    (new : motive [] .new)
    (call : ∀ group (c : DocCall ι H M) doc doc' registered, motive registered doc →
      c.run named group doc = .ok doc' →
      motive (registered ++ (c.registered group).toList) doc')
    {p : DocProgram ι H M} {doc : AppDoc ι H M} (h : p.run named none .new = .ok doc) :
    motive p.registered doc := by
  have key : ∀ (calls : List (Option Text × DocCall ι H M)) (registered : List (Registered ι H))
      (doc doc' : AppDoc ι H M), motive registered doc →
      calls.foldlM (fun doc call => call.2.run named call.1 doc) doc = .ok doc' →
      motive (registered ++ registeredBy calls) doc' := by
    intro calls
    induction calls with
    | nil =>
      intro registered doc doc' hdoc h
      cases h
      simpa [registeredBy] using hdoc
    | cons c calls ih =>
      intro registered doc doc' hdoc h
      simp only [List.foldlM_cons, bind_eq_ok] at h
      obtain ⟨doc₁, hc, h⟩ := h
      have hrest := ih _ _ _ (call _ _ _ _ _ hdoc hc) h
      have hcons : registeredBy (c :: calls) =
          (c.2.registered c.1).toList ++ registeredBy calls := by
        rw [registeredBy, List.filterMap_cons]
        cases c.2.registered c.1 <;> rfl
      rw [hcons, ← List.append_assoc]
      exact hrest
  rw [run_eq_foldlM] at h
  exact key _ [] .new doc new h

/-! ### Routes and layers -/

omit [DecidableEq ι] in
theorem AppDoc.describe_app (doc : AppDoc ι H M) (f : Operation → Operation) :
    (doc.describe f).app = doc.app := by
  rw [describe]
  split
  · rfl
  · rfl

omit [DecidableEq ι] in
theorem AppDoc.record_app {doc doc' : AppDoc ι H M} {app : App H M} {response : ResponseType ι}
    {request : Gen ι OpenApiRequest} (h : doc.record named app response request = .ok doc') :
    doc'.app = app := by
  rw [record] at h
  split at h
  · cases h
    rfl
  · simp only [bind_eq_ok, pure_eq_ok] at h
    obtain ⟨_, -, _, -, _, -, rfl⟩ := h
    rfl

/-- What a call does to routes and layers. -/
theorem DocCall.erase_run {group : Option Text} {c : DocCall ι H M} {doc doc' : AppDoc ι H M}
    (h : c.run named group doc = .ok doc') :
    match c.erase with
    | some call => call.run group doc.app = .ok doc'.app
    | none => doc'.app = doc.app := by
  cases hr : c.registered group with
  | some r =>
    obtain ⟨call, app, herase, happ, hrecord⟩ := record_of_run hr h
    simp only [herase]
    rw [AppDoc.record_app hrecord]
    exact happ
  | none =>
    cases neutral_of_run hr h with
    | calls call app herase hregisters hrun =>
      simp only [herase]
      exact hrun
    | openapi option hc =>
      subst hc
      rfl
    | describes f herase =>
      simp only [herase]
      exact AppDoc.describe_app doc f

/-- What a program does to routes and layers. -/
theorem DocProgram.erase_run {p : DocProgram ι H M} {group : Option Text} {doc doc' : AppDoc ι H M}
    (h : p.run named group doc = .ok doc') : p.erase.run group doc.app = .ok doc'.app := by
  induction p generalizing group doc doc' with
  | done =>
    cases h
    rfl
  | call c rest ih =>
    simp only [DocProgram.run, bind_eq_ok] at h
    obtain ⟨doc₁, hcall, hrest⟩ := h
    have hcall := DocCall.erase_run hcall
    have hrest := ih hrest
    rw [erase]
    cases herase : c.erase with
    | some call =>
      simp only [herase] at hcall
      simp only [Program.run, hcall]
      exact hrest
    | none =>
      simp only [herase] at hcall
      rw [hcall] at hrest
      exact hrest
  | group path body rest ihbody ihrest =>
    simp only [DocProgram.run, bind_eq_ok] at h
    obtain ⟨doc₁, hbody, hrest⟩ := h
    simp only [erase, Program.run, ihbody hbody]
    exact ihrest hrest

/-- The tables of a documented builder are consistent. -/
theorem DocProgram.consistent {p : DocProgram ι H M} {doc : AppDoc ι H M}
    (h : p.run named none .new = .ok doc) : doc.app.Consistent :=
  Program.consistent App.consistent_new (DocProgram.erase_run h)

/-! ### Routes and registrations -/

/-- A relation that survives edits relates what was edited. -/
theorem forall₂_edit {α β : Type} {R : α → β → Prop} {E : β → β → Prop}
    (hedit : ∀ a b b', R a b → E b b' → R a b') {as : List α} {bs bs' : List β}
    (h : List.Forall₂ R as bs) (he : List.Forall₂ E bs bs') : List.Forall₂ R as bs' := by
  induction h generalizing bs' with
  | nil =>
    cases he
    exact .nil
  | cons hab _ ih =>
    cases he with
    | cons he hes => exact .cons (hedit _ _ _ hab he) (ih hes)

theorem forall₂_zip {α β : Type} {R : α → α → Prop} {S : β → β → Prop} {as as' : List α}
    {bs bs' : List β} (hr : List.Forall₂ R as as') (hs : List.Forall₂ S bs bs') :
    List.Forall₂ (fun p q => R p.1 q.1 ∧ S p.2 q.2) (as.zip bs) (as'.zip bs') := by
  induction hr generalizing bs bs' with
  | nil => exact .nil
  | cons hr _ ih =>
    cases hs with
    | nil => exact .nil
    | cons hs hss => exact .cons ⟨hr, hs⟩ (ih hss)

/-- A route up to the edits of later calls. -/
structure Route.Edit (route route' : Route H) : Prop where
  md : route'.md = route.md
  operation : route.operation.Edit route'.operation
  plan : route.plan.Edit route'.plan

theorem Registered.Describes.edit {r : Registered ι H} {route route' : Route H}
    (h : r.Describes named route) (hedit : route.Edit route') : r.Describes named route' := by
  obtain ⟨hmd, hoperation, hplan⟩ := hedit
  refine
    { parsed := hmd ▸ h.parsed
      metadata := hmd ▸ h.metadata
      plan := ?_
      status := hoperation.status.trans h.status
      pathSchemas := by rw [hoperation.pathSchemas, h.pathSchemas]
      pathSchemas_le := by rw [hoperation.pathSchemas]; exact h.pathSchemas_le
      parameters := by rw [hoperation.parameters, h.parameters]
      body := fun hneeds => ?_ }
  · calc route'.plan = { route.plan with bodyLimit := route'.plan.bodyLimit } := hplan.eq
      _ = r.plan route.md.segments route'.plan.bodyLimit := by rw [h.plan, Registered.plan_withLimit]
      _ = r.plan route'.md.segments route'.plan.bodyLimit := by rw [hmd]
  · rcases hoperation.body with hbody | ⟨fields, hbody⟩
    · rw [hbody]
      exact h.body hneeds
    · rw [hbody]
      rfl

/-- As many operations as routes, and as many plans. -/
structure AppDoc.Aligned (doc : AppDoc ι H M) : Prop where
  operations : doc.operations.length = doc.app.metadata.length
  plans : doc.app.plans.length = doc.app.metadata.length

omit [DecidableEq ι] in
theorem AppDoc.Aligned.allRoutes_append {doc : AppDoc ι H M} (h : doc.Aligned) {app : App H M}
    {md : RouteMetadata} {plan : RoutePlan H} {operation : Operation} {settings : Settings}
    {schemas : SchemaRegistry ι} (hmetadata : app.metadata = doc.app.metadata ++ [md])
    (hplans : app.plans = doc.app.plans ++ [plan]) :
    allRoutes { app, operations := doc.operations ++ [operation], settings, schemas } =
      doc.allRoutes ++ [Route.mk md operation plan] := by
  have hlength : doc.app.metadata.length = (doc.operations.zip doc.app.plans).length := by
    simp [h.operations, h.plans]
  have hlength' : doc.operations.length = doc.app.plans.length := h.operations.trans h.plans.symm
  simp only [allRoutes, hmetadata, hplans]
  rw [List.zip_append hlength', List.zip_append hlength, List.map_append]
  rfl

/-- **The routes of a builder are those that its program registers**, unless one was dropped. -/
theorem describes_run {p : DocProgram ι H M} {doc : AppDoc ι H M}
    (h : p.run named none .new = .ok doc) : doc.Aligned ∧ (doc.app.routeError = none →
      List.Forall₂ (Registered.Describes named) p.registered doc.allRoutes) := by
  refine DocProgram.run_induction (motive := fun registered doc => doc.Aligned ∧
    (doc.app.routeError = none → List.Forall₂ (Registered.Describes named) registered doc.allRoutes))
    ⟨⟨rfl, rfl⟩, fun _ => .nil⟩ ?_ h
  intro group c doc doc' registered ih hrun
  obtain ⟨haligned, hroutes⟩ := ih
  cases DocCall.step_of_run hrun with
  | drops error =>
    -- a dropped route leaves an error behind
    refine ⟨⟨haligned.operations, haligned.plans⟩, fun hnone => ?_⟩
    simp at hnone
  | registers r app segments limit schema request schemas₁ schemas₂ hr habsolute hparsed hmetadata
      hplans herror hopenapi hlast hresponse hrequest hpaths =>
    refine ⟨⟨?_, ?_⟩, fun hnone => ?_⟩
    · simp [hmetadata, haligned.operations]
    · simp [hmetadata, hplans, haligned.plans]
    rw [hr, Option.toList_some, haligned.allRoutes_append hmetadata hplans]
    -- the new route is described by its registration, the others as before
    obtain ⟨hpathSchemas, hparameters, hbody⟩ := Signature.openapiRequest_spec hrequest
    refine List.rel_append (hroutes (herror ▸ hnone)) (.cons ?_ .nil)
    exact
      { parsed := hparsed
        metadata := rfl
        plan := r.plan_withLimit segments limit _
        status := rfl
        pathSchemas := hpathSchemas
        pathSchemas_le := hpaths
        parameters := hparameters
        body := fun hneeds => hbody.trans hneeds }
  | edits _ hr hmetadata hplans herror hoperations hschemas =>
    refine ⟨⟨?_, ?_⟩, fun hnone => ?_⟩
    · rw [hmetadata, ← hoperations.length_eq, haligned.operations]
    · rw [hmetadata, ← hplans.length_eq, haligned.plans]
    rw [hr, Option.toList_none, List.append_nil]
    -- an edit keeps what a registration determines
    refine forall₂_edit (fun r route route' h hedit => h.edit hedit) (hroutes (herror ▸ hnone)) ?_
    have hsame : List.Forall₂ (fun md md' : RouteMetadata => md' = md) doc.app.metadata
        doc.app.metadata := List.forall₂_same.mpr fun _ _ => rfl
    rw [AppDoc.allRoutes, AppDoc.allRoutes, hmetadata, List.forall₂_map_left_iff,
      List.forall₂_map_right_iff]
    exact (forall₂_zip hsame (forall₂_zip hoperations hplans)).imp
      fun route route' h => ⟨h.1, h.2.1, h.2.2⟩

end Run

end OasRs
