import OasRs.DocumentSpec
import OasRs.Lib.Failing

/-!
# The Cached Pages

`App` keeps the text of the document and the Swagger page once they are prepared
(`src/app.rs`), and every method that changes what they show has to forget them by itself
(`src/app.rs`, `src/multipart.rs`, `src/openapi/config.rs`). Serializing the document and
quoting a string are parameters.

## Overview

- `CachedApp`, `CachedApp.call`: what each call forgets
- `CachedApp.Step`, `CachedApp.run`: calls, `with_state` and `oneshot` in any order
- `document_congr`: what the document depends on
- `caches_fresh`: a page that is kept is the page of the present state
-/

namespace OasRs

open Lib Schema

variable {ι H M : Type}

/-! ## The builder with its caches -/

/-- `App`, with what it has prepared. -/
structure CachedApp (ι H M : Type) where
  doc : AppDoc ι H M
  openapiBytes : Option Text
  swaggerBytes : Option Text

/-- What serializes the pages: `serde_json` for the document, and for a string. -/
structure Serializer where
  document : Document → Text
  string : Text → Text

/-- `swagger_html` -/
def swaggerHtml (serializer : Serializer) (openapiPath : Option Text) : Text :=
  str "<!doctype html><html><head><title>Swagger UI</title><link rel=\"stylesheet\" " ++
    str "href=\"https://unpkg.com/swagger-ui-dist@5.17.14/swagger-ui.css\" " ++
    str "integrity=\"sha384-wxLW6kwyHktdDGr6Pv1zgm/VGJh99lfUbzSn6HNHBENZlCN7W602k9VkGdxuFvPn\" " ++
    str "crossorigin=\"anonymous\"></head><body><div id=\"swagger-ui\">Loading Swagger UI…</div>" ++
    str "<script src=\"https://unpkg.com/swagger-ui-dist@5.17.14/swagger-ui-bundle.js\" " ++
    str "integrity=\"sha384-wmyclcVGX/WhUkdkATwhaK1X1JtiNrr2EoYJ+diV3vj4v6OC5yCeSu+yW13SYJep\" " ++
    str "crossorigin=\"anonymous\"></script>" ++
    str "<script>window.onload=()=>window.ui=SwaggerUIBundle(\x7burl:" ++
    serializer.string (openapiPath.getD (str "/openapi.json")) ++
    str ",dom_id:'#swagger-ui'\x7d);</script></body></html>"

namespace CachedApp

/-- `invalidate_openapi_cache` -/
def invalidateOpenapiCache (app : CachedApp ι H M) : CachedApp ι H M :=
  { app with openapiBytes := none, swaggerBytes := none }

section Prepare

variable (serializer : Serializer)

/-- `prepare_openapi` -/
def prepareOpenapi (app : CachedApp ι H M) : CachedApp ι H M :=
  if app.doc.app.openapiConfig.isSome && app.openapiBytes.isNone then
    { app with openapiBytes := some (serializer.document app.doc.document) }
  else app

/-- `prepare_swagger` -/
def prepareSwagger (app : CachedApp ι H M) : CachedApp ι H M :=
  if app.doc.app.swaggerConfig.isSome && app.swaggerBytes.isNone then
    { app with swaggerBytes := some (swaggerHtml serializer app.doc.app.openapiConfig) }
  else app

/-- What `build` and `oneshot` begin with. -/
def prepare (app : CachedApp ι H M) : CachedApp ι H M :=
  (app.prepareOpenapi serializer).prepareSwagger serializer

end Prepare

variable [DecidableEq ι]

/-- `App::new` -/
def new : CachedApp ι H M := { doc := .new, openapiBytes := none, swaggerBytes := none }

/-- What a call forgets, once it has changed the application to `doc`. -/
def forget (app : CachedApp ι H M) (doc : AppDoc ι H M) : DocCall ι H M → CachedApp ι H M
  | .route .. | .raw .. =>
    -- a route with too many captures is dropped before the cache is touched
    if doc.app.metadata.length = app.doc.app.metadata.length then { app with doc }
    else { app with doc, openapiBytes := none }
  | .static .. => { app with doc, openapiBytes := none }
  | .openapi _ => invalidateOpenapiCache { app with doc }
  | .swagger _ => { app with doc, swaggerBytes := none }
  | .tag _ | .summary _ | .operationId _ | .security _ | .isPublic | .problemResponses _
  | .multipartFields _ =>
    if app.doc.app.lastRoute.isSome then invalidateOpenapiCache { app with doc }
    else { app with doc }
  | .layer _ | .layerFor .. | .routeLayer _ | .maxBodySize _ | .bodyLimit _ => { app with doc }

/-- A call on the application, or on the group with the given prefix. -/
def call (named : Named ι) (group : Option Text) (c : DocCall ι H M) (app : CachedApp ι H M) :
    Option (CachedApp ι H M) :=
  (c.run named group app.doc).toOption.map fun doc => app.forget doc c

/-- `with_state`. Without plans no handler depends on the state, so it is left out. -/
def withState (app : CachedApp ι H M) : Option (CachedApp ι H M) :=
  if app.doc.app.plans.isEmpty then
    some { app with doc := { app.doc with
      app := { app.doc.app with
        plans := []
        metadata := []
        staticRoutes := ∅
        dynamicRoutes := .empty
        lastRoute := none }
      operations := []
      schemas := .document } }
  else none

/-- What can be done with an application. A step that panics leaves nothing. -/
inductive Step (ι H M : Type) where
  /-- a call, on the group with the given prefix or outside of any -/
  | call (group : Option Text) (c : DocCall ι H M)
  | withState
  | oneshot

/-- One step. Of `oneshot` only the preparation changes the application. -/
def step (named : Named ι) (serializer : Serializer) (app : CachedApp ι H M) :
    Step ι H M → Option (CachedApp ι H M)
  | .call group c => app.call named group c
  | .withState => app.withState
  | .oneshot => some (app.prepare serializer)

/-- Steps from a new application. -/
def run (named : Named ι) (serializer : Serializer) (steps : List (Step ι H M)) :
    Option (CachedApp ι H M) :=
  steps.foldlM (fun app s => app.step named serializer s) new

end CachedApp

/-! ## What the document depends on -/

/-- A route as the document shows it. -/
structure Route.Shown (route route' : Route H) : Prop where
  md : route'.md = route.md
  operation : route'.operation = route.operation
  bodyMode : route'.plan.bodyMode = route.plan.bodyMode

theorem RoutePlan.Edit.bodyMode {plan plan' : RoutePlan H} (h : plan.Edit plan') :
    plan'.bodyMode = plan.bodyMode := by
  rw [h.eq]

section Congr

variable {doc doc' : AppDoc ι H M}

/-- The routes, up to the limits of their plans. -/
theorem AppDoc.shown_routes (hmetadata : doc'.app.metadata = doc.app.metadata)
    (hplans : List.Forall₂ RoutePlan.Edit doc.app.plans doc'.app.plans)
    (hoperations : doc'.operations = doc.operations) :
    List.Forall₂ Route.Shown doc.routes doc'.routes := by
  have hall : List.Forall₂ Route.Shown doc.allRoutes doc'.allRoutes := by
    rw [allRoutes, allRoutes, hmetadata, hoperations]
    -- along the plans, beside the metadata and the operations
    generalize doc.app.metadata = metadata
    generalize doc.operations = operations
    generalize doc.app.plans = plans, doc'.app.plans = plans' at hplans
    induction hplans generalizing metadata operations with
    | nil => simp
    | cons hplan _ ih =>
      cases metadata with
      | nil => exact .nil
      | cons md metadata =>
        cases operations with
        | nil => exact .nil
        | cons operation operations =>
          exact .cons ⟨rfl, rfl, hplan.bodyMode⟩ (ih metadata operations)
  rw [routes, routes]
  apply List.rel_filter _ hall
  intro route route' h
  show (!route.md.builtin) = true ↔ (!route'.md.builtin) = true
  rw [h.md]

/-- What the settings tell about routes. -/
theorem AppDoc.errors_congr (hconfig : doc'.config = doc.config) {route route' : Route H}
    (h : route.Shown route') : doc'.errors route' = doc.errors route := by
  rw [errors, errors, documentsErrors, documentsErrors, defaultSecured, defaultSecured, hconfig,
    h.operation, h.bodyMode]

theorem AppDoc.operationObject_congr (hconfig : doc'.config = doc.config) {route route' : Route H}
    (h : route.Shown route') : doc'.operationObject route' = doc.operationObject route := by
  simp only [operationObject, responses, errors_congr hconfig h, h.md, h.operation]

theorem AppDoc.insertPath_congr (hconfig : doc'.config = doc.config) {route route' : Route H}
    (h : route.Shown route') (paths : Table Text (Table Text OperationObject)) :
    doc'.insertPath paths route' = doc.insertPath paths route := by
  rw [insertPath, insertPath, operationObject_congr hconfig h, h.md]

/-- **What the document depends on**: the settings, the routes up to their limits, and the
    schemas. -/
theorem AppDoc.document_congr (hconfig : doc'.config = doc.config)
    (hroutes : List.Forall₂ Route.Shown doc.routes doc'.routes)
    (hschemas : doc'.schemas.definitions = doc.schemas.definitions) :
    doc'.document = doc.document := by
  rw [document, document, hconfig, hschemas]
  generalize doc.routes = routes, doc'.routes = routes' at hroutes
  have hpaths : ∀ paths, routes'.foldl doc'.insertPath paths = routes.foldl doc.insertPath paths := by
    induction hroutes with
    | nil => exact fun _ => rfl
    | cons h _ ih =>
      intro paths
      rw [List.foldl_cons, List.foldl_cons, insertPath_congr hconfig h, ih]
  have hany : (routes'.any fun route => !(doc'.errors route).isEmpty) =
      routes.any fun route => !(doc.errors route).isEmpty := by
    clear hpaths
    induction hroutes with
    | nil => rfl
    | cons h _ ih => rw [List.any_cons, List.any_cons, errors_congr hconfig h, ih]
  rw [hpaths, hany]

end Congr

/-! ## What a call leaves as it was -/

section Calls

variable {group : Option Text} {app app' : App H M}

theorem App.Adds.openapiConfig {md : RouteMetadata} {plan : RoutePlan H}
    (h : app.Adds md plan app') : app'.openapiConfig = app.openapiConfig := by
  cases h with
  | drops error => rfl
  | adds _ _ _ _ hopenapi => exact hopenapi

/-- Only `openapi` changes where the document is served. -/
theorem Call.openapiConfig_run {c : Call H M} (hc : ∀ path, c ≠ .openapi path)
    (h : c.run group app = .ok app') : app'.openapiConfig = app.openapiConfig := by
  cases hregisters : c.registers group with
  | none => exact (Call.keeps_of_run hregisters h).openapiConfig hc
  | some _ =>
    cases c with
    | route method path handler =>
      simp only [Call.run, App.addRoute, bind_eq_ok] at h
      obtain ⟨_, -, _, -, _, -, hpush⟩ := h
      exact (App.adds_of_pushWithinLimit hpush).openapiConfig
    | raw method path handler =>
      simp only [Call.run, App.addRawRoute, bind_eq_ok] at h
      obtain ⟨_, -, _, -, _, -, hpush⟩ := h
      exact (App.adds_of_pushWithinLimit hpush).openapiConfig
    | static path response =>
      simp only [Call.run, App.addStaticRoute, bind_eq_ok, pure_eq_ok] at h
      obtain ⟨_, -, _, -, _, -, _, -, pushed, hpush, rfl⟩ := h
      obtain ⟨_, _, rfl, -⟩ := App.push_ok hpush
      rfl
    | layer _ | layerFor _ _ | routeLayer _ | maxBodySize _ | bodyLimit _ | openapi _ | swagger _ =>
      cases hregisters

variable {c : DocCall ι H M} {doc doc' : AppDoc ι H M}

/-- A call about layers, limits or the Swagger page keeps the document. -/
theorem AppDoc.document_of_call {call : Call H M} (hregisters : call.registers group = none)
    (hopenapi : ∀ path, call ≠ .openapi path) (h : call.run group doc.app = .ok app') :
    document { doc with app := app' } = doc.document := by
  obtain ⟨hmetadata, hplans, -, -⟩ := Call.plans_run hregisters h
  have hconfig := Call.openapiConfig_run hopenapi h
  refine document_congr ?_ (shown_routes hmetadata hplans rfl) rfl
  rw [config, config, hconfig]

variable [DecidableEq ι] {named : Named ι}

theorem DocCall.openapiConfig_run (hc : ∀ option, c ≠ .openapi option)
    (h : c.run named group doc = .ok doc') :
    doc'.app.openapiConfig = doc.app.openapiConfig := by
  have herased := DocCall.erase_run h
  cases herase : c.erase with
  | none =>
    simp only [herase] at herased
    rw [herased]
  | some call =>
    simp only [herase] at herased
    refine Call.openapiConfig_run (fun path hpath => ?_) herased
    subst hpath
    cases c with
    | openapi option => exact hc option rfl
    | _ => cases herase

/-- A registration that adds no metadata keeps the document. -/
theorem DocCall.document_of_dropped {r : Registered ι H} (hr : c.registered group = some r)
    (h : c.run named group doc = .ok doc')
    (hlength : doc'.app.metadata.length = doc.app.metadata.length) :
    doc'.document = doc.document := by
  cases DocCall.step_of_run h with
  | drops error => rfl
  | registers r' app segments limit schema request schemas₁ schemas₂ _ _ _ hmetadata =>
    simp [hmetadata] at hlength
  | edits _ hnone => simp [hnone] at hr

end Calls

/-! ## Freshness -/

namespace CachedApp

variable {serializer : Serializer} {app app' : CachedApp ι H M}

/-- The pages that are kept are those of the present state. -/
structure Fresh (serializer : Serializer) (app : CachedApp ι H M) : Prop where
  openapi : ∀ bytes, app.openapiBytes = some bytes →
    bytes = serializer.document app.doc.document
  swagger : ∀ page, app.swaggerBytes = some page →
    page = swaggerHtml serializer app.doc.app.openapiConfig

/-- No schema is registered before the first route. -/
def Blank (app : CachedApp ι H M) : Prop :=
  app.doc.app.plans = [] → app.doc.schemas.definitions = ∅

/-- Without caches nothing is stale. -/
theorem fresh_invalidate (app : CachedApp ι H M) : app.invalidateOpenapiCache.Fresh serializer where
  openapi _ h := by cases h
  swagger _ h := by cases h

theorem Fresh.prepareOpenapi (h : app.Fresh serializer) :
    (app.prepareOpenapi serializer).Fresh serializer := by
  rw [CachedApp.prepareOpenapi]
  split
  · exact { openapi := fun bytes hbytes => (Option.some.inj hbytes).symm, swagger := h.swagger }
  · exact h

theorem Fresh.prepareSwagger (h : app.Fresh serializer) :
    (app.prepareSwagger serializer).Fresh serializer := by
  rw [CachedApp.prepareSwagger]
  split
  · exact { openapi := h.openapi, swagger := fun page hpage => (Option.some.inj hpage).symm }
  · exact h

/-- A change that shows neither in the document nor in the Swagger page. -/
theorem Fresh.unchanged (h : app.Fresh serializer) {doc : AppDoc ι H M}
    (hdocument : doc.document = app.doc.document)
    (hconfig : doc.app.openapiConfig = app.doc.app.openapiConfig) :
    Fresh serializer { app with doc } where
  openapi bytes hbytes := by rw [hdocument]; exact h.openapi bytes hbytes
  swagger page hpage := by rw [hconfig]; exact h.swagger page hpage

/-- A change that does not show in the Swagger page, and the document is forgotten. -/
theorem Fresh.forgetDocument (h : app.Fresh serializer) {doc : AppDoc ι H M}
    (hconfig : doc.app.openapiConfig = app.doc.app.openapiConfig) :
    Fresh serializer { app with doc, openapiBytes := none } where
  openapi _ hbytes := by cases hbytes
  swagger page hpage := by rw [hconfig]; exact h.swagger page hpage

/-- A change that does not show in the document, and the Swagger page is forgotten. -/
theorem Fresh.forgetSwagger (h : app.Fresh serializer) {doc : AppDoc ι H M}
    (hdocument : doc.document = app.doc.document) :
    Fresh serializer { app with doc, swaggerBytes := none } where
  openapi bytes hbytes := by rw [hdocument]; exact h.openapi bytes hbytes
  swagger _ hpage := by cases hpage

/-! ### One step -/

section Step

/-- Before the first route there is no route to document. -/
theorem routes_of_blank {doc : AppDoc ι H M} (hplans : doc.app.plans = []) : doc.routes = [] := by
  rw [AppDoc.routes, AppDoc.allRoutes, hplans]
  simp

theorem doc_prepare (app : CachedApp ι H M) : (app.prepare serializer).doc = app.doc := by
  rw [prepare, CachedApp.prepareSwagger, CachedApp.prepareOpenapi]
  split <;> split <;> rfl

theorem doc_forget (app : CachedApp ι H M) (doc : AppDoc ι H M) (c : DocCall ι H M) :
    (app.forget doc c).doc = doc := by
  cases c <;> simp only [CachedApp.forget] <;> first | rfl | (split <;> rfl)

theorem Fresh.withState (h : app.Fresh serializer) (hblank : app.Blank)
    (hstate : app.withState = some app') : app'.Fresh serializer := by
  rw [CachedApp.withState] at hstate
  split at hstate
  · rename_i hempty
    have hplans : app.doc.app.plans = [] := List.isEmpty_iff.mp hempty
    cases hstate
    refine h.unchanged (AppDoc.document_congr rfl ?_ ?_) rfl
    · rw [routes_of_blank hplans, routes_of_blank rfl]
      exact .nil
    · exact (hblank hplans).symm
  · cases hstate

theorem Blank.withState (hstate : app.withState = some app') : app'.Blank := by
  rw [CachedApp.withState] at hstate
  split at hstate
  · cases hstate
    exact fun _ => rfl
  · cases hstate

/-- What a mutator of the last route does with the caches. -/
theorem Fresh.described (h : app.Fresh serializer) {doc : AppDoc ι H M}
    (hnone : app.doc.app.lastRoute = none → doc = app.doc) :
    Fresh serializer (if app.doc.app.lastRoute.isSome then invalidateOpenapiCache { app with doc }
      else { app with doc }) := by
  split
  · exact fresh_invalidate _
  · rename_i hlast
    rw [hnone (by simpa using hlast)]
    exact h

variable [DecidableEq ι] {named : Named ι} {group : Option Text} {c : DocCall ι H M}

/-- A registration: the document is forgotten, unless the route is dropped. -/
theorem Fresh.registered (h : app.Fresh serializer) {r : Registered ι H}
    (hr : c.registered group = some r) {doc : AppDoc ι H M}
    (hrun : c.run named group app.doc = .ok doc) :
    Fresh serializer (if doc.app.metadata.length = app.doc.app.metadata.length then { app with doc }
      else { app with doc, openapiBytes := none }) := by
  have hconfig : doc.app.openapiConfig = app.doc.app.openapiConfig := by
    refine DocCall.openapiConfig_run (fun option hc => ?_) hrun
    rw [hc] at hr
    cases hr
  split
  · rename_i hlength
    exact h.unchanged (DocCall.document_of_dropped hr hrun hlength) hconfig
  · exact h.forgetDocument hconfig

/-- **Every call forgets what it makes stale.** -/
theorem Fresh.forget (h : app.Fresh serializer) {doc : AppDoc ι H M}
    (hrun : c.run named group app.doc = .ok doc) : (app.forget doc c).Fresh serializer := by
  cases c with
  | route method path signature handler =>
    exact h.registered (show DocCall.registered group _ = some _ from rfl) hrun
  | raw method path response handler =>
    exact h.registered (show DocCall.registered group _ = some _ from rfl) hrun
  | static path response =>
    apply h.forgetDocument
    exact DocCall.openapiConfig_run (fun _ hc => by cases hc) hrun
  | openapi option => exact fresh_invalidate _
  | swagger path =>
    simp only [DocCall.run, DocCall.erase, bind_eq_ok, orHalt_eq_ok, pure_eq_ok] at hrun
    obtain ⟨inner, happ, rfl⟩ := hrun
    apply h.forgetSwagger
    exact AppDoc.document_of_call rfl (fun _ hc => by cases hc) happ
  | layer _ | layerFor _ _ | routeLayer _ | maxBodySize _ | bodyLimit _ =>
    simp only [DocCall.run, DocCall.erase, bind_eq_ok, orHalt_eq_ok, pure_eq_ok] at hrun
    obtain ⟨inner, happ, rfl⟩ := hrun
    apply h.unchanged
    · exact AppDoc.document_of_call rfl (fun _ hc => by cases hc) happ
    · exact Call.openapiConfig_run (fun _ hc => by cases hc) happ
  | tag _ | summary _ | security _ | isPublic =>
    cases hrun
    exact h.described fun hnone => AppDoc.describe_of_none hnone _
  | operationId _ | problemResponses _ =>
    simp only [DocCall.run, bind_eq_ok, pure_eq_ok] at hrun
    obtain ⟨_, -, rfl⟩ := hrun
    exact h.described fun hnone => AppDoc.describe_of_none hnone _
  | multipartFields fields =>
    apply h.described
    intro hnone
    simp only [DocCall.run, hnone] at hrun
    exact (Except.ok.inj hrun).symm

/-- Only a registration adds schemas, and it adds a plan as well. -/
theorem Blank.forget (h : app.Blank) {doc : AppDoc ι H M}
    (hrun : c.run named group app.doc = .ok doc) :
    doc.app.plans = [] → doc.schemas.definitions = ∅ := by
  intro hplans
  cases DocCall.step_of_run hrun with
  | drops error => exact h hplans
  | registers r inner segments limit schema request schemas₁ schemas₂ _ _ _ _ hadded =>
    simp [hadded] at hplans
  | edits _ _ _ hedits _ _ hschemas =>
    rw [hschemas]
    rw [hplans] at hedits
    exact h (List.forall₂_nil_right_iff.mp hedits)

end Step

/-! ### Every run -/

section Run

variable [DecidableEq ι] {named : Named ι}

/-- What every step keeps, a run keeps. -/
theorem run_induction {P : CachedApp ι H M → Prop} (hnew : P new)
    (hstep : ∀ app app' s, P app → app.step named serializer s = some app' → P app')
    {steps : List (Step ι H M)} (h : run named serializer steps = some app) : P app := by
  have key : ∀ (steps : List (Step ι H M)) (before : CachedApp ι H M), P before →
      steps.foldlM (fun app s => app.step named serializer s) before = some app → P app := by
    intro steps
    induction steps with
    | nil =>
      intro before hbefore hrun
      cases hrun
      exact hbefore
    | cons s steps ih =>
      intro before hbefore hrun
      rw [List.foldlM_cons] at hrun
      obtain ⟨next, hnext, hrest⟩ := Option.bind_eq_some_iff.mp hrun
      exact ih next (hstep before next s hbefore hnext) hrest
  exact key steps new hnew h

/-- What one step keeps. -/
theorem fresh_step (h : app.Fresh serializer ∧ app.Blank) {s : Step ι H M}
    (hstep : app.step named serializer s = some app') : app'.Fresh serializer ∧ app'.Blank := by
  cases s with
  | call group c =>
    simp only [CachedApp.step, CachedApp.call, Option.map_eq_some_iff] at hstep
    obtain ⟨doc, hrun, rfl⟩ := hstep
    have hrun : c.run named group app.doc = .ok doc := toOption_eq_some.mp hrun
    refine ⟨h.1.forget hrun, ?_⟩
    rw [Blank, doc_forget]
    exact h.2.forget hrun
  | withState => exact ⟨h.1.withState h.2 hstep, Blank.withState hstep⟩
  | oneshot =>
    cases hstep
    refine ⟨h.1.prepareOpenapi.prepareSwagger, ?_⟩
    rw [Blank, doc_prepare]
    exact h.2

/-- **The cached document is never stale**: whatever calls, groups, options and oneshot requests
come in whatever order, a page that is kept is the page of the present state. -/
theorem caches_fresh {steps : List (Step ι H M)} (h : run named serializer steps = some app) :
    app.Fresh serializer := by
  have hnew : (new : CachedApp ι H M).Fresh serializer ∧ (new : CachedApp ι H M).Blank :=
    ⟨fresh_invalidate new, fun _ => rfl⟩
  have hkept : app.Fresh serializer ∧ app.Blank :=
    run_induction (P := fun app => app.Fresh serializer ∧ app.Blank) hnew
      (fun _ _ _ hbefore hstep => fresh_step hbefore hstep) h
  exact hkept.1

/-! ### A tag between two requests -/

/-- A serializer that writes the number of paths and the address of the document. -/
def countingSerializer : Serializer where
  document document := decimal document.paths.entries.length
  string text := text

/-- A route that is tagged after a first request, and a document that moves after a second. -/
def retaggedSteps : List (Step Empty Unit Unit) :=
  [.call none (.openapi none), .call none (.swagger none),
    .call none (.route .get (str "/notes") { extractors := [], response := .text } ()), .oneshot,
    .call none (.tag (str "notes")), .oneshot, .call none (.openapi (some (.path (str "/spec")))),
    .oneshot]

def retaggedRun : Option (CachedApp Empty Unit Unit) :=
  run (fun _ type => nomatch type) countingSerializer retaggedSteps

theorem caches_fresh_retagged : (retaggedRun.get (by decide +kernel)).Fresh countingSerializer ∧
    (retaggedRun.get (by decide +kernel)).swaggerBytes =
      some (swaggerHtml countingSerializer (some (str "/spec"))) :=
  ⟨caches_fresh (Option.some_get _).symm, by decide +kernel⟩

end Run

end CachedApp

end OasRs
