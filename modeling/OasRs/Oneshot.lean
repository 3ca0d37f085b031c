import OasRs.Chain
import OasRs.DocumentCache

/-!
# Testing Through the Builder

`App::oneshot` answers a request from the builder, with its own copy of the dispatch and of
serving the generated pages (`src/app.rs`); `build` and `AppRuntime::oneshot` answer it as
production does (`src/runtime.rs`). Routes and layers are registered under names, so that one
application stands for all that its handlers and layers may do.

## Main results

- `App.handle_eq`: the builder's dispatch is the runtime's, on the same tables
- `App.installPage_spec`: what a generated page changes in the tables
- `oneshot_agrees_iff`: when the builder and the runtime answer alike
-/

namespace OasRs

open Lib Lib.Polling Schema

variable {S Incoming ι K M : Type}

/-! ## Dispatch of the builder -/

/-- The bytes of a text. Memory holds no text that is longer. -/
def Bytes.ofText (text : Text) : Bytes := { data := text.take usizeMax, length_le := List.length_take_le _ _ }

/-- What a route serves: a handler by its name, or a response that was prepared. -/
inductive Served (K : Type) where
  | handler (name : K)
  | prepared (response : StaticResponse)

/-- What is served, for what the names stand for. -/
def Served.endpoint (behaviour : K → Endpoint S Incoming) : Served K → Endpoint S Incoming
  | handler name => behaviour name
  | prepared response => { zero := .never, call := fun _ _ _ => .never, raw := fun _ => .never,
                           static := response }

section Map

variable {H H' : Type} (f : H → H')

def HandlerKind.map : HandlerKind H → HandlerKind H'
  | .zero call => .zero (f call)
  | .typedNoParams call => .typedNoParams (f call)
  | .typed call => .typed (f call)
  | .raw call => .raw (f call)
  | .static response => .static (f response)

def RoutePlan.map (plan : RoutePlan H) : RoutePlan H' where
  handler := plan.handler.map f
  bodyLimit := plan.bodyLimit
  captureMode := plan.captureMode
  bodyMode := plan.bodyMode

/-- The application whose handlers are told. -/
def App.map (app : App H M) : App H' M where
  maxBodySize := app.maxBodySize
  plans := app.plans.map (RoutePlan.map f)
  metadata := app.metadata
  staticRoutes := app.staticRoutes
  dynamicRoutes := app.dynamicRoutes
  lastRoute := app.lastRoute
  openapiConfig := app.openapiConfig
  swaggerConfig := app.swaggerConfig
  routeError := app.routeError
  middleware := app.middleware

end Map

namespace App

variable (env : Environment Incoming) (state : S) (app : App (Endpoint S Incoming) M)

/-- `App::handle_matched` -/
def handleMatched (request : HttpRequest Bytes) (index : RouteId) (captures : Captures)
    (isHead : Bool) : Future (Except Fault Response) :=
  match app.plans[index]? with
  | none => .ready (.error .noPlan)
  | some plan =>
    match plan.handler with
    | .zero endpoint => endpoint.zero.map fun response => .ok (maybeHeadFlag isHead response)
    | .static endpoint => .ready (.ok (maybeHeadFlag isHead endpoint.static.toResponse))
    | _ =>
      if plan.bodyMode = .buffered ∧ plan.bodyLimit < request.body.len then
        .ready (.ok (payloadTooLargeResponse env.toVec))
      else
        match plan.handler with
        | .typedNoParams endpoint =>
          (endpoint.call request .empty state).map fun response => .ok (maybeHeadFlag isHead response)
        | .typed endpoint =>
          match captures.invoke env plan.captureMode request
              (app.metadata[index]?.bind RouteMetadata.captureNames) endpoint.call state with
          | .ok future => future.map fun response => .ok (maybeHeadFlag isHead response)
          | .error fault => .ready (.error fault)
        | .raw _ => .ready (.error .rawInMemory)
        | .zero _ | .static _ => .ready (.error .fastHandler)

/-- `App::handle` -/
def handle (request : HttpRequest Bytes) : Future (Except Fault Response) :=
  let isHead := request.parts.method == .head
  let path := normalizeRequestPath request.parts.path
  match app.staticRoutes.lookup path with
  | some routes =>
    match resolveRouteSet request.parts.method routes with
    | .ok index => app.handleMatched env state request index .static isHead
    | .error (.options allow) => .ready (.ok (optionsResponse allow))
    | .error (.methodNotAllowed allow) => .ready (.ok (methodNotAllowedResponse allow))
  | none =>
    match app.dynamicRoutes.find path with
    | none => .ready (.ok notFound)
    | some (routes, captures) =>
      match resolveRouteSet request.parts.method routes with
      | .ok index => app.handleMatched env state request index (.dynamic captures) isHead
      | .error (.options allow) => .ready (.ok (optionsResponse allow))
      | .error (.methodNotAllowed allow) => .ready (.ok (methodNotAllowedResponse allow))

/-- The server that would run on the tables of a builder. -/
def server (timeout : Option ℕ) : Server S Incoming M :=
  { runtime := app.freeze, state, bodyReadTimeout := timeout }

variable {app}

theorem handleMatched_eq (timeout : Option ℕ) (request : HttpRequest Bytes) (index : RouteId)
    (captures : Captures) (isHead : Bool) :
    app.handleMatched env state request index captures isHead =
      (app.server state timeout).handleMatched env request index captures isHead := by
  have hnames : (app.metadata.map RouteMetadata.captureNames)[index]?.getD none =
      app.metadata[index]?.bind RouteMetadata.captureNames := by
    rw [List.getElem?_map]
    cases app.metadata[index]? with
    | none => rfl
    | some md => rfl
  rw [handleMatched, ← hnames]
  rfl

/-- **The two copies of the dispatch** are one function of the tables. -/
theorem handle_eq (timeout : Option ℕ) (request : HttpRequest Bytes) :
    app.handle env state request = (app.server state timeout).handle env request := by
  simp only [handle, Server.handle, handleMatched_eq env state timeout]
  rfl

end App

/-! ## `App::oneshot` and `build` -/

namespace CachedApp

/-- The page that `oneshot` serves before it routes, once the pages are prepared. -/
def generated (app : CachedApp ι (Served K) M) (path : Text) : Option Response :=
  if app.doc.app.openapiConfig = some path then
    app.openapiBytes.map fun body => responseJsonBytes 200 (.ofText body)
  else if app.doc.app.swaggerConfig = some path then
    app.swaggerBytes.map fun body => responseText 200 (.ofText body)
  else none

/-- `install_generated_routes` -/
def installGeneratedRoutes (app : CachedApp ι (Served K) M) :
    Except BuildStop (App (Served K) M) := do
  let routes ←
    match app.doc.app.openapiConfig, app.openapiBytes with
    | some path, some body =>
      app.doc.app.addGeneratedStaticRoute path (.prepared (.json (.ofText body)))
    | _, _ => .ok app.doc.app
  match app.doc.app.swaggerConfig, app.swaggerBytes with
  | some path, some body =>
    routes.addGeneratedStaticRoute path (.prepared (.textBytes (.ofText body)))
  | _, _ => .ok routes

/-- `App::build`, up to the routes and layers of the runtime -/
def build (serializer : Serializer) (app : CachedApp ι (Served K) M) :
    Except BuildStop (App (Served K) M) :=
  match app.doc.app.routeError.or (app.doc.validateSchemas.or app.doc.validateSecurity) with
  | some error => .error (.error error)
  | none => (app.prepare serializer).installGeneratedRoutes

/-- `App::oneshot` -/
def oneshot (env : Environment Incoming) (serializer : Serializer)
    (behaviour : K → Endpoint S Incoming) (state : S) (app : CachedApp ι (Served K) M)
    (request : HttpRequest Bytes) : Future (Except Fault Response) :=
  let app := app.prepare serializer
  match app.generated (normalizeRequestPath request.parts.path) with
  | some response => .ready (.ok response)
  | none => (app.doc.app.map (Served.endpoint behaviour)).handle env state request

end CachedApp

/-! ## The tables of a builder -/

/-- Whether a plan serves a response that was prepared. -/
def HandlerKind.isStatic {H : Type} : HandlerKind H → Bool
  | .static _ => true
  | .zero _ | .typedNoParams _ | .typed _ | .raw _ => false

/-- Prepared responses are registered for `GET`. -/
def App.StaticGet {H : Type} (app : App H M) : Prop :=
  List.Forall₂ (fun md plan => plan.handler.isStatic = true → md.method = .get) app.metadata app.plans

namespace CachedApp

section Tables

variable {H : Type} {app app' : CachedApp ι H M}

/-- Consistency starts again when the state is chosen. -/
theorem consistent_withState (hc : app.doc.app.Consistent) (h : app.withState = some app') :
    app'.doc.app.Consistent := by
  rw [CachedApp.withState] at h
  split at h
  · cases h
    exact App.consistent_new.congr rfl rfl rfl rfl (fun _ hlast => by cases hlast)
      fun path hpath => .inr (hc.configs path hpath)
  · cases h

variable [DecidableEq ι] {named : Named ι} {serializer : Serializer}

theorem consistent_step (hc : app.doc.app.Consistent) {s : Step ι H M}
    (h : app.step named serializer s = some app') : app'.doc.app.Consistent := by
  cases s with
  | call group c =>
    simp only [CachedApp.step, CachedApp.call, Option.map_eq_some_iff] at h
    obtain ⟨doc, hrun, rfl⟩ := h
    rw [doc_forget]
    have herased := DocCall.erase_run (toOption_eq_some.mp hrun)
    cases herase : c.erase with
    | none =>
      simp only [herase] at herased
      rw [herased]
      exact hc
    | some call =>
      simp only [herase] at herased
      exact (Call.effect_of_run hc herased).consistent hc
  | withState => exact consistent_withState hc h
  | oneshot =>
    cases h
    rw [doc_prepare]
    exact hc

theorem staticGet_call {group : Option Text} {c : DocCall ι H M} {doc doc' : AppDoc ι H M}
    (hs : doc.app.StaticGet) (h : c.run named group doc = .ok doc') : doc'.app.StaticGet := by
  cases DocCall.step_of_run h with
  | drops error => exact hs
  | registers r app segments limit schema request schemas₁ schemas₂ hr _ _ hmetadata hplans =>
    rw [App.StaticGet, hmetadata, hplans]
    refine List.rel_append hs (.cons (fun hstatic => ?_) .nil)
    -- of the three ways to register a route, only `static_text` and `static_json` prepare it
    cases c with
    | route method path signature handler =>
      cases hr
      simp only [Registered.plan] at hstatic
      split at hstatic
      · cases hstatic
      · split at hstatic
        · cases hstatic
        · cases hstatic
    | raw method path response handler =>
      cases hr
      cases hstatic
    | static path response =>
      cases hr
      rfl
    | _ => cases hr
  | edits _ _ hmetadata hplans =>
    rw [App.StaticGet, hmetadata]
    have hedited : ∀ {plans plans' : List (RoutePlan H)}, List.Forall₂ RoutePlan.Edit plans plans' →
        ∀ {metadata : List RouteMetadata}, List.Forall₂
          (fun md plan => plan.handler.isStatic = true → md.method = .get) metadata plans →
        List.Forall₂ (fun md plan => plan.handler.isStatic = true → md.method = .get)
          metadata plans' := by
      intro plans plans' hedit
      induction hedit with
      | nil => exact id
      | cons hplan _ ih =>
        intro metadata hmetadata
        cases hmetadata with
        | cons hhead htail =>
          refine .cons (fun hstatic => hhead ?_) (ih htail)
          rw [hplan.eq] at hstatic
          exact hstatic
    exact hedited hplans hs

theorem staticGet_step (hs : app.doc.app.StaticGet) {s : Step ι H M}
    (h : app.step named serializer s = some app') : app'.doc.app.StaticGet := by
  cases s with
  | call group c =>
    simp only [CachedApp.step, CachedApp.call, Option.map_eq_some_iff] at h
    obtain ⟨doc, hrun, rfl⟩ := h
    rw [doc_forget]
    exact staticGet_call hs (toOption_eq_some.mp hrun)
  | withState =>
    simp only [CachedApp.step, CachedApp.withState] at h
    split at h
    · cases h
      exact .nil
    · cases h
  | oneshot =>
    cases h
    rw [doc_prepare]
    exact hs

end Tables

end CachedApp

/-! ## Generated pages -/

section Pages

variable {H : Type}

/-- The plan of a generated page. -/
def pagePlan (page : H) : RoutePlan H :=
  { handler := .static page, bodyLimit := 0, captureMode := .none, bodyMode := .none }

/-- What a generated page changes. -/
theorem App.installPage_spec {app app' : App H M} {path : Text} {page : H}
    (h : app.installPage (some path) page = .ok app') :
    ∃ md set, md.method = .get ∧
      ((app.staticRoutes.lookup path).bind fun routes => routes.route .get) = none ∧
      (staticSet app.staticRoutes path).insert .get app.plans.length = .ok set ∧
      app' = { app with
        staticRoutes := app.staticRoutes.insert path set
        plans := app.plans ++ [pagePlan page]
        metadata := app.metadata ++ [md] } := by
  simp only [App.installPage, App.addGeneratedStaticRoute, bind_eq_ok, orStop_eq_ok] at h
  obtain ⟨segments, -, h⟩ := h
  split at h
  · cases h
  · rename_i hstatic
    split at h
    · cases h
    · rename_i hfree
      rw [orStop_eq_ok] at h
      obtain ⟨staticRoutes, dynamicRoutes, rfl, hcases⟩ := App.push_ok h
      rcases hcases with ⟨-, rfl, set, hset, rfl⟩ | ⟨hdynamic, -⟩
      · exact ⟨_, set, rfl, by simpa using hfree, hset, rfl⟩
      · simp [hdynamic] at hstatic

/-- Where `build` puts the pages: their paths, with the index and the response of each. -/
structure App.Serves (app built : App H M) (pages : Text → Option (ℕ × H)) : Prop where
  middleware : built.middleware = app.middleware
  metadata : app.metadata <+: built.metadata
  plans : app.plans <+: built.plans
  dynamicRoutes : built.dynamicRoutes = app.dynamicRoutes
  /-- elsewhere the static table is as it was -/
  other : ∀ path, pages path = none →
    built.staticRoutes.lookup path = app.staticRoutes.lookup path
  /-- the last identifier there is cannot be told from a free slot -/
  page : ∀ path index page, pages path = some (index, page) →
    built.plans[index]? = some (pagePlan page) ∧ ∃ set, built.staticRoutes.lookup path = some set ∧
      set.route .get = if index = RouteId.none then none else some index

theorem App.serves_installPage {app built : App H M} {config : Option Text} {page : H}
    (h : app.installPage config page = .ok built) :
    app.Serves built fun path => if config = some path then some (app.plans.length, page) else none := by
  cases config with
  | none =>
    cases h
    exact {
      middleware := rfl
      metadata := List.prefix_rfl
      plans := List.prefix_rfl
      dynamicRoutes := rfl
      other := fun _ _ => rfl
      page := fun path index page hpage => by simp at hpage }
  | some path =>
    obtain ⟨md, set, -, -, hset, rfl⟩ := App.installPage_spec h
    refine {
      middleware := rfl
      metadata := List.prefix_append _ _
      plans := List.prefix_append _ _
      dynamicRoutes := rfl
      other := fun other hother => ?_
      page := fun other index response hpage => ?_ }
    · have hne : other ≠ path := fun heq => by simp [heq] at hother
      exact AList.lookup_insert_ne hne
    · split at hpage
      · rename_i heq
        cases heq
        cases hpage
        refine ⟨by simp, set, AList.lookup_insert _, ?_⟩
        rw [RouteSet.route_insert hset, if_pos rfl]
      · cases hpage

/-- Two pages, one after the other, have different paths. -/
theorem App.Serves.trans {app app₁ built : App H M} {config : Option Text} {page : H}
    {pages : Text → Option (ℕ × H)} (h₁ : app.Serves app₁ pages)
    (hlast : ∀ path index page, pages path = some (index, page) → index < app₁.plans.length)
    (h : app₁.installPage config page = .ok built) :
    app.Serves built fun path => (pages path).or
      (if config = some path then some (app₁.plans.length, page) else none) := by
  have h₂ := App.serves_installPage h
  refine {
    middleware := h₂.middleware.trans h₁.middleware
    metadata := h₁.metadata.trans h₂.metadata
    plans := h₁.plans.trans h₂.plans
    dynamicRoutes := h₂.dynamicRoutes.trans h₁.dynamicRoutes
    other := fun path hpath => ?_
    page := fun path index response hpath => ?_ }
  · rw [Option.or_eq_none_iff] at hpath
    exact (h₂.other path hpath.2).trans (h₁.other path hpath.1)
  · rw [Option.or_eq_some_iff] at hpath
    rcases hpath with hpath | ⟨-, hpath⟩
    · obtain ⟨hplan, set, hlookup, hroute⟩ := h₁.page path index response hpath
      have hindex := hlast path index response hpath
      -- a page with an identifier blocks a second one; without, there is no identifier left
      have hother : config ≠ some path := by
        intro hconfig
        subst hconfig
        obtain ⟨_, _, -, hfree, hinsert, -⟩ := App.installPage_spec h
        obtain ⟨_, -, hle, -⟩ := RouteSet.insert_ok hinsert
        rw [hlookup, Option.bind_some, hroute] at hfree
        split at hfree
        · rename_i hnone
          rw [hnone, RouteId.none] at hindex
          omega
        · cases hfree
      refine ⟨getElem?_of_isPrefix h₂.plans hplan, set, ?_, hroute⟩
      rw [h₂.other path (if_neg hother), hlookup]
    · exact h₂.page path index response hpath

end Pages

/-! ## What `build` makes of a builder -/

namespace CachedApp

/-- The index that `build` gives to the page at a path, if it generates one there. -/
def pageIndex {H : Type} (app : CachedApp ι H M) (path : Text) : Option ℕ :=
  (if app.doc.app.openapiConfig = some path then some app.doc.app.plans.length else none).or
    (if app.doc.app.swaggerConfig = some path then
      some (app.doc.app.plans.length + app.doc.app.openapiConfig.toList.length) else none)

/-- A page that a `HEAD` request can tell from its answer. -/
def Visible : StaticResponse → Prop
  | .json _ => True
  | .text body _ => body.data ≠ []

/-- A page is the one that `oneshot` serves at its path. -/
def Shows (app : CachedApp ι (Served K) M) (pages : Text → Option (ℕ × Served K)) : Prop :=
  ∀ path, (pages path).map Prod.fst = app.pageIndex path ∧
    match pages path with
    | none => app.generated path = none
    | some (_, page) => ∃ response, page = .prepared response ∧ Visible response ∧
        app.generated path = some response.toResponse

variable {serializer : Serializer} {app : CachedApp ι (Served K) M} {built : App (Served K) M}

theorem Fresh.prepare {H : Type} {app : CachedApp ι H M} (h : app.Fresh serializer) :
    (app.prepare serializer).Fresh serializer :=
  h.prepareOpenapi.prepareSwagger

/-- Where a page is enabled, it is prepared. -/
theorem isSome_prepare {H : Type} (serializer : Serializer) (app : CachedApp ι H M) :
    (app.doc.app.openapiConfig.isSome = true →
        (app.prepare serializer).openapiBytes.isSome = true) ∧
      (app.doc.app.swaggerConfig.isSome = true →
        (app.prepare serializer).swaggerBytes.isSome = true) := by
  constructor
  · intro hconfig
    rw [CachedApp.prepare, prepareSwagger, prepareOpenapi]
    cases hbytes : app.openapiBytes <;> simp [hconfig, hbytes] <;> split <;> simp [hbytes]
  · intro hconfig
    have hdoc : (app.prepareOpenapi serializer).doc = app.doc := by
      rw [prepareOpenapi]
      split <;> rfl
    rw [CachedApp.prepare, prepareSwagger, hdoc, hconfig]
    cases hbytes : (app.prepareOpenapi serializer).swaggerBytes <;> simp [hbytes]

/-- The Swagger page is not empty. -/
theorem data_swaggerHtml_ne (openapiPath : Option Text) :
    (Bytes.ofText (swaggerHtml serializer openapiPath)).data ≠ [] := by
  intro h
  have hbegin : ∃ rest, swaggerHtml serializer openapiPath = 0x3C :: rest := by
    simp only [swaggerHtml, List.append_assoc]
    exact ⟨_, rfl⟩
  obtain ⟨rest, hrest⟩ := hbegin
  rw [Bytes.ofText, hrest] at h
  simp [usizeMax] at h

/-- `install_generated_routes`, once the pages are prepared. -/
theorem installGeneratedRoutes_eq {document page : Text}
    (hdocument : app.doc.app.openapiConfig.isSome = true → app.openapiBytes = some document)
    (hpage : app.doc.app.swaggerConfig.isSome = true → app.swaggerBytes = some page) :
    app.installGeneratedRoutes =
      (app.doc.app.installPage app.doc.app.openapiConfig (.prepared (.json (.ofText document)))).bind
        fun routes => routes.installPage app.doc.app.swaggerConfig
          (.prepared (.textBytes (.ofText page))) := by
  rw [installGeneratedRoutes]
  cases hopenapi : app.doc.app.openapiConfig with
  | none =>
    cases hswagger : app.doc.app.swaggerConfig with
    | none => rfl
    | some path =>
      rw [hpage (by rw [hswagger]; rfl)]
      rfl
  | some path =>
    rw [hdocument (by rw [hopenapi]; rfl)]
    cases hswagger : app.doc.app.swaggerConfig with
    | none => rfl
    | some path' =>
      rw [hpage (by rw [hswagger]; rfl)]
      rfl

/-- A generated page keeps prepared responses on `GET`. -/
theorem staticGet_installPage {H : Type} {app app' : App H M} {config : Option Text} {page : H}
    (hs : app.StaticGet) (h : app.installPage config page = .ok app') : app'.StaticGet := by
  cases config with
  | none =>
    cases h
    exact hs
  | some path =>
    obtain ⟨md, set, hmethod, -, -, rfl⟩ := App.installPage_spec h
    exact List.rel_append hs (.cons (fun _ => hmethod) .nil)

theorem swaggerConfig_installPage {H : Type} {app app' : App H M} {config : Option Text} {page : H}
    (h : app.installPage config page = .ok app') : app'.swaggerConfig = app.swaggerConfig := by
  cases config with
  | none =>
    cases h
    rfl
  | some path =>
    obtain ⟨md, set, -, -, -, rfl⟩ := App.installPage_spec h
    rfl

theorem length_installPage {H : Type} {app app' : App H M} {config : Option Text} {page : H}
    (h : app.installPage config page = .ok app') :
    app'.plans.length = app.plans.length + config.toList.length := by
  cases config with
  | none =>
    cases h
    rfl
  | some path =>
    obtain ⟨md, set, -, -, -, rfl⟩ := App.installPage_spec h
    simp

/-- The pages that `build` generates, with their indices. -/
def pages (app : CachedApp ι (Served K) M) (document page : Text) (path : Text) :
    Option (ℕ × Served K) :=
  (if app.doc.app.openapiConfig = some path then
    some (app.doc.app.plans.length, .prepared (.json (.ofText document))) else none).or
    (if app.doc.app.swaggerConfig = some path then
      some (app.doc.app.plans.length + app.doc.app.openapiConfig.toList.length,
        .prepared (.textBytes (.ofText page))) else none)

theorem serves_pages {document page : Text} {app₁ : App (Served K) M}
    (hfirst : app.doc.app.installPage app.doc.app.openapiConfig
      (.prepared (.json (.ofText document))) = .ok app₁)
    (hsecond : app₁.installPage app.doc.app.swaggerConfig
      (.prepared (.textBytes (.ofText page))) = .ok built) :
    app.doc.app.Serves built (app.pages document page) := by
  have hlength := length_installPage hfirst
  have hserves := (App.serves_installPage hfirst).trans (fun path index page hpages => ?_) hsecond
  · rw [hlength] at hserves
    exact hserves
  · split at hpages
    · rename_i hconfig
      cases hpages
      rw [hlength, hconfig]
      simp
    · cases hpages

/-- Once the pages are prepared, `oneshot` serves what `build` generates. -/
theorem shows_pages {document : Text}
    (hdocument : app.doc.app.openapiConfig.isSome = true → app.openapiBytes = some document)
    (hpage : app.doc.app.swaggerConfig.isSome = true →
      app.swaggerBytes = some (swaggerHtml serializer app.doc.app.openapiConfig)) :
    app.Shows (app.pages document (swaggerHtml serializer app.doc.app.openapiConfig)) := by
  intro path
  -- the document comes first, in `build` and in `generated_response`
  by_cases hfirst : app.doc.app.openapiConfig = some path
  · simp only [pages, pageIndex, generated, if_pos hfirst, Option.some_or, Option.map_some]
    refine ⟨trivial, _, rfl, trivial, ?_⟩
    rw [hdocument (by rw [hfirst]; rfl)]
    rfl
  · by_cases hsecond : app.doc.app.swaggerConfig = some path
    · simp only [pages, pageIndex, generated, if_neg hfirst, if_pos hsecond, Option.none_or,
        Option.map_some]
      refine ⟨trivial, _, rfl, data_swaggerHtml_ne _, ?_⟩
      rw [hpage (by rw [hsecond]; rfl)]
      rfl
    · simp only [pages, pageIndex, generated, if_neg hfirst, if_neg hsecond, Option.none_or,
        Option.map_none]
      exact ⟨trivial, trivial⟩

/-- Where a page is enabled, `prepare` leaves the one of the present state. -/
theorem prepared_bytes (hfresh : app.Fresh serializer) :
    (app.doc.app.openapiConfig.isSome = true → (app.prepare serializer).openapiBytes =
        some ((app.prepare serializer).openapiBytes.getD [])) ∧
      (app.doc.app.swaggerConfig.isSome = true → (app.prepare serializer).swaggerBytes =
        some (swaggerHtml serializer app.doc.app.openapiConfig)) := by
  obtain ⟨hopenapi, hswagger⟩ := isSome_prepare serializer app
  constructor
  · intro hsome
    obtain ⟨body, hbody⟩ := Option.isSome_iff_exists.mp (hopenapi hsome)
    rw [hbody, Option.getD_some]
  · intro hsome
    obtain ⟨body, hbody⟩ := Option.isSome_iff_exists.mp (hswagger hsome)
    rw [hbody, hfresh.prepare.swagger body hbody, doc_prepare]

/-- **What `build` adds** to the tables of a builder. -/
theorem serves_build (hfresh : app.Fresh serializer) (hc : app.doc.app.Consistent)
    (hs : app.doc.app.StaticGet) (hbuild : app.build serializer = .ok built) :
    built.Consistent ∧ built.StaticGet ∧
      ∃ pages, app.doc.app.Serves built pages ∧ (app.prepare serializer).Shows pages := by
  rw [build] at hbuild
  split at hbuild
  · cases hbuild
  · rename_i hvalid
    have hbytes := prepared_bytes hfresh
    have hdoc : (app.prepare serializer).doc = app.doc := doc_prepare app
    generalize app.prepare serializer = prepared at hbuild hbytes hdoc ⊢
    rw [← hdoc] at hbytes hc hs hvalid ⊢
    obtain ⟨hdocument, hpage⟩ := hbytes
    rw [installGeneratedRoutes_eq hdocument hpage] at hbuild
    obtain ⟨app₁, hfirst, hsecond⟩ := bind_eq_ok.mp hbuild
    have hinstall : prepared.doc.app.install none
        (.prepared (.json (.ofText (prepared.openapiBytes.getD []))))
        (.prepared (.textBytes (.ofText (swaggerHtml serializer prepared.doc.app.openapiConfig)))) =
          .ok built := by
      rw [App.install, (Option.or_eq_none_iff.mp hvalid).1]
      refine bind_eq_ok.mpr ⟨app₁, hfirst, ?_⟩
      rw [swaggerConfig_installPage hfirst]
      exact hsecond
    obtain ⟨-, hbuilt, -⟩ := App.install_ok hc hinstall
    exact ⟨hbuilt, staticGet_installPage (staticGet_installPage hs hfirst) hsecond, _,
      serves_pages hfirst hsecond, shows_pages hdocument hpage⟩

end CachedApp

/-! ## The two answers -/

section Answers

variable {env : Environment Incoming} {state : S} {timeout : Option ℕ}
  {serializer : Serializer} {app built : App (Served K) M}
  {pages : Text → Option (ℕ × Served K)} {request : HttpRequest Bytes}

/-- What a plan answers depends on the plan, the names and the state. -/
theorem handleMatched_congr {server server' : Server S Incoming M} {index : RouteId}
    (hplan : server.runtime.plans[index]? = server'.runtime.plans[index]?)
    (hnames : server.runtime.captureNames[index]? = server'.runtime.captureNames[index]?)
    (hstate : server.state = server'.state) (captures : Captures) (isHead : Bool) :
    server.handleMatched env request index captures isHead =
      server'.handleMatched env request index captures isHead := by
  simp only [Server.handleMatched, hplan, hnames, hstate]

/-- Away from the generated pages, `build` changes no answer. -/
theorem handle_of_other (hc : app.Consistent) (hserves : app.Serves built pages)
    (hother : pages (normalizeRequestPath request.parts.path) = none)
    (f : Served K → Endpoint S Incoming) :
    ((app.map f).server state timeout).handle env request =
      ((built.map f).server state timeout).handle env request := by
  have hdispatch : ((app.map f).server state timeout).runtime.dispatch request.parts.method
      request.parts.path = app.freeze.dispatch request.parts.method request.parts.path := rfl
  have hdispatch' : ((built.map f).server state timeout).runtime.dispatch request.parts.method
      request.parts.path = app.freeze.dispatch request.parts.method request.parts.path := by
    show built.freeze.dispatch _ _ = _
    simp only [Runtime.dispatch, App.freeze, hserves.other _ hother, hserves.dynamicRoutes]
  rw [OasRs.handle_eq, OasRs.handle_eq, hdispatch, hdispatch']
  cases hroute : app.freeze.dispatch request.parts.method request.parts.path with
  | options allow => rfl
  | methodNotAllowed allow => rfl
  | notFound => rfl
  | route index captures =>
    -- the plan was registered before the pages
    obtain ⟨-, md, hmd, -⟩ := dispatch_sound hc hroute
    have hlt := (List.getElem?_eq_some_iff.mp hmd).1
    apply handleMatched_congr
    · show (app.plans.map (RoutePlan.map f))[index]? = (built.plans.map (RoutePlan.map f))[index]?
      have hlt' : index < app.plans.length := hc.length_plans ▸ hlt
      have hplan : app.plans[index]? = some (app.plans.get ⟨index, hlt'⟩) :=
        List.getElem?_eq_getElem hlt'
      rw [List.getElem?_map, List.getElem?_map, getElem?_of_isPrefix hserves.plans hplan, hplan]
    · show (app.metadata.map _)[index]? = (built.metadata.map _)[index]?
      rw [List.getElem?_map, List.getElem?_map, getElem?_of_isPrefix hserves.metadata hmd, hmd]
    · rfl

/-- A `GET` for a page gets it. -/
theorem handle_of_page (hserves : app.Serves built pages) {index : ℕ} {response : StaticResponse}
    (hpage : pages (normalizeRequestPath request.parts.path) = some (index, .prepared response))
    (hget : request.parts.method = .get) (hindex : index ≠ RouteId.none)
    (behaviour : K → Endpoint S Incoming) :
    ((built.map (Served.endpoint behaviour)).server state timeout).handle env request =
      .ready (.ok response.toResponse) := by
  obtain ⟨hplan, set, hlookup, hroute⟩ := hserves.page _ _ _ hpage
  rw [if_neg hindex] at hroute
  have hresolve : resolveRouteSet .get set = .ok index := by
    rw [resolveRouteSet, routeIndex, hroute]
    rfl
  have hmapped : ((built.map (Served.endpoint behaviour)).server state timeout).runtime.plans[index]? =
      some ((pagePlan (.prepared response)).map (Served.endpoint behaviour)) := by
    show (built.plans.map _)[index]? = _
    rw [List.getElem?_map, hplan, Option.map_some]
  have hlookup' : ((built.map (Served.endpoint behaviour)).server state
      timeout).runtime.staticRoutes.lookup (normalizeRequestPath request.parts.path) = some set :=
    hlookup
  simp only [Server.handle, hlookup', hget, hresolve, Server.handleMatched, hmapped]
  rfl

/-! ### An application that refuses everything -/

/-- `500`, without a body -/
def refused : Response := responseText 500 .new

def refusal : Endpoint S Incoming where
  zero := .ready refused
  call _ _ _ := .ready refused
  raw _ := .ready refused
  static := .json .new

/-- No handler that refuses answers `200`. -/
theorem served_refusal (served : Served K) :
    (∀ response, (served.endpoint fun _ => (refusal : Endpoint S Incoming)).zero.Gives response →
        response.status ≠ 200) ∧
      ∀ request params state response,
        ((served.endpoint fun _ => (refusal : Endpoint S Incoming)).call request params state).Gives
          response → response.status ≠ 200 := by
  have hrefused : refused.status ≠ 200 := by decide
  cases served with
  | handler name =>
    refine ⟨fun response h => ?_, fun _ _ _ response h => ?_⟩
    · rw [← Future.gives_ready.mp h]
      exact hrefused
    · rw [← Future.gives_ready.mp h]
      exact hrefused
  | prepared response =>
    exact ⟨fun _ h => absurd h Future.not_gives_never,
      fun _ _ _ _ h => absurd h Future.not_gives_never⟩

/-- Neither does invoking one with captures. -/
theorem invoke_refusal (served : Served K) {captures : Captures} {mode : CaptureMode}
    {names : Option (List Text)} {future : Future Response}
    (h : captures.invoke env mode request names
      (served.endpoint fun _ => (refusal : Endpoint S Incoming)).call state = .ok future)
    {response : Response} (hgives : future.Gives response) : response.status ≠ 200 := by
  have hcall : ∀ request params state response,
      ((served.endpoint fun _ => (refusal : Endpoint S Incoming)).call request params state).Gives
        response → response.status ≠ 200 := (served_refusal served).2
  cases captures with
  | static =>
    cases h
    exact hcall _ _ _ _ hgives
  | dynamic set =>
    cases mode with
    | none =>
      cases h
      exact hcall _ _ _ _ hgives
    | borrowed =>
      cases h
      exact hcall _ _ _ _ hgives
    | materialized =>
      cases names with
      | none => cases h
      | some names =>
        simp only [Captures.invoke] at h
        split at h
        · cases h
          exact hcall _ _ _ _ hgives
        · rename_i error herror
          cases h
          -- the captures do not decode
          rw [Params.fromMaterializedNames] at herror
          split at herror
          · cases herror
          · cases herror
            rw [← Future.gives_ready.mp hgives]
            show (400 : ℕ) ≠ 200
            decide

/-- A plan whose handler refuses does not answer `200`, unless its response is prepared. -/
theorem statusIn_refusal {server : Server S Incoming M} {index : RouteId}
    {plan : RoutePlan (Served K)}
    (hplan : server.runtime.plans[index]? =
      some (plan.map (Served.endpoint fun _ => (refusal : Endpoint S Incoming))))
    (hstatic : plan.handler.isStatic = false) (captures : Captures) (isHead : Bool) :
    StatusIn (server.handleMatched env request index captures isHead) (· ≠ 200) := by
  have hlarge : StatusIn (.ready (.ok (payloadTooLargeResponse env.toVec))) (· ≠ 200) :=
    .ready (show (413 : ℕ) ≠ 200 by decide)
  simp only [Server.handleMatched, hplan]
  cases hhandler : plan.handler with
  | static response => simp [hhandler, HandlerKind.isStatic] at hstatic
  | zero served =>
    simp only [RoutePlan.map, hhandler, HandlerKind.map]
    exact StatusIn.map (served_refusal served).1 isHead
  | typedNoParams served =>
    simp only [RoutePlan.map, hhandler, HandlerKind.map]
    split
    · exact hlarge
    · exact StatusIn.map ((served_refusal served).2 _ _ _) isHead
  | typed served =>
    simp only [RoutePlan.map, hhandler, HandlerKind.map]
    split
    · exact hlarge
    · split
      · rename_i future hinvoke
        exact StatusIn.map (fun response hgives => invoke_refusal served hinvoke hgives) isHead
      · exact StatusIn.fault _
  | raw served =>
    simp only [RoutePlan.map, hhandler, HandlerKind.map]
    split
    · exact hlarge
    · exact StatusIn.fault _

/-- The answer to a `HEAD` is no page: it declares a length, and it has no body. -/
theorem maybeHeadFlag_ne (response : StaticResponse) {page : StaticResponse}
    (hvisible : CachedApp.Visible page) :
    maybeHeadFlag true response.toResponse ≠ page.toResponse := by
  intro h
  cases page with
  | json body =>
    have hlength : (maybeHeadFlag true response.toResponse).headers.values .contentLength = [] := by
      rw [h]
      simp [StaticResponse.toResponse, responseJsonBytes, HeaderMap.empty]
    cases response with
    | json _ =>
      simp [maybeHeadFlag, StaticResponse.toResponse, responseJsonBytes, HeaderMap.empty,
        ResponseBody.exactSize, HeaderMap.containsKey] at hlength
    | text _ _ =>
      simp [maybeHeadFlag, StaticResponse.toResponse, HeaderMap.empty,
        ResponseBody.exactSize, HeaderMap.containsKey] at hlength
  | text body contentLength =>
    have hbody : ResponseBody.full (some .new) = .full (some body) := congrArg Response.body h
    simp only [ResponseBody.full.injEq, Option.some.injEq] at hbody
    rw [← hbody] at hvisible
    exact hvisible rfl

theorem status_toResponse (page : StaticResponse) : page.toResponse.status = 200 := by
  cases page with
  | json body => rfl
  | text body contentLength => rfl

/-- Other methods, and a page without an identifier, do not get the page. -/
theorem not_gives_page (hc : built.Consistent) (hs : built.StaticGet)
    (hserves : app.Serves built pages) {index : ℕ} {page : StaticResponse}
    (hpage : pages (normalizeRequestPath request.parts.path) = some (index, .prepared page))
    (hvisible : CachedApp.Visible page)
    (hnot : ¬ (request.parts.method = .get ∧ index ≠ RouteId.none)) :
    ¬ (((built.map (Served.endpoint fun _ => (refusal : Endpoint S Incoming))).server state
      timeout).handle env request).Gives (.ok page.toResponse) := by
  -- no refusal has the status of a page
  have hrefuse : ∀ {future : Future (Except Fault Response)}, StatusIn future (· ≠ 200) →
      ¬ future.Gives (.ok page.toResponse) :=
    fun hstatus hgives => hstatus _ hgives (status_toResponse page)
  have hdispatch : ((built.map (Served.endpoint fun _ => (refusal : Endpoint S Incoming))).server state
      timeout).runtime.dispatch request.parts.method request.parts.path =
      built.freeze.dispatch request.parts.method request.parts.path := rfl
  rw [OasRs.handle_eq, hdispatch]
  cases hroute : built.freeze.dispatch request.parts.method request.parts.path with
  | options allow => exact hrefuse (.ready (show (204 : ℕ) ≠ 200 by decide))
  | methodNotAllowed allow => exact hrefuse (.ready (show (405 : ℕ) ≠ 200 by decide))
  | notFound => exact hrefuse (.ready (show (404 : ℕ) ≠ 200 by decide))
  | route chosen captures =>
    obtain ⟨-, md, hmd, hserve, -⟩ := dispatch_sound hc hroute
    obtain ⟨plan, hplan, hstatic⟩ := forall₂_exists_getElem? hs hmd
    have hmapped : ((built.map (Served.endpoint fun _ => (refusal : Endpoint S Incoming))).server state
        timeout).runtime.plans[chosen]? = some (plan.map (Served.endpoint fun _ => refusal)) := by
      show (built.plans.map _)[chosen]? = _
      rw [List.getElem?_map, hplan, Option.map_some]
    by_cases hkind : plan.handler.isStatic = true
    · -- a prepared response, so the method is `GET` or `HEAD`
      rw [hstatic hkind] at hserve
      rcases hserve with hget | ⟨-, hhead⟩
      · -- a `GET` finds no page that has no identifier
        obtain ⟨-, set, hlookup, hslot⟩ := hserves.page _ _ _ hpage
        have hindex : index = RouteId.none := by
          by_contra hne
          exact hnot ⟨hget.symm, hne⟩
        rw [if_pos hindex] at hslot
        rw [← hget] at hroute
        simp only [Runtime.dispatch, App.freeze, hlookup, Outcome.resolve, resolveRouteSet, routeIndex,
          hslot] at hroute
        simp at hroute
      · show ¬ Future.Gives (Server.handleMatched _ _ _ _ _ (request.parts.method == .head)) _
        -- a `HEAD` answer has no body, and the page shows one
        rw [hhead]
        cases hhandler : plan.handler with
        | static response =>
          simp only [Server.handleMatched, hmapped, RoutePlan.map, hhandler, HandlerKind.map]
          intro hgives
          have heq := Future.gives_ready.mp hgives
          rw [Except.ok.injEq] at heq
          exact maybeHeadFlag_ne _ hvisible heq
        | zero _ | typedNoParams _ | typed _ | raw _ =>
          simp [hhandler, HandlerKind.isStatic] at hkind
    · exact hrefuse (statusIn_refusal hmapped (by simpa using hkind) _ _)

end Answers

/-! ## The theorem -/

section Agree

variable [DecidableEq ι] {named : Named ι} {serializer : Serializer}
  {app : CachedApp ι (Served K) M} {built : App (Served K) M}

/-- For these handlers and layers, a test through the builder gives what the runtime gives. -/
def AnswersAlike (env : Environment Incoming) (serializer : Serializer)
    (behaviour : K → Endpoint S Incoming) (layers : M → Layer Incoming) (state : S)
    (timeout : Option ℕ) (app : CachedApp ι (Served K) M) (built : App (Served K) M)
    (request : HttpRequest Bytes) : Prop :=
  ∀ answer, (app.oneshot env serializer behaviour state request).Gives answer ↔
    ∃ n, (((built.map (Served.endpoint behaviour)).server state timeout).oneshot env layers
      request n).2 = some answer

/-- A future leaves out some response. -/
theorem exists_not_gives (future : Future (Except Fault Response)) :
    ∃ response, ¬ future.Gives (.ok response) := by
  by_cases h : future.Gives (.ok notFound)
  · refine ⟨{ notFound with status := 405 }, fun h' => ?_⟩
    have heq := congrArg (fun answer => answer.toOption.map Response.status) (h.unique h')
    revert heq
    decide
  · exact ⟨notFound, h⟩

/-- A layer that covers the request and answers it is heard by the runtime alone. -/
theorem oneshot_of_covered {S Incoming M : Type} (env : Environment Incoming)
    (server : Server S Incoming M) (response : Response) (request : HttpRequest Bytes)
    (h : hasMatchingLayer server.runtime.middleware request.parts.method request.parts.path = true) :
    (server.oneshot env (fun _ _ => .ready (.answer response)) request 1).2 = some (.ok response) := by
  rw [Server.oneshot, if_pos h, Server.runChain_eq, Server.composed, composition_skip]
  obtain ⟨entry, hentry, hcovers⟩ := List.any_eq_true.mp h
  let buffered : HttpRequest (Middleware.RequestBody Incoming) :=
    { parts := request.parts, body := .full request.body }
  have hcovers : entry.covers (HttpRequest.head buffered) = true := hcovers
  -- the first layer that covers the request answers
  cases hfind : server.runtime.middleware.findIdx? fun entry : ScopedLayer M =>
      entry.covers (HttpRequest.head buffered) with
  | none =>
    rw [List.findIdx?_eq_none_iff] at hfind
    have huncovered := hfind entry hentry
    rw [hcovers] at huncovered
    cases huncovered
  | some k =>
    obtain ⟨hk, -⟩ := List.findIdx?_eq_some_iff_getElem.mp hfind
    simp only [List.getElem?_eq_getElem hk]
    rfl

/-- **Testing through the builder is testing the runtime** for all that handlers and layers may do,
exactly if no layer covers the request, and a request for a generated page is a `GET`, where the
page has an identifier. -/
theorem oneshot_agrees_iff {steps : List (CachedApp.Step ι (Served K) M)}
    (hrun : CachedApp.run named serializer steps = some app)
    (hbuild : app.build serializer = .ok built) (env : Environment Incoming) (state : S)
    (timeout : Option ℕ) (request : HttpRequest Bytes) :
    (∀ (behaviour : K → Endpoint S Incoming) (layers : M → Layer Incoming),
        AnswersAlike env serializer behaviour layers state timeout app built request) ↔
      hasMatchingLayer app.doc.app.middleware request.parts.method request.parts.path = false ∧
        ∀ index ∈ app.pageIndex (normalizeRequestPath request.parts.path),
          request.parts.method = .get ∧ index ≠ RouteId.none := by
  have hc : app.doc.app.Consistent :=
    CachedApp.run_induction (P := fun app => app.doc.app.Consistent) App.consistent_new
      (fun _ _ _ hbefore hstep => CachedApp.consistent_step hbefore hstep) hrun
  have hs : app.doc.app.StaticGet :=
    CachedApp.run_induction (P := fun app => app.doc.app.StaticGet) .nil
      (fun _ _ _ hbefore hstep => CachedApp.staticGet_step hbefore hstep) hrun
  obtain ⟨hbuilt, hstatic, pages, hserves, hshows⟩ :=
    CachedApp.serves_build (CachedApp.caches_fresh hrun) hc hs hbuild
  obtain ⟨hindices, hgenerated⟩ := hshows (normalizeRequestPath request.parts.path)
  have hsame : (app.prepare serializer).pageIndex (normalizeRequestPath request.parts.path) =
      app.pageIndex (normalizeRequestPath request.parts.path) := by
    rw [CachedApp.pageIndex, CachedApp.doc_prepare]
    rfl
  rw [hsame] at hindices
  -- without a layer the runtime dispatches
  have hplain : hasMatchingLayer app.doc.app.middleware request.parts.method request.parts.path = false →
      ∀ (behaviour : K → Endpoint S Incoming) (layers : M → Layer Incoming) answer,
        (∃ n, (((built.map (Served.endpoint behaviour)).server state timeout).oneshot env layers
          request n).2 = some answer) ↔
        (((built.map (Served.endpoint behaviour)).server state timeout).handle env request).Gives
          answer := by
    intro hcovered behaviour layers answer
    have hmiddleware : ((built.map (Served.endpoint behaviour)).server state
        timeout).runtime.middleware = app.doc.app.middleware := hserves.middleware
    simp only [Server.oneshot, hmiddleware, hcovered, Bool.false_eq_true, if_false]
    rfl
  constructor
  · intro h
    -- a layer that answers by itself tells the two apart: the builder does not run it
    have hcovered : hasMatchingLayer app.doc.app.middleware request.parts.method
        request.parts.path = false := by
      by_contra hcovered
      obtain ⟨response, hresponse⟩ := exists_not_gives
        (app.oneshot env serializer (fun _ => (refusal : Endpoint S Incoming)) state request)
      apply hresponse
      apply (h (fun _ => refusal) (fun _ _ => .ready (.answer response)) (.ok response)).mpr
      refine ⟨1, oneshot_of_covered env _ response request ?_⟩
      show hasMatchingLayer built.middleware _ _ = true
      rw [hserves.middleware]
      simpa using hcovered
    -- a page tells them apart if the runtime does not serve it
    refine ⟨hcovered, fun index hindex => ?_⟩
    rw [Option.mem_def, ← hindices, Option.map_eq_some_iff] at hindex
    obtain ⟨⟨index', page⟩, hpage, rfl⟩ := hindex
    rw [hpage] at hgenerated
    obtain ⟨response, rfl, hvisible, hresponse⟩ := hgenerated
    by_contra hnot
    apply not_gives_page hbuilt hstatic hserves hpage hvisible hnot
    apply (hplain hcovered (fun _ => refusal) (fun _ _ => .never) _).mp
    apply (h (fun _ => refusal) (fun _ _ => .never) _).mp
    simp only [CachedApp.oneshot, hresponse]
    exact Future.gives_ready.mpr rfl
  · intro h behaviour layers answer
    obtain ⟨hcovered, hpages⟩ := h
    rw [hplain hcovered]
    -- the path of no page goes to the same route, and a page is served by both
    cases hpage : pages (normalizeRequestPath request.parts.path) with
    | none =>
      rw [hpage] at hgenerated
      simp only [CachedApp.oneshot, hgenerated, CachedApp.doc_prepare]
      rw [App.handle_eq env state timeout, handle_of_other hc hserves hpage]
    | some found =>
      obtain ⟨index, page⟩ := found
      rw [hpage] at hgenerated hindices
      obtain ⟨response, rfl, -, hresponse⟩ := hgenerated
      obtain ⟨hget, hindex⟩ := hpages index hindices.symm
      simp only [CachedApp.oneshot, hresponse]
      rw [handle_of_page hserves hpage hget hindex]

end Agree

/-! ### A document and a layer -/

/-- `app.openapi()`, and `GET /notes` -/
def servedSteps : List (CachedApp.Step Empty (Served Unit) Unit) :=
  [.call none (.openapi none),
    .call none (.route .get (str "/notes") { extractors := [], response := .text } (.handler ()))]

theorem isSome_servedSteps :
    (CachedApp.run (fun _ type => type.elim) CachedApp.countingSerializer servedSteps).isSome =
      true := by
  decide +kernel

def servedApp : CachedApp Empty (Served Unit) Unit :=
  (CachedApp.run (fun _ type => type.elim) CachedApp.countingSerializer servedSteps).get
    isSome_servedSteps

def servedBuilt : App (Served Unit) Unit :=
  returned (servedApp.build CachedApp.countingSerializer) (by decide +kernel)

/-- A request without headers and without a body. -/
def plainRequest (method : Method) (path : String) : HttpRequest Bytes where
  parts := { method, path := str path, query := none, headers := .empty }
  body := .new

theorem oneshot_agrees_iff_get :
    AnswersAlike instant CachedApp.countingSerializer (fun _ => echo) (fun _ _ => .never) () none
      servedApp servedBuilt (plainRequest .get "/openapi.json") :=
  (oneshot_agrees_iff (Option.some_get _).symm (eq_returned _) instant () none _).mpr
    ⟨by decide +kernel, by decide +kernel⟩ _ _

/-- The status of an answer. -/
def answerStatus (answer : Except Fault Response) : Option ℕ := answer.toOption.map Response.status

/-- Answers with different statuses do not agree. -/
theorem not_alike_of_status (status status' : ℕ) {behaviour : Unit → Endpoint Unit Bytes} {layers : Unit → Layer Bytes}
    {app : CachedApp Empty (Served Unit) Unit} {built : App (Served Unit) Unit}
    {request : HttpRequest Bytes}
    (h : ((app.oneshot instant CachedApp.countingSerializer behaviour () request).run 1).bind
      answerStatus = some status)
    (h' : ((((built.map (Served.endpoint behaviour)).server () none).oneshot instant layers
      request 1).2).bind answerStatus = some status') (hne : status ≠ status') :
    ¬ AnswersAlike instant CachedApp.countingSerializer behaviour layers () none app built request := by
  intro halike
  obtain ⟨answer, hanswer, hstatus⟩ := Option.bind_eq_some_iff.mp h
  obtain ⟨answer', hanswer', hstatus'⟩ := Option.bind_eq_some_iff.mp h'
  have hgives := (halike answer').mpr ⟨1, hanswer'⟩
  have hsame : answer = answer' := Future.Gives.unique ⟨1, hanswer⟩ hgives
  rw [hsame, hstatus'] at hstatus
  exact hne (Option.some.inj hstatus).symm

/-- The same application behind a layer. -/
def layeredSteps : List (CachedApp.Step Empty (Served Unit) Unit) :=
  servedSteps ++ [.call none (.layer ())]

theorem isSome_layeredSteps :
    (CachedApp.run (fun _ type => type.elim) CachedApp.countingSerializer layeredSteps).isSome =
      true := by
  decide +kernel

def layeredApp : CachedApp Empty (Served Unit) Unit :=
  (CachedApp.run (fun _ type => type.elim) CachedApp.countingSerializer layeredSteps).get
    isSome_layeredSteps

def layeredBuilt : App (Served Unit) Unit :=
  returned (layeredApp.build CachedApp.countingSerializer) (by decide +kernel)

/-- A handler that answers with a text. -/
def greeting : Endpoint Unit Bytes where
  zero := .ready (responseText 200 .new)
  call _ _ _ := .never
  raw _ := .never
  static := .json .new

/-- **`POST /openapi.json` gets the document from the builder and a `405` from the runtime; a layer
that refuses is heard by the runtime alone.** -/
theorem not_oneshot_agrees_post :
    servedApp.build CachedApp.countingSerializer = .ok servedBuilt ∧
      layeredApp.build CachedApp.countingSerializer = .ok layeredBuilt ∧
      ¬ AnswersAlike instant CachedApp.countingSerializer (fun _ => greeting) (fun _ _ => .never) () none
        servedApp servedBuilt (plainRequest .post "/openapi.json") ∧
      ¬ AnswersAlike instant CachedApp.countingSerializer (fun _ => greeting)
        (fun _ _ => .ready (.answer (responseText 401 .new))) () none layeredApp layeredBuilt
        (plainRequest .get "/notes") := by
  refine ⟨eq_returned _, eq_returned _, ?_, ?_⟩
  · exact not_alike_of_status 200 405 (by decide +kernel)
      (by decide +kernel) (by decide)
  · exact not_alike_of_status 200 401 (by decide +kernel)
      (by decide +kernel) (by decide)

end OasRs
