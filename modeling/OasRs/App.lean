import OasRs.Middleware

/-!
# The Application Builder

A model of route and layer registration: the `App` of `src/app.rs`, the `Group` of
`src/group.rs`, and the runtime that `build` freezes. Handlers have a type `H`,
middleware has a type `M`.

## Overview

- `App.addRoute`, `App.addRawRoute`, `App.addStaticRoute`, `App.routeLayer`, ..
- `Program`: what an application does with a builder, with nested groups
- `App.install`, `App.freeze`: the two halves of `build`
- `Runtime.dispatch`: the static table, then the trie, then the method
-/

namespace OasRs

open Lib

variable {H M : Type}

/-! ## Routes -/

/-- A typed handler: what the `Handler` trait tells about it. -/
structure Handler (H : Type) where
  call : H
  /-- whether there is a `zero_handler` -/
  zero : Bool
  needsBody : Bool
  needsParams : Bool
  needsCapture : Bool
  deriving Repr

/-- `HandlerKind` -/
inductive HandlerKind (H : Type) where
  | zero (call : H)
  | typedNoParams (call : H)
  | typed (call : H)
  | raw (call : H)
  | static (response : H)
  deriving Repr

/-- `CaptureMode` -/
inductive CaptureMode where
  | none
  | borrowed
  | materialized
  deriving DecidableEq, Repr

/-- `BodyMode` -/
inductive BodyMode where
  | none
  | buffered
  | incoming
  deriving DecidableEq, Repr

/-- `RoutePlan` -/
structure RoutePlan (H : Type) where
  handler : HandlerKind H
  bodyLimit : ℕ
  captureMode : CaptureMode
  bodyMode : BodyMode
  deriving Repr

/-- Set the limit of a buffered route; other routes have none. -/
def RoutePlan.withLimit (plan : RoutePlan H) (limit : ℕ) : RoutePlan H :=
  if plan.bodyMode = .buffered then { plan with bodyLimit := limit } else plan

/-- `RouteMetadata`, without the OpenAPI operation. -/
structure RouteMetadata where
  builtin : Bool
  method : Method
  template : Text
  segments : List Segment
  captureNames : Option (List Text)
  deriving DecidableEq, Repr

/-- `BuildError` -/
inductive BuildError where
  | routeConflict (path : Text) (method : Method)
  | invalidGeneratedPath (path : Text)
  | tooManyCaptures (path : Text) (captures max : ℕ)
  | unknownSecurityScheme (name : Text)
  | schemaNameConflict (name : Text)
  deriving DecidableEq, Repr

/-- `App`, without what only the OpenAPI document reads. -/
structure App (H M : Type) where
  maxBodySize : ℕ
  plans : List (RoutePlan H)
  metadata : List RouteMetadata
  staticRoutes : Table Text RouteSet
  dynamicRoutes : DynamicRouteTrie
  lastRoute : Option ℕ
  /-- the path of the document, once it is enabled -/
  openapiConfig : Option Text
  /-- the path of the Swagger page, once it is enabled -/
  swaggerConfig : Option Text
  routeError : Option BuildError
  middleware : List (ScopedLayer M)

namespace App

/-- `DEFAULT_MAX_BODY_SIZE` -/
def defaultMaxBodySize : ℕ := 1024 * 1024

/-- `App::new` -/
def new : App H M where
  maxBodySize := defaultMaxBodySize
  plans := []
  metadata := []
  staticRoutes := ∅
  dynamicRoutes := .empty
  lastRoute := none
  openapiConfig := none
  swaggerConfig := none
  routeError := none
  middleware := []

/-- The names of the captures of a template. -/
def captureNames (segments : List Segment) : List Text :=
  segments.filterMap fun
    | .capture name => some name
    | .static _ => none

/-- Whether a template has no captures. -/
def isStatic (segments : List Segment) : Bool :=
  segments.all fun
    | .static _ => true
    | .capture _ => false

/-- `assert!`: no route of this method and template. -/
def checkFresh (app : App H M) (method : Method) (template : Text) : Except Panic Unit :=
  check (app.metadata.all fun md => md.method != method || md.template != template) .duplicateRoute

/-- The route set of a static path, with one more route. -/
def insertStatic (app : App H M) (template : Text) (method : Method) (index : ℕ) :
    Except Panic (App H M) := do
  let routes ← ((app.staticRoutes.lookup template).getD .empty).insert method index
  return { app with staticRoutes := app.staticRoutes.insert template routes }

/-- Where a route goes: the static table if its template has no captures, else the trie. -/
def insertRoute (app : App H M) (template : Text) (segments : List Segment) (method : Method)
    (index : ℕ) : Except Panic (App H M) :=
  if isStatic segments then app.insertStatic template method index
  else do
    let dynamicRoutes ← app.dynamicRoutes.insert segments method index
    return { app with dynamicRoutes }

/-- `record_capture_limit_error`: the error of a template with too many captures. -/
def captureLimitError (template : Text) (segments : List Segment) : Option BuildError :=
  let captures := (captureNames segments).length
  if captures ≤ maxCaptureParams then none
  else some (.tooManyCaptures template captures maxCaptureParams)

/-- The tail that every registration shares: the tables, the plan, the metadata. -/
def push (app : App H M) (md : RouteMetadata) (plan : RoutePlan H) : Except Panic (App H M) := do
  let app ← app.insertRoute md.template md.segments md.method app.plans.length
  return { app with plans := app.plans ++ [plan], metadata := app.metadata ++ [md] }

/-- `push`, unless the template has too many captures: then the route is dropped and
    the first such error is kept for `build`. -/
def pushWithinLimit (app : App H M) (md : RouteMetadata) (plan : RoutePlan H) :
    Except Panic (App H M) :=
  match captureLimitError md.template md.segments with
  | some error => .ok { app with routeError := app.routeError.or (some error) }
  | none => do
    let index := app.plans.length
    let app ← app.push md plan
    return { app with lastRoute := some index }

/-- `add_route` -/
def addRoute (app : App H M) (method : Method) (path : Text) (handler : Handler H) :
    Except Panic (App H M) := do
  check (path.head? == some slash) (.routePath path)
  let template := normalizePath path
  app.checkFresh method template
  let segments ← parseTemplate template
  let names := if handler.needsParams then some (captureNames segments) else none
  let md : RouteMetadata :=
    { builtin := false, method, template, segments, captureNames := names }
  app.pushWithinLimit md
    { handler :=
        if handler.zero then .zero handler.call
        else if !handler.needsCapture then .typedNoParams handler.call
        else .typed handler.call
      bodyLimit := if handler.needsBody then app.maxBodySize else 0
      captureMode :=
        if names.isSome then .materialized
        else if !isStatic segments then .borrowed
        else .none
      bodyMode := if handler.needsBody then .buffered else .none }

/-- `add_raw_route` -/
def addRawRoute (app : App H M) (method : Method) (path : Text) (handler : H) :
    Except Panic (App H M) := do
  check (path.head? == some slash) (.routePath path)
  let template := normalizePath path
  app.checkFresh method template
  let segments ← parseTemplate template
  app.pushWithinLimit
    { builtin := false, method, template, segments, captureNames := none }
    { handler := .raw handler, bodyLimit := 0, captureMode := .none, bodyMode := .incoming }

/-- `add_static_route`. With no captures there is no capture limit to check. -/
def addStaticRoute (app : App H M) (path : Text) (response : H) : Except Panic (App H M) := do
  check (path.head? == some slash) (.routePath path)
  let template := normalizePath path
  let segments ← parseTemplate template
  check (isStatic segments) .staticCaptures
  app.checkFresh .get template
  let index := app.plans.length
  let app ← app.push
    { builtin := false, method := .get, template, segments, captureNames := none }
    { handler := .static response, bodyLimit := 0, captureMode := .none, bodyMode := .none }
  return { app with lastRoute := some index }

/-! ## Layers and limits -/

/-- `App::layer` -/
def layer (app : App H M) (middleware : M) : App H M :=
  { app with middleware := app.middleware ++ [{ scope := .all, layer := middleware }] }

/-- `App::layer_for` -/
def layerFor (app : App H M) (pathPrefix : Text) (middleware : M) : Except Panic (App H M) := do
  let segments ← Scope.parse pathPrefix
  return { app with
    middleware := app.middleware ++ [{ scope := .pathPrefix segments, layer := middleware }] }

/-- `App::route_layer` -/
def routeLayer (app : App H M) (middleware : M) : Except Panic (App H M) :=
  match app.lastRoute.bind fun index => app.metadata[index]? with
  | some md => do
    let segments ← Scope.parse md.template
    return { app with
      middleware := app.middleware ++ [{ scope := .route md.method segments, layer := middleware }] }
  | none => .ok app

/-- `encode_body_limit` -/
def encodeBodyLimit (limit : ℕ) : Except Panic ℕ := do
  check (0 < limit) .bodyLimitZero
  check (limit ≤ u32Max) .bodyLimitRange
  return limit

/-- `App::max_body_size` -/
def setMaxBodySize (app : App H M) (limit : ℕ) : Except Panic (App H M) := do
  let limit ← encodeBodyLimit limit
  return { app with
    maxBodySize := limit
    plans := app.plans.map fun plan => plan.withLimit limit }

/-- `App::body_limit` -/
def bodyLimit (app : App H M) (limit : ℕ) : Except Panic (App H M) := do
  let limit ← encodeBodyLimit limit
  match app.lastRoute with
  | some index =>
    return { app with plans := app.plans.modify index fun plan => plan.withLimit limit }
  | none => return app

/-- `App::openapi`, and the builder's `path` where one is given. -/
def openapi (app : App H M) (path : Option Text) : App H M :=
  { app with openapiConfig := some ((path.map normalizePath).getD
      (app.openapiConfig.getD (str "/openapi.json"))) }

/-- `App::swagger`, and the builder's `path` where one is given. -/
def swagger (app : App H M) (path : Option Text) : App H M :=
  { app with swaggerConfig := some ((path.map normalizePath).getD
      (app.swaggerConfig.getD (str "/docs"))) }

end App

/-! ## Programs -/

/-- A call on the builder (`App`, or a `Group` inside one). -/
inductive Call (H M : Type) where
  /-- `get`, `post`, `put`, `patch`, `delete`, `head` and `options` -/
  | route (method : Method) (path : Text) (handler : Handler H)
  | raw (method : Method) (path : Text) (handler : H)
  /-- `static_text` and `static_json` -/
  | static (path : Text) (response : H)
  | layer (middleware : M)
  | layerFor (path : Text) (middleware : M)
  | routeLayer (middleware : M)
  | maxBodySize (limit : ℕ)
  | bodyLimit (limit : ℕ)
  | openapi (path : Option Text)
  | swagger (path : Option Text)

/-- What is done with a builder: calls, and `group` with what its closure does. -/
inductive Program (H M : Type) where
  | done
  | call (c : Call H M) (rest : Program H M)
  | group (path : Text) (body rest : Program H M)

/-- The path that a call inside a group (or outside of any) uses. -/
def fullPath : Option Text → Text → Text
  | none, path => path
  | some groupPrefix, path => join groupPrefix path

/-- A call on the application, or on the group with the given prefix. -/
def Call.run (group : Option Text) (app : App H M) : Call H M → Except Panic (App H M)
  | .route method path handler => app.addRoute method (fullPath group path) handler
  | .raw method path handler => app.addRawRoute method (fullPath group path) handler
  | .static path response => app.addStaticRoute (fullPath group path) response
  | .layer middleware =>
    match group with
    | none => .ok (app.layer middleware)
    | some groupPrefix => app.layerFor groupPrefix middleware
  | .layerFor path middleware => app.layerFor (fullPath group path) middleware
  | .routeLayer middleware => app.routeLayer middleware
  | .maxBodySize limit => app.setMaxBodySize limit
  | .bodyLimit limit => app.bodyLimit limit
  | .openapi path => .ok (app.openapi path)
  | .swagger path => .ok (app.swagger path)

/-- A program, run on the application or on the group with the given prefix. -/
def Program.run (group : Option Text) : Program H M → App H M → Except Panic (App H M)
  | .done, app => .ok app
  | .call c rest, app => do
    let app ← c.run group app
    rest.run group app
  | .group path body rest, app => do
    let app ← body.run (some (fullPath group path)) app
    rest.run group app

/-! ## `build` -/

/-- How `build` stops. -/
inductive BuildStop where
  | panic (panic : Panic)
  | error (error : BuildError)
  deriving DecidableEq, Repr

namespace App

/-- A panic during `build`. -/
def orStop {α : Type} : Except Panic α → Except BuildStop α
  | .ok a => .ok a
  | .error panic => .error (.panic panic)

/-- `add_generated_static_route` -/
def addGeneratedStaticRoute (app : App H M) (path : Text) (response : H) :
    Except BuildStop (App H M) := do
  let segments ← orStop (parseTemplate path)
  if !isStatic segments then .error (.error (.invalidGeneratedPath path))
  else if ((app.staticRoutes.lookup path).bind fun routes => routes.route .get).isSome then
    .error (.error (.routeConflict path .get))
  else
    orStop (app.push
      { builtin := true, method := .get, template := path, segments, captureNames := none }
      { handler := .static response, bodyLimit := 0, captureMode := .none, bodyMode := .none })

/-- A generated route, where its page is enabled. -/
def installPage (app : App H M) (config : Option Text) (page : H) : Except BuildStop (App H M) :=
  match config with
  | some path => app.addGeneratedStaticRoute path page
  | none => .ok app

/-- `build` up to the runtime: the recorded error, what `validate_schemas` and
    `validate_security` report, and `install_generated_routes` with the two generated
    pages. -/
def install (app : App H M) (validation : Option BuildError) (document page : H) :
    Except BuildStop (App H M) :=
  match app.routeError.or validation with
  | some error => .error (.error error)
  | none => do
    let app ← app.installPage app.openapiConfig document
    app.installPage app.swaggerConfig page

end App

/-- Run a program on a new application and build it. -/
def Program.build (p : Program H M) (validation : Option BuildError) (document page : H) :
    Except BuildStop (App H M) := do
  let app ← App.orStop (p.run none App.new)
  app.install validation document page

/-! ## The runtime -/

/-- `RuntimeInner`: what dispatch reads. -/
structure Runtime (H M : Type) where
  plans : List (RoutePlan H)
  captureNames : List (Option (List Text))
  staticRoutes : Table Text RouteSet
  dynamicRoutes : DynamicRouteTrie
  middleware : List (ScopedLayer M)

/-- The runtime that `build` returns. -/
def App.freeze (app : App H M) : Runtime H M where
  plans := app.plans
  captureNames := app.metadata.map RouteMetadata.captureNames
  staticRoutes := app.staticRoutes
  dynamicRoutes := app.dynamicRoutes
  middleware := app.middleware

/-- How dispatch answers a request. -/
inductive Outcome where
  /-- the plan to run; `captures` is absent for `StaticCaptures` -/
  | route (index : RouteId) (captures : Option CaptureSet)
  /-- the automatic `204` -/
  | options (allow : Text)
  /-- `405` -/
  | methodNotAllowed (allow : Text)
  /-- `404` -/
  | notFound
  deriving DecidableEq

/-- The answer once the path is matched. -/
def Outcome.resolve (method : Method) (routes : RouteSet) (captures : Option CaptureSet) : Outcome :=
  match resolveRouteSet method routes with
  | .ok index => .route index captures
  | .error (.options allow) => .options allow
  | .error (.methodNotAllowed allow) => .methodNotAllowed allow

/-- The dispatch of `prepare_direct` and of `RuntimeRef::handle`: the static table is
    looked up first, by the normalized path. -/
def Runtime.dispatch (runtime : Runtime H M) (method : Method) (path : Text) : Outcome :=
  let path := normalizeRequestPath path
  match runtime.staticRoutes.lookup path with
  | some routes => .resolve method routes none
  | none =>
    match runtime.dynamicRoutes.find path with
    | some (routes, captures) => .resolve method routes (some captures)
    | none => .notFound

end OasRs
