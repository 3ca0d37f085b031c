import OasRs.Extract

/-!
# The OpenAPI Document

What registration records for the document, the checks of `build`, and
`App::openapi_document` (`src/app.rs`, `src/openapi`, `src/multipart.rs`). A builder with
documentation is an `AppDoc`: the `App` of routes and layers beside one `Operation` for each
route, the settings and the schema registry.

The document is a structure and not its JSON text; the fields have the names of its keys.

## Overview

- `Operation`, `Settings`, `AppDoc`
- `DocCall.run`, `DocProgram.run`: the calls that register and describe routes
- `AppDoc.document`: `openapi_document`
- `AppDoc.validateSchemas`, `AppDoc.validateSecurity`, `DocProgram.build`
-/

namespace OasRs

open Lib Schema

variable {ι H M : Type}

/-! ## What is recorded -/

/-- `Operation` -/
structure Operation where
  tag : Option Text
  summary : Option Text
  operationId : Option Text
  responseStatus : ℕ
  responseSchema : Option Json
  request : OpenApiRequest
  /-- `none` inherits the default of the document; `some []` is public -/
  security : Option (List (List Text))
  problemResponses : List ℕ
  deriving DecidableEq

/-- The operation of a route that was just registered. -/
def Operation.new (responseStatus : ℕ) (responseSchema : Option Json) (request : OpenApiRequest) :
    Operation where
  tag := none
  summary := none
  operationId := none
  responseStatus
  responseSchema
  request
  security := none
  problemResponses := []

/-- `ApiKeyLocation` -/
inductive ApiKeyLocation where
  | header
  | query
  | cookie
  deriving DecidableEq, Repr

/-- `SecurityScheme` -/
inductive SecurityScheme where
  | http (scheme : Text) (bearerFormat : Option Text)
  | apiKey (location : ApiKeyLocation) (name : Text)
  deriving DecidableEq, Repr

/-- `OpenApiConfig`, without its path -/
structure Settings where
  title : Text
  version : Text
  description : Option Text
  securitySchemes : List (Text × SecurityScheme)
  defaultSecurity : List (List Text)
  documentErrors : Bool
  deriving DecidableEq

namespace Settings

/-- The configuration that `App::openapi` begins with. -/
def initial : Settings where
  title := str "oas-rs"
  version := str "0.10.0"
  description := none
  securitySchemes := []
  defaultSecurity := []
  documentErrors := true

/-- `security_scheme`: a scheme of this name is replaced. -/
def declare (settings : Settings) (name : Text) (scheme : SecurityScheme) : Settings :=
  { settings with
    securitySchemes :=
      if settings.securitySchemes.any fun entry => entry.1 == name then
        settings.securitySchemes.replaceF fun entry =>
          if entry.1 = name then some (name, scheme) else none
      else settings.securitySchemes ++ [(name, scheme)] }

end Settings

/-- A setter of `OpenApiOptions`. -/
inductive OpenApiOption where
  | path (path : Text)
  | title (title : Text)
  | version (version : Text)
  | description (description : Text)
  | documentErrors (enabled : Bool)
  /-- `security_scheme`, `bearer_auth` and `api_key` -/
  | securityScheme (name : Text) (scheme : SecurityScheme)
  | defaultSecurity (schemes : List Text)

/-- What a setter does to the settings. The path is kept with the routes. -/
def OpenApiOption.set (settings : Settings) : OpenApiOption → Settings
  | .path _ => settings
  | .title text => { settings with title := text }
  | .version text => { settings with version := text }
  | .description text => { settings with description := some text }
  | .documentErrors enabled => { settings with documentErrors := enabled }
  | .securityScheme name scheme => settings.declare name scheme
  | .defaultSecurity schemes =>
    { settings with defaultSecurity := settings.defaultSecurity ++ [schemes] }

/-- The path among the options. -/
def OpenApiOption.path? : OpenApiOption → Option Text
  | .path text => some text
  | _ => none

/-- `App`, with what only the OpenAPI document reads. -/
structure AppDoc (ι H M : Type) where
  app : App H M
  /-- `metadata[index].operation` -/
  operations : List Operation
  /-- the configuration, once the document is enabled -/
  settings : Settings
  schemas : SchemaRegistry ι

/-! ## Multipart fields -/

/-- `MultipartField` -/
structure MultipartField where
  name : Text
  file : Bool
  required : Bool
  contentType : Option Text
  description : Option Text

namespace MultipartField

/-- The schema of a field. -/
def schema (field : MultipartField) : Json :=
  .object ([("type", .str "string")] ++ (if field.file then [("format", .str "binary")] else []) ++
    (field.description.map fun text => ("description", Json.str (spell text))).toList)

/-- The body that `multipart_fields` documents. -/
def body (fields : List MultipartField) : RequestBody where
  required := true
  mediaType := "multipart/form-data"
  schema :=
    let required := (fields.filter MultipartField.required).map fun field =>
      Json.str (spell field.name)
    .object ([("type", .str "object"),
      ("properties", .object (fields.map fun field => (spell field.name, field.schema)))] ++
      if required.isEmpty then [] else [("required", .arr required)])
  encoding := Entries.of (fields.filterMap fun field => field.contentType.map fun contentType =>
    (spell field.name, .object [("contentType", .str (spell contentType))]))

end MultipartField

/-! ## Calls -/

/-- How a call on the builder stops. -/
inductive Halt where
  | panic (panic : Panic)
  /-- "duplicate operation id" -/
  | duplicateOperationId
  /-- "problem_responses takes an error status (4xx or 5xx), not {status}" -/
  | notAnError (status : ℕ)
  /-- "multipart field `{name}` is documented twice" -/
  | fieldTwice
  /-- "a handler cannot take more than one Path<T> extractor .." -/
  | manyPaths
  /-- the generation of a schema does not return -/
  | divergence
  deriving DecidableEq, Repr

/-- `assert!` -/
def require (condition : Bool) (halt : Halt) : Except Halt Unit :=
  if condition then .ok () else .error halt

@[simp] theorem require_eq_ok {condition : Bool} {halt : Halt} {u : Unit} :
    require condition halt = .ok u ↔ condition = true := by
  unfold require
  split <;> simp_all

/-- A panic of the registration of routes. -/
def orHalt {α : Type} : Except Panic α → Except Halt α
  | .ok a => .ok a
  | .error panic => .error (.panic panic)

@[simp] theorem orHalt_eq_ok {α : Type} {x : Except Panic α} {a : α} :
    orHalt x = .ok a ↔ x = .ok a := by
  cases x <;> simp [orHalt]

/-- Run the generation of schemas. -/
def generate {α : Type} (gen : Gen ι α) (schemas : SchemaRegistry ι) :
    Except Halt (α × SchemaRegistry ι) :=
  match gen schemas with
  | some result => .ok result
  | none => .error .divergence

@[simp] theorem generate_eq_ok {α : Type} {gen : Gen ι α} {schemas : SchemaRegistry ι}
    {result : α × SchemaRegistry ι} : generate gen schemas = .ok result ↔ gen schemas = some result := by
  unfold generate
  cases gen schemas <;> simp

/-- A call on the builder (`App`, or a `Group` inside one). -/
inductive DocCall (ι H M : Type) where
  /-- `get`, `post`, `put`, `patch`, `delete`, `head` and `options` -/
  | route (method : Method) (path : Text) (signature : Signature ι) (handler : H)
  | raw (method : Method) (path : Text) (response : ResponseType ι) (handler : H)
  /-- `static_text` and `static_json` -/
  | static (path : Text) (response : H)
  | layer (middleware : M)
  | layerFor (path : Text) (middleware : M)
  | routeLayer (middleware : M)
  | maxBodySize (limit : ℕ)
  | bodyLimit (limit : ℕ)
  /-- `openapi`, with a setter of its options or without -/
  | openapi (option : Option OpenApiOption)
  | swagger (path : Option Text)
  | tag (tag : Text)
  | summary (summary : Text)
  | operationId (operationId : Text)
  | security (schemes : List Text)
  | isPublic
  | problemResponses (statuses : List ℕ)
  | multipartFields (fields : List MultipartField)

/-- The call, as far as routes and layers are concerned. -/
def DocCall.erase : DocCall ι H M → Option (Call H M)
  | .route method path signature handler => some (.route method path (signature.handler handler))
  | .raw method path _ handler => some (.raw method path handler)
  | .static path response => some (.static path response)
  | .layer middleware => some (.layer middleware)
  | .layerFor path middleware => some (.layerFor path middleware)
  | .routeLayer middleware => some (.routeLayer middleware)
  | .maxBodySize limit => some (.maxBodySize limit)
  | .bodyLimit limit => some (.bodyLimit limit)
  | .openapi option => some (.openapi (option.bind OpenApiOption.path?))
  | .swagger path => some (.swagger path)
  | .tag _ | .summary _ | .operationId _ | .security _ | .isPublic | .problemResponses _
  | .multipartFields _ => none

namespace AppDoc

variable [DecidableEq ι] (named : Named ι)

/-- `App::new` -/
def new : AppDoc ι H M where
  app := .new
  operations := []
  settings := .initial
  schemas := .document

/-- Change the operation of the route registered last. -/
def describe (doc : AppDoc ι H M) (f : Operation → Operation) : AppDoc ι H M :=
  match doc.app.lastRoute with
  | some index => { doc with operations := doc.operations.modify index f }
  | none => doc

/-- The end of a registration: the operation, unless the route was dropped because of its
    captures. -/
def record (doc : AppDoc ι H M) (app : App H M) (response : ResponseType ι)
    (request : Gen ι OpenApiRequest) : Except Halt (AppDoc ι H M) :=
  if app.metadata.length = doc.app.metadata.length then .ok { doc with app }
  else do
    let (schema, schemas) ← generate (response.responseSchema named) doc.schemas
    let (request, schemas) ← generate request schemas
    -- `single_path_extractor`
    require (request.pathSchemas.length ≤ 1) .manyPaths
    return { app
             operations := doc.operations ++ [.new response.statusCode schema request]
             settings := doc.settings
             schemas }

end AppDoc

section Run

variable [DecidableEq ι] (named : Named ι)

/-- A call on the application, or on the group with the given prefix. -/
def DocCall.run (group : Option Text) (doc : AppDoc ι H M) : DocCall ι H M → Except Halt (AppDoc ι H M)
  | .route method path signature handler => do
    let app ← orHalt (doc.app.addRoute method (fullPath group path) (signature.handler handler))
    doc.record named app signature.response (signature.openapiRequest named)
  | .raw method path response handler => do
    let app ← orHalt (doc.app.addRawRoute method (fullPath group path) handler)
    doc.record named app response (pure .empty)
  | .static path response => do
    let app ← orHalt (doc.app.addStaticRoute (fullPath group path) response)
    -- a static response has no schema, and the status of a text
    doc.record named app .text (pure .empty)
  | .openapi option =>
    .ok { doc with
      app := doc.app.openapi (option.bind OpenApiOption.path?)
      settings := (option.map (OpenApiOption.set doc.settings)).getD doc.settings }
  | .tag text => .ok (doc.describe fun operation => { operation with tag := some text })
  | .summary text => .ok (doc.describe fun operation => { operation with summary := some text })
  | .operationId id => do
    require (doc.operations.all fun operation => operation.operationId != some id)
      .duplicateOperationId
    return doc.describe fun operation => { operation with operationId := some id }
  | .security schemes => .ok (doc.describe fun operation =>
      { operation with security := some (operation.security.getD [] ++ [schemes]) })
  | .isPublic => .ok (doc.describe fun operation => { operation with security := some [] })
  | .problemResponses statuses => do
    statuses.forM fun status => require (400 ≤ status && status < 600) (.notAnError status)
    return doc.describe fun operation => { operation with
      problemResponses := statuses.foldl
        (fun declared status => if status ∈ declared then declared else declared ++ [status])
        operation.problemResponses }
  | .multipartFields fields =>
    match doc.app.lastRoute with
    | none => .ok doc
    | some _ => do
      require (decide (fields.map MultipartField.name).Nodup) .fieldTwice
      return doc.describe fun operation => { operation with
        request := { operation.request with requestBody := some (MultipartField.body fields) } }
  | c => do
    -- what is left is about layers, limits and the Swagger page
    match c.erase with
    | some c => return { doc with app := ← orHalt (c.run group doc.app) }
    | none => return doc

/-- What is done with a builder: calls, and `group` with what its closure does. -/
inductive DocProgram (ι H M : Type) where
  | done
  | call (c : DocCall ι H M) (rest : DocProgram ι H M)
  | group (path : Text) (body rest : DocProgram ι H M)

/-- The program, as far as routes and layers are concerned. -/
def DocProgram.erase : DocProgram ι H M → Program H M
  | .done => .done
  | .call c rest =>
    match c.erase with
    | some c => .call c rest.erase
    | none => rest.erase
  | .group path body rest => .group path body.erase rest.erase

/-- A program, run on the application or on the group with the given prefix. -/
def DocProgram.run (group : Option Text) : DocProgram ι H M → AppDoc ι H M →
    Except Halt (AppDoc ι H M)
  | .done, doc => .ok doc
  | .call c rest, doc => do
    let doc ← c.run named group doc
    rest.run group doc
  | .group path body rest, doc => do
    let doc ← body.run (some (fullPath group path)) doc
    rest.run group doc

end Run

/-! ## The document -/

/-- A response of an operation: its description, and the schema of its JSON body. -/
structure ResponseObject where
  description : String
  schema : Option Json
  deriving DecidableEq

/-- An operation object. -/
structure OperationObject where
  tag : Option Text
  summary : Option Text
  operationId : Option Text
  security : Option (List (List Text))
  parameters : List Parameter
  requestBody : Option RequestBody
  responses : Table ℕ ResponseObject
  deriving DecidableEq

/-- The OpenAPI document. -/
structure Document where
  title : Text
  version : Text
  description : Option Text
  /-- by path, then by method -/
  paths : Table Text (Table Text OperationObject)
  /-- `components.schemas` -/
  schemas : Table String Json
  /-- `components.securitySchemes` -/
  securitySchemes : List (Text × SecurityScheme)
  security : List (List Text)

/-- `StatusCode::canonical_reason`, for error statuses -/
def canonicalReason (status : ℕ) : Option String :=
  ([(400, "Bad Request"), (401, "Unauthorized"), (402, "Payment Required"), (403, "Forbidden"),
    (404, "Not Found"), (405, "Method Not Allowed"), (406, "Not Acceptable"),
    (407, "Proxy Authentication Required"), (408, "Request Timeout"), (409, "Conflict"),
    (410, "Gone"), (411, "Length Required"), (412, "Precondition Failed"),
    (413, "Payload Too Large"), (414, "URI Too Long"), (415, "Unsupported Media Type"),
    (416, "Range Not Satisfiable"), (417, "Expectation Failed"), (418, "I'm a teapot"),
    (421, "Misdirected Request"), (422, "Unprocessable Entity"), (423, "Locked"),
    (424, "Failed Dependency"), (425, "Too Early"), (426, "Upgrade Required"),
    (428, "Precondition Required"),
    (429, "Too Many Requests"), (431, "Request Header Fields Too Large"),
    (451, "Unavailable For Legal Reasons"), (500, "Internal Server Error"),
    (501, "Not Implemented"), (502, "Bad Gateway"), (503, "Service Unavailable"),
    (504, "Gateway Timeout"), (505, "HTTP Version Not Supported"),
    (506, "Variant Also Negotiates"), (507, "Insufficient Storage"), (508, "Loop Detected"),
    (510, "Not Extended"), (511, "Network Authentication Required")] : List (ℕ × String)).lookup
    status

/-- The description of a successful response. -/
def successDescription : ℕ → String
  | 204 => "No Content"
  | 304 => "Not Modified"
  | 201 => "Created"
  | 101 => "Switching Protocols"
  | _ => "Success"

/-- `problem_schema` -/
def problemSchema : Json :=
  .object
    [("type", .str "object"),
      ("required", .arr [.str "type", .str "title", .str "status", .str "detail"]),
      ("properties", .object
        [("type", .object [("type", .str "string"), ("examples", .arr [.str "about:blank"])]),
          ("title", .object [("type", .str "string")]),
          ("status", .object [("type", .str "integer")]),
          ("detail", .object [("type", .str "string")])])]

/-- `framework_errors` -/
def frameworkErrors (operation : Operation) (bodyMode : BodyMode) (defaultSecured : Bool) : List ℕ :=
  let request := operation.request
  let parsedByFramework := bodyMode != .incoming
  let secured :=
    match operation.security with
    | some requirements => !requirements.isEmpty
    | none => defaultSecured
  (if parsedByFramework && (!request.parameters.isEmpty || !request.pathSchemas.isEmpty ||
      request.requestBody.isSome) then [400] else []) ++
    (if parsedByFramework && request.requestBody.isSome then
      (if bodyMode = .buffered then [408] else []) ++ [413, 415] else []) ++
    if secured then [401] else []

/-- The parameters of the captures, with the schema of the extractor at the same place. -/
def pathParameters (segments : List Segment) (pathSchemas : List Json) : List Parameter :=
  (App.captureNames segments).zipIdx.map fun (name, index) =>
    { location := .path
      name
      required := true
      schema := pathSchemas[index]?.getD (.object [("type", .str "string")]) }

/-- A route with its operation. -/
structure Route (H : Type) where
  md : RouteMetadata
  operation : Operation
  plan : RoutePlan H

namespace AppDoc

/-- `openapi_config` -/
def config (doc : AppDoc ι H M) : Option Settings := doc.app.openapiConfig.map fun _ => doc.settings

/-- Whether routes document the errors of the framework. -/
def documentsErrors (doc : AppDoc ι H M) : Bool := doc.config.all Settings.documentErrors

/-- Whether there is a document-wide security requirement. -/
def defaultSecured (doc : AppDoc ι H M) : Bool :=
  doc.config.any fun config => !config.defaultSecurity.isEmpty

/-- The routes with their operations. -/
def allRoutes (doc : AppDoc ι H M) : List (Route H) :=
  (doc.app.metadata.zip (doc.operations.zip doc.app.plans)).map fun (md, operation, plan) =>
    { md, operation, plan }

/-- The routes that are not generated. -/
def routes (doc : AppDoc ι H M) : List (Route H) :=
  doc.allRoutes.filter fun route => !route.md.builtin

variable (doc : AppDoc ι H M)

/-- The error responses that are listed for a route. -/
def errors (route : Route H) : List ℕ :=
  (if doc.documentsErrors then frameworkErrors route.operation route.plan.bodyMode doc.defaultSecured
    else []) ++ route.operation.problemResponses

/-- The responses of a route. -/
def responses (route : Route H) : Table ℕ ResponseObject :=
  (doc.errors route).foldl
    (fun responses code => responses.insert code
      { description := (canonicalReason code).getD "Error", schema := some (Schema.reference "Problem") })
    (AList.insert route.operation.responseStatus
      { description := successDescription route.operation.responseStatus
        schema := route.operation.responseSchema } ∅)

/-- The operation object of a route. -/
def operationObject (route : Route H) : OperationObject where
  tag := route.operation.tag
  summary := route.operation.summary
  operationId := route.operation.operationId
  security := route.operation.security
  parameters := route.operation.request.parameters ++
    pathParameters route.md.segments route.operation.request.pathSchemas
  requestBody := route.operation.request.requestBody
  responses := doc.responses route

/-- The key of a method among those of a path. -/
def methodKey (method : Method) : Text := lowercase method.asStr

/-- Add the operation of a route. -/
def insertPath (paths : Table Text (Table Text OperationObject)) (route : Route H) :
    Table Text (Table Text OperationObject) :=
  paths.insert route.md.template
    (((paths.lookup route.md.template).getD ∅).insert (methodKey route.md.method)
      (doc.operationObject route))

/-- `openapi_document` -/
def document : Document where
  title := (doc.config.getD .initial).title
  version := (doc.config.getD .initial).version
  description := doc.config.bind Settings.description
  paths := doc.routes.foldl doc.insertPath ∅
  schemas :=
    if doc.routes.any (fun route => !(doc.errors route).isEmpty) &&
        ((doc.schemas.definitions.lookup "Problem").isNone)
    then doc.schemas.definitions.insert "Problem" problemSchema else doc.schemas.definitions
  securitySchemes := (doc.config.getD .initial).securitySchemes
  security := (doc.config.getD .initial).defaultSecurity

/-! ## `build` -/

/-- `validate_schemas` -/
def validateSchemas : Option BuildError :=
  match doc.schemas.conflicts with
  | name :: _ => some (.schemaNameConflict (str name))
  | [] =>
    if (doc.schemas.definitions.lookup "Problem").isSome && doc.routes.any (fun route =>
        !route.operation.problemResponses.isEmpty || doc.documentsErrors &&
          !(frameworkErrors route.operation route.plan.bodyMode doc.defaultSecured).isEmpty)
    then some (.schemaNameConflict (str "Problem")) else none

/-- `validate_security` -/
def validateSecurity : Option BuildError :=
  doc.config.bind fun config =>
    let declared (name : Text) : Bool := config.securitySchemes.any fun entry => entry.1 == name
    let groups := config.defaultSecurity ++
      (doc.routes.filterMap fun route => route.operation.security).flatten
    (groups.flatten.find? fun name => !declared name).map .unknownSecurityScheme

/-- `build`, where `render` serves the document and `page` the Swagger page. -/
def install (render : Document → H) (page : H) : Except BuildStop (App H M) :=
  doc.app.install (doc.validateSchemas.or doc.validateSecurity) (render doc.document) page

end AppDoc

/-- How a program stops, or its `build`. -/
inductive DocStop where
  | halt (halt : Halt)
  | build (stop : BuildStop)
  deriving DecidableEq, Repr

/-- Run a program on a new application and build it: the application that was described, and
    what is built from it. -/
def DocProgram.build [DecidableEq ι] (named : Named ι) (p : DocProgram ι H M)
    (render : Document → H) (page : H) : Except DocStop (AppDoc ι H M × App H M) :=
  match p.run named none .new with
  | .error halt => .error (.halt halt)
  | .ok doc =>
    match doc.install render page with
    | .error stop => .error (.build stop)
    | .ok built => .ok (doc, built)

end OasRs
