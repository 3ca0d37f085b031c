import OasRs.Runtime
import OasRs.Derive

/-!
# Extractors and Their Metadata

What a handler's signature tells the OpenAPI document: the `openapi_request` of the extractors
(`src/extract/mod.rs`, `src/web.rs`, `src/multipart.rs`), the query parameters that the derive
generates for a struct (`oas-rs-macros`), and the metadata of the response types
(`src/response.rs`).

## Overview

- `QueryStruct.parameters`, `queryParametersFromSchema`, `dedupParameters`
- `Extractor.openapiRequest`, `OpenApiRequest.merge`
- `ResponseType.statusCode`, `ResponseType.responseSchema`
- `Signature.handler`, `Signature.openapiRequest`
-/

namespace OasRs

open Schema

variable {ι : Type}

/-! ## Parameters -/

/-- `in` of a parameter -/
inductive Location where
  | query
  | header
  | path
  deriving DecidableEq, Repr

/-- A parameter of an operation. -/
structure Parameter where
  location : Location
  name : Text
  required : Bool
  schema : Json
  deriving DecidableEq

namespace Parameter

/-- What tells parameters apart. -/
def key (parameter : Parameter) : Location × Text := (parameter.location, parameter.name)

/-- The parameter of a query field. -/
def query (name : Text) (required : Bool) (schema : Json) : Parameter :=
  { location := .query, name, required, schema }

end Parameter

/-- The strings of an array. -/
def stringsOf : Option Json → List String
  | some (.arr items) => items.filterMap fun
    | .str name => some name
    | _ => none
  | _ => []

/-- The properties of an object schema, as parameters. -/
def propertyParameters (optional : Bool) (entries : Entries) : List Parameter :=
  let required := stringsOf (Entries.get "required" entries)
  match Entries.get "properties" entries with
  | some (.obj properties) => properties.map fun (name, property) =>
    .query (str name) (!optional && required.contains name) property
  | _ => []

mutual

/-- `query_parameters_from_schema` -/
def queryParametersFromSchema (optional : Bool) : Json → List Parameter
  | .obj entries => propertyParameters optional entries ++
      partsUnder "allOf" optional entries ++ partsUnder "anyOf" true entries
  | _ => []

/-- The parameters of the schemas in the array under a key. -/
def partsUnder (key : String) (optional : Bool) : List (String × Json) → List Parameter
  | [] => []
  | (k, .arr parts) :: entries =>
    if k = key then partsParameters optional parts else partsUnder key optional entries
  | (k, _) :: entries => if k = key then [] else partsUnder key optional entries

def partsParameters (optional : Bool) : List Json → List Parameter
  | [] => []
  | part :: parts => queryParametersFromSchema optional part ++ partsParameters optional parts

end

/-- The loop of `dedup_parameters`, with the names seen so far. -/
def dedupFrom (seen : List Text) : List Parameter → List Parameter
  | [] => []
  | parameter :: parameters =>
    if parameter.name ∈ seen then dedupFrom seen parameters
    else parameter :: dedupFrom (parameter.name :: seen) parameters

/-- `dedup_parameters` -/
def dedupParameters (parameters : List Parameter) : List Parameter := dedupFrom [] parameters

/-! ### Query structs -/

/-- A struct that derives `ApiSchema`, as a query. -/
inductive QueryStruct (ι : Type) where
  | struct (input : StructInput ι)
  /-- `#[serde(transparent)]`, with the type of the field -/
  | transparent (type : RustType ι)

namespace QueryStruct

variable [DecidableEq ι]

/-- The parameters that a flattened field adds. -/
def flattenedParameters (named : Named ι) (field : StructField ι) : Option (List Parameter) :=
  if field.flatten && !field.skipped then
    (field.type.optionInner.1.schema named).map
      (queryParametersFromSchema field.type.optionInner.2)
  else some []

/-- The parameter of a field itself. -/
def ownParameters (named : Named ι) (containerDefault : Bool) (field : StructField ι) :
    Option (List Parameter) :=
  if field.skipped || field.flatten || field.skipDeserializing then some []
  else (field.type.optionInner.1.schema named).map fun schema =>
    [.query (str field.wire) (!field.type.optionInner.2 && !field.default && !containerDefault)
      schema]

/-- The parameters that a field adds. -/
def fieldParameters (named : Named ι) (containerDefault : Bool) (field : StructField ι) :
    Option (List Parameter) := do
  let flattened ← flattenedParameters named field
  let own ← ownParameters named containerDefault field
  return flattened ++ own

/-- The generated `OpenApiQuery::parameters` -/
def parameters (named : Named ι) : QueryStruct ι → Option (List Parameter)
  | .transparent _ => some []
  | .struct input =>
    (input.fields.mapM (fieldParameters named input.default)).map fun parameters =>
      dedupParameters parameters.flatten

end QueryStruct

/-! ## Requests -/

/-- A request body: the media type with its schema and its `encoding`. -/
structure RequestBody where
  required : Bool
  mediaType : String
  schema : Json
  encoding : Entries := []
  deriving DecidableEq

/-- `OpenApiRequest` -/
structure OpenApiRequest where
  pathSchemas : List Json
  parameters : List Parameter
  requestBody : Option RequestBody
  deriving DecidableEq

namespace OpenApiRequest

/-- `OpenApiRequest::default` -/
def empty : OpenApiRequest := { pathSchemas := [], parameters := [], requestBody := none }

/-- `OpenApiRequest::merge` -/
def merge (request other : OpenApiRequest) : OpenApiRequest where
  pathSchemas := request.pathSchemas ++ other.pathSchemas
  parameters := request.parameters ++ other.parameters
  requestBody := request.requestBody.or other.requestBody

/-- What `Option` makes of the metadata of an extractor: nothing is required. -/
def relax (request : OpenApiRequest) : OpenApiRequest where
  pathSchemas := request.pathSchemas
  parameters := request.parameters.map fun parameter => { parameter with required := false }
  requestBody := request.requestBody.map fun body => { body with required := false }

end OpenApiRequest

/-! ## Extractors -/

/-- The library's extractors. -/
inductive Extractor (ι : Type) where
  | state
  | path (type : RustType ι)
  | params
  | query (type : QueryStruct ι)
  /-- `Header<T>` where `T::NAME` is the name -/
  | header (name : Text)
  | json (type : RustType ι)
  | form (type : QueryStruct ι)
  | multipart
  | cookies
  | headers
  | connectInfo
  | option (inner : Extractor ι)

/-- The string with these bytes. -/
def spell (text : Text) : String := (String.fromUTF8? text.toByteArray).getD ""

/-- The schema of a form, from the parameters of its struct. -/
def formSchema (parameters : List Parameter) : Json :=
  let properties := parameters.foldl
    (fun entries parameter => Entries.insert (spell parameter.name) parameter.schema entries) []
  let required := (parameters.filter Parameter.required).map fun parameter =>
    Json.str (spell parameter.name)
  .object ([("type", .str "object"), ("properties", .obj properties)] ++
    if required.isEmpty then [] else [("required", .arr required)])

/-- The schema of a multipart body. -/
def multipartSchema : Json :=
  .object [("type", .str "object"),
    ("additionalProperties", .object [("type", .str "string"), ("format", .str "binary")])]

namespace Extractor

/-- `NEEDS_PARAMS`, `NEEDS_CAPTURE` and `NEEDS_BODY` -/
def needs : Extractor ι → Needs
  | .path _ => { params := false, capture := true, body := false }
  | .params => { params := true, capture := true, body := false }
  | .json _ | .form _ | .multipart => { params := false, capture := false, body := true }
  | .state | .query _ | .header _ | .cookies | .headers | .connectInfo =>
    { params := false, capture := false, body := false }
  | .option inner => inner.needs

variable [DecidableEq ι]

/-- `openapi_request_with` -/
def openapiRequest (named : Named ι) : Extractor ι → Gen ι OpenApiRequest
  | .path type => do
    let schema ← StateT.lift (type.schema named)
    return { OpenApiRequest.empty with pathSchemas := [schema] }
  | .query type => do
    let parameters ← StateT.lift (type.parameters named)
    return { OpenApiRequest.empty with parameters }
  | .header name => return { OpenApiRequest.empty with
      parameters := [{ location := .header, name, required := true,
                       schema := .object [("type", .str "string")] }] }
  | .json type => do
    let schema ← type.schemaWith named true
    return { OpenApiRequest.empty with
      requestBody := some { required := true, mediaType := "application/json", schema } }
  | .form type => do
    let parameters ← StateT.lift (type.parameters named)
    return { OpenApiRequest.empty with
      requestBody := some { required := true, mediaType := "application/x-www-form-urlencoded",
                            schema := formSchema parameters } }
  | .multipart => return { OpenApiRequest.empty with
      requestBody := some { required := true, mediaType := "multipart/form-data",
                            schema := multipartSchema } }
  | .state | .params | .cookies | .headers | .connectInfo => return .empty
  | .option inner => do return (← inner.openapiRequest named).relax

/-- The path schemas among the metadata. They do not depend on the registry. -/
def pathSchemas (named : Named ι) : Extractor ι → Option (List Json)
  | .path type => (type.schema named).map fun schema => [schema]
  | .option inner => inner.pathSchemas named
  | _ => some []

/-- The parameters among the metadata. They do not depend on the registry. -/
def parameters (named : Named ι) : Extractor ι → Option (List Parameter)
  | .query type => type.parameters named
  | .header name => some [{ location := .header, name, required := true,
                            schema := .object [("type", .str "string")] }]
  | .option inner => (inner.parameters named).map fun parameters =>
    parameters.map fun parameter => { parameter with required := false }
  | _ => some []

end Extractor

/-! ## Responses -/

/-- The library's response types. -/
inductive ResponseType (ι : Type) where
  /-- `&'static str` and `String` -/
  | text
  | bytes
  | jsonBytes
  | unit
  | noContent
  | notModified
  | json (type : RustType ι)
  | created (type : RustType ι)
  | stream
  | sse
  | html
  | redirect
  | webSocket
  /-- `Result<T, ApiError>` -/
  | result (inner : ResponseType ι)
  | headered (inner : ResponseType ι)

namespace ResponseType

/-- `ResponseMetadata::status_code` -/
def statusCode : ResponseType ι → ℕ
  | .text | .bytes | .jsonBytes | .json _ | .stream | .sse | .html => 200
  | .unit | .noContent => 204
  | .notModified => 304
  | .created _ => 201
  | .redirect => 302
  | .webSocket => 101
  | .result inner => inner.statusCode
  | .headered inner => inner.statusCode

/-- The status of a response is no error. -/
theorem statusCode_lt (response : ResponseType ι) : response.statusCode < 400 := by
  induction response with
  | result inner ih | headered inner ih => exact ih
  | text | bytes | jsonBytes | unit | noContent | notModified | json | created | stream | sse | html
  | redirect | webSocket => simp [statusCode]

/-- `ResponseMetadata::response_schema_with` -/
def responseSchema (named : Named ι) : ResponseType ι → Gen ι (Option Json)
  | .json type => do return some (← type.schemaWith named false)
  | .created type => do return some (← type.schemaWith named false)
  | .result inner => inner.responseSchema named
  | .headered inner => inner.responseSchema named
  | .text | .bytes | .jsonBytes | .unit | .noContent | .notModified | .stream | .sse | .html
  | .redirect | .webSocket => return none

end ResponseType

/-! ## Signatures -/

/-- The signature of a handler. -/
structure Signature (ι : Type) where
  extractors : List (Extractor ι)
  response : ResponseType ι

namespace Signature

/-- The handler with a signature. -/
def handler {H : Type} (signature : Signature ι) (call : H) : Handler H :=
  .of (signature.extractors.map Extractor.needs) call

variable [DecidableEq ι]

/-- `Handler::openapi_request_with`: the metadata of the extractors, merged in order. -/
def openapiRequest (named : Named ι) (signature : Signature ι) : Gen ι OpenApiRequest :=
  signature.extractors.foldlM
    (fun request extractor => do return request.merge (← extractor.openapiRequest named)) .empty

/-- The path schemas of the extractors. -/
def pathSchemas (named : Named ι) (signature : Signature ι) : Option (List Json) :=
  (signature.extractors.mapM (Extractor.pathSchemas named)).map List.flatten

/-- The parameters that the extractors declare. -/
def parameters (named : Named ι) (signature : Signature ι) : Option (List Parameter) :=
  (signature.extractors.mapM (Extractor.parameters named)).map List.flatten

end Signature

/-! ## The parts of the metadata -/

section Metadata

variable [DecidableEq ι] {named : Named ι} {schemas schemas' : SchemaRegistry ι}
  {request : OpenApiRequest}

/-- What the metadata of an extractor consists of. -/
theorem Extractor.openapiRequest_spec {extractor : Extractor ι}
    (h : extractor.openapiRequest named schemas = some (request, schemas')) :
    extractor.pathSchemas named = some request.pathSchemas ∧
      extractor.parameters named = some request.parameters ∧
      request.requestBody.isSome = extractor.needs.body := by
  induction extractor generalizing request schemas' with
  | option inner ih =>
    -- an optional extractor relaxes what the inner one requires
    simp only [openapiRequest, bind_apply, pure_apply, Option.bind_eq_some_iff, Option.some.injEq,
      Prod.mk.injEq] at h
    obtain ⟨⟨request', schemas''⟩, hinner, rfl, rfl⟩ := h
    obtain ⟨hpaths, hparameters, hbody⟩ := ih hinner
    refine ⟨hpaths, ?_, ?_⟩
    · simp [parameters, hparameters, OpenApiRequest.relax]
    · simp [OpenApiRequest.relax, hbody, needs]
  | path type =>
    cases hschema : type.schema named with
    | none => simp [openapiRequest, bind_apply, StateT.lift, hschema] at h
    | some schema =>
      simp [openapiRequest, bind_apply, pure_apply, StateT.lift, hschema] at h
      obtain ⟨rfl, rfl⟩ := h
      exact ⟨by simp [pathSchemas, hschema], rfl, rfl⟩
  | query type =>
    cases hparameters : type.parameters named with
    | none => simp [openapiRequest, bind_apply, StateT.lift, hparameters] at h
    | some parameters =>
      simp [openapiRequest, bind_apply, pure_apply, StateT.lift, hparameters] at h
      obtain ⟨rfl, rfl⟩ := h
      exact ⟨rfl, hparameters, rfl⟩
  | form type =>
    cases hparameters : type.parameters named with
    | none => simp [openapiRequest, bind_apply, StateT.lift, hparameters] at h
    | some parameters =>
      simp [openapiRequest, bind_apply, pure_apply, StateT.lift, hparameters] at h
      obtain ⟨rfl, rfl⟩ := h
      exact ⟨rfl, rfl, rfl⟩
  | json type =>
    simp only [openapiRequest, bind_apply, pure_apply, Option.bind_eq_some_iff, Option.some.injEq,
      Prod.mk.injEq] at h
    obtain ⟨_, -, rfl, rfl⟩ := h
    exact ⟨rfl, rfl, rfl⟩
  | state | params | header | multipart | cookies | headers | connectInfo =>
    simp only [openapiRequest, pure_apply, Option.some.injEq, Prod.mk.injEq] at h
    obtain ⟨rfl, rfl⟩ := h
    exact ⟨rfl, rfl, rfl⟩

/-- What the metadata of a handler consists of. -/
theorem Signature.openapiRequest_spec {signature : Signature ι}
    (h : signature.openapiRequest named schemas = some (request, schemas')) :
    signature.pathSchemas named = some request.pathSchemas ∧
      signature.parameters named = some request.parameters ∧
      request.requestBody.isSome = signature.extractors.any fun extractor => extractor.needs.body := by
  -- over the extractors, with what is merged so far
  have key : ∀ (extractors : List (Extractor ι)) (merged : OpenApiRequest) (schemas : SchemaRegistry ι),
      (extractors.foldlM (fun request extractor => do
          return OpenApiRequest.merge request (← extractor.openapiRequest named)) merged : Gen ι _)
        schemas = some (request, schemas') →
      ∃ paths parameters, extractors.mapM (Extractor.pathSchemas named) = some paths ∧
        extractors.mapM (Extractor.parameters named) = some parameters ∧
        request.pathSchemas = merged.pathSchemas ++ paths.flatten ∧
        request.parameters = merged.parameters ++ parameters.flatten ∧
        request.requestBody.isSome =
          (merged.requestBody.isSome || extractors.any fun extractor => extractor.needs.body) := by
    intro extractors
    induction extractors with
    | nil =>
      intro merged schemas h
      simp only [List.foldlM_nil, pure_apply, Option.some.injEq, Prod.mk.injEq] at h
      obtain ⟨rfl, -⟩ := h
      exact ⟨[], [], rfl, rfl, by simp, by simp, by simp⟩
    | cons extractor extractors ih =>
      intro merged schemas h
      simp only [List.foldlM_cons, bind_apply, pure_apply, Option.bind_eq_some_iff] at h
      obtain ⟨_, ⟨⟨added, schemas₁⟩, hadded, hmerge⟩, hrest⟩ := h
      cases hmerge
      obtain ⟨paths, parameters, hpaths, hparameters, hpaths', hparameters', hbody⟩ := ih _ _ hrest
      obtain ⟨hpath, hparameter, hneeds⟩ := Extractor.openapiRequest_spec hadded
      refine ⟨added.pathSchemas :: paths, added.parameters :: parameters, ?_, ?_, ?_, ?_, ?_⟩
      · simp [hpath, hpaths]
      · simp [hparameter, hparameters]
      · simp [hpaths', OpenApiRequest.merge]
      · simp [hparameters', OpenApiRequest.merge]
      · rw [hbody, List.any_cons, ← hneeds, ← Bool.or_assoc]
        simp [OpenApiRequest.merge, Option.isSome_or]
  obtain ⟨paths, parameters, hpaths, hparameters, hpaths', hparameters', hbody⟩ :=
    key signature.extractors .empty schemas h
  refine ⟨?_, ?_, ?_⟩
  · simp [pathSchemas, hpaths, hpaths', OpenApiRequest.empty]
  · simp [Signature.parameters, hparameters, hparameters', OpenApiRequest.empty]
  · simp [hbody, OpenApiRequest.empty]

end Metadata

end OasRs
