import OasRs.Query

/-!
# Extraction

`FromRequest` of the library's extractors (`src/extract/mod.rs`, `src/params.rs`, `src/web.rs`,
`src/multipart.rs`), and what a typed handler does with them (`src/handler.rs`).

## Main results

- `Extractor.extract`: `from_request`
- `Signature.endpoint`: the handler with a signature
- `failsWith_extract`: the statuses with which an extractor refuses a request
-/

namespace OasRs

open Lib Lib.Polling Schema

variable {ι S V T F Incoming : Type}

/-! ## What is extracted -/

/-- The value of an extractor. -/
inductive Argument (S V T : Type) where
  | state (state : S)
  | path (value : V)
  | params (params : Params)
  | query (value : T)
  | header (value : V)
  | json (value : T)
  | form (value : T)
  | multipart (body : Bytes) (boundary : Text)
  | cookies (cookies : List (Text × Text))
  | headers (headers : HeaderMap)
  | connectInfo (peer : Text)
  | option (value : Option (Argument S V T))

/-- `multer::Error`, of `parse_boundary` -/
inductive BoundaryError where
  | noBoundary
  | other
  deriving DecidableEq, Repr

/-- What extraction uses beside the request. -/
structure Extraction (ι V T F : Type) extends Decoders ι V T F where
  /-- `HeaderSpec::parse` of the header with a name, as far as it accepts values -/
  header : Text → Text → Option V
  /-- `multer::parse_boundary` -/
  parseBoundary : Text → Except BoundaryError Text
  /-- `String::from_utf8_lossy` -/
  lossy : Text → Text
  /-- the address that `peer_addr` finds -/
  peer : Option Text

/-- The code of an application that answers for a route. -/
structure Application (S V T : Type) where
  /-- the error of `HeaderSpec::parse` -/
  refuse : Text → Text → ApiError
  /-- the function that is the handler -/
  respond : List (Argument S V T) → Future Response

/-! ## `from_request` -/

/-- The `Content-Type`, if it is there and is text. -/
def contentTypeOf (headers : HeaderMap) : Text :=
  ((headers.get .contentType).bind HeaderValue.toStr).getD []

/-- The media type of a `Content-Type`. -/
def mediaTypeOf (contentType : Text) : Text := trim ((contentType.splitOn semicolon).headD [])

/-- `is_json_media_type` -/
def isJsonMediaType (mediaType : Text) : Bool :=
  eqIgnoreCase mediaType (str "application/json") ||
    match splitOnce [slash] mediaType with
    | none => false
    | some (type, subtype) => eqIgnoreCase type (str "application") &&
        decide ((str "+json").length < subtype.length) &&
        eqIgnoreCase (subtype.drop (subtype.length - 5)) (str "+json")

/-- `is_form_media_type` -/
def isFormMediaType (contentType : Text) : Bool :=
  eqIgnoreCase (mediaTypeOf contentType) (str "application/x-www-form-urlencoded")

/-- An error with status `415`. -/
def unsupportedMediaType (detail : String) : ApiError := .new 415 "Unsupported Media Type" detail

/-- `Cookies::from_request`, one header value -/
def cookiesOf (lossy : Text → Text) (value : HeaderValue) : List (Text × Text) :=
  (value.splitOn semicolon).filterMap fun pair =>
    (splitOnce [equalsSign] (lossy pair)).bind fun (name, value) =>
      let value := trim value
      let unquoted :=
        if 2 ≤ value.length ∧ value.head? = some 0x22 ∧ value.getLast? = some 0x22
        then value.tail.dropLast else value
      if (trim name).isEmpty then none else some (trim name, unquoted)

namespace Extractor

variable [DecidableEq ι] (named : Named ι) (extraction : Extraction ι V T F)
  (refuse : Text → Text → ApiError)

/-- The value of a header, as `HeaderSpec::parse` reads it. -/
def readHeader (name : Text) (headers : HeaderMap) : Except ApiError V :=
  match headers.get ((HeaderName.fromBytes name).getD (.custom name)) with
  | none => .error (.absent ("missing header " ++ spell name))
  | some value =>
    match HeaderValue.toStr value with
    | none => .error (.badRequest ("invalid header " ++ spell name))
    | some text =>
      match extraction.header name text with
      | some parsed => .ok parsed
      | none => .error (refuse name text)

/-- `Json::from_request` -/
def readJson (type : RustType ι) (request : HttpRequest Bytes) : Except ApiError T :=
  let contentType := contentTypeOf request.parts.headers
  if request.body.data.isEmpty && contentType.isEmpty then .error (.absent "missing JSON body")
  else if !isJsonMediaType (mediaTypeOf contentType) then
    .error (unsupportedMediaType "expected application/json or application/*+json")
  else
    match extraction.fromSlice type request.body with
    | .ok value => .ok value
    | .error error => .error (.badRequest error)

/-- `Form::from_request` -/
def readForm (type : QueryStruct ι) (request : HttpRequest Bytes) : Except ApiError T :=
  let contentType := contentTypeOf request.parts.headers
  if contentType.isEmpty && request.body.data.isEmpty then .error (.absent "missing form body")
  else if !isFormMediaType contentType then
    .error (unsupportedMediaType "expected application/x-www-form-urlencoded")
  else if !validUtf8 request.body.data then .error (.badRequest "form body is not valid UTF-8")
  else type.parse named extraction.toDecoders (replacePlus (str "%20") request.body.data)

/-- `Query::from_request` -/
def readQuery (type : QueryStruct ι) (query : Option Text) : Except ApiError T :=
  match type.parse named extraction.toDecoders (query.getD []) with
  | .ok value => .ok value
  | .error error => .error (if query.all List.isEmpty then error.intoMissing else error)

/-- `Path::from_request` -/
def readPath (type : RustType ι) (path : Text) (params : Params) : Except ApiError V :=
  match params.firstRaw path with
  | none => .error (.badRequest "missing path parameter")
  | some raw => do
    let value ← decodeQueryComponent raw
    extraction.parseQueryValue type value

/-- `boundary_of` -/
def boundaryOf (headers : HeaderMap) : Except ApiError Text :=
  match extraction.parseBoundary (contentTypeOf headers) with
  | .ok boundary => .ok boundary
  | .error .noBoundary => .error (.badRequest "multipart Content-Type has no boundary")
  | .error .other => .error (unsupportedMediaType "expected multipart/form-data")

/-- `from_request`: the value, and the request with what is left of it. -/
def extract (params : Params) (state : S) : Extractor ι → HttpRequest Bytes →
    Except ApiError (Argument S V T × HttpRequest Bytes)
  | .state, request => .ok (.state state, request)
  | .path type, request => do
    return (.path (← readPath extraction type request.parts.path params), request)
  | .params, request => .ok (.params params, request)
  | .query type, request => do
    return (.query (← readQuery named extraction type request.parts.query), request)
  | .header name, request => do
    return (.header (← readHeader extraction refuse name request.parts.headers), request)
  | .json type, request => do return (.json (← readJson extraction type request), request)
  | .form type, request => do return (.form (← readForm named extraction type request), request)
  | .multipart, request => do
    let boundary ← boundaryOf extraction request.parts.headers
    -- the body is taken out of the request
    return (.multipart request.body boundary, { request with body := .new })
  | .cookies, request =>
    let values := request.parts.headers.getAll (.custom (str "cookie"))
    .ok (.cookies (values.flatMap (cookiesOf extraction.lossy)), request)
  | .headers, request => .ok (.headers request.parts.headers, request)
  | .connectInfo, request =>
    match extraction.peer with
    | some peer => .ok (.connectInfo peer, request)
    | none => .error (.new 500 "Internal Server Error"
        "ConnectInfo needs AppRuntime::connect_info(true) and a TCP listener")
  | .option inner, request =>
    match inner.extract params state request with
    | .ok (value, request) => .ok (.option (some value), request)
    | .error error => if error.missing then .ok (.option none, request) else .error error

end Extractor

/-! ## The handler -/

/-- The values of all extractors, in order. -/
def extractAll [DecidableEq ι] (named : Named ι) (extraction : Extraction ι V T F)
    (refuse : Text → Text → ApiError) (params : Params) (state : S) :
    List (Extractor ι) → HttpRequest Bytes → Except ApiError (List (Argument S V T))
  | [], _ => .ok []
  | extractor :: extractors, request => do
    let (value, request) ← extractor.extract named extraction refuse params state request
    return value :: (← extractAll named extraction refuse params state extractors request)

/-- The handler that a function with this signature is. -/
def Signature.endpoint [DecidableEq ι] (signature : Signature ι) (named : Named ι)
    (extraction : Extraction ι V T F) (env : Environment Incoming) (application : Application S V T) :
    Endpoint S Incoming where
  zero := application.respond []
  call request params state :=
    match extractAll named extraction application.refuse params state signature.extractors request with
    | .ok arguments => application.respond arguments
    | .error error => .ready (error.intoResponse env.toVec)
  -- a typed handler is neither raw nor static
  raw _ := .never
  static := .json .new

/-! ## How a request is refused -/

/-- The statuses of the errors of an extractor. -/
def Extractor.statuses : Extractor ι → List ℕ
  | .path _ | .query _ | .header _ => [400]
  | .json _ | .form _ | .multipart => [400, 415]
  | .connectInfo => [500]
  | .state | .params | .cookies | .headers => []
  | .option inner => inner.statuses

/-- An error of the extractor itself, or one of the application. -/
def RefusedBy (refuse : Text → Text → ApiError) (statuses : List ℕ) (error : ApiError) : Prop :=
  error.status ∈ statuses ∨ ∃ name text, error = refuse name text

section Refused

variable [DecidableEq ι] {named : Named ι} {extraction : Extraction ι V T F}
  {refuse : Text → Text → ApiError}

theorem ApiError.IsBadRequest.refusedBy {error : ApiError} (h : error.IsBadRequest)
    {statuses : List ℕ} (hmem : 400 ∈ statuses) : RefusedBy refuse statuses error := by
  left
  rw [h.status]
  exact hmem

/-- **The statuses with which an extractor refuses a request**, unless the application does. -/
theorem failsWith_extract (extractor : Extractor ι) (params : Params) (state : S)
    (request : HttpRequest Bytes) :
    FailsWith (extractor.extract named extraction refuse params state request)
      (RefusedBy refuse extractor.statuses) := by
  have h415 : 415 ∈ [400, 415] := List.mem_cons_of_mem 400 List.mem_cons_self
  induction extractor with
  | state | params | cookies | headers => exact .ok _
  | path type =>
    refine FailsWith.bind ?_ fun _ _ => .pure _
    rw [Extractor.readPath]
    split
    · exact .error (.inl List.mem_cons_self)
    · rename_i raw _
      have hparse : FailsWith (decodeQueryComponent raw >>= fun value =>
          extraction.parseQueryValue type value) ApiError.IsBadRequest :=
        (isBadRequest_decodeQueryComponent raw).bind fun value _ =>
          isBadRequest_parseQueryValue _ _ value
      exact hparse.mono fun error h => h.refusedBy List.mem_cons_self
  | query type =>
    refine FailsWith.bind ?_ fun _ _ => .pure _
    rw [Extractor.readQuery]
    split
    · exact .ok _
    · rename_i error herror
      have hbad := isBadRequest_parse _ error herror
      refine .error (.inl ?_)
      -- what is missing has the same status
      split
      · exact hbad.status ▸ List.mem_cons_self
      · exact hbad.status ▸ List.mem_cons_self
  | header name =>
    refine FailsWith.bind ?_ fun _ _ => .pure _
    rw [Extractor.readHeader]
    split
    · exact .error (.inl List.mem_cons_self)
    · split
      · exact .error (.inl List.mem_cons_self)
      · split
        · exact .ok _
        · exact .error (.inr ⟨_, _, rfl⟩)
  -- a body: its bytes, its media type, and what it holds
  | json type =>
    refine FailsWith.bind ?_ fun _ _ => .pure _
    simp only [Extractor.readJson]
    split
    · exact .error (.inl List.mem_cons_self)
    · split
      · exact .error (.inl h415)
      · split
        · exact .ok _
        · exact .error (.inl List.mem_cons_self)
  | form type =>
    refine FailsWith.bind ?_ fun _ _ => .pure _
    simp only [Extractor.readForm]
    split
    · exact .error (.inl List.mem_cons_self)
    · split
      · exact .error (.inl h415)
      · split
        · exact .error (.inl List.mem_cons_self)
        · exact (isBadRequest_parse _).mono fun error h => h.refusedBy List.mem_cons_self
  | multipart =>
    refine FailsWith.bind ?_ fun _ _ => .pure _
    rw [Extractor.boundaryOf]
    split
    · exact .ok _
    · exact .error (.inl List.mem_cons_self)
    · exact .error (.inl h415)
  | connectInfo =>
    rw [Extractor.extract]
    split
    · exact .ok _
    · exact .error (.inl List.mem_cons_self)
  -- an `Option` turns some refusals into `None`, and keeps the others
  | option inner ih =>
    rw [Extractor.extract]
    split
    · exact .ok _
    · rename_i error herror
      split
      · exact .ok _
      · exact .error (ih error herror)

/-- A handler refuses a request with a status of one of its extractors. -/
theorem failsWith_extractAll (extractors : List (Extractor ι)) (params : Params) (state : S)
    (request : HttpRequest Bytes) :
    FailsWith (extractAll named extraction refuse params state extractors request)
      (RefusedBy refuse (extractors.flatMap Extractor.statuses)) := by
  induction extractors generalizing request with
  | nil => exact .ok _
  | cons extractor extractors ih =>
    rw [extractAll]
    refine FailsWith.bind ?_ fun extracted _ => FailsWith.bind ?_ fun _ _ => .pure _
    · refine (failsWith_extract extractor params state request).mono fun error h => ?_
      exact h.imp_left fun hmem => List.mem_flatMap.mpr ⟨extractor, List.mem_cons_self, hmem⟩
    · refine (ih extracted.2).mono fun error h => h.imp_left fun hmem => ?_
      rw [List.flatMap_cons]
      exact List.mem_append_right _ hmem

end Refused

end OasRs
