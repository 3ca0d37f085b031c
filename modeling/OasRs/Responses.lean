import OasRs.Http
import OasRs.Json

/-!
# The Framework's Responses

`src/response.rs`: `ApiError`, and the responses that the runtime gives without a handler;
and `StaticResponse` of `src/router/mod.rs`. Serialization is a parameter. The
`ErrorInfo` that errors carry in their extensions is not modelled.

## Overview

- `ApiError`, `ApiError.intoResponse`
- `notFound`, `optionsResponse`, `methodNotAllowedResponse`, `payloadTooLargeResponse`, ..
- `StaticResponse.toResponse`
-/

namespace OasRs

/-! ## JSON and text -/

/-- `response_json_bytes` -/
def responseJsonBytes (status : ℕ) (body : Bytes) : Response where
  status
  headers := HeaderMap.empty.insert .contentType (str "application/json")
  body := .full (some body)

/-- `response_text` -/
def responseText (status : ℕ) (body : Bytes) : Response where
  status
  headers := (HeaderMap.empty.insert .contentType (str "text/plain; charset=utf-8")).insert
    .contentLength (decimal body.len)
  body := .full (some body)

/-- The body of an error. -/
def problem (status : ℕ) (title detail : String) : Json :=
  .object
    [("type", .str "about:blank"), ("title", .str title), ("status", .num (.int status)),
      ("detail", .str detail)]

/-! ## `ApiError` -/

/-- `ApiError` -/
structure ApiError where
  status : ℕ
  title : String
  detail : String
  missing : Bool
  deriving DecidableEq, Repr

namespace ApiError

/-- `ApiError::new` -/
def new (status : ℕ) (title detail : String) : ApiError := { status, title, detail, missing := false }

/-- `ApiError::bad_request` -/
def badRequest (detail : String) : ApiError := new 400 "Bad Request" detail

/-- `ApiError::missing` -/
def absent (detail : String) : ApiError := { badRequest detail with missing := true }

/-- `ApiError::into_missing` -/
def intoMissing (error : ApiError) : ApiError := { error with missing := true }

end ApiError

/-- The error of `percent_decode`. -/
def DecodeError.toApiError (error : DecodeError) : ApiError := .badRequest error.detail

section Serialized

-- `serde_json::to_vec(..).unwrap_or_default()`
variable (toVec : Json → Bytes)

/-- `IntoResponse for ApiError` -/
def ApiError.intoResponse (error : ApiError) : Response :=
  responseJsonBytes error.status (toVec (problem error.status error.title error.detail))

/-! ## Answers of the runtime -/

/-- `payload_too_large_response` -/
def payloadTooLargeResponse : Response :=
  responseJsonBytes 413
    (toVec (problem 413 "Payload Too Large" "request body exceeds the configured limit"))

/-- `request_timeout_response`, which ends the connection -/
def requestTimeoutResponse : Response :=
  let response := (ApiError.new 408 "Request Timeout"
    "the request body was not received in time").intoResponse toVec
  { response with headers := response.headers.insert (.custom (str "connection")) (str "close") }

/-- The answer when a body ends too early. -/
def interruptedResponse : Response :=
  responseJsonBytes 400 (toVec (problem 400 "Bad Request" "request body was interrupted"))

end Serialized

/-- `not_found` -/
def notFound : Response := responseText 404 { data := str "Not Found", length_le := by decide }

/-- A response without a body that lists methods. -/
def allowResponse (status : ℕ) (allow : Text) : Response where
  status
  headers := (HeaderMap.empty.insert .allow allow).insert .contentLength (str "0")
  body := .full (some .new)

/-- `options_response` -/
def optionsResponse (allow : Text) : Response := allowResponse 204 allow

/-- `method_not_allowed_response` -/
def methodNotAllowedResponse (allow : Text) : Response := allowResponse 405 allow

/-! ## `StaticResponse` -/

/-- `StaticResponse` -/
inductive StaticResponse where
  | text (body : Bytes) (contentLength : HeaderValue)
  | json (body : Bytes)

namespace StaticResponse

/-- `StaticResponse::text_bytes` -/
def textBytes (body : Bytes) : StaticResponse := .text body (decimal body.len)

/-- `StaticResponse::to_response` -/
def toResponse : StaticResponse → Response
  | .text body contentLength =>
    { status := 200
      headers := (HeaderMap.empty.insert .contentType (str "text/plain; charset=utf-8")).insert
        .contentLength contentLength
      body := .full (some body) }
  | .json body => responseJsonBytes 200 body

end StaticResponse

end OasRs
