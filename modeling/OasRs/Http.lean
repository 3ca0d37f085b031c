import OasRs.Number
import OasRs.Router
import Mathlib.Logic.Function.Basic

/-!
# HTTP Messages

The parts of the `http` crate that the middleware reads and writes: header names and
values, the header map, responses and their bodies, and `maybe_head_flag` of
`src/response.rs`.

## Overview

- `HeaderName`, `HeaderMap`: a map from names to the lists of their values
- `HeaderMap.items`: the tokens of a comma-separated header
- `Response`, `ResponseBody`, `maybeHeadFlag`
-/

namespace OasRs

/-! ## Text -/

/-- `b','` -/
def comma : UInt8 := 0x2C

/-- `b';'` -/
def semicolon : UInt8 := 0x3B

/-- `char::is_whitespace`, on ASCII -/
def isSpace (byte : UInt8) : Bool := byte == 0x20 || (0x09 ≤ byte && byte ≤ 0x0D)

/-- `str::trim`, on ASCII -/
def trim (text : Text) : Text := (text.dropWhile isSpace).rdropWhile isSpace

/-- `to_ascii_lowercase` -/
def lowercase (text : Text) : Text :=
  text.map fun byte => if 0x41 ≤ byte ∧ byte ≤ 0x5A then byte + 0x20 else byte

/-- `split_once` -/
def splitOnce (separator : Text) : Text → Option (Text × Text)
  | [] => if separator = [] then some ([], []) else none
  | byte :: rest =>
    if separator.isPrefixOf (byte :: rest) then some ([], (byte :: rest).drop separator.length)
    else (splitOnce separator rest).map fun parts => (byte :: parts.1, parts.2)

/-- `eq_ignore_ascii_case` -/
def eqIgnoreCase (a b : Text) : Bool := lowercase a == lowercase b

/-! ## Headers -/

/-- `HeaderName`: the standard names of `http::header` that the modelled code refers to,
    and any other. -/
inductive HeaderName where
  | acceptEncoding
  | accessControlAllowCredentials
  | accessControlAllowHeaders
  | accessControlAllowMethods
  | accessControlAllowOrigin
  | accessControlExposeHeaders
  | accessControlMaxAge
  | accessControlRequestHeaders
  | accessControlRequestMethod
  | allow
  | cacheControl
  | contentEncoding
  | contentLength
  | contentRange
  | contentType
  | etag
  | origin
  | vary
  /-- a name that is not in the list above, in lower case -/
  | custom (name : Text)
  deriving DecidableEq, Repr

namespace HeaderName

/-- `as_str` -/
def asStr : HeaderName → Text
  | acceptEncoding => str "accept-encoding"
  | accessControlAllowCredentials => str "access-control-allow-credentials"
  | accessControlAllowHeaders => str "access-control-allow-headers"
  | accessControlAllowMethods => str "access-control-allow-methods"
  | accessControlAllowOrigin => str "access-control-allow-origin"
  | accessControlExposeHeaders => str "access-control-expose-headers"
  | accessControlMaxAge => str "access-control-max-age"
  | accessControlRequestHeaders => str "access-control-request-headers"
  | accessControlRequestMethod => str "access-control-request-method"
  | allow => str "allow"
  | cacheControl => str "cache-control"
  | contentEncoding => str "content-encoding"
  | contentLength => str "content-length"
  | contentRange => str "content-range"
  | contentType => str "content-type"
  | etag => str "etag"
  | origin => str "origin"
  | vary => str "vary"
  | custom name => name

/-- The standard names. -/
def standard : List HeaderName :=
  [acceptEncoding, accessControlAllowCredentials, accessControlAllowHeaders,
    accessControlAllowMethods, accessControlAllowOrigin, accessControlExposeHeaders,
    accessControlMaxAge, accessControlRequestHeaders, accessControlRequestMethod, allow,
    cacheControl, contentEncoding, contentLength, contentRange, contentType, etag, origin, vary]

/-- The bytes of a token: letters, digits and some punctuation. -/
def isTokenByte (byte : UInt8) : Bool :=
  (0x30 ≤ byte && byte ≤ 0x39) || (0x41 ≤ byte && byte ≤ 0x5A) || (0x61 ≤ byte && byte ≤ 0x7A) ||
    (str "!#$%&'*+-.^_`|~").contains byte

/-- `HeaderName::from_bytes` -/
def fromBytes (bytes : Text) : Option HeaderName :=
  if bytes ≠ [] ∧ bytes.length ≤ 2 ^ 16 - 1 ∧ bytes.all isTokenByte then
    let name := lowercase bytes
    some ((standard.find? (·.asStr == name)).getD (custom name))
  else none

end HeaderName

/-- `HeaderValue`, as its bytes. -/
abbrev HeaderValue : Type := Text

namespace HeaderValue

/-- `HeaderValue::to_str`: only visible ASCII and tabs. -/
def toStr (value : HeaderValue) : Option Text :=
  if value.all fun byte => (0x20 ≤ byte && byte < 0x7F) || byte == 0x09 then some value else none

/-- `HeaderValue::from_bytes`, and `from_str` -/
def fromBytes (bytes : Text) : Option HeaderValue :=
  if bytes.all fun byte => (0x20 ≤ byte && byte ≠ 0x7F) || byte == 0x09 then some bytes else none

end HeaderValue

/-- `HeaderMap`: the values of each name, in their order. -/
@[ext] structure HeaderMap where
  values : HeaderName → List HeaderValue

namespace HeaderMap

def empty : HeaderMap := { values := fun _ => [] }

/-- `get`: the first value -/
def get (headers : HeaderMap) (name : HeaderName) : Option HeaderValue := (headers.values name).head?

/-- `get_all` -/
def getAll (headers : HeaderMap) (name : HeaderName) : List HeaderValue := headers.values name

/-- `contains_key` -/
def containsKey (headers : HeaderMap) (name : HeaderName) : Bool := !(headers.values name).isEmpty

/-- `insert`: in the place of every value that the name has -/
def insert (headers : HeaderMap) (name : HeaderName) (value : HeaderValue) : HeaderMap :=
  { values := Function.update headers.values name [value] }

/-- `append` -/
def append (headers : HeaderMap) (name : HeaderName) (value : HeaderValue) : HeaderMap :=
  { values := Function.update headers.values name (headers.values name ++ [value]) }

/-- `remove` -/
def remove (headers : HeaderMap) (name : HeaderName) : HeaderMap :=
  { values := Function.update headers.values name [] }

/-- The entries of a comma-separated header, over all its lines:
    `get_all(..).filter_map(to_str).flat_map(split(','))`. -/
def items (headers : HeaderMap) (name : HeaderName) : List Text :=
  (headers.getAll name).filterMap HeaderValue.toStr |>.flatMap (·.splitOn comma)

/-! ### Updates -/

/-- The entries of one more line come last. -/
theorem items_append (headers : HeaderMap) (name : HeaderName) (value : HeaderValue) :
    (headers.append name value).items name =
      headers.items name ++ (HeaderValue.toStr value).toList.flatMap (·.splitOn comma) := by
  have hvalues : (headers.append name value).getAll name = headers.getAll name ++ [value] := by
    simp [append, getAll]
  rw [items, hvalues, List.filterMap_append, List.flatMap_append, ← items]
  congr 1

variable (headers : HeaderMap) (name other : HeaderName) (value : HeaderValue)

@[simp] theorem values_insert : (headers.insert name value).values other =
    if other = name then [value] else headers.values other := by
  simp [insert, Function.update_apply]

@[simp] theorem values_append : (headers.append name value).values other =
    if other = name then headers.values name ++ [value] else headers.values other := by
  simp [append, Function.update_apply]

@[simp] theorem values_remove : (headers.remove name).values other =
    if other = name then [] else headers.values other := by
  simp [remove, Function.update_apply]

@[simp] theorem containsKey_eq_false :
    headers.containsKey name = false ↔ headers.values name = [] := by
  simp [containsKey]

@[simp] theorem containsKey_eq_true :
    headers.containsKey name = true ↔ headers.values name ≠ [] := by
  simp [containsKey]

theorem get_congr {headers headers' : HeaderMap} {name : HeaderName}
    (h : headers.values name = headers'.values name) : headers.get name = headers'.get name := by
  rw [get, get, h]

theorem items_congr {headers headers' : HeaderMap} {name : HeaderName}
    (h : headers.values name = headers'.values name) : headers.items name = headers'.items name := by
  rw [items, items, getAll, getAll, h]

end HeaderMap

/-! ## Requests -/

/-- `Method::as_str` -/
def Method.asStr : Method → Text
  | .delete => str "DELETE"
  | .get => str "GET"
  | .head => str "HEAD"
  | .options => str "OPTIONS"
  | .patch => str "PATCH"
  | .post => str "POST"
  | .put => str "PUT"
  | .other name => name

/-- `request::Parts`: a request without its body. -/
structure Parts where
  method : Method
  path : Text
  query : Option Text
  headers : HeaderMap

/-! ## Responses -/

/-- `Bytes`: no longer than a `usize` counts. -/
structure Bytes where
  data : Text
  length_le : data.length ≤ usizeMax

/-- `Bytes::len` -/
def Bytes.len (bytes : Bytes) : ℕ := bytes.data.length

/-- `Bytes::new` -/
def Bytes.new : Bytes := { data := [], length_le := Nat.zero_le _ }

/-- `ResponseBody`; a stream with the chunks that it will yield. -/
inductive ResponseBody where
  | full (bytes : Option Bytes)
  | stream (chunks : List Text)

namespace ResponseBody

/-- `size_hint().exact()` -/
def exactSize : ResponseBody → Option ℕ
  | .full bytes => some ((bytes.map Bytes.len).getD 0)
  | .stream _ => none

/-- The number of bytes that are sent. -/
def length : ResponseBody → ℕ
  | .full bytes => (bytes.map Bytes.len).getD 0
  | .stream chunks => chunks.flatten.length

end ResponseBody

/-- `HttpResponse` -/
structure Response where
  status : ℕ
  headers : HeaderMap
  body : ResponseBody

/-- `maybe_head_flag`: a `HEAD` answer declares the length and drops the body. -/
def maybeHeadFlag (isHead : Bool) (response : Response) : Response :=
  if isHead then
    let headers :=
      match response.body.exactSize with
      | some length =>
        if response.headers.containsKey .contentLength then response.headers
        else response.headers.insert .contentLength (decimal length)
      | none => response.headers
    { status := response.status, headers, body := .full (some .new) }
  else response

/-- The `Content-Length` header, if it is there and is a number. -/
def HeaderMap.contentLength (headers : HeaderMap) : Option ℕ :=
  (headers.get .contentLength).bind HeaderValue.toStr |>.bind (parseUnsigned usizeMax)

/-! ### What a `HEAD` keeps -/

/-- Decimal digits are visible. -/
theorem toStr_decimal (n : ℕ) : HeaderValue.toStr (decimal n) = some (decimal n) := by
  have hvisible : ∀ digit : Fin 10, ((0x20 ≤ digitByte digit && digitByte digit < 0x7F) ||
      digitByte digit == 0x09) = true := by decide
  rw [HeaderValue.toStr, if_pos]
  apply List.all_eq_true.mpr
  intro byte hbyte
  obtain ⟨digit, hdigit, rfl⟩ := mem_decimal hbyte
  exact hvisible ⟨digit, hdigit⟩

theorem contentLength_insert {n : ℕ} (h : n ≤ usizeMax) (headers : HeaderMap) :
    (headers.insert .contentLength (decimal n)).contentLength = some n := by
  rw [HeaderMap.contentLength, HeaderMap.get, HeaderMap.values_insert, if_pos rfl, List.head?_cons,
    Option.bind_some, toStr_decimal, Option.bind_some, parseUnsigned_decimal h]

theorem status_maybeHeadFlag (response : Response) :
    (maybeHeadFlag true response).status = response.status := rfl

/-- Only the `Content-Length` may be new. -/
theorem values_maybeHeadFlag (response : Response) {name : HeaderName} (h : name ≠ .contentLength) :
    (maybeHeadFlag true response).headers.values name = response.headers.values name := by
  rw [maybeHeadFlag, if_pos rfl]
  cases response.body.exactSize with
  | none => rfl
  | some length =>
    show (if _ then _ else _ : HeaderMap).values name = _
    split
    · rfl
    · rw [HeaderMap.values_insert, if_neg h]

/-- A declared length is the number of body bytes. -/
def Response.Honest (response : Response) : Prop :=
  response.headers.containsKey .contentLength = true →
    response.headers.contentLength = some response.body.length

/-- A `HEAD` declares the length of a buffered body. -/
theorem contentLength_maybeHeadFlag_full {response : Response} (h : response.Honest)
    {bytes : Option Bytes} (hbody : response.body = .full bytes) :
    (maybeHeadFlag true response).headers.contentLength = some ((bytes.map Bytes.len).getD 0) := by
  have hlength : (bytes.map Bytes.len).getD 0 ≤ usizeMax := by
    cases bytes with
    | none => exact Nat.zero_le _
    | some bytes => exact bytes.length_le
  rw [maybeHeadFlag, if_pos rfl, hbody]
  show (if _ then _ else _ : HeaderMap).contentLength = _
  split
  · rename_i hkey
    rw [h hkey, hbody]
    rfl
  · exact contentLength_insert hlength _

/-- A `HEAD` leaves the headers of a stream as they are. -/
theorem headers_maybeHeadFlag_stream {response : Response} {chunks : List Text}
    (hbody : response.body = .stream chunks) :
    (maybeHeadFlag true response).headers = response.headers := by
  rw [maybeHeadFlag, if_pos rfl, hbody]
  rfl

end OasRs
