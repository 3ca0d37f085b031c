import OasRs.Http

/-!
# Cross-Origin Resource Sharing

`src/cors.rs`: the builder, preflights, and the headers that are added to every other
response. A shared cache may hand an answer to a browser on another origin, so an answer
that depends on the origin has to say so in `Vary`.

## Main results

- `varies_decorate`: with listed origins every answer varies on `Origin`
- `safelyCached_iff`: exactly when two answers that differ say so
-/

namespace OasRs.Cors

/-! ## Configuration -/

/-- `AllowedHeaders` -/
inductive AllowedHeaders where
  | list (names : List HeaderName)
  | mirror

/-- `CorsConfig`. The builder never combines any origin with credentials. A `Duration` is a
    number of nanoseconds. -/
structure CorsConfig where
  anyOrigin : Bool
  origins : List Text
  methods : List Method
  headers : AllowedHeaders
  credentials : Bool
  expose : List HeaderName
  maxAge : Option ℕ
  credentials_of_anyOrigin : anyOrigin = true → credentials = false

/-- The assertions of the builder. -/
inductive Rejected where
  /-- "invalid CORS origin {origin:?}: expected scheme://host[:port] (use allow_any_origin for *)" -/
  | origin (origin : Text)
  /-- "allow_any_origin cannot be combined with credentials; list the origins instead" -/
  | anyOrigin
  /-- "credentials cannot be combined with allow_any_origin; list the origins instead" -/
  | credentials
  /-- "a valid header name" -/
  | headerName
  deriving DecidableEq

/-- `header_name` -/
def headerName (name : Text) : Except Rejected HeaderName :=
  match HeaderName.fromBytes name with
  | some name => .ok name
  | none => .error .headerName

namespace CorsConfig

/-- `Cors::new` -/
def new : CorsConfig where
  anyOrigin := false
  origins := []
  methods := [.get, .head, .post]
  headers := .list [.contentType]
  credentials := false
  expose := []
  maxAge := none
  credentials_of_anyOrigin := fun _ => rfl

/-- The check of `allow_origin`: `null`, or a scheme and an authority. -/
def validOrigin (origin : Text) : Bool :=
  origin == str "null" ||
    match splitOnce (str "://") origin with
    | some (scheme, authority) => !scheme.isEmpty && !authority.isEmpty &&
        !(str "/* ?#").any authority.contains
    | none => false

/-- `allow_origin` -/
def allowOrigin (config : CorsConfig) (origin : Text) : Except Rejected CorsConfig :=
  if validOrigin origin then .ok { config with origins := config.origins ++ [origin] }
  else .error (.origin origin)

/-- `allow_any_origin` -/
def allowAnyOrigin (config : CorsConfig) : Except Rejected CorsConfig :=
  if h : config.credentials = false then
    .ok { config with anyOrigin := true, credentials_of_anyOrigin := fun _ => h }
  else .error .anyOrigin

/-- `allow_methods` -/
def allowMethods (config : CorsConfig) (methods : List Method) : CorsConfig :=
  { config with methods }

/-- `allow_headers` -/
def allowHeaders (config : CorsConfig) (headers : List Text) : Except Rejected CorsConfig := do
  let headers ← headers.mapM headerName
  return { config with headers := .list headers }

/-- `allow_any_header` -/
def allowAnyHeader (config : CorsConfig) : CorsConfig := { config with headers := .mirror }

/-- `allow_credentials` -/
def allowCredentials (config : CorsConfig) (allow : Bool) : Except Rejected CorsConfig :=
  if h : (allow && config.anyOrigin) = false then
    .ok { config with
      credentials := allow
      credentials_of_anyOrigin := fun hany => by simpa [hany] using h }
  else .error .credentials

/-- `expose_headers` -/
def exposeHeaders (config : CorsConfig) (headers : List Text) : Except Rejected CorsConfig := do
  let expose ← headers.mapM headerName
  return { config with expose }

/-- `max_age` -/
def withMaxAge (config : CorsConfig) (maxAge : ℕ) : CorsConfig :=
  { config with maxAge := some maxAge }

/-! ## Answers -/

/-- `join` -/
def join (names : List Text) : HeaderValue := (str ", ").intercalate names

/-- `allows_origin` -/
def allowsOrigin (config : CorsConfig) (origin : HeaderValue) : Bool :=
  config.anyOrigin || (origin.toStr.map config.origins.contains).getD false

/-- `origin_value` -/
def originValue (config : CorsConfig) (origin : HeaderValue) : HeaderValue :=
  if config.anyOrigin then str "*" else origin

/-- `allowed_request_headers`: the headers a preflight asks for, if all of them are
    allowed -/
def allowedRequestHeaders (config : CorsConfig) (requested : Option HeaderValue) :
    Option (Option HeaderValue) :=
  match requested.bind HeaderValue.toStr with
  | none => some none
  | some requested =>
    if requested = [] then some none
    else
      match config.headers with
      | .mirror => some (HeaderValue.fromBytes requested)
      | .list allowed =>
        if (requested.splitOn comma).all fun name =>
            allowed.any fun allowed => eqIgnoreCase allowed.asStr (trim name)
        then some (some (join (allowed.map HeaderName.asStr)))
        else none

/-- Whether `Vary` already has the name, or a star. -/
def present (headers : HeaderMap) (name : Text) : Bool :=
  (headers.items .vary).any fun token => eqIgnoreCase (trim token) name || trim token == str "*"

/-- `add_vary` -/
def addVary (config : CorsConfig) (headers : HeaderMap) (extra : List Text) : HeaderMap :=
  if config.anyOrigin && extra.isEmpty then headers
  else
    ((if config.anyOrigin then [] else [str "Origin"]) ++ extra).foldl
      (fun headers name => if present headers name then headers else headers.append .vary name)
      headers

/-- `preflight` -/
def preflight (config : CorsConfig) (origin : HeaderValue) (request : Parts) : Response :=
  let headers := HeaderMap.empty.insert .contentLength (str "0")
  let method := (request.headers.get .accessControlRequestMethod).bind HeaderValue.toStr
  let methodAllowed := (method.map fun method =>
    config.methods.any fun allowed => allowed.asStr == method).getD false
  let allowedHeaders := config.allowedRequestHeaders (request.headers.get .accessControlRequestHeaders)
  let headers :=
    match allowedHeaders with
    | some allowedHeaders =>
      if config.allowsOrigin origin && methodAllowed then
        let headers := headers.insert .accessControlAllowOrigin (config.originValue origin)
        let headers := headers.insert .accessControlAllowMethods
          (join (config.methods.map Method.asStr))
        let headers :=
          match allowedHeaders with
          | some allowedHeaders => headers.insert .accessControlAllowHeaders allowedHeaders
          | none => headers
        let headers :=
          if config.credentials then headers.insert .accessControlAllowCredentials (str "true")
          else headers
        match config.maxAge with
        | some maxAge => headers.insert .accessControlMaxAge (decimal (maxAge / 1000000000))
        | none => headers
      else headers
    | none => headers
  { status := 204
    headers := config.addVary headers
      [str "Access-Control-Request-Method", str "Access-Control-Request-Headers"]
    body := .full (some .new) }

/-- The headers of `decorate`, before `Vary`. -/
def decorated (config : CorsConfig) (origin : Option HeaderValue) (headers : HeaderMap) : HeaderMap :=
  match origin.filter config.allowsOrigin with
  | some origin =>
    let headers := headers.insert .accessControlAllowOrigin (config.originValue origin)
    let headers :=
      if config.credentials then headers.insert .accessControlAllowCredentials (str "true")
      else headers
    if config.expose.isEmpty then headers
    else headers.insert .accessControlExposeHeaders (join (config.expose.map HeaderName.asStr))
  | none =>
    if config.anyOrigin then headers.insert .accessControlAllowOrigin (str "*") else headers

/-- `decorate` -/
def decorate (config : CorsConfig) (origin : Option HeaderValue) (response : Response) : Response :=
  { response with headers := config.addVary (config.decorated origin response.headers) [] }

/-- `OPTIONS` with `Access-Control-Request-Method`. -/
def isPreflight (request : Parts) : Bool :=
  request.method == .options && request.headers.containsKey .accessControlRequestMethod

/-- `Cors::handle`, where `next` answers the request -/
def handle (config : CorsConfig) (request : Parts) (next : Parts → Response) : Response :=
  match request.headers.get .origin with
  | some origin =>
    if isPreflight request then config.preflight origin request
    else config.decorate (some origin) (next request)
  | none => config.decorate none (next request)

end CorsConfig

open CorsConfig

/-! ## Shared caches -/

/-- `Vary: Origin`, or `Vary: *`. -/
def variesOnOrigin (response : Response) : Bool := present response.headers (str "Origin")

/-- An `Access-Control-*` header. -/
def IsAccessControl (name : HeaderName) : Prop := str "access-control-" <+: name.asStr

/-- Two answers that a cache may exchange only if they say what they depend on. -/
def SafelyCached (a b : Response) : Prop :=
  (∃ name, IsAccessControl name ∧ a.headers.values name ≠ b.headers.values name) →
    variesOnOrigin a = true ∧ variesOnOrigin b = true

/-- A preflight, with an origin: it is answered by the layer itself. -/
def AnswersItself (request : Parts) : Prop :=
  (request.headers.get .origin).isSome = true ∧ isPreflight request = true

/-! ## The headers that are added -/

theorem present_append (headers : HeaderMap) : present (headers.append .vary (str "Origin")) (str "Origin") = true := by
  have hitem : ((HeaderValue.toStr (str "Origin")).toList.flatMap (·.splitOn comma)).any
      (fun token => eqIgnoreCase (trim token) (str "Origin") || trim token == str "*") = true := by
    decide +kernel
  rw [present, HeaderMap.items_append, List.any_append, hitem, Bool.or_true]

/-- With listed origins every answer varies on `Origin`, whatever the request was. -/
theorem varies_decorate {config : CorsConfig} (h : config.anyOrigin = false)
    (origin : Option HeaderValue) (response : Response) :
    variesOnOrigin (config.decorate origin response) = true := by
  rw [variesOnOrigin, decorate, addVary, h]
  simp only [Bool.false_and, Bool.false_eq_true, if_false, List.append_nil, List.foldl_cons,
    List.foldl_nil]
  split
  · assumption
  · exact present_append _

/-- With any origin `Vary` stays as it is. -/
theorem addVary_of_anyOrigin {config : CorsConfig} (h : config.anyOrigin = true)
    (headers : HeaderMap) : config.addVary headers [] = headers := by
  simp [addVary, h]

/-- With any origin, a request with an `Origin` header gets the exposed headers on top of
    the star. -/
theorem decorated_of_anyOrigin {config : CorsConfig} (h : config.anyOrigin = true)
    (origin : Option HeaderValue) (headers : HeaderMap) :
    config.decorated origin headers =
      if origin.isSome = true ∧ config.expose ≠ [] then
        (headers.insert .accessControlAllowOrigin (str "*")).insert .accessControlExposeHeaders
          (join (config.expose.map HeaderName.asStr))
      else headers.insert .accessControlAllowOrigin (str "*") := by
  have hcredentials := config.credentials_of_anyOrigin h
  cases origin with
  | none => simp [decorated, h]
  | some origin =>
    have hallowed : config.allowsOrigin origin = true := by simp [allowsOrigin, h]
    simp only [decorated, Option.filter_some, hallowed, if_true, originValue, h, hcredentials,
      Bool.false_eq_true, if_false, Option.isSome_some, true_and, List.isEmpty_iff]
    by_cases hexpose : config.expose = []
    · simp [hexpose]
    · simp [hexpose]

/-- A request that is not a preflight is answered further down, and decorated. -/
theorem handle_of_not_answersItself {config : CorsConfig} {request : Parts}
    (h : ¬ AnswersItself request) (next : Parts → Response) :
    config.handle request next = config.decorate (request.headers.get .origin) (next request) := by
  unfold handle
  cases horigin : request.headers.get .origin with
  | none => rfl
  | some origin =>
    have hpreflight : isPreflight request ≠ true := fun hp => h ⟨by rw [horigin]; rfl, hp⟩
    simp [hpreflight]

/-! ## Two requests -/

section TwoRequests

variable {config : CorsConfig} {request request' : Parts} {next : Parts → Response}

/-- The answers of any-origin mode differ in the exposed headers only, when exactly one of the
    requests has an origin. -/
theorem differ_iff_of_anyOrigin (h : config.anyOrigin = true) (origin origin' : Option HeaderValue)
    (response : Response) :
    (∃ name, IsAccessControl name ∧ (config.decorate origin response).headers.values name ≠
        (config.decorate origin' response).headers.values name) ↔
      config.expose ≠ [] ∧ origin.isSome ≠ origin'.isSome ∧
        response.headers.getAll .accessControlExposeHeaders ≠
          [join (config.expose.map HeaderName.asStr)] := by
  have hexposes : IsAccessControl .accessControlExposeHeaders := by
    rw [IsAccessControl, ← List.isPrefixOf_iff_prefix]
    decide +kernel
  simp only [decorate, addVary_of_anyOrigin h, decorated_of_anyOrigin h]
  -- all origins get the same headers, but only a cross-origin request has them exposed
  by_cases hexpose : config.expose = []
  · simp [hexpose]
  · simp only [hexpose, ne_eq, not_false_eq_true, and_true, true_and]
    cases origin <;> cases origin'
    · simp
    · -- only the second answer exposes headers
      simp only [Option.isSome_none, Option.isSome_some, Bool.false_eq_true, if_false, if_true,
        HeaderMap.values_insert, HeaderMap.getAll]
      constructor
      · rintro ⟨name, -, hname⟩
        refine ⟨by decide, fun hsame => hname ?_⟩
        by_cases hexposed : name = .accessControlExposeHeaders
        · simp [hexposed, hsame]
        · simp [hexposed]
      · rintro ⟨-, hne⟩
        exact ⟨_, hexposes, by simpa using hne⟩
    · -- only the first one does
      simp only [Option.isSome_none, Option.isSome_some, Bool.false_eq_true, if_false, if_true,
        HeaderMap.values_insert, HeaderMap.getAll]
      constructor
      · rintro ⟨name, -, hname⟩
        refine ⟨by decide, fun hsame => hname ?_⟩
        by_cases hexposed : name = .accessControlExposeHeaders
        · simp [hexposed, hsame]
        · simp [hexposed]
      · rintro ⟨-, hne⟩
        exact ⟨_, hexposes, by simpa using Ne.symm hne⟩
    · simp

theorem varies_decorate_of_anyOrigin (h : config.anyOrigin = true) (origin : Option HeaderValue)
    (response : Response) :
    variesOnOrigin (config.decorate origin response) = variesOnOrigin response := by
  have hvary : (config.decorate origin response).headers.values .vary =
      response.headers.values .vary := by
    simp only [decorate, addVary_of_anyOrigin h, decorated_of_anyOrigin h]
    split <;> simp
  rw [variesOnOrigin, variesOnOrigin, present, present, HeaderMap.items_congr hvary]

/-- **When CORS answers are safe in shared caches.** Two requests with the same inner response
    (those that differ only in their origin, say) get answers that a cache may exchange, or
    that say `Vary: Origin`, unless the layer allows any origin and exposes headers, exactly one of the requests has an origin,
    the inner response neither varies on the origin nor exposes the same headers itself. -/
theorem safelyCached_iff (hrequest : ¬ AnswersItself request) (hrequest' : ¬ AnswersItself request')
    (hnext : next request = next request') :
    SafelyCached (config.handle request next) (config.handle request' next) ↔
      ¬ (config.anyOrigin = true ∧ config.expose ≠ [] ∧
        request.headers.containsKey .origin ≠ request'.headers.containsKey .origin ∧
        (next request).headers.getAll .accessControlExposeHeaders ≠
          [join (config.expose.map HeaderName.asStr)] ∧
        variesOnOrigin (next request) = false) := by
  have hkey : ∀ headers : HeaderMap,
      headers.containsKey .origin = (headers.get .origin).isSome := by
    intro headers
    rw [HeaderMap.containsKey, HeaderMap.get]
    cases headers.values .origin <;> rfl
  rw [handle_of_not_answersItself hrequest, handle_of_not_answersItself hrequest', ← hnext, hkey,
    hkey]
  cases hany : config.anyOrigin with
  | false =>
    -- every answer varies on the origin
    have hvaries : ∀ origin, variesOnOrigin (config.decorate origin (next request)) = true :=
      fun origin => varies_decorate hany origin (next request)
    simp [SafelyCached, hvaries]
  | true =>
    rw [SafelyCached, differ_iff_of_anyOrigin hany, varies_decorate_of_anyOrigin hany,
      varies_decorate_of_anyOrigin hany]
    cases variesOnOrigin (next request) <;> simp

end TwoRequests

/-! ## An example -/

/-- A page that is asked for with or without an origin. -/
def pageRequest (origin : Option HeaderValue) : Parts where
  method := .get
  path := str "/"
  query := none
  headers :=
    match origin with
    | some origin => HeaderMap.empty.insert .origin origin
    | none => .empty

/-- An answer without headers. -/
def plainAnswer : Parts → Response := fun _ =>
  { status := 200, headers := .empty, body := .full (some .new) }

/-- `Cors::new().allow_origin("https://app.example")` -/
def listedOrigin : CorsConfig :=
  returned (CorsConfig.new.allowOrigin (str "https://app.example")) (by decide +kernel)

/-- `Cors::new().allow_any_origin().expose_headers(["x-total"])` -/
def anyOriginExposing : CorsConfig :=
  returned (do (← CorsConfig.new.allowAnyOrigin).exposeHeaders [str "x-total"]) (by decide +kernel)

theorem not_answersItself_pageRequest (origin : Option HeaderValue) :
    ¬ AnswersItself (pageRequest origin) := fun h => by
  cases h.2

/-- A listed origin, and no origin. -/
theorem safelyCached_iff_listed :
    SafelyCached (listedOrigin.handle (pageRequest (some (str "https://app.example"))) plainAnswer)
      (listedOrigin.handle (pageRequest none) plainAnswer) := by
  have hlisted : listedOrigin.anyOrigin = false := by decide +kernel
  have hsame : plainAnswer (pageRequest (some (str "https://app.example"))) =
      plainAnswer (pageRequest none) := rfl
  apply (safelyCached_iff (not_answersItself_pageRequest _) (not_answersItself_pageRequest _)
    hsame).mpr
  rw [hlisted]
  exact fun h => absurd h.1 (by decide)

/-- With any origin allowed, an answer without an origin lacks the exposed headers, and
    nothing tells a cache. -/
theorem not_safelyCached_exposing :
    ¬ SafelyCached
      (anyOriginExposing.handle (pageRequest (some (str "https://app.example"))) plainAnswer)
      (anyOriginExposing.handle (pageRequest none) plainAnswer) := by
  intro h
  have hname : IsAccessControl .accessControlExposeHeaders := by
    rw [IsAccessControl, ← List.isPrefixOf_iff_prefix]
    decide +kernel
  have hvaries := (h ⟨.accessControlExposeHeaders, hname, by decide +kernel⟩).1
  revert hvaries
  decide +kernel

end OasRs.Cors
