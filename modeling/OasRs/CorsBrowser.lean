import OasRs.Cors
import OasRs.HeaderLists

/-!
# Browsers and the CORS Layer

The other party of `src/cors.rs`: a browser with a page of another origin, as the Fetch standard
describes it. It asks with a preflight before anything but a simple request, and hides an answer from
the page unless its headers allow it.

## Main results

- `cors_exact`: what a page can send and read is what the configuration says
-/

namespace OasRs.Cors

/-! ## Tokens -/

/-- A token, such as the name of a header or a method. -/
def IsToken (text : Text) : Prop := text ≠ [] ∧ ∀ byte ∈ text, HeaderName.isTokenByte byte = true

/-- The entry of a token. -/
def entryOf (before token : Text) : Entry := { before, value := token, after := [] }

theorem IsToken.written {before token : Text} (h : IsToken token)
    (hbefore : ∀ byte ∈ before, byte = 0x20) : (entryOf before token).Written where
  blank := by
    intro byte hbyte
    rw [entryOf, List.append_nil] at hbyte
    exact .inl (hbefore byte hbyte)
  visible := by
    have hall : ∀ byte, HeaderName.isTokenByte byte = true →
        0x20 ≤ byte ∧ byte < 0x7F ∧ byte ≠ comma := forall_byte (by decide +kernel)
    exact fun byte hbyte => hall byte (h.2 byte hbyte)
  trimmed := by
    have hall : ∀ byte, HeaderName.isTokenByte byte = true → isSpace byte = false :=
      forall_byte (by decide +kernel)
    exact trim_of_not_isSpace fun byte hbyte => hall byte (h.2 byte hbyte)

/-- Tokens with commas between them, and spaces if `blank` says so. -/
def tokenLine (blank : Text) : List Text → HeaderValue
  | [] => []
  | token :: tokens => Entry.line (entryOf [] token :: tokens.map (entryOf blank))

/-- `join` writes a line. -/
theorem join_eq (tokens : List Text) : CorsConfig.join tokens = tokenLine [0x20] tokens := by
  have hseparator : str ", " = [comma, 0x20] := by decide +kernel
  cases tokens with
  | nil => rfl
  | cons token tokens =>
    induction tokens generalizing token with
    | nil => simp [CorsConfig.join, tokenLine, Entry.line, entryOf, Entry.text]
    | cons next tokens ih =>
      have hnext := ih next
      rw [CorsConfig.join] at hnext ⊢
      rw [List.intercalate_cons_cons, hnext, hseparator]
      cases tokens <;> simp [tokenLine, Entry.line, entryOf, Entry.text, List.intercalate_cons_cons]

/-- So does a browser. -/
theorem intercalate_eq (tokens : List Text) : [comma].intercalate tokens = tokenLine [] tokens := by
  cases tokens with
  | nil => rfl
  | cons token tokens =>
    have htext : Entry.text ∘ entryOf [] = id := by
      funext token
      simp [entryOf, Entry.text]
    rw [tokenLine, Entry.line, ← List.map_cons, List.map_map, htext, List.map_id]

section

variable {blank : Text} {tokens : List Text}

theorem written_of_tokens (hblank : ∀ byte ∈ blank, byte = 0x20) (h : ∀ token ∈ tokens, IsToken token)
    {token : Text} (htoken : IsToken token) :
    ∀ entry ∈ entryOf [] token :: tokens.map (entryOf blank), entry.Written := by
  intro entry hentry
  rcases List.mem_cons.mp hentry with rfl | hmem
  · exact htoken.written nofun
  · obtain ⟨other, hother, rfl⟩ := List.mem_map.mp hmem
    exact (h other hother).written hblank

theorem toStr_tokenLine (hblank : ∀ byte ∈ blank, byte = 0x20) (h : ∀ token ∈ tokens, IsToken token) :
    HeaderValue.toStr (tokenLine blank tokens) = some (tokenLine blank tokens) := by
  cases tokens with
  | nil => rfl
  | cons token tokens =>
    exact Entry.toStr_line (written_of_tokens hblank
      (fun token hmem => h token (List.mem_cons_of_mem _ hmem)) (h token List.mem_cons_self))

/-- A line of tokens has these tokens. -/
theorem map_trim_tokenLine (hblank : ∀ byte ∈ blank, byte = 0x20) (hne : tokens ≠ [])
    (h : ∀ token ∈ tokens, IsToken token) :
    ((tokenLine blank tokens).splitOn comma).map trim = tokens := by
  cases tokens with
  | nil => exact absurd rfl hne
  | cons token tokens =>
    have hwritten := written_of_tokens hblank
      (fun token hmem => h token (List.mem_cons_of_mem _ hmem)) (h token List.mem_cons_self)
    have hvalues : ∀ entries : List Entry, (∀ entry ∈ entries, entry.Written) →
        (entries.map Entry.text).map trim = entries.map Entry.value := by
      intro entries hentries
      rw [List.map_map]
      apply List.map_congr_left
      intro entry hentry
      exact (hentries entry hentry).trim_text
    have hvalue : Entry.value ∘ entryOf blank = id := rfl
    rw [tokenLine, Entry.splitOn_line (List.cons_ne_nil _ _) hwritten, hvalues _ hwritten,
      List.map_cons, List.map_map, hvalue, List.map_id]
    rfl

/-- So does an empty line, where empty entries do not count. -/
theorem filter_tokenLine (hblank : ∀ byte ∈ blank, byte = 0x20)
    (h : ∀ token ∈ tokens, IsToken token) :
    (((tokenLine blank tokens).splitOn comma).map trim).filter (· ≠ []) = tokens := by
  by_cases hne : tokens = []
  · subst hne
    rfl
  rw [map_trim_tokenLine hblank hne h]
  apply List.filter_eq_self.mpr
  intro token hmem
  exact decide_eq_true (h token hmem).1

end

/-! ## Pages -/

/-- The methods that a page may use without a preflight. -/
def safelisted (method : Method) : Bool := [Method.get, .head, .post].contains method

/-- A request that a page makes to another origin: with the names of those of its headers that are
    not safelisted, and with credentials or without. -/
structure Page where
  origin : HeaderValue
  request : Parts
  unsafeNames : List Text
  credentials : Bool
  toStr_origin : HeaderValue.toStr origin = some origin
  get_origin : request.headers.get .origin = some origin
  -- only the browser itself may set it
  notMem_requestMethod : request.headers.containsKey .accessControlRequestMethod = false
  isToken_method : IsToken request.method.asStr
  isToken_unsafeNames : ∀ name ∈ unsafeNames, IsToken name

/-- "Get": the lines of a header as one. -/
def combined (headers : HeaderMap) (name : HeaderName) : Option Text :=
  if headers.getAll name = [] then none else some ((str ", ").intercalate (headers.getAll name))

/-- "Extract header list values" -/
def extract (headers : HeaderMap) (name : HeaderName) : List Text :=
  ((headers.items name).map trim).filter (· ≠ [])

namespace Page

/-- "CORS check" -/
def corsCheck (page : Page) (response : Response) : Bool :=
  match combined response.headers .accessControlAllowOrigin with
  | none => false
  | some origin =>
    if !page.credentials && origin == str "*" then true
    else if origin != page.origin then false
    else !page.credentials ||
      combined response.headers .accessControlAllowCredentials == some (str "true")

/-- Whether the request is not a simple one. -/
def needsPreflight (page : Page) : Bool :=
  !safelisted page.request.method || !page.unsafeNames.isEmpty

/-- The request of a "CORS-preflight fetch" -/
def preflightRequest (page : Page) : Parts where
  method := .options
  path := page.request.path
  query := page.request.query
  headers :=
    let headers := (HeaderMap.empty.insert .origin page.origin).insert .accessControlRequestMethod
      page.request.method.asStr
    if page.unsafeNames.isEmpty then headers
    else headers.insert .accessControlRequestHeaders ([comma].intercalate page.unsafeNames)

/-- What a "CORS-preflight fetch" asks of the answer -/
def passes (page : Page) (response : Response) : Bool :=
  let methods := extract response.headers .accessControlAllowMethods
  let headers := extract response.headers .accessControlAllowHeaders
  page.corsCheck response && (200 ≤ response.status && response.status ≤ 299) &&
    (methods.contains page.request.method.asStr || safelisted page.request.method ||
      (!page.credentials && methods.contains (str "*"))) &&
    page.unsafeNames.all fun name =>
      headers.any (eqIgnoreCase · name) ||
        (!page.credentials && headers.contains (str "*") && !eqIgnoreCase name (str "authorization"))

/-- Whether the browser sends the request. -/
def sends (page : Page) (server : Parts → Response) : Bool :=
  !page.needsPreflight || page.passes (server page.preflightRequest)

/-- Whether the page gets to see the answer. -/
def reads (page : Page) (server : Parts → Response) : Bool :=
  page.sends server && page.corsCheck (server page.request)

end Page

/-! ## Policies -/

namespace CorsConfig

/-- Configurations that can be built. -/
inductive Built : CorsConfig → Prop where
  | new : Built new
  | allowOrigin {config config' : CorsConfig} (h : Built config) (origin : Text)
      (hconfig : config.allowOrigin origin = .ok config') : Built config'
  | allowAnyOrigin {config config' : CorsConfig} (h : Built config)
      (hconfig : config.allowAnyOrigin = .ok config') : Built config'
  /-- a `Method` is a token -/
  | allowMethods {config : CorsConfig} (h : Built config) (methods : List Method)
      (hmethods : ∀ method ∈ methods, IsToken method.asStr) : Built (config.allowMethods methods)
  | allowHeaders {config config' : CorsConfig} (h : Built config) (headers : List Text)
      (hconfig : config.allowHeaders headers = .ok config') : Built config'
  | allowAnyHeader {config : CorsConfig} (h : Built config) : Built config.allowAnyHeader
  | allowCredentials {config config' : CorsConfig} (h : Built config) (allow : Bool)
      (hconfig : config.allowCredentials allow = .ok config') : Built config'
  | exposeHeaders {config config' : CorsConfig} (h : Built config) (headers : List Text)
      (hconfig : config.exposeHeaders headers = .ok config') : Built config'
  | withMaxAge {config : CorsConfig} (h : Built config) (maxAge : ℕ) : Built (config.withMaxAge maxAge)

/-- Whether a header is allowed. -/
def AllowsHeader (config : CorsConfig) (name : Text) : Prop :=
  match config.headers with
  | .mirror => True
  | .list names => ∃ allowed ∈ names, eqIgnoreCase allowed.asStr name = true

/-- What a page may do with simple requests: an allowed origin, and credentials only where they are
    allowed. -/
def Trusts (config : CorsConfig) (page : Page) : Prop :=
  (config.anyOrigin = true ∨ page.origin ∈ config.origins) ∧
    (page.credentials = true → config.credentials = true)

/-- What a page may do with other requests. -/
def Permits (config : CorsConfig) (page : Page) : Prop :=
  config.Trusts page ∧ (∃ method ∈ config.methods, method.asStr = page.request.method.asStr) ∧
    ∀ name ∈ page.unsafeNames, config.AllowsHeader name

/-! ### Names of a configuration -/

/-- The names and methods of a configuration are tokens. -/
structure Lawful (config : CorsConfig) : Prop where
  methods : ∀ method ∈ config.methods, IsToken method.asStr
  headers : ∀ names, config.headers = .list names → ∀ name ∈ names, IsToken name.asStr

end CorsConfig

/-- A name in lower case is a token. -/
theorem isToken_lowercase {bytes : Text} (h : IsToken bytes) : IsToken (lowercase bytes) := by
  have hall : ∀ byte : UInt8, HeaderName.isTokenByte byte = true →
      HeaderName.isTokenByte (if 0x41 ≤ byte ∧ byte ≤ 0x5A then byte + 0x20 else byte) = true :=
    forall_byte (by decide +kernel)
  refine ⟨by simpa [lowercase] using h.1, ?_⟩
  intro byte hbyte
  obtain ⟨byte, hmem, rfl⟩ := List.mem_map.mp hbyte
  exact hall byte (h.2 byte hmem)

theorem isToken_of_fromBytes {bytes : Text} {name : HeaderName}
    (h : HeaderName.fromBytes bytes = some name) : IsToken name.asStr := by
  rw [HeaderName.fromBytes] at h
  split at h
  · rename_i hbytes
    obtain ⟨hne, -, hall⟩ := hbytes
    have htoken := isToken_lowercase ⟨hne, List.all_eq_true.mp hall⟩
    cases h
    -- the name is the same, whether it is a standard one or not
    cases hfind : HeaderName.standard.find? (·.asStr == lowercase bytes) with
    | none => exact htoken
    | some standard =>
      have hname : standard.asStr = lowercase bytes := by simpa using List.find?_some hfind
      rw [Option.getD_some, hname]
      exact htoken
  · cases h

theorem isToken_of_headerName {bytes : Text} {name : HeaderName} (h : headerName bytes = .ok name) :
    IsToken name.asStr := by
  rw [headerName] at h
  split at h
  · cases h
    exact isToken_of_fromBytes ‹_›
  · cases h

theorem isToken_of_mapM {bytes : List Text} {names : List HeaderName}
    (h : bytes.mapM headerName = .ok names) : ∀ name ∈ names, IsToken name.asStr := by
  rw [mapM_eq_ok] at h
  induction h with
  | nil => exact nofun
  | cons hname _ ih =>
    intro name hmem
    rcases List.mem_cons.mp hmem with rfl | hlater
    · exact isToken_of_headerName hname
    · exact ih name hlater

namespace CorsConfig

variable {config : CorsConfig}

theorem Lawful.new : Lawful new where
  methods := by
    intro method hmethod
    simp only [CorsConfig.new, List.mem_cons, List.not_mem_nil, or_false] at hmethod
    rcases hmethod with rfl | rfl | rfl <;> exact ⟨by decide +kernel, by decide +kernel⟩
  headers := by
    rintro names ⟨⟩ name hname
    rw [List.mem_singleton.mp hname]
    exact ⟨by decide +kernel, by decide +kernel⟩

/-- What can be built is lawful. -/
theorem Built.lawful (h : config.Built) : config.Lawful := by
  induction h with
  | new => exact .new
  | allowOrigin _ origin hconfig ih =>
    rw [CorsConfig.allowOrigin] at hconfig
    split at hconfig
    · cases hconfig
      exact ⟨ih.methods, ih.headers⟩
    · cases hconfig
  | allowAnyOrigin _ hconfig ih =>
    rw [CorsConfig.allowAnyOrigin] at hconfig
    split at hconfig
    · cases hconfig
      exact ⟨ih.methods, ih.headers⟩
    · cases hconfig
  | allowMethods _ methods hmethods ih => exact ⟨hmethods, ih.headers⟩
  | allowHeaders _ headers hconfig ih =>
    rw [CorsConfig.allowHeaders, bind_eq_ok] at hconfig
    obtain ⟨names, hnames, hconfig⟩ := hconfig
    cases hconfig
    refine ⟨ih.methods, ?_⟩
    rintro _ ⟨⟩ name hname
    exact isToken_of_mapM hnames name hname
  | allowAnyHeader _ ih => exact ⟨ih.methods, nofun⟩
  | allowCredentials _ allow hconfig ih =>
    rw [CorsConfig.allowCredentials] at hconfig
    split at hconfig
    · cases hconfig
      exact ⟨ih.methods, ih.headers⟩
    · cases hconfig
  | exposeHeaders _ headers hconfig ih =>
    rw [CorsConfig.exposeHeaders, bind_eq_ok] at hconfig
    obtain ⟨names, -, hconfig⟩ := hconfig
    cases hconfig
    exact ⟨ih.methods, ih.headers⟩
  | withMaxAge _ maxAge ih => exact ⟨ih.methods, ih.headers⟩

/-! ### The headers of an answer -/

theorem values_addVary {name : HeaderName} (h : name ≠ .vary) (config : CorsConfig)
    (headers : HeaderMap) (extra : List Text) :
    (config.addVary headers extra).values name = headers.values name := by
  have hfold : ∀ (names : List Text) (headers : HeaderMap),
      (names.foldl (fun headers name => if present headers name then headers
        else headers.append .vary name) headers).values name = headers.values name := by
    intro names
    induction names with
    | nil => exact fun _ => rfl
    | cons vary names ih =>
      intro headers
      rw [List.foldl_cons, ih]
      split
      · rfl
      · rw [HeaderMap.values_append, if_neg h]
  rw [addVary]
  split
  · rfl
  · exact hfold _ _

/-- Whether a preflight is answered with permission. -/
def grants (config : CorsConfig) (origin : HeaderValue) (request : Parts) : Bool :=
  config.allowsOrigin origin &&
    (((request.headers.get .accessControlRequestMethod).bind HeaderValue.toStr).map fun method =>
      config.methods.any fun allowed => allowed.asStr == method).getD false &&
    (config.allowedRequestHeaders (request.headers.get .accessControlRequestHeaders)).isSome

theorem preflight_of_not_grants {origin : HeaderValue} {request : Parts}
    (h : config.grants origin request = false) :
    (config.preflight origin request).headers.getAll .accessControlAllowOrigin = [] := by
  rw [HeaderMap.getAll, preflight]
  dsimp only
  rw [values_addVary (by decide)]
  rw [grants, Bool.and_eq_false_iff] at h
  cases hheaders : config.allowedRequestHeaders (request.headers.get .accessControlRequestHeaders) with
  | none => simp [HeaderMap.empty]
  | some headers =>
    rw [hheaders, Option.isSome_some] at h
    have hrefused := h.resolve_right (by decide)
    dsimp only
    rw [if_neg (Bool.eq_false_iff.mp hrefused)]
    simp [HeaderMap.empty]

/-- The headers of a permission. -/
theorem preflight_of_grants {origin : HeaderValue} {request : Parts}
    (h : config.grants origin request = true) :
    ∃ headers, config.allowedRequestHeaders
          (request.headers.get .accessControlRequestHeaders) = some headers ∧
      (config.preflight origin request).headers.getAll .accessControlAllowOrigin =
        [config.originValue origin] ∧
      (config.preflight origin request).headers.getAll .accessControlAllowMethods =
        [join (config.methods.map Method.asStr)] ∧
      (config.preflight origin request).headers.getAll .accessControlAllowHeaders = headers.toList ∧
      (config.preflight origin request).headers.getAll .accessControlAllowCredentials =
        if config.credentials then [str "true"] else [] := by
  rw [grants, Bool.and_eq_true, Option.isSome_iff_exists] at h
  obtain ⟨hallowed, headers, hheaders⟩ := h
  refine ⟨headers, hheaders, ?_⟩
  simp only [HeaderMap.getAll, preflight, hheaders]
  rw [values_addVary (by decide), values_addVary (by decide), values_addVary (by decide),
    values_addVary (by decide), if_pos hallowed]
  cases headers <;> cases config.credentials <;> cases config.maxAge <;> simp [HeaderMap.empty]

/-- The headers that decide over an answer, if the layer behind adds none of them. -/
theorem decorate_values {origin : HeaderValue} {response : Response}
    (horigin : response.headers.getAll .accessControlAllowOrigin = [])
    (hcredentials : response.headers.getAll .accessControlAllowCredentials = []) :
    (config.decorate (some origin) response).headers.getAll .accessControlAllowOrigin =
        (if config.allowsOrigin origin then [config.originValue origin] else []) ∧
      (config.decorate (some origin) response).headers.getAll .accessControlAllowCredentials =
        (if config.allowsOrigin origin && config.credentials then [str "true"] else []) := by
  rw [HeaderMap.getAll] at horigin hcredentials
  simp only [HeaderMap.getAll, decorate]
  rw [values_addVary (by decide), values_addVary (by decide), decorated]
  cases hallowed : config.allowsOrigin origin with
  | false =>
    have hany : config.anyOrigin = false := by
      rw [allowsOrigin, Bool.or_eq_false_iff] at hallowed
      exact hallowed.1
    rw [Option.filter_some_neg hallowed]
    simp [hany, horigin, hcredentials]
  | true =>
    rw [Option.filter_some, if_pos hallowed]
    cases config.credentials <;> cases config.expose.isEmpty <;> simp [hcredentials]

end CorsConfig

/-! ## The browser's checks -/

section Checks

variable {config : CorsConfig} {page : Page} {response : Response}

theorem combined_singleton {headers : HeaderMap} {name : HeaderName} {value : Text}
    (h : headers.getAll name = [value]) : combined headers name = some value := by
  simp [combined, h]

theorem combined_nil {headers : HeaderMap} {name : HeaderName} (h : headers.getAll name = []) :
    combined headers name = none := by
  rw [combined, if_pos h]

theorem corsCheck_of_nil (h : response.headers.getAll .accessControlAllowOrigin = []) :
    page.corsCheck response = false := by
  rw [Page.corsCheck, combined_nil h]

/-- An answer for the origin of the page: only credentials can be the matter. -/
theorem corsCheck_of_origin
    (horigin : response.headers.getAll .accessControlAllowOrigin = [config.originValue page.origin])
    (hcredentials : response.headers.getAll .accessControlAllowCredentials =
      if config.credentials then [str "true"] else []) :
    page.corsCheck response = true ↔ (page.credentials = true → config.credentials = true) := by
  rw [Page.corsCheck, combined_singleton horigin]
  dsimp only
  cases hpage : page.credentials with
  | false =>
    -- the star is enough, and so is the origin
    cases hany : config.anyOrigin <;> simp [CorsConfig.originValue, hany]
  | true =>
    cases hconfig : config.credentials with
    | false =>
      rw [hconfig] at hcredentials
      rw [combined_nil hcredentials]
      simp
    | true =>
      rw [hconfig] at hcredentials
      rw [combined_singleton hcredentials]
      have hany : config.anyOrigin = false := by
        cases hany : config.anyOrigin with
        | false => rfl
        | true =>
          rw [config.credentials_of_anyOrigin hany] at hconfig
          cases hconfig
      simp [CorsConfig.originValue, hany]

theorem allowsOrigin_iff : config.allowsOrigin page.origin = true ↔
    config.anyOrigin = true ∨ page.origin ∈ config.origins := by
  simp [CorsConfig.allowsOrigin, page.toStr_origin]

/-- The names that a browser finds in a line. -/
theorem extract_of_line {headers : HeaderMap} {name : HeaderName} {blank : Text} {tokens : List Text}
    (hblank : ∀ byte ∈ blank, byte = 0x20) (h : ∀ token ∈ tokens, IsToken token)
    (hline : headers.getAll name = [tokenLine blank tokens]) : extract headers name = tokens := by
  rw [extract, HeaderMap.items, hline, List.filterMap_cons_some (toStr_tokenLine hblank h),
    List.filterMap_nil, List.flatMap_cons, List.flatMap_nil, List.append_nil,
    filter_tokenLine hblank h]

/-! ### Preflights -/

theorem get_requestMethod (page : Page) :
    (page.preflightRequest.headers.get .accessControlRequestMethod).bind HeaderValue.toStr =
      some page.request.method.asStr := by
  have hvisible : HeaderValue.toStr page.request.method.asStr = some page.request.method.asStr := by
    have hline := @toStr_tokenLine [] [page.request.method.asStr] nofun
      (by simpa using page.isToken_method)
    simpa [tokenLine, Entry.line, Entry.text, entryOf] using hline
  have hget : page.preflightRequest.headers.get .accessControlRequestMethod =
      some page.request.method.asStr := by
    rw [Page.preflightRequest, HeaderMap.get]
    split <;> simp
  rw [hget, Option.bind_some, hvisible]

theorem get_requestHeaders (page : Page) :
    page.preflightRequest.headers.get .accessControlRequestHeaders =
      if page.unsafeNames = [] then none else some (tokenLine [] page.unsafeNames) := by
  rw [Page.preflightRequest, HeaderMap.get, intercalate_eq]
  cases page.unsafeNames with
  | nil => simp [HeaderMap.empty]
  | cons name names => simp

theorem tokenLine_ne_nil {blank : Text} {tokens : List Text} (hne : tokens ≠ [])
    (h : ∀ token ∈ tokens, IsToken token) : tokenLine blank tokens ≠ [] := by
  cases tokens with
  | nil => exact absurd rfl hne
  | cons token tokens =>
    intro hnil
    have htoken := (h token List.mem_cons_self).1
    cases tokens <;> simp_all [tokenLine, Entry.line, Entry.text, entryOf,
      List.intercalate_cons_cons]

/-- The headers that the answer to a preflight allows: none is asked for, the ones that are asked
    for, or the list. -/
theorem allowedRequestHeaders_eq (config : CorsConfig) (page : Page) :
    config.allowedRequestHeaders (page.preflightRequest.headers.get .accessControlRequestHeaders) =
      if page.unsafeNames = [] then some none
      else
        match config.headers with
        | .mirror => some (some (tokenLine [] page.unsafeNames))
        | .list names =>
          if page.unsafeNames.all fun name => names.any fun allowed => eqIgnoreCase allowed.asStr name
          then some (some (tokenLine [0x20] (names.map HeaderName.asStr)))
          else none := by
  have htokens := page.isToken_unsafeNames
  rw [get_requestHeaders]
  by_cases hnames : page.unsafeNames = []
  · rw [if_pos hnames, if_pos hnames]
    rfl
  rw [if_neg hnames, if_neg hnames, CorsConfig.allowedRequestHeaders, Option.bind_some,
    @toStr_tokenLine [] _ nofun htokens]
  dsimp only
  rw [if_neg (tokenLine_ne_nil hnames htokens)]
  cases config.headers with
  | mirror =>
    dsimp only
    rw [fromBytes_of_toStr (@toStr_tokenLine [] _ nofun htokens)]
  | list names =>
    have hall : ((tokenLine [] page.unsafeNames).splitOn comma).all (fun name =>
          names.any fun allowed => eqIgnoreCase allowed.asStr (trim name)) =
        page.unsafeNames.all fun name => names.any fun allowed => eqIgnoreCase allowed.asStr name := by
      have htrim := @map_trim_tokenLine [] _ nofun hnames htokens
      calc ((tokenLine [] page.unsafeNames).splitOn comma).all (fun name =>
            names.any fun allowed => eqIgnoreCase allowed.asStr (trim name))
          = (((tokenLine [] page.unsafeNames).splitOn comma).map trim).all fun name =>
              names.any fun allowed => eqIgnoreCase allowed.asStr name := by rw [List.all_map]; rfl
        _ = _ := by rw [htrim]
    dsimp only
    rw [hall, join_eq]

/-! ### What a page can do -/

/-- The configuration grants a preflight to those it permits. -/
theorem grants_iff : config.grants page.origin page.preflightRequest = true ↔
    (config.anyOrigin = true ∨ page.origin ∈ config.origins) ∧
      (∃ method ∈ config.methods, method.asStr = page.request.method.asStr) ∧
        ∀ name ∈ page.unsafeNames, config.AllowsHeader name := by
  have hheaders : (config.allowedRequestHeaders
        (page.preflightRequest.headers.get .accessControlRequestHeaders)).isSome = true ↔
      ∀ name ∈ page.unsafeNames, config.AllowsHeader name := by
    rw [allowedRequestHeaders_eq]
    by_cases hnames : page.unsafeNames = []
    · simp [hnames]
    · rw [if_neg hnames]
      cases hconfig : config.headers with
      | mirror => simp [CorsConfig.AllowsHeader, hconfig]
      | list names =>
        dsimp only
        split
        · rename_i hall
          rw [List.all_eq_true] at hall
          refine iff_of_true rfl ?_
          intro name hname
          simpa [CorsConfig.AllowsHeader, hconfig] using hall name hname
        · rename_i hall
          refine iff_of_false Bool.false_ne_true ?_
          intro hallowed
          apply hall
          rw [List.all_eq_true]
          intro name hname
          simpa [CorsConfig.AllowsHeader, hconfig] using hallowed name hname
  rw [CorsConfig.grants, get_requestMethod, Bool.and_eq_true, Bool.and_eq_true, allowsOrigin_iff,
    hheaders, and_assoc]
  simp

/-- A preflight that is granted lists every header that was asked for. -/
theorem extract_allowHeaders (hlawful : config.Lawful) {headers : Option HeaderValue}
    (hheaders : config.allowedRequestHeaders
      (page.preflightRequest.headers.get .accessControlRequestHeaders) = some headers)
    {answer : HeaderMap} (hanswer : answer.getAll .accessControlAllowHeaders = headers.toList) :
    ∀ name ∈ page.unsafeNames, (extract answer .accessControlAllowHeaders).any (eqIgnoreCase · name) := by
  intro name hname
  have hne : page.unsafeNames ≠ [] := List.ne_nil_of_mem hname
  rw [allowedRequestHeaders_eq, if_neg hne] at hheaders
  cases hconfig : config.headers with
  | mirror =>
    rw [hconfig] at hheaders
    cases hheaders
    rw [@extract_of_line _ _ [] _ nofun page.isToken_unsafeNames hanswer, List.any_eq_true]
    exact ⟨name, hname, beq_self_eq_true _⟩
  | list names =>
    rw [hconfig] at hheaders
    dsimp only at hheaders
    split at hheaders
    · rename_i hall
      cases hheaders
      have htokens : ∀ token ∈ names.map HeaderName.asStr, IsToken token := by
        intro token htoken
        obtain ⟨allowed, hmem, rfl⟩ := List.mem_map.mp htoken
        exact hlawful.headers names hconfig allowed hmem
      rw [extract_of_line (by simp) htokens hanswer, List.any_map]
      exact List.all_eq_true.mp hall name hname
    · cases hheaders

/-- A page passes a preflight if it is permitted what it wants to do. -/
theorem passes_iff (hlawful : config.Lawful) :
    page.passes (config.preflight page.origin page.preflightRequest) = true ↔ config.Permits page := by
  rw [CorsConfig.Permits, CorsConfig.Trusts]
  by_cases hgrants : config.grants page.origin page.preflightRequest = true
  · obtain ⟨headers, hheaders, horigin, hmethods, hallow, hcredentials⟩ :=
      CorsConfig.preflight_of_grants hgrants
    obtain ⟨hallowed, hmethod, hnames⟩ := grants_iff.mp hgrants
    have hextract : extract (config.preflight page.origin page.preflightRequest).headers
        .accessControlAllowMethods = config.methods.map Method.asStr := by
      rw [join_eq] at hmethods
      refine extract_of_line (by simp) ?_ hmethods
      intro token htoken
      obtain ⟨method, hmem, rfl⟩ := List.mem_map.mp htoken
      exact hlawful.methods method hmem
    have hcontains : (config.methods.map Method.asStr).contains page.request.method.asStr = true := by
      obtain ⟨method, hmem, hsame⟩ := hmethod
      rw [List.contains_iff_mem, ← hsame]
      exact List.mem_map_of_mem hmem
    have hcounted : ∀ name ∈ page.unsafeNames,
        (extract (config.preflight page.origin page.preflightRequest).headers
          .accessControlAllowHeaders).any (eqIgnoreCase · name) :=
      extract_allowHeaders hlawful hheaders hallow
    have hstatus : (config.preflight page.origin page.preflightRequest).status = 204 := rfl
    -- all that is left is whether credentials are allowed
    rw [← corsCheck_of_origin horigin hcredentials, Page.passes]
    simp only [hextract, hcontains, hstatus]
    constructor
    · intro hpasses
      simp only [Bool.and_eq_true] at hpasses
      exact ⟨⟨hallowed, hpasses.1.1.1⟩, hmethod, hnames⟩
    · rintro ⟨⟨-, hcheck⟩, -⟩
      rw [hcheck]
      simp only [Bool.true_or, Bool.true_and, Bool.and_true]
      rw [Bool.and_eq_true, List.all_eq_true]
      refine ⟨rfl, ?_⟩
      intro name hname
      rw [hcounted name hname, Bool.true_or]
  · have hcheck := @corsCheck_of_nil page _
      (CorsConfig.preflight_of_not_grants (Bool.eq_false_iff.mpr hgrants))
    refine iff_of_false ?_ ?_
    · rw [Page.passes, hcheck]
      simp
    · rintro ⟨⟨hallowed, -⟩, hmethod, hnames⟩
      exact hgrants (grants_iff.mpr ⟨hallowed, hmethod, hnames⟩)

end Checks

/-! ## The layer -/

/-- What is behind the layer leaves the decision to it. -/
def Silent (next : Parts → Response) (page : Page) : Prop :=
  (next page.request).headers.getAll .accessControlAllowOrigin = [] ∧
    (next page.request).headers.getAll .accessControlAllowCredentials = []

section Layer

variable {config : CorsConfig} {page : Page} {next : Parts → Response}

theorem handle_preflightRequest (config : CorsConfig) (page : Page) (next : Parts → Response) :
    config.handle page.preflightRequest next = config.preflight page.origin page.preflightRequest := by
  have horigin : page.preflightRequest.headers.get .origin = some page.origin := by
    rw [Page.preflightRequest, HeaderMap.get]
    split <;> simp
  have hpreflight : CorsConfig.isPreflight page.preflightRequest = true := by
    rw [CorsConfig.isPreflight, Page.preflightRequest]
    dsimp only
    split <;> simp
  rw [CorsConfig.handle, horigin]
  exact if_pos hpreflight

theorem handle_request (config : CorsConfig) (page : Page) (next : Parts → Response) :
    config.handle page.request next = config.decorate (some page.origin) (next page.request) := by
  rw [handle_of_not_answersItself, page.get_origin]
  rintro ⟨-, hpreflight⟩
  rw [CorsConfig.isPreflight, page.notMem_requestMethod, Bool.and_false] at hpreflight
  cases hpreflight

/-- The answer to the request itself is for those that are trusted. -/
theorem corsCheck_request (hsilent : Silent next page) :
    page.corsCheck (config.handle page.request next) = true ↔ config.Trusts page := by
  rw [handle_request, CorsConfig.Trusts, ← allowsOrigin_iff]
  obtain ⟨horigin, hcredentials⟩ :=
    @CorsConfig.decorate_values config page.origin _ hsilent.1 hsilent.2
  cases hallowed : config.allowsOrigin page.origin with
  | false =>
    rw [hallowed, if_neg Bool.false_ne_true] at horigin
    rw [corsCheck_of_nil horigin]
    simp
  | true =>
    rw [hallowed, if_pos rfl] at horigin
    rw [hallowed, Bool.true_and] at hcredentials
    rw [corsCheck_of_origin horigin hcredentials]
    simp

/-- **The browser enforces the configuration.** For every configuration that can be built, every page
of another origin with any request, and everything behind the layer that leaves the decision to it: a
request that is not a simple one is sent only if the configuration permits its origin, method, headers
and credentials, and the page sees an answer exactly if it is permitted that, or its simple request is
trusted with it. -/
theorem cors_exact (hbuilt : config.Built) (hsilent : Silent next page) :
    (page.sends (config.handle · next) = true ↔
      (page.needsPreflight = true → config.Permits page)) ∧
    (page.reads (config.handle · next) = true ↔
      if page.needsPreflight then config.Permits page else config.Trusts page) := by
  have hsends : page.sends (config.handle · next) = true ↔
      (page.needsPreflight = true → config.Permits page) := by
    rw [Page.sends, handle_preflightRequest, Bool.or_eq_true, passes_iff hbuilt.lawful,
      Bool.not_eq_true', or_iff_not_imp_left, Bool.not_eq_false]
  refine ⟨hsends, ?_⟩
  rw [Page.reads, Bool.and_eq_true, hsends, corsCheck_request hsilent]
  cases page.needsPreflight with
  | false => simp
  | true =>
    simp only [forall_const, if_true, and_iff_left_iff_imp]
    exact fun hpermits => hpermits.1

/-- A page that posts JSON. -/
def jsonPage : Page where
  origin := str "https://app.example"
  request :=
    { method := .post
      path := str "/items"
      query := none
      headers := (HeaderMap.empty.insert .origin (str "https://app.example")).insert .contentType
        (str "application/json") }
  unsafeNames := [str "content-type"]
  credentials := false
  toStr_origin := by decide +kernel
  get_origin := by decide +kernel
  notMem_requestMethod := by decide +kernel
  isToken_method := ⟨by decide +kernel, by decide +kernel⟩
  isToken_unsafeNames := by
    intro name hname
    rw [List.mem_singleton.mp hname]
    exact ⟨by decide +kernel, by decide +kernel⟩

theorem cors_exact_json : jsonPage.reads (listedOrigin.handle · plainAnswer) = true := by
  have hbuilt : listedOrigin.Built :=
    .allowOrigin .new (str "https://app.example") (eq_returned _)
  have hsilent : Silent plainAnswer jsonPage := ⟨rfl, rfl⟩
  rw [(cors_exact hbuilt hsilent).2, if_pos (by decide +kernel)]
  refine ⟨⟨.inr (by decide +kernel), by decide⟩, ⟨.post, by decide +kernel, rfl⟩, ?_⟩
  intro name hname
  rw [List.mem_singleton.mp hname]
  exact ⟨.contentType, by decide +kernel, by decide +kernel⟩

end Layer

end OasRs.Cors
