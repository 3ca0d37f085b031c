import OasRs.Chain
import OasRs.QueryText

/-!
# Bearer Authentication

`src/bearer.rs`: the layer that asks for a bearer token, the comparison that does not stop at the
first difference, and what the layer keeps from whoever has no token. The validator is a
parameter.

## Main results

- `constantTimeEq_iff`: the comparison is equality
- `staticToken_exact`: which `Authorization` headers a static token lets through
- `exempt_dispatch`: an exempt path lets through what the listed path reaches
- `bearerAuth_guards`: without a token, nothing behind the layer has an influence on the response
-/

namespace OasRs

open Lib.Polling
open Lib.Pairs (cut_eq_some_iff)

/-! ## `constant_time_eq` -/

/-- The loop of `constant_time_eq`, over the positions of the longer input. -/
def byteDifferences (a b : Text) : ℕ :=
  (List.range (max a.length b.length)).foldl
    (fun diff index => diff ||| ((a[index]?.getD 0) ^^^ (b[index]?.getD 0)).toNat)
    (a.length ^^^ b.length)

/-- `constant_time_eq` -/
def constantTimeEq (a b : Text) : Bool := byteDifferences a b == 0

/-- A bitwise or is zero if all its parts are. -/
theorem foldl_or_eq_zero {α : Type*} (f : α → ℕ) (xs : List α) (n : ℕ) :
    xs.foldl (fun diff x => diff ||| f x) n = 0 ↔ n = 0 ∧ ∀ x ∈ xs, f x = 0 := by
  induction xs generalizing n with
  | nil => simp
  | cons x xs ih =>
    rw [List.foldl_cons, ih, Nat.or_eq_zero_iff]
    simp [and_assoc]

/-- Two bytes have no difference if they are the same byte. -/
theorem xor_toNat_eq_zero (x y : UInt8) : (x ^^^ y).toNat = 0 ↔ x = y := by
  rw [UInt8.toNat_xor, Nat.xor_eq_zero_iff]
  exact UInt8.toNat_inj

/-- The comparison is equality. -/
theorem constantTimeEq_iff (a b : Text) : constantTimeEq a b = true ↔ a = b := by
  rw [constantTimeEq, beq_iff_eq, byteDifferences, foldl_or_eq_zero, Nat.xor_eq_zero_iff]
  constructor
  · rintro ⟨hlength, hbytes⟩
    apply List.ext_getElem hlength
    intro index ha hb
    have hbyte := hbytes index (List.mem_range.mpr (lt_max_of_lt_left ha))
    rw [xor_toNat_eq_zero, List.getElem?_eq_getElem ha, List.getElem?_eq_getElem hb] at hbyte
    exact hbyte
  · rintro rfl
    refine ⟨rfl, ?_⟩
    intro index _
    rw [xor_toNat_eq_zero]

/-! ## The layer -/

/-- `header::AUTHORIZATION` -/
def authorization : HeaderName := .custom (str "authorization")

/-- `header::WWW_AUTHENTICATE` -/
def wwwAuthenticate : HeaderName := .custom (str "www-authenticate")

/-- The error for a request without a valid token. -/
def tokenRequired : ApiError := .new 401 "Unauthorized" "a valid bearer token is required"

/-- `bearer_token` -/
def bearerToken (value : HeaderValue) : Option Text := do
  let value ← HeaderValue.toStr value
  let (scheme, token) ← splitOnce (str " ") value
  let token := trim token
  if eqIgnoreCase scheme (str "bearer") && !token.isEmpty then some token else none

/-- `BearerAuth` -/
structure BearerAuth where
  validator : Text → Future (Except ApiError Unit)
  exempt : List Text

namespace BearerAuth

/-- `BearerAuth::new` -/
def new (validator : Text → Future (Except ApiError Unit)) : BearerAuth := { validator, exempt := [] }

/-- `BearerAuth::static_token` -/
def staticToken (expected : Text) : BearerAuth :=
  new fun presented =>
    .ready (if constantTimeEq presented expected then .ok () else .error tokenRequired)

/-- `BearerAuth::exempt_paths` -/
def exemptPaths (auth : BearerAuth) (paths : List Text) : BearerAuth :=
  { auth with exempt := paths.map normalizePath }

/-- Whether a path is exempt. -/
def isExempt (auth : BearerAuth) (path : Text) : Bool :=
  auth.exempt.any (· == normalizeRequestPath path)

/-- The token that a request presents. -/
def presented (headers : HeaderMap) : Option Text := (headers.get authorization).bind bearerToken

section

-- `serde_json::to_vec(..).unwrap_or_default()`
variable (toVec : Json → Bytes)

/-- `unauthorized` -/
def unauthorized : Response :=
  let response := tokenRequired.intoResponse toVec
  { response with headers := response.headers.insert wwwAuthenticate (str "Bearer") }

/-- `Middleware for BearerAuth` -/
def layer {Incoming : Type} (auth : BearerAuth) : Layer Incoming := fun request =>
  if auth.isExempt request.parts.path then .ready (.next request .ready)
  else
    match presented request.parts.headers with
    | none => .ready (.answer (unauthorized toVec))
    | some token =>
      (auth.validator token).map fun
        | .ok _ => .next request .ready
        | .error error => .answer (error.intoResponse toVec)

end

end BearerAuth

/-! ## Tokens -/

theorem str_space : str " " = [0x20] := by decide

/-- A header value that can be read as a string is that string. -/
theorem toStr_eq_some {value text : Text} (h : HeaderValue.toStr value = some text) : text = value := by
  unfold HeaderValue.toStr at h
  split at h
  · exact (Option.some.inj h).symm
  · cases h

/-- A scheme has no blank. -/
theorem notMem_of_lowercase {scheme : Text} (h : lowercase scheme = str "bearer") :
    (0x20 : UInt8) ∉ scheme := by
  intro hmem
  have hspace : (0x20 : UInt8) ∈ lowercase scheme := List.mem_map.mpr ⟨0x20, hmem, rfl⟩
  rw [h] at hspace
  exact absurd hspace (by decide)

theorem bearerToken_eq_some_iff {value token : Text} :
    bearerToken value = some token ↔ HeaderValue.toStr value = some value ∧
      ∃ scheme rest, value = scheme ++ 0x20 :: rest ∧ lowercase scheme = str "bearer" ∧
        trim rest = token ∧ token ≠ [] := by
  have hbearer : lowercase (str "bearer") = str "bearer" := by decide
  constructor
  · intro h
    obtain ⟨text, htext, hparts⟩ := Option.bind_eq_some_iff.mp h
    obtain rfl := toStr_eq_some htext
    obtain ⟨⟨scheme, rest⟩, hcut, htoken⟩ := Option.bind_eq_some_iff.mp hparts
    rw [str_space, splitOnce_singleton, cut_eq_some_iff] at hcut
    simp only [Option.ite_none_right_eq_some, Bool.and_eq_true, Bool.not_eq_true',
      List.isEmpty_eq_false_iff, Option.some.injEq] at htoken
    obtain ⟨⟨hscheme, hne⟩, rfl⟩ := htoken
    rw [eqIgnoreCase, hbearer, beq_iff_eq] at hscheme
    exact ⟨htext, scheme, rest, hcut.1, hscheme, rfl, hne⟩
  · rintro ⟨htext, scheme, rest, rfl, hscheme, rfl, hne⟩
    refine Option.bind_eq_some_iff.mpr ⟨_, htext, ?_⟩
    refine Option.bind_eq_some_iff.mpr ⟨(scheme, rest), ?_, ?_⟩
    · rw [str_space, splitOnce_singleton]
      exact cut_eq_some_iff.mpr ⟨rfl, notMem_of_lowercase hscheme⟩
    · simp [eqIgnoreCase, hbearer, hscheme, hne]

theorem isExempt_iff {auth : BearerAuth} {paths : List Text} {path : Text} :
    (auth.exemptPaths paths).isExempt path = true ↔
      ∃ listed ∈ paths, normalizePath listed = normalizeRequestPath path := by
  simp [BearerAuth.isExempt, BearerAuth.exemptPaths]

/-- **A static token lets exactly itself through**, with the scheme in any case and blanks around
the token, and any request for an exempt path; every other request is answered with `401`. -/
theorem staticToken_exact {Incoming : Type} (toVec : Json → Bytes) (expected : Text)
    (paths : List Text) (request : HttpRequest (Middleware.RequestBody Incoming)) :
    let auth := (BearerAuth.staticToken expected).exemptPaths paths
    (auth.layer toVec request = .ready (.next request .ready) ↔
        (∃ path ∈ paths, normalizePath path = normalizeRequestPath request.parts.path) ∨
          expected ≠ [] ∧ ∃ scheme rest,
            request.parts.headers.get authorization = some (scheme ++ 0x20 :: rest) ∧
              HeaderValue.toStr (scheme ++ 0x20 :: rest) = some (scheme ++ 0x20 :: rest) ∧
              lowercase scheme = str "bearer" ∧ trim rest = expected) ∧
      (auth.layer toVec request ≠ .ready (.next request .ready) →
        ∃ response, auth.layer toVec request = .ready (.answer response) ∧
          response.status = 401) := by
  intro auth
  have hexempt : auth.isExempt request.parts.path = true ↔ _ := isExempt_iff
  -- what counts as presenting the token, spelled out
  have hpresented : BearerAuth.presented request.parts.headers = some expected ↔
      expected ≠ [] ∧ ∃ scheme rest,
        request.parts.headers.get authorization = some (scheme ++ 0x20 :: rest) ∧
          HeaderValue.toStr (scheme ++ 0x20 :: rest) = some (scheme ++ 0x20 :: rest) ∧
          lowercase scheme = str "bearer" ∧ trim rest = expected := by
    rw [BearerAuth.presented, Option.bind_eq_some_iff]
    constructor
    · rintro ⟨value, hvalue, htoken⟩
      obtain ⟨htext, scheme, rest, rfl, hscheme, hrest, hne⟩ := bearerToken_eq_some_iff.mp htoken
      exact ⟨hne, scheme, rest, hvalue, htext, hscheme, hrest⟩
    · rintro ⟨hne, scheme, rest, hvalue, htext, hscheme, hrest⟩
      exact ⟨_, hvalue, bearerToken_eq_some_iff.mpr ⟨htext, scheme, rest, rfl, hscheme, hrest, hne⟩⟩
  rw [← hexempt, ← hpresented]
  unfold BearerAuth.layer
  cases hpath : auth.isExempt request.parts.path with
  | true =>
    rw [if_pos rfl]
    exact ⟨by simp, absurd rfl⟩
  | false =>
    rw [if_neg Bool.false_ne_true]
    cases htoken : BearerAuth.presented request.parts.headers with
    | none => exact ⟨by simp, fun _ => ⟨_, rfl, rfl⟩⟩
    | some token =>
      -- the comparison decides
      by_cases heq : token = expected
      · subst heq
        have hsame : auth.validator token = .ready (.ok ()) := by
          show Future.ready (if constantTimeEq token token = true then _ else _) = _
          rw [if_pos ((constantTimeEq_iff token token).mpr rfl)]
        simp only [hsame]
        exact ⟨by simp [Future.map], absurd rfl⟩
      · have hother : auth.validator token = .ready (.error tokenRequired) := by
          show Future.ready (if constantTimeEq token expected = true then _ else _) = _
          rw [if_neg (mt (constantTimeEq_iff token expected).mp heq)]
        simp only [hother]
        exact ⟨by simp [Future.map, heq], fun _ => ⟨_, rfl, rfl⟩⟩

/-! ## Exempt paths -/

/-- **An exempt path lets through what the listed path reaches**, and nothing else: a request whose
path is exempt is dispatched as one for a path of the list, whatever the method. -/
theorem exempt_dispatch {H M : Type} {auth : BearerAuth} {paths : List Text} {path : Text}
    (h : (auth.exemptPaths paths).isExempt path = true) :
    ∃ listed ∈ paths, ∀ (runtime : Runtime H M) (method : Method),
      runtime.dispatch method path = runtime.dispatch method (normalizePath listed) := by
  obtain ⟨listed, hmem, hsame⟩ := isExempt_iff.mp h
  refine ⟨listed, hmem, ?_⟩
  intro runtime method
  unfold Runtime.dispatch
  rw [normalizeRequestPath_normalizePath, hsame]

/-! ## Behind a layer -/

section Guards

variable {S S' Incoming M : Type} {behave : M → Layer Incoming}

/-- A layer that answers the request itself. -/
def Layer.Blocks (layer : Layer Incoming)
    (request : HttpRequest (Middleware.RequestBody Incoming)) : Prop :=
  ∀ step, (layer request).Gives step → ∃ response, step = .answer response

/-- A layer that passes on only requests of a kind when it gets one. -/
def Layer.Keeps (layer : Layer Incoming)
    (P : HttpRequest (Middleware.RequestBody Incoming) → Prop) : Prop :=
  ∀ request, P request → ∀ request' after,
    (layer request).Gives (.next request' after) → P request'

/-- What is behind a layer that answers itself does not matter. -/
theorem handle_of_blocks {layer : M} {request : HttpRequest (Middleware.RequestBody Incoming)}
    (h : (behave layer).Blocks request)
    (next next' : HttpRequest (Middleware.RequestBody Incoming) → Run M) :
    Layer.handle behave layer request next = Layer.handle behave layer request next' := by
  unfold Layer.handle
  rw [Traced.bind_congr]
  intro step hstep
  obtain ⟨response, rfl⟩ := h step hstep
  rfl

/-- Two chains with the same layers up to a guard give the same to requests that the guard
answers, if the layers before it do not change that. -/
theorem composition_blocked {before after after' : List (ScopedLayer M)} {guard : ScopedLayer M}
    {dispatch dispatch' : HttpRequest (Middleware.RequestBody Incoming) → Run M}
    {P : HttpRequest (Middleware.RequestBody Incoming) → Prop}
    (hbefore : ∀ entry ∈ before, (behave entry.layer).Keeps P)
    (hguard : ∀ request, P request →
      guard.covers request.head = true ∧ (behave guard.layer).Blocks request)
    {request : HttpRequest (Middleware.RequestBody Incoming)} (hrequest : P request) :
    composition HttpRequest.head (Layer.handle behave) dispatch (before ++ guard :: after) request =
      composition HttpRequest.head (Layer.handle behave) dispatch' (before ++ guard :: after')
        request := by
  induction before generalizing request with
  | nil =>
    obtain ⟨hcovers, hblocks⟩ := hguard request hrequest
    rw [List.nil_append, List.nil_append, composition, composition, List.foldr_cons,
      List.foldr_cons, ScopedLayer.wrap, ScopedLayer.wrap, if_pos hcovers, if_pos hcovers]
    exact handle_of_blocks hblocks _ _
  | cons entry before ih =>
    have hkeeps := hbefore entry List.mem_cons_self
    have hbefore' := fun entry hentry => hbefore entry (List.mem_cons_of_mem _ hentry)
    have hrest := fun {request} => @ih hbefore' request
    rw [List.cons_append, List.cons_append, composition, composition, List.foldr_cons,
      List.foldr_cons, ScopedLayer.wrap, ScopedLayer.wrap]
    split
    · -- the layer answers, or it passes on a request that the guard answers
      unfold Layer.handle
      rw [Traced.bind_congr]
      intro step hstep
      cases step with
      | answer response => rfl
      | next request' after =>
        exact congrArg (fun run : Run M => run.bind _)
          (hrest (hkeeps request hrequest request' after hstep))
    · exact hrest hrequest

/-- A request that is covered by the layer, is not exempt and presents no token that the validator
accepts. -/
def BearerAuth.Unauthorized (auth : BearerAuth) (scope : Scope)
    (request : HttpRequest (Middleware.RequestBody Incoming)) : Prop :=
  scope.matches request.parts.method request.parts.path = true ∧
    auth.isExempt request.parts.path = false ∧
    ∀ token ∈ BearerAuth.presented request.parts.headers, ∀ u,
      ¬ (auth.validator token).Gives (.ok u)

theorem BearerAuth.blocks_of_unauthorized (toVec : Json → Bytes) {auth : BearerAuth} {scope : Scope}
    {request : HttpRequest (Middleware.RequestBody Incoming)} (h : auth.Unauthorized scope request) :
    (auth.layer toVec : Layer Incoming).Blocks request := by
  obtain ⟨_, hexempt, htoken⟩ := h
  intro step hstep
  unfold BearerAuth.layer at hstep
  rw [hexempt, if_neg Bool.false_ne_true] at hstep
  cases hpresented : BearerAuth.presented request.parts.headers with
  | none =>
    rw [hpresented] at hstep
    exact ⟨_, (Future.gives_ready.mp hstep).symm⟩
  | some token =>
    rw [hpresented] at hstep
    obtain ⟨verdict, hverdict, rfl⟩ := Future.gives_map.mp hstep
    cases verdict with
    | ok u => exact absurd hverdict (htoken token hpresented u)
    | error error => exact ⟨_, rfl⟩

/-- **Without a token, nothing behind the layer has an influence.** Two servers with the same
layers up to a `BearerAuth`, and any routes, handlers, states and layers behind it, treat a request
alike, poll by poll: they run the same layers and give the same response. The request presents no
accepted token, its path is not exempt, and the scope of the layer covers it; and the layers before
pass on, if they do, only such requests when they get one. -/
theorem bearerAuth_guards (toVec : Json → Bytes) {auth : BearerAuth} {env env' : Environment Incoming}
    {server : Server S Incoming M} {server' : Server S' Incoming M}
    {before after after' : List (ScopedLayer M)} {guard : ScopedLayer M}
    (hlayer : behave guard.layer = auth.layer toVec)
    (hserver : server.runtime.middleware = before ++ guard :: after)
    (hserver' : server'.runtime.middleware = before ++ guard :: after')
    (hbefore : ∀ entry ∈ before, (behave entry.layer).Keeps (auth.Unauthorized guard.scope)) :
    (∀ request : HttpRequest Incoming,
      auth.Unauthorized guard.scope { parts := request.parts, body := .incoming request.body } →
      ∀ n, server.prepare env behave request (n + 1) = server'.prepare env' behave request (n + 1)) ∧
    ∀ request : HttpRequest Bytes,
      auth.Unauthorized guard.scope
        { parts := request.parts, body := (.full request.body : Middleware.RequestBody Incoming) } →
      ∀ n, server.oneshot env behave request (n + 1) =
        server'.oneshot env' behave request (n + 1) := by
  -- the layers before the guard keep the request without a token, and the guard answers it
  have hsame : ∀ request, auth.Unauthorized guard.scope request →
      server.composed env behave request = server'.composed env' behave request := by
    intro request hrequest
    unfold Server.composed
    rw [hserver, hserver']
    apply composition_blocked hbefore ?_ hrequest
    intro request hrequest
    refine ⟨hrequest.1, ?_⟩
    rw [hlayer]
    exact BearerAuth.blocks_of_unauthorized toVec hrequest
  -- the chain is not skipped: the guard covers the request
  have hmatching : ∀ {layers behind : List (ScopedLayer M)} {parts : Parts},
      layers = before ++ guard :: behind → guard.scope.matches parts.method parts.path = true →
        hasMatchingLayer layers parts.method parts.path = true := by
    rintro layers behind parts rfl hcovers
    simp [hasMatchingLayer, hcovers]
  constructor
  · intro request hrequest n
    rw [Server.prepare, Server.prepare, if_pos (hmatching hserver hrequest.1),
      if_pos (hmatching hserver' hrequest.1), Server.runChain_eq, Server.runChain_eq,
      hsame _ hrequest]
  · intro request hrequest n
    rw [Server.oneshot, Server.oneshot, if_pos (hmatching hserver hrequest.1),
      if_pos (hmatching hserver' hrequest.1), Server.runChain_eq, Server.runChain_eq,
      hsame _ hrequest]

/-- A layer that numbers requests. -/
def numbering : Layer Bytes := fun request =>
  let headers := request.parts.headers.insert (.custom (str "x-request-id")) (str "7")
  .ready (.next { request with parts := { request.parts with headers } } .ready)

theorem keeps_numbering {auth : BearerAuth} {scope : Scope} :
    numbering.Keeps (auth.Unauthorized scope) := by
  intro request hrequest request' after hgives
  obtain ⟨rfl, -⟩ := LayerStep.next.inj (Future.gives_ready.mp hgives)
  obtain ⟨hcovers, hexempt, htoken⟩ := hrequest
  -- the number is not the token
  have hne : authorization ≠ .custom (str "x-request-id") := by decide +kernel
  have hpresented : BearerAuth.presented (request.parts.headers.insert
      (.custom (str "x-request-id")) (str "7")) = BearerAuth.presented request.parts.headers := by
    simp [BearerAuth.presented, HeaderMap.get, HeaderMap.insert, Function.update_of_ne hne]
  refine ⟨hcovers, hexempt, ?_⟩
  rw [hpresented]
  exact htoken

/-- Behind the numbering of requests and the guard: nothing at all, or a layer that answers
everything. A request with another token is treated alike, over the network and in memory. -/
theorem bearerAuth_guards_other :
    let auth := BearerAuth.staticToken (str "s3")
    let behave : ℕ → Layer Bytes := fun layer =>
      if layer = 0 then numbering
      else if layer = 1 then auth.layer instant.toVec
      else fun _ => .ready (.answer notFound)
    let runtime : Runtime (Endpoint Unit Bytes) ℕ := App.new.freeze
    let server : Server Unit Bytes ℕ :=
      { runtime := { runtime with middleware := [⟨.all, 0⟩, ⟨.all, 1⟩] }
        state := (), bodyReadTimeout := none }
    let server' : Server Unit Bytes ℕ :=
      { runtime := { runtime with middleware := [⟨.all, 0⟩, ⟨.all, 1⟩, ⟨.all, 2⟩] }
        state := (), bodyReadTimeout := some 60 }
    let parts : Parts :=
      { method := .get, path := str "/notes", query := none
        headers := HeaderMap.empty.insert authorization (str "Bearer s4") }
    ∀ n, server.prepare instant behave { parts, body := Bytes.new } (n + 1) =
        server'.prepare instant behave { parts, body := Bytes.new } (n + 1) ∧
      server.oneshot instant behave { parts, body := Bytes.new } (n + 1) =
        server'.oneshot instant behave { parts, body := Bytes.new } (n + 1) := by
  intro auth behave runtime server server' parts
  have hbefore : ∀ entry ∈ [(⟨.all, 0⟩ : ScopedLayer ℕ)],
      (behave entry.layer).Keeps (auth.Unauthorized .all) := by
    intro entry hentry
    obtain rfl := List.mem_singleton.mp hentry
    exact keeps_numbering
  have hguards := @bearerAuth_guards Unit Unit Bytes ℕ behave instant.toVec auth instant instant
    server server' [⟨.all, 0⟩] [] [⟨.all, 2⟩] ⟨.all, 1⟩ rfl rfl rfl hbefore
  have hunauthorized : ∀ body : Middleware.RequestBody Bytes,
      auth.Unauthorized .all { parts, body } := by
    intro body
    refine ⟨rfl, rfl, ?_⟩
    intro token htoken u hgives
    have hpresented : BearerAuth.presented parts.headers = some (str "s4") := by decide +kernel
    obtain rfl : str "s4" = token := Option.some.inj (hpresented.symm.trans htoken)
    have hrejected : constantTimeEq (str "s4") (str "s3") = false := by decide +kernel
    have hvalidator : auth.validator (str "s4") = .ready (.error tokenRequired) := by
      show Future.ready (if constantTimeEq (str "s4") (str "s3") = true then _ else _) = _
      rw [hrejected, if_neg Bool.false_ne_true]
    rw [hvalidator] at hgives
    cases Future.gives_ready.mp hgives
  exact fun n => ⟨hguards.1 _ (hunauthorized _) n, hguards.2 _ (hunauthorized _) n⟩

end Guards

end OasRs
