import OasRs.RouterSpec

/-!
# Scopes and the Middleware Chain

A model of the scopes, the layer list and `Next` of `src/middleware.rs`, and of
`join` of `src/group.rs`.

## Main results

- `segmentsMatch_of_accepts`: a scope covers the segments that a template accepts
- `Next.skip_le`: the chain stops at a layer that matches
-/

namespace OasRs

/-! ## Scopes -/

/-- `ScopeSegment` -/
inductive ScopeSegment where
  | literal (value : Text)
  | any
  deriving DecidableEq, Repr

/-- One segment of a scope pattern, with the rules of a route template. -/
def ScopeSegment.parse (pattern part : Text) : Except Panic ScopeSegment := do
  if isBraced part then
    check (2 < part.length) (.scopePattern pattern)
    return .any
  else
    check (!hasBrace part) (.scopePattern pattern)
    return .literal part

/-- `Scope` -/
inductive Scope where
  /-- every request -/
  | all
  /-- requests whose path starts with the pattern -/
  | pathPrefix (segments : List ScopeSegment)
  /-- requests for exactly this pattern and method -/
  | route (method : Method) (segments : List ScopeSegment)
  deriving DecidableEq, Repr

/-- `Scope::parse` -/
def Scope.parse (pattern : Text) : Except Panic (List ScopeSegment) :=
  (splitPath pattern).mapM (ScopeSegment.parse pattern)

/-- `decoded_equals` -/
def decodedEquals (segment expected : Text) : Bool :=
  segment.contains percent && match percentDecode segment with
    | .ok decoded => decoded == expected
    | .error _ => false

/-- Whether a scope segment covers a segment of the path. -/
def ScopeSegment.covers : ScopeSegment → Text → Bool
  | .literal expected, value => value == expected || decodedEquals value expected
  | .any, _ => true

/-- `segments_match`, on the parts of the path. -/
def segmentsMatch : List ScopeSegment → List Text → Bool → Bool
  | [], parts, exact => !exact || parts.isEmpty
  | _ :: _, [], _ => false
  | segment :: pattern, part :: parts, exact =>
    segment.covers part && segmentsMatch pattern parts exact

/-- `Scope::matches` -/
def Scope.matches (scope : Scope) (method : Method) (path : Text) : Bool :=
  match scope with
  | .all => true
  | .pathPrefix segments => segmentsMatch segments (splitPath path) false
  | .route routeMethod segments =>
    (routeMethod == method || (routeMethod == .get && method == .head)) &&
      segmentsMatch segments (splitPath path) true

/-- `ScopedLayer`, for middleware of type `M`. -/
structure ScopedLayer (M : Type) where
  scope : Scope
  layer : M

/-! ## The chain -/

/-- A request as the chain sees it. -/
structure Request where
  method : Method
  path : Text
  deriving DecidableEq, Repr

section Chain

variable {M Q R : Type}

/-- Whether a layer covers a request. -/
def ScopedLayer.covers (entry : ScopedLayer M) (request : Request) : Bool :=
  entry.scope.matches request.method request.path

/-- `RuntimeInner::has_matching_layer` -/
def hasMatchingLayer (middleware : List (ScopedLayer M)) (method : Method) (path : Text) : Bool :=
  middleware.any fun entry => entry.scope.matches method path

/-- The loop of `Next::run`: the first layer from `index` on that covers the request. -/
def Next.skip (middleware : List (ScopedLayer M)) (request : Request) (index : ℕ) : Option ℕ :=
  ((middleware.drop index).findIdx? fun entry => entry.covers request).map (index + ·)

/-- `Next::run`, where `head` reads a request, `handle` runs a layer and `dispatch` ends the
    chain. `fuel` is the number of layers left. -/
def Next.run (head : Q → Request) (handle : M → Q → (Q → R) → R) (dispatch : Q → R)
    (middleware : List (ScopedLayer M)) : ℕ → ℕ → Q → R
  | 0, _, request => dispatch request
  | fuel + 1, index, request =>
    match Next.skip middleware (head request) index with
    | some found =>
      match middleware[found]? with
      | some entry =>
        handle entry.layer request (Next.run head handle dispatch middleware fuel (found + 1))
      | none => dispatch request
    | none => dispatch request

end Chain

/-! ## `join` -/

/-- `join`: a group prefix and a route path, without doubled or missing slashes. -/
def join (groupPrefix path : Text) : Text :=
  let groupPrefix := trimSlashes groupPrefix
  let path := trimSlashes path
  match groupPrefix.isEmpty, path.isEmpty with
  | true, true => [slash]
  | true, false => slash :: path
  | false, true => slash :: groupPrefix
  | false, false => slash :: groupPrefix ++ slash :: path

/-- The segments of a joined path. -/
theorem segments_join (groupPrefix path : Text) :
    segments (join groupPrefix path) = segments groupPrefix ++ segments path := by
  show Lib.Tokens.tokens slash (join groupPrefix path) =
    Lib.Tokens.tokens slash groupPrefix ++ Lib.Tokens.tokens slash path
  rw [← tokens_trimSlashes groupPrefix, ← tokens_trimSlashes path, join]
  cases hp : (trimSlashes groupPrefix).isEmpty <;> cases hq : (trimSlashes path).isEmpty
  · simp only
    rw [List.cons_append, Lib.Tokens.tokens_cons_self, Lib.Tokens.tokens_append_cons]
  · simp [List.isEmpty_iff.mp hq]
  · simp [List.isEmpty_iff.mp hp]
  · simp [List.isEmpty_iff.mp hp, List.isEmpty_iff.mp hq]

/-! ## Parsing a pattern as a scope and as a template -/

/-- The scope segment that a template segment stands for. -/
def Segment.scope : Segment → ScopeSegment
  | .static value => .literal value
  | .capture _ => .any

/-- A `mapM` that returns has returned on every element. -/
theorem mapM_eq_ok {ε α β : Type} {f : α → Except ε β} {l : List α} {r : List β} :
    l.mapM f = .ok r ↔ List.Forall₂ (fun a b => f a = .ok b) l r := by
  induction l generalizing r with
  | nil =>
    rw [List.mapM_nil, pure_eq_ok, List.forall₂_nil_left_iff]
    exact eq_comm
  | cons a l ih =>
    simp only [List.mapM_cons, bind_eq_ok, pure_eq_ok, ih, List.forall₂_cons_left_iff]
    constructor
    · rintro ⟨b, hb, r, hr, rfl⟩
      exact ⟨b, r, hb, hr, rfl⟩
    · rintro ⟨b, r, hb, hr, rfl⟩
      exact ⟨b, hb, r, hr, rfl⟩

/-- Both parsers read a segment the same way. -/
theorem parse_eq_scope {pattern part : Text} {segment : Segment} {scope : ScopeSegment}
    (hsegment : parseSegment part = .ok segment)
    (hscope : ScopeSegment.parse pattern part = .ok scope) : scope = segment.scope := by
  unfold parseSegment at hsegment
  unfold ScopeSegment.parse at hscope
  by_cases hbraced : isBraced part = true
  · rw [if_pos hbraced] at hsegment hscope
    simp only [bind_eq_ok, pure_eq_ok] at hsegment hscope
    obtain ⟨_, -, rfl⟩ := hsegment
    obtain ⟨_, -, rfl⟩ := hscope
    rfl
  · rw [if_neg hbraced] at hsegment hscope
    simp only [bind_eq_ok, pure_eq_ok] at hsegment hscope
    obtain ⟨_, -, rfl⟩ := hsegment
    obtain ⟨_, -, rfl⟩ := hscope
    rfl

private theorem isPrefix_of_forall₂ {parts rest : List Text} {scope : List ScopeSegment}
    {segments : List Segment} {pattern : Text}
    (hscope : List.Forall₂ (fun part s => ScopeSegment.parse pattern part = .ok s) parts scope)
    (hsegments : List.Forall₂ (fun part s => parseSegment part = .ok s) (parts ++ rest) segments) :
    scope <+: segments.map Segment.scope := by
  induction hscope generalizing segments with
  | nil => exact List.nil_prefix
  | cons hs _ ih =>
    cases hsegments with
    | cons ht htail =>
      rw [List.map_cons, parse_eq_scope ht hs]
      exact List.prefix_cons_inj _ |>.mpr (ih htail)

/-- The scope of a template's beginning is the beginning of the template's scope. -/
theorem scope_isPrefix {pattern template : Text} {scope : List ScopeSegment}
    {templateSegments : List Segment} (hsegments : segments pattern <+: segments template)
    (hscope : Scope.parse pattern = .ok scope)
    (htemplate : parseTemplate template = .ok templateSegments) :
    scope <+: templateSegments.map Segment.scope := by
  rw [Scope.parse, splitPath_eq, mapM_eq_ok] at hscope
  rw [parseTemplate, splitPath_eq, mapM_eq_ok] at htemplate
  obtain ⟨rest, hrest⟩ := hsegments
  rw [← hrest] at htemplate
  exact isPrefix_of_forall₂ hscope htemplate

/-- The scope of a whole template has a segment for each of its segments. -/
theorem scope_eq {template : Text} {scope : List ScopeSegment} {templateSegments : List Segment}
    (hscope : Scope.parse template = .ok scope)
    (htemplate : parseTemplate template = .ok templateSegments) :
    scope = templateSegments.map Segment.scope := by
  refine (scope_isPrefix List.prefix_rfl hscope htemplate).eq_of_length ?_
  rw [Scope.parse, mapM_eq_ok] at hscope
  rw [parseTemplate, mapM_eq_ok] at htemplate
  rw [List.length_map, ← hscope.length_eq, htemplate.length_eq]

/-! ## What a scope covers -/

/-- A scope covers the segments that a template of the same shape accepts. -/
theorem segmentsMatch_of_accepts {template : List Segment} {values : List Text}
    (h : Lib.Preference.Accepts validPercentEncoding (patternOf template) values) :
    segmentsMatch (template.map Segment.scope) values true = true := by
  induction template generalizing values with
  | nil =>
    cases h
    rfl
  | cons segment template ih =>
    cases values with
    | nil => cases h
    | cons value values =>
      obtain ⟨hpiece, htail⟩ := Lib.Preference.accepts_cons.mp h
      rw [List.map_cons, segmentsMatch, ih htail, Bool.and_true]
      cases segment with
      | static expected =>
        have hvalue : expected = value := by
          simpa [Segment.piece, Lib.Preference.Piece.accepts] using hpiece
        simp [Segment.scope, ScopeSegment.covers, hvalue]
      | capture name => rfl

/-- The beginning of a pattern that covers a path covers it as a prefix. -/
theorem segmentsMatch_isPrefix {scope pattern : List ScopeSegment} {values : List Text}
    (hscope : scope <+: pattern) (h : segmentsMatch pattern values true = true) :
    segmentsMatch scope values false = true := by
  induction scope generalizing pattern values with
  | nil => simp [segmentsMatch]
  | cons segment scope ih =>
    obtain ⟨rest, rfl⟩ := hscope
    cases values with
    | nil => simp [segmentsMatch] at h
    | cons value values =>
      rw [List.cons_append, segmentsMatch, Bool.and_eq_true] at h
      rw [segmentsMatch, h.1, Bool.true_and]
      exact ih (List.prefix_append _ _) h.2

/-- A scope reads only the segments of a path. -/
theorem matches_congr (scope : Scope) (method : Method) {path path' : Text}
    (h : segments path = segments path') : scope.matches method path = scope.matches method path' := by
  cases scope <;> simp only [Scope.matches, splitPath_eq, h]

/-! ## The chain reaches every layer that matches -/

section Chain

variable {M : Type} {middleware : List (ScopedLayer M)} {request : Request}

/-- A layer that covers the request is not passed over. -/
theorem Next.skip_le {j start : ℕ} {entry : ScopedLayer M} (hj : middleware[j]? = some entry)
    (hcovers : entry.covers request = true) (hstart : start ≤ j) :
    ∃ k, Next.skip middleware request start = some k ∧ start ≤ k ∧ k ≤ j := by
  have hmem : (middleware.drop start)[j - start]? = some entry := by
    rw [List.getElem?_drop, Nat.add_sub_cancel' hstart, hj]
  cases hfind : (middleware.drop start).findIdx? fun entry => entry.covers request with
  | none =>
    rw [List.findIdx?_eq_none_iff] at hfind
    have := hfind entry (List.mem_of_getElem? hmem)
    rw [hcovers] at this
    cases this
  | some k =>
    refine ⟨start + k, by rw [Next.skip, hfind, Option.map_some], Nat.le_add_right _ _, ?_⟩
    rw [List.findIdx?_eq_some_iff_getElem] at hfind
    obtain ⟨hk, -, hfirst⟩ := hfind
    by_contra hlt
    have hlt : j - start < k := by omega
    have := hfirst (j - start) hlt
    rw [List.getElem?_eq_some_iff] at hmem
    obtain ⟨hlen, hmem⟩ := hmem
    rw [hmem, hcovers] at this
    exact this rfl

theorem hasMatchingLayer_of_covers {entry : ScopedLayer M} (h : entry ∈ middleware)
    (hcovers : entry.covers request = true) :
    hasMatchingLayer middleware request.method request.path = true :=
  List.any_eq_true.mpr ⟨entry, h, hcovers⟩

end Chain

end OasRs
