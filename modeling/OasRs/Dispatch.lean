import OasRs.AppSpec

/-!
# What Dispatch Answers

Dispatch, read off the registered routes instead of the tables.

## Main results

- `dispatch_cases`: a static place, a preferred pattern, or nothing
- `dispatch_sound`: the route that is chosen accepts the path and serves the method
-/

namespace OasRs

open Lib Lib.Preference

variable {H M : Type} {app : App H M}

/-! ## Methods of a place -/

/-- A route serves its own method, and a `GET` route serves `HEAD`. -/
def Serves (routeMethod method : Method) : Prop :=
  routeMethod = method ∨ (routeMethod = .get ∧ method = .head)

/-- The route that is chosen at a place is one of the place's routes, and serves the
    method. -/
theorem resolve_route {set : RouteSet} {entries : List (Method × Place)} {place : Place}
    (hset : set.Lists entries place) {method : Method} {captures captures' : Option CaptureSet}
    {index : RouteId} (h : Outcome.resolve method set captures = .route index captures') :
    captures' = captures ∧ index ≠ RouteId.none ∧
      ∃ routeMethod, entries[index]? = some (routeMethod, place) ∧ Serves routeMethod method := by
  have hindex : routeIndex set method = some index ∧ captures' = captures := by
    unfold Outcome.resolve resolveRouteSet at h
    cases hr : routeIndex set method with
    | none =>
      rw [hr] at h
      by_cases ho : method = .options <;> simp [ho] at h
    | some i =>
      rw [hr] at h
      simp only [Outcome.route.injEq] at h
      exact ⟨by rw [h.1], h.2.symm⟩
  refine ⟨hindex.2, ?_⟩
  have hroute := hindex.1
  unfold routeIndex at hroute
  rw [Option.or_eq_some_iff] at hroute
  rcases hroute with hroute | ⟨-, hroute⟩
  · obtain ⟨hentry, hne⟩ := (hset.route_iff _ _).mp hroute
    exact ⟨hne, method, hentry, .inl rfl⟩
  · split at hroute
    · rename_i hhead
      obtain ⟨hentry, hne⟩ := (hset.route_iff _ _).mp hroute
      exact ⟨hne, .get, hentry, .inr ⟨rfl, hhead⟩⟩
    · cases hroute

/-! ## Paths -/

/-- The patterns that dispatch searches. -/
def App.patterns (app : App H M) : Set Pattern := { p | ∃ method, (method, .trie p) ∈ app.entries }

theorem App.Consistent.patterns_eq (hc : app.Consistent) :
    app.dynamicRoutes.patterns = app.patterns := by
  ext p
  have := (hc.trie p).isEmpty_iff
  simp only [DynamicRouteTrie.patterns, App.patterns, Set.mem_ofPred_eq]
  rw [← Bool.not_eq_true, this]
  push Not
  rfl

/-- An entry comes from a registered route. -/
theorem App.metadata_of_entry {index : ℕ} {method : Method} {place : Place}
    (h : app.entries[index]? = some (method, place)) :
    ∃ md, app.metadata[index]? = some md ∧ md.method = method ∧ md.place = place := by
  rw [App.entries, List.getElem?_map, Option.map_eq_some_iff] at h
  obtain ⟨md, hmd, heq⟩ := h
  rw [Prod.mk.injEq] at heq
  exact ⟨md, hmd, heq.1, heq.2⟩

theorem App.Consistent.withinLimit (hc : app.Consistent) : app.dynamicRoutes.WithinLimit := by
  intro p hp
  rw [hc.patterns_eq] at hp
  obtain ⟨method, hmem⟩ := hp
  obtain ⟨index, hindex⟩ := List.getElem?_of_mem hmem
  obtain ⟨md, hmd, -, hplace⟩ := App.metadata_of_entry hindex
  have hlimit := hc.limit md (List.mem_of_getElem? hmd)
  unfold RouteMetadata.place at hplace
  split at hplace
  · cases hplace
  · cases hplace
    exact hlimit

/-- A static path is in the table exactly when it has routes. -/
theorem App.Consistent.lookup_cases (hc : app.Consistent) (key : Text) :
    (∃ set, app.staticRoutes.lookup key = some set ∧ set.Lists app.entries (.table key) ∧
      ∃ method, (method, .table key) ∈ app.entries) ∨
    (app.staticRoutes.lookup key = none ∧ ∀ method, (method, .table key) ∉ app.entries) := by
  have hlists := hc.table key
  cases hlookup : app.staticRoutes.lookup key with
  | none =>
    right
    rw [staticSet, hlookup, Option.getD_none] at hlists
    exact ⟨rfl, hlists.isEmpty_iff.mp rfl⟩
  | some set =>
    left
    rw [staticSet, hlookup, Option.getD_some] at hlists
    refine ⟨set, rfl, hlists, ?_⟩
    by_contra hnone
    push Not at hnone
    have := hlists.isEmpty_iff.mpr hnone
    rw [hc.table_nonempty key set hlookup] at this
    cases this

/-- Dispatch answers at the static place of the normalized path, or else at the
    preferred pattern among those that accept its segments. -/
theorem dispatch_cases (hc : app.Consistent) (path : Text) :
    (∃ set, set.Lists app.entries (.table (normalizeRequestPath path)) ∧
      (∃ m, (m, .table (normalizeRequestPath path)) ∈ app.entries) ∧
      ∀ method, app.freeze.dispatch method path = .resolve method set none) ∨
    ((∀ m, (m, .table (normalizeRequestPath path)) ∉ app.entries) ∧
      ∃ p, IsPreferred validPercentEncoding app.patterns (segments path) p ∧
        (app.dynamicRoutes.routesOf p).Lists app.entries (.trie p) ∧
        ∀ method, app.freeze.dispatch method path =
          .resolve method (app.dynamicRoutes.routesOf p)
            (some (DynamicRouteTrie.capturesOf p (partsOf (normalizeRequestPath path))))) ∨
    ((∀ m, (m, .table (normalizeRequestPath path)) ∉ app.entries) ∧
      (∀ p ∈ app.patterns, ¬ Accepts validPercentEncoding p (segments path)) ∧
      ∀ method, app.freeze.dispatch method path = .notFound) := by
  unfold Runtime.dispatch
  simp only [App.freeze]
  rcases hc.lookup_cases (normalizeRequestPath path) with ⟨set, hlookup, hlists, hmem⟩ | ⟨hlookup, hnone⟩
  · left
    rw [hlookup]
    exact ⟨set, hlists, hmem, fun _ => rfl⟩
  · right
    rw [hlookup]
    cases hfind : app.dynamicRoutes.find (normalizeRequestPath path) with
    | none =>
      right
      have := DynamicRouteTrie.find_none hc.withinLimit hfind
      rw [hc.patterns_eq, segments_normalizeRequestPath] at this
      exact ⟨hnone, this, fun _ => rfl⟩
    | some found =>
      left
      obtain ⟨routes, captures⟩ := found
      obtain ⟨p, hp, rfl, rfl⟩ := DynamicRouteTrie.find_some hc.withinLimit hfind
      rw [hc.patterns_eq, segments_normalizeRequestPath] at hp
      exact ⟨hnone, p, hp, hc.trie p, fun _ => rfl⟩

/-! ## The chosen route -/

/-- The template of a static route accepts the segments of its own text. -/
theorem accepts_of_isStatic {template : Text} {templateSegments : List Segment}
    (hparsed : parseTemplate template = .ok templateSegments)
    (hstatic : App.isStatic templateSegments = true) :
    Accepts validPercentEncoding (patternOf templateSegments) (segments template) := by
  rw [parseTemplate, splitPath_eq, mapM_eq_ok] at hparsed
  generalize segments template = parts at hparsed ⊢
  induction hparsed with
  | nil => exact accepts_nil
  | cons hparse _ ih =>
    rcases parseSegment_ok hparse with rfl | ⟨name, rfl⟩
    · exact accepts_cons.mpr ⟨by simp [Segment.piece, Piece.accepts], ih hstatic⟩
    · cases hstatic

/-- A route at the place where dispatch looks accepts the path. -/
theorem accepts_of_place (hc : app.Consistent) {md : RouteMetadata} (hmd : md ∈ app.metadata)
    {path : Text} (h : md.place = .table (normalizeRequestPath path) ∨
      ∃ p, md.place = .trie p ∧ Accepts validPercentEncoding p (segments path)) :
    Accepts validPercentEncoding (patternOf md.segments) (segments path) := by
  have hparsed := hc.parsed md hmd
  unfold RouteMetadata.place at h
  by_cases hstatic : App.isStatic md.segments = true
  · simp only [hstatic, if_true, Place.table.injEq, reduceCtorEq, false_and, exists_false,
      or_false] at h
    rw [← segments_normalizeRequestPath, ← h]
    exact accepts_of_isStatic hparsed hstatic
  · simp only [hstatic] at h
    rcases h with h | ⟨p, h, hacc⟩
    · cases h
    · cases h
      exact hacc

/-- The route that dispatch chooses accepts the path and serves the method. -/
theorem dispatch_sound (hc : app.Consistent) {method : Method} {path : Text} {index : RouteId}
    {captures : Option CaptureSet} (h : app.freeze.dispatch method path = .route index captures) :
    index ≠ RouteId.none ∧ ∃ md, app.metadata[index]? = some md ∧ Serves md.method method ∧
      Accepts validPercentEncoding (patternOf md.segments) (segments path) := by
  rcases dispatch_cases hc path with
    ⟨set, hlists, -, heq⟩ | ⟨-, p, hp, hlists, heq⟩ | ⟨-, -, heq⟩
  · rw [heq] at h
    obtain ⟨-, hne, m, hentry, hserves⟩ := resolve_route hlists h
    obtain ⟨md, hmd, rfl, hplace⟩ := App.metadata_of_entry hentry
    exact ⟨hne, md, hmd, hserves, accepts_of_place hc (List.mem_of_getElem? hmd) (.inl hplace)⟩
  · rw [heq] at h
    obtain ⟨-, hne, m, hentry, hserves⟩ := resolve_route hlists h
    obtain ⟨md, hmd, rfl, hplace⟩ := App.metadata_of_entry hentry
    exact ⟨hne, md, hmd, hserves,
      accepts_of_place hc (List.mem_of_getElem? hmd) (.inr ⟨p, hplace, hp.accepts⟩)⟩
  · rw [heq] at h
    cases h

end OasRs
