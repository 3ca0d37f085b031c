import OasRs.Captures

/-!
# Spellings of a Path

Two paths with the same segments are two spellings of one path: they differ in
repeated and trailing slashes only. The trie reads segments, so it cannot tell them
apart. The static table is looked up by text, and normalization trims only the
slashes at the end.

## Main results

- `view_eq_of_missing`: off the static table, only the segments matter
- `view_ne_of_table`: a path in the static table differs from every other spelling
- `view_eq_iff`: exactly when two spellings are answered alike
-/

namespace OasRs

open Lib Lib.Preference

variable {H M : Type} {app : App H M} {legal : UInt8 → Bool}

/-! ## Different places -/

/-- A route with an identifier other than the last one is chosen for its method. -/
theorem resolvedView_of_entry {set : RouteSet} {place : Place}
    (hset : set.Lists app.entries place) {method : Method} {id : ℕ}
    (hid : app.entries[id]? = some (method, place)) (hne : id ≠ RouteId.none) (texts : List Text) :
    resolvedView method set texts = .route id texts := by
  have hroute := (hset.route_iff method id).mpr ⟨hid, hne⟩
  simp [resolvedView, resolveRouteSet, routeIndex, hroute]

/-- A route is chosen at its own place only. -/
theorem place_of_resolvedView {set : RouteSet} {place : Place}
    (hset : set.Lists app.entries place) {method : Method} {texts texts' : List Text}
    {id : RouteId} (h : resolvedView method set texts = .route id texts') :
    ∃ m, app.entries[id]? = some (m, place) := by
  have hresolve : Outcome.resolve method set none = .route id none := by
    unfold resolvedView at h
    unfold Outcome.resolve
    split at h <;> simp_all
  obtain ⟨-, -, m, hentry, -⟩ := resolve_route hset hresolve
  exact ⟨m, hentry⟩

theorem resolvedView_ne_notFound (method : Method) (set : RouteSet) (texts : List Text) :
    resolvedView method set texts ≠ .notFound := by
  unfold resolvedView
  split <;> simp

/-- Two places are told apart by some method: they have routes, and at most one of them
    has no other route than the one with the last identifier. -/
theorem exists_view_ne {path path' : RequestPath legal} {place place' : Place} {set set' : RouteSet}
    {texts texts' : List Text} (h : Lands app path place set texts)
    (h' : Lands app path' place' set' texts') (hne : place ≠ place') :
    ∃ method, app.freeze.view method path ≠ app.freeze.view method path' := by
  have htell : ∀ {id : ℕ} {m m' : Method}, app.entries[id]? = some (m, place) →
      app.entries[id]? = some (m', place') → False := by
    intro id m m' hm hm'
    rw [hm, Option.some.injEq, Prod.mk.injEq] at hm'
    exact hne hm'.2
  obtain ⟨m, hm⟩ := h.nonempty
  obtain ⟨m', hm'⟩ := h'.nonempty
  obtain ⟨id, hid⟩ := List.getElem?_of_mem hm
  obtain ⟨id', hid'⟩ := List.getElem?_of_mem hm'
  by_cases hlast : id = RouteId.none
  · -- then the other place has a route with another identifier
    have hlast' : id' ≠ RouteId.none := by
      rintro rfl
      exact htell (hlast ▸ hid) hid'
    refine ⟨m', fun heq => ?_⟩
    rw [h.view, h'.view, resolvedView_of_entry h'.lists hid' hlast'] at heq
    obtain ⟨m'', hplace⟩ := place_of_resolvedView h.lists heq
    exact htell hplace hid'
  · refine ⟨m, fun heq => ?_⟩
    rw [h.view, h'.view, resolvedView_of_entry h.lists hid hlast] at heq
    obtain ⟨m'', hplace⟩ := place_of_resolvedView h'.lists heq.symm
    exact htell hid hplace

/-! ## Spellings -/

/-- A path in the static table is answered unlike every path that is normalized to
    another text. -/
theorem exists_view_ne_of_table (hc : app.Consistent) {path path' : RequestPath legal} {method : Method}
    (hmem : (method, .table (normalizeRequestPath path.text)) ∈ app.entries)
    (hne : normalizeRequestPath path.text ≠ normalizeRequestPath path'.text) :
    ∃ method, app.freeze.view method path ≠ app.freeze.view method path' := by
  rcases lands_cases hc path with ⟨set, h⟩ | ⟨hmiss, -⟩ | ⟨hmiss, -⟩
  · rcases lands_cases hc path' with ⟨set', h'⟩ | ⟨-, p, -, h'⟩ | ⟨-, -, h'⟩
    · exact exists_view_ne h h' (by simpa using hne)
    · exact exists_view_ne h h' (by simp)
    · refine ⟨method, ?_⟩
      rw [h.view, h']
      exact resolvedView_ne_notFound _ _ _
  · exact absurd hmem (hmiss method)
  · exact absurd hmem (hmiss method)

/-- Off the static table, only the segments of a path matter. -/
theorem view_eq_of_missing (hc : app.Consistent) {path path' : RequestPath legal}
    (hsegments : segments path.text = segments path'.text)
    (hmiss : ∀ m, (m, .table (normalizeRequestPath path.text)) ∉ app.entries)
    (hmiss' : ∀ m, (m, .table (normalizeRequestPath path'.text)) ∉ app.entries) (method : Method) :
    app.freeze.view method path = app.freeze.view method path' := by
  rcases lands_cases hc path with ⟨set, h⟩ | ⟨-, p, hp, h⟩ | ⟨-, hnone, h⟩
  · obtain ⟨m, hm⟩ := h.nonempty
    exact absurd hm (hmiss m)
  · rcases lands_cases hc path' with ⟨set, h'⟩ | ⟨-, p', hp', h'⟩ | ⟨-, hnone', -⟩
    · obtain ⟨m, hm⟩ := h'.nonempty
      exact absurd hm (hmiss' m)
    · have hpp' : p = p' := hp.unique (hsegments ▸ hp')
      rw [h.view, h'.view, hpp', hsegments]
    · exact absurd (hsegments ▸ hp.accepts) (hnone' p hp.mem)
  · rcases lands_cases hc path' with ⟨set, h'⟩ | ⟨-, p', hp', h'⟩ | ⟨-, -, h'⟩
    · obtain ⟨m, hm⟩ := h'.nonempty
      exact absurd hm (hmiss' m)
    · exact absurd (hsegments ▸ hp'.accepts) (hnone p' hp'.mem)
    · rw [h, h']

theorem lookup_eq_none_iff (hc : app.Consistent) (key : Text) :
    app.staticRoutes.lookup key = none ↔ ∀ m, (m, .table key) ∉ app.entries := by
  rcases hc.lookup_cases key with ⟨set, hlookup, -, m, hmem⟩ | ⟨hlookup, hnone⟩
  · simp only [hlookup, reduceCtorEq, false_iff, not_forall, not_not]
    exact ⟨m, hmem⟩
  · simp [hlookup, hnone]

/-- **Dispatch depends only on the segments, off the static table.** Two spellings of a
    path are answered alike, for every method, exactly when they are normalized to the
    same text or neither is in the static table. -/
theorem view_eq_iff {p : Program H M} {built : App H M} {validation : Option BuildError}
    {document page : H} (hbuild : p.build validation document page = .ok built)
    {path path' : RequestPath legal} (hsegments : segments path.text = segments path'.text) :
    (∀ method, built.freeze.view method path = built.freeze.view method path') ↔
      normalizeRequestPath path.text = normalizeRequestPath path'.text ∨
      (built.freeze.staticRoutes.lookup (normalizeRequestPath path.text) = none ∧
        built.freeze.staticRoutes.lookup (normalizeRequestPath path'.text) = none) := by
  have hc := Program.consistent_build hbuild
  have hlookup := lookup_eq_none_iff hc
  constructor
  · intro hview
    by_contra hcontra
    push Not at hcontra
    obtain ⟨hne, htable⟩ := hcontra
    -- one of the two texts is a key of the table, and a method of it tells them apart
    by_cases hmiss : built.freeze.staticRoutes.lookup (normalizeRequestPath path.text) = none
    · obtain ⟨m, hm⟩ : ∃ m, (m, Place.table (normalizeRequestPath path'.text)) ∈ built.entries := by
        have := mt (hlookup _).mpr (htable hmiss)
        push Not at this
        exact this
      obtain ⟨method, hdiff⟩ := exists_view_ne_of_table hc hm (Ne.symm hne)
      exact hdiff (hview method).symm
    · obtain ⟨m, hm⟩ : ∃ m, (m, Place.table (normalizeRequestPath path.text)) ∈ built.entries := by
        have := mt (hlookup _).mpr hmiss
        push Not at this
        exact this
      obtain ⟨method, hdiff⟩ := exists_view_ne_of_table hc hm hne
      exact hdiff (hview method)
  · rintro (hnorm | ⟨hmiss, hmiss'⟩) method
    -- the same text is the same request to the router
    · have hdispatch : built.freeze.dispatch method path.text =
          built.freeze.dispatch method path'.text := by
        rw [Runtime.dispatch, Runtime.dispatch, hnorm]
      rw [Runtime.view, Runtime.view, hdispatch, hnorm]
    · exact view_eq_of_missing hc hsegments ((hlookup _).mp hmiss) ((hlookup _).mp hmiss') method

/-! ## A repeated slash -/

/-- `GET /users/me`, and `GET /users/{id}` next to it. -/
def siblingExample : Program Unit Unit :=
  .call (.raw .get (str "/users/me") ()) (.call (.raw .get (str "/users/{id}") ()) .done)

def siblingBuilt : App Unit Unit := returned (siblingExample.build none () ()) (by decide +kernel)

def plainSpelling : RequestPath httpLegal :=
  { text := str "/users/me", isRequestPath := by decide +kernel, length_le := by decide +kernel }

def doubledSpelling : RequestPath httpLegal :=
  { text := str "/users//me", isRequestPath := by decide +kernel, length_le := by decide +kernel }

/-- A repeated slash sends the request to the capture sibling. -/
theorem not_view_eq_doubled :
    siblingExample.build none () () = .ok siblingBuilt ∧
      segments plainSpelling.text = segments doubledSpelling.text ∧
      siblingBuilt.freeze.view .get plainSpelling = .route 0 [] ∧
      siblingBuilt.freeze.view .get doubledSpelling = .route 1 [str "me"] :=
  ⟨eq_returned _, by decide +kernel, by decide +kernel, by decide +kernel⟩

def capturedSpelling : RequestPath httpLegal :=
  { text := str "/users/7", isRequestPath := by decide +kernel, length_le := by decide +kernel }

def spreadSpelling : RequestPath httpLegal :=
  { text := str "/users//7/", isRequestPath := by decide +kernel, length_le := by decide +kernel }

/-- A capture is answered alike in both spellings. -/
theorem view_eq_iff_captured :
    siblingBuilt.freeze.view .get capturedSpelling =
      siblingBuilt.freeze.view .get spreadSpelling :=
  (view_eq_iff (p := siblingExample) (eq_returned (by decide +kernel))
    (by decide +kernel)).mpr (.inr (by decide +kernel)) .get

end OasRs
