import OasRs.Dispatch

/-!
# Scopes Are Never Narrower Than Routing

A layer of a group, or of a route, covers every request that dispatch sends to a
route of that group, or to that route.

A program is read twice: `Program.run` registers it, `Program.log` writes down which
groups enclose each route and where each layer was added. The run agrees with the
log, and everything about scopes follows from the log.

## Main results

- `Agrees.run`: what a program registers is what its log says
- `scope_covers_dispatch`: the layers of a route cover the requests it is chosen for
-/

namespace OasRs

open Lib Lib.Preference

variable {H M : Type}

/-! ## The log of a program -/

/-- A registered route: its method, its full path, and the full prefixes of the groups
    around the registration, innermost first. -/
structure Registration where
  method : Method
  path : Text
  groups : List Text
  deriving DecidableEq

/-- The routes and the layers that a program adds, in order. -/
structure Log where
  routes : List Registration
  layers : List Origin

namespace Log

def empty : Log := { routes := [], layers := [] }

/-- The route registered last. -/
def lastRoute (log : Log) : Option ℕ :=
  if log.routes.isEmpty then none else some (log.routes.length - 1)

/-- What a call inside the given groups adds. -/
def add (groups : List Text) (log : Log) (c : Call H M) : Log :=
  match c.registers groups.head? with
  | some (method, path) => { log with routes := log.routes ++ [{ method, path, groups }] }
  | none =>
    match c.origin groups.head? log.lastRoute with
    | some origin => { log with layers := log.layers ++ [origin] }
    | none => log

end Log

/-- The log of a program inside the given groups. -/
def Program.log (groups : List Text) : Program H M → Log → Log
  | .done, log => log
  | .call c rest, log => rest.log groups (log.add groups c)
  | .group path body rest, log =>
    rest.log groups (body.log (fullPath groups.head? path :: groups) log)

/-- Whether a layer was added on a group around the route, or on the route itself. -/
def Origin.Guards (index : ℕ) (registration : Registration) : Origin → Prop
  | .group groupPrefix => groupPrefix ∈ registration.groups
  | .route guarded => guarded = index
  | .everything => False
  | .path _ => False

/-! ## Agreement -/

/-- The builder holds what the log says, as long as no route was dropped. -/
structure Agrees (app : App H M) (log : Log) : Prop where
  routes : List.Forall₂ (fun (md : RouteMetadata) (r : Registration) =>
    md.method = r.method ∧ md.template = normalizePath r.path) app.metadata log.routes
  layers : List.Forall₂ (fun (entry : ScopedLayer M) (origin : Origin) =>
    origin.Scoped app.metadata entry.scope) app.middleware log.layers
  lastRoute : app.lastRoute = log.lastRoute

theorem agrees_new : Agrees (App.new : App H M) .empty where
  routes := .nil
  layers := .nil
  lastRoute := rfl

/-- A later route does not change the scope of an earlier layer. -/
theorem Origin.Scoped.append {metadata : List RouteMetadata} {origin : Origin} {scope : Scope}
    (h : origin.Scoped metadata scope) (more : List RouteMetadata) :
    origin.Scoped (metadata ++ more) scope := by
  cases origin with
  | everything => exact h
  | group groupPrefix => exact h
  | path full => exact h
  | route index =>
    obtain ⟨md, segments, hmd, hparse, hscope⟩ := h
    refine ⟨md, segments, ?_, hparse, hscope⟩
    rw [List.getElem?_append_left (List.getElem?_eq_some_iff.mp hmd).1, hmd]

theorem forall₂_concat {α β : Type} {R : α → β → Prop} {l : List α} {m : List β} {a : α} {b : β}
    (h : List.Forall₂ R l m) (hab : R a b) : List.Forall₂ R (l ++ [a]) (m ++ [b]) := by
  induction h with
  | nil => exact .cons hab .nil
  | cons hr _ ih => exact .cons hr ih

/-- A call keeps the agreement. -/
theorem Agrees.add {app app' : App H M} {log : Log} {groups : List Text} {c : Call H M}
    (hc : app.Consistent) (ha : Agrees app log) (h : c.Effect groups.head? app app')
    (hnone : app'.routeError = none) : Agrees app' (log.add groups c) := by
  cases h with
  | registers _ method path hcall h =>
    cases h with
    | drops error => simp at hnone
    | pushes md plan pushed hpush _ hmethod htemplate =>
      obtain ⟨_, _, rfl, -⟩ := App.push_ok hpush
      simp only [Log.add, hcall]
      refine ⟨forall₂_concat ha.routes ⟨hmethod, htemplate⟩,
        ha.layers.imp fun _ _ h => h.append _, ?_⟩
      simp [Log.lastRoute, hc.length_plans, ha.routes.length_eq]
  | layers entry origin hcall horigin hscope =>
    rw [ha.lastRoute] at horigin
    simp only [Log.add, hcall, horigin]
    exact ⟨ha.routes, forall₂_concat ha.layers hscope, ha.lastRoute⟩
  | neutral _ hcall horigin _ hmetadata _ _ hlast _ hmiddleware _ =>
    rw [ha.lastRoute] at horigin
    simp only [Log.add, hcall, horigin]
    refine ⟨?_, ?_, ?_⟩
    · rw [hmetadata]
      exact ha.routes
    · rw [hmetadata, hmiddleware]
      exact ha.layers
    · rw [hlast]
      exact ha.lastRoute

/-- An error recorded for `build` stays recorded, whatever follows. -/
theorem Program.routeError {group : Option Text} {p : Program H M} {app app' : App H M}
    (hc : app.Consistent) (h : p.run group app = .ok app') (hnone : app'.routeError = none) :
    app.routeError = none := by
  induction p generalizing group app app' with
  | done =>
    cases h
    exact hnone
  | call c rest ih =>
    simp only [Program.run, bind_eq_ok] at h
    obtain ⟨app₁, hcall, hrest⟩ := h
    have heffect := Call.effect_of_run hc hcall
    exact heffect.routeError (ih (heffect.consistent hc) hrest hnone)
  | group path body rest ihbody ihrest =>
    simp only [Program.run, bind_eq_ok] at h
    obtain ⟨app₁, hbody, hrest⟩ := h
    exact ihbody hc hbody (ihrest (Program.consistent hc hbody) hrest hnone)

/-- What a program registers is what its log says. -/
theorem Agrees.run (groups : List Text) {p : Program H M} {app app' : App H M} {log : Log}
    (hc : app.Consistent) (ha : Agrees app log) (h : p.run groups.head? app = .ok app')
    (hnone : app'.routeError = none) : Agrees app' (p.log groups log) := by
  induction p generalizing groups app app' log with
  | done =>
    cases h
    exact ha
  | call c rest ih =>
    simp only [Program.run, bind_eq_ok] at h
    obtain ⟨app₁, hcall, hrest⟩ := h
    have heffect := Call.effect_of_run hc hcall
    have hc₁ := heffect.consistent hc
    have hnone₁ := Program.routeError hc₁ hrest hnone
    exact ih groups hc₁ (ha.add hc heffect hnone₁) hrest hnone
  | group path body rest ihbody ihrest =>
    simp only [Program.run, bind_eq_ok] at h
    obtain ⟨app₁, hbody, hrest⟩ := h
    have hc₁ := Program.consistent hc hbody
    have hnone₁ := Program.routeError hc₁ hrest hnone
    exact ihrest groups hc₁ (ihbody (fullPath groups.head? path :: groups) hc ha hbody hnone₁)
      hrest hnone

/-! ## Group prefixes are prefixes -/

/-- The full path of a registration begins with the segments of every group around it. -/
def Log.Nested (log : Log) : Prop :=
  ∀ r ∈ log.routes, ∀ g ∈ r.groups, segments g <+: segments r.path

/-- A list of group prefixes, each extending the next. -/
def NestedGroups : List Text → Prop
  | [] => True
  | g :: groups => (∀ outer ∈ groups, segments outer <+: segments g) ∧ NestedGroups groups

/-- A path inside a group begins with the group's segments. -/
theorem isPrefix_fullPath {groups : List Text} (hgroups : NestedGroups groups) (path : Text) :
    ∀ g ∈ groups, segments g <+: segments (fullPath groups.head? path) := by
  cases groups with
  | nil => simp
  | cons inner groups =>
    have hinner : segments inner <+: segments (fullPath (some inner) path) := by
      rw [fullPath, segments_join]
      exact List.prefix_append _ _
    intro g hg
    rcases List.mem_cons.mp hg with rfl | hg
    · exact hinner
    · exact (hgroups.1 g hg).trans hinner

theorem Log.Nested.add {log : Log} {groups : List Text} (hgroups : NestedGroups groups)
    (hlog : log.Nested) (c : Call H M) : (log.add groups c).Nested := by
  have hfull : ∀ {method path}, c.registers groups.head? = some (method, path) →
      ∀ g ∈ groups, segments g <+: segments path := by
    intro method path h
    cases c <;> simp only [Call.registers, Option.some.injEq, Prod.mk.injEq, reduceCtorEq] at h
    all_goals
      obtain ⟨-, rfl⟩ := h
      exact isPrefix_fullPath hgroups _
  unfold Log.add
  cases hcall : c.registers groups.head? with
  | some entry =>
    intro r hr
    rcases List.mem_append.mp hr with hold | hnew
    · exact hlog r hold
    · rw [List.mem_singleton.mp hnew]
      exact hfull hcall
  | none =>
    simp only
    split
    · exact hlog
    · exact hlog

theorem Log.Nested.run (groups : List Text) {p : Program H M} {log : Log}
    (hgroups : NestedGroups groups) (hlog : log.Nested) : (p.log groups log).Nested := by
  induction p generalizing groups log with
  | done => exact hlog
  | call c rest ih => exact ih groups hgroups (hlog.add hgroups c)
  | group path body rest ihbody ihrest =>
    have hinner : NestedGroups (fullPath groups.head? path :: groups) :=
      ⟨isPrefix_fullPath hgroups path, hgroups⟩
    exact ihrest groups hgroups (ihbody _ hinner hlog)

/-! ## Coverage -/

/-- The scope of a layer that guards a route covers the paths its template accepts, for
    the methods it serves. -/
theorem covers_of_guards {metadata : List RouteMetadata} {index : ℕ} {md : RouteMetadata}
    {registration : Registration} {origin : Origin} {scope : Scope} {method : Method} {path : Text}
    (hmd : metadata[index]? = some md) (hparsed : parseTemplate md.template = .ok md.segments)
    (htemplate : md.template = normalizePath registration.path)
    (hnested : ∀ g ∈ registration.groups, segments g <+: segments registration.path)
    (hguards : origin.Guards index registration) (hscope : origin.Scoped metadata scope)
    (hserves : Serves md.method method)
    (haccepts : Accepts validPercentEncoding (patternOf md.segments) (segments path)) :
    scope.matches method path = true := by
  have hwhole : segmentsMatch (md.segments.map Segment.scope) (segments path) true = true :=
    segmentsMatch_of_accepts haccepts
  cases origin with
  | everything => exact hguards.elim
  | path full => exact hguards.elim
  | group g =>
    obtain ⟨scopeSegments, hparse, rfl⟩ := hscope
    have hbegin : segments g <+: segments md.template := by
      rw [htemplate, segments_normalizePath]
      exact hnested g hguards
    rw [Scope.matches, splitPath_eq]
    exact segmentsMatch_isPrefix (scope_isPrefix hbegin hparse hparsed) hwhole
  | route guarded =>
    obtain ⟨md', scopeSegments, hmd', hparse, rfl⟩ := hscope
    rw [show guarded = index from hguards, hmd, Option.some.injEq] at hmd'
    subst hmd'
    rw [Scope.matches, splitPath_eq, scope_eq hparse hparsed, hwhole, Bool.and_true]
    rcases hserves with h | ⟨hget, hhead⟩
    · simp [h]
    · simp [hget, hhead]

/-- **Scopes are never narrower than routing.** When dispatch selects a route, every
    layer added on a group around its registration, and every layer added on the route
    itself, covers the request: the request takes the chain, and no `Next` that starts
    before the layer passes over it. -/
theorem scope_covers_dispatch {p : Program H M} {built : App H M}
    {validation : Option BuildError} {document page : H}
    (hbuild : p.build validation document page = .ok built)
    {method : Method} {path : Text} {index : RouteId} {captures : Option CaptureSet}
    (hdispatch : built.freeze.dispatch method path = .route index captures)
    {registration : Registration} {layer : ℕ} {origin : Origin}
    (hroute : (p.log [] .empty).routes[index]? = some registration)
    (hlayer : (p.log [] .empty).layers[layer]? = some origin)
    (hguards : origin.Guards index registration) :
    ∃ entry, built.freeze.middleware[layer]? = some entry ∧
      entry.scope.matches method path = true ∧
      hasMatchingLayer built.freeze.middleware method path = true ∧
      ∀ start ≤ layer, ∃ found, start ≤ found ∧ found ≤ layer ∧
        Next.skip built.freeze.middleware { method, path } start = some found := by
  obtain ⟨app, hrun, hinstall⟩ := Program.build_ok hbuild
  have hc : app.Consistent := Program.consistent App.consistent_new hrun
  obtain ⟨hnone, hcbuilt, hmiddleware, pages, hmetadata⟩ := App.install_ok hc hinstall
  have hagrees : Agrees app (p.log [] .empty) :=
    Agrees.run [] App.consistent_new agrees_new hrun hnone
  have hnested : (p.log [] .empty).Nested :=
    Log.Nested.run [] trivial (by simp [Log.Nested, Log.empty])
  -- The registration of the route that is chosen, and the entry of the layer.
  obtain ⟨-, md, hmd, hserves, haccepts⟩ := dispatch_sound hcbuilt hdispatch
  have hlt : index < app.metadata.length := by
    rw [hagrees.routes.length_eq]
    exact (List.getElem?_eq_some_iff.mp hroute).1
  have hmd' : app.metadata[index]? = some md := by
    rwa [hmetadata, List.getElem?_append_left hlt] at hmd
  obtain ⟨-, htemplate⟩ : md.method = registration.method ∧
      md.template = normalizePath registration.path := by
    rw [List.getElem?_eq_some_iff] at hmd' hroute
    obtain ⟨_, rfl⟩ := hmd'
    obtain ⟨_, rfl⟩ := hroute
    exact hagrees.routes.get _ _
  obtain ⟨entry, hentry, hscoped⟩ : ∃ entry, app.middleware[layer]? = some entry ∧
      origin.Scoped app.metadata entry.scope := by
    rw [List.getElem?_eq_some_iff] at hlayer
    obtain ⟨hlt, rfl⟩ := hlayer
    have hlt' : layer < app.middleware.length := hagrees.layers.length_eq ▸ hlt
    exact ⟨_, List.getElem?_eq_getElem hlt', hagrees.layers.get hlt' hlt⟩
  have hcovers : entry.scope.matches method path = true :=
    covers_of_guards hmd' (hc.parsed md (List.mem_of_getElem? hmd')) htemplate
      (hnested registration (List.mem_of_getElem? hroute)) hguards hscoped hserves haccepts
  rw [← hmiddleware] at hentry
  have hrequest : entry.covers { method, path } = true := hcovers
  refine ⟨entry, hentry, hcovers,
    hasMatchingLayer_of_covers (List.mem_of_getElem? hentry) hrequest, fun start hstart => ?_⟩
  obtain ⟨found, hfound, hge, hle⟩ := Next.skip_le hentry hrequest hstart
  exact ⟨found, hge, hle, hfound⟩

/-- Nested groups with a capture in the prefix, a layer on the outer one and a layer on
    the route. -/
def nestedExample : Program Unit Unit :=
  .group (str "/api/{tenant}/")
    (.call (.layer ())
      (.group (str "users")
        (.call (.route .get (str "/{id}")
            { call := (), zero := false, needsBody := false, needsParams := true, needsCapture := true })
          (.call (.routeLayer ()) .done))
        .done))
    .done

/-- The runtime of `nestedExample`. -/
def nestedBuilt : App Unit Unit := returned (nestedExample.build none () ()) (by decide +kernel)

/-- A `HEAD` request spelled with extra slashes and escapes reaches the `GET` route, and
    the outer group's layer covers it. -/
theorem scope_covers_dispatch_nested :
    ∃ entry, nestedBuilt.freeze.middleware[0]? = some entry ∧
      entry.scope.matches .head (str "/api//a%62/users/7/") = true := by
  have hbuild : nestedExample.build none () () = .ok nestedBuilt := eq_returned (by decide +kernel)
  have hdispatch : nestedBuilt.freeze.dispatch .head (str "/api//a%62/users/7/") = .route 0
      (some ((CaptureSet.empty.push ⟨str "a%62", 6, 10⟩).push ⟨str "7", 17, 18⟩)) := by
    decide +kernel
  have hroute : (nestedExample.log [] .empty).routes[0]? = some
      { method := .get, path := str "/api/{tenant}/users/{id}"
        groups := [str "/api/{tenant}/users", str "/api/{tenant}/"] } := by
    decide +kernel
  have hlayer : (nestedExample.log [] .empty).layers[0]? =
      some (.group (str "/api/{tenant}/")) := by decide +kernel
  obtain ⟨entry, hentry, hcovers, -⟩ :=
    scope_covers_dispatch hbuild hdispatch hroute hlayer (List.mem_cons_of_mem _ (by simp))
  exact ⟨entry, hentry, hcovers⟩

end OasRs
