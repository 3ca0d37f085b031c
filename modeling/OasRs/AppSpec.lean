import OasRs.App

/-!
# What Registration Builds

The invariant of the builder: the tables list exactly the registered routes, each at
its place. Every way to register a route goes through `App.push`, so one lemma about
it carries the invariant through whole programs.

## Main results

- `Consistent.push`: one more route
- `Call.run_cases`: what a call on the builder can do
- `Consistent.run`: the tables of a program
- `dispatch_sound`: dispatch answers with a route whose pattern accepts the path
-/

namespace OasRs

open Lib Lib.Preference

variable {H M : Type}

/-! ## Places -/

/-- Where a route is stored. -/
inductive Place where
  | table (key : Text)
  | trie (p : Pattern)
  deriving DecidableEq

/-- The place of a route. -/
def RouteMetadata.place (md : RouteMetadata) : Place :=
  if App.isStatic md.segments then .table md.template else .trie (patternOf md.segments)

/-- The registered routes with their places, in order. -/
def App.entries (app : App H M) : List (Method × Place) :=
  app.metadata.map fun md => (md.method, md.place)

/-- The route set of a static path. -/
def staticSet (table : Table Text RouteSet) (key : Text) : RouteSet := (table.lookup key).getD .empty

/-- The paths of the generated pages. -/
def App.configs (app : App H M) : List Text := app.openapiConfig.toList ++ app.swaggerConfig.toList

/-- The invariant of the builder. -/
structure App.Consistent (app : App H M) : Prop where
  length_plans : app.plans.length = app.metadata.length
  lastRoute_lt : ∀ index, app.lastRoute = some index → index < app.metadata.length
  parsed : ∀ md ∈ app.metadata, parseTemplate md.template = .ok md.segments
  normalized : ∀ md ∈ app.metadata, normalizeRequestPath md.template = md.template
  configs : ∀ path ∈ app.configs, normalizeRequestPath path = path
  limit : ∀ md ∈ app.metadata, wilds (patternOf md.segments) ≤ maxCaptureParams
  table : ∀ key, (staticSet app.staticRoutes key).Lists app.entries (.table key)
  table_nonempty : ∀ key set, app.staticRoutes.lookup key = some set → set.isEmpty = false
  wellFormed : app.dynamicRoutes.WellFormed
  trie : ∀ p, (app.dynamicRoutes.routesOf p).Lists app.entries (.trie p)
  nodup : app.entries.Nodup
  length_le : app.entries.length ≤ u32Max + 1

theorem App.consistent_new : (App.new : App H M).Consistent where
  length_plans := rfl
  lastRoute_lt := by simp [App.new]
  parsed := by simp [App.new]
  normalized := by simp [App.new]
  configs := by simp [App.new, App.configs]
  limit := by simp [App.new]
  table key := by
    have : staticSet (App.new : App H M).staticRoutes key = .empty := by
      simp [staticSet, App.new]
    rw [this]
    exact RouteSet.lists_empty _
  table_nonempty := by simp [App.new]
  wellFormed := DynamicRouteTrie.wellFormed_empty
  trie p := by
    show ((DynamicRouteTrie.empty).routesOf p).Lists [] _
    rw [DynamicRouteTrie.routesOf_empty]
    exact RouteSet.lists_empty _
  nodup := List.nodup_nil
  length_le := Nat.zero_le _

/-! ## One more route -/

/-- What `push` changes. -/
theorem App.push_ok {app app' : App H M} {md : RouteMetadata} {plan : RoutePlan H}
    (h : app.push md plan = .ok app') :
    ∃ staticRoutes dynamicRoutes,
      app' = { app with
        staticRoutes, dynamicRoutes
        plans := app.plans ++ [plan]
        metadata := app.metadata ++ [md] } ∧
      ((App.isStatic md.segments = true ∧ dynamicRoutes = app.dynamicRoutes ∧
          ∃ set, (staticSet app.staticRoutes md.template).insert md.method app.plans.length =
            .ok set ∧ staticRoutes = app.staticRoutes.insert md.template set) ∨
        (App.isStatic md.segments = false ∧ staticRoutes = app.staticRoutes ∧
          app.dynamicRoutes.insert md.segments md.method app.plans.length =
            .ok dynamicRoutes)) := by
  simp only [App.push, bind_eq_ok, pure_eq_ok, App.insertRoute] at h
  obtain ⟨app₁, h, rfl⟩ := h
  by_cases hs : App.isStatic md.segments = true
  · rw [if_pos hs] at h
    simp only [App.insertStatic, bind_eq_ok, pure_eq_ok] at h
    obtain ⟨set, hset, rfl⟩ := h
    exact ⟨_, _, rfl, .inl ⟨hs, rfl, set, hset, rfl⟩⟩
  · rw [if_neg hs] at h
    simp only [bind_eq_ok, pure_eq_ok] at h
    obtain ⟨dynamicRoutes, hd, rfl⟩ := h
    exact ⟨_, _, rfl, .inr ⟨by simpa using hs, rfl, hd⟩⟩

theorem App.Consistent.push {app app' : App H M} (hc : app.Consistent) {md : RouteMetadata}
    {plan : RoutePlan H} (hparsed : parseTemplate md.template = .ok md.segments)
    (hnormalized : normalizeRequestPath md.template = md.template)
    (hlimit : wilds (patternOf md.segments) ≤ maxCaptureParams)
    (h : app.push md plan = .ok app') : app'.Consistent := by
  have hlength : app.plans.length = app.entries.length := by
    rw [hc.length_plans, App.entries, List.length_map]
  obtain ⟨staticRoutes, dynamicRoutes, rfl, hcases⟩ := App.push_ok h
  -- The route set of the new route's place, and what it listed before.
  obtain ⟨set, set', hlists, hinsert⟩ : ∃ set set' : RouteSet, set.Lists app.entries md.place ∧
      set.insert md.method app.entries.length = .ok set' := by
    rw [← hlength]
    rcases hcases with ⟨hs, -, set', hset, -⟩ | ⟨hs, -, hd⟩
    · exact ⟨_, set', by simpa [RouteMetadata.place, hs] using hc.table md.template, hset⟩
    · obtain ⟨-, set', hset, -⟩ := DynamicRouteTrie.routesOf_insert hc.wellFormed hd
      exact ⟨_, set', by simpa [RouteMetadata.place, hs] using hc.trie _, hset⟩
  obtain ⟨-, -, hindex, -⟩ := RouteSet.insert_ok hinsert
  have hentries : App.entries { app with
      staticRoutes, dynamicRoutes
      plans := app.plans ++ [plan]
      metadata := app.metadata ++ [md] } = app.entries ++ [(md.method, md.place)] := by
    simp [App.entries]
  refine
    { length_plans := by simp [hc.length_plans]
      lastRoute_lt := fun index h => by
        simpa using Nat.lt_succ_of_lt (hc.lastRoute_lt index h)
      parsed := ?_
      normalized := ?_
      configs := hc.configs
      limit := ?_
      table := ?_
      table_nonempty := ?_
      wellFormed := ?_
      trie := ?_
      nodup := ?_
      length_le := by
        rw [hentries, List.length_append, List.length_singleton]
        exact Nat.succ_le_succ hindex }
  -- what holds of each route's metadata: of the old routes before, of the new one by assumption
  · intro other hother
    rcases List.mem_append.mp hother with hold | hnew
    · exact hc.parsed other hold
    · rw [List.mem_singleton.mp hnew]
      exact hparsed
  · intro other hother
    rcases List.mem_append.mp hother with hold | hnew
    · exact hc.normalized other hold
    · rw [List.mem_singleton.mp hnew]
      exact hnormalized
  · intro other hother
    rcases List.mem_append.mp hother with hold | hnew
    · exact hc.limit other hold
    · rw [List.mem_singleton.mp hnew]
      exact hlimit
  -- the static table lists the routes with its key, the new one among them
  · intro key
    rw [hentries]
    rcases hcases with ⟨hs, -, set, hset, rfl⟩ | ⟨hs, rfl, -⟩
    · have hplace : md.place = .table md.template := by simp [RouteMetadata.place, hs]
      by_cases hkey : key = md.template
      · subst hkey
        rw [hlength] at hset
        rw [hplace]
        simpa [staticSet] using (hc.table md.template).insert hset
      · have hsame : staticSet (app.staticRoutes.insert md.template set) key =
            staticSet app.staticRoutes key := by
          simp [staticSet, AList.lookup_insert_ne hkey]
        simp only [hsame]
        exact (hc.table key).append_of_ne (by rw [hplace]; simpa using Ne.symm hkey)
    · have hplace : md.place ≠ .table key := by simp [RouteMetadata.place, hs]
      exact (hc.table key).append_of_ne hplace
  · intro key set hlookup
    rcases hcases with ⟨-, -, set', hset, rfl⟩ | ⟨-, rfl, -⟩
    · by_cases hkey : key = md.template
      · subst hkey
        simp only [AList.lookup_insert, Option.some.injEq] at hlookup
        rw [← hlookup]
        exact RouteSet.isEmpty_insert hset
      · simp only [AList.lookup_insert_ne hkey] at hlookup
        exact hc.table_nonempty key set hlookup
    · exact hc.table_nonempty key set hlookup
  · rcases hcases with ⟨-, rfl, -⟩ | ⟨-, -, hd⟩
    · exact hc.wellFormed
    · exact (DynamicRouteTrie.routesOf_insert hc.wellFormed hd).1
  -- the trie lists the routes with the pattern
  · intro p
    rw [hentries]
    rcases hcases with ⟨hs, rfl, -⟩ | ⟨hs, -, hd⟩
    · have hplace : md.place ≠ .trie p := by simp [RouteMetadata.place, hs]
      exact (hc.trie p).append_of_ne hplace
    · have hplace : md.place = .trie (patternOf md.segments) := by simp [RouteMetadata.place, hs]
      obtain ⟨-, set, hset, hroutes⟩ := DynamicRouteTrie.routesOf_insert hc.wellFormed hd
      simp only [hroutes, hplace]
      by_cases hp : p = patternOf md.segments
      · subst hp
        rw [hlength] at hset
        simpa using (hc.trie _).insert hset
      · rw [if_neg hp]
        exact (hc.trie p).append_of_ne (by simpa using Ne.symm hp)
  -- no route has been registered before with the same method and place
  · rw [hentries, List.nodup_append]
    refine ⟨hc.nodup, List.nodup_singleton _, ?_⟩
    rintro entry hmem _ hnew rfl
    rw [List.mem_singleton] at hnew
    obtain ⟨id, hid⟩ := List.getElem?_of_mem (hnew ▸ hmem)
    refine hlists.not_mem_of_insert hinsert ?_ hid
    have := (List.getElem?_eq_some_iff.mp hid).1
    unfold RouteId.none
    omega

/-- Consistency is about the tables, the metadata and the number of plans. -/
theorem App.Consistent.congr {app app' : App H M} (hc : app.Consistent)
    (hplans : app'.plans.length = app.plans.length) (hmetadata : app'.metadata = app.metadata)
    (hstatic : app'.staticRoutes = app.staticRoutes)
    (hdynamic : app'.dynamicRoutes = app.dynamicRoutes)
    (hlast : ∀ index, app'.lastRoute = some index → index < app.metadata.length)
    (hconfigs : ∀ path ∈ app'.configs, path ∈ app.configs ∨ normalizeRequestPath path = path) :
    app'.Consistent := by
  have hentries : app'.entries = app.entries := by rw [App.entries, App.entries, hmetadata]
  constructor
  · rw [hplans, hmetadata, hc.length_plans]
  · rw [hmetadata]
    exact hlast
  · rw [hmetadata]
    exact hc.parsed
  · rw [hmetadata]
    exact hc.normalized
  · intro path hpath
    exact (hconfigs path hpath).elim (hc.configs path) id
  · rw [hmetadata]
    exact hc.limit
  · rw [hentries, hstatic]
    exact hc.table
  · rw [hstatic]
    exact hc.table_nonempty
  · rw [hdynamic]
    exact hc.wellFormed
  · rw [hentries, hdynamic]
    exact hc.trie
  · rw [hentries]
    exact hc.nodup
  · rw [hentries]
    exact hc.length_le

/-! ## What a registration does -/

theorem length_captureNames (segments : List Segment) :
    (App.captureNames segments).length = wilds (patternOf segments) := by
  induction segments with
  | nil => rfl
  | cons segment segments ih =>
    cases segment with
    | static value => simpa [App.captureNames, wilds, patternOf, Segment.piece] using ih
    | capture name =>
      simp only [App.captureNames, wilds, patternOf] at ih
      simp [App.captureNames, wilds, patternOf, Segment.piece, ih]

theorem wilds_of_isStatic {segments : List Segment} (h : App.isStatic segments = true) :
    wilds (patternOf segments) = 0 := by
  rw [wilds, List.count_eq_zero]
  intro hmem
  obtain ⟨segment, hsegment, hpiece⟩ := List.mem_map.mp hmem
  have := List.all_eq_true.mp h segment hsegment
  cases segment with
  | static value => simp [Segment.piece] at hpiece
  | capture name => simp at this

/-- A registration of `method` and `path` either drops the route, with an error for
    `build`, or pushes it. -/
inductive App.Registers (app : App H M) (method : Method) (path : Text) : App H M → Prop where
  | drops (error : BuildError) :
      app.Registers method path { app with routeError := app.routeError.or (some error) }
  | pushes (md : RouteMetadata) (plan : RoutePlan H) (pushed : App H M)
      (hpush : app.push md plan = .ok pushed) (hbuiltin : md.builtin = false)
      (hmethod : md.method = method) (htemplate : md.template = normalizePath path)
      (hpath : path.head? = some slash) (hparsed : parseTemplate md.template = .ok md.segments)
      (hfresh : ∀ other ∈ app.metadata, other.method = md.method → other.template ≠ md.template)
      (hlimit : wilds (patternOf md.segments) ≤ maxCaptureParams) :
      app.Registers method path { pushed with lastRoute := some app.plans.length }

theorem App.checkFresh_ok {app : App H M} {method : Method} {template : Text} {u : Unit}
    (h : app.checkFresh method template = .ok u) :
    ∀ other ∈ app.metadata, other.method = method → other.template ≠ template := by
  rw [App.checkFresh, check_eq_ok, List.all_eq_true] at h
  intro other hother hmethod
  simpa [hmethod] using h other hother

theorem App.registers_of_pushWithinLimit {app app' : App H M} {md : RouteMetadata}
    {plan : RoutePlan H} {method : Method} {path : Text} (hbuiltin : md.builtin = false)
    (hmethod : md.method = method) (htemplate : md.template = normalizePath path)
    (hpath : path.head? = some slash) (hparsed : parseTemplate md.template = .ok md.segments)
    (hfresh : ∀ other ∈ app.metadata, other.method = md.method → other.template ≠ md.template)
    (h : app.pushWithinLimit md plan = .ok app') : app.Registers method path app' := by
  unfold App.pushWithinLimit at h
  split at h
  · rw [Except.ok.injEq] at h
    rw [← h]
    exact .drops _
  · rename_i hnone
    simp only [bind_eq_ok, pure_eq_ok] at h
    obtain ⟨pushed, hpush, rfl⟩ := h
    refine .pushes md plan pushed hpush hbuiltin hmethod htemplate hpath hparsed hfresh ?_
    rw [← length_captureNames]
    by_contra hgt
    simp [App.captureLimitError, hgt] at hnone

theorem App.registers_of_addRoute {app app' : App H M} {method : Method} {path : Text}
    {handler : Handler H} (h : app.addRoute method path handler = .ok app') :
    app.Registers method path app' := by
  simp only [App.addRoute, bind_eq_ok, check_eq_ok, beq_iff_eq] at h
  obtain ⟨_, hpath, _, hfresh, segments, hparsed, h⟩ := h
  exact App.registers_of_pushWithinLimit rfl rfl rfl hpath hparsed (App.checkFresh_ok hfresh) h

theorem App.registers_of_addRawRoute {app app' : App H M} {method : Method} {path : Text}
    {handler : H} (h : app.addRawRoute method path handler = .ok app') :
    app.Registers method path app' := by
  simp only [App.addRawRoute, bind_eq_ok, check_eq_ok, beq_iff_eq] at h
  obtain ⟨_, hpath, _, hfresh, segments, hparsed, h⟩ := h
  exact App.registers_of_pushWithinLimit rfl rfl rfl hpath hparsed (App.checkFresh_ok hfresh) h

theorem App.registers_of_addStaticRoute {app app' : App H M} {path : Text} {response : H}
    (h : app.addStaticRoute path response = .ok app') : app.Registers .get path app' := by
  simp only [App.addStaticRoute, bind_eq_ok, check_eq_ok, pure_eq_ok, beq_iff_eq] at h
  obtain ⟨_, hpath, segments, hparsed, _, hstatic, _, hfresh, pushed, hpush, rfl⟩ := h
  exact .pushes _ _ pushed hpush rfl rfl rfl hpath hparsed (App.checkFresh_ok hfresh)
    (by rw [wilds_of_isStatic hstatic]; exact Nat.zero_le _)

theorem App.Registers.consistent {app app' : App H M} {method : Method} {path : Text}
    (hc : app.Consistent) (h : app.Registers method path app') : app'.Consistent := by
  cases h with
  | drops error => exact hc.congr rfl rfl rfl rfl hc.lastRoute_lt fun _ => .inl
  | pushes md plan pushed hpush _ _ htemplate _ hparsed _ hlimit =>
    have hnormalized : normalizeRequestPath md.template = md.template := by
      rw [htemplate]
      exact normalizeRequestPath_normalizePath path
    have hpushed := hc.push hparsed hnormalized hlimit hpush
    refine hpushed.congr rfl rfl rfl rfl (fun index hindex => ?_) fun _ => .inl
    rw [Option.some.injEq] at hindex
    obtain ⟨_, _, rfl, -⟩ := App.push_ok hpush
    simp [← hindex, hc.length_plans]

/-! ## What a call does -/

/-- Where the scope of a layer comes from. -/
inductive Origin where
  /-- `App::layer` -/
  | everything
  /-- `Group::layer` on the group with this prefix -/
  | group (groupPrefix : Text)
  /-- `layer_for` with this full path -/
  | path (path : Text)
  /-- `route_layer` on this route -/
  | route (index : ℕ)
  deriving DecidableEq

/-- The scope of a layer, given the routes registered before it. -/
def Origin.Scoped (metadata : List RouteMetadata) : Origin → Scope → Prop
  | .everything, scope => scope = .all
  | .group groupPrefix, scope =>
    ∃ segments, Scope.parse groupPrefix = .ok segments ∧ scope = .pathPrefix segments
  | .path full, scope => ∃ segments, Scope.parse full = .ok segments ∧ scope = .pathPrefix segments
  | .route index, scope => ∃ md segments, metadata[index]? = some md ∧
      Scope.parse md.template = .ok segments ∧ scope = .route md.method segments

/-- The method and full path that a call registers. -/
def Call.registers (group : Option Text) : Call H M → Option (Method × Text)
  | .route method path _ => some (method, fullPath group path)
  | .raw method path _ => some (method, fullPath group path)
  | .static path _ => some (.get, fullPath group path)
  | _ => none

/-- What a call that registers no route leaves of the routes: their limits may change. -/
structure Call.Keeps (c : Call H M) (app app' : App H M) : Prop where
  metadata : app'.metadata = app.metadata
  plans : app'.plans = app.plans ∨ ∃ limit,
    app'.plans = app.plans.map (fun plan => plan.withLimit limit) ∨
      ∃ index, app'.plans = app.plans.modify index fun plan => plan.withLimit limit
  routeError : app'.routeError = app.routeError
  lastRoute : app'.lastRoute = app.lastRoute
  openapiConfig : (∀ path, c ≠ .openapi path) → app'.openapiConfig = app.openapiConfig

theorem Call.keeps_of_run {group : Option Text} {c : Call H M} {app app' : App H M}
    (hc : c.registers group = none) (h : c.run group app = .ok app') : c.Keeps app app' := by
  cases c with
  | route method path handler => cases hc
  | raw method path handler => cases hc
  | static path response => cases hc
  | layer middleware =>
    cases group with
    | none =>
      cases h
      exact ⟨rfl, .inl rfl, rfl, rfl, fun _ => rfl⟩
    | some groupPrefix =>
      simp only [Call.run, App.layerFor, bind_eq_ok, pure_eq_ok] at h
      obtain ⟨_, -, rfl⟩ := h
      exact ⟨rfl, .inl rfl, rfl, rfl, fun _ => rfl⟩
  | layerFor path middleware =>
    simp only [Call.run, App.layerFor, bind_eq_ok, pure_eq_ok] at h
    obtain ⟨_, -, rfl⟩ := h
    exact ⟨rfl, .inl rfl, rfl, rfl, fun _ => rfl⟩
  | routeLayer middleware =>
    simp only [Call.run, App.routeLayer] at h
    split at h
    · simp only [bind_eq_ok, pure_eq_ok] at h
      obtain ⟨_, -, rfl⟩ := h
      exact ⟨rfl, .inl rfl, rfl, rfl, fun _ => rfl⟩
    · cases h
      exact ⟨rfl, .inl rfl, rfl, rfl, fun _ => rfl⟩
  | maxBodySize limit =>
    simp only [Call.run, App.setMaxBodySize, bind_eq_ok, pure_eq_ok] at h
    obtain ⟨limit, -, rfl⟩ := h
    exact ⟨rfl, .inr ⟨limit, .inl rfl⟩, rfl, rfl, fun _ => rfl⟩
  | bodyLimit limit =>
    simp only [Call.run, App.bodyLimit, bind_eq_ok] at h
    obtain ⟨limit, -, h⟩ := h
    -- it is the limit of the last route, if there is one
    split at h
    · rename_i index _
      rw [pure_eq_ok] at h
      rw [← h]
      exact ⟨rfl, .inr ⟨limit, .inr ⟨index, rfl⟩⟩, rfl, rfl, fun _ => rfl⟩
    · rw [pure_eq_ok] at h
      rw [← h]
      exact ⟨rfl, .inl rfl, rfl, rfl, fun _ => rfl⟩
  | openapi path =>
    cases h
    exact ⟨rfl, .inl rfl, rfl, rfl, fun hopenapi => absurd rfl (hopenapi path)⟩
  | swagger path =>
    cases h
    exact ⟨rfl, .inl rfl, rfl, rfl, fun _ => rfl⟩

/-- A relation between lists survives a change of one element that keeps it. -/
theorem forall₂_modify {α β : Type} {R : α → β → Prop} {f : β → β} (hf : ∀ a b, R a b → R a (f b))
    {as : List α} {bs : List β} (h : List.Forall₂ R as bs) (index : ℕ) :
    List.Forall₂ R as (bs.modify index f) := by
  induction h generalizing index with
  | nil =>
    rw [List.modify_nil]
    exact .nil
  | cons hab _ ih =>
    cases index with
    | zero => exact .cons (hf _ _ hab) ‹_›
    | succ index => exact .cons hab (ih index)

/-- What does not depend on the limit of a plan is kept. -/
theorem Call.Keeps.forall₂_plans {α : Type} {R : α → RoutePlan H → Prop} {c : Call H M}
    {app app' : App H M} (h : c.Keeps app app')
    (hR : ∀ a plan limit, R a plan → R a (plan.withLimit limit)) {as : List α}
    (hs : List.Forall₂ R as app.plans) : List.Forall₂ R as app'.plans := by
  obtain hplans | ⟨limit, hplans | ⟨index, hplans⟩⟩ := h.plans
  · rw [hplans]
    exact hs
  · rw [hplans, List.forall₂_map_right_iff]
    exact hs.imp fun a plan => hR a plan limit
  · rw [hplans]
    exact forall₂_modify (fun a plan => hR a plan limit) hs index

/-- The origin of the layer that a call adds, given the route registered last. -/
def Call.origin (group : Option Text) (lastRoute : Option ℕ) : Call H M → Option Origin
  | .layer _ =>
    match group with
    | none => some .everything
    | some groupPrefix => some (.group groupPrefix)
  | .layerFor path _ => some (.path (fullPath group path))
  | .routeLayer _ => lastRoute.map .route
  | _ => none

/-- A call registers a route, adds a layer, or leaves routes and layers alone. -/
inductive Call.Effect (group : Option Text) (c : Call H M) (app : App H M) : App H M → Prop where
  | registers (app' : App H M) (method : Method) (path : Text)
      (hc : c.registers group = some (method, path)) (h : app.Registers method path app') :
      c.Effect group app app'
  | layers (entry : ScopedLayer M) (origin : Origin) (hc : c.registers group = none)
      (horigin : c.origin group app.lastRoute = some origin)
      (hscope : origin.Scoped app.metadata entry.scope) :
      c.Effect group app { app with middleware := app.middleware ++ [entry] }
  | neutral (app' : App H M) (hc : c.registers group = none)
      (horigin : c.origin group app.lastRoute = none)
      (hplans : app'.plans.length = app.plans.length) (hmetadata : app'.metadata = app.metadata)
      (hstatic : app'.staticRoutes = app.staticRoutes)
      (hdynamic : app'.dynamicRoutes = app.dynamicRoutes)
      (hlast : app'.lastRoute = app.lastRoute) (herror : app'.routeError = app.routeError)
      (hmiddleware : app'.middleware = app.middleware)
      (hconfigs : ∀ path ∈ app'.configs, path ∈ app.configs ∨ normalizeRequestPath path = path) :
      c.Effect group app app'

/-- The path of a generated page, once its configuration is set. -/
private theorem normalizeRequestPath_config {path current : Option Text} {default : Text}
    (hdefault : normalizeRequestPath default = default) :
    (path.map normalizePath).getD (current.getD default) ∈ current.toList ∨
      normalizeRequestPath ((path.map normalizePath).getD (current.getD default)) =
        (path.map normalizePath).getD (current.getD default) := by
  cases path with
  | some path => exact .inr (normalizeRequestPath_normalizePath path)
  | none =>
    cases current with
    | some current => exact .inl (by simp)
    | none => exact .inr hdefault

theorem Call.effect_of_run {group : Option Text} {c : Call H M} {app app' : App H M}
    (hc : app.Consistent) (h : c.run group app = .ok app') : c.Effect group app app' := by
  -- each call registers a route, adds a layer, or changes neither
  cases c with
  | route method path handler => exact .registers _ _ _ rfl (App.registers_of_addRoute h)
  | raw method path handler => exact .registers _ _ _ rfl (App.registers_of_addRawRoute h)
  | static path response => exact .registers _ _ _ rfl (App.registers_of_addStaticRoute h)
  | layer middleware =>
    -- in a group the layer gets the scope of the prefix
    cases group with
    | none =>
      simp only [Call.run, Except.ok.injEq] at h
      subst h
      exact .layers { scope := .all, layer := middleware } .everything rfl rfl rfl
    | some groupPrefix =>
      simp only [Call.run, App.layerFor, bind_eq_ok, pure_eq_ok] at h
      obtain ⟨segments, hparse, rfl⟩ := h
      exact .layers { scope := .pathPrefix segments, layer := middleware } (.group groupPrefix)
        rfl rfl ⟨segments, hparse, rfl⟩
  | layerFor path middleware =>
    simp only [Call.run, App.layerFor, bind_eq_ok, pure_eq_ok] at h
    obtain ⟨segments, hparse, rfl⟩ := h
    exact .layers { scope := .pathPrefix segments, layer := middleware }
      (.path (fullPath group path)) rfl rfl ⟨segments, hparse, rfl⟩
  | routeLayer middleware =>
    simp only [Call.run, App.routeLayer] at h
    -- without a route before it, only the error is remembered
    cases hlast : app.lastRoute with
    | none =>
      rw [hlast] at h
      cases h
      exact .neutral _ rfl (by simp [Call.origin, hlast]) rfl rfl rfl rfl rfl rfl rfl fun _ => .inl
    | some index =>
      have hlt := hc.lastRoute_lt index hlast
      have hmd : (app.lastRoute.bind fun index => app.metadata[index]?) =
          some app.metadata[index] := by
        rw [hlast, Option.bind_some, List.getElem?_eq_getElem hlt]
      rw [hmd] at h
      simp only [bind_eq_ok, pure_eq_ok] at h
      obtain ⟨segments, hparse, rfl⟩ := h
      have horigin : (Call.routeLayer (H := H) middleware).origin group app.lastRoute =
          some (.route index) := by simp [Call.origin, hlast]
      exact .layers { scope := .route _ segments, layer := middleware } _ rfl horigin
        ⟨_, segments, List.getElem?_eq_getElem hlt, hparse, rfl⟩
  | maxBodySize limit =>
    simp only [Call.run, App.setMaxBodySize, bind_eq_ok, pure_eq_ok] at h
    obtain ⟨_, -, rfl⟩ := h
    exact .neutral _ rfl rfl (by simp) rfl rfl rfl rfl rfl rfl fun _ => .inl
  | bodyLimit limit =>
    simp only [Call.run, App.bodyLimit, bind_eq_ok] at h
    obtain ⟨_, -, h⟩ := h
    -- outside a group it is the limit of the last route, if there is one
    split at h
    · rw [pure_eq_ok] at h
      rw [← h]
      exact .neutral _ rfl rfl (by simp) rfl rfl rfl rfl rfl rfl fun _ => .inl
    · rw [pure_eq_ok] at h
      rw [← h]
      exact .neutral _ rfl rfl rfl rfl rfl rfl rfl rfl rfl fun _ => .inl
  | openapi path =>
    cases h
    -- the pages that are enabled gain a path, and it is normalized
    refine .neutral _ rfl rfl rfl rfl rfl rfl rfl rfl rfl fun other hother => ?_
    rcases List.mem_append.mp hother with hnew | hold
    · rw [List.mem_singleton.mp hnew]
      exact (normalizeRequestPath_config (by decide +kernel)).imp_left (List.mem_append_left _)
    · exact .inl (List.mem_append_right _ hold)
  | swagger path =>
    cases h
    refine .neutral _ rfl rfl rfl rfl rfl rfl rfl rfl rfl fun other hother => ?_
    rcases List.mem_append.mp hother with hold | hnew
    · exact .inl (List.mem_append_left _ hold)
    · rw [List.mem_singleton.mp hnew]
      exact (normalizeRequestPath_config (by decide +kernel)).imp_left (List.mem_append_right _)

theorem Call.Effect.consistent {group : Option Text} {c : Call H M} {app app' : App H M}
    (hc : app.Consistent) (h : c.Effect group app app') : app'.Consistent := by
  cases h with
  | registers _ method path _ h => exact h.consistent hc
  | layers entry origin => exact hc.congr rfl rfl rfl rfl hc.lastRoute_lt fun _ => .inl
  | neutral _ _ _ hplans hmetadata hstatic hdynamic hlast _ _ hconfigs =>
    exact hc.congr hplans hmetadata hstatic hdynamic
      (fun index h => hc.lastRoute_lt index (hlast ▸ h)) hconfigs

/-- An error recorded for `build` stays recorded. -/
theorem Call.Effect.routeError {group : Option Text} {c : Call H M} {app app' : App H M}
    (h : c.Effect group app app') (hnone : app'.routeError = none) : app.routeError = none := by
  cases h with
  | registers _ method path _ h =>
    cases h with
    | drops error => simp at hnone
    | pushes md plan pushed hpush =>
      obtain ⟨_, _, rfl, -⟩ := App.push_ok hpush
      exact hnone
  | layers entry origin => exact hnone
  | neutral _ _ _ _ _ _ _ _ herror => exact herror ▸ hnone

/-! ## Programs -/

/-- Programs keep the tables consistent. -/
theorem Program.consistent {group : Option Text} {p : Program H M} {app app' : App H M}
    (hc : app.Consistent) (h : p.run group app = .ok app') : app'.Consistent := by
  induction p generalizing group app app' with
  | done =>
    cases h
    exact hc
  | call c rest ih =>
    simp only [Program.run, bind_eq_ok] at h
    obtain ⟨app₁, hcall, hrest⟩ := h
    exact ih ((Call.effect_of_run hc hcall).consistent hc) hrest
  | group path body rest ihbody ihrest =>
    simp only [Program.run, bind_eq_ok] at h
    obtain ⟨app₁, hbody, hrest⟩ := h
    exact ihrest (ihbody hc hbody) hrest

/-! ## `build` -/

theorem App.orStop_eq_ok {α : Type} {x : Except Panic α} {a : α} :
    App.orStop x = .ok a ↔ x = .ok a := by
  cases x <;> simp [App.orStop]

/-- A generated page is one more route, and changes nothing else. -/
theorem App.installPage_ok {app app' : App H M} {config : Option Text} {page : H}
    (hc : app.Consistent) (hconfig : ∀ path ∈ config, normalizeRequestPath path = path)
    (h : app.installPage config page = .ok app') :
    app'.Consistent ∧ app'.middleware = app.middleware ∧ app'.swaggerConfig = app.swaggerConfig ∧
      ∃ pages, app'.metadata = app.metadata ++ pages := by
  cases config with
  | none =>
    cases h
    exact ⟨hc, rfl, rfl, [], (List.append_nil _).symm⟩
  | some path =>
    simp only [App.installPage, App.addGeneratedStaticRoute, bind_eq_ok, orStop_eq_ok] at h
    obtain ⟨segments, hparsed, h⟩ := h
    split at h
    · cases h
    · rename_i hstatic
      split at h
      · cases h
      · rw [orStop_eq_ok] at h
        have hstatic : App.isStatic segments = true := by simpa using hstatic
        refine ⟨hc.push hparsed (hconfig path rfl)
          (by rw [wilds_of_isStatic hstatic]; exact Nat.zero_le _) h, ?_⟩
        obtain ⟨_, _, rfl, -⟩ := App.push_ok h
        exact ⟨rfl, rfl, _, rfl⟩

theorem App.install_ok {app app' : App H M} {validation : Option BuildError} {document page : H}
    (hc : app.Consistent) (h : app.install validation document page = .ok app') :
    app.routeError = none ∧ app'.Consistent ∧ app'.middleware = app.middleware ∧
      ∃ pages, app'.metadata = app.metadata ++ pages := by
  unfold App.install at h
  split at h
  · cases h
  · rename_i hnone
    simp only [bind_eq_ok] at h
    obtain ⟨app₁, hdocument, hpage⟩ := h
    have hconfig : ∀ config ∈ [app.openapiConfig, app.swaggerConfig], ∀ path ∈ config,
        normalizeRequestPath path = path := by
      intro config hconfig path hpath
      apply hc.configs
      simp only [List.mem_cons, List.not_mem_nil, or_false] at hconfig
      rcases hconfig with rfl | rfl <;> simp [App.configs, Option.mem_def.mp hpath]
    obtain ⟨hc₁, hmiddleware₁, hswagger, pages₁, hpages₁⟩ :=
      App.installPage_ok hc (hconfig _ (by simp)) hdocument
    obtain ⟨hc₂, hmiddleware₂, -, pages₂, hpages₂⟩ :=
      App.installPage_ok hc₁ (hswagger ▸ hconfig _ (by simp)) hpage
    refine ⟨(Option.or_eq_none_iff.mp hnone).1, hc₂, hmiddleware₂.trans hmiddleware₁,
      pages₁ ++ pages₂, ?_⟩
    rw [hpages₂, hpages₁, List.append_assoc]

theorem Program.build_ok {p : Program H M} {validation : Option BuildError} {document page : H}
    {built : App H M} (h : p.build validation document page = .ok built) :
    ∃ app, p.run none App.new = .ok app ∧ app.install validation document page = .ok built := by
  simpa only [Program.build, bind_eq_ok, App.orStop_eq_ok] using h

/-- Whatever a program registers, its tables are consistent. -/
theorem Program.consistent_build {p : Program H M} {validation : Option BuildError}
    {document page : H} {built : App H M} (h : p.build validation document page = .ok built) :
    built.Consistent := by
  obtain ⟨app, hrun, hinstall⟩ := Program.build_ok h
  exact (App.install_ok (Program.consistent App.consistent_new hrun) hinstall).2.1

end OasRs
