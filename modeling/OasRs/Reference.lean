import OasRs.Dispatch

/-!
# The Reference Semantics of Routing

Routing as a function of the registered methods and patterns alone: no tables, no
nodes, no identifiers, no registration order. Dispatch answers as the reference does,
but for the route with the last identifier, which is the one that marks a free slot: it
is registered and never chosen.

## Main results

- `referenceWithout_congr`: the reference depends only on which routes there are
- `answer_dispatch`: dispatch against the reference
-/

namespace OasRs

open Lib Lib.Preference

variable {H M : Type}

/-! ## The reference -/

/-- The answer to a request, in terms of the routes. -/
inductive Answer where
  /-- the route of this method and pattern -/
  | route (method : Method) (p : Pattern)
  /-- `204`, with `Allow` -/
  | options (allow : Text)
  /-- `405`, with `Allow` -/
  | methodNotAllowed (allow : Text)
  /-- `404` -/
  | notFound
  deriving DecidableEq

/-- The methods that can be routed, in the order in which `Allow` lists them. -/
def standardMethods : List (Method × Text) :=
  [(.delete, str "DELETE"), (.get, str "GET"), (.head, str "HEAD"), (.options, str "OPTIONS"),
    (.patch, str "PATCH"), (.post, str "POST"), (.put, str "PUT")]

/-- The methods registered on a pattern, as `Allow` lists them. -/
def allow (routes : List (Method × Pattern)) (p : Pattern) : Text :=
  (str ", ").intercalate ((standardMethods.filter fun e => decide ((e.1, p) ∈ routes)).map Prod.snd)

/-- The patterns that accept a path. -/
def matching (routes : List (Method × Pattern)) (path : List Text) : List Pattern :=
  (routes.map Prod.snd).filter fun p => decide (Accepts validPercentEncoding p path)

/-- Among the patterns that accept, the one that is static at the first position where
    another differs from it. -/
def choose (routes : List (Method × Pattern)) (path : List Text) : Option Pattern :=
  (matching routes path).find? fun p =>
    (matching routes path).all fun q => q == p || decide (Precedes p q)

/-- The answer once the pattern is chosen. -/
def answerAt (routes : List (Method × Pattern)) (method : Method) (p : Pattern) : Answer :=
  if (method, p) ∈ routes then .route method p
  else if method = .head ∧ (.get, p) ∈ routes then .route .get p
  else if method = .options then .options (allow routes p)
  else .methodNotAllowed (allow routes p)

/-- The answer to a request. -/
def reference (routes : List (Method × Pattern)) (method : Method) (path : List Text) : Answer :=
  match choose routes path with
  | none => .notFound
  | some p => answerAt routes method p

/-- The answer once the pattern is chosen, where one route is registered and never chosen. -/
def answerWithout (lost : Option (Method × Pattern)) (routes : List (Method × Pattern))
    (method : Method) (p : Pattern) : Answer :=
  if (method, p) ∈ routes ∧ (method, p) ∉ lost then .route method p
  else if method = .head ∧ (.get, p) ∈ routes ∧ (.get, p) ∉ lost then .route .get p
  else if method = .options then .options (allow routes p)
  else .methodNotAllowed (allow routes p)

/-- The answer to a request, where one route is registered and never chosen. -/
def referenceWithout (lost : Option (Method × Pattern)) (routes : List (Method × Pattern))
    (method : Method) (path : List Text) : Answer :=
  match choose routes path with
  | none => .notFound
  | some p => answerWithout lost routes method p

/-- Where no route is lost at the pattern, the answer is that of the reference. -/
theorem answerWithout_eq {lost : Option (Method × Pattern)} {p : Pattern}
    (h : ∀ route ∈ lost, route.2 ≠ p) (routes : List (Method × Pattern)) (method : Method) :
    answerWithout lost routes method p = answerAt routes method p := by
  have hkept : ∀ method, (method, p) ∉ lost := fun method hlost => h _ hlost rfl
  simp only [answerWithout, answerAt, hkept, not_false_eq_true, and_true]

/-- The patterns of a list of routes. -/
def patternSet (routes : List (Method × Pattern)) : Set Pattern := { p | ∃ m, (m, p) ∈ routes }

theorem mem_matching {routes : List (Method × Pattern)} {path : List Text} {p : Pattern} :
    p ∈ matching routes path ↔ p ∈ patternSet routes ∧ Accepts validPercentEncoding p path := by
  simp [matching, patternSet]

/-- The chosen pattern is the preferred one. -/
theorem choose_eq_some_iff {routes : List (Method × Pattern)} {path : List Text} {p : Pattern} :
    choose routes path = some p ↔ IsPreferred validPercentEncoding (patternSet routes) path p := by
  have hsound : ∀ {q}, choose routes path = some q →
      IsPreferred validPercentEncoding (patternSet routes) path q := by
    intro q h
    have hmem := mem_matching.mp (List.mem_of_find?_eq_some h)
    have hall := List.find?_some h
    rw [List.all_eq_true] at hall
    refine ⟨hmem.1, hmem.2, fun r hr hacc => ?_⟩
    simpa using hall r (mem_matching.mpr ⟨hr, hacc⟩)
  refine ⟨hsound, fun hp => ?_⟩
  cases hc : choose routes path with
  | some q => rw [(hsound hc).unique hp]
  | none =>
    -- the preferred pattern itself passes the test
    have := List.find?_eq_none.mp hc p (mem_matching.mpr ⟨hp.mem, hp.accepts⟩)
    refine absurd (List.all_eq_true.mpr fun q hq => ?_) this
    have hq := mem_matching.mp hq
    simpa using hp.first q hq.1 hq.2

theorem choose_eq_none_iff {routes : List (Method × Pattern)} {path : List Text} :
    choose routes path = none ↔
      ∀ p ∈ patternSet routes, ¬ Accepts validPercentEncoding p path := by
  constructor
  · intro h p hp hacc
    obtain ⟨q, hq⟩ := exists_isPreferred ⟨p, hp, hacc⟩
    rw [choose_eq_some_iff.mpr hq] at h
    cases h
  · intro h
    cases hc : choose routes path with
    | none => rfl
    | some p =>
      have := choose_eq_some_iff.mp hc
      exact absurd this.accepts (h p this.mem)

theorem choose_congr {routes routes' : List (Method × Pattern)}
    (h : ∀ r, r ∈ routes ↔ r ∈ routes') (path : List Text) :
    choose routes path = choose routes' path := by
  have hset : patternSet routes = patternSet routes' := by
    ext p
    simp [patternSet, h]
  ext p
  rw [choose_eq_some_iff, choose_eq_some_iff, hset]

/-- The reference depends only on which routes there are, and on the one that is lost. -/
theorem referenceWithout_congr {routes routes' : List (Method × Pattern)}
    (h : ∀ r, r ∈ routes ↔ r ∈ routes') (lost : Option (Method × Pattern)) (method : Method)
    (path : List Text) :
    referenceWithout lost routes method path = referenceWithout lost routes' method path := by
  have hchoose := choose_congr h path
  have hallow : ∀ p, allow routes p = allow routes' p := fun p => by simp [allow, h]
  simp only [referenceWithout, answerWithout, hchoose, h, hallow]

/-! ## `Allow` -/

section Allow

variable {keep : ℕ → Bool}

/-- The loop body of `allowed_methods`. -/
def allowStep (keep : ℕ → Bool) (allowed : Text) (e : Text × ℕ) : Text :=
  if !keep e.2 then allowed
  else if allowed.isEmpty then e.1 else allowed ++ str ", " ++ e.1

theorem allowStep_skip {e : Text × ℕ} (h : keep e.2 = false) (allowed : Text) :
    allowStep keep allowed e = allowed := by
  simp [allowStep, h]

theorem allowStep_first {e : Text × ℕ} (h : keep e.2 = true) : allowStep keep [] e = e.1 := by
  simp [allowStep, h]

theorem allowStep_next {e : Text × ℕ} (h : keep e.2 = true) {allowed : Text} (hne : allowed ≠ []) :
    allowStep keep allowed e = allowed ++ str ", " ++ e.1 := by
  simp [allowStep, h, hne]

/-- Once something is written, every further name adds a separator and itself. -/
theorem foldl_allowStep_of_ne (names : List (Text × ℕ)) {allowed : Text} (hne : allowed ≠ []) :
    names.foldl (allowStep keep) allowed =
      (str ", ").intercalate (allowed :: (names.filter fun e => keep e.2).map Prod.fst) := by
  induction names generalizing allowed with
  | nil => simp [List.intercalate]
  | cons e names ih =>
    rw [List.foldl_cons]
    cases hk : keep e.2 with
    | false => rw [allowStep_skip hk, ih hne, List.filter_cons_of_neg (by simp [hk])]
    | true =>
      rw [allowStep_next hk hne, ih (by simp [hne]), List.filter_cons_of_pos (by simp [hk]),
        List.map_cons]
      cases (names.filter fun e => keep e.2).map Prod.fst <;> simp [List.intercalate]

/-- The loop of `allowed_methods` joins the names that it keeps. -/
theorem foldl_allowStep (names : List (Text × ℕ)) (hne : ∀ e ∈ names, e.1 ≠ []) :
    names.foldl (allowStep keep) [] =
      (str ", ").intercalate ((names.filter fun e => keep e.2).map Prod.fst) := by
  induction names with
  | nil => simp [List.intercalate]
  | cons e names ih =>
    rw [List.foldl_cons]
    cases hk : keep e.2 with
    | false =>
      rw [allowStep_skip hk, ih fun e he => hne e (List.mem_cons_of_mem _ he),
        List.filter_cons_of_neg (by simp [hk])]
    | true =>
      rw [allowStep_first hk, foldl_allowStep_of_ne names (hne e List.mem_cons_self),
        List.filter_cons_of_pos (by simp [hk]), List.map_cons]

end Allow

/-- The slots and the methods name the same entries of `Allow`. -/
theorem filter_methodNames {keep : ℕ → Bool} (registered : Method → Bool)
    (h : ∀ slot : Fin 7, keep slot.val = registered (slotMethod slot)) :
    (methodNames.zipIdx.filter fun e => keep e.2).map Prod.fst =
      (standardMethods.filter fun e => registered e.1).map Prod.snd := by
  have hnames : methodNames.zipIdx =
      (List.finRange 7).map fun slot => (methodNames[slot], slot.val) := by decide +kernel
  have hmethods : standardMethods =
      (List.finRange 7).map fun slot => (slotMethod slot, methodNames[slot]) := by decide +kernel
  rw [hnames, hmethods, List.filter_map, List.filter_map, List.map_map, List.map_map]
  have hfilter : (fun e : Text × ℕ => keep e.2) ∘ (fun slot : Fin 7 => (methodNames[slot], slot.val)) =
      (fun e : Method × Text => registered e.1) ∘ fun slot => (slotMethod slot, methodNames[slot]) :=
    funext h
  rw [hfilter]
  rfl

/-- `allowed_methods` lists the methods of its place. -/
theorem allowedMethods_eq {set : RouteSet} {routes : List (Method × Pattern)} {p : Pattern}
    (h : ∀ m, set.allows m = true ↔ (m, p) ∈ routes) : set.allowedMethods = allow routes p := by
  have hne : ∀ e ∈ methodNames.zipIdx, e.1 ≠ [] := by decide +kernel
  have hloop : set.allowedMethods = methodNames.zipIdx.foldl (allowStep set.hasSlot) [] := rfl
  rw [hloop, foldl_allowStep _ hne, allow,
    filter_methodNames fun m => decide ((m, p) ∈ routes)]
  intro slot
  have hallows : set.allows (slotMethod slot) = set.hasSlot slot.val := by
    rw [RouteSet.allows, methodSlot_eq_some_iff.mpr rfl]
  rw [← hallows, Bool.eq_iff_iff, h, decide_eq_true_eq]

/-! ## Places and patterns -/

/-- The registered methods and patterns. -/
def App.routes (app : App H M) : List (Method × Pattern) :=
  app.metadata.map fun md => (md.method, patternOf md.segments)

/-- The route with the last identifier, if it is in use. -/
def App.lost (app : App H M) : Option (Method × Pattern) := app.routes[RouteId.none]?

/-- What an outcome answers, in terms of the routes. -/
def App.answer (app : App H M) : Outcome → Answer
  | .route index _ =>
    match app.metadata[index]? with
    | some md => .route md.method (patternOf md.segments)
    | none => .notFound
  | .options allow => .options allow
  | .methodNotAllowed allow => .methodNotAllowed allow
  | .notFound => .notFound

/-- No template has an empty interior segment. -/
def App.CleanTemplates (app : App H M) : Prop := ∀ md ∈ app.metadata, Clean md.template

instance (app : App H M) : Decidable app.CleanTemplates :=
  inferInstanceAs (Decidable (∀ md ∈ app.metadata, Clean md.template))

theorem isStatic_iff {templateSegments : List Segment} :
    App.isStatic templateSegments = true ↔ Piece.wild ∉ patternOf templateSegments := by
  rw [App.isStatic, List.all_eq_true, patternOf, List.mem_map]
  constructor
  · rintro h ⟨segment, hmem, hpiece⟩
    cases segment with
    | static value => cases hpiece
    | capture name => cases h _ hmem
  · intro h segment hmem
    cases segment with
    | static value => rfl
    | capture name => exact absurd ⟨_, hmem, rfl⟩ h

/-- The pattern of a static template is its text. -/
theorem patternOf_of_isStatic {template : Text} {templateSegments : List Segment}
    (hparsed : parseTemplate template = .ok templateSegments)
    (hstatic : App.isStatic templateSegments = true) :
    patternOf templateSegments = (segments template).map Piece.literal := by
  rw [parseTemplate, splitPath_eq, mapM_eq_ok] at hparsed
  generalize segments template = parts at hparsed ⊢
  induction hparsed with
  | nil => rfl
  | cons hparse _ ih =>
    rcases parseSegment_ok hparse with rfl | ⟨name, rfl⟩
    · exact congrArg (Piece.literal _ :: ·) (ih hstatic)
    · cases hstatic

section Clean

variable {app : App H M} (hc : app.Consistent) (hclean : app.CleanTemplates)

include hc hclean

/-- A clean template is determined by its segments. -/
theorem template_eq_canon {md : RouteMetadata} (hmd : md ∈ app.metadata) :
    md.template = Tokens.canon slash (segments md.template) := by
  rw [← normalizeRequestPath_eq_canon (hclean md hmd), hc.normalized md hmd]

/-- Routes share a place exactly when they share a pattern. -/
theorem place_eq_iff {md md' : RouteMetadata} (hmd : md ∈ app.metadata)
    (hmd' : md' ∈ app.metadata) :
    md.place = md'.place ↔ patternOf md.segments = patternOf md'.segments := by
  have hparsed := hc.parsed md hmd
  have hparsed' := hc.parsed md' hmd'
  by_cases hs : App.isStatic md.segments = true
  · by_cases hs' : App.isStatic md'.segments = true
    · simp only [RouteMetadata.place, hs, hs', if_true, Place.table.injEq]
      constructor
      · intro h
        rw [patternOf_of_isStatic hparsed hs, patternOf_of_isStatic hparsed' hs', h]
      · intro h
        rw [patternOf_of_isStatic hparsed hs, patternOf_of_isStatic hparsed' hs'] at h
        have hinj : Function.Injective (Piece.literal (α := Text)) := fun _ _ h => by cases h; rfl
        rw [template_eq_canon hc hclean hmd, template_eq_canon hc hclean hmd',
          List.map_injective_iff.mpr hinj h]
    · have : patternOf md.segments ≠ patternOf md'.segments := fun h =>
        hs' (isStatic_iff.mpr (h ▸ isStatic_iff.mp hs))
      simp [RouteMetadata.place, hs, hs', this]
  · by_cases hs' : App.isStatic md'.segments = true
    · have : patternOf md.segments ≠ patternOf md'.segments := fun h =>
        hs (isStatic_iff.mpr (h ▸ isStatic_iff.mp hs'))
      simp [RouteMetadata.place, hs, hs', this]
    · simp [RouteMetadata.place, hs, hs']

/-- The routes of a place are the routes of its pattern. -/
theorem mem_entries_iff {md : RouteMetadata} (hmd : md ∈ app.metadata) (method : Method) :
    (method, md.place) ∈ app.entries ↔ (method, patternOf md.segments) ∈ app.routes := by
  simp only [App.entries, App.routes, List.mem_map, Prod.mk.injEq]
  constructor
  · rintro ⟨md', hmd', rfl, hplace⟩
    exact ⟨md', hmd', rfl, (place_eq_iff hc hclean hmd' hmd).mp hplace⟩
  · rintro ⟨md', hmd', rfl, hpattern⟩
    exact ⟨md', hmd', rfl, (place_eq_iff hc hclean hmd' hmd).mpr hpattern⟩

/-- A route is lost exactly if its entry has the last identifier. -/
theorem mem_lost_iff {md : RouteMetadata} (hmd : md ∈ app.metadata) (method : Method) :
    (method, patternOf md.segments) ∈ app.lost ↔
      app.entries[RouteId.none]? = some (method, md.place) := by
  rw [App.lost, App.routes, App.entries, Option.mem_def, List.getElem?_map, List.getElem?_map,
    Option.map_eq_some_iff, Option.map_eq_some_iff]
  constructor
  · rintro ⟨md', hmd', heq⟩
    obtain ⟨rfl, hpattern⟩ := Prod.mk.inj heq
    exact ⟨md', hmd', by rw [(place_eq_iff hc hclean (List.mem_of_getElem? hmd') hmd).mpr hpattern]⟩
  · rintro ⟨md', hmd', heq⟩
    obtain ⟨rfl, hplace⟩ := Prod.mk.inj heq
    exact ⟨md', hmd', by rw [(place_eq_iff hc hclean (List.mem_of_getElem? hmd') hmd).mp hplace]⟩

/-- At the place of a route, dispatch resolves the method as the reference does, up to the route
    that is never chosen. -/
theorem answer_resolve {md : RouteMetadata} (hmd : md ∈ app.metadata) {set : RouteSet}
    (hset : set.Lists app.entries md.place) (method : Method) (captures : Option CaptureSet) :
    app.answer (.resolve method set captures) =
      answerWithout app.lost app.routes method (patternOf md.segments) := by
  -- a slot holds the registration of its method, unless that has the last identifier
  have hroute : ∀ {m id}, set.route m = some id →
      ((m, patternOf md.segments) ∈ app.routes ∧ (m, patternOf md.segments) ∉ app.lost) ∧
        app.answer (.route id captures) = .route m (patternOf md.segments) := by
    intro m id h
    obtain ⟨hentry, hne⟩ := (hset.route_iff m id).mp h
    refine ⟨⟨(mem_entries_iff hc hclean hmd m).mp (List.mem_of_getElem? hentry), ?_⟩, ?_⟩
    · rw [mem_lost_iff hc hclean hmd]
      intro hlost
      have hlt : id < app.entries.length := (List.getElem?_eq_some_iff.mp hentry).1
      exact hne ((List.getElem?_inj hlt hc.nodup).mp (hentry.trans hlost.symm))
    · obtain ⟨md', hmd', rfl, hplace⟩ := App.metadata_of_entry hentry
      rw [place_eq_iff hc hclean (List.mem_of_getElem? hmd') hmd] at hplace
      simp only [App.answer, hmd', hplace]
  have hnone : ∀ {m}, set.route m = none →
      ¬ ((m, patternOf md.segments) ∈ app.routes ∧ (m, patternOf md.segments) ∉ app.lost) := by
    rintro m h ⟨hmem, hkept⟩
    obtain ⟨id, hid⟩ := List.getElem?_of_mem ((mem_entries_iff hc hclean hmd m).mpr hmem)
    have hne : id ≠ RouteId.none := by
      rintro rfl
      exact hkept ((mem_lost_iff hc hclean hmd m).mpr hid)
    rw [(hset.route_iff m id).mpr ⟨hid, hne⟩] at h
    cases h
  have hallow : set.allowedMethods = allow app.routes (patternOf md.segments) :=
    allowedMethods_eq fun m => by rw [hset.allows_iff, mem_entries_iff hc hclean hmd]
  unfold Outcome.resolve resolveRouteSet routeIndex answerWithout
  cases hr : set.route method with
  | some id => simp [hroute hr]
  | none =>
    simp only [hnone hr, if_false, Option.none_or]
    -- then the fallbacks, in the order of the source: `HEAD` to `GET`, and the answer to `OPTIONS`
    by_cases hhead : method = .head
    · subst hhead
      cases hg : set.route .get with
      | some id => simp [hroute hg]
      | none => simpa [hallow, App.answer] using hnone hg
    · by_cases hoptions : method = .options
      · simp [hoptions, hallow, App.answer]
      · simp [hhead, hoptions, hallow, App.answer]

/-- Off the static table, the trie holds every pattern that accepts the path. -/
theorem mem_patterns_iff {path : Text} (hpath : Clean path)
    (hmiss : ∀ m, (m, Place.table (normalizeRequestPath path)) ∉ app.entries) {q : Pattern}
    (hacc : Accepts validPercentEncoding q (segments path)) :
    q ∈ app.patterns ↔ q ∈ patternSet app.routes := by
  constructor
  · rintro ⟨m, hmem⟩
    obtain ⟨id, hid⟩ := List.getElem?_of_mem hmem
    obtain ⟨md, hmd, rfl, hplace⟩ := App.metadata_of_entry hid
    refine ⟨md.method, List.mem_map.mpr ⟨md, List.mem_of_getElem? hmd, ?_⟩⟩
    unfold RouteMetadata.place at hplace
    split at hplace
    · cases hplace
    · cases hplace
      rfl
  · rintro ⟨m, hmem⟩
    obtain ⟨md, hmd, heq⟩ := List.mem_map.mp hmem
    rw [Prod.mk.injEq] at heq
    obtain ⟨rfl, rfl⟩ := heq
    have hentry : (md.method, md.place) ∈ app.entries := List.mem_map_of_mem hmd
    by_cases hs : App.isStatic md.segments = true
    · -- a static route that accepts the path is where the table was looked up
      exfalso
      rw [patternOf_of_isStatic (hc.parsed md hmd) hs] at hacc
      have hsegments : segments md.template = segments path := by
        rw [Accepts, List.forall₂_map_left_iff] at hacc
        simpa [Piece.accepts] using hacc
      apply hmiss md.method
      rw [normalizeRequestPath_eq_canon hpath, ← hsegments, ← template_eq_canon hc hclean hmd]
      simpa [RouteMetadata.place, hs] using hentry
    · exact ⟨md.method, by simpa [RouteMetadata.place, hs] using hentry⟩

/-- Dispatch answers as the reference does, without the route that has the last identifier. -/
theorem answer_dispatch (method : Method) {path : Text} (hpath : Clean path) :
    app.answer (app.freeze.dispatch method path) =
      referenceWithout app.lost app.routes method (segments path) := by
  rcases dispatch_cases hc path with
    ⟨set, hset, ⟨m, hmem⟩, heq⟩ | ⟨hmiss, p, hp, hset, heq⟩ | ⟨hmiss, hnone, heq⟩
  · -- a static place: its pattern has no wildcard, so it is preferred
    obtain ⟨id, hid⟩ := List.getElem?_of_mem hmem
    obtain ⟨md, hmd, -, hplace⟩ := App.metadata_of_entry hid
    have hmd := List.mem_of_getElem? hmd
    have hacc := accepts_of_place hc hmd (.inl hplace)
    have hstatic : App.isStatic md.segments = true := by
      by_contra hs
      simp [RouteMetadata.place, hs] at hplace
    have hchoose : choose app.routes (segments path) = some (patternOf md.segments) :=
      choose_eq_some_iff.mpr
        { mem := ⟨md.method, List.mem_map_of_mem hmd⟩
          accepts := hacc
          first := fun q _ hq => precedes_of_literals (isStatic_iff.mp hstatic) hacc hq }
    rw [heq, referenceWithout, hchoose]
    exact answer_resolve hc hclean hmd (hplace ▸ hset) method none
  · -- a pattern of the trie, which search prefers among those that accept
    obtain ⟨m, hmem⟩ := hp.mem
    obtain ⟨id, hid⟩ := List.getElem?_of_mem hmem
    obtain ⟨md, hmd, -, hplace⟩ := App.metadata_of_entry hid
    have hmd := List.mem_of_getElem? hmd
    have hpattern : patternOf md.segments = p := by
      unfold RouteMetadata.place at hplace
      split at hplace
      · cases hplace
      · cases hplace
        rfl
    have hchoose : choose app.routes (segments path) = some p :=
      choose_eq_some_iff.mpr
        (hp.congr fun q hq => mem_patterns_iff hc hclean hpath hmiss hq)
    rw [heq, referenceWithout, hchoose, ← hpattern]
    exact answer_resolve hc hclean hmd (by rw [hplace, hpattern]; exact hset) method _
  · -- no pattern accepts, so none is chosen
    have hchoose : choose app.routes (segments path) = none :=
      choose_eq_none_iff.mpr fun q hq hacc =>
        hnone q ((mem_patterns_iff hc hclean hpath hmiss hacc).mpr hq) hacc
    rw [heq, referenceWithout, hchoose]
    rfl

end Clean

end OasRs
