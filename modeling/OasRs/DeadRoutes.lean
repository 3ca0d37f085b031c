import OasRs.RouteLimit

/-!
# Dead Routes

Whether a registered route can be reached: a request for its own template, with a fresh
segment in place of every capture, should select it. What `build` accepts and no request
selects is a generated page whose path does not start with a slash, a template with bytes
that no path holds or too many of them, and the route with the last identifier.

## Main results

- `segments_fillTemplate`: the segments of a template whose captures are replaced
- `reachable_index_iff`: which routes can be reached
- `reachable_iff`: when all of them can be reached
-/

namespace OasRs

open Lib Lib.Preference

variable {H M : Type}

/-! ## The path of a template -/

/-- A part of a template, with a text in place of a capture. -/
def fillPart (filler part : Text) : Text := if isBraced part then filler else part

/-- A template with a text in place of its captures. -/
def fillTemplate (filler template : Text) : Text :=
  [slash].intercalate ((template.splitOn slash).map (fillPart filler))

example : fillTemplate (str "7") (str "/users/{id}/notes") = str "/users/7/notes" := by decide

section Fill

variable {filler template : Text}

theorem fillPart_isEmpty (hfiller : Tokens.IsToken slash filler) (part : Text) :
    (fillPart filler part).isEmpty = part.isEmpty := by
  rw [fillPart]
  split
  · rename_i hbraced
    cases part with
    | nil => cases hbraced
    | cons byte rest => simp [hfiller.1]
  · rfl

theorem slash_notMem_fillPart (hfiller : Tokens.IsToken slash filler) {part : Text}
    (hpart : slash ∉ part) : slash ∉ fillPart filler part := by
  rw [fillPart]
  split
  · exact hfiller.2
  · exact hpart

/-- The segments of a filled template are the filled segments. -/
theorem segments_fillTemplate (hfiller : Tokens.IsToken slash filler) (template : Text) :
    segments (fillTemplate filler template) = (segments template).map (fillPart filler) := by
  have hsplit : (fillTemplate filler template).splitOn slash =
      (template.splitOn slash).map (fillPart filler) := by
    rw [fillTemplate, List.splitOn_intercalate]
    · intro part hpart
      obtain ⟨part, hmem, rfl⟩ := List.mem_map.mp hpart
      exact slash_notMem_fillPart hfiller (Tokens.sep_notMem_of_mem_splitOn hmem)
    · simp
  rw [segments, Tokens.tokens, hsplit, List.filter_map, segments, Tokens.tokens]
  congr 2
  funext part
  simp [fillPart_isEmpty hfiller]

/-- The filled segments are those of the pattern. -/
theorem map_fillPart {templateSegments : List Segment}
    (hparsed : parseTemplate template = .ok templateSegments) :
    (segments template).map (fillPart filler) = filled filler (patternOf templateSegments) := by
  rw [parseTemplate, splitPath_eq, mapM_eq_ok] at hparsed
  generalize segments template = parts at hparsed ⊢
  induction hparsed with
  | nil => rfl
  | @cons part segment parts templateSegments hparse _ ih =>
    have hpart : [fillPart filler part] = filled filler [segment.piece] := by
      rw [parseSegment] at hparse
      rw [fillPart]
      split
      · rename_i hbraced
        rw [if_pos hbraced] at hparse
        simp only [bind_eq_ok, pure_eq_ok] at hparse
        obtain ⟨_, -, rfl⟩ := hparse
        rfl
      · rename_i hbraced
        rw [if_neg hbraced] at hparse
        simp only [bind_eq_ok, pure_eq_ok] at hparse
        obtain ⟨_, -, rfl⟩ := hparse
        rfl
    rw [List.map_cons, ih, ← List.singleton_append, hpart]
    rfl

/-- A template without captures is its own path. -/
theorem fillTemplate_of_isStatic {templateSegments : List Segment}
    (hparsed : parseTemplate template = .ok templateSegments)
    (hstatic : App.isStatic templateSegments = true) : fillTemplate filler template = template := by
  have hplain : ∀ part ∈ segments template, isBraced part = false := by
    rw [parseTemplate, splitPath_eq, mapM_eq_ok] at hparsed
    generalize segments template = parts at hparsed
    induction hparsed with
    | nil =>
      intro part hpart
      cases hpart
    | @cons part segment parts templateSegments hparse _ ih =>
      intro other hother
      rcases List.mem_cons.mp hother with rfl | hother
      · -- a braced part would have been parsed as a capture
        by_contra hbraced
        rw [parseSegment, if_pos (by simpa using hbraced)] at hparse
        simp only [bind_eq_ok, pure_eq_ok] at hparse
        obtain ⟨_, -, rfl⟩ := hparse
        cases hstatic
      · exact ih (Bool.and_eq_true_iff.mp hstatic).2 other hother
  have hsame : (template.splitOn slash).map (fillPart filler) = template.splitOn slash := by
    nth_rewrite 2 [← List.map_id (template.splitOn slash)]
    apply List.map_congr_left
    intro part hpart
    rw [fillPart, if_neg]
    · rfl
    by_cases hempty : part = []
    · simp [hempty, isBraced]
    · have hmem : part ∈ segments template := by
        rw [segments, Tokens.tokens, List.mem_filter]
        exact ⟨hpart, by simpa using hempty⟩
      simp [hplain part hmem]
  rw [fillTemplate, hsame, List.intercalate_splitOn]

/-- A filled template starts with a slash if the template does. -/
theorem head?_fillTemplate (h : template.head? = some slash) :
    (fillTemplate filler template).head? = some slash := by
  cases template with
  | nil => cases h
  | cons byte rest =>
    obtain rfl : byte = slash := Option.some.inj h
    have hsplit : (slash :: rest).splitOn slash = [] :: rest.splitOn slash := by
      simpa using List.splitOn_append_cons_self (a := slash) [] rest
    obtain ⟨first, others, hrest⟩ := List.exists_cons_of_ne_nil (List.splitOn_ne_nil slash rest)
    rw [fillTemplate, hsplit, hrest, List.map_cons, List.map_cons, List.intercalate_cons_cons]
    rfl

/-- What a trimmed path begins with, if anything is left of it. -/
theorem head?_trimEnd {path : Text} (hne : trimEnd path ≠ []) :
    (trimEnd path).head? = path.head? := by
  obtain ⟨suffix, hsuffix⟩ : trimEnd path <+: path := List.rdropWhile_prefix _ path
  conv_rhs => rw [← hsuffix, List.head?_append_of_ne_nil _ hne]

/-- Trimming keeps a first byte that is no slash. -/
theorem head?_trimEnd_cons {byte : UInt8} (h : byte ≠ slash) (rest : Text) :
    (trimEnd (byte :: rest)).head? = some byte := by
  have hne : trimEnd (byte :: rest) ≠ [] := by
    intro hnil
    have hall := List.rdropWhile_eq_nil_iff.mp hnil byte List.mem_cons_self
    exact h (by simpa using hall)
  exact head?_trimEnd hne

/-- A filled template starts with another byte if the template does. -/
theorem head?_trimEnd_fillTemplate (hfiller : Tokens.IsToken slash filler) (hne : template ≠ [])
    (h : template.head? ≠ some slash) :
    ∃ byte ≠ slash, (trimEnd (fillTemplate filler template)).head? = some byte := by
  obtain ⟨byte, rest, rfl⟩ := List.exists_cons_of_ne_nil hne
  have hbyte : byte ≠ slash := fun heq => h (congrArg some heq)
  obtain ⟨first, others, hrest⟩ := List.exists_cons_of_ne_nil (List.splitOn_ne_nil slash rest)
  have hsplit : (byte :: rest).splitOn slash = (byte :: first) :: others := by
    rw [List.splitOn_cons_eq_if_modifyHead, if_neg (by simpa using hbyte), hrest,
      List.modifyHead_cons]
  have hpiece : slash ∉ byte :: first :=
    Tokens.sep_notMem_of_mem_splitOn (hsplit ▸ List.mem_cons_self)
  -- the first piece is not empty, and neither is what takes its place
  have hempty := fillPart_isEmpty hfiller (byte :: first)
  have hnotMem := slash_notMem_fillPart hfiller hpiece
  cases hfill : fillPart filler (byte :: first) with
  | nil => simp [hfill] at hempty
  | cons c tail =>
    have hc : c ≠ slash := by
      intro heq
      apply hnotMem
      rw [hfill, heq]
      exact List.mem_cons_self
    refine ⟨c, hc, ?_⟩
    rw [fillTemplate, hsplit, List.map_cons, hfill]
    cases others.map (fillPart filler) with
    | nil => exact head?_trimEnd_cons hc _
    | cons other others =>
      rw [List.intercalate_cons_cons]
      exact head?_trimEnd_cons hc _

end Fill

/-! ## Reaching a route -/

/-- A segment in place of a capture: without a percent sign, and no static segment of the
    application. -/
def App.IsFiller (app : App H M) (filler : Text) : Prop :=
  Tokens.IsToken slash filler ∧ percent ∉ filler ∧
    ∀ other ∈ app.metadata, Piece.literal filler ∉ patternOf other.segments

/-- The route at an index answers a request for its own template, with a segment in place of
    each capture, and without regard to slashes at the end, which are dropped from templates and
    requests. -/
def App.Reachable (legal : UInt8 → Bool) (app : App H M) (index : ℕ) : Prop :=
  ∃ md filler captures, ∃ path : RequestPath legal, app.metadata[index]? = some md ∧
    app.IsFiller filler ∧ trimEnd path.text = trimEnd (fillTemplate filler md.template) ∧
    app.freeze.dispatch md.method path.text = .route index captures

/-- A template that a request can spell: with a slash at its beginning, or the empty one, which
    a path of slashes is normalized to. -/
def Absolute (template : Text) : Prop := template = [] ∨ template.head? = some slash

instance (template : Text) : Decidable (Absolute template) := inferInstanceAs (Decidable (_ ∨ _))

/-- A template that fits in a request path: with some segment in place of its captures, its bytes
    are accepted in one, and so is their number. -/
def App.Fits (legal : UInt8 → Bool) (app : App H M) (template : Text) : Prop :=
  ∃ filler, app.IsFiller filler ∧ (∀ b ∈ slash :: fillTemplate filler template, legal b = true) ∧
    (trimEnd (fillTemplate filler template)).length ≤ maxPathLength

section Reach

variable {app : App H M} {index : ℕ} {md : RouteMetadata}

/-- The route of an entry is chosen at its place, unless it has the last identifier. -/
theorem resolve_of_entry {set : RouteSet} {place : Place} (hset : set.Lists app.entries place)
    (hentry : app.entries[index]? = some (md.method, place)) (hindex : index ≠ RouteId.none)
    (captures : Option CaptureSet) :
    Outcome.resolve md.method set captures = .route index captures := by
  have hroute : set.route md.method = some index := (hset.route_iff _ _).mpr ⟨hentry, hindex⟩
  simp [Outcome.resolve, resolveRouteSet, routeIndex, hroute]

theorem entry_of_metadata (hmd : app.metadata[index]? = some md) :
    app.entries[index]? = some (md.method, md.place) := by
  rw [App.entries, List.getElem?_map, hmd, Option.map_some]

/-- A static route answers a request for its template. -/
theorem dispatch_static (hc : app.Consistent) (hmd : app.metadata[index]? = some md)
    (hindex : index ≠ RouteId.none) (hstatic : App.isStatic md.segments = true) {path : Text}
    (hpath : normalizeRequestPath path = md.template) :
    app.freeze.dispatch md.method path = .route index none := by
  have hplace : md.place = .table (normalizeRequestPath path) := by
    rw [hpath]
    exact if_pos hstatic
  have hentry : app.entries[index]? = some (md.method, .table (normalizeRequestPath path)) :=
    hplace ▸ entry_of_metadata hmd
  rcases dispatch_cases hc path with ⟨set, hset, -, heq⟩ | ⟨hmiss, -⟩ | ⟨hmiss, -⟩
  · rw [heq]
    exact resolve_of_entry hset hentry hindex none
  · exact absurd (List.mem_of_getElem? hentry) (hmiss _)
  · exact absurd (List.mem_of_getElem? hentry) (hmiss _)

/-- A route with captures answers a request for its template, filled with a segment that no
    template has. -/
theorem dispatch_dynamic (hc : app.Consistent) (hmd : app.metadata[index]? = some md)
    (hindex : index ≠ RouteId.none) (hstatic : App.isStatic md.segments = false) {filler path : Text}
    (hvalid : validPercentEncoding filler = true)
    (hfresh : ∀ other ∈ app.metadata, Piece.literal filler ∉ patternOf other.segments)
    (hpath : segments path = filled filler (patternOf md.segments)) :
    app.freeze.dispatch md.method path = .route index
      (some (DynamicRouteTrie.capturesOf (patternOf md.segments)
        (partsOf (normalizeRequestPath path)))) := by
  have hplace : md.place = .trie (patternOf md.segments) := if_neg (by simp [hstatic])
  have hentry : app.entries[index]? = some (md.method, .trie (patternOf md.segments)) :=
    hplace ▸ entry_of_metadata hmd
  -- no static template has the filler
  have hmiss : ∀ m, (m, Place.table (normalizeRequestPath path)) ∉ app.entries := by
    intro m hmem
    obtain ⟨id, hid⟩ := List.getElem?_of_mem hmem
    obtain ⟨other, hother, -, hplace'⟩ := App.metadata_of_entry hid
    have hmem' := List.mem_of_getElem? hother
    rw [RouteMetadata.place] at hplace'
    split at hplace'
    · rename_i hstatic'
      have hpattern := patternOf_of_isStatic (hc.parsed other hmem') hstatic'
      rw [Place.table.injEq] at hplace'
      rw [hplace', segments_normalizeRequestPath, hpath] at hpattern
      apply hfresh other hmem'
      rw [hpattern, List.mem_map]
      refine ⟨filler, ?_, rfl⟩
      have hwild : Piece.wild ∈ patternOf md.segments := by
        by_contra hnone
        rw [isStatic_iff.mpr hnone] at hstatic
        cases hstatic
      exact List.mem_map.mpr ⟨_, hwild, rfl⟩
    · cases hplace'
  have hpatterns : ∀ q ∈ app.patterns, Piece.literal filler ∉ q := by
    intro q hq
    obtain ⟨m, hmem⟩ := hq
    obtain ⟨id, hid⟩ := List.getElem?_of_mem hmem
    obtain ⟨other, hother, -, hplace'⟩ := App.metadata_of_entry hid
    rw [RouteMetadata.place] at hplace'
    split at hplace'
    · cases hplace'
    · cases hplace'
      exact hfresh other (List.mem_of_getElem? hother)
  have hmem : patternOf md.segments ∈ app.patterns := ⟨md.method, List.mem_of_getElem? hentry⟩
  have hpreferred := isPreferred_filled hvalid hpatterns hmem
  rcases dispatch_cases hc path with ⟨-, -, ⟨m, hm⟩, -⟩ | ⟨-, q, hq, hset, heq⟩ | ⟨-, hnone, -⟩
  · exact absurd hm (hmiss m)
  · -- the pattern that was chosen is the one that wins on its own path
    rw [hpath] at hq
    obtain rfl := hq.unique hpreferred
    rw [heq]
    exact resolve_of_entry hset hentry hindex _
  · rw [hpath] at hnone
    exact absurd hpreferred.accepts (hnone _ hmem)

/-- Each application has a segment that can take the place of a capture. -/
theorem App.exists_isFiller (app : App H M) : ∃ filler, app.IsFiller filler := by
  obtain ⟨n, hfresh⟩ := exists_filler [] (app.metadata.map fun md => patternOf md.segments)
  refine ⟨letters (n + 1), isToken_letters n, ?_, fun other hother =>
    hfresh _ (List.mem_map_of_mem hother)⟩
  intro hpercent
  have := List.eq_of_mem_replicate hpercent
  revert this
  decide

/-- Slashes at the end are all that is trimmed. -/
theorem mem_trimEnd_or {path : Text} {b : UInt8} (h : b ∈ path) : b ∈ trimEnd path ∨ b = slash := by
  have happend : trimEnd path ++ path.rtakeWhile (· == slash) = path :=
    List.rdropWhile_append_rtakeWhile
  rw [← happend, List.mem_append] at h
  exact h.imp_right fun hmem => by simpa using List.mem_rtakeWhile_imp hmem

/-- **Which routes can be reached**: all but the one with the last identifier, and those whose
template does not start with a slash or does not fit in a path. -/
theorem reachable_index_iff (legal : UInt8 → Bool) (hc : app.Consistent)
    (hmd : app.metadata[index]? = some md) :
    app.Reachable legal index ↔
      index ≠ RouteId.none ∧ Absolute md.template ∧ app.Fits legal md.template := by
  have hmem := List.mem_of_getElem? hmd
  constructor
  · rintro ⟨md', filler, captures, path, hmd', hfiller, hpath, hdispatch⟩
    obtain rfl : md = md' := Option.some.inj (hmd.symm.trans hmd')
    have hbegin : trimEnd (fillTemplate filler md.template) <+: path.text :=
      hpath ▸ List.rdropWhile_prefix _ path.text
    refine ⟨(dispatch_sound hc hdispatch).1, ?_, filler, hfiller, ?_,
      hbegin.length_le.trans path.length_le⟩
    · by_contra hnot
      rw [Absolute, not_or] at hnot
      obtain ⟨byte, hbyte, hfirst⟩ := head?_trimEnd_fillTemplate hfiller.1 hnot.1 hnot.2
      have hne : trimEnd (fillTemplate filler md.template) ≠ [] := by
        intro hnil
        rw [hnil] at hfirst
        cases hfirst
      -- what is left of a path that starts with a slash starts with one
      rw [← hpath] at hfirst hne
      rw [head?_trimEnd hne, path.isRequestPath.1] at hfirst
      exact hbyte (Option.some.inj hfirst).symm
    · have hslash : legal slash = true :=
        path.isRequestPath.2 slash (List.mem_of_head? path.isRequestPath.1)
      intro b hb
      rcases List.mem_cons.mp hb with rfl | hb
      · exact hslash
      -- a byte that is not in the path is one of the slashes at the end
      · rcases mem_trimEnd_or hb with hb | rfl
        · exact path.isRequestPath.2 b (hbegin.subset hb)
        · exact hslash
  · rintro ⟨hindex, habsolute, filler, hfiller, hlegal, hlength⟩
    have hslash : legal slash = true := hlegal slash List.mem_cons_self
    have hparsed := hc.parsed md hmem
    cases hstatic : App.isStatic md.segments with
    | true =>
      have hfill : fillTemplate filler md.template = md.template :=
        fillTemplate_of_isStatic hparsed hstatic
      rw [hfill] at hlegal hlength
      rcases habsolute with hempty | hhead
      · -- the empty template answers `//`
        have hpath : IsRequestPath legal [slash, slash] := ⟨rfl, by simp [hslash]⟩
        refine ⟨md, filler, none, ⟨_, hpath, by decide⟩, hmd, hfiller, ?_,
          dispatch_static hc hmd hindex hstatic ?_⟩
        · rw [hfill, hempty]
          rfl
        · rw [hempty]
          rfl
      · have hnormalized := hc.normalized md hmem
        have hlength : md.template.length ≤ maxPathLength := by
          by_cases hlong : 1 < md.template.length
          · rw [normalizeRequestPath, if_pos hlong] at hnormalized
            rwa [hnormalized] at hlength
          · exact (Nat.le_of_not_lt hlong).trans (by decide)
        exact ⟨md, filler, none,
          ⟨md.template, ⟨hhead, fun b hb => hlegal b (List.mem_cons_of_mem _ hb)⟩, hlength⟩, hmd,
          hfiller, by rw [hfill], dispatch_static hc hmd hindex hstatic hnormalized⟩
    | false =>
      have hsegments := (segments_fillTemplate hfiller.1 md.template).trans (map_fillPart hparsed)
      have hne : trimEnd (fillTemplate filler md.template) ≠ [] := by
        intro hempty
        rw [segments, ← tokens_trimEnd, hempty] at hsegments
        -- without segments there is no capture
        have hpattern : patternOf md.segments = [] := List.map_eq_nil_iff.mp hsegments.symm
        rw [isStatic_iff.mpr (by rw [hpattern]; exact List.not_mem_nil)] at hstatic
        cases hstatic
      have hhead : (trimEnd (fillTemplate filler md.template)).head? = some slash := by
        rw [head?_trimEnd hne]
        refine head?_fillTemplate (habsolute.resolve_left ?_)
        intro hempty
        rw [hempty] at hne
        exact hne rfl
      have hbytes : ∀ b ∈ trimEnd (fillTemplate filler md.template), legal b = true := fun b hb =>
        hlegal b (List.mem_cons_of_mem _ ((List.rdropWhile_prefix _ _).subset hb))
      have hvalid : validPercentEncoding filler = true :=
        (validPercentEncoding_iff _).mpr ⟨_, unescape_of_not_mem hfiller.2.1⟩
      exact ⟨md, filler, _, ⟨_, ⟨hhead, hbytes⟩, hlength⟩, hmd, hfiller,
        List.rdropWhile_idempotent _ _, dispatch_dynamic hc hmd hindex hstatic hvalid hfiller.2.2
          ((tokens_trimEnd _).trans hsegments)⟩

end Reach

/-! ## Templates -/

theorem absolute_normalizePath {path : Text} (h : path.head? = some slash) :
    Absolute (normalizePath path) := by
  cases path with
  | nil => cases h
  | cons byte rest =>
    rw [normalizePath, if_neg (by simp)]
    split
    · -- trimming leaves nothing, or the first byte
      by_cases hempty : trimEnd (byte :: rest) = []
      · exact .inl hempty
      · exact .inr ((head?_trimEnd hempty).trans h)
    · exact .inr h

/-- The templates of an application. -/
def App.templates (app : App H M) : List Text := app.metadata.map RouteMetadata.template

section Templates

variable {app app' : App H M}

theorem App.templates_push {md : RouteMetadata} {plan : RoutePlan H}
    (h : app.push md plan = .ok app') :
    app'.templates = app.templates ++ [md.template] ∧ app'.configs = app.configs := by
  obtain ⟨_, _, rfl, -⟩ := App.push_ok h
  exact ⟨by simp [App.templates], rfl⟩

/-- A call keeps templates absolute: registration asserts it. -/
theorem Call.Effect.absolute {group : Option Text} {c : Call H M} (h : c.Effect group app app')
    (habsolute : ∀ template ∈ app.templates, Absolute template) :
    ∀ template ∈ app'.templates, Absolute template := by
  cases h with
  | registers _ method path _ h =>
    cases h with
    | drops error => exact habsolute
    | pushes md plan pushed hpush _ _ htemplate hpath =>
      intro template hmem
      have hmem : template ∈ pushed.templates := hmem
      rw [(App.templates_push hpush).1, List.mem_append, List.mem_singleton] at hmem
      rcases hmem with hold | rfl
      · exact habsolute template hold
      · rw [htemplate]
        exact absolute_normalizePath hpath
  | layers entry origin => exact habsolute
  | neutral _ _ _ _ hmetadata =>
    rw [App.templates, hmetadata]
    exact habsolute

theorem Program.absolute {group : Option Text} {p : Program H M} (hc : app.Consistent)
    (habsolute : ∀ template ∈ app.templates, Absolute template) (h : p.run group app = .ok app') :
    ∀ template ∈ app'.templates, Absolute template := by
  induction p generalizing group app app' with
  | done =>
    cases h
    exact habsolute
  | call c rest ih =>
    simp only [Program.run, bind_eq_ok] at h
    obtain ⟨app₁, hcall, hrest⟩ := h
    have heffect := Call.effect_of_run hc hcall
    exact ih (heffect.consistent hc) (heffect.absolute habsolute) hrest
  | group path body rest ihbody ihrest =>
    simp only [Program.run, bind_eq_ok] at h
    obtain ⟨app₁, hbody, hrest⟩ := h
    exact ihrest (Program.consistent hc hbody) (ihbody hc habsolute hbody) hrest

/-- A page is a route with the path of its configuration. -/
theorem App.templates_installPage {config : Option Text} {page : H}
    (h : app.installPage config page = .ok app') :
    app'.templates = app.templates ++ config.toList ∧ app'.configs = app.configs ∧
      app'.swaggerConfig = app.swaggerConfig := by
  cases config with
  | none =>
    cases h
    simp
  | some path =>
    simp only [App.installPage, App.addGeneratedStaticRoute, bind_eq_ok, orStop_eq_ok] at h
    obtain ⟨segments, -, h⟩ := h
    split at h
    · cases h
    · split at h
      · cases h
      · rw [orStop_eq_ok] at h
        obtain ⟨htemplates, hconfigs⟩ := App.templates_push h
        obtain ⟨_, _, rfl, -⟩ := App.push_ok h
        exact ⟨htemplates, hconfigs, rfl⟩

/-- The templates of a built application are absolute, up to those of the pages. -/
theorem Program.templates_build {p : Program H M} {validation : Option BuildError}
    {document page : H} {built : App H M} (h : p.build validation document page = .ok built) :
    ∃ registered, (∀ template ∈ registered, Absolute template) ∧
      built.templates = registered ++ built.configs := by
  obtain ⟨app, hrun, hinstall⟩ := Program.build_ok h
  refine ⟨app.templates, Program.absolute App.consistent_new (by simp [App.templates, App.new]) hrun,
    ?_⟩
  rw [App.install] at hinstall
  split at hinstall
  · cases hinstall
  · simp only [bind_eq_ok] at hinstall
    obtain ⟨app₁, hdocument, hpage⟩ := hinstall
    obtain ⟨htemplates, hconfigs, hswagger⟩ := App.templates_installPage hdocument
    obtain ⟨htemplates', hconfigs', -⟩ := App.templates_installPage hpage
    rw [htemplates', htemplates, hconfigs', hconfigs, hswagger, App.configs, List.append_assoc]

end Templates

/-! ## All routes -/

/-- **No route is dead, exactly when** no page has a path without a slash at its beginning, every
template fits in a request path, and the last route identifier is not in use. -/
theorem reachable_iff (legal : UInt8 → Bool) {p : Program H M} {validation : Option BuildError}
    {document page : H} {built : App H M}
    (hbuild : p.build validation document page = .ok built) :
    (∀ index < built.metadata.length, built.Reachable legal index) ↔
      (∀ path ∈ built.configs, Absolute path) ∧
      (∀ template ∈ built.templates, built.Fits legal template) ∧
      built.metadata.length ≤ u32Max := by
  have hc := Program.consistent_build hbuild
  obtain ⟨registered, habsolute, htemplates⟩ := Program.templates_build hbuild
  constructor
  · intro hreach
    have hroute : ∀ template ∈ built.templates, Absolute template ∧ built.Fits legal template := by
      intro template hmem
      obtain ⟨md, hmd, rfl⟩ := List.mem_map.mp hmem
      obtain ⟨index, hindex⟩ := List.getElem?_of_mem hmd
      have hlt := (List.getElem?_eq_some_iff.mp hindex).1
      exact ((reachable_index_iff legal hc hindex).mp (hreach index hlt)).2
    refine ⟨fun path hpath => (hroute path ?_).1, fun template hmem => (hroute template hmem).2, ?_⟩
    · exact htemplates ▸ List.mem_append_right _ hpath
    -- with that many routes, one has the identifier that stands for none
    · by_contra hmany
      have hlt : RouteId.none < built.metadata.length := Nat.lt_of_not_le hmany
      have hindex := List.getElem?_eq_getElem hlt
      exact ((reachable_index_iff legal hc hindex).mp (hreach _ hlt)).1 rfl
  · rintro ⟨hconfigs, hfits, hmany⟩ index hlt
    have hindex := List.getElem?_eq_getElem hlt
    have hmem : built.metadata[index].template ∈ built.templates :=
      List.mem_map_of_mem (List.getElem_mem hlt)
    apply (reachable_index_iff legal hc hindex).mpr
    refine ⟨Nat.ne_of_lt (Nat.lt_of_lt_of_le hlt hmany), ?_, hfits _ hmem⟩
    -- templates of registrations begin with a slash, those of pages by assumption
    rw [htemplates, List.mem_append] at hmem
    exact hmem.elim (habsolute _) (hconfigs _)

/-- An application with a document and a page. -/
def documentedExample : Program Unit Unit :=
  .call (.openapi (some (str "/spec.json"))) (.call (.swagger none) overlappingExample)

def documentedBuilt : App Unit Unit :=
  returned (documentedExample.build none () ()) (by decide +kernel)

theorem documentedBuilt_fits : ∀ template ∈ documentedBuilt.templates,
    documentedBuilt.Fits httpLegal template := by
  have hfiller : documentedBuilt.IsFiller (str "7") := by
    refine ⟨?_, ?_, ?_⟩ <;> decide +kernel
  have hbytes : ∀ template ∈ documentedBuilt.templates,
      (∀ b ∈ slash :: fillTemplate (str "7") template, httpLegal b = true) ∧
        (trimEnd (fillTemplate (str "7") template)).length ≤ maxPathLength := by decide +kernel
  exact fun template hmem => ⟨_, hfiller, hbytes template hmem⟩

theorem reachable_iff_documented : documentedBuilt.Reachable httpLegal 2 :=
  (reachable_iff httpLegal (p := documentedExample) (eq_returned (by decide +kernel))).mpr
    ⟨by decide +kernel, documentedBuilt_fits, by decide +kernel⟩ 2 (by decide +kernel)

/-- A document whose path has no slash at its beginning. -/
def relativeExample : Program Unit Unit := .call (.openapi (some (str "spec.json"))) .done

def relativeBuilt : App Unit Unit :=
  returned (relativeExample.build none () ()) (by decide +kernel)

/-- **The document of `openapi().path("spec.json")` is dead.** -/
theorem not_reachable_relative :
    relativeExample.build none () () = .ok relativeBuilt ∧ 0 < relativeBuilt.metadata.length ∧
      ¬ relativeBuilt.Reachable httpLegal 0 := by
  have hbuild : relativeExample.build none () () = .ok relativeBuilt :=
    eq_returned (by decide +kernel)
  have hlt : 0 < relativeBuilt.metadata.length := by decide +kernel
  have htemplate : (relativeBuilt.metadata[0]?).map (·.template) = some (str "spec.json") := by
    decide +kernel
  refine ⟨hbuild, hlt, ?_⟩
  have hindex := List.getElem?_eq_getElem hlt
  rw [hindex] at htemplate
  have heq : relativeBuilt.metadata[0].template = str "spec.json" := Option.some.inj htemplate
  rw [reachable_index_iff httpLegal (Program.consistent_build hbuild) hindex, heq]
  rintro ⟨-, habsolute, -⟩
  revert habsolute
  decide +kernel

end OasRs
