import OasRs.Captures
import OasRs.Escape

/-!
# Aliases of a Path

Two requests are aliases if the same route serves them with the same decoded captures:
its handler cannot tell them apart. A prefix scope should cover both or neither. It
compares a segment with a literal twice, as it is spelled and decoded, so a literal that
is written with an escape covers the one spelling that looks like it and no other.

## Main results

- `aliasesAgree_of_stable`: literals with one spelling cannot tell aliases apart
- `exists_alias`: any other literal can
- `aliasesAgree_iff`: exactly when a prefix scope covers the aliases of what it covers
-/

namespace OasRs

open Lib Lib.Preference

variable {H M : Type} {legal : UInt8 → Bool}

/-! ## What a handler is told -/

/-- The texts that a route captures, decoded. -/
def RouteMetadata.decoded (md : RouteMetadata) (path : Text) : Except DecodeError (List Text) :=
  (capturedTexts (patternOf md.segments) (OasRs.segments path)).mapM percentDecode

/-- The route that serves a request, with the decoded texts of its captures. -/
def App.served (app : App H M) (method : Method) (path : Text) : Option (RouteId × List Text) :=
  match app.freeze.dispatch method path with
  | .route index _ => app.metadata[index]?.bind fun md =>
      (md.decoded path).toOption.map fun values => (index, values)
  | _ => none

theorem App.served_eq_some {app : App H M} (hc : app.Consistent) {method : Method} {path : Text}
    {index : RouteId} {values : List Text} (h : app.served method path = some (index, values)) :
    ∃ md, app.metadata[index]? = some md ∧ md.decoded path = .ok values ∧
      Accepts validPercentEncoding (patternOf md.segments) (segments path) := by
  unfold App.served at h
  split at h
  · rename_i i captures hdispatch
    obtain ⟨md, hmd, h⟩ := Option.bind_eq_some_iff.mp h
    obtain ⟨values', hvalues, h⟩ := Option.map_eq_some_iff.mp h
    rw [Prod.mk.injEq] at h
    obtain ⟨rfl, rfl⟩ := h
    obtain ⟨-, md', hmd', -, haccepts⟩ := dispatch_sound hc hdispatch
    rw [hmd, Option.some.injEq] at hmd'
    subst hmd'
    refine ⟨md, hmd, ?_, haccepts⟩
    cases hdecoded : md.decoded path with
    | error e => simp [hdecoded, Except.toOption] at hvalues
    | ok decoded =>
      simp only [hdecoded, Except.toOption, Option.some.injEq] at hvalues
      rw [hvalues]
  · cases h

theorem capturedTexts_of_isStatic {templateSegments : List Segment}
    (h : App.isStatic templateSegments = true) (values : List Text) :
    capturedTexts (patternOf templateSegments) values = [] := by
  induction templateSegments generalizing values with
  | nil => rfl
  | cons segment templateSegments ih =>
    cases segment with
    | static value =>
      cases values with
      | nil => rfl
      | cons _ values => exact ih h values
    | capture name => cases h

/-- The ranges that a handler gets are those of its own route's captures. -/
theorem texts_of_dispatch {app : App H M} (hc : app.Consistent) {method : Method}
    {path : RequestPath legal} {index : RouteId} {captures : Option CaptureSet} {md : RouteMetadata}
    (hdispatch : app.freeze.dispatch method path.text = .route index captures)
    (hmd : app.metadata[index]? = some md) :
    (captures.map fun c => c.texts (normalizeRequestPath path.text)).getD [] =
      capturedTexts (patternOf md.segments) (segments path.text) := by
  -- the answer comes from the set of the route that is there
  have hplace : ∀ {place set}, set.Lists app.entries place →
      Outcome.resolve method set captures = .route index captures → md.place = place := by
    intro place set hlists hresolve
    obtain ⟨-, -, m, hentry, -⟩ := resolve_route hlists hresolve
    obtain ⟨md', hmd', -, hplace⟩ := App.metadata_of_entry hentry
    rw [hmd, Option.some.injEq] at hmd'
    rw [hmd', hplace]
  rcases dispatch_cases hc path.text with
    ⟨set, hlists, -, heq⟩ | ⟨-, p, hp, hlists, heq⟩ | ⟨-, -, heq⟩
  · rw [heq] at hdispatch
    obtain ⟨rfl, -⟩ := resolve_route hlists hdispatch
    have hstatic := hplace hlists hdispatch
    unfold RouteMetadata.place at hstatic
    split at hstatic
    · -- a static route captures nothing
      rename_i hs
      rw [capturedTexts_of_isStatic hs]
      rfl
    · cases hstatic
  · rw [heq] at hdispatch
    obtain ⟨rfl, -⟩ := resolve_route hlists hdispatch
    have hdynamic := hplace hlists hdispatch
    unfold RouteMetadata.place at hdynamic
    split at hdynamic
    · cases hdynamic
    · rw [Place.trie.injEq] at hdynamic
      -- a dynamic one captures its wildcards, which all fit
      have hlimit : wilds p ≤ maxCaptureParams := hc.withinLimit p (hc.patterns_eq ▸ hp.mem)
      rw [Option.map_some, Option.getD_some,
        texts_capturesOf (length_normalizeRequestPath path) hlimit, segments_normalizeRequestPath,
        hdynamic]
  · rw [heq] at hdispatch
    cases hdispatch

/-- What serves a request is what the handler sees, decoded. -/
theorem App.served_eq_view {app : App H M} (hc : app.Consistent) (method : Method)
    (path : RequestPath legal) :
    app.served method path.text = match app.freeze.view method path with
      | .route index texts => (texts.mapM percentDecode).toOption.map fun values => (index, values)
      | _ => none := by
  unfold App.served Runtime.view
  cases hdispatch : app.freeze.dispatch method path.text with
  | route index captures =>
    obtain ⟨-, md, hmd, -⟩ := dispatch_sound hc hdispatch
    simp only [Outcome.view, texts_of_dispatch hc hdispatch hmd, hmd, Option.bind_some,
      RouteMetadata.decoded]
  | options allow => rfl
  | methodNotAllowed allow => rfl
  | notFound => rfl

/-! ## Literals with one spelling -/

/-- One segment, or two that decode alike. -/
def SameSegment (value value' : Text) : Prop :=
  value = value' ∨ ∃ d, percentDecode value = .ok d ∧ percentDecode value' = .ok d

theorem SameSegment.symm {value value' : Text} (h : SameSegment value value') :
    SameSegment value' value :=
  h.elim (fun h => .inl h.symm) fun ⟨d, hd, hd'⟩ => .inr ⟨d, hd', hd⟩

/-- Paths of one pattern with the same decoded captures have the same segments. -/
theorem sameSegments {p : Pattern} {words words' decoded : List Text}
    (h : Accepts validPercentEncoding p words) (h' : Accepts validPercentEncoding p words')
    (hdecoded : (capturedTexts p words).mapM percentDecode = .ok decoded)
    (hdecoded' : (capturedTexts p words').mapM percentDecode = .ok decoded) :
    List.Forall₂ SameSegment words words' := by
  induction h generalizing words' decoded with
  | nil =>
    cases h'
    exact .nil
  | @cons piece word p words hpiece _ ih =>
    obtain ⟨word', words', hpiece', hrest', rfl⟩ := List.forall₂_cons_left_iff.mp h'
    cases piece with
    | literal value =>
      have hword : value = word := by simpa [Piece.accepts] using hpiece
      have hword' : value = word' := by simpa [Piece.accepts] using hpiece'
      exact .cons (.inl (hword.symm.trans hword')) (ih hrest' hdecoded hdecoded')
    | wild =>
      rw [mapM_eq_ok, capturedTexts] at hdecoded hdecoded'
      cases hdecoded with
      | cons hd hrest =>
        cases hdecoded' with
        | cons hd' hrest'' =>
          exact .cons (.inr ⟨_, hd, hd'⟩) (ih hrest' (mapM_eq_ok.mpr hrest) (mapM_eq_ok.mpr hrest''))

/-- A literal that covers a segment covers its other spellings. -/
theorem covers_of_sameSegment {scope : ScopeSegment} {value value' : Text}
    (hstable : ∀ l, scope = .literal l → Stable legal l) (hlegal : ∀ b ∈ value, legal b = true)
    (hlegal' : ∀ b ∈ value', legal b = true) (hslash' : slash ∉ value')
    (hsame : SameSegment value value') (h : scope.covers value = true) :
    scope.covers value' = true := by
  cases scope with
  | any => rfl
  | literal l =>
    rcases hsame with rfl | ⟨d, hd, hd'⟩
    · exact h
    · rw [covers_literal_iff hd] at h
      rw [covers_literal_iff hd']
      rcases h with h | ⟨rfl, hpercent⟩
      · exact .inl h
      · rcases hstable _ rfl with hnone | ⟨b, hb, hillegal⟩ | hspelling
        · exact absurd hpercent hnone
        · -- the literal itself cannot stand in a path
          rw [hlegal b hb] at hillegal
          cases hillegal
        · obtain ⟨hupper, hlower, hplain⟩ := hspelling d hd
          have := spelling_unique (percentDecode_eq_ok.mp hd').1 hlegal' hslash' hplain
            (hupper.symm.trans hlower)
          exact .inr ⟨this.trans hupper.symm, hpercent⟩

/-- The segments of a request path. -/
def LegalWord (legal : UInt8 → Bool) (word : Text) : Prop :=
  (∀ b ∈ word, legal b = true) ∧ slash ∉ word

/-- A scope whose literals have one spelling covers what is spelled in another way. -/
theorem segmentsMatch_of_same {scope : List ScopeSegment} {words words' : List Text}
    (hstable : ∀ l, .literal l ∈ scope → Stable legal l)
    (hlegal : ∀ word ∈ words, LegalWord legal word) (hlegal' : ∀ word ∈ words', LegalWord legal word)
    (hsame : List.Forall₂ SameSegment words words') (h : segmentsMatch scope words false = true) :
    segmentsMatch scope words' false = true := by
  induction scope generalizing words words' with
  | nil => rfl
  | cons segment scope ih =>
    cases hsame with
    | nil => cases h
    | @cons word word' words words' hword hrest =>
      rw [segmentsMatch, Bool.and_eq_true] at h ⊢
      constructor
      · exact covers_of_sameSegment (fun l hl => hstable l (hl ▸ List.mem_cons_self))
          (hlegal word List.mem_cons_self).1 (hlegal' word' List.mem_cons_self).1
          (hlegal' word' List.mem_cons_self).2 hword h.1
      · exact ih (fun l hl => hstable l (List.mem_cons_of_mem _ hl))
          (fun w hw => hlegal w (List.mem_cons_of_mem _ hw))
          (fun w hw => hlegal' w (List.mem_cons_of_mem _ hw)) hrest h.2

/-- A scope that is longer than the path does not cover it. -/
theorem segmentsMatch_of_length_lt {scope : List ScopeSegment} {words : List Text}
    (h : words.length < scope.length) : segmentsMatch scope words false = false := by
  induction scope generalizing words with
  | nil => cases h
  | cons segment scope ih =>
    cases words with
    | nil => rfl
    | cons word words => rw [segmentsMatch, ih (Nat.lt_of_succ_lt_succ h), Bool.and_false]

/-! ## Aliases -/

/-- Whatever is registered, the scope covers two requests alike when the same route
    serves them with the same decoded captures. -/
def AliasesAgree (legal : UInt8 → Bool) (scope : Scope) : Prop :=
  ∀ (H M : Type) (p : Program H M) (validation : Option BuildError) (document page : H)
    (built : App H M), p.build validation document page = .ok built →
    ∀ (method method' : Method) (path path' : Text),
      IsRequestPath legal path → IsRequestPath legal path' →
      ∀ served, built.served method path = some served → built.served method' path' = some served →
        scope.matches method path = scope.matches method' path'

/-- The bytes of a segment stand in the path. -/
theorem mem_of_mem_segments {path word : Text} (h : word ∈ segments path) {b : UInt8}
    (hb : b ∈ word) : b ∈ path := by
  rw [← values_partsOf] at h
  obtain ⟨part, hpart, rfl⟩ := List.mem_map.mp h
  rw [← (slice_partsOf hpart).1] at hb
  exact List.mem_of_mem_take (List.mem_of_mem_drop hb)

/-- A pattern that is registered in the trie fits in its arena. -/
theorem App.Consistent.length_le_of_pattern {app : App H M} (hc : app.Consistent) {p : Pattern}
    (hp : p ∈ app.patterns) : p.length ≤ u32Max := by
  rw [← hc.patterns_eq, DynamicRouteTrie.patterns, Set.mem_ofPred_eq] at hp
  cases hwalk : app.dynamicRoutes.walk 0 p with
  | none => simp [DynamicRouteTrie.routesOf, hwalk, RouteSet.isEmpty, RouteSet.empty] at hp
  | some i =>
    have hlt := hc.wellFormed.length_lt hwalk
    have hle := hc.wellFormed.length_le
    omega

/-- Only one sequence of segments fits a template without captures. -/
theorem eq_of_accepts_of_isStatic {templateSegments : List Segment}
    (hstatic : App.isStatic templateSegments = true) {words words' : List Text}
    (h : Accepts validPercentEncoding (patternOf templateSegments) words)
    (h' : Accepts validPercentEncoding (patternOf templateSegments) words') : words = words' := by
  induction templateSegments generalizing words words' with
  | nil =>
    cases h
    cases h'
    rfl
  | cons segment templateSegments ih =>
    cases segment with
    | capture name => cases hstatic
    | static value =>
      obtain ⟨word, words, hword, hrest, rfl⟩ := List.forall₂_cons_left_iff.mp h
      obtain ⟨word', words', hword', hrest', rfl⟩ := List.forall₂_cons_left_iff.mp h'
      have heq : value = word := by simpa [Segment.piece, Piece.accepts] using hword
      have heq' : value = word' := by simpa [Segment.piece, Piece.accepts] using hword'
      rw [ih hstatic hrest hrest', ← heq, heq']

/-- A scope whose literals have one spelling each cannot tell aliases apart, nor can one
    that is too long for any route with captures. -/
theorem aliasesAgree_of_stable {scope : List ScopeSegment}
    (h : u32Max < scope.length ∨ ∀ l, .literal l ∈ scope → Stable legal l) :
    AliasesAgree legal (.pathPrefix scope) := by
  intro H M p validation document page built hbuild method method' path path' hpath hpath' served
    hserved hserved'
  have hc := Program.consistent_build hbuild
  obtain ⟨index, values⟩ := served
  obtain ⟨md, hmd, hdecoded, haccepts⟩ := App.served_eq_some hc hserved
  obtain ⟨md', hmd', hdecoded', haccepts'⟩ := App.served_eq_some hc hserved'
  rw [hmd, Option.some.injEq] at hmd'
  subst hmd'
  simp only [Scope.matches, splitPath_eq]
  by_cases hstatic : App.isStatic md.segments = true
  · rw [eq_of_accepts_of_isStatic hstatic haccepts haccepts']
  rcases h with hlong | hstable
  · -- the route has captures, so it is in the trie and shorter than the scope
    have hmem : patternOf md.segments ∈ built.patterns := by
      refine ⟨md.method, List.mem_map.mpr ⟨md, List.mem_of_getElem? hmd, ?_⟩⟩
      rw [RouteMetadata.place, if_neg hstatic]
    have hshort := hc.length_le_of_pattern hmem
    rw [segmentsMatch_of_length_lt (by rw [← haccepts.length_eq]; omega),
      segmentsMatch_of_length_lt (by rw [← haccepts'.length_eq]; omega)]
  · have hlegal : ∀ {path}, IsRequestPath legal path → ∀ word ∈ segments path,
        LegalWord legal word := fun hpath word hword =>
      ⟨fun b hb => hpath.2 b (mem_of_mem_segments hword hb), (Tokens.isToken_of_mem_tokens hword).2⟩
    have hsame := sameSegments haccepts haccepts' hdecoded hdecoded'
    have hsame' : List.Forall₂ SameSegment (segments path') (segments path) :=
      List.Forall₂.flip (hsame.imp fun _ _ => SameSegment.symm)
    rw [Bool.eq_iff_iff]
    exact ⟨segmentsMatch_of_same hstable (hlegal hpath) (hlegal hpath') hsame,
      segmentsMatch_of_same hstable (hlegal hpath') (hlegal hpath) hsame'⟩

/-! ## Literals with two spellings -/

/-- A program with one route. -/
def soloProgram (template : Text) : Program Unit Unit := .call (.raw .get template ()) .done

/-- A route with a capture is registered, if the trie has room for it. -/
theorem build_soloProgram {template : Text} {templateSegments : List Segment}
    (hhead : template.head? = some slash) (hnormal : normalizePath template = template)
    (hparsed : parseTemplate template = .ok templateSegments)
    (hdynamic : App.isStatic templateSegments = false)
    (hlimit : (App.captureNames templateSegments).length ≤ maxCaptureParams)
    (hroom : templateSegments.length ≤ u32Max) :
    ∃ built, (soloProgram template).build none () () = .ok built ∧
      ∃ md, built.metadata = [md] ∧ md.method = .get ∧ md.segments = templateSegments := by
  -- one route fits, in its set and in the trie
  obtain ⟨set, hset⟩ : ∃ set, RouteSet.empty.insert .get 0 = .ok set := ⟨_, rfl⟩
  obtain ⟨trie, htrie⟩ : ∃ trie, DynamicRouteTrie.empty.insert templateSegments .get 0 = .ok trie := by
    refine DynamicRouteTrie.insertAt_ok [] DynamicRouteTrie.wellFormed_empty rfl ?_
      (by rw [DynamicRouteTrie.routesOf_empty]; exact hset)
    show 1 + templateSegments.length ≤ u32Max + 1
    omega
  let md : RouteMetadata :=
    { builtin := false, method := .get, template, segments := templateSegments, captureNames := none }
  let plan : RoutePlan Unit :=
    { handler := .raw (), bodyLimit := 0, captureMode := .none, bodyMode := .incoming }
  let app : App Unit Unit :=
    { (App.new : App Unit Unit) with
      dynamicRoutes := trie, plans := [plan], metadata := [md], lastRoute := some 0 }
  -- so no check of the registration fails
  have hadd : App.new.addRawRoute .get template () = .ok app := by
    have hpush : App.new.push md plan = .ok { app with lastRoute := none } := by
      have hdynamic : App.isStatic md.segments = false := hdynamic
      have htrie : (App.new : App Unit Unit).dynamicRoutes.insert md.segments md.method
          (App.new : App Unit Unit).plans.length = .ok trie := htrie
      simp only [App.push, App.insertRoute, hdynamic, htrie]
      rfl
    have hwithin : App.new.pushWithinLimit md plan = .ok app := by
      have : App.captureLimitError md.template md.segments = none := by
        simp [App.captureLimitError, md, hlimit]
      simp only [App.pushWithinLimit, this, hpush]
      rfl
    simp only [App.addRawRoute, bind_eq_ok, check_eq_ok, hnormal]
    exact ⟨(), by simp [hhead], (), rfl, templateSegments, hparsed, hwithin⟩
  refine ⟨app, ?_, md, rfl, rfl, rfl⟩
  have hrun : (soloProgram template).run none App.new = .ok app := by
    simp only [soloProgram, Program.run, Call.run, fullPath, hadd]
    rfl
  simp only [Program.build, hrun, App.orStop]
  rfl

/-- The route of a solo program serves what its template accepts. -/
theorem served_of_accepts {app : App H M} (hc : app.Consistent) {md : RouteMetadata}
    (hmetadata : app.metadata = [md]) (hdynamic : App.isStatic md.segments = false) {path : Text}
    (haccepts : Accepts validPercentEncoding (patternOf md.segments) (segments path))
    {values : List Text} (hdecoded : md.decoded path = .ok values) :
    app.served md.method path = some (0, values) := by
  have hentries : app.entries = [(md.method, .trie (patternOf md.segments))] := by
    simp [App.entries, hmetadata, RouteMetadata.place, hdynamic]
  rcases dispatch_cases hc path with
    ⟨_, -, ⟨m, hm⟩, -⟩ | ⟨-, p, hp, hlists, heq⟩ | ⟨-, hnone, -⟩
  · simp [hentries] at hm
  · obtain ⟨m, hm⟩ := hp.mem
    rw [hentries, List.mem_singleton, Prod.mk.injEq, Place.trie.injEq] at hm
    obtain ⟨rfl, rfl⟩ := hm
    have hroute : (app.dynamicRoutes.routesOf (patternOf md.segments)).route md.method = some 0 := by
      rw [hlists.route_iff, hentries]
      exact ⟨rfl, by decide⟩
    have hresolve : ∀ captures, Outcome.resolve md.method
        (app.dynamicRoutes.routesOf (patternOf md.segments)) captures = .route 0 captures := by
      intro captures
      simp [Outcome.resolve, resolveRouteSet, routeIndex, hroute]
    simp [App.served, heq, hresolve, hmetadata, hdecoded, Except.toOption]
  · refine absurd haccepts (hnone _ ⟨md.method, ?_⟩)
    rw [hentries]
    exact List.mem_singleton_self _

/-- A segment that a scope segment covers, spelled with escapes only. -/
def ScopeSegment.word : ScopeSegment → Text
  | .literal l => escape hexUpper l
  | .any => str "0"

/-- The segments of a path that the scope `pre`, `word`, `post` covers. -/
def aliasWords (pre post : List ScopeSegment) (word : Text) : List Text :=
  pre.map ScopeSegment.word ++ word :: post.map ScopeSegment.word

/-- The segments of the route that captures `word`. -/
def aliasSegments (pre post : List ScopeSegment) : List Segment :=
  pre.map (fun s => .static s.word) ++ .capture (str "c") :: post.map fun s => .static s.word

/-- What a literal of a scope is: a segment of a `&str`. -/
structure IsLiteral (l : Text) : Prop where
  ne_nil : l ≠ []
  utf8 : validUtf8 l = true

section Words

variable {scope pre post : List ScopeSegment} {word : Text}

theorem word_bytes (s : ScopeSegment) : ∀ b ∈ s.word, b = percent ∨ (hex b).isSome = true := by
  cases s with
  | any => exact show ∀ b ∈ str "0", b = percent ∨ (hex b).isSome = true by decide +kernel
  | literal l =>
    intro b hb
    obtain ⟨c, -, hc⟩ := List.mem_flatMap.mp hb
    simp only [escapeByte, List.mem_cons, List.not_mem_nil, or_false] at hc
    rcases hc with rfl | rfl | rfl
    · exact .inl rfl
    · exact .inr (by rw [writesHex_upper.high]; rfl)
    · exact .inr (by rw [writesHex_upper.low]; rfl)

theorem not_mem_word {b : UInt8} (hb : b ≠ percent ∧ hex b = none) (s : ScopeSegment) :
    b ∉ s.word := fun h => by
  rcases word_bytes s b h with h | h
  · exact hb.1 h
  · simp [hb.2] at h

theorem word_isToken {s : ScopeSegment} (h : ∀ l, s = .literal l → IsLiteral l) :
    Tokens.IsToken slash s.word := by
  refine ⟨?_, not_mem_word (by decide) s⟩
  cases s with
  | any => decide
  | literal l =>
    intro hnil
    have hlength := length_escape hexUpper l
    rw [show escape hexUpper l = [] from hnil, List.length_nil] at hlength
    exact (h l rfl).ne_nil (List.eq_nil_of_length_eq_zero (by omega))

theorem covers_word {s : ScopeSegment} (h : ∀ l, s = .literal l → IsLiteral l) :
    s.covers s.word = true := by
  cases s with
  | any => rfl
  | literal l =>
    have hdecode : percentDecode (escape hexUpper l) = .ok l :=
      percentDecode_eq_ok.mpr ⟨unescape_escape_self writesHex_upper l, (h l rfl).utf8⟩
    exact (covers_literal_iff hdecode).mpr (.inl rfl)

/-- Whether the scope covers the path is up to the word in the middle. -/
theorem segmentsMatch_aliasWords {l : Text}
    (h : ∀ k, .literal k ∈ pre ++ post → IsLiteral k) (word : Text) :
    segmentsMatch (pre ++ .literal l :: post) (aliasWords pre post word) false =
      (ScopeSegment.literal l).covers word := by
  have hpost : ∀ post : List ScopeSegment, (∀ k, .literal k ∈ post → IsLiteral k) →
      segmentsMatch post (post.map ScopeSegment.word) false = true := by
    intro post hpost
    induction post with
    | nil => rfl
    | cons s post ih =>
      rw [List.map_cons, segmentsMatch, covers_word fun k hk => hpost k (hk ▸ List.mem_cons_self),
        ih fun k hk => hpost k (List.mem_cons_of_mem _ hk)]
      rfl
  induction pre with
  | nil =>
    show segmentsMatch (.literal l :: post) (word :: post.map ScopeSegment.word) false = _
    rw [segmentsMatch, hpost post h, Bool.and_true]
  | cons s pre ih =>
    show segmentsMatch (s :: (pre ++ .literal l :: post)) (s.word :: aliasWords pre post word) false = _
    rw [segmentsMatch, covers_word fun k hk => h k (hk ▸ List.mem_cons_self), Bool.true_and]
    exact ih fun k hk => h k (List.mem_cons_of_mem _ hk)

theorem aliasWords_isToken (h : ∀ k, .literal k ∈ pre ++ post → IsLiteral k)
    (hword : Tokens.IsToken slash word) :
    ∀ w ∈ aliasWords pre post word, Tokens.IsToken slash w := by
  intro w hw
  simp only [aliasWords, List.mem_append, List.mem_cons, List.mem_map] at hw
  rcases hw with ⟨s, hs, rfl⟩ | rfl | ⟨s, hs, rfl⟩
  · exact word_isToken fun k hk => h k (List.mem_append_left _ (hk ▸ hs))
  · exact hword
  · exact word_isToken fun k hk => h k (List.mem_append_right _ (hk ▸ hs))

/-- The route accepts the path, whatever stands in the middle. -/
theorem accepts_aliasWords (hvalid : validPercentEncoding word = true) :
    Accepts validPercentEncoding (patternOf (aliasSegments pre post)) (aliasWords pre post word) := by
  have hpost : ∀ post : List ScopeSegment, Accepts validPercentEncoding
      (patternOf (post.map fun s => .static s.word)) (post.map ScopeSegment.word) := by
    intro post
    induction post with
    | nil => exact accepts_nil
    | cons s post ih => exact accepts_cons.mpr ⟨by simp [Segment.piece, Piece.accepts], ih⟩
  induction pre with
  | nil => exact accepts_cons.mpr ⟨hvalid, hpost post⟩
  | cons s pre ih => exact accepts_cons.mpr ⟨by simp [Segment.piece, Piece.accepts], ih⟩

theorem capturedTexts_aliasWords :
    capturedTexts (patternOf (aliasSegments pre post)) (aliasWords pre post word) = [word] := by
  induction pre with
  | nil =>
    have hstatic : App.isStatic (post.map fun s => Segment.static s.word) = true := by
      simp [App.isStatic]
    exact congrArg (word :: ·) (capturedTexts_of_isStatic hstatic _)
  | cons s pre ih => exact ih

theorem wilds_aliasSegments : wilds (patternOf (aliasSegments pre post)) = 1 := by
  have hstatic : ∀ scope : List ScopeSegment,
      wilds (patternOf (scope.map fun s => .static s.word)) = 0 := fun scope =>
    wilds_of_isStatic (by simp [App.isStatic])
  have hsplit : patternOf (aliasSegments pre post) =
      patternOf (pre.map fun s => .static s.word) ++
        .wild :: patternOf (post.map fun s => .static s.word) := by
    simp [patternOf, aliasSegments, Segment.piece]
  rw [hsplit, wilds, List.count_append, List.count_cons_self]
  have hpre := hstatic pre
  have hpost := hstatic post
  rw [wilds] at hpre hpost
  omega

theorem parseTemplate_aliasWords (h : ∀ k, .literal k ∈ pre ++ post → IsLiteral k) :
    parseTemplate (Tokens.joined slash (aliasWords pre post (str "{c}"))) =
      .ok (aliasSegments pre post) := by
  have hparse : ∀ s : ScopeSegment, parseSegment s.word = .ok (.static s.word) := fun s =>
    parseSegment_of_plain (not_mem_word (by decide) s) (not_mem_word (by decide) s)
  have hmap : ∀ scope : List ScopeSegment, List.Forall₂ (fun part segment =>
      parseSegment part = .ok segment) (scope.map ScopeSegment.word)
      (scope.map fun s => .static s.word) := by
    intro scope
    rw [List.forall₂_map_left_iff, List.forall₂_map_right_iff, List.forall₂_same]
    exact fun s _ => hparse s
  rw [parseTemplate, splitPath_eq, segments_joined (aliasWords_isToken h (by decide +kernel)),
    mapM_eq_ok]
  exact List.rel_append (hmap pre) (.cons (by decide +kernel) (hmap post))

theorem isRequestPath_aliasWords (haccepts : AcceptsEscapes legal)
    (hword : ∀ b ∈ word, legal b = true) :
    IsRequestPath legal (Tokens.joined slash (aliasWords pre post word)) := by
  have hlegal : ∀ s : ScopeSegment, ∀ b ∈ s.word, legal b = true := fun s b hb =>
    (word_bytes s b hb).elim (fun h => h ▸ haccepts.1) (haccepts.2.2 b)
  constructor
  · cases pre <;> rfl
  · intro b hb
    obtain ⟨w, hw, hbw⟩ := List.mem_flatMap.mp hb
    rcases List.mem_cons.mp hbw with rfl | hbw
    · exact haccepts.2.1
    · simp only [aliasWords, List.mem_append, List.mem_cons, List.mem_map] at hw
      rcases hw with ⟨s, -, rfl⟩ | rfl | ⟨s, -, rfl⟩
      · exact hlegal s b hbw
      · exact hword b hbw
      · exact hlegal s b hbw

end Words

/-- A literal with two spellings tells aliases apart. -/
theorem exists_alias (haccepts : AcceptsEscapes legal) {pre post : List ScopeSegment} {l : Text}
    (hliteral : ∀ k, .literal k ∈ pre ++ .literal l :: post → IsLiteral k)
    (hslash : slash ∉ l) (hroom : (pre ++ .literal l :: post).length ≤ u32Max)
    (hunstable : ¬ Stable legal l) :
    ¬ AliasesAgree legal (.pathPrefix (pre ++ .literal l :: post)) := by
  intro hagree
  obtain ⟨d, v, hd, hdv, hvl, hdl, hlegal, hlegalv, hv⟩ :=
    exists_spelling haccepts (hliteral l (by simp)).ne_nil hunstable
  have hothers : ∀ k, .literal k ∈ pre ++ post → IsLiteral k := by
    intro k hk
    apply hliteral k
    simp only [List.mem_append, List.mem_cons] at hk ⊢
    tauto
  have hl : Tokens.IsToken slash l := ⟨(hliteral l (by simp)).ne_nil, hslash⟩
  -- The route captures the segment in the middle, and spells the others like the paths do.
  have hcapture : Tokens.IsToken slash (str "{c}") := by decide +kernel
  have htemplate := aliasWords_isToken hothers hcapture
  obtain ⟨built, hbuild, md, hmetadata, hmethod, hsegments⟩ :=
    build_soloProgram (by cases pre <;> rfl) (normalizePath_joined (by cases pre <;> simp [aliasWords]) htemplate)
      (parseTemplate_aliasWords hothers) (by simp [App.isStatic, aliasSegments])
      (by rw [length_captureNames, wilds_aliasSegments]; decide)
      (by simpa [aliasSegments] using hroom)
  have hserved : ∀ {word}, Tokens.IsToken slash word → percentDecode word = .ok d →
      built.served .get (Tokens.joined slash (aliasWords pre post word)) = some (0, [d]) := by
    intro word hword hdecode
    have hpath := segments_joined (aliasWords_isToken hothers hword)
    have hvalid : validPercentEncoding word = true :=
      (validPercentEncoding_iff word).mpr ⟨d, (percentDecode_eq_ok.mp hdecode).1⟩
    rw [← hmethod]
    refine served_of_accepts (Program.consistent_build hbuild) hmetadata
      (by rw [hsegments]; simp [App.isStatic, aliasSegments]) ?_ ?_
    · rw [hsegments, hpath]
      exact accepts_aliasWords hvalid
    · rw [RouteMetadata.decoded, hsegments, hpath, capturedTexts_aliasWords, mapM_eq_ok]
      exact .cons hdecode .nil
  have hmatches := hagree Unit Unit _ none () () built hbuild .get .get _ _
    (isRequestPath_aliasWords haccepts hlegal) (isRequestPath_aliasWords haccepts hlegalv) _
    (hserved hl hd) (hserved hv hdv)
  simp only [Scope.matches, splitPath_eq, segments_joined (aliasWords_isToken hothers hl),
    segments_joined (aliasWords_isToken hothers hv), segmentsMatch_aliasWords hothers] at hmatches
  have hcovers : (ScopeSegment.literal l).covers l = true := by simp [ScopeSegment.covers]
  rw [hcovers, eq_comm, covers_literal_iff hdv] at hmatches
  exact hmatches.elim hdl fun h => hvl h.1

/-! ## When a scope covers aliases alike -/

/-- The literals of a scope are segments of its pattern. -/
theorem isToken_of_scope {pattern : Text} {scope : List ScopeSegment} {l : Text}
    (hparse : Scope.parse pattern = .ok scope) (h : .literal l ∈ scope) :
    Tokens.IsToken slash l := by
  rw [Scope.parse, splitPath_eq, mapM_eq_ok] at hparse
  obtain ⟨i, hi, hget⟩ := List.getElem_of_mem h
  have hi' : i < (segments pattern).length := hparse.length_eq ▸ hi
  have hpart := hparse.get hi' hi
  rw [List.get_eq_getElem, List.get_eq_getElem, hget, ScopeSegment.parse] at hpart
  split at hpart
  · obtain ⟨_, -, hany⟩ := bind_eq_ok.mp hpart
    cases hany
  · simp only [bind_eq_ok, pure_eq_ok, ScopeSegment.literal.injEq] at hpart
    obtain ⟨_, -, rfl⟩ := hpart
    exact Tokens.isToken_of_mem_tokens (List.getElem_mem hi')

/-- **When a prefix scope covers aliases alike.** A scope that `Scope::parse` accepts
    covers two requests alike whenever the same route serves them with the same decoded
    captures, for every program, exactly when none of its literals is written with an
    escape that has another spelling (or it is too long to cover a route with captures). -/
theorem aliasesAgree_iff (haccepts : AcceptsEscapes legal) {pattern : Text}
    {scope : List ScopeSegment} (hparse : Scope.parse pattern = .ok scope)
    (hutf8 : ∀ l, .literal l ∈ scope → validUtf8 l = true) :
    AliasesAgree legal (.pathPrefix scope) ↔
      u32Max < scope.length ∨ ∀ l, .literal l ∈ scope → Stable legal l := by
  refine ⟨fun hagree => ?_, aliasesAgree_of_stable⟩
  by_contra hcontra
  push Not at hcontra
  obtain ⟨hroom, l, hl, hunstable⟩ := hcontra
  obtain ⟨pre, post, rfl⟩ := List.append_of_mem hl
  exact exists_alias haccepts (fun k hk => ⟨(isToken_of_scope hparse hk).1, hutf8 k hk⟩)
    (isToken_of_scope hparse hl).2 hroom hunstable hagree

/-! ## An escaped scope -/

theorem httpLegal_acceptsEscapes : AcceptsEscapes httpLegal :=
  ⟨by decide, by decide, forall_byte (by decide +kernel)⟩

/-- A scope that is written with an escape. -/
def escapedScope : List ScopeSegment := [.literal (str "api"), .literal (str "%61dmin")]

/-- `GET /api/{section}/x` -/
def sectionExample : Program Unit Unit :=
  .call (.raw .get (str "/api/{section}/x") ()) .done

def sectionBuilt : App Unit Unit := returned (sectionExample.build none () ()) (by decide +kernel)

/-- The escaped spelling is covered, the plain one reaches the same handler with the same
    value and is not. -/
theorem not_aliasesAgree_escaped :
    Scope.parse (str "/api/%61dmin") = .ok escapedScope ∧
      ¬ AliasesAgree httpLegal (.pathPrefix escapedScope) := by
  refine ⟨by decide +kernel, fun hagree => ?_⟩
  have hbuild : sectionExample.build none () () = .ok sectionBuilt := eq_returned _
  have hserved : sectionBuilt.served .get (str "/api/%61dmin/x") = some (0, [str "admin"]) := by
    decide +kernel
  have hserved' : sectionBuilt.served .get (str "/api/admin/x") = some (0, [str "admin"]) := by
    decide +kernel
  have hcovered : (Scope.pathPrefix escapedScope).matches .get (str "/api/%61dmin/x") = true := by
    decide +kernel
  have hmissed : (Scope.pathPrefix escapedScope).matches .get (str "/api/admin/x") = false := by
    decide +kernel
  have hmatches := hagree Unit Unit sectionExample none () () sectionBuilt hbuild .get .get _ _
    ⟨by decide +kernel, by decide +kernel⟩ ⟨by decide +kernel, by decide +kernel⟩ _ hserved hserved'
  rw [hcovered, hmissed] at hmatches
  cases hmatches

/-- A plain literal and a capture cover every spelling. -/
theorem aliasesAgree_iff_plain :
    AliasesAgree httpLegal (.pathPrefix [.literal (str "admin"), .any]) := by
  have hparse : Scope.parse (str "/admin/{tenant}") = .ok [.literal (str "admin"), .any] := by
    decide +kernel
  have hliteral : ∀ l, ScopeSegment.literal l ∈ [.literal (str "admin"), .any] → l = str "admin" := by
    simp
  refine (aliasesAgree_iff httpLegal_acceptsEscapes hparse fun l hl => ?_).mpr
    (.inr fun l hl => ?_)
  · rw [hliteral l hl]
    decide +kernel
  · rw [hliteral l hl]
    exact .inl (by decide +kernel)

end OasRs
