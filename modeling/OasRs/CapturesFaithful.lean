import OasRs.Lib.Failing
import OasRs.Runtime
import OasRs.PercentDecoding

/-!
# Faithful Captures

The trie finds ranges of a path, the names of the captures are in a table of each route. Here
both are read together: what a capture of the chosen route gets is the segment at its own
position, whatever other routes share the nodes of the trie and however the search got there.
Paths are shorter than 2^32 bytes, as `with_capture` asserts; the `http` crate accepts less than
64 KiB.

## Main results

- `forall₂_captured`: the trie captures the parts at the positions of the template's captures
- `dispatch_captures`: the captures of the chosen route
- `captures_faithful`: ranges, names and decoded values
-/

namespace OasRs

open Lib Lib.Preference Lib.Polling

/-! ## The captures of a template -/

/-- The captures of a template in order, with the positions of their segments. -/
def templateCaptures (position : ℕ) (template : List Segment) : List (Text × ℕ) :=
  (template.zipIdx position).filterMap fun
    | (.capture name, position) => some (name, position)
    | (.static _, _) => none

/-- The segment of a request path at a capture. -/
def segmentAt (path : Text) (capture : Text × ℕ) : Option Text := (segments path)[capture.2]?

theorem templateCaptures_static (position : ℕ) (value : Text) (template : List Segment) :
    templateCaptures position (.static value :: template) =
      templateCaptures (position + 1) template := rfl

theorem templateCaptures_capture (position : ℕ) (name : Text) (template : List Segment) :
    templateCaptures position (.capture name :: template) =
      (name, position) :: templateCaptures (position + 1) template := rfl

/-- Their names are those that registration keeps. -/
theorem map_fst_templateCaptures (position : ℕ) (template : List Segment) :
    (templateCaptures position template).map Prod.fst = App.captureNames template := by
  induction template generalizing position with
  | nil => rfl
  | cons segment template ih =>
    cases segment with
    | static value => exact ih (position + 1)
    | capture name =>
      rw [templateCaptures_capture, List.map_cons, ih]
      rfl

/-- The trie captures the parts at the positions of the captures. -/
theorem forall₂_captured {all : List PathPart} (template : List Segment) {position : ℕ}
    {parts : List PathPart} (hlength : template.length = parts.length)
    (hall : ∀ i, all[position + i]? = parts[i]?) :
    List.Forall₂ (fun capture part => all[capture.2]? = some part)
      (templateCaptures position template)
      (DynamicRouteTrie.captured (patternOf template) parts) := by
  induction template generalizing position parts with
  | nil => exact .nil
  | cons segment template ih =>
    match parts, hlength with
    | part :: parts, hlength =>
      have hrest : ∀ i, all[position + 1 + i]? = parts[i]? := by
        intro i
        rw [Nat.add_right_comm]
        exact hall (i + 1)
      have htail := ih (Nat.succ.inj hlength) hrest
      cases segment with
      | static value => exact htail
      | capture name =>
        rw [templateCaptures_capture]
        exact .cons (hall 0) htail

/-! ## Ranges -/

/-- The ranges of up to eight captures are those of the parts. -/
theorem CaptureSet.range_foldl_push {parts : List PathPart} (hlimit : parts.length ≤ maxCaptureParams)
    (hbound : ∀ part ∈ parts, part.start < 2 ^ 32 ∧ part.stop < 2 ^ 32) {index : ℕ} {part : PathPart}
    (hpart : parts[index]? = some part) :
    (parts.foldl push empty).range index = some { start := part.start, stop := part.stop } := by
  induction parts using List.reverseRecOn with
  | nil => cases hpart
  | append_singleton parts last ih =>
    rw [List.length_append, List.length_singleton] at hlimit
    have hcount : (parts.foldl push empty).count = parts.length := by
      rw [count_foldl_push]
      exact Nat.zero_add _
    rw [List.foldl_append, List.foldl_cons, List.foldl_nil]
    rcases Nat.lt_trichotomy index parts.length with hlt | rfl | hgt
    · -- the last capture keeps this slot
      rw [range_push_of_lt (by omega)]
      rw [List.getElem?_append_left hlt] at hpart
      exact ih (by omega) (fun other hother => hbound other (by simp [hother])) hpart
    · rw [List.getElem?_concat_length, Option.some.injEq] at hpart
      rw [← hpart, ← hcount]
      have hlast := hbound last (by simp)
      exact range_push_self (by omega) hlast.1 hlast.2
    · have hend : (parts ++ [last]).length ≤ index := by
        rw [List.length_append, List.length_singleton]
        omega
      rw [List.getElem?_eq_none hend] at hpart
      cases hpart

theorem normalizeRequestPath_begins (path : Text) : normalizeRequestPath path <+: path := by
  rw [normalizeRequestPath]
  split
  · exact List.rdropWhile_prefix _ path
  · exact List.prefix_refl path

/-- A range of the normalized path cuts the same text out of the path itself. -/
theorem slice_normalizeRequestPath {path : Text} {start stop : ℕ}
    (hstop : stop ≤ (normalizeRequestPath path).length) :
    PathParts.slice path start stop = PathParts.slice (normalizeRequestPath path) start stop := by
  have htake : (normalizeRequestPath path).take stop = path.take stop := by
    rw [List.prefix_iff_eq_take.mp (normalizeRequestPath_begins path), List.take_take,
      Nat.min_eq_left hstop]
  rw [PathParts.slice, PathParts.slice, htake]

/-! ## The chosen route -/

variable {H M : Type} {app : App H M}

/-- The route that the trie finds accepts the path, and its captures are those of its own
    template. -/
theorem dispatch_captures (hc : app.Consistent) {method : Method} {path : Text} {index : RouteId}
    {captures : CaptureSet} (h : app.freeze.dispatch method path = .route index (some captures)) :
    ∃ md, app.metadata[index]? = some md ∧ Serves md.method method ∧
      Accepts validPercentEncoding (patternOf md.segments) (segments path) ∧
      wilds (patternOf md.segments) ≤ maxCaptureParams ∧
      captures = DynamicRouteTrie.capturesOf (patternOf md.segments)
        (partsOf (normalizeRequestPath path)) := by
  rcases dispatch_cases hc path with
    ⟨set, hlists, -, heq⟩ | ⟨-, p, hp, hlists, heq⟩ | ⟨-, -, heq⟩
  · -- the static table gives no captures
    rw [heq] at h
    cases (resolve_route hlists h).1
  · rw [heq] at h
    obtain ⟨hcaptures, -, m, hentry, hserves⟩ := resolve_route hlists h
    obtain ⟨md, hmd, rfl, hplace⟩ := App.metadata_of_entry hentry
    have hpattern : patternOf md.segments = p := by
      rw [RouteMetadata.place] at hplace
      split at hplace
      · cases hplace
      · exact Place.trie.inj hplace
    subst hpattern
    have hlimit : wilds (patternOf md.segments) ≤ maxCaptureParams :=
      hc.withinLimit _ (hc.patterns_eq ▸ hp.mem)
    exact ⟨md, hmd, hserves, hp.accepts, hlimit, Option.some.inj hcaptures⟩
  · rw [heq] at h
    cases h

/-! ## Captured segments -/

section Captured

variable {path : Text} {template : List Segment}

/-- Each capture of an accepted template gets a part, and the segment at its position. -/
theorem forall₂_segmentAt
    (haccepts : Accepts validPercentEncoding (patternOf template) (segments path)) :
    List.Forall₂ (fun capture part => segmentAt path capture = some part.value)
      (templateCaptures 0 template)
      (DynamicRouteTrie.captured (patternOf template) (partsOf (normalizeRequestPath path))) := by
  have hvalues : (partsOf (normalizeRequestPath path)).map PathPart.value = segments path := by
    rw [values_partsOf, segments_normalizeRequestPath]
  have hlength : template.length = (partsOf (normalizeRequestPath path)).length := by
    have hpattern := haccepts.length_eq
    rw [patternOf, List.length_map, ← hvalues, List.length_map] at hpattern
    exact hpattern
  have hall : ∀ i, (partsOf (normalizeRequestPath path))[0 + i]? =
      (partsOf (normalizeRequestPath path))[i]? := by
    intro i
    rw [Nat.zero_add]
  have hcaptured := forall₂_captured template hlength hall
  refine hcaptured.imp fun capture part hpart => ?_
  rw [segmentAt, ← hvalues, List.getElem?_map, hpart, Option.map_some]

/-- Captured segments were checked. -/
theorem ok_of_mem_capturedTexts {ok : Text → Bool} {p : Pattern} {values : List Text}
    (h : Accepts ok p values) {text : Text} (htext : text ∈ capturedTexts p values) :
    ok text = true := by
  induction h with
  | nil => cases htext
  | @cons piece value p values hpiece _ ih =>
    cases piece with
    | literal literal => exact ih htext
    | wild =>
      rcases List.mem_cons.mp htext with rfl | hrest
      · exact hpiece
      · exact ih hrest

/-- Where a captured part stands, in both forms of the path. -/
theorem slice_captured {part : PathPart} (hpart : part ∈
    DynamicRouteTrie.captured (patternOf template) (partsOf (normalizeRequestPath path))) :
    part.start < part.stop ∧ part.stop ≤ path.length ∧
      PathParts.slice (normalizeRequestPath path) part.start part.stop = part.value ∧
      PathParts.slice path part.start part.stop = part.value := by
  have hmem := captured_subset hpart
  obtain ⟨hslice, hstop⟩ := slice_partsOf hmem
  have hle := (normalizeRequestPath_begins path).length_le
  exact ⟨start_lt_stop hmem, hstop.trans hle, hslice,
    (slice_normalizeRequestPath hstop).trans hslice⟩

/-- The captured texts, capture by capture. -/
theorem forall₂_capturedTexts
    (haccepts : Accepts validPercentEncoding (patternOf template) (segments path)) :
    List.Forall₂ (fun capture text => segmentAt path capture = some text)
      (templateCaptures 0 template) (capturedTexts (patternOf template) (segments path)) := by
  have hparts := forall₂_segmentAt haccepts
  rw [← segments_normalizeRequestPath path, ← values_partsOf, ← map_value_captured,
    List.forall₂_map_right_iff]
  exact hparts

end Captured

/-! ## What handlers get -/

/-- Two relations along three lists. -/
theorem forall₂_comp {α β γ : Type} {R : α → β → Prop} {S : β → γ → Prop} {as : List α} {bs : List β}
    {cs : List γ} (hR : List.Forall₂ R as bs) (hS : List.Forall₂ S bs cs) :
    List.Forall₂ (fun a c => ∃ b, R a b ∧ S b c) as cs := by
  induction hR generalizing cs with
  | nil =>
    cases hS
    exact .nil
  | cons hab _ ih =>
    cases hS with
    | cons hbc hrest => exact .cons ⟨_, hab, hbc⟩ (ih hrest)

/-- Decoding one of the captured segments gives no UTF-8. -/
def Undecodable (path : Text) (template : List Segment) : Prop :=
  ∃ capture ∈ templateCaptures 0 template, ∃ text,
    segmentAt path capture = some text ∧ Codec.percentDecode text = .error .utf8

/-- The captures of a template, ranges alone: there is one for each capture, and each cuts its
    segment out of the normalized path and out of the path itself. -/
structure CaptureSet.Faithful (captures : CaptureSet) (path : Text) (template : List Segment) :
    Prop where
  count : captures.count = (templateCaptures 0 template).length
  range : ∀ i capture, (templateCaptures 0 template)[i]? = some capture →
    ∃ range text, captures.range i = some range ∧ segmentAt path capture = some text ∧
      PathParts.slice (normalizeRequestPath path) range.start range.stop = text ∧
      PathParts.slice path range.start range.stop = text

/-- `first_raw` is the segment of the first capture. -/
def Params.FirstRaw (params : Params) (path : Text) (template : List Segment) : Prop :=
  params.firstRaw path = (templateCaptures 0 template).head?.bind (segmentAt path) ∧
    params.firstRaw (normalizeRequestPath path) =
      (templateCaptures 0 template).head?.bind (segmentAt path)

/-- Every name of a template leads to the decoded segment of the first capture with this name. -/
def Params.Decoded (params : Params) (path : Text) (template : List Segment) : Prop :=
  ∀ name ∈ App.captureNames template, ∃ capture text value,
    (templateCaptures 0 template).find? (fun capture => capture.1 == name) = some capture ∧
      segmentAt path capture = some text ∧ Codec.percentDecode text = .ok value ∧
      params.get name = some value

/-- The values beside the captures are found by the names. -/
theorem find_zip_of_forall₂ {R : Text × ℕ → Text → Prop} {captures : List (Text × ℕ)}
    {values : List Text} (h : List.Forall₂ R captures values) {name : Text}
    (hname : name ∈ captures.map Prod.fst) :
    ∃ capture value, captures.find? (fun capture => capture.1 == name) = some capture ∧
      R capture value ∧
      ((captures.map Prod.fst).zip values).find? (fun entry => entry.1 == name) =
        some (name, value) := by
  induction h with
  | nil => cases hname
  | @cons capture value captures values hR _ ih =>
    by_cases heq : capture.1 = name
    · subst heq
      refine ⟨capture, value, List.find?_cons_of_pos (beq_self_eq_true _), hR, ?_⟩
      exact List.find?_cons_of_pos (beq_self_eq_true _)
    · rw [List.map_cons, List.mem_cons] at hname
      obtain ⟨found, foundValue, hfind, hfound, hzip⟩ := ih (hname.resolve_left (Ne.symm heq))
      have hne : (capture.1 == name) = false := beq_eq_false_iff_ne.mpr heq
      refine ⟨found, foundValue, ?_, hfound, ?_⟩
      · simp only [List.find?_cons, hne]
        exact hfind
      · simp only [List.map_cons, List.zip_cons_cons, List.find?_cons, hne]
        exact hzip

section Chosen

variable {path : Text} {template : List Segment} {captures : CaptureSet}

/-- The ranges that the trie packs are faithful. -/
theorem faithful_capturesOf (hlength : path.length < 2 ^ 32)
    (haccepts : Accepts validPercentEncoding (patternOf template) (segments path))
    (hlimit : wilds (patternOf template) ≤ maxCaptureParams) :
    (DynamicRouteTrie.capturesOf (patternOf template)
      (partsOf (normalizeRequestPath path))).Faithful path template := by
  have hparts := forall₂_segmentAt haccepts
  constructor
  · rw [DynamicRouteTrie.capturesOf, CaptureSet.count_foldl_push, hparts.length_eq]
    exact Nat.zero_add _
  · intro i capture hcapture
    obtain ⟨part, hpart, hsegment⟩ := forall₂_exists_getElem? hparts hcapture
    have hmem := List.mem_of_getElem? hpart
    obtain ⟨-, -, hnormalized, hpath⟩ := slice_captured hmem
    refine ⟨{ start := part.start, stop := part.stop }, part.value, ?_, hsegment, hnormalized,
      hpath⟩
    apply CaptureSet.range_foldl_push ((length_captured_le _ _).trans hlimit) _ hpart
    intro other hother
    obtain ⟨hstart, hstop, -, -⟩ := slice_captured hother
    omega

/-- The texts that are decoded. -/
theorem texts_chosen (hlength : path.length < 2 ^ 32)
    (hlimit : wilds (patternOf template) ≤ maxCaptureParams) :
    (DynamicRouteTrie.capturesOf (patternOf template)
        (partsOf (normalizeRequestPath path))).texts (normalizeRequestPath path) =
      capturedTexts (patternOf template) (segments path) := by
  have hnormalized : (normalizeRequestPath path).length < 2 ^ 32 :=
    lt_of_le_of_lt (normalizeRequestPath_begins path).length_le hlength
  rw [texts_capturesOf hnormalized hlimit, segments_normalizeRequestPath]

/-- The first range is the segment of the first capture. -/
theorem CaptureSet.Faithful.firstRaw (h : captures.Faithful path template) {params : Params}
    (hpacked : params.packed = captures.packed) (hcount : params.count = captures.count) :
    params.FirstRaw path template := by
  have hrange : params.range 0 = captures.range 0 := by
    rw [Params.range, hpacked, hcount]
  rw [Params.FirstRaw, Params.firstRaw, Params.firstRaw, hrange]
  cases hcaptures : templateCaptures 0 template with
  | nil =>
    have hzero : captures.count = 0 := by
      rw [h.count, hcaptures]
      rfl
    rw [CaptureSet.range, if_neg (by omega)]
    exact ⟨rfl, rfl⟩
  | cons capture rest =>
    obtain ⟨range, text, hfirst, hsegment, hnormalized, hpath⟩ :=
      h.range 0 capture (by rw [hcaptures]; rfl)
    rw [hfirst, List.head?_cons, Option.bind_some, hsegment, Option.map_some, Option.map_some,
      hnormalized, hpath]
    exact ⟨rfl, rfl⟩

/-- The decoded values, capture by capture. -/
theorem forall₂_values
    (haccepts : Accepts validPercentEncoding (patternOf template) (segments path))
    {values : List Text}
    (hvalues : (capturedTexts (patternOf template) (segments path)).mapM percentDecode = .ok values) :
    List.Forall₂ (fun capture value => ∃ text, segmentAt path capture = some text ∧
      Codec.percentDecode text = .ok value) (templateCaptures 0 template) values := by
  refine (forall₂_comp (forall₂_capturedTexts haccepts) (mapM_eq_ok.mp hvalues)).imp ?_
  rintro capture value ⟨text, hsegment, hdecode⟩
  exact ⟨text, hsegment, (Codec.percentDecode_eq text).trans hdecode⟩

/-- Decoding fails exactly when a captured segment is undecodable. -/
theorem undecodable_iff
    (haccepts : Accepts validPercentEncoding (patternOf template) (segments path)) :
    Undecodable path template ↔
      ∃ error, (capturedTexts (patternOf template) (segments path)).mapM percentDecode =
        .error error := by
  have htexts := forall₂_capturedTexts haccepts
  constructor
  · rintro ⟨capture, hcapture, text, hsegment, hdecode⟩
    cases hvalues : (capturedTexts (patternOf template) (segments path)).mapM percentDecode with
    | error error => exact ⟨error, rfl⟩
    | ok values =>
      -- every captured segment has a value, this one too
      obtain ⟨i, hi⟩ := List.getElem?_of_mem hcapture
      obtain ⟨value, -, text', hsegment', hdecode'⟩ :=
        forall₂_exists_getElem? (forall₂_values haccepts hvalues) hi
      rw [hsegment, Option.some.injEq] at hsegment'
      rw [← hsegment', hdecode] at hdecode'
      cases hdecode'
  · rintro ⟨error, herror⟩
    have hfails : FailsWith ((capturedTexts (patternOf template) (segments path)).mapM percentDecode)
        fun error => ∃ text ∈ capturedTexts (patternOf template) (segments path),
          percentDecode text = .error error :=
      FailsWith.mapM fun text htext error herror => ⟨text, htext, herror⟩
    obtain ⟨text, htext, hdecode⟩ := hfails error herror
    rw [← Codec.percentDecode_eq] at hdecode
    obtain ⟨i, hi⟩ := List.getElem?_of_mem htext
    obtain ⟨capture, hcapture, hsegment⟩ := forall₂_exists_getElem? htexts.flip hi
    have hcomplete : EscapesComplete text :=
      (validPercentEncoding_iff_complete text).mp (ok_of_mem_capturedTexts haccepts htext)
    rw [Codec.utf8_of_error hcomplete hdecode] at hdecode
    exact ⟨capture, List.mem_of_getElem? hcapture, text, hsegment, hdecode⟩

/-- The values are found by the names of the template. -/
theorem decoded_of_values
    (haccepts : Accepts validPercentEncoding (patternOf template) (segments path))
    {values : List Text}
    (hvalues : (capturedTexts (patternOf template) (segments path)).mapM percentDecode = .ok values)
    {params : Params} (howned : params.owned = some (App.captureNames template, values)) :
    params.Decoded path template := by
  intro name hname
  rw [← map_fst_templateCaptures 0] at hname
  obtain ⟨capture, value, hfind, ⟨text, hsegment, hdecode⟩, hzip⟩ :=
    find_zip_of_forall₂ (forall₂_values haccepts hvalues) hname
  refine ⟨capture, text, value, hfind, hsegment, hdecode, ?_⟩
  rw [map_fst_templateCaptures] at hzip
  show (params.owned.bind _) = _
  rw [howned, Option.bind_some]
  exact congrArg (Option.map Prod.snd) hzip

end Chosen

/-! ## Every request -/

section Requests

variable {S Incoming M : Type}

/-- What a handler is invoked with where the captures have names: decoded parameters, unless a
    captured segment is undecodable. Then the framework answers 400. -/
structure Captures.Materializes (captures : CaptureSet) (names : Option (List Text)) (path : Text)
    (template : List Segment) : Prop where
  refused : Undecodable path template →
    ∀ {S Incoming : Type} (env : Environment Incoming) (request : HttpRequest Bytes)
      (handler : HttpRequest Bytes → Params → S → Future Response) (state : S),
      request.parts.path = path →
      ∃ response, response.status = 400 ∧
        (Captures.dynamic captures).invoke env .materialized request names handler state =
          .ok (.ready response)
  decoded : ¬ Undecodable path template →
    ∃ params, params.Decoded path template ∧ params.FirstRaw path template ∧
      ∀ {S Incoming : Type} (env : Environment Incoming) (request : HttpRequest Bytes)
        (handler : HttpRequest Bytes → Params → S → Future Response) (state : S),
        request.parts.path = path →
        (Captures.dynamic captures).invoke env .materialized request names handler state =
          .ok (handler request params state)

/-- The chosen captures are materialized under the names of their own template. -/
theorem materializes_capturesOf {path : Text} {template : List Segment}
    (hlength : path.length < 2 ^ 32)
    (haccepts : Accepts validPercentEncoding (patternOf template) (segments path))
    (hlimit : wilds (patternOf template) ≤ maxCaptureParams) :
    Captures.Materializes (DynamicRouteTrie.capturesOf (patternOf template)
      (partsOf (normalizeRequestPath path))) (some (App.captureNames template)) path template := by
  have htexts := texts_chosen hlength hlimit
  constructor
  · intro hundecodable _ _ env request handler state hrequest
    obtain ⟨error, herror⟩ := (undecodable_iff haccepts).mp hundecodable
    refine ⟨error.toApiError.intoResponse env.toVec, rfl, ?_⟩
    simp only [Captures.invoke, Params.fromMaterializedNames, hrequest, htexts, herror]
  · intro hdecodable
    cases hvalues : (capturedTexts (patternOf template) (segments path)).mapM percentDecode with
    | error error => exact (hdecodable ((undecodable_iff haccepts).mpr ⟨error, hvalues⟩)).elim
    | ok values =>
      let captures := DynamicRouteTrie.capturesOf (patternOf template)
        (partsOf (normalizeRequestPath path))
      refine ⟨{ packed := captures.packed, count := captures.count
                owned := some (App.captureNames template, values) },
        decoded_of_values haccepts hvalues rfl,
        (faithful_capturesOf hlength haccepts hlimit).firstRaw rfl rfl, ?_⟩
      intro _ _ env request handler state hrequest
      simp only [Captures.invoke, Params.fromMaterializedNames, hrequest, htexts, hvalues]
      rfl

theorem Program.all_of_forall {H : Type} {P : Call H M → Prop} (hP : ∀ c, P c) (p : Program H M) :
    p.All P := by
  induction p with
  | done => trivial
  | call c rest ih => exact ⟨hP c, ih⟩
  | group path body rest ihbody ihrest => exact ⟨ihbody, ihrest⟩

theorem Call.registers_true {H : Type} (c : Call H M) : c.Registers fun _ => True := by
  cases c with
  | _ => trivial

/-- **Captures are faithful**: for every built application and every request that the trie
dispatches, the chosen route accepts the path, every range is the segment of its own capture, the
first raw capture is the first of them, and materialized captures are decoded under the names of
this route. -/
theorem captures_faithful {p : Program (Endpoint S Incoming) M} {validation : Option BuildError}
    {document page : Endpoint S Incoming} {app : App (Endpoint S Incoming) M}
    (hbuild : p.build validation document page = .ok app) {method : Method} {path : Text}
    (hlength : path.length < 2 ^ 32) {index : RouteId} {captures : CaptureSet}
    (hdispatch : app.freeze.dispatch method path = .route index (some captures)) :
    ∃ md plan, app.metadata[index]? = some md ∧ app.freeze.plans[index]? = some plan ∧
      Serves md.method method ∧
      Accepts validPercentEncoding (patternOf md.segments) (segments path) ∧
      captures.Faithful path md.segments ∧
      (Params.fromMatch captures).FirstRaw path md.segments ∧
      (plan.captureMode = .materialized →
        Captures.Materializes captures (app.freeze.captureNames[index]?.getD none) path
          md.segments) := by
  -- the captures are those of the metadata's segments, in the path as it was sent
  obtain ⟨md, hmd, hserves, haccepts, hlimit, rfl⟩ :=
    dispatch_captures (Program.consistent_build hbuild) hdispatch
  have hplanned : app.Planned fun _ => True :=
    Program.planned_build (Program.all_of_forall Call.registers_true p) hbuild
  obtain ⟨plan, hplan, hregistered⟩ := forall₂_exists_getElem? hplanned hmd
  have hfaithful := faithful_capturesOf hlength haccepts hlimit
  refine ⟨md, plan, hmd, hplan, hserves, haccepts, hfaithful, hfaithful.firstRaw rfl rfl, ?_⟩
  -- materialized captures need the names, which the frozen table keeps for each route
  intro hmode
  have hnames : app.freeze.captureNames[index]? = some md.captureNames := by
    show (app.metadata.map RouteMetadata.captureNames)[index]? = _
    rw [List.getElem?_map, hmd, Option.map_some]
  rw [hnames, Option.getD_some, hregistered.captureNames hmode]
  exact materializes_capturesOf hlength haccepts hlimit

end Requests

/-! ## A search that comes back -/

/-- `app.get("/users/{id}/posts", |params: Params| ..)` and `app.get("/{tenant}/{name}/{tab}", ..)` -/
def sharedProgram : Program (Endpoint Unit Bytes) Unit :=
  .call (.route .get (str "/users/{id}/posts")
    (.of [{ params := true, capture := true, body := false }] echo)) <|
  .call (.route .get (str "/{tenant}/{name}/{tab}")
    (.of [{ params := true, capture := true, body := false }] echo)) .done

/-- What it builds. -/
def sharedApp : App (Endpoint Unit Bytes) Unit :=
  returned (sharedProgram.build none echo echo) (by decide +kernel)

/-- The captures of `HEAD /users/a%20b/likes/`: the search leaves the branch of `users`. -/
def sharedCaptures : CaptureSet where
  packed := #v[1 <<< 32 ||| 6, 7 <<< 32 ||| 12, 13 <<< 32 ||| 18, 0, 0, 0, 0, 0]
  count := 3

theorem captures_faithful_backtracked :
    ∃ md, sharedApp.metadata[1]? = some md ∧
      sharedCaptures.Faithful (str "/users/a%20b/likes/") md.segments := by
  have hbuild : sharedProgram.build none echo echo = .ok sharedApp := eq_returned _
  have hdispatch : sharedApp.freeze.dispatch .head (str "/users/a%20b/likes/") =
      .route 1 (some sharedCaptures) := by
    decide +kernel
  obtain ⟨md, -, hmd, -, -, -, hfaithful, -⟩ := captures_faithful hbuild (by decide) hdispatch
  exact ⟨md, hmd, hfaithful⟩

end OasRs
