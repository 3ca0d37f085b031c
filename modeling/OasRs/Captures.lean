import OasRs.Dispatch

/-!
# Captured Texts

What a handler sees of a request: the route, and the texts that its captures cut out
of the normalized path. The ranges are packed as two `u32`, so they are faithful for
paths shorter than 2^32 bytes.

## Main results

- `texts_capturesOf`: the packed ranges read back the captured segments
- `lands_cases`: where dispatch resolves the methods of a path, and what it shows
-/

namespace OasRs

open Lib Lib.Preference

variable {H M : Type}

/-! ## Packed ranges -/

namespace CaptureSet

/-- A range that fits in two `u32` is read back as it was packed. -/
theorem range_push_self {captures : CaptureSet} {part : PathPart}
    (hcount : captures.count < maxCaptureParams) (hstart : part.start < 2 ^ 32)
    (hstop : part.stop < 2 ^ 32) :
    (captures.push part).range captures.count =
      some { start := part.start, stop := part.stop } := by
  have hpacked : part.start <<< 32 ||| part.stop = part.start * 2 ^ 32 + part.stop := by
    rw [← Nat.shiftLeft_add_eq_or_of_lt hstop, Nat.shiftLeft_eq]
  have hget : (captures.push part).packed[captures.count]? =
      some (part.start * 2 ^ 32 + part.stop) := by
    have hlt : captures.count < 8 := hcount
    rw [push, withCapture, Nat.mod_eq_of_lt hstart, Nat.mod_eq_of_lt hstop, hpacked]
    simp [hlt]
  have hcount' : (captures.push part).count = captures.count + 1 := rfl
  rw [range, hcount', if_pos (Nat.lt_succ_self _), hget, Option.map_some, Nat.shiftRight_eq_div_pow]
  congr 2
  · omega
  · omega

/-- A further capture keeps the ranges that are there. -/
theorem range_push_of_lt {captures : CaptureSet} {part : PathPart} {index : ℕ}
    (hindex : index < captures.count) : (captures.push part).range index = captures.range index := by
  have hget : (captures.push part).packed[index]? = captures.packed[index]? := by
    simp [push, withCapture, Nat.ne_of_gt hindex]
  have hcount' : (captures.push part).count = captures.count + 1 := rfl
  rw [range, range, hget, hcount', if_pos (Nat.lt_succ_of_lt hindex), if_pos hindex]

/-- One more capture is one more text. -/
theorem texts_push {captures : CaptureSet} {part : PathPart} (path : Text)
    (hcount : captures.count < maxCaptureParams) (hstart : part.start < 2 ^ 32)
    (hstop : part.stop < 2 ^ 32) :
    (captures.push part).texts path =
      captures.texts path ++ [PathParts.slice path part.start part.stop] := by
  have hcount' : (captures.push part).count = captures.count + 1 := rfl
  rw [texts, hcount', List.range_succ, List.filterMap_append, texts]
  congr 1
  · apply List.filterMap_congr
    intro index hindex
    rw [range_push_of_lt (List.mem_range.mp hindex)]
  · simp [range_push_self hcount hstart hstop]

theorem count_foldl_push (parts : List PathPart) (captures : CaptureSet) :
    (parts.foldl push captures).count = captures.count + parts.length := by
  induction parts generalizing captures with
  | nil => rfl
  | cons part parts ih =>
    rw [List.foldl_cons, ih, List.length_cons]
    show captures.count + 1 + parts.length = _
    omega

/-- The texts of up to eight captures are the slices of the path. -/
theorem texts_foldl_push {path : Text} {parts : List PathPart}
    (hlimit : parts.length ≤ maxCaptureParams)
    (hbound : ∀ part ∈ parts, part.start < 2 ^ 32 ∧ part.stop < 2 ^ 32) :
    (parts.foldl push empty).texts path =
      parts.map fun part => PathParts.slice path part.start part.stop := by
  induction parts using List.reverseRecOn with
  | nil => rfl
  | append_singleton parts part ih =>
    rw [List.length_append, List.length_singleton] at hlimit
    have hcount : (parts.foldl push empty).count < maxCaptureParams := by
      rw [count_foldl_push]
      show 0 + parts.length < _
      omega
    have hpart := hbound part (by simp)
    rw [List.foldl_append, List.foldl_cons, List.foldl_nil,
      texts_push path hcount hpart.1 hpart.2,
      ih (by omega) fun other hother => hbound other (by simp [hother])]
    simp

end CaptureSet

/-! ## Captured segments -/

/-- The segments that a pattern captures. -/
def capturedTexts : Pattern → List Text → List Text
  | .wild :: p, value :: values => value :: capturedTexts p values
  | .literal _ :: p, _ :: values => capturedTexts p values
  | _, _ => []

theorem map_value_captured (p : Pattern) (parts : List PathPart) :
    (DynamicRouteTrie.captured p parts).map PathPart.value =
      capturedTexts p (parts.map PathPart.value) := by
  induction p generalizing parts with
  | nil => rfl
  | cons piece p ih =>
    cases parts with
    | nil => cases piece <;> rfl
    | cons part parts =>
      cases piece with
      | literal value => exact ih parts
      | wild => exact congrArg (part.value :: ·) (ih parts)

theorem captured_subset {p : Pattern} {parts : List PathPart} {part : PathPart}
    (h : part ∈ DynamicRouteTrie.captured p parts) : part ∈ parts := by
  induction p generalizing parts with
  | nil => cases h
  | cons piece p ih =>
    cases parts with
    | nil => cases piece <;> cases h
    | cons first parts =>
      cases piece with
      | literal value => exact List.mem_cons_of_mem _ (ih h)
      | wild =>
        rcases List.mem_cons.mp h with rfl | h
        · exact List.mem_cons_self
        · exact List.mem_cons_of_mem _ (ih h)

theorem length_captured_le (p : Pattern) (parts : List PathPart) :
    (DynamicRouteTrie.captured p parts).length ≤ wilds p := by
  induction p generalizing parts with
  | nil => exact Nat.zero_le _
  | cons piece p ih =>
    cases parts with
    | nil => cases piece <;> exact Nat.zero_le _
    | cons part parts =>
      cases piece with
      | literal value => simpa [wilds, DynamicRouteTrie.captured] using ih parts
      | wild => simpa [wilds, DynamicRouteTrie.captured] using ih parts

/-- Parts are not empty. -/
theorem start_lt_stop {path : Text} {part : PathPart} (h : part ∈ partsOf path) :
    part.start < part.stop := by
  have hmem : part.value ∈ segments path := by
    rw [← values_partsOf]
    exact List.mem_map_of_mem h
  have hne := List.length_pos_of_ne_nil (Tokens.isToken_of_mem_tokens hmem).1
  rw [← (slice_partsOf h).1, PathParts.slice, List.length_drop, List.length_take] at hne
  omega

/-- The packed ranges of a pattern read back the segments it captures. -/
theorem texts_capturesOf {path : Text} (hpath : path.length < 2 ^ 32) {p : Pattern}
    (hlimit : wilds p ≤ maxCaptureParams) :
    (DynamicRouteTrie.capturesOf p (partsOf path)).texts path = capturedTexts p (segments path) := by
  rw [← values_partsOf, ← map_value_captured, DynamicRouteTrie.capturesOf,
    CaptureSet.texts_foldl_push ((length_captured_le p _).trans hlimit)]
  · apply List.map_congr_left
    intro part hpart
    exact (slice_partsOf (captured_subset hpart)).1
  · intro part hpart
    have hstop := (slice_partsOf (captured_subset hpart)).2
    have hstart := start_lt_stop (captured_subset hpart)
    omega

/-! ## Requests -/

variable {legal : UInt8 → Bool}

/-- What a handler and a client see of an outcome. -/
inductive View where
  /-- the route, and the texts of its captures -/
  | route (index : RouteId) (captures : List Text)
  | options (allow : Text)
  | methodNotAllowed (allow : Text)
  | notFound
  deriving DecidableEq

/-- `DynamicCaptures` reads its ranges on the normalized path, `StaticCaptures` has
    none. -/
def Outcome.view (path : Text) : Outcome → View
  | .route index captures => .route index ((captures.map fun c => c.texts path).getD [])
  | .options allow => .options allow
  | .methodNotAllowed allow => .methodNotAllowed allow
  | .notFound => .notFound

/-- Dispatch, as it can be seen. -/
def Runtime.view (runtime : Runtime H M) (method : Method) (path : RequestPath legal) : View :=
  (runtime.dispatch method path.text).view (normalizeRequestPath path.text)

/-- A request path is short enough for a packed range. -/
theorem length_normalizeRequestPath (path : RequestPath legal) :
    (normalizeRequestPath path.text).length < 2 ^ 32 := by
  have hle : (normalizeRequestPath path.text).length ≤ path.text.length := by
    rw [normalizeRequestPath]
    split
    · exact (List.rdropWhile_prefix _ _).length_le
    · exact le_rfl
  have hmax : maxPathLength < 2 ^ 32 := by decide
  exact (hle.trans path.length_le).trans_lt hmax

/-- What a route set shows once the path is matched. -/
def resolvedView (method : Method) (set : RouteSet) (texts : List Text) : View :=
  match resolveRouteSet method set with
  | .ok index => .route index texts
  | .error (.options allow) => .options allow
  | .error (.methodNotAllowed allow) => .methodNotAllowed allow

theorem view_resolve (method : Method) (set : RouteSet) (path : Text)
    (captures : Option CaptureSet) :
    (Outcome.resolve method set captures).view path =
      resolvedView method set ((captures.map fun c => c.texts path).getD []) := by
  unfold Outcome.resolve resolvedView
  split <;> simp_all [Outcome.view]

/-- The place where dispatch resolves the methods of a path. -/
structure Lands (app : App H M) (path : RequestPath legal) (place : Place) (set : RouteSet)
    (texts : List Text) : Prop where
  lists : set.Lists app.entries place
  nonempty : ∃ m, (m, place) ∈ app.entries
  view : ∀ method, app.freeze.view method path = resolvedView method set texts

/-- Dispatch lands at the static place of the normalized path, at the preferred pattern,
    or nowhere. -/
theorem lands_cases {app : App H M} (hc : app.Consistent) (path : RequestPath legal) :
    (∃ set, Lands app path (.table (normalizeRequestPath path.text)) set []) ∨
    ((∀ m, (m, .table (normalizeRequestPath path.text)) ∉ app.entries) ∧
      ∃ p, IsPreferred validPercentEncoding app.patterns (segments path.text) p ∧
        Lands app path (.trie p) (app.dynamicRoutes.routesOf p)
          (capturedTexts p (segments path.text))) ∨
    ((∀ m, (m, .table (normalizeRequestPath path.text)) ∉ app.entries) ∧
      (∀ p ∈ app.patterns, ¬ Accepts validPercentEncoding p (segments path.text)) ∧
      ∀ method, app.freeze.view method path = .notFound) := by
  rcases dispatch_cases hc path.text with
    ⟨set, hlists, hmem, heq⟩ | ⟨hmiss, p, hp, hlists, heq⟩ | ⟨hmiss, hnone, heq⟩
  · refine .inl ⟨set, hlists, hmem, fun method => ?_⟩
    rw [Runtime.view, heq, view_resolve]
    rfl
  · refine .inr (.inl ⟨hmiss, p, hp, hlists, hp.mem, fun method => ?_⟩)
    have hlimit : wilds p ≤ maxCaptureParams := hc.withinLimit p (hc.patterns_eq ▸ hp.mem)
    rw [Runtime.view, heq, view_resolve, Option.map_some, Option.getD_some,
      texts_capturesOf (length_normalizeRequestPath path) hlimit, segments_normalizeRequestPath]
  · refine .inr (.inr ⟨hmiss, hnone, fun method => ?_⟩)
    rw [Runtime.view, heq]
    rfl

end OasRs
