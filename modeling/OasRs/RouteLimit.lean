import OasRs.Reference
import Mathlib.Algebra.Order.BigOperators.Group.List

/-!
# The Last Route Identifier

`RouteId::new` accepts every index up to `u32::MAX`, and `u32::MAX` marks a free slot
of a `RouteSet`. The route with that index is in the method mask but never chosen.
This module shows that it is the only way in which dispatch departs from the
reference.

## Main results

- `referenceWithout_eq_iff`: when two lost routes make no difference
- `dispatch_eq_reference_iff`: exactly when dispatch agrees with the reference
-/

namespace OasRs

open Lib Lib.Preference

variable {H M : Type}

/-! ## A path that a pattern wins -/

/-- The path of a pattern, with `filler` in place of its captures. -/
def filled (filler : Text) (p : Pattern) : List Text :=
  p.map fun
    | .literal value => value
    | .wild => filler

theorem accepts_filled {filler : Text} (hvalid : validPercentEncoding filler = true) (p : Pattern) :
    Accepts validPercentEncoding p (filled filler p) := by
  induction p with
  | nil => exact accepts_nil
  | cons piece p ih =>
    cases piece with
    | literal value => exact accepts_cons.mpr ⟨by simp [Piece.accepts], ih⟩
    | wild => exact accepts_cons.mpr ⟨hvalid, ih⟩

/-- A pattern wins on its own path, where no literal looks like the filler. -/
theorem precedes_of_accepts_filled {filler : Text} {p q : Pattern}
    (hfiller : Piece.literal filler ∉ q) (hacc : Accepts validPercentEncoding q (filled filler p)) :
    q = p ∨ Precedes p q := by
  induction p generalizing q with
  | nil => exact .inl (accepts_nil_iff.mp hacc)
  | cons piece p ih =>
    have hrest : ∀ {q'}, Piece.literal filler ∉ q' →
        Accepts validPercentEncoding q' (filled filler p) → q' = p ∨ Precedes p q' := ih
    cases piece with
    | literal value =>
      rcases accepts_cons_right.mp hacc with ⟨q', rfl, hq'⟩ | ⟨q', rfl, -, -⟩
      · rcases hrest (fun h => hfiller (List.mem_cons_of_mem _ h)) hq' with rfl | h
        · exact .inl rfl
        · exact .inr ⟨rfl, h⟩
      · exact .inr trivial
    | wild =>
      rcases accepts_cons_right.mp hacc with ⟨q', rfl, -⟩ | ⟨q', rfl, -, hq'⟩
      · exact absurd List.mem_cons_self hfiller
      · rcases hrest (fun h => hfiller (List.mem_cons_of_mem _ h)) hq' with rfl | h
        · exact .inl rfl
        · exact .inr h

theorem isPreferred_filled {filler : Text} {S : Set Pattern} {p : Pattern}
    (hvalid : validPercentEncoding filler = true) (hfiller : ∀ q ∈ S, Piece.literal filler ∉ q)
    (hp : p ∈ S) : IsPreferred validPercentEncoding S (filled filler p) p where
  mem := hp
  accepts := accepts_filled hvalid p
  first q hq hacc := precedes_of_accepts_filled (hfiller q hq) hacc

/-- A run of letters. -/
def letters (n : ℕ) : Text := List.replicate n 0x61

theorem isToken_letters (n : ℕ) : Tokens.IsToken slash (letters (n + 1)) := by
  refine ⟨by simp [letters], fun h => ?_⟩
  have := List.eq_of_mem_replicate h
  revert this
  decide

/-- Some run of letters, after a given text, is no literal of finitely many patterns. -/
theorem exists_filler (start : Text) (patterns : List Pattern) :
    ∃ n, ∀ q ∈ patterns, Piece.literal (start ++ letters (n + 1)) ∉ q := by
  let size : Piece Text → ℕ := fun
    | .literal value => value.length
    | .wild => 0
  refine ⟨(patterns.flatten.map size).sum, fun q hq hmem => ?_⟩
  have hle : size (.literal (start ++ letters ((patterns.flatten.map size).sum + 1))) ≤
      (patterns.flatten.map size).sum :=
    List.single_le_sum (fun _ _ => Nat.zero_le _) _
      (List.mem_map_of_mem (List.mem_flatten.mpr ⟨q, hq, hmem⟩))
  simp only [size, letters, List.length_append, List.length_replicate] at hle
  omega

/-! ## The route that is never chosen -/

/-- The route itself is the answer exactly if it is registered and not lost. -/
theorem answerWithout_eq_route {lost : Option (Method × Pattern)} {routes : List (Method × Pattern)}
    {method : Method} {p : Pattern} :
    answerWithout lost routes method p = .route method p ↔
      (method, p) ∈ routes ∧ (method, p) ∉ lost := by
  unfold answerWithout
  split
  · rename_i h
    exact iff_of_true rfl h
  · rename_i h
    refine iff_of_false ?_ h
    split
    · -- a `HEAD` that the route for `GET` answers
      rename_i hhead
      rw [hhead.1]
      nofun
    · split <;> nofun

/-- Two references on the same routes agree on a path exactly if the same routes are lost at the
    pattern that is chosen. -/
theorem referenceWithout_eq_iff {lost lost' : Option (Method × Pattern)}
    {routes : List (Method × Pattern)} (hlost : ∀ route ∈ lost, route ∈ routes)
    (hlost' : ∀ route ∈ lost', route ∈ routes) {words : List Text} :
    (∀ method, referenceWithout lost routes method words =
        referenceWithout lost' routes method words) ↔
      ∀ p, choose routes words = some p → ∀ method, (method, p) ∈ lost ↔ (method, p) ∈ lost' := by
  unfold referenceWithout
  cases hchoose : choose routes words with
  | none => simp
  | some p =>
    constructor
    · rintro h p ⟨⟩ method
      by_cases hmem : (method, p) ∈ routes
      · -- at the route itself, one of them would answer with it
        have hroute : answerWithout lost routes method p = .route method p ↔
            answerWithout lost' routes method p = .route method p := by
          rw [show answerWithout lost routes method p = _ from h method]
        rw [answerWithout_eq_route, answerWithout_eq_route, and_iff_right hmem,
          and_iff_right hmem] at hroute
        exact not_iff_not.mp hroute
      · exact iff_of_false (fun h => hmem (hlost _ h)) fun h => hmem (hlost' _ h)
    · intro h method
      simp only [answerWithout, h p rfl]

theorem reference_eq_referenceWithout (routes : List (Method × Pattern)) (method : Method)
    (words : List Text) : reference routes method words = referenceWithout none routes method words := by
  unfold reference referenceWithout
  split
  · rfl
  · exact (answerWithout_eq (fun _ h => absurd h (Option.not_mem_none _)) routes method).symm

section Limit

variable {app : App H M}

/-- The route that is never chosen, where a request path selects its template. -/
def App.Unanswered (legal : UInt8 → Bool) (app : App H M) : Set (Method × Pattern) :=
  { route | route ∈ app.lost ∧ ∃ path : RequestPath legal, Clean path.text ∧
      choose app.routes (segments path.text) = some route.2 }

theorem mem_routes_of_lost : ∀ route ∈ app.lost, route ∈ app.routes :=
  fun _ => List.mem_of_getElem?

/-- With at most `u32::MAX` routes, all of them are answered. -/
theorem unanswered_of_length (legal : UInt8 → Bool) (h : app.metadata.length ≤ u32Max) :
    app.Unanswered legal = ∅ := by
  have hlost : app.lost = none := by
    rw [App.lost, App.routes, List.getElem?_eq_none_iff, List.length_map]
    exact h
  ext route
  rw [App.Unanswered, Set.mem_ofPred_eq, hlost]
  exact iff_of_false (fun h => by cases h.1) (Set.notMem_empty route)

end Limit

/-- **Routing equals its reference, except for the last identifier.** For an application whose
    templates have no empty interior segment: dispatch answers every clean request path as the
    reference does exactly when no request path selects the template of a route with the identifier
    `u32::MAX`; and another order of the same routes is answered alike exactly when it leaves the
    same route unanswered, or none. -/
theorem dispatch_eq_reference_iff (legal : UInt8 → Bool) {p : Program H M} {built : App H M}
    {validation : Option BuildError} {document page : H}
    (hbuild : p.build validation document page = .ok built) (hclean : built.CleanTemplates) :
    ((∀ (method : Method) (path : RequestPath legal), Clean path.text →
        built.answer (built.freeze.dispatch method path.text) =
          reference built.routes method (segments path.text)) ↔
      built.Unanswered legal = ∅) ∧
    ∀ (q : Program H M) (other : App H M) (validation : Option BuildError) (document page : H),
      q.build validation document page = .ok other → other.CleanTemplates →
      other.routes.Perm built.routes →
        ((∀ (method : Method) (path : RequestPath legal), Clean path.text →
            other.answer (other.freeze.dispatch method path.text) =
              built.answer (built.freeze.dispatch method path.text)) ↔
          other.Unanswered legal = built.Unanswered legal) := by
  have hc := Program.consistent_build hbuild
  have hempty : ∀ route ∈ (none : Option (Method × Pattern)), route ∈ built.routes :=
    fun route h => absurd h (Option.not_mem_none route)
  constructor
  · constructor
    · intro h
      rw [Set.eq_empty_iff_forall_notMem]
      rintro ⟨method, pattern⟩ ⟨hlost, path, hpath, hchoose⟩
      have hsame : ∀ method, referenceWithout built.lost built.routes method (segments path.text) =
          referenceWithout none built.routes method (segments path.text) := by
        intro method
        rw [← answer_dispatch hc hclean method hpath, h method path hpath,
          reference_eq_referenceWithout]
      have hnone := ((referenceWithout_eq_iff mem_routes_of_lost hempty).mp hsame pattern hchoose
        method).mp hlost
      exact Option.not_mem_none _ hnone
    · intro h method path hpath
      rw [answer_dispatch hc hclean method hpath, reference_eq_referenceWithout]
      refine (referenceWithout_eq_iff mem_routes_of_lost hempty).mpr ?_ method
      intro pattern hchoose method
      refine iff_of_false (fun hlost => ?_) (Option.not_mem_none _)
      rw [Set.eq_empty_iff_forall_notMem] at h
      exact h (method, pattern) ⟨hlost, path, hpath, hchoose⟩
  · intro q other validation' document' page' hother hclean' hperm
    have hc' := Program.consistent_build hother
    have hroutes : ∀ route, route ∈ other.routes ↔ route ∈ built.routes := fun _ => hperm.mem_iff
    have hlost' : ∀ route ∈ other.lost, route ∈ built.routes :=
      fun route hroute => (hroutes route).mp (mem_routes_of_lost route hroute)
    -- both are the reference on the same routes, without the one that is lost
    have hanswers : ∀ path : RequestPath legal, Clean path.text →
        ((∀ method, other.answer (other.freeze.dispatch method path.text) =
            built.answer (built.freeze.dispatch method path.text)) ↔
          ∀ pattern, choose built.routes (segments path.text) = some pattern →
            ∀ method, (method, pattern) ∈ other.lost ↔ (method, pattern) ∈ built.lost) := by
      intro path hpath
      rw [← referenceWithout_eq_iff hlost' mem_routes_of_lost]
      refine forall_congr' fun method => ?_
      rw [answer_dispatch hc' hclean' method hpath, answer_dispatch hc hclean method hpath,
        referenceWithout_congr hroutes]
    have hchoose : ∀ words, choose other.routes words = choose built.routes words :=
      fun words => choose_congr hroutes words
    constructor
    · intro h
      ext ⟨method, pattern⟩
      simp only [App.Unanswered, Set.mem_ofPred_eq, hchoose]
      refine and_congr_left ?_
      rintro ⟨path, hpath, hselects⟩
      exact (hanswers path hpath).mp (fun method => h method path hpath) pattern hselects method
    · intro h method path hpath
      refine (hanswers path hpath).mpr ?_ method
      intro pattern hselects method
      have hsame := Set.ext_iff.mp h (method, pattern)
      simp only [App.Unanswered, Set.mem_ofPred_eq, hchoose] at hsame
      have hreached : ∃ path : RequestPath legal, Clean path.text ∧
          choose built.routes (segments path.text) = some pattern := ⟨path, hpath, hselects⟩
      rwa [and_iff_left hreached, and_iff_left hreached] at hsame

/-- A static route, and a capture next to it. -/
def overlappingExample : Program Unit Unit :=
  .call (.route .get (str "/users/{id}") handler)
    (.call (.route .post (str "/users/self") handler) .done)
where
  handler : Handler Unit :=
    { call := (), zero := false, needsBody := false, needsParams := false, needsCapture := true }

def overlappingBuilt : App Unit Unit :=
  returned (overlappingExample.build none () ()) (by decide +kernel)

def currentUser : RequestPath httpLegal :=
  { text := str "/users/self", isRequestPath := by decide +kernel, length_le := by decide +kernel }

theorem dispatch_eq_reference_iff_overlapping :
    overlappingBuilt.answer (overlappingBuilt.freeze.dispatch .get currentUser.text) =
      reference overlappingBuilt.routes .get (segments currentUser.text) :=
  ((dispatch_eq_reference_iff httpLegal (p := overlappingExample) (eq_returned (by decide +kernel))
    (by decide +kernel : overlappingBuilt.CleanTemplates)).1.mpr
      (unanswered_of_length httpLegal (by decide +kernel))) .get currentUser (by decide +kernel)

/-! ## Registering 2^32 routes -/

/-- A slot without a route takes one, while the identifiers last. -/
theorem RouteSet.exists_insert {set : RouteSet} {method : Method} {slot : Fin 7} {route : ℕ}
    (hslot : methodSlot method = some slot) (hroute : route ≤ u32Max)
    (hfree : set.routes[slot.val] = RouteId.none) :
    ∃ set', set.insert method route = .ok set' := by
  simp [RouteSet.insert, hslot, RouteId.new, check, hroute, hfree, Bind.bind, Except.bind, pure,
    Except.pure]

/-- A number below `16 ^ width` in so many letters, from `a` to `p`. -/
def code : ℕ → ℕ → Text
  | 0, _ => []
  | width + 1, n => code width (n / 16) ++ [0x61 + UInt8.ofNat (n % 16)]

@[simp] theorem length_code (width n : ℕ) : (code width n).length = width := by
  induction width generalizing n with
  | zero => rfl
  | succ width ih => rw [code, List.length_append, ih, List.length_singleton]

theorem mem_code {width n : ℕ} {b : UInt8} (h : b ∈ code width n) :
    ∃ digit < 16, b = 0x61 + UInt8.ofNat digit := by
  induction width generalizing n with
  | zero => cases h
  | succ width ih =>
    rcases List.mem_append.mp h with h | h
    · exact ih h
    · exact ⟨n % 16, Nat.mod_lt _ (by decide), List.mem_singleton.mp h⟩

/-- A byte that is none of the letters is in no code. -/
theorem notMem_code {b : UInt8} (h : ∀ digit < 16, b ≠ 0x61 + UInt8.ofNat digit) (width n : ℕ) :
    b ∉ code width n := by
  intro hmem
  obtain ⟨digit, hdigit, heq⟩ := mem_code hmem
  exact h digit hdigit heq

theorem digit_injective : ∀ i < 16, ∀ j < 16,
    (0x61 + UInt8.ofNat i : UInt8) = 0x61 + UInt8.ofNat j → i = j := by decide

/-- Different numbers have different codes, if there are enough letters. -/
theorem code_injective {width : ℕ} : ∀ {n m : ℕ}, n < 16 ^ width → m < 16 ^ width →
    code width n = code width m → n = m := by
  induction width with
  | zero =>
    intro n m hn hm _
    omega
  | succ width ih =>
    intro n m hn hm h
    obtain ⟨hinit, hlast⟩ := List.append_inj h (by rw [length_code, length_code])
    rw [Nat.pow_succ] at hn hm
    have hdiv := ih (Nat.div_lt_of_lt_mul (by omega)) (Nat.div_lt_of_lt_mul (by omega)) hinit
    have hmod := digit_injective _ (Nat.mod_lt n (by decide)) _ (Nat.mod_lt m (by decide))
      (List.singleton_inj.mp hlast)
    omega

/-- `/`, and eight letters. -/
def codePath (n : ℕ) : Text := slash :: code 8 n

/-- Static routes with a code each: `count` of them, from `codePath start` on. -/
def codeRoutes : ℕ → ℕ → Program Unit Unit
  | 0, _ => .done
  | count + 1, start => .call (.static (codePath start) ()) (codeRoutes count (start + 1))

theorem isToken_code (n : ℕ) : Tokens.IsToken slash (code 8 n) := by
  refine ⟨?_, notMem_code (by decide) 8 n⟩
  rw [← List.length_pos_iff, length_code]
  exact Nat.zero_lt_succ _

theorem segments_codePath (n : ℕ) : segments (codePath n) = [code 8 n] := by
  have h := Tokens.tokens_of_isToken (isToken_code n)
  simpa [codePath, segments] using h

theorem clean_codePath (n : ℕ) : Clean (codePath n) := by
  have hword : ∀ t ∈ [code 8 n], Tokens.IsToken slash t := by simpa using isToken_code n
  have h := Tokens.canon_head_and_double hword
  simpa [Tokens.canon, Clean, codePath] using h

theorem isRequestPath_codePath (n : ℕ) : IsRequestPath httpLegal (codePath n) := by
  refine ⟨rfl, fun b hb => ?_⟩
  rcases List.mem_cons.mp hb with rfl | hb
  · decide
  · obtain ⟨digit, hdigit, rfl⟩ := mem_code hb
    exact (by decide : ∀ digit < 16, httpLegal (0x61 + UInt8.ofNat digit) = true) digit hdigit

theorem parseTemplate_codePath (n : ℕ) : parseTemplate (codePath n) = .ok [.static (code 8 n)] := by
  rw [parseTemplate, splitPath_eq, segments_codePath, mapM_eq_ok]
  refine .cons (parseSegment_of_plain ?_ ?_) .nil
  · exact notMem_code (by decide) 8 n
  · exact notMem_code (by decide) 8 n

theorem normalizePath_codePath (n : ℕ) : normalizePath (codePath n) = codePath n := by
  have hwords : ∀ word ∈ [code 8 n], Tokens.IsToken slash word := by simpa using isToken_code n
  have hjoined : codePath n = Tokens.joined slash [code 8 n] := by simp [codePath]
  rw [hjoined]
  exact normalizePath_joined (by simp) hwords

/-- The application after `n` of the routes. -/
structure HasCodeRoutes (app : App Unit Unit) (n : ℕ) : Prop where
  consistent : app.Consistent
  routeError : app.routeError = none
  openapi : app.openapiConfig = none
  swagger : app.swaggerConfig = none
  routes : app.routes = (List.range n).map fun i => (.get, [.literal (code 8 i)])
  template : ∀ md ∈ app.metadata, ∃ i < n, md.template = codePath i

theorem HasCodeRoutes.length {app : App Unit Unit} {n : ℕ} (h : HasCodeRoutes app n) :
    app.metadata.length = n := by
  have hlength := congrArg List.length h.routes
  rwa [App.routes, List.length_map, List.length_map, List.length_range] at hlength

theorem HasCodeRoutes.next {app : App Unit Unit} {n : ℕ} (h : HasCodeRoutes app n)
    (hn : n ≤ u32Max) :
    ∃ app', app.addStaticRoute (codePath n) () = .ok app' ∧ HasCodeRoutes app' (n + 1) := by
  have hplans : app.plans.length = n := h.consistent.length_plans.trans h.length
  -- every template so far has another code
  have hfresh : ∀ md ∈ app.metadata, md.template ≠ codePath n := by
    intro md hmd htemplate
    obtain ⟨i, hi, hmd⟩ := h.template md hmd
    have hcode : code 8 i = code 8 n := (List.cons.inj (hmd.symm.trans htemplate)).2
    have hbound : n < 16 ^ 8 := by
      simp only [u32Max] at hn
      omega
    exact absurd (code_injective (hi.trans hbound) hbound hcode) (Nat.ne_of_lt hi)
  -- so the table has no route set for the path
  have hmiss : app.staticRoutes.lookup (codePath n) = none := by
    rcases h.consistent.lookup_cases (codePath n) with ⟨_, -, -, m, hmem⟩ | ⟨hnone, -⟩
    · obtain ⟨id, hid⟩ := List.getElem?_of_mem hmem
      obtain ⟨md, hmd, -, hplace⟩ := App.metadata_of_entry hid
      unfold RouteMetadata.place at hplace
      split at hplace
      · rw [Place.table.injEq] at hplace
        exact absurd hplace (hfresh md (List.mem_of_getElem? hmd))
      · cases hplace
    · exact hnone
  -- and an empty route set takes any identifier in range
  obtain ⟨set, hset⟩ : ∃ set, RouteSet.empty.insert .get n = .ok set :=
    RouteSet.exists_insert (rfl : methodSlot .get = some 1) hn rfl
  let md : RouteMetadata :=
    { builtin := false, method := .get, template := codePath n
      segments := [.static (code 8 n)], captureNames := none }
  -- registration returns: each of its checks passes
  have hadd : app.addStaticRoute (codePath n) () = .ok
      { app with
        staticRoutes := app.staticRoutes.insert (codePath n) set
        plans := app.plans ++ [
          { handler := .static (), bodyLimit := 0, captureMode := .none, bodyMode := .none }]
        metadata := app.metadata ++ [md]
        lastRoute := some n } := by
    have hcheck : app.checkFresh .get (codePath n) = .ok () := by
      rw [App.checkFresh, check_eq_ok, List.all_eq_true]
      intro other hother
      simp [hfresh other hother]
    simp only [App.addStaticRoute, bind_eq_ok, pure_eq_ok, check_eq_ok, normalizePath_codePath]
    refine ⟨(), by simp [codePath], _, parseTemplate_codePath n, (), rfl, (), hcheck, ?_⟩
    refine ⟨{ app with
        staticRoutes := app.staticRoutes.insert (codePath n) set
        plans := app.plans ++ [
          { handler := .static (), bodyLimit := 0, captureMode := .none, bodyMode := .none }]
        metadata := app.metadata ++ [md] }, ?_, by rw [hplans]⟩
    simp only [App.push, bind_eq_ok, pure_eq_ok, App.insertRoute]
    refine ⟨{ app with staticRoutes := app.staticRoutes.insert (codePath n) set }, ?_, rfl⟩
    rw [if_pos (by rfl)]
    simp only [App.insertStatic, bind_eq_ok, pure_eq_ok]
    exact ⟨set, by rw [hmiss, hplans]; exact hset, rfl⟩
  refine ⟨_, hadd, ?_⟩
  exact
    { consistent := (App.registers_of_addStaticRoute hadd).consistent h.consistent
      routeError := h.routeError
      openapi := h.openapi
      swagger := h.swagger
      routes := by
        rw [App.routes, List.map_append, List.range_succ, List.map_append]
        exact congrArg (· ++ _) h.routes
      template := fun other hother => by
        rcases List.mem_append.mp hother with hold | hnew
        · obtain ⟨i, hi, htemplate⟩ := h.template other hold
          exact ⟨i, Nat.lt_succ_of_lt hi, htemplate⟩
        · rw [List.mem_singleton.mp hnew]
          exact ⟨n, Nat.lt_succ_self n, rfl⟩ }

theorem HasCodeRoutes.run (count : ℕ) {start : ℕ} {app : App Unit Unit} (h : HasCodeRoutes app start)
    (hbound : start + count ≤ u32Max + 1) :
    ∃ app', (codeRoutes count start).run none app = .ok app' ∧
      HasCodeRoutes app' (start + count) := by
  induction count generalizing start app with
  | zero => exact ⟨app, rfl, h⟩
  | succ count ih =>
    obtain ⟨app₁, hadd, h₁⟩ := h.next (by omega)
    obtain ⟨app', hrun, h'⟩ := ih h₁ (by omega)
    refine ⟨app', ?_, by rwa [Nat.add_comm count, ← Nat.add_assoc]⟩
    simp only [codeRoutes, Program.run, bind_eq_ok]
    exact ⟨app₁, hadd, hrun⟩

/-- The registration of 2^32 static routes with templates of nine bytes is accepted, and then one
    of them is not answered. -/
theorem not_dispatch_eq_reference :
    ∃ built, (codeRoutes (2 ^ 32) 0).build none () () = .ok built ∧ built.CleanTemplates ∧
      (∀ md ∈ built.metadata, md.template.length = 9) ∧
      ∃ (method : Method) (path : RequestPath httpLegal), Clean path.text ∧
        built.answer (built.freeze.dispatch method path.text) ≠
          reference built.routes method (segments path.text) := by
  have hnew : HasCodeRoutes App.new 0 :=
    { consistent := App.consistent_new
      routeError := rfl
      openapi := rfl
      swagger := rfl
      routes := rfl
      template := by simp [App.new] }
  obtain ⟨built, hrun, h⟩ := hnew.run (2 ^ 32) (by simp [u32Max])
  have hclean : built.CleanTemplates := fun md hmd => by
    obtain ⟨i, -, htemplate⟩ := h.template md hmd
    rw [htemplate]
    exact clean_codePath i
  have hbuild : (codeRoutes (2 ^ 32) 0).build none () () = .ok built := by
    simp only [Program.build, bind_eq_ok, App.orStop_eq_ok]
    refine ⟨built, hrun, ?_⟩
    simp [App.install, h.routeError, h.openapi, h.swagger, App.installPage, Bind.bind, Except.bind]
  have hlength : ∀ n, (codePath n).length = 9 := fun n => by rw [codePath, List.length_cons, length_code]
  refine ⟨built, hbuild, hclean, ?_, .get,
    { text := codePath u32Max
      isRequestPath := isRequestPath_codePath u32Max
      length_le := by rw [hlength, maxPathLength]; decide }, clean_codePath u32Max, ?_⟩
  · intro md hmd
    obtain ⟨i, -, htemplate⟩ := h.template md hmd
    rw [htemplate, hlength]
  -- the last route is lost, and its template is the only one that matches its own path
  have hlost : built.lost = some (.get, [.literal (code 8 u32Max)]) := by
    rw [App.lost, h.routes, List.getElem?_map, List.getElem?_range (by simp [RouteId.none, u32Max])]
    rfl
  have hmem : (Method.get, [Piece.literal (code 8 u32Max)]) ∈ built.routes :=
    mem_routes_of_lost _ hlost
  have haccepts : Accepts validPercentEncoding [.literal (code 8 u32Max)] [code 8 u32Max] :=
    accepts_cons.mpr ⟨by simp [Piece.accepts], accepts_nil⟩
  have hchoose : choose built.routes [code 8 u32Max] = some [.literal (code 8 u32Max)] :=
    choose_eq_some_iff.mpr
      { mem := ⟨.get, hmem⟩
        accepts := haccepts
        first := fun q _ hq => precedes_of_literals (by simp) haccepts hq }
  rw [answer_dispatch h.consistent hclean .get (clean_codePath u32Max), segments_codePath,
    referenceWithout, reference, hchoose]
  simp only [answerAt, if_pos hmem]
  intro hanswer
  exact (answerWithout_eq_route.mp hanswer).2 hlost

end OasRs
