import OasRs.Text

/-!
# Paths and Templates

A model of `src/path.rs`: the iterator `PathParts` that every component of the
router reads paths with, route templates, and normalization.

## Main results

- `values_toList`: the iterator yields the non-empty runs between slashes
- `toList_slice`: the offsets it reports are those of the values
- `normalizeRequestPath_eq_canon`: a path without repeated slashes is determined by
  its segments
-/

namespace OasRs

open Lib.Tokens (tokens)

/-! ## Panics -/

/-- The assertions that registration can fail, each with its message. -/
inductive Panic where
  /-- "route path {path:?} must start with '/'" -/
  | routePath (path : Text)
  /-- "invalid route template" -/
  | routeTemplate
  /-- "invalid scope pattern: {pattern:?}" -/
  | scopePattern (pattern : Text)
  /-- "duplicate route" -/
  | duplicateRoute
  /-- "static response routes cannot contain captures" -/
  | staticCaptures
  /-- "duplicate route pattern and method" -/
  | duplicatePattern
  /-- "unsupported route method" -/
  | unsupportedMethod
  /-- "route count exceeds u32::MAX" -/
  | routeCount
  /-- "dynamic trie exceeds u32::MAX nodes" -/
  | trieNodes
  /-- "max_body_size must be greater than zero" -/
  | bodyLimitZero
  /-- "max_body_size must fit in a u32" -/
  | bodyLimitRange
  deriving DecidableEq, Repr

/-- `assert!` -/
def check (condition : Bool) (panic : Panic) : Except Panic Unit :=
  if condition then .ok () else .error panic

/-- A computation that returns has returned at each step. -/
theorem bind_eq_ok {ε α β : Type} {x : Except ε α} {f : α → Except ε β} {b : β} :
    (x >>= f) = .ok b ↔ ∃ a, x = .ok a ∧ f a = .ok b := by
  cases x with
  | error e => simp [Bind.bind, Except.bind]
  | ok a => simp [Bind.bind, Except.bind]

theorem pure_eq_ok {ε α : Type} {a b : α} : (pure a : Except ε α) = .ok b ↔ a = b := by
  simp [pure, Except.pure]

@[simp] theorem check_eq_ok {condition : Bool} {panic : Panic} {u : Unit} :
    check condition panic = .ok u ↔ condition = true := by
  cases condition <;> simp [check]

/-- The value of a computation that returns. -/
def returned {ε α : Type} : (x : Except ε α) → x.isOk = true → α
  | .ok a, _ => a

theorem eq_returned {ε α : Type} {x : Except ε α} (h : x.isOk = true) : x = .ok (returned x h) := by
  cases x with
  | error e => cases h
  | ok a => rfl

/-! ## `PathParts` -/

/-- `PathPart`: a segment and where it stands in the path. -/
structure PathPart where
  value : Text
  start : ℕ
  stop : ℕ
  deriving DecidableEq, Repr

/-- `PathParts` -/
structure PathParts where
  path : Text
  next : ℕ

namespace PathParts

/-- `PathParts::new` -/
def new (path : Text) : PathParts := { path, next := 0 }

/-- `&path[start..stop]` -/
def slice (path : Text) (start stop : ℕ) : Text := (path.take stop).drop start

/-- `Iterator::next`: skip slashes, then read up to the next one. -/
def advance (parts : PathParts) : Option (PathPart × PathParts) :=
  let rest := parts.path.drop parts.next
  let start := parts.next + (rest.takeWhile (· == slash)).length
  if parts.path.length ≤ start then none
  else
    let stop := start + ((parts.path.drop start).takeWhile (· != slash)).length
    some ({ value := slice parts.path start stop, start, stop }, { parts with next := stop })

/-- Up to `fuel` items of the iterator. -/
def collect : ℕ → PathParts → List PathPart
  | 0, _ => []
  | fuel + 1, parts =>
    match parts.advance with
    | none => []
    | some (part, parts) => part :: collect fuel parts

/-- The items of the iterator; every one takes at least a byte of the path. -/
def toList (parts : PathParts) : List PathPart :=
  collect (parts.path.length - parts.next) parts

end PathParts

/-- The parts of a path. -/
def partsOf (path : Text) : List PathPart := (PathParts.new path).toList

/-- `split_path` -/
def splitPath (path : Text) : List Text := (partsOf path).map PathPart.value

/-! ## Templates -/

/-- `Segment` -/
inductive Segment where
  | static (value : Text)
  | capture (name : Text)
  deriving DecidableEq, Repr

/-- Whether a template part is written `{..}`. -/
def isBraced (part : Text) : Bool :=
  part.head? == some openBrace && part.getLast? == some closeBrace

/-- Whether a template part contains a brace. -/
def hasBrace (part : Text) : Bool := part.contains openBrace || part.contains closeBrace

/-- One segment of a template. -/
def parseSegment (part : Text) : Except Panic Segment := do
  if isBraced part then
    check (2 < part.length) .routeTemplate
    return .capture (PathParts.slice part 1 (part.length - 1))
  else
    check (!hasBrace part) .routeTemplate
    return .static part

/-- A segment of a template is the part itself or a capture. -/
theorem parseSegment_ok {part : Text} {segment : Segment} (h : parseSegment part = .ok segment) :
    segment = .static part ∨ ∃ name, segment = .capture name := by
  unfold parseSegment at h
  by_cases hbraced : isBraced part = true
  · rw [if_pos hbraced] at h
    simp only [bind_eq_ok, pure_eq_ok] at h
    obtain ⟨_, -, rfl⟩ := h
    exact .inr ⟨_, rfl⟩
  · rw [if_neg hbraced] at h
    simp only [bind_eq_ok, pure_eq_ok] at h
    obtain ⟨_, -, rfl⟩ := h
    exact .inl rfl

/-- A part without braces is a segment of its own. -/
theorem parseSegment_of_plain {part : Text} (hopen : openBrace ∉ part) (hclose : closeBrace ∉ part) :
    parseSegment part = .ok (.static part) := by
  have hbraced : isBraced part = false := by
    cases part with
    | nil => rfl
    | cons byte rest =>
      have hhead : byte ≠ openBrace := fun h => hopen (h ▸ List.mem_cons_self)
      simp [isBraced, hhead]
  have hbrace : hasBrace part = false := by
    simp [hasBrace, List.contains_eq_mem, hopen, hclose]
  simp [parseSegment, hbraced, hbrace, check, Bind.bind, Except.bind, pure, Except.pure]

/-- `parse_template` -/
def parseTemplate (path : Text) : Except Panic (List Segment) := (splitPath path).mapM parseSegment

/-! ## Normalization -/

/-- `normalize_path` -/
def normalizePath (path : Text) : Text :=
  if path.isEmpty then [slash] else if 1 < path.length then trimEnd path else path

/-- `normalize_request_path` -/
def normalizeRequestPath (path : Text) : Text :=
  if 1 < path.length then trimEnd path else path

/-! ## What the iterator yields -/

namespace PathParts

private theorem drop_takeWhile_length {α : Type*} (p : α → Bool) (l : List α) :
    l.drop (l.takeWhile p).length = l.dropWhile p := by
  calc l.drop (l.takeWhile p).length
      = (l.takeWhile p ++ l.dropWhile p).drop (l.takeWhile p).length := by
        rw [List.takeWhile_append_dropWhile]
    _ = l.dropWhile p := List.drop_left

/-- One step of the iterator, seen on the bytes that are left. -/
theorem advance_cases (parts : PathParts) :
    (parts.advance = none ∧ tokens slash (parts.path.drop parts.next) = []) ∨
    ∃ part, parts.advance = some (part, { parts with next := part.stop }) ∧
      part.value = slice parts.path part.start part.stop ∧
      parts.next < part.stop ∧ part.stop ≤ parts.path.length ∧
      tokens slash (parts.path.drop parts.next) =
        part.value :: tokens slash (parts.path.drop part.stop) := by
  obtain ⟨path, next⟩ := parts
  simp only
  let start := next + ((path.drop next).takeWhile (· == slash)).length
  let word := (path.drop start).takeWhile (· != slash)
  -- skip the slashes, then take what is before the next one
  have hstart : (path.drop next).dropWhile (· == slash) = path.drop start := by
    rw [← drop_takeWhile_length, List.drop_drop]
  have hstop : (path.drop start).dropWhile (· != slash) = path.drop (start + word.length) := by
    rw [← drop_takeWhile_length, List.drop_drop]
  rcases Lib.Tokens.tokens_span (s := slash) (path.drop next) with ⟨hnil, htok⟩ | ⟨hword, htok⟩
  · left
    rw [hstart, List.drop_eq_nil_iff] at hnil
    exact ⟨if_pos hnil, htok⟩
  · right
    rw [hstart] at hword htok
    rw [hstop] at htok
    -- a part is not empty, and ends within the path
    have hpos : 0 < word.length := List.length_pos_of_ne_nil hword.1
    have hlen : word.length ≤ path.length - start := by
      rw [← List.length_drop]
      exact (List.takeWhile_prefix _).length_le
    have hvalue : slice path start (start + word.length) = word := by
      rw [slice, List.drop_take, Nat.add_sub_cancel_left]
      exact (List.prefix_iff_eq_take.mp (List.takeWhile_prefix _)).symm
    refine ⟨{ value := word, start, stop := start + word.length }, ?_, hvalue.symm, ?_, ?_, htok⟩
    · show (if path.length ≤ start then none else
        some (PathPart.mk (slice path start (start + word.length)) start (start + word.length),
          PathParts.mk path (start + word.length))) = _
      rw [if_neg (by omega), hvalue]
    · simp only [start]
      omega
    · simp only
      omega

theorem collect_of_le (fuel : ℕ) (parts : PathParts)
    (hfuel : parts.path.length - parts.next ≤ fuel) : collect fuel parts = parts.toList := by
  rw [toList]
  induction hn : parts.path.length - parts.next using Nat.strong_induction_on
    generalizing parts fuel with
  | _ n ih =>
    subst hn
    rcases advance_cases parts with ⟨hnone, -⟩ | ⟨part, hsome, -, hlt, hle, -⟩
    · have hstuck : ∀ fuel, collect fuel parts = [] := by
        intro fuel
        cases fuel with
        | zero => rfl
        | succ fuel => simp only [collect, hnone]
      rw [hstuck, hstuck]
    · -- Both fuels are positive, and what they leave is enough for the rest.
      obtain ⟨fuel, rfl⟩ : ∃ k, fuel = k + 1 := ⟨fuel - 1, by omega⟩
      obtain ⟨rest, hrest⟩ : ∃ k, parts.path.length - parts.next = k + 1 :=
        ⟨parts.path.length - parts.next - 1, by omega⟩
      simp only [hrest, collect, hsome]
      congr 1
      rw [ih (parts.path.length - part.stop) (by omega) fuel { parts with next := part.stop }
          (by simp only; omega) rfl,
        ← ih (parts.path.length - part.stop) (by omega) rest
          { parts with next := part.stop } (by simp only; omega) rfl]

/-- The list of items, one step at a time. -/
theorem toList_eq (parts : PathParts) :
    parts.toList = match parts.advance with
      | none => []
      | some (part, parts) => part :: parts.toList := by
  rw [← collect_of_le (parts.path.length - parts.next + 1) parts (Nat.le_succ _), collect]
  rcases advance_cases parts with ⟨hnone, -⟩ | ⟨part, hsome, -, hlt, hle, -⟩
  · simp only [hnone]
  · simp only [hsome]
    rw [collect_of_le]
    simp only
    omega

/-- Induction along the items. -/
theorem toList_induction {motive : PathParts → List PathPart → Prop}
    (done : ∀ parts, tokens slash (parts.path.drop parts.next) = [] → motive parts [])
    (item : ∀ (parts : PathParts) (part : PathPart) (rest : List PathPart),
      part.value = slice parts.path part.start part.stop → part.stop ≤ parts.path.length →
      tokens slash (parts.path.drop parts.next) =
        part.value :: tokens slash (parts.path.drop part.stop) →
      motive { parts with next := part.stop } rest → motive parts (part :: rest))
    (parts : PathParts) : motive parts parts.toList := by
  induction hn : parts.path.length - parts.next using Nat.strong_induction_on
    generalizing parts with
  | _ n ih =>
    subst hn
    rw [toList_eq]
    rcases advance_cases parts with ⟨hnone, htok⟩ | ⟨part, hsome, hvalue, hlt, hle, htok⟩
    · simpa only [hnone] using done parts htok
    · simp only [hsome]
      exact item parts part _ hvalue hle htok
        (ih _ (by simp only; omega) { parts with next := part.stop } rfl)

/-- The iterator yields the non-empty runs between slashes. -/
theorem values_toList (parts : PathParts) :
    parts.toList.map PathPart.value = tokens slash (parts.path.drop parts.next) := by
  refine toList_induction (motive := fun parts list =>
    list.map PathPart.value = tokens slash (parts.path.drop parts.next)) ?_ ?_ parts
  · intro parts htok
    rw [htok, List.map_nil]
  · intro parts part rest _ _ htok ih
    rw [List.map_cons, htok, ih]

/-- The offsets of an item are those of its value. -/
theorem toList_slice (parts : PathParts) : ∀ part ∈ parts.toList,
    part.value = slice parts.path part.start part.stop ∧ part.stop ≤ parts.path.length := by
  refine toList_induction (motive := fun parts list => ∀ part ∈ list,
    part.value = slice parts.path part.start part.stop ∧ part.stop ≤ parts.path.length) ?_ ?_ parts
  · intro parts _ part h
    simp at h
  · intro parts part rest hvalue hle _ ih other h
    rcases List.mem_cons.mp h with rfl | h
    · exact ⟨hvalue, hle⟩
    · exact ih other h

end PathParts

/-! ## Segments of a path -/

/-- The segments of a path: its non-empty runs between slashes. -/
abbrev segments (path : Text) : List Text := tokens slash path

theorem splitPath_eq (path : Text) : splitPath path = segments path := by
  rw [splitPath, partsOf, PathParts.values_toList]
  rfl

theorem values_partsOf (path : Text) : (partsOf path).map PathPart.value = segments path :=
  splitPath_eq path

/-- Where a part of a path stands. -/
theorem slice_partsOf {path : Text} {part : PathPart} (h : part ∈ partsOf path) :
    PathParts.slice path part.start part.stop = part.value ∧ part.stop ≤ path.length :=
  let h := PathParts.toList_slice _ _ h
  ⟨h.1.symm, h.2⟩

theorem segments_normalizeRequestPath (path : Text) :
    segments (normalizeRequestPath path) = segments path := by
  rw [normalizeRequestPath]
  split
  · exact tokens_trimEnd path
  · rfl

theorem segments_normalizePath (path : Text) : segments (normalizePath path) = segments path := by
  rw [normalizePath]
  split
  · rename_i h
    rw [List.isEmpty_iff.mp h]
    rfl
  · split
    · exact tokens_trimEnd path
    · rfl

/-- A normalized path is not normalized any further. -/
theorem normalizeRequestPath_normalizePath (path : Text) :
    normalizeRequestPath (normalizePath path) = normalizePath path := by
  have htwice : ∀ path : Text, normalizeRequestPath (normalizeRequestPath path) =
      normalizeRequestPath path := by
    intro path
    by_cases hlen : 1 < path.length
    · have hpath : normalizeRequestPath path = trimEnd path := if_pos hlen
      rw [hpath, normalizeRequestPath]
      split
      · exact List.rdropWhile_idempotent _ _
      · rfl
    · have hpath : normalizeRequestPath path = path := if_neg hlen
      rw [hpath, hpath]
  cases path with
  | nil => rfl
  | cons a rest => exact htwice (a :: rest)

/-! ## Request paths -/

/-- The bytes that the `http` crate accepts in a path. -/
def httpLegal (b : UInt8) : Bool :=
  b = 0x21 || b = 0x22 || (0x24 ≤ b && b ≤ 0x3B) || b = 0x3D || (0x40 ≤ b && b ≤ 0x5F) || 0x61 ≤ b

/-- The text of a request path, for the bytes that are accepted in one. -/
def IsRequestPath (legal : UInt8 → Bool) (path : Text) : Prop :=
  path.head? = some slash ∧ ∀ b ∈ path, legal b = true

instance (legal : UInt8 → Bool) (path : Text) : Decidable (IsRequestPath legal path) :=
  inferInstanceAs (Decidable (_ ∧ _))

/-- The `http` crate accepts a `Uri` of at most `u16::MAX - 1` bytes. -/
def maxPathLength : ℕ := 65534

/-- The path of a request, for the bytes that are accepted in one. -/
structure RequestPath (legal : UInt8 → Bool) where
  text : Text
  isRequestPath : IsRequestPath legal text
  length_le : text.length ≤ maxPathLength

/-- A path that starts with a slash and has no two slashes in a row. -/
def Clean (path : Text) : Prop := path.head? = some slash ∧ ¬ [slash, slash] <:+: path

instance (path : Text) : Decidable (Clean path) := inferInstanceAs (Decidable (_ ∧ _))

/-- A clean path is normalized to the canonical path of its segments. -/
theorem normalizeRequestPath_eq_canon {path : Text} (h : Clean path) :
    normalizeRequestPath path = Lib.Tokens.canon slash (segments path) := by
  rw [normalizeRequestPath]
  split
  · rename_i hlen
    exact Lib.Tokens.rdropWhile_eq_canon h.1 h.2 hlen
  · rename_i hlen
    match path, h.1, hlen with
    | [], hhead, _ => simp at hhead
    | [a], hhead, _ =>
      rw [List.head?_cons, Option.some.injEq] at hhead
      rw [hhead]
      rfl
    | _ :: _ :: _, _, hlen => simp at hlen

theorem segments_joined {words : List Text} (h : ∀ word ∈ words, Lib.Tokens.IsToken slash word) :
    segments (Lib.Tokens.joined slash words) = words :=
  Lib.Tokens.tokens_joined h

/-- Words after single slashes are a normalized template. -/
theorem normalizePath_joined {words : List Text} (hne : words ≠ [])
    (h : ∀ word ∈ words, Lib.Tokens.IsToken slash word) :
    normalizePath (Lib.Tokens.joined slash words) = Lib.Tokens.joined slash words := by
  have hcanon : Lib.Tokens.canon slash words = Lib.Tokens.joined slash words :=
    if_neg (by simpa using hne)
  have hclean : Clean (Lib.Tokens.joined slash words) :=
    hcanon ▸ Lib.Tokens.canon_head_and_double h
  have hnormal := normalizeRequestPath_eq_canon hclean
  rw [segments_joined h, hcanon] at hnormal
  obtain ⟨word, words, rfl⟩ := List.exists_cons_of_ne_nil hne
  rw [normalizePath, if_neg (by simp)]
  exact hnormal

end OasRs
