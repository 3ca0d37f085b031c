import OasRs.Escape
import OasRs.Http
import OasRs.Lib.Failing
import OasRs.Lib.Pairs
import OasRs.Lib.Utf8

/-!
# Static Files

`ServeDir` of `src/static_files.rs` up to the file that it opens: which segments of a path
it takes, where the resolved path may lie, and where a directory without a slash is sent.
The file system is a parameter, and so is what is done with the file.

## Overview

- `Config.relative`, `Config.resolve`, `redirectTo`, `Config.handle`: the middleware
- `relative_safe`: the segments below the prefix
- `resolve_inside`: the resolved path
- `serveDir_safe`: nothing outside the root, and no redirect to another site
-/

namespace OasRs

open Lib (mapM_eq_some forall₂_exists toOption_eq_some)
open Lib.Pairs (cut cut_append_cons cut_of_notMem)
open Lib.Tokens (IsToken)
open Lib.Utf8 (encode lossy notMem_encode)

/-! ## Text -/

/-- `b'\\'` -/
def backslash : UInt8 := 0x5C

/-- `b'?'` -/
def questionMark : UInt8 := 0x3F

/-- `b'#'` -/
def numberSign : UInt8 := 0x23

/-- `char::is_control` -/
def isControl (c : Char) : Bool := c.toNat ≤ 0x1F || (0x7F ≤ c.toNat && c.toNat ≤ 0x9F)

/-! ## Paths of the file system -/

/-- The names of a path, from the root of the file system. -/
abbrev FilePath : Type := List Text

/-- Whether a byte separates names: on Windows a backslash does, too. -/
def isSeparator (windows : Bool) (byte : UInt8) : Bool :=
  byte == slash || (windows && byte == backslash)

/-- Whether a path stands for itself: it begins at a root, or on Windows with a drive. -/
def isRooted (windows : Bool) (path : Text) : Bool :=
  (path.head?.any (isSeparator windows)) || (windows && path[1]? == some 0x3A)

/-- One name of a path, followed from a directory. -/
def enter (path : FilePath) (name : Text) : FilePath :=
  if name = [] ∨ name = str "." then path
  else if name = str ".." then path.dropLast
  else path ++ [name]

/-- `PathBuf::push`, lexically: a path that stands for itself replaces the other. -/
def push (windows : Bool) (path : FilePath) (name : Text) : FilePath :=
  (name.splitOnP (isSeparator windows)).foldl enter (if isRooted windows name then [] else path)

/-- What `tokio::fs::metadata` tells. -/
inductive FileKind where
  | file
  | dir
  | other
  deriving DecidableEq, Repr

/-- The file system, as far as it is asked. -/
structure Disk where
  windows : Bool
  canonicalize : FilePath → Option FilePath
  metadata : FilePath → Option FileKind

/-! ## Configuration -/

/-- `Config` -/
structure Config where
  /-- the segments of the prefix -/
  mount : List Text
  /-- the canonical directory -/
  root : FilePath
  index : Option Text
  dotfiles : Bool

/-- `Resolved` -/
structure Resolved where
  path : FilePath
  metadata : FileKind
  viaDirectory : Bool
  deriving DecidableEq, Repr

namespace Config

/-- `ServeDir::new`, for a directory that is there -/
def new (mount : Text) (root : FilePath) : Config where
  mount := splitPath mount
  root := root
  index := some (str "index.html")
  dotfiles := false

/-- `index_file` -/
def indexFile (config : Config) (name : Text) : Config := { config with index := some name }

/-- `allow_dotfiles` -/
def allowDotfiles (config : Config) (allow : Bool) : Config := { config with dotfiles := allow }

/-! ## The segments below the prefix -/

/-- The check of a decoded segment. -/
def unsafeSegment (config : Config) (segment : Text) : Bool :=
  let chars := lossy segment
  segment == str "." || segment == str ".." ||
    chars.any (['/', '\\', Char.ofNat 0, ':'].contains ·) || chars.any isControl ||
    (!config.dotfiles && chars.head? == some '.')

/-- The parts behind the prefix. -/
def belowMount : List Text → List PathPart → Option (List PathPart)
  | [], parts => some parts
  | _ :: _, [] => none
  | expected :: mount, part :: parts =>
    if part.value = expected then belowMount mount parts else none

/-- One segment behind the prefix. -/
def segment (config : Config) (raw : PathPart) : Option Text := do
  let segment ← (percentDecode raw.value).toOption
  if config.unsafeSegment segment then none else some segment

/-- `Config::relative` -/
def relative (config : Config) (path : Text) : Option (List Text) :=
  (belowMount config.mount (partsOf path)).bind fun parts => parts.mapM config.segment

/-! ## The file -/

/-- Whether a name is hidden. -/
def isHidden (name : Text) : Bool := name.head? == some 0x2E

/-- `Config::contained` -/
def contained (config : Config) (disk : Disk) (path : FilePath) : Option FilePath := do
  let canonical ← disk.canonicalize path
  if config.root.isPrefixOf canonical then
    let relative := canonical.drop config.root.length
    if !config.dotfiles && relative.any isHidden then none else some canonical
  else none

/-- `Config::resolve` -/
def resolve (config : Config) (disk : Disk) (segments : List Text) : Option Resolved := do
  let path ← config.contained disk (segments.foldl (push disk.windows) config.root)
  let metadata ← disk.metadata path
  if metadata = .dir then
    let index ← config.index
    let path ← config.contained disk (push disk.windows path index)
    let metadata ← disk.metadata path
    if metadata = .file then some { path, metadata, viaDirectory := true } else none
  else if metadata = .file then some { path, metadata, viaDirectory := false }
  else none

end Config

/-! ## The redirect -/

/-- Where a directory without a slash is sent: the segments again, each with a slash behind
    it, and the query. -/
def redirectTo (path : Text) (query : Option Text) : Option Text :=
  if path.getLast? = some slash then none
  else
    let location := (partsOf path).foldl (fun location part => location ++ part.value ++ [slash])
      [slash]
    some (query.elim location fun query => location ++ questionMark :: query)

/-- The `308` response, if the location can be a header. -/
def redirectResponse (location : Text) : Option Response :=
  (HeaderValue.fromBytes location).map fun value =>
    { status := 308
      headers := (HeaderMap.empty.insert (.custom (str "location")) value).insert .contentLength
        (str "0")
      body := .full (some .new) }

namespace Config

/-- `serve`; `deliver` is what follows the redirect: opening the file and describing it. -/
def serve (config : Config) (disk : Disk) (deliver : Resolved → Option Response)
    (segments : List Text) (redirect : Option Text) : Option Response := do
  let resolved ← config.resolve disk segments
  match resolved.viaDirectory, redirect with
  | true, some location => redirectResponse location
  | _, _ => deliver resolved

/-- `ServeDir::handle` -/
def handle (config : Config) (disk : Disk) (deliver : Parts → Resolved → Option Response)
    (next : Parts → Response) (request : Parts) : Response :=
  if request.method ≠ .head ∧ request.method ≠ .get then next request
  else
    match config.relative request.path with
    | none => next request
    | some segments =>
      (config.serve disk (deliver request) segments (redirectTo request.path request.query)).getD
        (next request)

end Config

/-! ## What is safe -/

/-- A name that is no way out of a directory, on any platform. -/
def Config.SafeSegment (config : Config) (segment : Text) : Prop :=
  segment ≠ [] ∧ segment ≠ str "." ∧ segment ≠ str ".." ∧
    ∃ chars, segment = encode chars ∧
      (∀ c ∈ chars, c ≠ '/' ∧ c ≠ '\\' ∧ c ≠ Char.ofNat 0 ∧ c ≠ ':' ∧ isControl c = false) ∧
      (config.dotfiles = false → chars.head? ≠ some '.')

/-- What `Uri` promises: the path ends at the first question mark, and there is no fragment. -/
structure UriParts (request : Parts) : Prop where
  path_free : questionMark ∉ request.path ∧ numberSign ∉ request.path
  query_free : ∀ query, request.query = some query → numberSign ∉ query

/-- The path and the query of a reference. -/
def readReference (reference : Text) : Text × Option Text :=
  let reference := ((cut numberSign reference).map Prod.fst).getD reference
  match cut questionMark reference with
  | some (path, query) => (path, some query)
  | none => (reference, none)

/-- A directory redirect is sent to a location. -/
structure Config.SendsRedirect (config : Config) (disk : Disk) (request : Parts)
    (location : Text) : Prop where
  method : request.method = .head ∨ request.method = .get
  directory : ∃ segments resolved, config.relative request.path = some segments ∧
    config.resolve disk segments = some resolved ∧ resolved.viaDirectory = true
  target : redirectTo request.path request.query = some location
  header : (HeaderValue.fromBytes location).isSome = true

/-- A location on the same site, where the request is not redirected again. An empty path has
    nothing that could follow the slash. -/
def StaysOnSite (request : Parts) (location : Text) : Prop :=
  ((∃ byte rest, location = slash :: byte :: rest ∧ byte ≠ slash ∧ byte ≠ backslash) ∨
    request.path = [] ∧ location = [slash]) ∧
  ∃ path, readReference location = (path, request.query) ∧
    splitPath path = splitPath request.path ∧ path.getLast? = some slash ∧
    ∀ query, redirectTo path query = none

/-! ## Decoded segments -/

/-- Text that is UTF-8 is the bytes of characters. -/
theorem exists_encode {text : Text} (h : validUtf8 text = true) : ∃ chars, text = encode chars := by
  rw [validUtf8, decide_eq_true_iff] at h
  obtain ⟨chars, hchars⟩ := h
  have hbytes : text.toByteArray = (encode chars).toByteArray := hchars
  exact ⟨chars, by simpa using congrArg (fun array => array.data.toList) hbytes⟩

theorem percentDecode_ok {value segment : Text} (h : percentDecode value = .ok segment) :
    unescape value = .ok segment ∧ validUtf8 segment = true := by
  rw [percentDecode, bind_eq_ok] at h
  obtain ⟨output, houtput, h⟩ := h
  by_cases hvalid : validUtf8 output = true
  · rw [if_pos hvalid, Except.ok.injEq] at h
    subst h
    exact ⟨houtput, hvalid⟩
  · rw [if_neg hvalid] at h
    cases h

/-- Decoding never makes a text empty. -/
theorem unescape_ne_nil {value segment : Text} (h : unescape value = .ok segment)
    (hne : value ≠ []) : segment ≠ [] := by
  rcases unescape_cases h with ⟨rfl, -⟩ | ⟨_, _, _, _, _, _, -, -, -, rfl, -⟩ |
    ⟨_, _, _, -, -, rfl, -⟩
  · exact (hne rfl).elim
  · exact List.cons_ne_nil _ _
  · exact List.cons_ne_nil _ _

/-- A backslash that is written is one that is decoded. -/
theorem backslash_mem_unescape {value segment : Text} (h : unescape value = .ok segment)
    (hmem : backslash ∈ value) : backslash ∈ segment := by
  have hdigit : ∀ {byte n : UInt8}, hex byte = some n → backslash ≠ byte := by
    rintro byte n hbyte rfl
    rw [show hex backslash = none from by decide] at hbyte
    cases hbyte
  induction segment generalizing value with
  | nil =>
    rcases unescape_cases h with ⟨rfl, -⟩ | ⟨_, _, _, _, _, _, -, -, -, hd, -⟩ |
      ⟨_, _, _, -, -, hd, -⟩
    · cases hmem
    · cases hd
    · cases hd
  | cons byte segment ih =>
    rcases unescape_cases h with ⟨-, hd⟩ | ⟨high, low, n, m, rest, d, rfl, hhigh, hlow, hd, hrest⟩ |
      ⟨b, rest, d, rfl, -, hd, hrest⟩
    · cases hd
    · obtain ⟨-, rfl⟩ := List.cons.inj hd
      -- the bytes of an escape are no backslashes
      simp only [List.mem_cons, hdigit hhigh, hdigit hlow, false_or] at hmem
      rcases hmem with hpercent | hmem
      · exact absurd hpercent (by decide)
      · exact List.mem_cons_of_mem _ (ih hrest hmem)
    · obtain ⟨rfl, rfl⟩ := List.cons.inj hd
      rcases List.mem_cons.mp hmem with rfl | hmem
      · exact List.mem_cons_self
      · exact List.mem_cons_of_mem _ (ih hrest hmem)

namespace Config

variable {config : Config} {disk : Disk}

/-- A segment that passes the check is safe. -/
theorem safeSegment_of_check {segment : Text} (hvalid : validUtf8 segment = true)
    (hne : segment ≠ []) (h : config.unsafeSegment segment = false) :
    config.SafeSegment segment := by
  obtain ⟨chars, rfl⟩ := exists_encode hvalid
  simp only [unsafeSegment, Lib.Utf8.lossy_encode, Bool.or_eq_false_iff, List.any_eq_false,
    beq_eq_false_iff_ne, Bool.and_eq_false_iff] at h
  obtain ⟨⟨⟨⟨hdot, hdots⟩, hfree⟩, hcontrol⟩, hhidden⟩ := h
  refine ⟨hne, hdot, hdots, chars, rfl, fun c hc => ?_, fun hdotfiles => ?_⟩
  · have hlisted := hfree c hc
    simp only [List.contains_eq_mem, List.mem_cons, List.not_mem_nil, or_false, decide_eq_true_eq,
      not_or] at hlisted
    exact ⟨hlisted.1, hlisted.2.1, hlisted.2.2.1, hlisted.2.2.2,
      Bool.eq_false_iff.mpr (hcontrol c hc)⟩
  · simpa [hdotfiles] using hhidden

/-- What is known of a segment that is taken. -/
theorem segment_eq_some {raw : PathPart} {segment : Text} (h : config.segment raw = some segment)
    (hne : raw.value ≠ []) : config.SafeSegment segment ∧ unescape raw.value = .ok segment := by
  rw [Config.segment, Option.bind_eq_bind, Option.bind_eq_some_iff] at h
  obtain ⟨decoded, hdecoded, h⟩ := h
  obtain ⟨hunescape, hvalid⟩ := percentDecode_ok (toOption_eq_some.mp hdecoded)
  cases hcheck : config.unsafeSegment decoded with
  | true => simp [hcheck] at h
  | false =>
    obtain rfl : decoded = segment := by simpa [hcheck] using h
    exact ⟨safeSegment_of_check hvalid (unescape_ne_nil hunescape hne) hcheck, hunescape⟩

theorem SafeSegment.backslash_notMem {segment : Text} (h : config.SafeSegment segment) :
    backslash ∉ segment := by
  obtain ⟨-, -, -, chars, rfl, hchars, -⟩ := h
  exact notMem_encode (by decide) (by decide) fun hmem => (hchars _ hmem).2.1 rfl

/-- The prefix is read off the front of the parts. -/
theorem belowMount_eq_some {mount : List Text} {parts rest : List PathPart}
    (h : belowMount mount parts = some rest) :
    ∃ front, parts = front ++ rest ∧ front.map PathPart.value = mount := by
  induction mount generalizing parts with
  | nil =>
    obtain rfl : parts = rest := by simpa [belowMount] using h
    exact ⟨[], rfl, rfl⟩
  | cons expected mount ih =>
    cases parts with
    | nil => cases h
    | cons part parts =>
      rw [belowMount] at h
      by_cases hpart : part.value = expected
      · rw [if_pos hpart] at h
        obtain ⟨front, rfl, hfront⟩ := ih h
        exact ⟨part :: front, rfl, by rw [List.map_cons, hpart, hfront]⟩
      · rw [if_neg hpart] at h
        cases h

/-- The parts of a path whose segments are taken: the prefix, and the rest decoded. -/
theorem relative_eq_some {path : Text} {segments : List Text}
    (h : config.relative path = some segments) : ∃ front rest, partsOf path = front ++ rest ∧
      front.map PathPart.value = config.mount ∧
      List.Forall₂ (fun raw segment => config.segment raw = some segment) rest segments := by
  rw [relative, Option.bind_eq_some_iff] at h
  obtain ⟨rest, hrest, hsegments⟩ := h
  obtain ⟨front, hparts, hfront⟩ := belowMount_eq_some hrest
  exact ⟨front, rest, hparts, hfront, mapM_eq_some.mp hsegments⟩

end Config

theorem isToken_of_mem_partsOf {path : Text} {part : PathPart} (h : part ∈ partsOf path) :
    IsToken slash part.value := by
  have hmem : part.value ∈ (partsOf path).map PathPart.value := List.mem_map_of_mem h
  rw [values_partsOf] at hmem
  exact Lib.Tokens.isToken_of_mem_tokens hmem

namespace Config

variable {config : Config} {path : Text} {segments : List Text}

/-- The segments that are taken are safe. -/
theorem relative_safe (h : config.relative path = some segments) :
    ∀ segment ∈ segments, config.SafeSegment segment := by
  obtain ⟨front, rest, hparts, -, hsegments⟩ := relative_eq_some h
  intro segment hsegment
  obtain ⟨raw, hraw, htaken⟩ := forall₂_exists hsegments segment hsegment
  have htoken := isToken_of_mem_partsOf (hparts ▸ List.mem_append_right front hraw)
  exact (segment_eq_some htaken htoken.1).1

/-- No part of a path that is taken holds a backslash: the prefix has none, and the check
    refuses the others. -/
theorem backslash_notMem_parts (hmount : ∀ name ∈ config.mount, backslash ∉ name)
    (h : config.relative path = some segments) : ∀ part ∈ partsOf path, backslash ∉ part.value := by
  obtain ⟨front, rest, hparts, hfront, hsegments⟩ := relative_eq_some h
  intro part hpart hbackslash
  have htoken := isToken_of_mem_partsOf hpart
  rw [hparts] at hpart
  rcases List.mem_append.mp hpart with hpart | hpart
  · exact hmount part.value (hfront ▸ List.mem_map_of_mem hpart) hbackslash
  · obtain ⟨segment, -, htaken⟩ := forall₂_exists hsegments.flip part hpart
    obtain ⟨hsafe, hunescape⟩ := segment_eq_some htaken htoken.1
    exact hsafe.backslash_notMem (backslash_mem_unescape hunescape hbackslash)

/-! ## Below the root -/

/-- A safe name is appended, on any platform. -/
theorem SafeSegment.push_eq {segment : Text} (h : config.SafeSegment segment) (windows : Bool)
    (path : FilePath) : push windows path segment = path ++ [segment] := by
  obtain ⟨hne, hdot, hdots, chars, rfl, hchars, -⟩ := h
  have hslash : slash ∉ encode chars :=
    notMem_encode (by decide) (by decide) fun hmem => (hchars _ hmem).1 rfl
  have hbackslash : backslash ∉ encode chars :=
    notMem_encode (by decide) (by decide) fun hmem => (hchars _ hmem).2.1 rfl
  have hcolon : (0x3A : UInt8) ∉ encode chars :=
    notMem_encode (c := ':') (by decide) (by decide) fun hmem => (hchars _ hmem).2.2.2.1 rfl
  have hseparator : ∀ byte ∈ encode chars, isSeparator windows byte = false := by
    intro byte hbyte
    have hbyte₁ : byte ≠ slash := fun heq => hslash (heq ▸ hbyte)
    have hbyte₂ : byte ≠ backslash := fun heq => hbackslash (heq ▸ hbyte)
    simp [isSeparator, hbyte₁, hbyte₂]
  have hrooted : isRooted windows (encode chars) = false := by
    have hhead : (encode chars).head?.any (isSeparator windows) = false := by
      cases hfirst : (encode chars).head? with
      | none => rfl
      | some byte => exact hseparator byte (List.mem_of_mem_head? hfirst)
    have hdrive : (encode chars)[1]? ≠ some 0x3A := fun hsome =>
      hcolon (List.mem_of_getElem? hsome)
    simp [isRooted, hhead, hdrive]
  rw [push, List.splitOnP_eq_singleton hseparator, hrooted]
  simp [enter, hne, hdot, hdots]

/-- Appending the segments to a directory in order stays below it. -/
theorem foldl_push_eq (windows : Bool) (h : ∀ segment ∈ segments, config.SafeSegment segment)
    (root : FilePath) : segments.foldl (push windows) root = root ++ segments := by
  induction segments generalizing root with
  | nil => simp
  | cons segment segments ih =>
    obtain ⟨hsegment, hsegments⟩ := List.forall_mem_cons.mp h
    rw [List.foldl_cons, hsegment.push_eq, ih hsegments, List.append_assoc]
    rfl

end Config

/-! ## The location -/

/-- The path of a redirect. -/
def slashed (path : Text) : Text := slash :: (partsOf path).flatMap fun part => part.value ++ [slash]

theorem redirectTo_eq_some {path location : Text} {query : Option Text}
    (h : redirectTo path query = some location) : path.getLast? ≠ some slash ∧
      location = query.elim (slashed path) fun query => slashed path ++ questionMark :: query := by
  have hfold : ∀ (parts : List PathPart) (front : Text),
      parts.foldl (fun location part => location ++ part.value ++ [slash]) front =
        front ++ parts.flatMap fun part => part.value ++ [slash] := by
    intro parts
    induction parts with
    | nil => simp
    | cons part parts ih =>
      intro front
      rw [List.foldl_cons, ih, List.flatMap_cons]
      simp only [List.append_assoc]
  rw [redirectTo] at h
  by_cases hlast : path.getLast? = some slash
  · rw [if_pos hlast] at h
    cases h
  · rw [if_neg hlast, hfold, Option.some.injEq] at h
    exact ⟨hlast, h.symm⟩

theorem redirectTo_of_slash {path : Text} (h : path.getLast? = some slash) (query : Option Text) :
    redirectTo path query = none := if_pos h

theorem getLast_slashed (path : Text) : (slashed path).getLast? = some slash := by
  rw [slashed]
  rcases List.eq_nil_or_concat (partsOf path) with hparts | ⟨parts, part, hparts⟩
  · rw [hparts]
    rfl
  · rw [hparts, List.concat_eq_append, List.flatMap_append, List.flatMap_singleton,
      ← List.append_assoc, ← List.cons_append, List.getLast?_concat]

/-- The path of a redirect has the segments of the request. -/
theorem splitPath_slashed (path : Text) : splitPath (slashed path) = splitPath path := by
  have htokens : ∀ parts : List PathPart, (∀ part ∈ parts, IsToken slash part.value) →
      Lib.Tokens.tokens slash (parts.flatMap fun part => part.value ++ [slash]) =
        parts.map PathPart.value := by
    intro parts hparts
    induction parts with
    | nil => simp
    | cons part parts ih =>
      obtain ⟨hpart, hrest⟩ := List.forall_mem_cons.mp hparts
      rw [List.flatMap_cons, List.append_assoc, List.singleton_append,
        Lib.Tokens.tokens_isToken_append hpart, ih hrest, List.map_cons]
  have hslashed := htokens (partsOf path) fun part => isToken_of_mem_partsOf
  rw [splitPath_eq, segments, slashed, Lib.Tokens.tokens_cons_self, hslashed]
  rfl

/-- A byte of the path of a redirect is a slash or a byte of the request. -/
theorem mem_slashed {path : Text} {byte : UInt8} (h : byte ∈ slashed path) :
    byte = slash ∨ ∃ part ∈ partsOf path, byte ∈ part.value := by
  rcases List.mem_cons.mp h with rfl | h
  · exact .inl rfl
  · obtain ⟨part, hpart, hbyte⟩ := List.mem_flatMap.mp h
    rcases List.mem_append.mp hbyte with hbyte | hbyte
    · exact .inr ⟨part, hpart, hbyte⟩
    · exact .inl (List.mem_singleton.mp hbyte)

/-- A byte of a segment is a byte of the path. -/
theorem mem_of_mem_partsOf {path : Text} {part : PathPart} (h : part ∈ partsOf path) {byte : UInt8}
    (hbyte : byte ∈ part.value) : byte ∈ path := by
  rw [← (slice_partsOf h).1] at hbyte
  exact List.mem_of_mem_take (List.mem_of_mem_drop hbyte)

/-- A path and a query are read back from the reference that they make. -/
theorem readReference_eq {path : Text} {query : Option Text} (hquestion : questionMark ∉ path)
    (hnumber : numberSign ∉ path) (hquery : ∀ text, query = some text → numberSign ∉ text) :
    readReference (query.elim path fun query => path ++ questionMark :: query) = (path, query) := by
  cases query with
  | none => simp [readReference, cut_of_notMem hnumber, cut_of_notMem hquestion]
  | some query =>
    have hfragment : numberSign ∉ path ++ questionMark :: query := by
      rw [List.mem_append, List.mem_cons, not_or, not_or]
      exact ⟨hnumber, by decide, hquery query rfl⟩
    simp [readReference, cut_of_notMem hfragment, cut_append_cons hquestion]

/-- What follows the slash of a location: the first segment, or the query, or nothing for an
    empty path. -/
theorem second_of_location {path location : Text} {query : Option Text}
    (hbackslash : ∀ part ∈ partsOf path, backslash ∉ part.value)
    (h : redirectTo path query = some location) :
    (∃ byte rest, location = slash :: byte :: rest ∧ byte ≠ slash ∧ byte ≠ backslash) ∨
      path = [] ∧ location = query.elim [slash] fun query => slash :: questionMark :: query := by
  obtain ⟨hlast, hlocation⟩ := redirectTo_eq_some h
  cases hparts : partsOf path with
  | nil =>
    have htokens : Lib.Tokens.tokens slash path = [] := by
      have hvalues := values_partsOf path
      rw [hparts] at hvalues
      exact hvalues.symm
    right
    refine ⟨(Lib.Tokens.getLast_of_tokens_eq_nil htokens).resolve_right hlast, ?_⟩
    rw [hlocation, slashed, hparts]
    rfl
  | cons part parts =>
    left
    have hpart : part ∈ partsOf path := hparts ▸ List.mem_cons_self
    obtain ⟨hne, hslash⟩ := isToken_of_mem_partsOf hpart
    obtain ⟨byte, rest, hvalue⟩ := List.exists_cons_of_ne_nil hne
    have hbyte : byte ∈ part.value := hvalue ▸ List.mem_cons_self
    refine ⟨byte, ?_, ?_, fun heq => hslash (heq ▸ hbyte),
      fun heq => hbackslash part hpart (heq ▸ hbyte)⟩
    · exact query.elim (rest ++ slash :: parts.flatMap fun part => part.value ++ [slash])
        fun query => rest ++ slash :: (parts.flatMap fun part => part.value ++ [slash]) ++
          questionMark :: query
    · rw [hlocation, slashed, hparts, List.flatMap_cons, hvalue]
      cases query <;> simp

/-- A directory redirect stays on the site. -/
theorem Config.SendsRedirect.staysOnSite {config : Config} {disk : Disk} {request : Parts}
    {location : Text} (h : config.SendsRedirect disk request location)
    (hmount : ∀ name ∈ config.mount, backslash ∉ name) (hrequest : UriParts request) :
    StaysOnSite request location := by
  obtain ⟨segments, resolved, hrelative, -, -⟩ := h.directory
  have hbackslash := backslash_notMem_parts hmount hrelative
  have hfree : ∀ {byte}, byte ≠ slash → byte ∉ request.path → byte ∉ slashed request.path := by
    intro byte hne hnotMem hmem
    rcases mem_slashed hmem with heq | ⟨part, hpart, hbyte⟩
    · exact hne heq
    · exact hnotMem (mem_of_mem_partsOf hpart hbyte)
  obtain ⟨-, hlocation⟩ := redirectTo_eq_some h.target
  constructor
  · rcases second_of_location hbackslash h.target with hsecond | ⟨hempty, hlocation⟩
    · exact .inl hsecond
    · cases hquery : request.query with
      | none => exact .inr ⟨hempty, by rw [hlocation, hquery]; rfl⟩
      | some query =>
        exact .inl ⟨questionMark, query, by rw [hlocation, hquery]; rfl, by decide, by decide⟩
  · refine ⟨slashed request.path, ?_, splitPath_slashed _, getLast_slashed _,
      redirectTo_of_slash (getLast_slashed _)⟩
    rw [hlocation]
    exact readReference_eq (hfree (by decide) hrequest.path_free.1)
      (hfree (by decide) hrequest.path_free.2) hrequest.query_free

/-! ## The resolved path -/

namespace Config

variable {config : Config} {disk : Disk}

/-- A path that is contained lies below the root, and names nothing hidden. -/
theorem contained_inside {path canonical : FilePath}
    (h : config.contained disk path = some canonical) : config.root <+: canonical ∧
      (config.dotfiles = false → ∀ name ∈ canonical.drop config.root.length, isHidden name = false) := by
  simp only [contained, Option.bind_eq_bind, Option.bind_eq_some_iff] at h
  obtain ⟨found, -, h⟩ := h
  by_cases hroot : config.root.isPrefixOf found = true
  · rw [if_pos hroot] at h
    cases hhidden : (!config.dotfiles && (found.drop config.root.length).any isHidden) with
    | true => simp [hhidden] at h
    | false =>
      obtain rfl : found = canonical := by simpa [hhidden] using h
      refine ⟨List.isPrefixOf_iff_prefix.mp hroot, fun hdotfiles name hname => ?_⟩
      rw [hdotfiles, Bool.not_false, Bool.true_and, List.any_eq_false] at hhidden
      exact Bool.eq_false_iff.mpr (hhidden name hname)
  · rw [if_neg hroot] at h
    cases h

/-- Whatever the file system answers, the file that is served lies below the root, and names
    nothing hidden. -/
theorem resolve_inside {segments : List Text} {resolved : Resolved}
    (h : config.resolve disk segments = some resolved) : config.root <+: resolved.path ∧
      (config.dotfiles = false →
        ∀ name ∈ resolved.path.drop config.root.length, isHidden name = false) := by
  simp only [resolve, Option.bind_eq_bind, Option.bind_eq_some_iff] at h
  obtain ⟨path, hpath, metadata, -, h⟩ := h
  by_cases hdir : metadata = .dir
  · -- the index file is resolved once more
    simp only [if_pos hdir, Option.bind_eq_some_iff] at h
    obtain ⟨index, -, file, hfile, kind, -, h⟩ := h
    by_cases hkind : kind = .file
    · rw [if_pos hkind, Option.some.injEq] at h
      subst h
      exact contained_inside hfile
    · rw [if_neg hkind] at h
      cases h
  · rw [if_neg hdir] at h
    by_cases hkind : metadata = .file
    · rw [if_pos hkind, Option.some.injEq] at h
      subst h
      exact contained_inside hpath
    · rw [if_neg hkind] at h
      cases h

/-! ## Requests -/

/-- A redirect that is sent is the answer. -/
theorem SendsRedirect.handle_eq {request : Parts} {location : Text}
    (h : config.SendsRedirect disk request location)
    (deliver : Parts → Resolved → Option Response) (next : Parts → Response) :
    redirectResponse location = some (config.handle disk deliver next request) := by
  obtain ⟨segments, resolved, hrelative, hresolve, hdirectory⟩ := h.directory
  obtain ⟨value, hvalue⟩ := Option.isSome_iff_exists.mp h.header
  have hmethod : ¬(request.method ≠ .head ∧ request.method ≠ .get) := by
    rcases h.method with hmethod | hmethod <;> simp [hmethod]
  have hserve : config.serve disk (deliver request) segments
      (redirectTo request.path request.query) = redirectResponse location := by
    rw [serve, hresolve, h.target]
    simp [hdirectory]
  rw [handle, if_neg hmethod, hrelative]
  simp only [hserve, redirectResponse, hvalue, Option.map_some, Option.getD_some]

end Config

/-- **No way out of the directory, and no way off the site.** The segments that are taken are
    safe names, and appending them to a directory in order stays below it; the location of a
    directory redirect names the same segments on the same site, and is not redirected again. -/
theorem serveDir_safe (config : Config) (hmount : ∀ name ∈ config.mount, backslash ∉ name)
    (request : Parts) (hrequest : UriParts request) :
    (∀ segments, config.relative request.path = some segments →
      (∀ segment ∈ segments, config.SafeSegment segment) ∧
        ∀ windows root, segments.foldl (push windows) root = root ++ segments) ∧
    ∀ disk location, config.SendsRedirect disk request location →
      (∀ deliver next,
        redirectResponse location = some (config.handle disk deliver next request)) ∧
      StaysOnSite request location := by
  constructor
  · intro segments hsegments
    have hsafe := Config.relative_safe hsegments
    exact ⟨hsafe, fun windows root => Config.foldl_push_eq windows hsafe root⟩
  · intro disk location hsends
    exact ⟨fun deliver next => hsends.handle_eq deliver next,
      hsends.staysOnSite hmount hrequest⟩

/-! ## An example -/

/-- A disk with a directory and an index file in it. -/
def siteDisk : Disk where
  windows := false
  canonicalize := some
  metadata path := if path.getLast? = some (str "index.html") then some .file else some .dir

/-- A request for a path. -/
def getRequest (path : Text) (query : Option Text) : Parts where
  method := .get
  path := path
  query := query
  headers := .empty

theorem sendsRedirect_docs :
    (Config.new (str "/assets/") [str "srv"]).SendsRedirect siteDisk
      (getRequest (str "/assets/%64ocs") (some (str "v=1"))) (str "/assets/%64ocs/?v=1") where
  method := .inr rfl
  directory :=
    ⟨[str "docs"], ⟨[str "srv", str "docs", str "index.html"], .file, true⟩, by decide +kernel,
      by decide +kernel, rfl⟩
  target := by decide +kernel
  header := by decide +kernel

theorem serveDir_safe_docs :
    StaysOnSite (getRequest (str "/assets/%64ocs") (some (str "v=1")))
      (str "/assets/%64ocs/?v=1") :=
  ((serveDir_safe (.new (str "/assets/") [str "srv"]) (by decide +kernel)
    (getRequest (str "/assets/%64ocs") (some (str "v=1")))
    ⟨by decide +kernel, by decide +kernel⟩).2 siteDisk _ sendsRedirect_docs).2

/-- A request without a path, for a site that is served at its root: nothing follows the
    slash. -/
theorem not_second_of_location_root :
    (Config.new (str "/") [str "srv"]).SendsRedirect siteDisk (getRequest [] none) (str "/") ∧
      ¬∃ byte rest, str "/" = slash :: byte :: rest ∧ byte ≠ slash ∧ byte ≠ backslash := by
  refine ⟨⟨.inr rfl, ⟨[], ⟨[str "srv", str "index.html"], .file, true⟩, ?_, ?_, rfl⟩, ?_, ?_⟩, ?_⟩
  · decide +kernel
  · decide +kernel
  · decide +kernel
  · decide +kernel
  · rintro ⟨byte, rest, heq, -⟩
    cases heq

end OasRs
