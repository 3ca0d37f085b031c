import OasRs.Lib.Pairs
import OasRs.Lib.Utf8
import OasRs.Query
import OasRs.SetCookie

/-!
# Cookies That Are Read

The `Cookies` extractor of `src/web.rs`: the bytes of a header are cut at semicolons, each
piece is decoded with replacements, cut at the first equals sign and trimmed.

## Overview

- `readPair`, `Cookies.fromRequest`, `Cookies.get`: the extractor
- `CookieSegment`: what a client sends between two semicolons
- `entries_fromRequest`: each segment is read by itself
- `cookies_kept_iff`: cookies that are set, and cookies that are read
-/

namespace OasRs

open Lib.Utf8 (encode lossy ascii)
open Lib.Tokens (joined)
open Lib.Pairs (cut cut_append_cons cut_of_notMem)

/-! ## Text -/

/-- `char::is_whitespace` -/
def isWhitespace (c : Char) : Bool :=
  let n := c.toNat
  (0x09 ≤ n && n ≤ 0x0D) || n == 0x20 || n == 0x85 || n == 0xA0 || n == 0x1680 ||
    (0x2000 ≤ n && n ≤ 0x200A) || n == 0x2028 || n == 0x2029 || n == 0x202F || n == 0x205F ||
    n == 0x3000

/-- `str::trim` -/
def trimText (text : List Char) : List Char :=
  (text.dropWhile isWhitespace).rdropWhile isWhitespace

/-- The value without its pair of quotes: `strip_prefix` and `strip_suffix`, or the value as
    it is. -/
def unquote (value : List Char) : List Char :=
  match value with
  | [] => value
  | first :: inner =>
    if first = '"' ∧ inner.getLast? = some '"' then inner.dropLast else value

/-! ## The extractor -/

/-- One piece of a `Cookie` header; `split_once` is `cut`. -/
def readPair (pair : Text) : Option (Text × Text) := do
  let (name, value) ← cut '=' (lossy pair)
  let name := trimText name
  if name.isEmpty then none
  else some (encode name, encode (unquote (trimText value)))

/-- `Cookies` -/
structure Cookies where
  entries : List (Text × Text)

namespace Cookies

/-- `Cookies::get` -/
def get (cookies : Cookies) (name : Text) : Option Text :=
  (cookies.entries.find? fun entry => entry.1 == name).map Prod.snd

/-- `Cookies::from_request` -/
def fromRequest (headers : HeaderMap) : Cookies where
  entries := (headers.getAll (.custom (str "cookie"))).flatMap fun value =>
    (value.splitOn semicolon).filterMap readPair

end Cookies

/-! ## What a client sends -/

/-- Nothing to trim at either end. -/
def Trimmed (text : List Char) : Prop :=
  (∀ c, text.head? = some c → isWhitespace c = false) ∧
    ∀ c, text.getLast? = some c → isWhitespace c = false

/-- A well-formed pair that another server may have set: the value may stand in quotes. -/
structure CookiePair where
  name : List Char
  value : List Char
  quoted : Bool
  name_ne : name ≠ []
  name_trimmed : Trimmed name
  equals_notMem : '=' ∉ name
  name_free : ';' ∉ name
  value_free : ';' ∉ value
  value_trimmed : quoted = false → Trimmed value
  value_bare : quoted = false → ∀ inner, value ≠ '"' :: (inner ++ ['"'])

/-- The pair as it is sent. -/
def CookiePair.text (pair : CookiePair) : List Char :=
  pair.name ++ '=' :: if pair.quoted then '"' :: (pair.value ++ ['"']) else pair.value

/-- A piece of a `Cookie` header, as far as the next semicolon. -/
inductive CookieSegment where
  /-- a cookie that `SetCookie::new` accepts -/
  | cookie (cookie : SetCookie)
  /-- another well-formed pair -/
  | pair (pair : CookiePair)
  /-- no equals sign -/
  | bare (bytes : Text) (free : semicolon ∉ bytes) (equals_notMem : equalsSign ∉ bytes)
  /-- nothing but whitespace in front of the equals sign -/
  | unnamed (blank : List Char) (value : Text) (white : ∀ c ∈ blank, isWhitespace c = true)
      (free : semicolon ∉ value)
  /-- no UTF-8 -/
  | garbled (bytes : Text) (free : semicolon ∉ bytes) (invalid : validUtf8 bytes = false)

namespace CookieSegment

/-- The bytes of a segment. -/
def bytes : CookieSegment → Text
  | .cookie set => set.pair
  | .pair other => encode other.text
  | .bare text _ _ => text
  | .unnamed blank value _ _ => encode blank ++ equalsSign :: value
  | .garbled text _ _ => text

/-- The entry that a segment stands for. One that is no UTF-8 may stand for what is left of
    it. -/
def read : CookieSegment → Option (Text × Text)
  | .cookie set => some (set.name, set.value)
  | .pair other => some (encode other.name, encode other.value)
  | .bare _ _ _ => none
  | .unnamed _ _ _ _ => none
  | .garbled text _ _ => readPair text

/-- The cookie, if the segment is one. -/
def cookie? : CookieSegment → Option SetCookie
  | .cookie set => some set
  | _ => none

/-- A header: the segments with a semicolon and a blank between them. -/
def header (segments : List CookieSegment) : HeaderValue :=
  (str "; ").intercalate (segments.map bytes)

end CookieSegment

/-- What the extractor makes of the headers that a client sends. -/
def ReadsBack (sent : List (List CookieSegment)) : Prop :=
  ∀ headers : HeaderMap,
    headers.getAll (.custom (str "cookie")) = sent.map CookieSegment.header →
      (Cookies.fromRequest headers).entries = sent.flatten.filterMap CookieSegment.read ∧
      ((sent.flatten.filterMap CookieSegment.cookie?).map fun cookie =>
        (cookie.name, cookie.value)).Sublist (Cookies.fromRequest headers).entries ∧
      ∀ name value, (Cookies.fromRequest headers).get name = some value ↔
        ∃ before segment after, sent.flatten = before ++ segment :: after ∧
          segment.read = some (name, value) ∧
          ∀ other ∈ before, ∀ shadowed, other.read ≠ some (name, shadowed)

/-! ## Text that stays -/

/-- Whitespace in front is trimmed. -/
theorem trimText_cons {c : Char} (h : isWhitespace c = true) (text : List Char) :
    trimText (c :: text) = trimText text := by
  rw [trimText, List.dropWhile_cons_of_pos h, trimText]

theorem trimText_blank {blank : List Char} (h : ∀ c ∈ blank, isWhitespace c = true) :
    trimText blank = [] := by
  rw [trimText, List.dropWhile_eq_nil_iff.mpr h, List.rdropWhile_nil]

theorem Trimmed.trimText_eq {text : List Char} (h : Trimmed text) : trimText text = text := by
  have hfront : text.dropWhile isWhitespace = text := by
    cases text with
    | nil => rfl
    | cons c text =>
      exact List.dropWhile_cons_of_neg (Bool.eq_false_iff.mp (h.1 c rfl))
  rw [trimText, hfront, List.rdropWhile_eq_self_iff]
  exact fun hne => Bool.eq_false_iff.mp (h.2 _ (List.getLast?_eq_getLast_of_ne_nil hne))

/-- Without whitespace there is nothing to trim. -/
theorem trimmed_of_forall {text : List Char} (h : ∀ c ∈ text, isWhitespace c = false) :
    Trimmed text :=
  ⟨fun c hc => h c (List.mem_of_mem_head? hc), fun c hc => h c (List.mem_of_mem_getLast? hc)⟩

theorem unquote_quoted (inner : List Char) : unquote ('"' :: (inner ++ ['"'])) = inner := by
  simp [unquote]

/-- Only a pair of quotes is removed. -/
theorem unquote_of_bare {value : List Char} (h : ∀ inner, value ≠ '"' :: (inner ++ ['"'])) :
    unquote value = value := by
  cases value with
  | nil => rfl
  | cons first inner =>
    rw [unquote, if_neg]
    rintro ⟨rfl, hlast⟩
    obtain ⟨before, rfl⟩ := List.getLast?_eq_some_iff.mp hlast
    exact h before rfl

/-! ## One segment -/

theorem lossy_equals (name : List Char) (rest : Text) :
    lossy (encode name ++ equalsSign :: rest) = name ++ '=' :: lossy rest := by
  have hencode : encode name ++ equalsSign :: rest = encode (name ++ ['=']) ++ rest := by
    rw [Lib.Utf8.encode_append, List.append_assoc]
    rfl
  rw [hencode, Lib.Utf8.lossy_encode_append, List.append_assoc]
  rfl

/-- What stands in front of the first equals sign is the name. -/
theorem readPair_eq {name : List Char} (h : '=' ∉ name) (rest : Text) :
    readPair (encode name ++ equalsSign :: rest) =
      if (trimText name).isEmpty then none
      else some (encode (trimText name), encode (unquote (trimText (lossy rest)))) := by
  rw [readPair, lossy_equals, cut_append_cons h]
  rfl

theorem readPair_of_notMem {pair : Text} (h : equalsSign ∉ pair) : readPair pair = none := by
  have hchars : '=' ∉ lossy pair := fun hmem =>
    h (Lib.Utf8.mem_of_mem_lossy (by decide) hmem (by decide))
  rw [readPair, cut_of_notMem hchars]
  rfl

/-- The blank behind a semicolon is not read. -/
theorem readPair_space (pair : Text) : readPair (space :: pair) = readPair pair := by
  have hlossy : lossy (space :: pair) = ' ' :: lossy pair :=
    Lib.Utf8.lossy_encode_append [' '] pair
  have hsplit : cut '=' (' ' :: lossy pair) =
      (cut '=' (lossy pair)).map fun parts => (' ' :: parts.1, parts.2) := by
    rw [cut, if_neg (by decide)]
  rw [readPair, readPair, hlossy, hsplit]
  cases cut '=' (lossy pair) with
  | none => rfl
  | some parts =>
    have htrim : trimText (' ' :: parts.1) = trimText parts.1 := trimText_cons (by decide) _
    simp only [Option.map_some, Option.bind_eq_bind, Option.bind_some, htrim]

/-- A well-formed pair is read as it is. -/
theorem readPair_encode {name value : List Char} (hne : name ≠ []) (htrimmed : Trimmed name)
    (hequals : '=' ∉ name) :
    readPair (encode (name ++ '=' :: value)) =
      some (encode name, encode (unquote (trimText value))) := by
  have hencode : encode (name ++ '=' :: value) = encode name ++ equalsSign :: encode value := by
    rw [Lib.Utf8.encode_append]
    rfl
  rw [hencode, readPair_eq hequals, htrimmed.trimText_eq, Lib.Utf8.lossy_encode, if_neg]
  simpa using hne

theorem CookiePair.trimText_value (pair : CookiePair) :
    unquote (trimText (if pair.quoted then '"' :: (pair.value ++ ['"']) else pair.value)) =
      pair.value := by
  cases hquoted : pair.quoted with
  | false => 
    rw [if_neg (by decide), (pair.value_trimmed hquoted).trimText_eq,
      unquote_of_bare (pair.value_bare hquoted)]
  | true =>
    have hquotes : Trimmed ('"' :: (pair.value ++ ['"'])) := by
      constructor
      · intro c hc
        obtain rfl : '"' = c := by simpa using hc
        decide
      · intro c hc
        rw [← List.cons_append, List.getLast?_concat, Option.some.injEq] at hc
        subst hc
        decide
    rw [if_pos rfl, hquotes.trimText_eq, unquote_quoted]

/-- The characters of a cookie name. -/
theorem char_of_isTokenByte : ∀ byte, HeaderName.isTokenByte byte = true →
    byte < 0x80 ∧ Char.ofNat byte.toNat ≠ '=' ∧ isWhitespace (Char.ofNat byte.toNat) = false :=
  forall_byte (by decide +kernel)

/-- The characters of a cookie value. -/
theorem char_of_isCookieOctet : ∀ byte, isCookieOctet byte = true →
    byte < 0x80 ∧ Char.ofNat byte.toNat ≠ '"' ∧ isWhitespace (Char.ofNat byte.toNat) = false :=
  forall_byte (by decide +kernel)

/-- A cookie that is set is the cookie that is read. -/
theorem SetCookie.readPair_pair (cookie : SetCookie) :
    readPair cookie.pair = some (cookie.name, cookie.value) := by
  have htoken := cookie.name_token
  have hoctets := cookie.value_octets
  simp only [isToken, Bool.and_eq_true, List.all_eq_true, Bool.not_eq_true',
    List.isEmpty_eq_false_iff] at htoken hoctets
  have hname : encode (ascii cookie.name) = cookie.name :=
    Lib.Utf8.encode_ascii fun byte hmem => (char_of_isTokenByte byte (htoken.2 byte hmem)).1
  have hvalue : encode (ascii cookie.value) = cookie.value :=
    Lib.Utf8.encode_ascii fun byte hmem => (char_of_isCookieOctet byte (hoctets byte hmem)).1
  have hpair : cookie.pair = encode (ascii cookie.name ++ '=' :: ascii cookie.value) := by
    rw [Lib.Utf8.encode_append, Lib.Utf8.encode_cons, hname, hvalue, pair, List.append_assoc]
    rfl
  have hnameTrimmed : Trimmed (ascii cookie.name) := by
    apply trimmed_of_forall
    intro c hc
    obtain ⟨byte, hmem, rfl⟩ := List.mem_map.mp hc
    exact (char_of_isTokenByte byte (htoken.2 byte hmem)).2.2
  have hvalueTrimmed : Trimmed (ascii cookie.value) := by
    apply trimmed_of_forall
    intro c hc
    obtain ⟨byte, hmem, rfl⟩ := List.mem_map.mp hc
    exact (char_of_isCookieOctet byte (hoctets byte hmem)).2.2
  have hequals : '=' ∉ ascii cookie.name := by
    intro hc
    obtain ⟨byte, hmem, heq⟩ := List.mem_map.mp hc
    exact (char_of_isTokenByte byte (htoken.2 byte hmem)).2.1 heq
  have hbare : ∀ inner, ascii cookie.value ≠ '"' :: (inner ++ ['"']) := by
    intro inner heq
    have hc : '"' ∈ ascii cookie.value := heq ▸ List.mem_cons_self
    obtain ⟨byte, hmem, hquote⟩ := List.mem_map.mp hc
    exact (char_of_isCookieOctet byte (hoctets byte hmem)).2.1 hquote
  have hne : ascii cookie.name ≠ [] := by simpa [ascii] using htoken.1
  rw [hpair, readPair_encode hne hnameTrimmed hequals, hvalueTrimmed.trimText_eq,
    unquote_of_bare hbare, hname, hvalue]

namespace CookieSegment

/-- A segment by itself is read as the entry that it stands for. -/
theorem readPair_bytes (segment : CookieSegment) : readPair segment.bytes = segment.read := by
  cases segment with
  | cookie set => exact set.readPair_pair
  | pair other =>
    rw [bytes, CookiePair.text, readPair_encode other.name_ne other.name_trimmed
      other.equals_notMem, other.trimText_value, read]
  | bare text free hequals => exact readPair_of_notMem hequals
  | unnamed blank value white free =>
    have hequals : '=' ∉ blank := fun hmem => absurd (white '=' hmem) (by decide)
    rw [bytes, readPair_eq hequals, trimText_blank white]
    rfl
  | garbled text free invalid => rfl

/-! ## Headers -/

theorem semicolon_notMem_encode {text : List Char} (h : ';' ∉ text) : semicolon ∉ encode text :=
  Lib.Utf8.notMem_encode (by decide) (by decide) h

/-- No segment holds a semicolon. -/
theorem semicolon_notMem_bytes (segment : CookieSegment) : semicolon ∉ segment.bytes := by
  cases segment with
  | cookie set => exact fun hmem => (set.plain_pair _ hmem).2.2 rfl
  | pair other =>
    apply semicolon_notMem_encode
    have hname := other.name_free
    have hvalue := other.value_free
    rw [CookiePair.text]
    cases other.quoted <;> simp [hname, hvalue]
  | bare text free hequals => exact free
  | unnamed blank value white free =>
    have hblank : ';' ∉ blank := fun hmem => absurd (white ';' hmem) (by decide)
    rw [bytes, List.mem_append, List.mem_cons, not_or, not_or]
    exact ⟨semicolon_notMem_encode hblank, by decide, free⟩
  | garbled text free invalid => exact free

/-- A header as the first segment and the ones behind a semicolon. -/
theorem header_cons (segment : CookieSegment) (rest : List CookieSegment) :
    header (segment :: rest) =
      segment.bytes ++ joined semicolon (rest.map fun other => space :: other.bytes) := by
  induction rest generalizing segment with
  | nil => simp [header]
  | cons next rest ih =>
    have hnext := ih next
    rw [header, List.map_cons] at hnext
    rw [header, List.map_cons, List.map_cons, List.intercalate_cons_cons, hnext, List.map_cons,
      Lib.Tokens.joined_cons, List.append_assoc]
    rfl

/-- Each segment of a header is read by itself. -/
theorem readPairs_header (segments : List CookieSegment) :
    ((header segments).splitOn semicolon).filterMap readPair = segments.filterMap read := by
  cases segments with
  | nil => decide
  | cons segment rest =>
    have hrest : ∀ piece ∈ rest.map fun other => space :: other.bytes, semicolon ∉ piece := by
      intro piece hpiece
      obtain ⟨other, -, rfl⟩ := List.mem_map.mp hpiece
      rw [List.mem_cons, not_or]
      exact ⟨by decide, other.semicolon_notMem_bytes⟩
    have hread : readPair ∘ (fun other : CookieSegment => space :: other.bytes) = read :=
      funext fun other => (readPair_space _).trans other.readPair_bytes
    rw [header_cons, Lib.Tokens.splitOn_append_joined segment.semicolon_notMem_bytes hrest]
    rw [List.filterMap_cons, List.filterMap_cons, segment.readPair_bytes, List.filterMap_map, hread]

end CookieSegment

/-- The entries are those of the segments, over all headers. -/
theorem entries_fromRequest {sent : List (List CookieSegment)} {headers : HeaderMap}
    (h : headers.getAll (.custom (str "cookie")) = sent.map CookieSegment.header) :
    (Cookies.fromRequest headers).entries = sent.flatten.filterMap CookieSegment.read := by
  have hread : (fun segments => ((CookieSegment.header segments).splitOn semicolon).filterMap
      readPair) = List.filterMap CookieSegment.read :=
    funext CookieSegment.readPairs_header
  rw [Cookies.fromRequest, h, List.flatMap_map, hread, List.filterMap_flatten]
  rfl

/-- `get` finds the first segment that stands for the name. -/
theorem get_eq_some_iff {cookies : Cookies} {segments : List CookieSegment}
    (h : cookies.entries = segments.filterMap CookieSegment.read) (name value : Text) :
    cookies.get name = some value ↔
      ∃ before segment after, segments = before ++ segment :: after ∧
        segment.read = some (name, value) ∧
        ∀ other ∈ before, ∀ shadowed, other.read ≠ some (name, shadowed) := by
  have hnamed : ∀ segment : CookieSegment,
      segment.read.any (fun entry => entry.1 == name) = true ↔
        ∃ shadowed, segment.read = some (name, shadowed) := by
    intro segment
    cases segment.read with
    | none => simp
    | some entry => simp [Prod.ext_iff]
  have hothers : ∀ before : List CookieSegment,
      (∀ other ∈ before, (!other.read.any fun entry => entry.1 == name) = true) ↔
        ∀ other ∈ before, ∀ shadowed, other.read ≠ some (name, shadowed) := by
    intro before
    refine forall₂_congr fun other _ => ?_
    rw [Bool.not_eq_true', Bool.eq_false_iff, ne_eq, hnamed, not_exists]
  rw [Cookies.get, h, List.find?_filterMap, Option.map_eq_some_iff]
  constructor
  · rintro ⟨entry, hentry, rfl⟩
    obtain ⟨segment, hfind, hread⟩ := Option.bind_eq_some_iff.mp hentry
    obtain ⟨hfound, before, after, hsplit, hbefore⟩ := List.find?_eq_some_iff_append.mp hfind
    obtain ⟨shadowed, hsegment⟩ := (hnamed segment).mp hfound
    obtain rfl : entry = (name, shadowed) := Option.some.inj (hread.symm.trans hsegment)
    exact ⟨before, segment, after, hsplit, hread, (hothers before).mp hbefore⟩
  · rintro ⟨before, segment, after, hsplit, hread, hbefore⟩
    have hfind : (segments.find? fun other => other.read.any fun entry => entry.1 == name) =
        some segment := List.find?_eq_some_iff_append.mpr
      ⟨(hnamed segment).mpr ⟨value, hread⟩, before, after, hsplit, (hothers before).mpr hbefore⟩
    exact ⟨(name, value), Option.bind_eq_some_iff.mpr ⟨segment, hfind, hread⟩, rfl⟩

/-- The cookies are among the entries, in their order. -/
theorem sublist_read (segments : List CookieSegment) :
    ((segments.filterMap CookieSegment.cookie?).map fun cookie => (cookie.name, cookie.value)).Sublist
      (segments.filterMap CookieSegment.read) := by
  induction segments with
  | nil => exact List.Sublist.refl _
  | cons segment segments ih =>
    cases segment with
    | cookie set => exact ih.cons_cons (set.name, set.value)
    | pair other => exact ih.cons (encode other.name, encode other.value)
    | bare text free hequals => exact ih
    | unnamed blank value white free => exact ih
    | garbled text free invalid =>
      have hrest : (CookieSegment.garbled text free invalid :: segments).filterMap
          CookieSegment.read = (readPair text).toList ++ segments.filterMap CookieSegment.read := by
        rw [List.filterMap_cons, CookieSegment.read]
        cases readPair text <;> rfl
      rw [hrest]
      exact ih.trans (List.sublist_append_right _ _)

theorem readsBack (sent : List (List CookieSegment)) : ReadsBack sent := by
  intro headers hsent
  have hentries := entries_fromRequest hsent
  exact ⟨hentries, hentries ▸ sublist_read sent.flatten, get_eq_some_iff hentries⟩

/-- **Cookies that are set are cookies that are read.** The extractor reads back what a client
    sends, and the header of a cookie shows what was set, exactly if the age of the cookie,
    rounded up, is a number of seconds that a `u64` holds. -/
theorem cookies_kept_iff (sent : List (List CookieSegment)) (cookie : SetCookie)
    (overflowChecks : Bool) :
    (ReadsBack sent ∧ cookie.ShowsAttributes overflowChecks) ↔ cookie.AgeFits :=
  ⟨fun h => SetCookie.showsAttributes_iff.mp h.2,
    fun h => ⟨readsBack sent, SetCookie.showsAttributes_of_fits h⟩⟩

/-- A cookie that shall never expire: it is deleted, or the builder panics. -/
theorem not_shows_max : ∃ cookie,
    (SetCookie.new (str "a") (str "b")).map (·.withMaxAge .max) = .ok cookie ∧
      cookie.display true = none ∧ cookie.display false = some (str "a=b; Max-Age=0") ∧
      ∀ overflowChecks, ¬cookie.ShowsAttributes overflowChecks := by
  refine ⟨_, rfl, rfl, ?_, fun overflowChecks => ?_⟩
  · have hzero : decimal 0 = str "0" := by
      rw [decimal]
      rfl
    show some (str "a=b; Max-Age=" ++ decimal 0) = _
    rw [hzero]
    rfl
  · exact SetCookie.not_showsAttributes rfl (by decide) (by decide)

end OasRs
