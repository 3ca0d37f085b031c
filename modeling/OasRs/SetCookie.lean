import Mathlib.Order.Bounds.Basic
import OasRs.Escape
import OasRs.Http

/-!
# Cookies That Are Set

The `Set-Cookie` header of `src/web.rs`: the checks of the builder are fields of the cookie,
so no later step can produce one that they refuse.

## Overview

- `SetCookie`, `SetCookie.new`, `SetCookie.withPath`, ..: the builder
- `SetCookie.display`: the header value
- `display_eq`: the value as its parts
- `showsAttributes_iff`: when the parts are the attributes that were set
-/

namespace OasRs

open Lib.Tokens (joined joined_nil joined_cons)

/-! ## The builder -/

/-- `SameSite` -/
inductive SameSite where
  | strict
  | lax
  | none
  deriving DecidableEq, Repr

/-- The words of the attribute. -/
def SameSite.word : SameSite → Text
  | .strict => str "Strict"
  | .lax => str "Lax"
  | .none => str "None"

/-- `Duration`: whole seconds, and the nanoseconds of a part of one. -/
structure Duration where
  secs : ℕ
  nanos : ℕ
  secs_lt : secs < 2 ^ 64
  nanos_lt : nanos < 1000000000

/-- `Duration::MAX` -/
def Duration.max : Duration where
  secs := 2 ^ 64 - 1
  nanos := 999999999
  secs_lt := by decide
  nanos_lt := by decide

/-- `b' '` -/
def space : UInt8 := 0x20

/-- `is_token` -/
def isToken (name : Text) : Bool := !name.isEmpty && name.all HeaderName.isTokenByte

/-- `is_cookie_octet` -/
def isCookieOctet (byte : UInt8) : Bool :=
  byte == 0x21 || (0x23 ≤ byte && byte ≤ 0x2B) || (0x2D ≤ byte && byte ≤ 0x3A) ||
    (0x3C ≤ byte && byte ≤ 0x5B) || (0x5D ≤ byte && byte ≤ 0x7E)

/-- `is_attribute_value` -/
def isAttributeValue (value : Text) : Bool :=
  !value.isEmpty && value.all (· < 0x80) &&
    value.all fun byte => 0x20 ≤ byte && byte != 0x7F && byte != semicolon

/-- The assertions of the builder. -/
inductive BadCookie where
  /-- "invalid cookie name {name:?}" -/
  | name (name : Text)
  /-- "invalid cookie value for {name:?}: percent-encode it first" -/
  | value (name : Text)
  /-- "invalid cookie Path {path:?}" -/
  | path (path : Text)
  /-- "invalid cookie Domain {domain:?}" -/
  | domain (domain : Text)
  deriving DecidableEq, Repr

/-- `SetCookie`, with what the builder has checked. -/
structure SetCookie where
  name : Text
  value : Text
  path : Option Text
  domain : Option Text
  maxAge : Option Duration
  httpOnly : Bool
  secure : Bool
  sameSite : Option SameSite
  name_token : isToken name = true
  value_octets : value.all isCookieOctet = true
  path_value : ∀ text, path = some text → isAttributeValue text = true
  domain_value : ∀ text, domain = some text → isAttributeValue text = true

namespace SetCookie

/-- `SetCookie::new` -/
def new (name value : Text) : Except BadCookie SetCookie :=
  if hname : isToken name = true then
    if hvalue : value.all isCookieOctet = true then
      .ok
        { name, value, path := none, domain := none, maxAge := none, httpOnly := false,
          secure := false, sameSite := none, name_token := hname, value_octets := hvalue,
          path_value := by simp, domain_value := by simp }
    else .error (.value name)
  else .error (.name name)

/-- `SetCookie::path` -/
def withPath (cookie : SetCookie) (path : Text) : Except BadCookie SetCookie :=
  if h : isAttributeValue path = true then
    .ok { cookie with path := some path, path_value := by simpa using h }
  else .error (.path path)

/-- `SetCookie::domain` -/
def withDomain (cookie : SetCookie) (domain : Text) : Except BadCookie SetCookie :=
  if h : isAttributeValue domain = true then
    .ok { cookie with domain := some domain, domain_value := by simpa using h }
  else .error (.domain domain)

/-- `SetCookie::max_age` -/
def withMaxAge (cookie : SetCookie) (maxAge : Duration) : SetCookie :=
  { cookie with maxAge := some maxAge }

/-- `SetCookie::http_only` -/
def withHttpOnly (cookie : SetCookie) : SetCookie := { cookie with httpOnly := true }

/-- `SetCookie::secure` -/
def withSecure (cookie : SetCookie) : SetCookie := { cookie with secure := true }

/-- `SetCookie::same_site` -/
def withSameSite (cookie : SetCookie) (sameSite : SameSite) : SetCookie :=
  { cookie with sameSite := some sameSite }

end SetCookie

/-! ## The header value -/

/-- `as_secs() + u64::from(subsec_nanos() > 0)`: where overflow is checked the sum panics,
    elsewhere it wraps. -/
def Duration.roundedUp (overflowChecks : Bool) (duration : Duration) : Option ℕ :=
  let sum := duration.secs + if 0 < duration.nanos then 1 else 0
  if sum < 2 ^ 64 then some sum
  else if overflowChecks then none
  else some (sum % 2 ^ 64)

/-- `fmt` of `Display`, for a build with or without overflow checks. -/
def SetCookie.display (overflowChecks : Bool) (cookie : SetCookie) : Option Text := do
  let output := cookie.name ++ str "=" ++ cookie.value
  let output := cookie.path.elim output fun path => output ++ (str "; Path=" ++ path)
  let output := cookie.domain.elim output fun domain => output ++ (str "; Domain=" ++ domain)
  let output ← cookie.maxAge.elim (some output) fun maxAge => do
    let seconds ← maxAge.roundedUp overflowChecks
    return output ++ (str "; Max-Age=" ++ decimal seconds)
  let output := if cookie.httpOnly then output ++ str "; HttpOnly" else output
  let output := if cookie.secure then output ++ str "; Secure" else output
  return cookie.sameSite.elim output fun
    | .strict => output ++ str "; SameSite=Strict"
    | .lax => output ++ str "; SameSite=Lax"
    | .none => output ++ str "; SameSite=None"

/-! ## Attributes -/

/-- An attribute of a cookie. -/
inductive Attribute where
  | path (path : Text)
  | domain (domain : Text)
  | maxAge (seconds : ℕ)
  | httpOnly
  | secure
  | sameSite (mode : SameSite)
  deriving DecidableEq, Repr

namespace Attribute

/-- How an attribute is written. -/
def text : Attribute → Text
  | .path value => str "Path=" ++ value
  | .domain value => str "Domain=" ++ value
  | .maxAge seconds => str "Max-Age=" ++ decimal seconds
  | .httpOnly => str "HttpOnly"
  | .secure => str "Secure"
  | .sameSite mode => str "SameSite=" ++ mode.word

/-- An attribute as a part of the header value. -/
def part (a : Attribute) : Text := space :: a.text

end Attribute

/-- The least number of whole seconds that is no shorter. -/
def Duration.RoundsUpTo (duration : Duration) (seconds : ℕ) : Prop :=
  IsLeast {n | duration.secs * 1000000000 + duration.nanos ≤ n * 1000000000} seconds

namespace SetCookie

/-- The first part of the header value. -/
def pair (cookie : SetCookie) : Text := cookie.name ++ str "=" ++ cookie.value

/-- The attributes that were set. -/
def Sets (cookie : SetCookie) : Attribute → Prop
  | .path value => cookie.path = some value
  | .domain value => cookie.domain = some value
  | .maxAge seconds => ∃ maxAge, cookie.maxAge = some maxAge ∧ maxAge.RoundsUpTo seconds
  | .httpOnly => cookie.httpOnly = true
  | .secure => cookie.secure = true
  | .sameSite mode => cookie.sameSite = some mode

/-- The header value is the pair and the attributes that were set, each once, and is one
    printable line. -/
def ShowsAttributes (overflowChecks : Bool) (cookie : SetCookie) : Prop :=
  ∃ (output : Text) (attributes : List Attribute), cookie.display overflowChecks = some output ∧
    output.splitOn semicolon = cookie.pair :: attributes.map Attribute.part ∧
    attributes.Nodup ∧ (∀ a, a ∈ attributes ↔ cookie.Sets a) ∧
    ∀ byte ∈ output, 0x20 ≤ byte ∧ byte < 0x7F

/-- Rounding the age up gives a number of seconds that a `u64` holds. -/
def AgeFits (cookie : SetCookie) : Prop :=
  ∀ maxAge, cookie.maxAge = some maxAge → maxAge.nanos = 0 ∨ maxAge.secs < 2 ^ 64 - 1

end SetCookie

/-! ## The age -/

/-- The sum of the source rounds up, while it is no `u64` yet. -/
theorem Duration.roundsUpTo (duration : Duration) :
    duration.RoundsUpTo (duration.secs + if 0 < duration.nanos then 1 else 0) := by
  have hnanos := duration.nanos_lt
  constructor
  · show duration.secs * 1000000000 + duration.nanos ≤ _
    split <;> omega
  · intro n hn
    have hn : duration.secs * 1000000000 + duration.nanos ≤ n * 1000000000 := hn
    split <;> omega

theorem Duration.roundedUp_of_fits {duration : Duration}
    (h : duration.nanos = 0 ∨ duration.secs < 2 ^ 64 - 1) (overflowChecks : Bool) :
    duration.roundedUp overflowChecks =
      some (duration.secs + if 0 < duration.nanos then 1 else 0) := by
  have hsecs := duration.secs_lt
  rw [Duration.roundedUp, if_pos]
  split <;> omega

/-- Where the sum overflows, a build without the checks goes on with zero. -/
theorem Duration.roundedUp_of_overflow {duration : Duration} (hnanos : 0 < duration.nanos)
    (hsecs : duration.secs = 2 ^ 64 - 1) (overflowChecks : Bool) :
    duration.roundedUp overflowChecks = if overflowChecks then none else some 0 := by
  rw [Duration.roundedUp, if_pos hnanos, hsecs]
  rfl

/-! ## The parts -/

namespace SetCookie

/-- The seconds that are written, if an age is set. -/
def seconds (overflowChecks : Bool) (cookie : SetCookie) : Option (Option ℕ) :=
  cookie.maxAge.elim (some none) fun maxAge => (maxAge.roundedUp overflowChecks).map some

/-- The attributes in the order in which they are written. -/
def written (cookie : SetCookie) (seconds : Option ℕ) : List Attribute :=
  (cookie.path.map .path).toList ++ (cookie.domain.map .domain).toList ++
    (seconds.map .maxAge).toList ++ (if cookie.httpOnly then [.httpOnly] else []) ++
    (if cookie.secure then [.secure] else []) ++ (cookie.sameSite.map .sameSite).toList

/-- A part with its separator. -/
theorem joined_part (a : Attribute) : joined semicolon [a.part] = str "; " ++ a.text := by
  simp only [joined_cons, joined_nil, List.append_nil, Attribute.part]
  rfl

/-- Writing an optional value appends its part. -/
theorem elim_joined {α : Type} (write : α → Text) (set : α → Attribute)
    (h : ∀ value, write value = str "; " ++ (set value).text) (optional : Option α) (output : Text) :
    (optional.elim output fun value => output ++ write value) =
      output ++ joined semicolon ((optional.map set).toList.map Attribute.part) := by
  cases optional with
  | none => simp
  | some value =>
    simp only [Option.elim_some, Option.map_some, Option.toList_some, List.map_cons, List.map_nil]
    rw [joined_part, h]

theorem ite_joined (flag : Bool) (a : Attribute) (output : Text) :
    (if flag then output ++ (str "; " ++ a.text) else output) =
      output ++ joined semicolon ((if flag then [a] else []).map Attribute.part) := by
  cases flag with
  | false => simp
  | true => exact congrArg (output ++ ·) (joined_part a).symm

/-- The header value as its parts. -/
theorem display_eq (cookie : SetCookie) (overflowChecks : Bool) :
    cookie.display overflowChecks = (cookie.seconds overflowChecks).map fun seconds =>
      cookie.pair ++ joined semicolon ((cookie.written seconds).map Attribute.part) := by
  -- each attribute is one more part of the list that is joined
  have hpath := elim_joined (fun path => str "; Path=" ++ path) .path (fun _ => rfl) cookie.path
  have hdomain := elim_joined (fun domain => str "; Domain=" ++ domain) .domain (fun _ => rfl)
    cookie.domain
  have hage : ∀ (n : ℕ) (output : Text), output ++ (str "; Max-Age=" ++ decimal n) =
      output ++ joined semicolon [(Attribute.maxAge n).part] := by
    intro n output
    rw [joined_part]
    rfl
  have hhttpOnly : ∀ output : Text,
      (if cookie.httpOnly then output ++ str "; HttpOnly" else output) = _ :=
    ite_joined cookie.httpOnly .httpOnly
  have hsecure : ∀ output : Text,
      (if cookie.secure then output ++ str "; Secure" else output) = _ :=
    ite_joined cookie.secure .secure
  have hsameSite : ∀ output : Text,
      (cookie.sameSite.elim output fun
        | .strict => output ++ str "; SameSite=Strict"
        | .lax => output ++ str "; SameSite=Lax"
        | .none => output ++ str "; SameSite=None") =
      output ++ joined semicolon ((cookie.sameSite.map .sameSite).toList.map Attribute.part) := by
    intro output
    refine (congrArg _ (funext fun mode => ?_)).trans
      (elim_joined (fun mode => str "; SameSite=" ++ mode.word) .sameSite (fun _ => rfl)
        cookie.sameSite output)
    cases mode <;> rfl
  simp only [display, seconds, hpath, hdomain, hhttpOnly, hsecure, hsameSite, written, pair,
    List.map_append, Lib.Tokens.joined_append]
  -- the age is the only attribute that can fail
  cases cookie.maxAge with
  | none => simp
  | some maxAge =>
    cases hrounded : maxAge.roundedUp overflowChecks with
    | none => simp [hrounded]
    | some n => simp [hrounded, hage]

/-- What is written is what was set, with the seconds that were computed. -/
theorem mem_written (cookie : SetCookie) (seconds : Option ℕ) (a : Attribute) :
    a ∈ cookie.written seconds ↔
      match a with
      | .maxAge n => seconds = some n
      | a => cookie.Sets a := by
  cases a <;> simp [written, Sets]

/-- The place of an attribute among the others. -/
def place : Attribute → ℕ
  | .path _ => 0
  | .domain _ => 1
  | .maxAge _ => 2
  | .httpOnly => 3
  | .secure => 4
  | .sameSite _ => 5

/-- The attributes are written in their places. -/
theorem place_written (cookie : SetCookie) (seconds : Option ℕ) :
    ((cookie.written seconds).map place).Sublist [0, 1, 2, 3, 4, 5] := by
  have hoption : ∀ {α : Type} (set : α → Attribute) (n : ℕ), (∀ a, place (set a) = n) →
      ∀ o : Option α, ((o.map set).toList.map place).Sublist [n] := by
    rintro α set n hset (_ | a)
    · exact List.nil_sublist _
    · simp [hset]
  have hflag : ∀ (flag : Bool) (a : Attribute),
      ((if flag then [a] else []).map place).Sublist [place a] := by
    rintro (_ | _) a
    · exact List.nil_sublist _
    · exact List.Sublist.refl _
  simp only [written, List.map_append]
  have hpath := hoption .path 0 (fun _ => rfl) cookie.path
  have hdomain := hoption .domain 1 (fun _ => rfl) cookie.domain
  have hage := hoption .maxAge 2 (fun _ => rfl) seconds
  have hsameSite := hoption .sameSite 5 (fun _ => rfl) cookie.sameSite
  exact ((((hpath.append hdomain).append hage).append (hflag cookie.httpOnly .httpOnly)).append
    (hflag cookie.secure .secure)).append hsameSite

theorem nodup_written (cookie : SetCookie) (seconds : Option ℕ) :
    (cookie.written seconds).Nodup :=
  .of_map place ((cookie.place_written seconds).nodup (by decide))

end SetCookie

/-! ## One line -/

/-- A byte that a header value shows and that separates nothing. -/
def Plain (byte : UInt8) : Prop := 0x20 ≤ byte ∧ byte < 0x7F ∧ byte ≠ semicolon

instance (byte : UInt8) : Decidable (Plain byte) := inferInstanceAs (Decidable (_ ∧ _))

theorem plain_of_isTokenByte : ∀ byte, HeaderName.isTokenByte byte = true → Plain byte :=
  forall_byte (by decide +kernel)

theorem plain_of_isCookieOctet : ∀ byte, isCookieOctet byte = true → Plain byte :=
  forall_byte (by decide +kernel)

theorem plain_of_isAttributeValue {value : Text} (h : isAttributeValue value = true) :
    ∀ byte ∈ value, Plain byte := by
  have hbyte : ∀ byte : UInt8, byte < 0x80 → 0x20 ≤ byte → byte ≠ 0x7F → byte < 0x7F :=
    forall_byte (by decide +kernel)
  intro byte hmem
  simp only [isAttributeValue, Bool.and_eq_true, List.all_eq_true, decide_eq_true_eq, bne_iff_ne]
    at h
  obtain ⟨⟨-, hascii⟩, hrest⟩ := h
  obtain ⟨⟨hlow, hdel⟩, hsemicolon⟩ := hrest byte hmem
  exact ⟨hlow, hbyte byte (hascii byte hmem) hlow hdel, hsemicolon⟩

theorem plain_decimal (n : ℕ) : ∀ byte ∈ decimal n, Plain byte := by
  intro byte hmem
  obtain ⟨digit, hdigit, rfl⟩ := mem_decimal hmem
  have hall : ∀ d : Fin 10, Plain (digitByte d) := by decide
  exact hall ⟨digit, hdigit⟩

namespace SetCookie

theorem plain_pair (cookie : SetCookie) : ∀ byte ∈ cookie.pair, Plain byte := by
  have hname := cookie.name_token
  have hvalue := cookie.value_octets
  simp only [isToken, Bool.and_eq_true, List.all_eq_true] at hname hvalue
  intro byte hmem
  rw [pair, List.mem_append, List.mem_append] at hmem
  rcases hmem with (hmem | hmem) | hmem
  · exact plain_of_isTokenByte byte (hname.2 byte hmem)
  · have hequals : ∀ byte ∈ str "=", Plain byte := by decide +kernel
    exact hequals byte hmem
  · exact plain_of_isCookieOctet byte (hvalue byte hmem)

theorem plain_text {cookie : SetCookie} {seconds : Option ℕ} {a : Attribute}
    (h : a ∈ cookie.written seconds) : ∀ byte ∈ a.text, Plain byte := by
  have happend : ∀ {front value : Text}, (∀ byte ∈ front, Plain byte) →
      (∀ byte ∈ value, Plain byte) → ∀ byte ∈ front ++ value, Plain byte :=
    fun hfront hvalue => List.forall_mem_append.mpr ⟨hfront, hvalue⟩
  rw [mem_written] at h
  cases a with
  | path value => exact happend (by decide +kernel) (plain_of_isAttributeValue (cookie.path_value _ h))
  | domain value => exact happend (by decide +kernel) (plain_of_isAttributeValue (cookie.domain_value _ h))
  | maxAge n => exact happend (by decide +kernel) (plain_decimal n)
  | httpOnly => exact (by decide +kernel : ∀ byte ∈ str "HttpOnly", Plain byte)
  | secure => exact (by decide +kernel : ∀ byte ∈ str "Secure", Plain byte)
  | sameSite mode => cases mode <;> exact happend (by decide +kernel) (by decide +kernel)

end SetCookie

/-! ## When the attributes are shown -/

theorem decimal_injective : Function.Injective decimal := by
  intro m n h
  simpa [digitsValue_decimal] using congrArg digitsValue h

/-- The first letter of an attribute. -/
def Attribute.letter : Attribute → UInt8
  | .path _ => 0x50
  | .domain _ => 0x44
  | .maxAge _ => 0x4D
  | .httpOnly => 0x48
  | .secure | .sameSite _ => 0x53

theorem Attribute.head_text (a : Attribute) : a.text.head? = some a.letter := by
  cases a <;> rfl

/-- Only an age is written like an age. -/
theorem Attribute.eq_maxAge {a : Attribute} {n : ℕ} (h : a.text = (maxAge n).text) :
    a = .maxAge n := by
  have hletter : a.letter = 0x4D := by
    have hhead := a.head_text
    rw [h, Attribute.head_text, Option.some.injEq] at hhead
    exact hhead.symm
  cases a with
  | maxAge m => rw [decimal_injective (List.append_cancel_left h)]
  | path value => exact absurd hletter (by simp [letter])
  | domain value => exact absurd hletter (by simp [letter])
  | httpOnly => exact absurd hletter (by simp [letter])
  | secure => exact absurd hletter (by simp [letter])
  | sameSite mode => exact absurd hletter (by simp [letter])

namespace SetCookie

variable {cookie : SetCookie} {overflowChecks : Bool} {output : Text} {seconds : Option ℕ}

/-- The header value, split. -/
theorem splitOn_written : (cookie.pair ++
      joined semicolon ((cookie.written seconds).map Attribute.part)).splitOn semicolon =
    cookie.pair :: (cookie.written seconds).map Attribute.part := by
  apply Lib.Tokens.splitOn_append_joined
  · exact fun hmem => (cookie.plain_pair _ hmem).2.2 rfl
  · intro part hpart hmem
    obtain ⟨a, ha, rfl⟩ := List.mem_map.mp hpart
    rcases List.mem_cons.mp hmem with heq | hmem
    · exact absurd heq (by decide)
    · exact (plain_text ha _ hmem).2.2 rfl

theorem printable_written : ∀ byte ∈ cookie.pair ++
      joined semicolon ((cookie.written seconds).map Attribute.part), 0x20 ≤ byte ∧ byte < 0x7F := by
  intro byte hmem
  rcases List.mem_append.mp hmem with hmem | hmem
  · exact ⟨(cookie.plain_pair _ hmem).1, (cookie.plain_pair _ hmem).2.1⟩
  · obtain ⟨part, hpart, hmem⟩ := List.mem_flatMap.mp hmem
    obtain ⟨a, ha, rfl⟩ := List.mem_map.mp hpart
    rcases List.mem_cons.mp hmem with rfl | hmem
    · decide
    · rcases List.mem_cons.mp hmem with rfl | hmem
      · decide
      · exact ⟨(plain_text ha _ hmem).1, (plain_text ha _ hmem).2.1⟩

/-- An age that fits gives the number of seconds that was asked for. -/
theorem seconds_of_fits (h : cookie.AgeFits) : ∃ seconds,
    cookie.seconds overflowChecks = some seconds ∧
      ∀ n, seconds = some n ↔ cookie.Sets (.maxAge n) := by
  cases hmaxAge : cookie.maxAge with
  | none => exact ⟨none, by simp [SetCookie.seconds, hmaxAge], by simp [Sets, hmaxAge]⟩
  | some maxAge =>
    have hleast := maxAge.roundsUpTo
    refine ⟨some (maxAge.secs + if 0 < maxAge.nanos then 1 else 0), ?_, fun n => ?_⟩
    · rw [SetCookie.seconds, hmaxAge, Option.elim_some,
        Duration.roundedUp_of_fits (h maxAge hmaxAge)]
      rfl
    · simp only [Sets, hmaxAge, Option.some.injEq, exists_eq_left']
      exact ⟨fun heq => heq ▸ hleast, fun hn => hleast.unique hn⟩

theorem showsAttributes_of_fits (h : cookie.AgeFits) : cookie.ShowsAttributes overflowChecks := by
  obtain ⟨seconds, hseconds, hage⟩ := @seconds_of_fits cookie overflowChecks h
  refine ⟨_, cookie.written seconds, ?_, splitOn_written, cookie.nodup_written _, fun a => ?_,
    printable_written⟩
  · rw [display_eq, hseconds]
    rfl
  · rw [mem_written]
    cases a with
    | maxAge n => exact hage n
    | _ => exact Iff.rfl

/-- An age that does not fit is lost, or the header is. -/
theorem not_showsAttributes {maxAge : Duration} (hset : cookie.maxAge = some maxAge)
    (hnanos : 0 < maxAge.nanos) (hsecs : maxAge.secs = 2 ^ 64 - 1) :
    ¬cookie.ShowsAttributes overflowChecks := by
  rintro ⟨output, attributes, houtput, hsplit, -, hsets, -⟩
  have hrounded := Duration.roundedUp_of_overflow hnanos hsecs overflowChecks
  rw [display_eq, SetCookie.seconds, hset, Option.elim_some, hrounded] at houtput
  cases overflowChecks with
  | true => simp at houtput
  | false =>
    obtain rfl : _ = output := Option.some.inj houtput
    rw [splitOn_written, List.cons.injEq] at hsplit
    -- the age that was set is not zero, and zero is what is written
    have hage : cookie.Sets (.maxAge (2 ^ 64)) := by
      have hleast := maxAge.roundsUpTo
      rw [if_pos hnanos, hsecs] at hleast
      exact ⟨maxAge, hset, hleast⟩
    have hpart := List.mem_map_of_mem (f := Attribute.part) ((hsets _).mpr hage)
    rw [← hsplit.2] at hpart
    obtain ⟨a, ha, htext⟩ := List.mem_map.mp hpart
    obtain rfl := Attribute.eq_maxAge (List.cons.inj htext).2
    rw [mem_written] at ha
    exact absurd (Option.some.inj ha) (by decide)

/-- The header shows what was set exactly if the age fits. -/
theorem showsAttributes_iff : cookie.ShowsAttributes overflowChecks ↔ cookie.AgeFits := by
  constructor
  · intro hshows maxAge hset
    by_contra hfits
    rw [not_or, not_lt] at hfits
    have hsecs := maxAge.secs_lt
    exact not_showsAttributes hset (Nat.pos_of_ne_zero hfits.1) (by omega) hshows
  · exact showsAttributes_of_fits

end SetCookie

end OasRs
