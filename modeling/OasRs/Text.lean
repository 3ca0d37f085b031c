import OasRs.Lib.Tokens

/-!
# Text and Percent Encoding

Strings are byte lists, as the source reads them (`as_bytes`). This module models
the part of `src/codec.rs` that the router and the scopes use.
-/

namespace OasRs

/-- A `&str` or a `String`: its UTF-8 bytes. -/
abbrev Text : Type := List UInt8

/-- The bytes of a string literal. -/
def str (s : String) : Text := s.toList.flatMap String.utf8EncodeChar

/-- `b'/'` -/
def slash : UInt8 := 0x2F

/-- `b'%'` -/
def percent : UInt8 := 0x25

/-- `b'{'` -/
def openBrace : UInt8 := 0x7B

/-- `b'}'` -/
def closeBrace : UInt8 := 0x7D

/-- `str::trim_end_matches('/')` -/
def trimEnd (s : Text) : Text := s.rdropWhile (· == slash)

/-- `str::trim_matches('/')` -/
def trimSlashes (s : Text) : Text := trimEnd (s.dropWhile (· == slash))

/-- `str::from_utf8(..).is_ok()` -/
def validUtf8 (s : Text) : Bool := decide s.toByteArray.IsValidUTF8

/-! ## `codec.rs` -/

/-- `hex` -/
def hex (value : UInt8) : Option UInt8 :=
  if 0x30 ≤ value ∧ value ≤ 0x39 then some (value - 0x30)
  else if 0x61 ≤ value ∧ value ≤ 0x66 then some (value - 0x61 + 10)
  else if 0x41 ≤ value ∧ value ≤ 0x46 then some (value - 0x41 + 10)
  else none

/-- The two ways `percent_decode` fails, each an `ApiError::bad_request`. -/
inductive DecodeError where
  | percentEncoding
  | utf8
  deriving DecidableEq, Repr

/-- The detail of the `400` response. -/
def DecodeError.detail : DecodeError → String
  | .percentEncoding => "invalid percent encoding"
  | .utf8 => "invalid UTF-8 in percent encoding"

/-- The loop of `percent_decode`. The source copies a run of literal bytes at a
    time, this copies the run byte by byte. -/
def unescape : Text → Except DecodeError Text
  | [] => .ok []
  | byte :: rest =>
    if byte = percent then
      match rest with
      | high :: low :: rest =>
        match hex high, hex low with
        | some high, some low => (unescape rest).map ((high * 16 + low) :: ·)
        | _, _ => .error .percentEncoding
      | _ => .error .percentEncoding
    else (unescape rest).map (byte :: ·)

/-- `percent_decode` -/
def percentDecode (value : Text) : Except DecodeError Text := do
  let output ← unescape value
  if validUtf8 output then .ok output else .error .utf8

/-- `valid_percent_encoding` -/
def validPercentEncoding : Text → Bool
  | [] => true
  | byte :: rest =>
    if byte = percent then
      match rest with
      | high :: low :: rest => (hex high).isSome && (hex low).isSome && validPercentEncoding rest
      | _ => false
    else validPercentEncoding rest

/-! ## Facts -/

/-- Trimming does not change the segments of a path. -/
theorem tokens_trimEnd (s : Text) : Lib.Tokens.tokens slash (trimEnd s) = Lib.Tokens.tokens slash s :=
  Lib.Tokens.tokens_rdropWhile s

theorem tokens_trimSlashes (s : Text) :
    Lib.Tokens.tokens slash (trimSlashes s) = Lib.Tokens.tokens slash s := by
  rw [trimSlashes, tokens_trimEnd, Lib.Tokens.tokens_dropWhile]

@[simp] theorem unescape_nil : unescape [] = .ok [] := rfl

theorem unescape_cons_of_ne {byte : UInt8} (h : byte ≠ percent) (rest : Text) :
    unescape (byte :: rest) = (unescape rest).map (byte :: ·) := by
  rw [unescape.eq_def]
  simp [h]

theorem unescape_escape {high low h l : UInt8} (hh : hex high = some h) (hl : hex low = some l)
    (rest : Text) :
    unescape (percent :: high :: low :: rest) = (unescape rest).map ((h * 16 + l) :: ·) := by
  rw [unescape.eq_def]
  simp [hh, hl]

/-- A text without escapes decodes to itself. -/
theorem unescape_of_not_mem {s : Text} (h : percent ∉ s) : unescape s = .ok s := by
  induction s with
  | nil => rfl
  | cons byte rest ih =>
    rw [List.mem_cons, not_or] at h
    rw [unescape_cons_of_ne (Ne.symm h.1), ih h.2]
    rfl

/-- The router's check is the first half of decoding. -/
theorem validPercentEncoding_iff (s : Text) :
    validPercentEncoding s = true ↔ ∃ output, unescape s = .ok output := by
  induction s using validPercentEncoding.induct with
  | case1 => simp [validPercentEncoding]
  | case2 high low rest ih =>
    have hvalid : validPercentEncoding (percent :: high :: low :: rest) =
        ((hex high).isSome && (hex low).isSome && validPercentEncoding rest) := rfl
    have hdecode : unescape (percent :: high :: low :: rest) =
        match hex high, hex low with
        | some h, some l => (unescape rest).map ((h * 16 + l) :: ·)
        | _, _ => .error .percentEncoding := rfl
    rw [hvalid, hdecode]
    cases hex high with
    | none => simp
    | some h =>
      cases hex low with
      | none => simp
      | some l =>
        simp only [Option.isSome_some, Bool.true_and, ih]
        cases unescape rest <;> simp [Except.map]
  | case3 rest hshort =>
    match rest, hshort with
    | [], _ => simp [validPercentEncoding, unescape]
    | [_], _ => simp [validPercentEncoding, unescape]
    | a :: b :: c, hshort => exact (hshort a b c rfl).elim
  | case4 byte rest hne ih =>
    rw [unescape_cons_of_ne hne, validPercentEncoding.eq_def]
    simp only [hne, if_false, ih]
    cases unescape rest <;> simp [Except.map]

example : percentDecode (str "%61dmin%2F") = .ok (str "admin/") := by decide +kernel
example : percentDecode (str "%FF") = .error .utf8 := by decide +kernel

end OasRs
