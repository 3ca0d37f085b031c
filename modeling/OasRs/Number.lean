import OasRs.Text
import Mathlib.Algebra.Group.Nat.Defs

/-!
# Numbers as Text

`to_string` and `FromStr` of the integer types, over bytes.

## Main results

- `parseUnsigned_decimal`: a number that is written and read again
- `hexadecimal_injective`: different numbers are written differently
-/

namespace OasRs

/-- `b'+'` -/
def plus : UInt8 := 0x2B

/-- `b'-'` -/
def minus : UInt8 := 0x2D

/-- `usize::MAX`, and `u64::MAX` -/
def usizeMax : ℕ := 2 ^ 64 - 1

/-- `to_digit(10)` -/
def toDigit (byte : UInt8) : Option ℕ :=
  if 0x30 ≤ byte ∧ byte ≤ 0x39 then some (byte.toNat - 0x30) else none

/-- The number that some digits write. -/
def digitsValue (digits : Text) : Option ℕ :=
  digits.foldlM (fun value byte => (toDigit byte).map (10 * value + ·)) 0

/-- At least one digit, and nothing else. -/
def decimalValue (digits : Text) : Option ℕ := if digits = [] then none else digitsValue digits

/-- `from_str` of an unsigned type: a plus sign may stand first, the number is at most
    `MAX`. -/
def parseUnsigned (max : ℕ) (text : Text) : Option ℕ :=
  let digits := if text.head? = some plus then text.tail else text
  (decimalValue digits).filter (· ≤ max)

/-- `from_str` of a signed type: a minus sign may stand first as well, the number is at least
    `MIN`. -/
def parseSigned (min : ℤ) (max : ℕ) (text : Text) : Option ℤ :=
  if text.head? = some minus then ((decimalValue text.tail).map fun n : ℕ => -(n : ℤ)).filter (min ≤ ·)
  else (parseUnsigned max text).map Int.ofNat

/-- The byte of a digit. -/
def digitByte (digit : ℕ) : UInt8 := UInt8.ofNat (0x30 + digit)

/-- `to_string` of a natural number -/
def decimal (n : ℕ) : Text :=
  if n < 10 then [digitByte n] else decimal (n / 10) ++ [digitByte (n % 10)]

/-- The byte of a hexadecimal digit, in lower case. -/
def hexDigitByte (digit : ℕ) : UInt8 := UInt8.ofNat (if digit < 10 then 0x30 + digit else 0x57 + digit)

/-- `format!("{n:x}")` -/
def hexadecimal (n : ℕ) : Text :=
  if n < 16 then [hexDigitByte n] else hexadecimal (n / 16) ++ [hexDigitByte (n % 16)]

/-! ## Facts -/

theorem toDigit_digitByte {digit : ℕ} (h : digit < 10) : toDigit (digitByte digit) = some digit := by
  have hall : ∀ d : Fin 10, toDigit (digitByte d) = some d.val := by decide
  exact hall ⟨digit, h⟩

theorem digitsValue_append (digits : Text) (byte : UInt8) :
    digitsValue (digits ++ [byte]) =
      (digitsValue digits).bind fun value => (toDigit byte).map (10 * value + ·) := by
  rw [digitsValue, List.foldlM_append]
  cases hvalue : digitsValue digits with
  | none => rw [← digitsValue, hvalue]; rfl
  | some value =>
    rw [← digitsValue, hvalue, Option.bind_eq_bind, Option.bind_some, List.foldlM_cons]
    simp

theorem decimal_ne_nil (n : ℕ) : decimal n ≠ [] := by
  rw [decimal]
  split
  · exact List.cons_ne_nil _ _
  · exact List.append_ne_nil_of_right_ne_nil _ (List.cons_ne_nil _ _)

theorem digitsValue_decimal (n : ℕ) : digitsValue (decimal n) = some n := by
  induction n using decimal.induct with
  | case1 n hn =>
    rw [decimal, if_pos hn]
    rw [digitsValue, List.foldlM_cons, toDigit_digitByte hn]
    simp
  | case2 n hn ih =>
    rw [decimal, if_neg hn, digitsValue_append, ih, Option.bind_some,
      toDigit_digitByte (Nat.mod_lt n (by decide)), Option.map_some]
    congr 1
    exact Nat.div_add_mod n 10

/-- A decimal number begins with a digit. -/
theorem head_decimal (n : ℕ) : ∃ digit < 10, (decimal n).head? = some (digitByte digit) := by
  induction n using decimal.induct with
  | case1 n hn => exact ⟨n, hn, by rw [decimal, if_pos hn]; rfl⟩
  | case2 n hn ih =>
    obtain ⟨digit, hdigit, hhead⟩ := ih
    refine ⟨digit, hdigit, ?_⟩
    rw [decimal, if_neg hn, List.head?_append, hhead]
    rfl

/-- The bytes of a decimal number are digits. -/
theorem mem_decimal {n : ℕ} {byte : UInt8} (h : byte ∈ decimal n) :
    ∃ digit < 10, byte = digitByte digit := by
  induction n using decimal.induct with
  | case1 n hn =>
    rw [decimal, if_pos hn, List.mem_singleton] at h
    exact ⟨n, hn, h⟩
  | case2 n hn ih =>
    rw [decimal, if_neg hn, List.mem_append, List.mem_singleton] at h
    rcases h with h | h
    · exact ih h
    · exact ⟨n % 10, Nat.mod_lt n (by decide), h⟩

/-- A number that is written is read again. -/
theorem parseUnsigned_decimal {n max : ℕ} (h : n ≤ max) :
    parseUnsigned max (decimal n) = some n := by
  obtain ⟨digit, hdigit, hhead⟩ := head_decimal n
  have hplus : (decimal n).head? ≠ some plus := by
    have hall : ∀ d : Fin 10, digitByte d ≠ plus := by decide
    rw [hhead, ne_eq, Option.some.injEq]
    exact hall ⟨digit, hdigit⟩
  rw [parseUnsigned, if_neg hplus, decimalValue, if_neg (decimal_ne_nil n), digitsValue_decimal]
  simp [h]

/-! ### Hexadecimal -/

theorem hexDigitByte_inj {a b : ℕ} (ha : a < 16) (hb : b < 16) (h : hexDigitByte a = hexDigitByte b) :
    a = b := by
  have hall : ∀ a b : Fin 16, hexDigitByte a = hexDigitByte b → a = b := by decide
  exact congrArg Fin.val (hall ⟨a, ha⟩ ⟨b, hb⟩ h)

theorem hexadecimal_of_lt {n : ℕ} (h : n < 16) : hexadecimal n = [hexDigitByte n] := by
  rw [hexadecimal, if_pos h]

theorem hexadecimal_of_not_lt {n : ℕ} (h : ¬ n < 16) :
    hexadecimal n = hexadecimal (n / 16) ++ [hexDigitByte (n % 16)] := by
  rw [hexadecimal, if_neg h]

theorem hexadecimal_ne_nil (n : ℕ) : hexadecimal n ≠ [] := by
  rw [hexadecimal]
  split
  · exact List.cons_ne_nil _ _
  · exact List.append_ne_nil_of_right_ne_nil _ (List.cons_ne_nil _ _)

/-- The bytes of a hexadecimal number are digits. -/
theorem mem_hexadecimal {n : ℕ} {byte : UInt8} (h : byte ∈ hexadecimal n) :
    ∃ digit < 16, byte = hexDigitByte digit := by
  induction n using hexadecimal.induct with
  | case1 n hn =>
    rw [hexadecimal_of_lt hn, List.mem_singleton] at h
    exact ⟨n, hn, h⟩
  | case2 n hn ih =>
    rw [hexadecimal_of_not_lt hn, List.mem_append, List.mem_singleton] at h
    rcases h with h | h
    · exact ih h
    · exact ⟨n % 16, Nat.mod_lt n (by decide), h⟩

/-- Different numbers are written differently. -/
theorem hexadecimal_injective : Function.Injective hexadecimal := by
  intro n
  -- from the last digit to the first one
  induction n using hexadecimal.induct with
  | case1 n hn =>
    intro m h
    by_cases hm : m < 16
    · rw [hexadecimal_of_lt hn, hexadecimal_of_lt hm, List.singleton_inj] at h
      exact hexDigitByte_inj hn hm h
    · rw [hexadecimal_of_lt hn, hexadecimal_of_not_lt hm] at h
      have hlength := congrArg List.length h
      have hpos := List.length_pos_iff.mpr (hexadecimal_ne_nil (m / 16))
      simp only [List.length_append, List.length_singleton] at hlength
      omega
  | case2 n hn ih =>
    intro m h
    by_cases hm : m < 16
    · rw [hexadecimal_of_not_lt hn, hexadecimal_of_lt hm] at h
      have hlength := congrArg List.length h
      have hpos := List.length_pos_iff.mpr (hexadecimal_ne_nil (n / 16))
      simp only [List.length_append, List.length_singleton] at hlength
      omega
    · rw [hexadecimal_of_not_lt hn, hexadecimal_of_not_lt hm] at h
      obtain ⟨hrest, hlast⟩ := List.append_inj' h rfl
      have hquotient := ih hrest
      have hdigit := hexDigitByte_inj (Nat.mod_lt n (by decide)) (Nat.mod_lt m (by decide))
        (List.singleton_inj.mp hlast)
      omega

end OasRs
