import Mathlib.Algebra.Order.Group.Nat
import Mathlib.Data.List.Basic
import Mathlib.Tactic.Common

/-!
# Base64

The encoding of RFC 4648, section 4: three bytes as four digits, with padding at the end.

## Overview

- `encode`
- `encode_eq`: digits, and then the padding
-/

namespace OasRs.Lib.Base64

/-- The digit for six bits. -/
def digit (n : ℕ) : UInt8 :=
  if n < 26 then .ofNat (0x41 + n)
  else if n < 52 then .ofNat (0x61 + (n - 26))
  else if n < 62 then .ofNat (0x30 + (n - 52))
  else if n = 62 then 0x2B
  else 0x2F

/-- `=` -/
def pad : UInt8 := 0x3D

/-- The digits of three bytes. -/
def group (a b c : UInt8) : List UInt8 :=
  [digit (a.toNat / 4), digit (a.toNat % 4 * 16 + b.toNat / 16),
    digit (b.toNat % 16 * 4 + c.toNat / 64), digit (c.toNat % 64)]

def encode : List UInt8 → List UInt8
  | [] => []
  | [a] => [digit (a.toNat / 4), digit (a.toNat % 4 * 16), pad, pad]
  | [a, b] =>
    [digit (a.toNat / 4), digit (a.toNat % 4 * 16 + b.toNat / 16), digit (b.toNat % 16 * 4), pad]
  | a :: b :: c :: rest => group a b c ++ encode rest

/-- A letter, a figure, `+` or `/`. -/
def isDigit (byte : UInt8) : Bool :=
  (0x41 ≤ byte && byte ≤ 0x5A) || (0x61 ≤ byte && byte ≤ 0x7A) || (0x30 ≤ byte && byte ≤ 0x39) ||
    byte == 0x2B || byte == 0x2F

theorem isDigit_digit (n : ℕ) : isDigit (digit n) = true := by
  have hall : ∀ i : Fin 64, isDigit (digit i) = true := by decide
  by_cases h : n < 64
  · exact hall ⟨n, h⟩
  · have hlast : digit n = digit 63 := by
      simp only [digit]
      split_ifs <;> first | omega | rfl
    rw [hlast]
    exact hall 63

/-- An encoding: digits, and so much padding that there are four for three bytes. -/
theorem encode_eq (bytes : List UInt8) :
    ∃ digits, encode bytes = digits ++ List.replicate ((3 - bytes.length % 3) % 3) pad ∧
      (∀ byte ∈ digits, isDigit byte = true) ∧ digits.length = (8 * bytes.length + 5) / 6 := by
  induction bytes using encode.induct with
  | case1 => exact ⟨[], rfl, nofun, rfl⟩
  | case2 a => exact ⟨[_, _], rfl, by simp [isDigit_digit], by simp⟩
  | case3 a b => exact ⟨[_, _, _], rfl, by simp [isDigit_digit], by simp⟩
  | case4 a b c rest ih =>
    obtain ⟨digits, hencode, hdigits, hlength⟩ := ih
    have hmod : (a :: b :: c :: rest).length % 3 = rest.length % 3 := by
      simp only [List.length_cons]
      omega
    refine ⟨group a b c ++ digits, ?_, ?_, ?_⟩
    · rw [encode, hencode, hmod, List.append_assoc]
    · intro byte hbyte
      rcases List.mem_append.mp hbyte with hgroup | hrest
      · simp only [group, List.mem_cons, List.not_mem_nil, or_false] at hgroup
        rcases hgroup with rfl | rfl | rfl | rfl <;> exact isDigit_digit _
      · exact hdigits byte hrest
    · simp only [List.length_append, List.length_cons, group, List.length_nil, hlength]
      omega

end OasRs.Lib.Base64
