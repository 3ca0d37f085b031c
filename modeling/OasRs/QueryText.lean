import OasRs.Query
import OasRs.Escape
import OasRs.Lib.Pairs
import OasRs.Lib.Utf8

/-!
# Queries as Strings

A query is a `&str`: what is cut out of it is UTF-8 again. And `replace('+', "%2B")` does not
change what a query decodes to.

## Main results

- `validUtf8_of_mem_queryPairs`: the parts of a query are UTF-8
- `queryPairs_replacePlus`, `percentDecode_replacePlus`: a plus sign may be escaped
-/

namespace OasRs

open Lib Lib.Pairs
open Lib.Utf8 (val_of_mem_utf8EncodeChar)

/-! ## UTF-8 -/

/-- A separator that is ASCII can be looked for in the bytes. -/
theorem keeps_utf8EncodeChar {c : Char} {byte : UInt8} (hascii : byte.toNat < 0x80)
    (hc : String.utf8EncodeChar c = [byte]) : Keeps String.utf8EncodeChar c byte where
  self := hc
  other := by
    intro x hx hmem
    have hbyte : c.val.toNat = byte.toNat :=
      val_of_mem_utf8EncodeChar hascii (by rw [hc]; exact List.mem_singleton_self byte)
    have hval : x.val.toNat = c.val.toNat := (val_of_mem_utf8EncodeChar hascii hmem).trans hbyte.symm
    exact hx (Char.ext (UInt32.toNat_inj.mp hval))

theorem validUtf8_flatMap (chars : List Char) :
    validUtf8 (chars.flatMap String.utf8EncodeChar) = true := by
  rw [validUtf8, decide_eq_true_iff]
  exact .intro chars rfl

theorem str_injective : Function.Injective str := by
  intro s s' h
  apply String.toByteArray_inj.mp
  rw [← String.utf8Encode_toList, ← String.utf8Encode_toList]
  exact congrArg List.toByteArray h

/-! ## Pairs -/

theorem splitOnce_singleton (byte : UInt8) (text : Text) : splitOnce [byte] text = cut byte text := by
  induction text with
  | nil => rfl
  | cons x text ih =>
    rw [splitOnce, cut, ih]
    by_cases hx : x = byte
    · simp [hx]
    · simp [hx, Ne.symm hx]

theorem queryPairs_eq (query : Text) : queryPairs query = pairsOf ampersand equalsSign query := by
  rw [queryPairs, pairsOf]
  apply List.map_congr_left
  intro piece _
  rw [splitOnce_singleton]

/-- The pairs of a string are cut at its characters. -/
theorem queryPairs_str (query : String) :
    queryPairs (str query) = (pairsOf '&' '=' query.toList).map fun pair =>
      (pair.1.flatMap String.utf8EncodeChar, pair.2.flatMap String.utf8EncodeChar) := by
  rw [queryPairs_eq, str]
  apply pairsOf_flatMap
  · exact keeps_utf8EncodeChar (by decide) (by decide)
  · exact keeps_utf8EncodeChar (by decide) (by decide)
  · exact fun _ => String.utf8EncodeChar_ne_nil

/-- **The parts of a query are UTF-8.** -/
theorem validUtf8_of_mem_queryPairs {query : String} {pair : Text × Text}
    (h : pair ∈ queryPairs (str query)) : validUtf8 pair.1 = true ∧ validUtf8 pair.2 = true := by
  rw [queryPairs_str, List.mem_map] at h
  obtain ⟨chars, -, rfl⟩ := h
  exact ⟨validUtf8_flatMap _, validUtf8_flatMap _⟩

/-! ## Plus signs -/

/-- `replace('+', "%2B")` -/
abbrev escapePlus (text : Text) : Text := replacePlus (str "%2B") text

theorem queryPairs_replacePlus (query : Text) :
    queryPairs (escapePlus query) =
      (queryPairs query).map fun pair => (escapePlus pair.1, escapePlus pair.2) := by
  have hkeeps : ∀ separator : UInt8, separator ≠ plus → separator ∉ str "%2B" →
      Keeps (fun byte => if byte = plus then str "%2B" else [byte]) separator separator := by
    intro separator hplus hescape
    refine ⟨if_neg hplus, fun byte hbyte => ?_⟩
    split
    · exact hescape
    · rw [List.mem_singleton]
      exact Ne.symm hbyte
  rw [queryPairs_eq, queryPairs_eq]
  apply pairsOf_flatMap
  · exact hkeeps ampersand (by decide) (by decide)
  · exact hkeeps equalsSign (by decide) (by decide)
  · intro byte
    split
    · decide
    · exact List.cons_ne_nil _ _

theorem plus_not_mem_replacePlus (text : Text) : plus ∉ escapePlus text := by
  rw [escapePlus, replacePlus, List.mem_flatMap]
  rintro ⟨byte, -, h⟩
  split at h
  · revert h
    decide
  · rw [List.mem_singleton] at h
    exact ‹¬ byte = plus› h.symm

theorem replacePlus_cons {byte : UInt8} (h : byte ≠ plus) (text : Text) :
    escapePlus (byte :: text) = byte :: escapePlus text := by
  rw [escapePlus, replacePlus, List.flatMap_cons, if_neg h]
  rfl

theorem unescape_replacePlus {text output : Text} (h : unescape text = .ok output) :
    unescape (escapePlus text) = .ok output := by
  have hdigit : ∀ byte : UInt8, (hex byte).isSome → byte ≠ plus := by
    intro byte hsome hbyte
    rw [hbyte] at hsome
    revert hsome
    decide
  induction output generalizing text with
  | nil =>
    rcases unescape_cases h with ⟨rfl, -⟩ | ⟨_, _, _, _, _, _, -, -, -, hd, -⟩ |
      ⟨_, _, _, -, -, hd, -⟩
    · rfl
    · cases hd
    · cases hd
  | cons byte output ih =>
    rcases unescape_cases h with ⟨-, hd⟩ | ⟨high, low, n, m, rest, d, rfl, hh, hl, hd, hr⟩ |
      ⟨b, rest, d, rfl, hb, hd, hr⟩
    · cases hd
    · -- an escape is kept
      obtain ⟨rfl, rfl⟩ := List.cons.inj hd
      rw [replacePlus_cons (by decide), replacePlus_cons (hdigit high (by rw [hh]; rfl)),
        replacePlus_cons (hdigit low (by rw [hl]; rfl)), unescape_escape hh hl, ih hr]
      rfl
    · obtain ⟨rfl, rfl⟩ := List.cons.inj hd
      by_cases hplus : byte = plus
      · -- a plus sign is escaped, and decoded again
        subst hplus
        show unescape (percent :: 0x32 :: 0x42 :: escapePlus rest) = _
        rw [unescape_escape (h := 2) (l := 11) rfl rfl, ih hr]
        rfl
      · rw [replacePlus_cons hplus, unescape_cons_of_ne hb, ih hr]
        rfl

/-- **Where a text decodes, its plus signs may be escaped first.** -/
theorem percentDecode_replacePlus {text output : Text} (h : percentDecode text = .ok output) :
    percentDecode (escapePlus text) = .ok output := by
  rw [percentDecode_eq_ok] at h ⊢
  exact ⟨unescape_replacePlus h.1, h.2⟩

end OasRs
