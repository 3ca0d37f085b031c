import Mathlib.Data.List.Basic
import Mathlib.Data.List.DropRight

/-!
# Reading Bytes as UTF-8

Replacing decoding: every character that the bytes hold is kept, and a run of bytes
that no character begins with becomes one replacement character.

## Main results

- `lossy_encode_append`: the characters in front of any bytes are read back
- `mem_of_mem_lossy`: an ASCII character that is read was there as a byte
-/

namespace OasRs.Lib.Utf8

/-- The bytes of some characters. -/
def encode (chars : List Char) : List UInt8 := chars.flatMap String.utf8EncodeChar

@[simp] theorem encode_nil : encode [] = [] := rfl

@[simp] theorem encode_cons (c : Char) (chars : List Char) :
    encode (c :: chars) = String.utf8EncodeChar c ++ encode chars := rfl

@[simp] theorem encode_append (chars others : List Char) :
    encode (chars ++ others) = encode chars ++ encode others :=
  List.flatMap_append

/-! ## ASCII -/

/-- Bytes as the characters with their numbers. -/
def ascii (bytes : List UInt8) : List Char := bytes.map fun byte => Char.ofNat byte.toNat

theorem toNat_ascii {byte : UInt8} (h : byte < 0x80) : (Char.ofNat byte.toNat).toNat = byte.toNat := by
  have hbyte : byte.toNat < 0x80 := UInt8.lt_iff_toNat_lt.mp h
  have hvalid : byte.toNat.isValidChar := Or.inl (by omega)
  rw [Char.ofNat, dif_pos hvalid]
  rfl

theorem utf8EncodeChar_ascii {byte : UInt8} (h : byte < 0x80) :
    String.utf8EncodeChar (Char.ofNat byte.toNat) = [byte] := by
  have hbyte : byte.toNat < 0x80 := UInt8.lt_iff_toNat_lt.mp h
  have hval : (Char.ofNat byte.toNat).val.toNat = byte.toNat := toNat_ascii h
  rw [String.utf8EncodeChar, if_pos (by omega), hval]
  simp

/-- ASCII bytes are those of their characters. -/
theorem encode_ascii {bytes : List UInt8} (h : ∀ byte ∈ bytes, byte < 0x80) :
    encode (ascii bytes) = bytes := by
  induction bytes with
  | nil => rfl
  | cons byte rest ih =>
    obtain ⟨hbyte, hrest⟩ := List.forall_mem_cons.mp h
    rw [ascii, List.map_cons, encode_cons, utf8EncodeChar_ascii hbyte]
    exact congrArg (byte :: ·) (ih hrest)

/-- An ASCII byte in the encoding of a character is the character. -/
theorem val_of_mem_utf8EncodeChar {c : Char} {byte : UInt8} (hascii : byte.toNat < 0x80)
    (h : byte ∈ String.utf8EncodeChar c) : c.val.toNat = byte.toNat := by
  have htoNat : ∀ n : ℕ, byte = UInt8.ofNat n → byte.toNat = n % 256 := by
    intro n hn
    rw [hn, UInt8.toNat_ofNat']
  fun_cases String.utf8EncodeChar c with
  | case1 v hv =>
    rw [String.utf8EncodeChar, if_pos hv, List.mem_singleton] at h
    have := htoNat _ h
    omega
  | case2 v hv hv' =>
    -- the bytes of a longer encoding are not ASCII
    rw [String.utf8EncodeChar, if_neg hv, if_pos hv', List.mem_cons, List.mem_singleton] at h
    rcases h with h | h
    · have := htoNat _ h
      omega
    · have := htoNat _ h
      omega
  | case3 v hv hv' hv'' =>
    rw [String.utf8EncodeChar, if_neg hv, if_neg hv', if_pos hv'', List.mem_cons, List.mem_cons,
      List.mem_singleton] at h
    rcases h with h | h | h
    · have := htoNat _ h
      omega
    · have := htoNat _ h
      omega
    · have := htoNat _ h
      omega
  | case4 v hv hv' hv'' =>
    rw [String.utf8EncodeChar, if_neg hv, if_neg hv', if_neg hv'', List.mem_cons, List.mem_cons,
      List.mem_cons, List.mem_singleton] at h
    rcases h with h | h | h | h
    · have := htoNat _ h
      omega
    · have := htoNat _ h
      omega
    · have := htoNat _ h
      omega
    · have := htoNat _ h
      omega

/-- An ASCII byte is there only for its character. -/
theorem notMem_encode {c : Char} {byte : UInt8} (hc : String.utf8EncodeChar c = [byte])
    (hascii : byte.toNat < 0x80) {text : List Char} (h : c ∉ text) : byte ∉ encode text := by
  intro hmem
  obtain ⟨x, hx, hbyte⟩ := List.mem_flatMap.mp hmem
  have hcval : c.val.toNat = byte.toNat :=
    val_of_mem_utf8EncodeChar hascii (hc ▸ List.mem_singleton_self byte)
  have hval : x.val.toNat = c.val.toNat := (val_of_mem_utf8EncodeChar hascii hbyte).trans hcval.symm
  exact h (Char.ext (UInt32.toNat_inj.mp hval) ▸ hx)

/-! ## Decoding -/

/-- The character that some bytes begin with. -/
def decodeFirst (bytes : List UInt8) : Option Char := bytes.toByteArray.utf8DecodeChar? 0

/-- How long a character is that begins with a byte. -/
def width (first : UInt8) : ℕ :=
  if first < 0x80 then 1
  else if 0xC2 ≤ first ∧ first ≤ 0xDF then 2
  else if 0xE0 ≤ first ∧ first ≤ 0xEF then 3
  else if 0xF0 ≤ first ∧ first ≤ 0xF4 then 4
  else 0

/-- Whether a byte continues a character. -/
def isContinuation (byte : UInt8) : Bool := 0x80 ≤ byte && byte ≤ 0xBF

/-- Whether a byte may stand behind the first one: no overlong form, no surrogate, no
    number above the last character. -/
def mayFollow (first second : UInt8) : Bool :=
  isContinuation second &&
    if first = 0xE0 then 0xA0 ≤ second
    else if first = 0xED then second ≤ 0x9F
    else if first = 0xF0 then 0x90 ≤ second
    else if first = 0xF4 then second ≤ 0x8F
    else true

/-- The bytes that are replaced together where no character begins: as far as they could
    have been one. -/
def invalidLength : List UInt8 → ℕ
  | first :: second :: rest =>
    if width first < 3 ∨ mayFollow first second = false then 1
    else
      match rest with
      | third :: _ => if width first = 4 ∧ isContinuation third then 3 else 2
      | [] => 2
  | _ => 1

/-- The replacement character. -/
def replacement : Char := '\uFFFD'

/-- Reads on after a number of bytes. -/
def lossyFrom : ℕ → List UInt8 → List Char
  | _, [] => []
  | skip + 1, _ :: rest => lossyFrom skip rest
  | 0, byte :: rest =>
    match decodeFirst (byte :: rest) with
    | some c => c :: lossyFrom (c.utf8Size - 1) rest
    | none => replacement :: lossyFrom (invalidLength (byte :: rest) - 1) rest

/-- The characters of some bytes, with replacements. -/
def lossy (bytes : List UInt8) : List Char := lossyFrom 0 bytes

@[simp] theorem lossy_nil : lossy [] = [] := rfl

theorem lossyFrom_eq_drop (skip : ℕ) (bytes : List UInt8) :
    lossyFrom skip bytes = lossy (bytes.drop skip) := by
  induction bytes generalizing skip with
  | nil => simp [lossyFrom]
  | cons byte rest ih =>
    cases skip with
    | zero => rfl
    | succ skip => exact ih skip

/-! ## Characters are read back -/

@[simp] theorem decodeFirst_utf8EncodeChar (c : Char) (rest : List UInt8) :
    decodeFirst (String.utf8EncodeChar c ++ rest) = some c := by
  rw [decodeFirst, List.toByteArray_append]
  exact ByteArray.utf8DecodeChar?_utf8EncodeChar_append

/-- A character in front is read, and the rest after it. -/
theorem lossy_utf8EncodeChar (c : Char) (rest : List UInt8) :
    lossy (String.utf8EncodeChar c ++ rest) = c :: lossy rest := by
  obtain ⟨byte, more, hbytes⟩ := List.exists_cons_of_ne_nil (String.utf8EncodeChar_ne_nil (c := c))
  have hdecode := decodeFirst_utf8EncodeChar c rest
  have hsize : c.utf8Size - 1 = more.length := by
    have hlength := String.length_utf8EncodeChar c
    rw [hbytes, List.length_cons] at hlength
    omega
  rw [hbytes, List.cons_append] at hdecode ⊢
  rw [lossy, lossyFrom, hdecode]
  simp only
  rw [lossyFrom_eq_drop, hsize, List.drop_left]

theorem lossy_encode_append (chars : List Char) (rest : List UInt8) :
    lossy (encode chars ++ rest) = chars ++ lossy rest := by
  induction chars with
  | nil => rfl
  | cons c chars ih =>
    rw [encode_cons, List.append_assoc, lossy_utf8EncodeChar, ih, List.cons_append]

/-- Nothing is replaced in the bytes of characters. -/
theorem lossy_encode (chars : List Char) : lossy (encode chars) = chars := by
  simpa using lossy_encode_append chars []

/-! ## Where a character comes from -/

/-- A character that is found begins the bytes. -/
theorem decodeFirst_eq_some {bytes : List UInt8} {c : Char} (h : decodeFirst bytes = some c) :
    ∃ rest, bytes = String.utf8EncodeChar c ++ rest := by
  obtain ⟨rest, hrest⟩ := ByteArray.exists_of_utf8DecodeChar?_eq_some h
  refine ⟨rest.data.toList, ?_⟩
  have hlists := congrArg (fun array => array.data.toList) hrest
  simpa using hlists

/-- A character that is read is the replacement, or its bytes are there. -/
theorem mem_of_mem_lossyFrom {c : Char} (hc : c ≠ replacement) {skip : ℕ} {bytes : List UInt8}
    (h : c ∈ lossyFrom skip bytes) : String.utf8EncodeChar c ⊆ bytes := by
  induction bytes generalizing skip with
  | nil => simp [lossyFrom] at h
  | cons byte rest ih =>
    cases skip with
    | succ skip => exact fun b hb => List.mem_cons_of_mem _ (ih h hb)
    | zero =>
      rw [lossyFrom] at h
      cases hdecode : decodeFirst (byte :: rest) with
      | none =>
        rw [hdecode] at h
        rcases List.mem_cons.mp h with rfl | h
        · exact (hc rfl).elim
        · exact fun b hb => List.mem_cons_of_mem _ (ih h hb)
      | some d =>
        rw [hdecode] at h
        rcases List.mem_cons.mp h with rfl | h
        · obtain ⟨tail, htail⟩ := decodeFirst_eq_some hdecode
          exact fun b hb => htail ▸ List.mem_append_left _ hb
        · exact fun b hb => List.mem_cons_of_mem _ (ih h hb)

theorem mem_of_mem_lossy {c : Char} (hc : c ≠ replacement) {bytes : List UInt8}
    (h : c ∈ lossy bytes) : String.utf8EncodeChar c ⊆ bytes :=
  mem_of_mem_lossyFrom hc h

-- a surrogate and a character that is cut off
example : lossy [0x61, 0xED, 0xA0, 0xE2, 0x82, 0x62] =
    ['a', '\uFFFD', '\uFFFD', '\uFFFD', 'b'] := by decide +kernel

end OasRs.Lib.Utf8
