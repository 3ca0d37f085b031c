import OasRs.Middleware

/-!
# Spellings of a Segment

The texts that decode to the same bytes, and how a literal of a scope reads them. Which
bytes can stand in a request path at all is decided by the `http` crate; it is the
parameter `legal` here, and all that is used of it is that a `%` and hex digits are
legal.

## Main results

- `covers_literal_iff`: a literal covers a segment that decodes to it, or is spelled
  like it
- `spelling_unique`: the texts without another spelling
- `exists_spelling`: every other text has one
-/

namespace OasRs

/-! ## Escaping -/

/-- `0`..`9`, `A`..`F` -/
def hexUpper (n : UInt8) : UInt8 := if n < 10 then n + 0x30 else n + 0x37

/-- `0`..`9`, `a`..`f` -/
def hexLower (n : UInt8) : UInt8 := if n < 10 then n + 0x30 else n + 0x57

/-- The escape of a byte. -/
def escapeByte (digit : UInt8 → UInt8) (b : UInt8) : Text := [percent, digit (b / 16), digit (b % 16)]

/-- A text with every byte escaped. -/
def escape (digit : UInt8 → UInt8) (s : Text) : Text := s.flatMap (escapeByte digit)

/-- Every byte is one of 256. -/
theorem forall_byte {P : UInt8 → Prop} (h : ∀ n : Fin 256, P (UInt8.ofNat n)) (b : UInt8) : P b := by
  have := h ⟨b.toNat, b.toNat_lt⟩
  simpa using this

/-- A digit function writes the digits that `hex` reads. -/
structure WritesHex (digit : UInt8 → UInt8) : Prop where
  high : ∀ b, hex (digit (b / 16)) = some (b / 16)
  low : ∀ b, hex (digit (b % 16)) = some (b % 16)

theorem writesHex_upper : WritesHex hexUpper where
  high := forall_byte (by decide +kernel)
  low := forall_byte (by decide +kernel)

theorem writesHex_lower : WritesHex hexLower where
  high := forall_byte (by decide +kernel)
  low := forall_byte (by decide +kernel)

theorem nibbles (b : UInt8) : b / 16 * 16 + b % 16 = b := by
  revert b
  exact forall_byte (by decide +kernel)

/-- An escaped byte in front of a text. -/
theorem unescape_escapeByte {digit : UInt8 → UInt8} (hdigit : WritesHex digit) (b : UInt8)
    (rest : Text) :
    unescape (escapeByte digit b ++ rest) = (unescape rest).map (b :: ·) := by
  show unescape (percent :: digit (b / 16) :: digit (b % 16) :: rest) = _
  rw [unescape_escape (hdigit.high b) (hdigit.low b), nibbles]

/-- Escaping is undone by decoding. -/
theorem unescape_escape_append {digit : UInt8 → UInt8} (hdigit : WritesHex digit) (s rest : Text) :
    unescape (escape digit s ++ rest) = (unescape rest).map (s ++ ·) := by
  induction s with
  | nil => cases h : unescape rest <;> simp [escape, h, Except.map]
  | cons b s ih =>
    have hcons : escape digit (b :: s) ++ rest = escapeByte digit b ++ (escape digit s ++ rest) := by
      simp [escape]
    rw [hcons, unescape_escapeByte hdigit, ih]
    cases unescape rest <;> rfl

theorem unescape_escape_self {digit : UInt8 → UInt8} (hdigit : WritesHex digit) (s : Text) :
    unescape (escape digit s) = .ok s := by
  have := unescape_escape_append hdigit s []
  simpa [Except.map] using this

theorem hex_lt {b n : UInt8} (h : hex b = some n) : n < 16 := by
  have : ∀ b : UInt8, ∀ n ∈ hex b, n < 16 := forall_byte (by decide +kernel)
  exact this b n h

/-- A hex digit is the upper or the lower case digit of its value. -/
theorem eq_digit_of_hex {b n : UInt8} (h : hex b = some n) : b = hexUpper n ∨ b = hexLower n := by
  have : ∀ b : UInt8, ∀ n ∈ hex b, b = hexUpper n ∨ b = hexLower n :=
    forall_byte (by decide +kernel)
  exact this b n h

/-- Two nibbles make a byte with these nibbles. -/
theorem nibbles_of_lt {high low : UInt8} (hhigh : high < 16) (hlow : low < 16) :
    (high * 16 + low) / 16 = high ∧ (high * 16 + low) % 16 = low := by
  have : ∀ n m : Fin 16, (UInt8.ofNat n * 16 + UInt8.ofNat m) / 16 = UInt8.ofNat n ∧
      (UInt8.ofNat n * 16 + UInt8.ofNat m) % 16 = UInt8.ofNat m := by decide +kernel
  simpa using this ⟨high.toNat, hhigh⟩ ⟨low.toNat, hlow⟩

/-- What decoding reads: nothing, an escape, or a byte that stands for itself. -/
theorem unescape_cases {v d : Text} (h : unescape v = .ok d) :
    (v = [] ∧ d = []) ∨
    (∃ high low n m rest d', v = percent :: high :: low :: rest ∧ hex high = some n ∧
      hex low = some m ∧ d = (n * 16 + m) :: d' ∧ unescape rest = .ok d') ∨
    (∃ b rest d', v = b :: rest ∧ b ≠ percent ∧ d = b :: d' ∧ unescape rest = .ok d') := by
  match v with
  | [] => exact .inl ⟨rfl, (Except.ok.inj h).symm⟩
  | b :: rest =>
    by_cases hb : b = percent
    · subst hb
      match rest with
      | [] => simp [unescape] at h
      | [_] => simp [unescape] at h
      | high :: low :: rest =>
        cases hh : hex high with
        | none => simp [unescape, hh] at h
        | some n =>
          cases hl : hex low with
          | none => simp [unescape, hh, hl] at h
          | some m =>
            rw [unescape_escape hh hl] at h
            cases hr : unescape rest with
            | error e => simp [hr, Except.map] at h
            | ok d' =>
              simp only [hr, Except.map, Except.ok.injEq] at h
              exact .inr (.inl ⟨high, low, n, m, rest, d', rfl, hh, hl, h.symm, hr⟩)
    · rw [unescape_cons_of_ne hb] at h
      cases hr : unescape rest with
      | error e => simp [hr, Except.map] at h
      | ok d' =>
        simp only [hr, Except.map, Except.ok.injEq] at h
        exact .inr (.inr ⟨b, rest, d', rfl, hb, h.symm, hr⟩)

/-- Decoding does not lengthen a text. -/
theorem length_le_of_unescape {v d : Text} (h : unescape v = .ok d) : d.length ≤ v.length := by
  induction d generalizing v with
  | nil => exact Nat.zero_le _
  | cons b d ih =>
    rcases unescape_cases h with ⟨-, h⟩ | ⟨high, low, n, m, rest, d', rfl, -, -, h, hr⟩ |
      ⟨c, rest, d', rfl, -, h, hr⟩
    · cases h
    · rw [List.cons.injEq] at h
      obtain ⟨rfl, rfl⟩ := h
      have := ih hr
      simp only [List.length_cons]
      omega
    · rw [List.cons.injEq] at h
      obtain ⟨rfl, rfl⟩ := h
      have := ih hr
      simp only [List.length_cons]
      omega

/-- An escape decodes to something shorter. -/
theorem length_lt_of_unescape {v d : Text} (h : unescape v = .ok d) (hmem : percent ∈ v) :
    d.length < v.length := by
  induction d generalizing v with
  | nil =>
    exact List.length_pos_of_mem hmem
  | cons b d ih =>
    rcases unescape_cases h with ⟨-, h⟩ | ⟨high, low, n, m, rest, d', rfl, -, -, h, hr⟩ |
      ⟨c, rest, d', rfl, hc, h, hr⟩
    · cases h
    · rw [List.cons.injEq] at h
      obtain ⟨rfl, rfl⟩ := h
      have := length_le_of_unescape hr
      simp only [List.length_cons]
      omega
    · rw [List.cons.injEq] at h
      obtain ⟨rfl, rfl⟩ := h
      have hrest : percent ∈ rest := (List.mem_cons.mp hmem).resolve_left (Ne.symm hc)
      have := ih hr hrest
      simp only [List.length_cons]
      omega

/-! ## Literals of a scope -/

theorem percentDecode_eq_ok {v d : Text} :
    percentDecode v = .ok d ↔ unescape v = .ok d ∧ validUtf8 d = true := by
  rw [percentDecode, bind_eq_ok]
  constructor
  · rintro ⟨a, ha, h⟩
    split at h
    · cases h
      exact ⟨ha, ‹_›⟩
    · cases h
  · rintro ⟨hu, hv⟩
    exact ⟨d, hu, if_pos hv⟩

/-- A literal covers a segment that decodes to it, and one that is spelled like it. -/
theorem covers_literal_iff {l v d : Text} (h : percentDecode v = .ok d) :
    (ScopeSegment.literal l).covers v = true ↔ d = l ∨ (v = l ∧ percent ∈ l) := by
  simp only [ScopeSegment.covers, decodedEquals, h, Bool.or_eq_true, Bool.and_eq_true, beq_iff_eq,
    List.contains_eq_mem, decide_eq_true_eq]
  by_cases hv : percent ∈ v
  · constructor
    · rintro (rfl | ⟨-, rfl⟩)
      · exact .inr ⟨rfl, hv⟩
      · exact .inl rfl
    · rintro (rfl | ⟨rfl, -⟩)
      · exact .inr ⟨hv, rfl⟩
      · exact .inl rfl
  · -- a segment without escapes decodes to itself
    have hd : d = v := by
      have := (percentDecode_eq_ok.mp h).1
      rw [unescape_of_not_mem hv] at this
      exact (Except.ok.inj this).symm
    constructor
    · rintro (rfl | ⟨hv', -⟩)
      · exact .inl hd
      · exact absurd hv' hv
    · rintro (rfl | ⟨rfl, hl⟩)
      · exact .inl hd.symm
      · exact absurd hl hv

/-! ## Texts with one spelling -/

section Legal

variable (legal : UInt8 → Bool)

/-- Whether a byte can stand in a segment of a request path without being escaped. -/
def plain (b : UInt8) : Bool := legal b && b != percent && b != slash

/-- Every spelling of the literal is the literal itself, in a request path: it has no
    escapes, it does not decode, it cannot stand there, or it consists of escapes that
    have no hex letters and no plain form. -/
def Stable (l : Text) : Prop :=
  percent ∉ l ∨ (∃ b ∈ l, legal b = false) ∨
    ∀ d, percentDecode l = .ok d →
      l = escape hexUpper d ∧ l = escape hexLower d ∧ ∀ b ∈ d, plain legal b = false

variable {legal}

theorem escape_cons (digit : UInt8 → UInt8) (b : UInt8) (s : Text) :
    escape digit (b :: s) = percent :: digit (b / 16) :: digit (b % 16) :: escape digit s := by
  simp [escape, escapeByte]

theorem length_escape (digit : UInt8 → UInt8) (s : Text) : (escape digit s).length = 3 * s.length := by
  induction s with
  | nil => rfl
  | cons b s ih =>
    rw [escape_cons]
    simp only [List.length_cons, ih]
    omega

/-- Bytes that have to be escaped, without hex letters, are spelled in one way. -/
theorem spelling_unique {v d : Text} (hv : unescape v = .ok d) (hlegal : ∀ b ∈ v, legal b = true)
    (hslash : slash ∉ v) (hplain : ∀ b ∈ d, plain legal b = false)
    (hcase : escape hexUpper d = escape hexLower d) : v = escape hexUpper d := by
  induction d generalizing v with
  | nil =>
    rcases unescape_cases hv with ⟨rfl, -⟩ | ⟨_, _, _, _, _, _, -, -, -, h, -⟩ | ⟨_, _, _, -, -, h, -⟩
    · rfl
    · cases h
    · cases h
  | cons b d ih =>
    rw [escape_cons, escape_cons] at hcase
    simp only [List.cons.injEq, true_and] at hcase
    obtain ⟨hhigh, hlow, hcase⟩ := hcase
    rcases unescape_cases hv with ⟨-, h⟩ | ⟨high, low, n, m, rest, d', rfl, hh, hl, h, hr⟩ |
      ⟨c, rest, d', rfl, hc, h, hr⟩
    · cases h
    · rw [List.cons.injEq] at h
      obtain ⟨rfl, rfl⟩ := h
      obtain ⟨hn, hm⟩ := nibbles_of_lt (hex_lt hh) (hex_lt hl)
      rw [hn] at hhigh
      rw [hm] at hlow
      have hrest := ih hr (fun b hb => hlegal b (by simp [hb])) (fun hb => hslash (by simp [hb]))
        (fun b hb => hplain b (List.mem_cons_of_mem _ hb)) hcase
      have hhigh' : high = hexUpper n := (eq_digit_of_hex hh).elim id fun h => h.trans hhigh.symm
      have hlow' : low = hexUpper m := (eq_digit_of_hex hl).elim id fun h => h.trans hlow.symm
      rw [escape_cons, hn, hm, ← hhigh', ← hlow', ← hrest]
    · -- a byte that stands for itself would be plain
      rw [List.cons.injEq] at h
      obtain ⟨rfl, rfl⟩ := h
      have hb := hplain b List.mem_cons_self
      have hb' : b ≠ slash := fun h => hslash (h ▸ List.mem_cons_self)
      simp [plain, hlegal b List.mem_cons_self, hc, hb'] at hb

/-- What the `http` crate is relied on for: escapes are accepted in a path. -/
def AcceptsEscapes (legal : UInt8 → Bool) : Prop :=
  legal percent = true ∧ legal slash = true ∧ ∀ b, (hex b).isSome = true → legal b = true

/-- Escapes can stand in a segment. -/
theorem escape_legal (haccepts : AcceptsEscapes legal) {digit : UInt8 → UInt8}
    (hdigit : WritesHex digit) (s : Text) :
    (∀ b ∈ escape digit s, legal b = true) ∧ slash ∉ escape digit s := by
  have hdigits : ∀ b, (hex b).isSome = true → b ≠ slash := by
    rintro b hb rfl
    revert hb
    decide +kernel
  induction s with
  | nil => simp [escape]
  | cons b s ih =>
    have hhigh : (hex (digit (b / 16))).isSome = true := by rw [hdigit.high]; rfl
    have hlow : (hex (digit (b % 16))).isSome = true := by rw [hdigit.low]; rfl
    rw [escape_cons]
    constructor
    · intro c hc
      simp only [List.mem_cons] at hc
      rcases hc with rfl | rfl | rfl | hc
      · exact haccepts.1
      · exact haccepts.2.2 _ hhigh
      · exact haccepts.2.2 _ hlow
      · exact ih.1 c hc
    · simp only [List.mem_cons, not_or]
      exact ⟨by decide, (hdigits _ hhigh).symm, (hdigits _ hlow).symm, ih.2⟩

theorem escape_isToken (haccepts : AcceptsEscapes legal) {digit : UInt8 → UInt8}
    (hdigit : WritesHex digit) {s : Text} (hs : s ≠ []) :
    Lib.Tokens.IsToken slash (escape digit s) := by
  refine ⟨fun h => hs ?_, (escape_legal haccepts hdigit s).2⟩
  have hlength := length_escape digit s
  rw [h, List.length_nil] at hlength
  exact List.eq_nil_of_length_eq_zero (by omega)

/-- Every other text that decodes has another spelling. -/
theorem exists_spelling (haccepts : AcceptsEscapes legal) {l : Text} (hne : l ≠ [])
    (hunstable : ¬ Stable legal l) :
    ∃ d v, percentDecode l = .ok d ∧ percentDecode v = .ok d ∧ v ≠ l ∧ d ≠ l ∧
      (∀ b ∈ l, legal b = true) ∧ (∀ b ∈ v, legal b = true) ∧ Lib.Tokens.IsToken slash v := by
  simp only [Stable, not_or, not_not, not_exists, not_and, Bool.not_eq_false, not_forall] at hunstable
  obtain ⟨hpercent, hlegal, d, hd, hother⟩ := hunstable
  obtain ⟨hunescape, hvalid⟩ := percentDecode_eq_ok.mp hd
  -- nothing decodes to the empty text
  have hdne : d ≠ [] := by
    rintro rfl
    rcases unescape_cases hunescape with ⟨rfl, -⟩ | ⟨_, _, _, _, _, _, -, -, -, h, -⟩ |
      ⟨_, _, _, -, -, h, -⟩
    · exact hne rfl
    · cases h
    · cases h
  -- an escape is longer than what it stands for
  have hdl : d ≠ l := by
    rintro rfl
    exact absurd (length_lt_of_unescape hunescape hpercent) (lt_irrefl _)
  -- one of the two escapes of `d` is another spelling, unless both are `l`
  have hspell : ∀ {digit}, WritesHex digit → l ≠ escape digit d → ∃ d v, percentDecode l = .ok d ∧
      percentDecode v = .ok d ∧ v ≠ l ∧ d ≠ l ∧ (∀ b ∈ l, legal b = true) ∧
      (∀ b ∈ v, legal b = true) ∧ Lib.Tokens.IsToken slash v := fun hdigit h =>
    ⟨d, _, hd, percentDecode_eq_ok.mpr ⟨unescape_escape_self hdigit d, hvalid⟩, h.symm, hdl, hlegal,
      (escape_legal haccepts hdigit d).1, escape_isToken haccepts hdigit hdne⟩
  by_cases hupper : l = escape hexUpper d
  · by_cases hlower : l = escape hexLower d
    · -- the escapes have one spelling, so one of the bytes has a plain form
      obtain ⟨b, hb, hplain⟩ : ∃ b ∈ d, plain legal b = true := by
        simpa using hother hupper hlower
      obtain ⟨d₁, d₂, rfl⟩ := List.append_of_mem hb
      simp only [plain, Bool.and_eq_true, bne_iff_ne] at hplain
      have h₁ := escape_legal haccepts writesHex_upper d₁
      have h₂ := escape_legal haccepts writesHex_upper d₂
      refine ⟨_, escape hexUpper d₁ ++ b :: escape hexUpper d₂, hd,
        percentDecode_eq_ok.mpr ⟨?_, hvalid⟩, ?_, hdl, hlegal, ?_, by simp, ?_⟩
      · rw [unescape_escape_append writesHex_upper, unescape_cons_of_ne hplain.1.2,
          unescape_escape_self writesHex_upper]
        rfl
      · -- the two spellings differ in length
        rw [hupper]
        intro h
        have := congrArg List.length h
        simp only [List.length_append, List.length_cons, length_escape] at this
        omega
      · intro c hc
        rcases List.mem_append.mp hc with hc | hc
        · exact h₁.1 c hc
        · rcases List.mem_cons.mp hc with rfl | hc
          · exact hplain.1.1
          · exact h₂.1 c hc
      · rw [List.mem_append, List.mem_cons]
        rintro (h | h | h)
        · exact h₁.2 h
        · exact hplain.2 h.symm
        · exact h₂.2 h
    · exact hspell writesHex_lower hlower
  · exact hspell writesHex_upper hupper

end Legal

end OasRs
