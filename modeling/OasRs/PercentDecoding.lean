import OasRs.Escape
import OasRs.Captures

/-!
# Percent Decoding

`percent_decode` and `valid_percent_encoding` of `src/codec.rs` with the indices of the source,
and what they compute: both accept the texts whose escapes are complete, and decoding replaces
each escape by its byte.

## Main results

- `Codec.percentDecodeFrom_eq`, `Codec.validPercentEncodingFrom_eq`: the loops follow the text
- `Codec.percentDecode_iff`: what decoding returns
- `find_escapesComplete`: the router captures segments whose escapes are complete
-/

namespace OasRs

/-! ## The loops of the source -/

namespace Codec

/-- The loop of `percent_decode`. -/
def percentDecodeFrom (bytes : Text) (index : ℕ) (output : Text) : Except DecodeError Text :=
  if index < bytes.length then
    -- the run of literal bytes up to the next escape
    let run := ((bytes.drop index).findIdx? (· == percent)).getD (bytes.length - index)
    let output := output ++ (bytes.drop index).take run
    if index + run = bytes.length then .ok output
    else if index + run + 2 ≥ bytes.length then .error .percentEncoding
    else
      match bytes[index + run + 1]?.bind hex, bytes[index + run + 2]?.bind hex with
      | some high, some low =>
        percentDecodeFrom bytes (index + run + 3) (output ++ [high * 16 + low])
      | _, _ => .error .percentEncoding
  else .ok output
termination_by bytes.length - index

/-- `percent_decode` -/
def percentDecode (value : Text) : Except DecodeError Text := do
  let output ← percentDecodeFrom value 0 []
  if validUtf8 output then .ok output else .error .utf8

/-- The loop of `valid_percent_encoding`. -/
def validPercentEncodingFrom (bytes : Text) (index : ℕ) : Bool :=
  if index < bytes.length then
    if bytes[index]? = some percent then
      if index + 2 ≥ bytes.length || (bytes[index + 1]?.bind hex).isNone ||
          (bytes[index + 2]?.bind hex).isNone then false
      else validPercentEncodingFrom bytes (index + 3)
    else validPercentEncodingFrom bytes (index + 1)
  else true
termination_by bytes.length - index

/-- `valid_percent_encoding` -/
def validPercentEncoding (value : Text) : Bool := validPercentEncodingFrom value 0

end Codec

/-! ## What decoding means -/

/-- Every `%` is followed by two hex digits. -/
def EscapesComplete (v : Text) : Prop :=
  ∀ i, v[i]? = some percent → (v[i + 1]?.bind hex).isSome ∧ (v[i + 2]?.bind hex).isSome

/-- A text with each `%XY` replaced by its byte. -/
def replaceEscapes : Text → Text
  | byte :: high :: low :: rest =>
    match (if byte = percent then hex high else none), hex low with
    | some h, some l => (h * 16 + l) :: replaceEscapes rest
    | _, _ => byte :: replaceEscapes (high :: low :: rest)
  | short => short

/-- `v` encodes `s`: every byte is written literally, if it is not `%`, or as `%XY` with hex
    digits of either case. -/
inductive Encodes : Text → Text → Prop where
  | nil : Encodes [] []
  | literal {b : UInt8} {v s : Text} (hb : b ≠ percent) (h : Encodes v s) : Encodes (b :: v) (b :: s)
  | escape {high low n m : UInt8} {v s : Text} (hhigh : hex high = some n) (hlow : hex low = some m)
      (h : Encodes v s) : Encodes (percent :: high :: low :: v) ((n * 16 + m) :: s)

/-! ## Decoding as a relation -/

/-- Decoding reads encodings. -/
theorem unescape_iff_encodes {v s : Text} : unescape v = .ok s ↔ Encodes v s := by
  constructor
  · intro h
    induction s generalizing v with
    | nil =>
      rcases unescape_cases h with ⟨rfl, -⟩ | ⟨_, _, _, _, _, _, -, -, -, hd, -⟩ |
        ⟨_, _, _, -, -, hd, -⟩
      · exact .nil
      · cases hd
      · cases hd
    | cons b s ih =>
      rcases unescape_cases h with ⟨-, hd⟩ | ⟨high, low, n, m, rest, d, rfl, hh, hl, hd, hr⟩ |
        ⟨c, rest, d, rfl, hc, hd, hr⟩
      · cases hd
      · obtain ⟨rfl, rfl⟩ := List.cons.inj hd
        exact .escape hh hl (ih hr)
      · obtain ⟨rfl, rfl⟩ := List.cons.inj hd
        exact .literal hc (ih hr)
  · intro h
    induction h with
    | nil => rfl
    | literal hb _ ih =>
      rw [unescape_cons_of_ne hb, ih]
      rfl
    | escape hhigh hlow _ ih =>
      rw [unescape_escape hhigh hlow, ih]
      rfl

/-- A hex digit is no `%`. -/
theorem ne_percent_of_hex {b n : UInt8} (h : hex b = some n) : b ≠ percent := by
  rintro rfl
  have hpercent : hex percent = none := by rfl
  rw [hpercent] at h
  cases h

theorem escapesComplete_nil : EscapesComplete [] := by
  intro i hi
  cases hi

theorem escapesComplete_literal {b : UInt8} (hb : b ≠ percent) (v : Text) :
    EscapesComplete (b :: v) ↔ EscapesComplete v := by
  constructor
  · intro h i hi
    exact h (i + 1) hi
  · intro h i hi
    cases i with
    | zero => exact absurd (Option.some.inj hi) hb
    | succ i => exact h i hi

theorem escapesComplete_escape {high low n m : UInt8} (hhigh : hex high = some n)
    (hlow : hex low = some m) (v : Text) :
    EscapesComplete (percent :: high :: low :: v) ↔ EscapesComplete v := by
  constructor
  · intro h i hi
    exact h (i + 3) hi
  · intro h i hi
    match i with
    | 0 =>
      show (hex high).isSome ∧ (hex low).isSome
      rw [hhigh, hlow]
      exact ⟨rfl, rfl⟩
    | 1 => exact absurd (Option.some.inj hi) (ne_percent_of_hex hhigh)
    | 2 => exact absurd (Option.some.inj hi) (ne_percent_of_hex hlow)
    | i + 3 => exact h i hi

/-- The texts that encode something are those whose escapes are complete. -/
theorem validPercentEncoding_iff_complete (v : Text) :
    validPercentEncoding v = true ↔ EscapesComplete v := by
  induction v using validPercentEncoding.induct with
  | case1 => exact iff_of_true rfl escapesComplete_nil
  | case2 high low rest ih =>
    show ((hex high).isSome && (hex low).isSome && validPercentEncoding rest) = true ↔ _
    cases hhigh : hex high with
    | none =>
      refine iff_of_false (fun h => by cases h) fun h => ?_
      have hfirst := (h 0 rfl).1
      rw [show ((percent :: high :: low :: rest : Text)[0 + 1]?.bind hex) = hex high from rfl,
        hhigh] at hfirst
      cases hfirst
    | some n =>
      cases hlow : hex low with
      | none =>
        refine iff_of_false (fun h => by cases h) fun h => ?_
        have hsecond := (h 0 rfl).2
        rw [show ((percent :: high :: low :: rest : Text)[0 + 2]?.bind hex) = hex low from rfl,
          hlow] at hsecond
        cases hsecond
      | some m =>
        rw [escapesComplete_escape hhigh hlow, ← ih]
        rfl
  | case3 rest hshort =>
    -- a `%` at the end
    cases rest with
    | nil =>
      refine iff_of_false (fun h => by cases h) fun h => ?_
      cases (h 0 rfl).1
    | cons high rest =>
      cases rest with
      | nil =>
        refine iff_of_false (fun h => by cases h) fun h => ?_
        cases (h 0 rfl).2
      | cons low rest => exact (hshort high low rest rfl).elim
  | case4 byte rest hne ih =>
    rw [escapesComplete_literal hne, ← ih, validPercentEncoding.eq_def]
    simp only [if_neg hne]

/-- An encoding without its escapes. -/
theorem Encodes.replaceEscapes_eq {v s : Text} (h : Encodes v s) : replaceEscapes v = s := by
  induction h with
  | nil => rfl
  | @literal b v s hb h ih =>
    match v with
    | [] => exact congrArg (b :: ·) ih
    | [c] => exact congrArg (b :: ·) ih
    | c :: d :: rest =>
      rw [replaceEscapes, if_neg hb]
      exact congrArg (b :: ·) ih
  | escape hhigh hlow h ih =>
    rw [replaceEscapes, if_pos rfl, hhigh, hlow]
    exact congrArg (_ :: ·) ih

/-- Where every escape is complete, a text encodes what is left when they are replaced. -/
theorem escapesComplete_iff (v : Text) : EscapesComplete v ↔ Encodes v (replaceEscapes v) := by
  rw [← validPercentEncoding_iff_complete, validPercentEncoding_iff]
  constructor
  · rintro ⟨output, houtput⟩
    have h := unescape_iff_encodes.mp houtput
    rwa [h.replaceEscapes_eq]
  · intro h
    exact ⟨_, unescape_iff_encodes.mpr h⟩

/-! ## The loops follow the text -/

theorem unescape_append_of_not_mem {run : Text} (h : percent ∉ run) (rest : Text) :
    unescape (run ++ rest) = (unescape rest).map (run ++ ·) := by
  induction run with
  | nil =>
    cases hrest : unescape rest with
    | error error => simp [hrest, Except.map]
    | ok output => simp [hrest, Except.map]
  | cons b run ih =>
    rw [List.mem_cons, not_or] at h
    rw [List.cons_append, unescape_cons_of_ne (Ne.symm h.1), ih h.2]
    cases unescape rest with
    | error error => rfl
    | ok output => rfl

/-- The run of literal bytes that is copied: what follows it is an escape, or nothing. -/
theorem exists_run (rest : Text) : ∃ run tail : Text, rest = run ++ tail ∧ percent ∉ run ∧
    ((rest.findIdx? (· == percent)).getD rest.length = run.length) ∧
    (tail = [] ∨ ∃ more, tail = percent :: more) := by
  cases hfind : rest.findIdx? (· == percent) with
  | none =>
    refine ⟨rest, [], (List.append_nil rest).symm, fun hmem => ?_, rfl, .inl rfl⟩
    rw [List.findIdx?_eq_none_iff] at hfind
    simpa using hfind percent hmem
  | some k =>
    obtain ⟨hlt, hpercent, hbefore⟩ := List.findIdx?_eq_some_iff_getElem.mp hfind
    have hk : rest.drop k = percent :: rest.drop (k + 1) := by
      rw [List.drop_eq_getElem_cons hlt, eq_of_beq hpercent]
    refine ⟨rest.take k, rest.drop k, (List.take_append_drop k rest).symm, fun hmem => ?_,
      ?_, .inr ⟨_, hk⟩⟩
    · obtain ⟨i, hi, heq⟩ := List.getElem_of_mem hmem
      rw [List.length_take] at hi
      apply hbefore i (by omega)
      rw [List.getElem_take] at heq
      rw [heq]
      rfl
    · rw [Option.getD_some, List.length_take]
      omega

/-- The bytes behind a run. -/
theorem getElem?_behind {bytes run tail : Text} {index : ℕ} (h : bytes.drop index = run ++ tail)
    (i : ℕ) : bytes[index + run.length + i]? = tail[i]? := by
  have hdrop : bytes[index + (run.length + i)]? = (bytes.drop index)[run.length + i]? :=
    List.getElem?_drop.symm
  rw [Nat.add_assoc, hdrop, h, List.getElem?_append_right (Nat.le_add_right _ _),
    Nat.add_sub_cancel_left]

namespace Codec

/-- The loop of `percent_decode` decodes the text from its index on. -/
theorem percentDecodeFrom_eq (bytes : Text) (index : ℕ) (output : Text) :
    percentDecodeFrom bytes index output = (unescape (bytes.drop index)).map (output ++ ·) := by
  -- by induction on what is left of the text; each round reads a run of literal bytes
  induction hn : bytes.length - index using Nat.strong_induction_on generalizing index output with
  | _ n ih =>
    rw [percentDecodeFrom]
    split
    · rename_i hindex
      -- the run, and the `%` behind it if there is one
      obtain ⟨run, tail, hrest, hmem, hrun, htail⟩ := exists_run (bytes.drop index)
      have hlength : bytes.length = index + run.length + tail.length := by
        have := congrArg List.length hrest
        rw [List.length_drop, List.length_append] at this
        omega
      rw [List.length_drop] at hrun
      have htake : (bytes.drop index).take run.length = run := by
        rw [hrest, List.take_left]
      simp only [hrun, htake]
      rw [hrest, unescape_append_of_not_mem hmem]
      rcases htail with rfl | ⟨more, rfl⟩
      · -- the run reaches the end
        rw [if_pos (by simpa using hlength.symm)]
        show Except.ok (output ++ run) = .ok (output ++ (run ++ []))
        rw [List.append_nil]
      · have hbehind := getElem?_behind hrest
        rw [List.length_cons] at hlength
        rw [if_neg (by omega)]
        -- fewer than two bytes behind the `%` are an error on both sides
        match more with
        | [] =>
          rw [if_pos (by simp at hlength; omega)]
          rfl
        | [_] =>
          rw [if_pos (by simp at hlength; omega)]
          rfl
        | high :: low :: more =>
          simp only [List.length_cons] at hlength
          rw [if_neg (by omega), hbehind 1, hbehind 2]
          show (match hex high, hex low with
            | some high, some low => _
            | _, _ => _) = _
          cases hhigh : hex high with
          | none =>
            rw [unescape.eq_def]
            simp [hhigh, Except.map]
          | some h =>
            cases hlow : hex low with
            | none =>
              rw [unescape.eq_def]
              simp [hhigh, hlow, Except.map]
            | some l =>
              -- a whole escape: the rest of the text is three bytes further
              have hdrop : bytes.drop (index + run.length + 3) = more := by
                rw [Nat.add_assoc, ← List.drop_drop, hrest, ← List.drop_drop, List.drop_left]
                rfl
              simp only
              rw [ih (bytes.length - (index + run.length + 3)) (by omega) _ _ rfl, hdrop,
                unescape_escape hhigh hlow]
              cases unescape more with
              | error error => rfl
              | ok decoded => simp [Except.map]
    · rw [List.drop_eq_nil_of_le (by omega)]
      show Except.ok output = .ok (output ++ [])
      rw [List.append_nil]

theorem percentDecode_eq (v : Text) : percentDecode v = OasRs.percentDecode v := by
  rw [percentDecode, OasRs.percentDecode, percentDecodeFrom_eq, List.drop_zero]
  cases unescape v with
  | error error => rfl
  | ok output => rfl

/-- The loop of `valid_percent_encoding` checks the text from its index on. -/
theorem validPercentEncodingFrom_eq (bytes : Text) (index : ℕ) :
    validPercentEncodingFrom bytes index = OasRs.validPercentEncoding (bytes.drop index) := by
  induction hn : bytes.length - index using Nat.strong_induction_on generalizing index with
  | _ n ih =>
    rw [validPercentEncodingFrom]
    split
    · rename_i hindex
      have hdrop : bytes.drop index = bytes[index] :: bytes.drop (index + 1) :=
        List.drop_eq_getElem_cons hindex
      rw [List.getElem?_eq_getElem hindex]
      split
      · rename_i hpercent
        rw [hdrop, Option.some.inj hpercent]
        -- two bytes have to follow
        have hfollow : ∀ i, bytes[index + 1 + i]? = (bytes.drop (index + 1))[i]? :=
          fun i => List.getElem?_drop.symm
        have hlength : (bytes.drop (index + 1)).length = bytes.length - (index + 1) := List.length_drop
        have hrest : bytes.drop (index + 3) = (bytes.drop (index + 1)).drop 2 := by
          rw [List.drop_drop]
        rw [show index + 2 = index + 1 + 1 from rfl, hfollow 1, hfollow 0,
          ih (bytes.length - (index + 3)) (by omega) _ rfl, hrest]
        match hmore : bytes.drop (index + 1) with
        | [] =>
          rw [hmore] at hlength
          rw [if_pos (by simp)]
          rfl
        | [_] =>
          rw [if_pos (by simp)]
          rfl
        | high :: low :: more =>
          rw [hmore] at hlength
          simp only [List.length_cons] at hlength
          show (if (decide (bytes.length ≤ index + 2) || (hex high).isNone || (hex low).isNone) = true
            then false else OasRs.validPercentEncoding more) =
              ((hex high).isSome && (hex low).isSome && OasRs.validPercentEncoding more)
          rw [decide_eq_false (by omega)]
          cases hex high with
          | none => rfl
          | some h =>
            cases hex low with
            | none => rfl
            | some l => rfl
      · rename_i hne
        rw [ih (bytes.length - (index + 1)) (by omega) _ rfl, hdrop,
          OasRs.validPercentEncoding.eq_def (_ :: _)]
        simp only [if_neg fun h => hne (congrArg some h)]
    · rw [List.drop_eq_nil_of_le (by omega)]
      rfl

theorem validPercentEncoding_eq (v : Text) :
    validPercentEncoding v = OasRs.validPercentEncoding v := by
  rw [validPercentEncoding, validPercentEncodingFrom_eq, List.drop_zero]

/-- What decoding returns. -/
theorem percentDecode_iff (v s : Text) :
    percentDecode v = .ok s ↔ Encodes v s ∧ validUtf8 s = true := by
  rw [percentDecode_eq, percentDecode_eq_ok, unescape_iff_encodes]

theorem validPercentEncoding_iff (v : Text) : validPercentEncoding v = true ↔ EscapesComplete v := by
  rw [validPercentEncoding_eq, validPercentEncoding_iff_complete]

/-- A text whose escapes are complete fails to decode only because of UTF-8. -/
theorem utf8_of_error {v : Text} (hcomplete : EscapesComplete v) {error : DecodeError}
    (h : percentDecode v = .error error) : error = .utf8 := by
  rw [percentDecode_eq, OasRs.percentDecode,
    unescape_iff_encodes.mpr ((escapesComplete_iff v).mp hcomplete)] at h
  simp only [bind, Except.bind] at h
  split at h
  · cases h
  · exact (Except.error.inj h).symm

end Codec

/-! ## What the router captures -/

/-- The parts that the trie captures were checked, and there are at most eight. -/
theorem findNode_captures (trie : DynamicRouteTrie) {parts : List PathPart} {index : NodeId}
    {captures : CaptureSet} {found : NodeId × CaptureSet}
    (hcount : captures.count ≤ maxCaptureParams)
    (h : trie.findNode index parts captures = some found) :
    ∃ taken : List PathPart, taken.Sublist parts ∧
      (∀ part ∈ taken, validPercentEncoding part.value = true) ∧
      found.2 = taken.foldl CaptureSet.push captures ∧
      captures.count + taken.length ≤ maxCaptureParams := by
  induction parts generalizing index captures with
  | nil =>
    rw [DynamicRouteTrie.findNode] at h
    split at h
    · cases h
      exact ⟨[], .slnil, List.forall_mem_nil _, rfl, hcount⟩
    · cases h
  | cons part parts ih =>
    rw [DynamicRouteTrie.findNode] at h
    split at h
    · -- a static child
      rename_i found' hstatic
      cases h
      obtain ⟨child, -, hchild⟩ := Option.bind_eq_some_iff.mp hstatic
      obtain ⟨taken, hsublist, hvalid, hfound, hlength⟩ := ih hcount hchild
      exact ⟨taken, hsublist.cons part, hvalid, hfound, hlength⟩
    · split at h
      · -- the capture child: there is room, and the part is valid
        rename_i hcapture
        rw [Bool.and_eq_true, decide_eq_true_eq] at hcapture
        obtain ⟨child, -, hchild⟩ := Option.bind_eq_some_iff.mp h
        obtain ⟨taken, hsublist, hvalid, hfound, hlength⟩ := ih (Nat.succ_le_of_lt hcapture.1) hchild
        refine ⟨part :: taken, hsublist.cons_cons part, fun other hother => ?_, hfound, ?_⟩
        · rcases List.mem_cons.mp hother with rfl | hother
          · exact hcapture.2
          · exact hvalid other hother
        · have hpush : (captures.push part).count = captures.count + 1 := rfl
          rw [List.length_cons]
          omega
      · cases h

/-- The router captures segments whose escapes are complete. -/
theorem find_escapesComplete {trie : DynamicRouteTrie} {path : Text} (hlength : path.length < 2 ^ 32)
    {routes : RouteSet} {captures : CaptureSet} (h : trie.find path = some (routes, captures))
    {text : Text} (htext : text ∈ captures.texts path) : EscapesComplete text := by
  obtain ⟨found, hfound, heq⟩ := Option.map_eq_some_iff.mp h
  obtain ⟨taken, hsublist, hvalid, hcaptures, hcount⟩ :=
    findNode_captures trie (Nat.zero_le _) hfound
  have hpart : ∀ part ∈ taken, part ∈ partsOf path := fun part hpart => hsublist.mem hpart
  obtain ⟨-, rfl⟩ := Prod.mk.inj heq
  rw [hcaptures, CaptureSet.texts_foldl_push] at htext
  · obtain ⟨part, hmem, rfl⟩ := List.mem_map.mp htext
    rw [(slice_partsOf (hpart part hmem)).1, ← validPercentEncoding_iff_complete]
    exact hvalid part hmem
  · show taken.length ≤ _
    have hzero : CaptureSet.empty.count = 0 := rfl
    omega
  · intro part hmem
    have hstart := start_lt_stop (hpart part hmem)
    have hstop := (slice_partsOf (hpart part hmem)).2
    omega

/-- **Percent decoding meets its specification**, the router's check accepts the same texts, and
what the router captures decodes unless it is no UTF-8. -/
theorem percentDecode_meets_spec :
    (∀ v, Codec.validPercentEncoding v = true ↔ EscapesComplete v) ∧
    (∀ v s, Codec.percentDecode v = .ok s ↔
      EscapesComplete v ∧ validUtf8 (replaceEscapes v) = true ∧ s = replaceEscapes v) ∧
    (∀ v s, Codec.percentDecode v = .ok s ↔ Encodes v s ∧ validUtf8 s = true) ∧
    ∀ (trie : DynamicRouteTrie) (path : Text) (routes : RouteSet) (captures : CaptureSet),
      path.length < 2 ^ 32 → trie.find path = some (routes, captures) →
      ∀ text ∈ captures.texts path, ∀ error, Codec.percentDecode text = .error error → error = .utf8 := by
  refine ⟨Codec.validPercentEncoding_iff, fun v s => ?_, Codec.percentDecode_iff,
    fun trie path routes captures hlength hfind text htext error herror => ?_⟩
  · rw [Codec.percentDecode_iff, escapesComplete_iff]
    constructor
    · intro h
      have hs := h.1.replaceEscapes_eq
      exact ⟨hs.symm ▸ h.1, hs.symm ▸ h.2, hs.symm⟩
    · rintro ⟨hencodes, hvalid, rfl⟩
      exact ⟨hencodes, hvalid⟩
  · exact Codec.utf8_of_error (find_escapesComplete hlength hfind htext) herror

/-- An escaped slash, in lower case. -/
theorem percentDecode_meets_spec_slash : Codec.percentDecode (str "a%2fb") = .ok (str "a/b") := by
  apply (percentDecode_meets_spec.2.2.1 _ _).mpr
  refine ⟨?_, by decide +kernel⟩
  apply Encodes.literal (by decide)
  apply Encodes.escape (n := 2) (m := 15) rfl rfl
  exact .literal (by decide) .nil

end OasRs
