import OasRs.Lib.Transducer
import OasRs.Multipart

/-!
# The Delimiter Scan and Chunks

`DelimiterScan::feed` sees a body chunk by chunk and keeps one byte less than its delimiter has.
Where the chunks are cut does not matter.

## Main results

- `feed_eq`: one chunk, after chunks without a delimiter
- `delimiterScan_chunking`: every way of cutting a body
-/

namespace OasRs.Multipart

open Lib.Search Lib.Transducer

/-! ## Feeding chunks -/

namespace DelimiterScan

/-- How many bytes follow the first delimiter of a text, if there is one. -/
def following (delimiter text : Text) : Option ℕ :=
  (find delimiter text).map fun position => text.length - (position + delimiter.length)

variable {scan : DelimiterScan} {seen : Text}

/-- **One chunk**: the report is about everything that was seen, although only the carry is kept. -/
theorem feed_eq (hne : scan.delimiter ≠ []) (h : Remembers scan.delimiter seen scan.carry)
    (chunk : Text) : (scan.feed chunk).1 = following scan.delimiter (seen ++ chunk) := by
  have hcarry := h.suffix.length_le
  rw [following, h.find_eq hne chunk, feed]
  cases find scan.delimiter (scan.carry ++ chunk) with
  | none => rfl
  | some position =>
    -- positions are shifted by what is not carried
    simp only [Option.map_some, Option.some.injEq, List.length_append]
    omega

/-- A chunk without a report leaves a scan that remembers it. -/
theorem remembers_feed (hne : scan.delimiter ≠ []) (h : Remembers scan.delimiter seen scan.carry)
    {chunk : Text} (hnone : (scan.feed chunk).1 = none) :
    (scan.feed chunk).2.delimiter = scan.delimiter ∧
      Remembers scan.delimiter (seen ++ chunk) (scan.feed chunk).2.carry := by
  cases hfind : find scan.delimiter (scan.carry ++ chunk) with
  | some position =>
    simp only [feed, hfind] at hnone
    cases hnone
  | none =>
    have hnext := h.next hne hfind
    simp only [feed, hfind]
    exact ⟨trivial, hnext⟩

/-- The chunks in order: as long as no delimiter was seen before a chunk, its report is about
everything that was seen with it. -/
theorem outputs_eq (hne : scan.delimiter ≠ []) (h : Remembers scan.delimiter seen scan.carry)
    (before : List Text) (chunk : Text) (after : List Text)
    (habsent : ∀ i, ¬ OccursAt scan.delimiter (seen ++ before.flatten) i) :
    (outputs feed scan (before ++ chunk :: after))[before.length]? =
      some (following scan.delimiter (seen ++ before.flatten ++ chunk)) := by
  induction before generalizing scan seen with
  | nil =>
    rw [List.flatten_nil, List.append_nil]
    exact congrArg some (feed_eq hne h chunk)
  | cons first before ih =>
    have hsplit : seen ++ (first :: before).flatten = seen ++ first ++ before.flatten := by
      rw [List.flatten_cons, List.append_assoc]
    rw [hsplit] at habsent ⊢
    -- the first chunk brings no delimiter, since none is there at the end
    have hnone : (scan.feed first).1 = none := by
      rw [feed_eq hne h, following, Option.map_eq_none_iff, find_eq_none_iff]
      intro i hoccurs
      have hle := hoccurs.le_length hne
      exact habsent i (hoccurs.append (by omega) _)
    obtain ⟨hdelimiter, hremembers⟩ := remembers_feed hne h hnone
    rw [← hdelimiter] at hne habsent hremembers
    have hrest := ih hne hremembers habsent
    rw [hdelimiter] at hrest
    exact hrest

/-- A text in which the delimiter ends behind a part without delimiters: what follows it is within
the rest. -/
theorem following_le {delimiter text chunk : Text}
    (habsent : ∀ i, ¬ OccursAt delimiter text i) {i : ℕ}
    (hoccurs : OccursAt delimiter (text ++ chunk) i) :
    (text ++ chunk).length - (i + delimiter.length) ≤ chunk.length := by
  rcases Nat.lt_or_ge text.length (i + delimiter.length) with hlt | hge
  · rw [List.length_append]
    omega
  · exact (habsent i (hoccurs.of_append hge)).elim

end DelimiterScan

/-- **Cuts do not matter.** For every boundary and every way of cutting a body, a chunk brings no
report while no delimiter was seen, and the chunk with which the first delimiter is complete
brings the number of its bytes behind it. -/
theorem delimiterScan_chunking (boundary : Text) (before : List Text) (chunk : Text)
    (after : List Text) :
    let scan := DelimiterScan.new boundary
    let report := (outputs DelimiterScan.feed scan (before ++ chunk :: after))[before.length]?
    ((∀ i, ¬ OccursAt scan.delimiter (before.flatten ++ chunk) i) → report = some none) ∧
    ((∀ i, ¬ OccursAt scan.delimiter before.flatten i) →
      ∀ i, OccursAt scan.delimiter (before.flatten ++ chunk) i →
        (∀ j < i, ¬ OccursAt scan.delimiter (before.flatten ++ chunk) j) →
        let behind := (before.flatten ++ chunk).length - (i + scan.delimiter.length)
        report = some (some behind) ∧ behind ≤ chunk.length ∧
          i + scan.delimiter.length + behind = (before.flatten ++ chunk).length) := by
  intro scan report
  have hne : scan.delimiter ≠ [] := delimiter_ne_nil boundary
  have hstart : Remembers scan.delimiter [] scan.carry :=
    .of_short (List.length_pos_of_ne_nil hne)
  -- while none was seen, the scan remembers all that a delimiter may begin with
  have hreport : (∀ i, ¬ OccursAt scan.delimiter before.flatten i) →
      report = some (DelimiterScan.following scan.delimiter (before.flatten ++ chunk)) :=
    fun habsent => DelimiterScan.outputs_eq hne hstart before chunk after habsent
  constructor
  · intro habsent
    rw [hreport, DelimiterScan.following, find_eq_none_iff.mpr habsent, Option.map_none]
    intro i hoccurs
    have hle := hoccurs.le_length hne
    exact habsent i (hoccurs.append (by omega) chunk)
  · intro habsent i hoccurs hfirst behind
    have hle := hoccurs.le_length hne
    -- the first occurrence ends in this chunk
    have hfind : find scan.delimiter (before.flatten ++ chunk) = some i :=
      find_eq_some_iff.mpr ⟨⟨hoccurs, by omega⟩, hfirst⟩
    refine ⟨?_, DelimiterScan.following_le habsent hoccurs, Nat.add_sub_cancel' hle⟩
    rw [hreport habsent, DelimiterScan.following, hfind, Option.map_some]

/-- A delimiter in three chunks, behind a part of another one. -/
example : outputs DelimiterScan.feed (.new (str "XB"))
    [str "a\r\n-", str "\r\n--", str "X", str "B\r\n"] = [none, none, none, some 2] := by
  decide +kernel

end OasRs.Multipart
