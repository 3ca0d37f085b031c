import OasRs.Escape
import OasRs.Http

/-!
# Lists in Headers

What `HeaderMap.items` reads of the lists that a peer has written, with its blanks and over as many
lines as it likes.

## Main results

- `trim_text`: the blanks around an entry are no part of it
- `items_lines`: the entries of all lines, in their order
-/

namespace OasRs

/-- Blanks at both ends go. -/
theorem trim_append {before after : Text} (hbefore : ∀ byte ∈ before, isSpace byte = true)
    (hafter : ∀ byte ∈ after, isSpace byte = true) (value : Text) :
    trim (before ++ value ++ after) = trim value := by
  have hback : ∀ text : Text, (text ++ after).rdropWhile isSpace = text.rdropWhile isSpace := by
    intro text
    rw [List.rdropWhile, List.reverse_append,
      List.dropWhile_append_of_pos (by simpa using hafter), List.rdropWhile]
  rw [trim, List.append_assoc, List.dropWhile_append_of_pos hbefore, List.dropWhile_append]
  split
  · -- the value is blank, too
    rename_i hblank
    have hnil : after.dropWhile isSpace = [] := List.dropWhile_eq_nil_iff.mpr hafter
    rw [hnil, trim, List.isEmpty_iff.mp hblank]
  · rw [hback, trim]

/-- A text without spaces at its ends. -/
theorem trim_of_not_isSpace {text : Text} (h : ∀ byte ∈ text, isSpace byte = false) :
    trim text = text := by
  have hdrop : ∀ text : Text, (∀ byte ∈ text, isSpace byte = false) → text.dropWhile isSpace = text := by
    intro text h
    cases text with
    | nil => rfl
    | cons byte text => rw [List.dropWhile_cons_of_neg (by simp [h byte List.mem_cons_self])]
  rw [trim, hdrop text h, List.rdropWhile, hdrop _ (by simpa using h), List.reverse_reverse]

theorem mem_intercalate {α : Type*} {separator : List α} {pieces : List (List α)} {a : α}
    (h : a ∈ separator.intercalate pieces) : a ∈ separator ∨ ∃ piece ∈ pieces, a ∈ piece := by
  induction pieces with
  | nil => cases h
  | cons piece pieces ih =>
    cases pieces with
    | nil => exact .inr ⟨piece, List.mem_cons_self, by simpa using h⟩
    | cons next pieces =>
      rw [List.intercalate_cons_cons, List.mem_append, List.mem_append] at h
      rcases h with (hpiece | hseparator) | hrest
      · exact .inr ⟨piece, List.mem_cons_self, hpiece⟩
      · exact .inl hseparator
      · rcases ih hrest with hseparator | ⟨other, hother, ha⟩
        · exact .inl hseparator
        · exact .inr ⟨other, List.mem_cons_of_mem _ hother, ha⟩

/-- What can be read as text can be written. -/
theorem fromBytes_of_toStr {value : HeaderValue} (h : HeaderValue.toStr value = some value) :
    HeaderValue.fromBytes value = some value := by
  have hbyte : ∀ byte : UInt8, ((0x20 ≤ byte && byte < 0x7F) || byte == 0x09) = true →
      ((0x20 ≤ byte && byte ≠ 0x7F) || byte == 0x09) = true := forall_byte (by decide +kernel)
  rw [HeaderValue.toStr] at h
  split at h
  · rename_i hall
    rw [List.all_eq_true] at hall
    rw [HeaderValue.fromBytes, if_pos]
    rw [List.all_eq_true]
    exact fun byte hmem => hbyte byte (hall byte hmem)
  · cases h

/-! ## Entries -/

/-- An entry of a list, with what stands around it. -/
structure Entry where
  before : Text
  value : Text
  after : Text
  deriving DecidableEq

namespace Entry

def text (entry : Entry) : Text := entry.before ++ entry.value ++ entry.after

/-- A header line. -/
def line (entries : List Entry) : HeaderValue := [comma].intercalate (entries.map text)

/-- An entry as a peer writes it: spaces and tabs around visible bytes. -/
structure Written (entry : Entry) : Prop where
  blank : ∀ byte ∈ entry.before ++ entry.after, byte = 0x20 ∨ byte = 0x09
  visible : ∀ byte ∈ entry.value, 0x20 ≤ byte ∧ byte < 0x7F ∧ byte ≠ comma
  trimmed : trim entry.value = entry.value

variable {entry : Entry} {entries : List Entry}

theorem written_iff : entry.Written ↔
    (∀ byte ∈ entry.before ++ entry.after, byte = 0x20 ∨ byte = 0x09) ∧
      (∀ byte ∈ entry.value, 0x20 ≤ byte ∧ byte < 0x7F ∧ byte ≠ comma) ∧
        trim entry.value = entry.value :=
  ⟨fun h => ⟨h.blank, h.visible, h.trimmed⟩, fun h => ⟨h.1, h.2.1, h.2.2⟩⟩

instance : Decidable entry.Written :=
  @decidable_of_iff _ _ written_iff.symm <|
    @instDecidableAnd _ _ (List.decidableBAll ..) <|
      @instDecidableAnd _ _ (List.decidableBAll ..) inferInstance

theorem Written.trim_text (h : entry.Written) : trim entry.text = entry.value := by
  have hspace : ∀ byte ∈ entry.before ++ entry.after, isSpace byte = true := by
    intro byte hbyte
    rcases h.blank byte hbyte with rfl | rfl <;> rfl
  rw [text, trim_append (fun byte hbyte => hspace byte (List.mem_append_left _ hbyte))
    (fun byte hbyte => hspace byte (List.mem_append_right _ hbyte)), h.trimmed]

/-- The bytes of an entry are those of a header, and none is a comma. -/
theorem Written.mem_text (h : entry.Written) {byte : UInt8} (hbyte : byte ∈ entry.text) :
    ((0x20 ≤ byte && byte < 0x7F) || byte == 0x09) = true ∧ byte ≠ comma := by
  rw [text, List.append_assoc, List.mem_append, List.mem_append] at hbyte
  rcases hbyte with hblank | hvalue | hblank
  · rcases h.blank byte (List.mem_append_left _ hblank) with rfl | rfl <;> decide
  · obtain ⟨hvisible, hascii, hcomma⟩ := h.visible byte hvalue
    simp [hvisible, hascii, hcomma]
  · rcases h.blank byte (List.mem_append_right _ hblank) with rfl | rfl <;> decide

/-- A line can be read. -/
theorem toStr_line (h : ∀ entry ∈ entries, entry.Written) :
    HeaderValue.toStr (line entries) = some (line entries) := by
  have hall : ∀ byte ∈ line entries, ((0x20 ≤ byte && byte < 0x7F) || byte == 0x09) = true := by
    intro byte hbyte
    rcases mem_intercalate hbyte with hcomma | ⟨piece, hpiece, hmem⟩
    · rw [List.mem_singleton.mp hcomma]
      decide
    · obtain ⟨entry, hentry, rfl⟩ := List.mem_map.mp hpiece
      exact ((h entry hentry).mem_text hmem).1
  rw [HeaderValue.toStr, if_pos (List.all_eq_true.mpr hall)]

/-- The entries of a line that has one at least. -/
theorem splitOn_line (hne : entries ≠ []) (h : ∀ entry ∈ entries, entry.Written) :
    (line entries).splitOn comma = entries.map text := by
  apply List.splitOn_intercalate
  · intro piece hpiece hcomma
    obtain ⟨entry, hentry, rfl⟩ := List.mem_map.mp hpiece
    exact ((h entry hentry).mem_text hcomma).2 rfl
  · simpa using hne

/-- All entries of a header are read, in their order. -/
theorem items_lines {headers : HeaderMap} {name : HeaderName} {lines : List (List Entry)}
    (hlines : headers.getAll name = lines.map line) (hne : ∀ entries ∈ lines, entries ≠ [])
    (h : ∀ entries ∈ lines, ∀ entry ∈ entries, entry.Written) :
    (headers.items name).map trim = lines.flatten.map value := by
  rw [HeaderMap.items, hlines]
  clear hlines
  induction lines with
  | nil => rfl
  | cons entries lines ih =>
    have hrest := ih (fun entries hmem => hne entries (List.mem_cons_of_mem _ hmem))
      (fun entries hmem => h entries (List.mem_cons_of_mem _ hmem))
    have hentries := h entries List.mem_cons_self
    have hvalues : (entries.map text).map trim = entries.map value := by
      rw [List.map_map]
      apply List.map_congr_left
      intro entry hentry
      exact (hentries entry hentry).trim_text
    rw [List.map_cons, List.filterMap_cons_some (toStr_line hentries), List.flatMap_cons,
      List.map_append, splitOn_line (hne entries List.mem_cons_self) hentries, hvalues, hrest,
      List.flatten_cons, List.map_append]

/-- A header with the lines that a peer has written. -/
structure Lists (headers : HeaderMap) (name : HeaderName) (lines : List (List Entry)) : Prop where
  getAll_eq : headers.getAll name = lines.map line
  ne_nil : ∀ entries ∈ lines, entries ≠ []
  written : ∀ entries ∈ lines, ∀ entry ∈ entries, entry.Written

theorem Lists.items {headers : HeaderMap} {name : HeaderName} {lines : List (List Entry)}
    (h : Lists headers name lines) : (headers.items name).map trim = lines.flatten.map value :=
  items_lines h.getAll_eq h.ne_nil h.written

end Entry

end OasRs
