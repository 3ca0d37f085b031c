import Mathlib.Data.List.Basic

/-!
# The EventSource Parser

The parser of an event stream as the EventSource specification describes it, over
characters: lines that end with LF, CR or CRLF, fields with one optional space after the
colon, and a dispatch at each blank line.

## Overview

- `Source`: the buffers, the settings and the messages dispatched so far
- `Source.line`: what a whole line does
- `Reader`: splitting characters into lines
- `Reader.feed_lines`: lines that are written one after another are read one by one
-/

namespace OasRs.Lib.EventSource

/-- A text, as characters. -/
abbrev Chars : Type := List Char

/-- What the page receives. -/
structure Message where
  type : Chars
  data : Chars
  lastEventId : Chars
  deriving DecidableEq

/-! ## Lines -/

/-- The state of an event source: its settings, its three buffers, and what was
    dispatched. -/
structure Source where
  data : Chars
  type : Chars
  idBuffer : Chars
  lastEventId : Chars
  reconnection : Option ℕ
  messages : List Message
  deriving DecidableEq

namespace Source

/-- A source that has read nothing. -/
def start : Source :=
  { data := [], type := [], idBuffer := [], lastEventId := [], reconnection := none, messages := [] }

/-- `message` -/
def defaultType : Chars := ['m', 'e', 's', 's', 'a', 'g', 'e']

/-- Dispatch the event: without data there is none, and the buffers are cleared. -/
def dispatch (s : Source) : Source :=
  let s := { s with lastEventId := s.idBuffer }
  if s.data = [] then { s with type := [] }
  else
    { s with
      data := []
      type := []
      messages := s.messages ++
        [{ type := if s.type = [] then defaultType else s.type
           data := if s.data.getLast? = some '\n' then s.data.dropLast else s.data
           lastEventId := s.lastEventId }] }

/-- Process a field; other names than the four are ignored. -/
def field (s : Source) (name value : Chars) : Source :=
  if name = "event".toList then { s with type := value }
  else if name = "data".toList then { s with data := s.data ++ value ++ ['\n'] }
  else if name = "id".toList then
    if '\x00' ∈ value then s else { s with idBuffer := value }
  else if name = "retry".toList then
    if value ≠ [] ∧ value.all Char.isDigit then
      { s with reconnection := some (Nat.ofDigitChars 10 value 0) }
    else s
  else s

/-- Remove one space. -/
def unspaced : Chars → Chars
  | ' ' :: rest => rest
  | value => value

/-- Process a line: a blank one dispatches, one that starts with a colon is a comment. -/
def line (s : Source) (text : Chars) : Source :=
  if text = [] then s.dispatch
  else if text.head? = some ':' then s
  else
    match text.dropWhile (· ≠ ':') with
    | [] => s.field text []
    | _ :: value => s.field (text.takeWhile (· ≠ ':')) (unspaced value)

/-- A line with a field, its name, a colon and a space before the value. -/
theorem line_field (s : Source) {name : Chars} (hne : name ≠ []) (hcolon : ':' ∉ name)
    (value : Chars) : s.line (name ++ ':' :: ' ' :: value) = s.field name value := by
  have hpass : ∀ c ∈ name, decide (c ≠ ':') = true := by
    intro c hc
    exact decide_eq_true fun h => hcolon (h ▸ hc)
  have hhead : (name ++ ':' :: ' ' :: value).head? ≠ some ':' := by
    cases name with
    | nil => exact absurd rfl hne
    | cons c rest =>
      rw [List.cons_append, List.head?_cons, ne_eq, Option.some.injEq]
      exact fun h => hcolon (h ▸ List.mem_cons_self)
  rw [line, if_neg (by simp), if_neg hhead, List.dropWhile_append_of_pos hpass,
    List.takeWhile_append_of_pos hpass]
  simp [unspaced]

/-- A line that starts with a colon is a comment. -/
theorem line_comment (s : Source) (text : Chars) : s.line (':' :: text) = s := by
  simp [line]

theorem line_blank (s : Source) : s.line [] = s.dispatch := by
  simp [line]

end Source

/-! ## Characters -/

/-- A text without a line end. -/
def IsLine (text : Chars) : Prop := '\n' ∉ text ∧ '\r' ∉ text

instance (text : Chars) : Decidable (IsLine text) := inferInstanceAs (Decidable (_ ∧ _))

/-- A parser between two characters: the line that it is in, and whether the last
    character was a CR, which a LF may complete. -/
structure Reader where
  source : Source
  line : Chars
  afterCr : Bool
  deriving DecidableEq

/-- The pieces between the LFs of a text have none. -/
theorem not_mem_of_mem_splitOn {text piece : Chars} (h : piece ∈ text.splitOn '\n') :
    '\n' ∉ piece ∧ piece ⊆ text := by
  induction text generalizing piece with
  | nil =>
    rw [List.splitOn_nil, List.mem_singleton] at h
    simp [h]
  | cons c text ih =>
    rw [List.splitOn_cons_eq_if_modifyHead] at h
    split at h
    · rcases List.mem_cons.mp h with rfl | h
      · simp
      · exact ⟨(ih h).1, List.Subset.trans (ih h).2 (List.subset_cons_self _ _)⟩
    · rename_i hc
      -- only the first piece got a character
      cases hpieces : text.splitOn '\n' with
      | nil => exact absurd hpieces (List.splitOn_ne_nil _ _)
      | cons first pieces =>
        rw [hpieces, List.modifyHead_cons] at h
        rcases List.mem_cons.mp h with rfl | h
        · have hfirst := ih (hpieces ▸ List.mem_cons_self)
          refine ⟨?_, List.cons_subset_cons _ hfirst.2⟩
          rw [List.mem_cons, not_or]
          exact ⟨fun heq => hc (beq_iff_eq.mpr heq.symm), hfirst.1⟩
        · have hpiece := ih (hpieces ▸ List.mem_cons_of_mem _ h)
          exact ⟨hpiece.1, List.Subset.trans hpiece.2 (List.subset_cons_self _ _)⟩

/-- Each piece followed by a LF is the text followed by a LF. -/
theorem flatMap_splitOn (text : Chars) :
    (text.splitOn '\n').flatMap (· ++ ['\n']) = text ++ ['\n'] := by
  induction text with
  | nil => rfl
  | cons c text ih =>
    rw [List.splitOn_cons_eq_if_modifyHead]
    split
    · rename_i hc
      rw [List.flatMap_cons, ih, show c = '\n' by simpa using hc]
      rfl
    · cases hpieces : text.splitOn '\n' with
      | nil => exact absurd hpieces (List.splitOn_ne_nil _ _)
      | cons first pieces =>
        rw [hpieces, List.flatMap_cons] at ih
        rw [List.modifyHead_cons, List.flatMap_cons, List.cons_append, List.cons_append, ih,
          List.cons_append]

namespace Reader

/-- A reader at the beginning of a line. -/
def fresh (source : Source) : Reader := { source, line := [], afterCr := false }

/-- Read a character. -/
def step (r : Reader) (c : Char) : Reader :=
  if c = '\n' then
    if r.afterCr then { r with afterCr := false }
    else { source := r.source.line r.line, line := [], afterCr := false }
  else if c = '\r' then { source := r.source.line r.line, line := [], afterCr := true }
  else { r with line := r.line ++ [c], afterCr := false }

/-- Read characters. -/
def feed (r : Reader) (text : Chars) : Reader := text.foldl step r

/-- Read a whole stream: one byte order mark at its beginning is skipped, and a last line
    without an end is discarded. -/
def read : Chars → Source
  | '\uFEFF' :: text => (feed (.fresh .start) text).source
  | text => (feed (.fresh .start) text).source

theorem feed_append (r : Reader) (text text' : Chars) :
    r.feed (text ++ text') = (r.feed text).feed text' :=
  List.foldl_append

/-- The characters of a line are collected. -/
theorem feed_isLine {text : Chars} (h : IsLine text) (source : Source) (line : Chars) :
    feed { source, line, afterCr := false } text =
      { source, line := line ++ text, afterCr := false } := by
  induction text generalizing line with
  | nil => simp [feed]
  | cons c text ih =>
    obtain ⟨hlf, hcr⟩ := h
    rw [List.mem_cons, not_or] at hlf hcr
    have hstep : step { source, line, afterCr := false } c =
        { source, line := line ++ [c], afterCr := false } := by
      rw [step, if_neg (Ne.symm hlf.1), if_neg (Ne.symm hcr.1)]
    show feed (step _ c) text = _
    rw [hstep, ih ⟨hlf.2, hcr.2⟩, List.append_assoc, List.singleton_append]

/-- A line that ends with LF is processed. -/
theorem feed_line {text : Chars} (h : IsLine text) (source : Source) :
    feed (.fresh source) (text ++ ['\n']) = .fresh (source.line text) := by
  rw [feed_append, Reader.fresh, feed_isLine h]
  rfl

/-- Lines that are written one after another, each with a LF, are processed one by one. -/
theorem feed_lines {lines : List Chars} (h : ∀ line ∈ lines, IsLine line) (source : Source) :
    feed (.fresh source) (lines.flatMap (· ++ ['\n'])) = .fresh (lines.foldl Source.line source) := by
  induction lines generalizing source with
  | nil => rfl
  | cons line lines ih =>
    rw [List.flatMap_cons, feed_append, feed_line (h line List.mem_cons_self)]
    exact ih (fun l hl => h l (List.mem_cons_of_mem _ hl)) _

end Reader

end OasRs.Lib.EventSource
