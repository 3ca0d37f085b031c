import OasRs.Lib.EventSource

/-!
# Server-Sent Events

`src/sse.rs`: the events of the public builder, their wire form, and the body stream with
its heartbeats. What the stream sends is read back by a parser that follows the
EventSource specification.

## Main results

- `Event.receive`: an event in its wire form does to a source what the event says
- `sent_received`: a whole stream, with heartbeats in its gaps
-/

namespace OasRs.Sse

open Lib.EventSource

/-! ## Events -/

/-- `one_line` -/
def oneLine (value : Chars) : Chars := value.filter fun c => c != '\n' && c != '\r'

/-- `event_id` -/
def eventId (value : Chars) : Chars := (oneLine value).filter (· != '\x00')

theorem isLine_oneLine (value : Chars) : IsLine (oneLine value) := by
  simp [IsLine, oneLine]

theorem isLine_eventId (value : Chars) : IsLine (eventId value) := by
  simp [IsLine, eventId, oneLine]

theorem nul_not_mem_eventId (value : Chars) : '\x00' ∉ eventId value := by
  simp [eventId]

/-- `Event`, with what the builder guarantees about its fields. A `Duration` is a number
    of nanoseconds. -/
structure Event where
  event : Option { name : Chars // IsLine name }
  id : Option { id : Chars // IsLine id ∧ '\x00' ∉ id }
  retry : Option ℕ
  data : Option Chars
  comment : Option { text : Chars // IsLine text }

namespace Event

/-- `Event::blank` -/
def blank : Event :=
  { event := none, id := none, retry := none, data := none, comment := none }

/-- `Event::data` -/
def ofData (data : Chars) : Event := { blank with data := some data }

/-- `Event::comment` -/
def ofComment (text : Chars) : Event :=
  { blank with comment := some ⟨oneLine text, isLine_oneLine text⟩ }

/-- `Event::event` -/
def withEvent (e : Event) (name : Chars) : Event :=
  { e with event := some ⟨oneLine name, isLine_oneLine name⟩ }

/-- `Event::id` -/
def withId (e : Event) (id : Chars) : Event :=
  { e with id := some ⟨eventId id, isLine_eventId id, nul_not_mem_eventId id⟩ }

/-- `Event::retry` -/
def withRetry (e : Event) (delay : ℕ) : Event := { e with retry := some delay }

/-! ## The wire form -/

/-- `Duration::as_millis` -/
def asMillis (delay : ℕ) : ℕ := delay / 1000000

/-- `replace("\r\n", "\n")` -/
def replaceCrLf : Chars → Chars
  | '\r' :: '\n' :: rest => '\n' :: replaceCrLf rest
  | c :: rest => c :: replaceCrLf rest
  | [] => []

/-- `replace('\r', "\n")` -/
def replaceCr (text : Chars) : Chars := text.map fun c => if c = '\r' then '\n' else c

/-- The lines of `Display`: a `writeln!` each. -/
def lines (e : Event) : List Chars :=
  (e.comment.map fun comment => ':' :: ' ' :: comment.val).toList ++
  (e.event.map fun event => "event".toList ++ ':' :: ' ' :: event.val).toList ++
  (e.id.map fun id => "id".toList ++ ':' :: ' ' :: id.val).toList ++
  (e.retry.map fun retry =>
    "retry".toList ++ ':' :: ' ' :: Nat.toDigits 10 (asMillis retry)).toList ++
  (e.data.toList.flatMap fun data => ((replaceCr (replaceCrLf data)).splitOn '\n').map fun line =>
    "data".toList ++ ':' :: ' ' :: line) ++
  [[]]

/-- `Display` -/
def display (e : Event) : Chars := e.lines.flatMap (· ++ ['\n'])

end Event

/-! ## The stream -/

/-- `Poll<Option<T>>` -/
inductive Poll (α : Type) where
  | ready (item : Option α)
  | pending

/-- `EventBytes`: the period of the heartbeats, and whether the ticker exists. -/
structure EventBytes where
  keepAlive : Option ℕ
  ticker : Bool

namespace EventBytes

/-- `: keep-alive` and a blank line. -/
def heartbeat : Chars := ": keep-alive\n\n".toList

/-- `EventBytes::poll_next`, for what the event stream answers to the poll and whether the
    ticker is ready. -/
def pollNext (this : EventBytes) (events : Poll Event) (tick : Bool) : Poll Chars × EventBytes :=
  match events with
  | .ready item => (.ready (item.map Event.display), this)
  | .pending =>
    match this.keepAlive with
    | some _ =>
      let this := { this with ticker := true }
      if tick then (.ready (some heartbeat), this) else (.pending, this)
    | none => (.pending, this)

/-- The chunks of a body that is polled until it ends. -/
def sent (this : EventBytes) : List (Poll Event × Bool) → List Chars
  | [] => []
  | (events, tick) :: polls =>
    match this.pollNext events tick with
    | (.ready (some chunk), this) => chunk :: this.sent polls
    | (.ready none, _) => []
    | (.pending, this) => this.sent polls

end EventBytes

/-- The events of a stream that is polled until it ends. -/
def yielded : List (Poll Event × Bool) → List Event
  | [] => []
  | (.ready (some event), _) :: polls => event :: yielded polls
  | (.ready none, _) :: _ => []
  | (.pending, _) :: polls => yielded polls

/-! ## What should arrive -/

/-- CRLF and a lone CR are a LF. -/
def normalized : Chars → Chars
  | '\r' :: '\n' :: rest => '\n' :: normalized rest
  | '\r' :: rest => '\n' :: normalized rest
  | c :: rest => c :: normalized rest
  | [] => []

/-- What a page has after some events: the latest id and retry, and the messages. -/
structure Delivered where
  lastEventId : Chars
  reconnection : Option ℕ
  messages : List Message

namespace Delivered

def start : Delivered := { lastEventId := [], reconnection := none, messages := [] }

/-- The message of an event that has data. -/
def message (lastEventId : Chars) (e : Event) (data : Chars) : Message where
  type := match e.event with
    | some name => if name.val = [] then Source.defaultType else name.val
    | none => Source.defaultType
  data := normalized data
  lastEventId := lastEventId

/-- One more event: one message if it has data, and nothing else. -/
def deliver (d : Delivered) (e : Event) : Delivered :=
  let lastEventId := (e.id.map Subtype.val).getD d.lastEventId
  { lastEventId
    reconnection := (e.retry.map Event.asMillis).or d.reconnection
    messages := d.messages ++ (e.data.map (message lastEventId e)).toList }

/-- The event source of the page, between two events. -/
def source (d : Delivered) : Source :=
  { data := [], type := [], idBuffer := d.lastEventId, lastEventId := d.lastEventId,
    reconnection := d.reconnection, messages := d.messages }

end Delivered

/-! ## One event -/

theorem normalized_eq (text : Chars) : normalized text = Event.replaceCr (Event.replaceCrLf text) := by
  induction text using normalized.induct with
  | case1 rest ih =>
    rw [normalized, Event.replaceCrLf, ih]
    rfl
  | case2 rest hne ih =>
    -- a lone CR survives the first pass and goes in the second
    have hpass : Event.replaceCrLf ('\r' :: rest) = '\r' :: Event.replaceCrLf rest := by
      rw [Event.replaceCrLf]
      exact fun after _ h => hne after h
    rw [normalized, hpass, ih]
    · rfl
    · exact hne
  | case3 c rest hcrlf hcr ih =>
    have hpass : Event.replaceCrLf (c :: rest) = c :: Event.replaceCrLf rest := by
      rw [Event.replaceCrLf]
      exact hcrlf
    rw [normalized, hpass, ih, Event.replaceCr, Event.replaceCr, List.map_cons, if_neg hcr]
    · exact hcrlf
    · exact hcr
  | case4 => rfl

/-- Nothing is left of the CRs. -/
theorem cr_not_mem_replaceCr (text : Chars) : '\r' ∉ Event.replaceCr text := by
  rw [Event.replaceCr, List.mem_map]
  rintro ⟨c, -, hc⟩
  split at hc
  · exact absurd hc (by decide)
  · contradiction

namespace Event

/-- A field on a line of its own. -/
theorem isLine_field {name value : Chars} (hname : IsLine name) (hvalue : IsLine value) :
    IsLine (name ++ ':' :: ' ' :: value) := by
  simpa [IsLine] using ⟨⟨hname.1, hvalue.1⟩, ⟨hname.2, hvalue.2⟩⟩

/-- Decimal digits are neither of the line ends. -/
theorem isLine_toDigits (n : ℕ) : IsLine (Nat.toDigits 10 n) := by
  have hdigit : ∀ c ∈ Nat.toDigits 10 n, c.isDigit = true := fun c hc =>
    Nat.isDigit_of_mem_toDigits (by decide) (by decide) hc
  exact ⟨fun h => absurd (hdigit _ h) (by decide), fun h => absurd (hdigit _ h) (by decide)⟩

/-- Each `writeln!` writes a line: a comment, a field, or the blank one at the end. -/
theorem line_cases {e : Event} {line : Chars} (h : line ∈ e.lines) :
    line = [] ∨ ∃ name ∈ [[], "event".toList, "id".toList, "retry".toList, "data".toList],
      ∃ value, IsLine value ∧ line = name ++ ':' :: ' ' :: value := by
  simp only [lines, List.mem_append, Option.mem_toList, Option.map_eq_some_iff, List.mem_flatMap,
    List.mem_map, List.mem_singleton] at h
  rcases h with ((((⟨comment, -, rfl⟩ | ⟨name, -, rfl⟩) | ⟨id, -, rfl⟩) | ⟨retry, -, rfl⟩) |
    ⟨data, -, piece, hpiece, rfl⟩) | rfl
  · exact .inr ⟨[], by simp, comment.val, comment.property, rfl⟩
  · exact .inr ⟨_, by simp, name.val, name.property, rfl⟩
  · exact .inr ⟨_, by simp, id.val, id.property.1, rfl⟩
  · exact .inr ⟨_, by simp, _, isLine_toDigits _, rfl⟩
  · obtain ⟨hlf, hsubset⟩ := not_mem_of_mem_splitOn hpiece
    exact .inr ⟨_, by simp, piece, ⟨hlf, fun hcr => cr_not_mem_replaceCr _ (hsubset hcr)⟩, rfl⟩
  · exact .inl rfl

theorem isLine_of_mem_lines {e : Event} {line : Chars} (h : line ∈ e.lines) : IsLine line := by
  rcases line_cases h with rfl | ⟨name, hname, value, hvalue, rfl⟩
  · exact ⟨List.not_mem_nil, List.not_mem_nil⟩
  · have hnames : ∀ name ∈ [[], "event".toList, "id".toList, "retry".toList, "data".toList],
        IsLine name := by decide
    exact isLine_field (hnames name hname) hvalue

/-- An event does not begin with a byte order mark. -/
theorem head_display (e : Event) : ∃ c rest, e.display = c :: rest ∧ c ≠ '\uFEFF' := by
  cases hlines : e.lines with
  | nil => simp [lines] at hlines
  | cons line others =>
    rw [display, hlines, List.flatMap_cons]
    rcases line_cases (hlines ▸ List.mem_cons_self : line ∈ e.lines) with
      rfl | ⟨name, hname, value, -, rfl⟩
    · exact ⟨'\n', _, rfl, by decide⟩
    · simp only [List.mem_cons, List.not_mem_nil, or_false] at hname
      rcases hname with rfl | rfl | rfl | rfl | rfl
      all_goals exact ⟨_, _, rfl, by decide⟩

/-! ### Field by field -/

theorem line_event (s : Source) (value : Chars) :
    s.line ("event".toList ++ ':' :: ' ' :: value) = { s with type := value } := by
  rw [Source.line_field _ (by decide) (by decide)]
  simp [Source.field]

theorem line_id (s : Source) {value : Chars} (h : '\x00' ∉ value) :
    s.line ("id".toList ++ ':' :: ' ' :: value) = { s with idBuffer := value } := by
  rw [Source.line_field _ (by decide) (by decide)]
  simp [Source.field, h]

theorem line_retry (s : Source) (n : ℕ) :
    s.line ("retry".toList ++ ':' :: ' ' :: Nat.toDigits 10 n) = { s with reconnection := some n } := by
  have hdigits : (Nat.toDigits 10 n).all Char.isDigit = true :=
    List.all_eq_true.mpr fun c hc => Nat.isDigit_of_mem_toDigits (by decide) (by decide) hc
  rw [Source.line_field _ (by decide) (by decide)]
  simp [Source.field, hdigits, Nat.toDigits_ne_nil, Nat.ofDigitChars_ten_toDigits]

/-- The `data:` lines put their pieces back together. -/
theorem foldl_data (pieces : List Chars) (s : Source) :
    (pieces.map fun line => "data".toList ++ ':' :: ' ' :: line).foldl Source.line s =
      { s with data := s.data ++ pieces.flatMap (· ++ ['\n']) } := by
  induction pieces generalizing s with
  | nil => simp
  | cons piece pieces ih =>
    have hpiece : s.line ("data".toList ++ ':' :: ' ' :: piece) =
        { s with data := s.data ++ piece ++ ['\n'] } := by
      rw [Source.line_field _ (by decide) (by decide)]
      simp [Source.field]
    rw [List.map_cons, List.foldl_cons, hpiece, ih]
    simp

/-- The lines before the blank one fill the buffers. -/
theorem foldl_fields (e : Event) (s : Source) :
    e.lines.dropLast.foldl Source.line s =
      { s with
        type := (e.event.map Subtype.val).getD s.type
        idBuffer := (e.id.map Subtype.val).getD s.idBuffer
        reconnection := (e.retry.map asMillis).or s.reconnection
        data := s.data ++ e.data.toList.flatMap fun data => normalized data ++ ['\n'] } := by
  -- each field writes the lines that the source reads it back from
  have hcomment : ∀ s : Source, (e.comment.map fun comment =>
      ':' :: ' ' :: comment.val).toList.foldl Source.line s = s := by
    intro s
    cases e.comment with
    | none => rfl
    | some comment => exact s.line_comment (' ' :: comment.val)
  have hevent : ∀ s : Source, (e.event.map fun event =>
      "event".toList ++ ':' :: ' ' :: event.val).toList.foldl Source.line s =
        { s with type := (e.event.map Subtype.val).getD s.type } := by
    intro s
    cases e.event with
    | none => rfl
    | some name => exact line_event s _
  have hid : ∀ s : Source, (e.id.map fun id =>
      "id".toList ++ ':' :: ' ' :: id.val).toList.foldl Source.line s =
        { s with idBuffer := (e.id.map Subtype.val).getD s.idBuffer } := by
    intro s
    cases e.id with
    | none => rfl
    | some id => exact line_id s id.property.2
  have hretry : ∀ s : Source, (e.retry.map fun retry =>
      "retry".toList ++ ':' :: ' ' :: Nat.toDigits 10 (asMillis retry)).toList.foldl Source.line s =
        { s with reconnection := (e.retry.map asMillis).or s.reconnection } := by
    intro s
    cases e.retry with
    | none => rfl
    | some retry => exact line_retry s _
  have hdata : ∀ s : Source, (e.data.toList.flatMap fun data =>
      ((replaceCr (replaceCrLf data)).splitOn '\n').map fun line =>
        "data".toList ++ ':' :: ' ' :: line).foldl Source.line s =
        { s with data := s.data ++ e.data.toList.flatMap fun data => normalized data ++ ['\n'] } := by
    intro s
    cases e.data with
    | none => simp
    | some data =>
      rw [Option.toList_some, List.flatMap_singleton, List.flatMap_singleton, foldl_data,
        flatMap_splitOn, normalized_eq]
  rw [lines, List.dropLast_concat, List.foldl_append, List.foldl_append, List.foldl_append,
    List.foldl_append, hcomment, hevent, hid, hretry, hdata]

/-- **One event.** In its wire form it does to a source what the event says. -/
theorem receive (e : Event) (d : Delivered) :
    e.lines.foldl Source.line d.source = (d.deliver e).source := by
  have hlines : e.lines = e.lines.dropLast ++ [[]] := by
    rw [lines, List.dropLast_concat]
  rw [hlines, List.foldl_append, foldl_fields, List.foldl_cons, List.foldl_nil, Source.line_blank]
  cases hdata : e.data with
  | none =>
    -- the blank line only clears the event name
    simp [Source.dispatch, Delivered.source, Delivered.deliver, hdata]
  | some data =>
    have htype : (if (e.event.map Subtype.val).getD [] = [] then Source.defaultType
        else (e.event.map Subtype.val).getD []) = (Delivered.message [] e data).type := by
      rw [Delivered.message]
      cases e.event with
      | none => rfl
      | some name => rfl
    simpa [Source.dispatch, Delivered.source, Delivered.deliver, Delivered.message, hdata]
      using htype

end Event

/-! ## The whole stream -/

/-- A heartbeat changes nothing. -/
theorem feed_heartbeat (d : Delivered) :
    Reader.feed (.fresh d.source) EventBytes.heartbeat = .fresh d.source := by
  have hlines : EventBytes.heartbeat = [": keep-alive".toList, []].flatMap (· ++ ['\n']) := by decide
  rw [hlines, Reader.feed_lines (by decide), List.foldl_cons, List.foldl_cons, List.foldl_nil,
    Source.line_blank]
  show Reader.fresh (Source.dispatch (Source.line d.source (':' :: " keep-alive".toList))) = _
  rw [Source.line_comment]
  rfl

theorem feed_display (e : Event) (d : Delivered) :
    Reader.feed (.fresh d.source) e.display = .fresh (d.deliver e).source := by
  rw [Event.display, Reader.feed_lines fun _ h => Event.isLine_of_mem_lines h, Event.receive]

/-- What a page has received after the chunks of a stream is what its events say. -/
theorem feed_sent (this : EventBytes) (polls : List (Poll Event × Bool)) (d : Delivered) :
    Reader.feed (.fresh d.source) (this.sent polls).flatten =
      .fresh ((yielded polls).foldl Delivered.deliver d).source := by
  induction polls generalizing this d with
  | nil => rfl
  | cons poll polls ih =>
    obtain ⟨events, tick⟩ := poll
    match events with
    | .ready (some e) =>
      show Reader.feed _ (e.display :: this.sent polls).flatten = _
      rw [List.flatten_cons, Reader.feed_append, feed_display, ih]
      rfl
    | .ready none => rfl
    | .pending =>
      obtain ⟨keepAlive, ticker⟩ := this
      cases keepAlive with
      | none => exact ih _ _
      | some period =>
        cases tick with
        | false => exact ih _ _
        | true =>
          -- the heartbeat goes out in the place of an event
          show Reader.feed _ (EventBytes.heartbeat :: EventBytes.sent _ polls).flatten = _
          rw [List.flatten_cons, Reader.feed_append, feed_heartbeat]
          exact ih _ _

/-- No chunk is empty, and none begins with a byte order mark. -/
theorem head_of_mem_sent {this : EventBytes} {polls : List (Poll Event × Bool)} {chunk : Chars}
    (h : chunk ∈ this.sent polls) : ∃ c rest, chunk = c :: rest ∧ c ≠ '\uFEFF' := by
  induction polls generalizing this with
  | nil => exact absurd h List.not_mem_nil
  | cons poll polls ih =>
    obtain ⟨events, tick⟩ := poll
    match events with
    | .ready (some e) =>
      rcases List.mem_cons.mp h with rfl | h
      · exact e.head_display
      · exact ih h
    | .ready none => exact absurd h List.not_mem_nil
    | .pending =>
      obtain ⟨keepAlive, ticker⟩ := this
      cases keepAlive with
      | none => exact ih h
      | some period =>
        cases tick with
        | false => exact ih h
        | true =>
          rcases List.mem_cons.mp h with rfl | h
          · exact ⟨_, _, rfl, by decide⟩
          · exact ih h

/-- **Server-sent events survive the wire.** Whatever the events hold and however the polls
    of the body put heartbeats between them, a page that reads the bytes has dispatched one
    message for each event that has data, in order, and has the latest id and retry. -/
theorem sent_received (this : EventBytes) (polls : List (Poll Event × Bool)) :
    Reader.read (this.sent polls).flatten =
      ((yielded polls).foldl Delivered.deliver .start).source := by
  have hread : Reader.read (this.sent polls).flatten =
      (Reader.feed (.fresh .start) (this.sent polls).flatten).source := by
    cases hsent : this.sent polls with
    | nil => rfl
    | cons chunk chunks =>
      obtain ⟨c, rest, rfl, hc⟩ := head_of_mem_sent (hsent ▸ List.mem_cons_self)
      rw [List.flatten_cons, List.cons_append, Reader.read]
      exact fun _ h => hc (List.cons.inj h).1
  rw [hread]
  exact congrArg Reader.source (feed_sent this polls .start)

end OasRs.Sse
