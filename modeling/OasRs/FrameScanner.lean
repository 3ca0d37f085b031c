import OasRs.Lib.Transducer
import OasRs.Text
import Mathlib.Data.Vector.Basic

/-!
# The HTTP/2 Frame Scanner

`FrameScanner` of `src/runtime.rs`, which follows the frames that a connection writes, and
`Tracked`, which feeds it with what the socket accepts. The timers of `Tracked` are not modelled.

## Main results

- `FrameScanner.feed_eq`: feeding bytes together is feeding them one by one
- `outputs_frames`: the bytes of frames that are progress
- `frameScanner_exact`: every cut of the output, in plain and vectored writes
-/

namespace OasRs

open Lib.Transducer

/-! ## `FrameScanner` -/

/-- `FrameScanner`, between two bytes: the header is not full, and a payload length has 24 bits. -/
@[ext]
structure FrameScanner where
  header : Vector UInt8 9
  filled : ℕ
  payloadLeft : ℕ
  /-- the frame being skipped is `DATA`, `HEADERS` or `CONTINUATION` -/
  carriesResponse : Bool
  filled_lt : filled < 9
  payloadLeft_lt : payloadLeft < 2 ^ 24
  deriving DecidableEq

namespace FrameScanner

/-- `FrameScanner::default` -/
def new : FrameScanner where
  header := Vector.replicate 9 0
  filled := 0
  payloadLeft := 0
  carriesResponse := false
  filled_lt := by decide
  payloadLeft_lt := by decide

/-- `header[start..start + bytes.len()].copy_from_slice(bytes)` -/
def copyAt (header : Vector UInt8 9) (start : ℕ) (bytes : Text) : Vector UInt8 9 :=
  header.mapIdx fun i old => if start ≤ i then (bytes[i - start]?).getD old else old

/-- `u32::from_be_bytes([0, a, b, c])` -/
def payloadLength (header : Vector UInt8 9) : ℕ :=
  header[0].toNat * 2 ^ 16 + header[1].toNat * 2 ^ 8 + header[2].toNat

theorem payloadLength_lt (header : Vector UInt8 9) : payloadLength header < 2 ^ 24 := by
  have ha := header[0].toNat_lt
  have hb := header[1].toNat_lt
  have hc := header[2].toNat_lt
  rw [payloadLength]
  omega

/-- `matches!(kind, 0 | 1 | 9)`: `DATA`, `HEADERS` and `CONTINUATION` -/
def carries (kind : UInt8) : Bool := kind == 0 || kind == 1 || kind == 9

/-- The scanner when a header is full. -/
def announce (header : Vector UInt8 9) : FrameScanner where
  header
  filled := 0
  payloadLeft := payloadLength header
  carriesResponse := carries header[3]
  filled_lt := by decide
  payloadLeft_lt := payloadLength_lt header

/-- Skip some bytes of the payload, at most those that are left. -/
def skip (scanner : FrameScanner) (take : ℕ) (_htake : take ≤ scanner.payloadLeft) : FrameScanner :=
  { scanner with
    payloadLeft := scanner.payloadLeft - take
    payloadLeft_lt := lt_of_le_of_lt (Nat.sub_le _ _) scanner.payloadLeft_lt }

/-- The loop of `FrameScanner::feed`. -/
def feedFrom (scanner : FrameScanner) (data : Text) (progress : Bool) : Bool × FrameScanner :=
  if hdata : data = [] then (progress, scanner)
  else if hleft : 0 < scanner.payloadLeft then
    let take := min scanner.payloadLeft data.length
    feedFrom (scanner.skip take (Nat.min_le_left _ _)) (data.drop take)
      (progress || scanner.carriesResponse)
  else
    let take := min (9 - scanner.filled) data.length
    let header := copyAt scanner.header scanner.filled (data.take take)
    if hfull : scanner.filled + take = 9 then
      -- headers are progress even when their payload is empty
      feedFrom (announce header) (data.drop take) (progress || header[3] == 1)
    else
      feedFrom
        { scanner with
          header
          filled := scanner.filled + take
          filled_lt := by have := scanner.filled_lt; omega }
        (data.drop take) progress
termination_by data.length
decreasing_by
  all_goals
    have hpos := List.length_pos_of_ne_nil hdata
    have hfilled := scanner.filled_lt
    rw [List.length_drop]
    omega

/-- `FrameScanner::feed` -/
def feed (scanner : FrameScanner) (data : Text) : Bool × FrameScanner :=
  scanner.feedFrom data false

/-! ## Byte by byte -/

/-- The scanner with one more byte. -/
def step (scanner : FrameScanner) (byte : UInt8) : Bool × FrameScanner :=
  if hleft : 0 < scanner.payloadLeft then (scanner.carriesResponse, scanner.skip 1 hleft)
  else
    let header := copyAt scanner.header scanner.filled [byte]
    if hfull : scanner.filled + 1 = 9 then (header[3] == 1, announce header)
    else
      (false, { scanner with
        header
        filled := scanner.filled + 1
        filled_lt := by have := scanner.filled_lt; omega })

theorem getElem_copyAt (header : Vector UInt8 9) (start : ℕ) (bytes : Text) {i : ℕ} (hi : i < 9) :
    (copyAt header start bytes)[i] =
      if start ≤ i then (bytes[i - start]?).getD header[i] else header[i] :=
  Vector.getElem_mapIdx _

@[simp] theorem copyAt_nil (header : Vector UInt8 9) (start : ℕ) : copyAt header start [] = header := by
  apply Vector.ext
  intro i hi
  rw [getElem_copyAt header start [] hi]
  simp

/-- Bytes that are copied one after another are copied together. -/
theorem copyAt_append (header : Vector UInt8 9) (start : ℕ) (as bs : Text) :
    copyAt (copyAt header start as) (start + as.length) bs = copyAt header start (as ++ bs) := by
  apply Vector.ext
  intro i hi
  simp only [getElem_copyAt _ _ _ hi]
  rcases Nat.lt_or_ge i start with hbefore | hstart
  · rw [if_neg (by omega), if_neg (by omega), if_neg (by omega)]
  · rw [if_pos hstart, if_pos hstart]
    rcases Nat.lt_or_ge i (start + as.length) with hfirst | hsecond
    · rw [if_neg (by omega), List.getElem?_append_left (by omega)]
    · rw [if_pos hsecond, List.getElem?_append_right (by omega), List.getElem?_eq_none (l := as) (by omega),
        Nat.sub_sub]
      rfl

variable {scanner : FrameScanner}

/-- The bytes of a payload, one by one. -/
theorem run_payload {chunk : Text} (h : chunk.length ≤ scanner.payloadLeft) :
    final step scanner chunk = scanner.skip chunk.length h ∧
      outputs step scanner chunk = List.replicate chunk.length scanner.carriesResponse := by
  induction chunk generalizing scanner with
  | nil => exact ⟨rfl, rfl⟩
  | cons byte chunk ih =>
    have hlength : (byte :: chunk).length = chunk.length + 1 := List.length_cons
    have hone : 0 < scanner.payloadLeft := by omega
    have hstep : step scanner byte = (scanner.carriesResponse, scanner.skip 1 hone) := by
      rw [step, dif_pos hone]
    have hleft : chunk.length ≤ (scanner.skip 1 hone).payloadLeft := by
      show chunk.length ≤ scanner.payloadLeft - 1
      omega
    obtain ⟨hfinal, houtputs⟩ := ih hleft
    rw [final_cons, outputs_cons, hstep, hfinal, houtputs]
    constructor
    · apply FrameScanner.ext
      · rfl
      · rfl
      · show scanner.payloadLeft - 1 - chunk.length = scanner.payloadLeft - (chunk.length + 1)
        omega
      · rfl
    · rw [List.length_cons, List.replicate_succ]
      rfl

/-- The bytes of a header, one by one, as long as it is not full. -/
theorem run_header (hleft : scanner.payloadLeft = 0) {chunk : Text}
    (h : scanner.filled + chunk.length < 9) :
    final step scanner chunk =
        { scanner with
          header := copyAt scanner.header scanner.filled chunk
          filled := scanner.filled + chunk.length
          filled_lt := h } ∧
      outputs step scanner chunk = List.replicate chunk.length false := by
  induction chunk generalizing scanner with
  | nil => simp
  | cons byte chunk ih =>
    rw [List.length_cons] at h
    -- one byte of the header, and the header is not complete
    have hstep : step scanner byte = (false,
        { scanner with
          header := copyAt scanner.header scanner.filled [byte]
          filled := scanner.filled + 1
          filled_lt := by omega }) := by
      rw [step, dif_neg (by omega), dif_neg (by omega)]
    rw [final_cons, outputs_cons, hstep]
    have hshort : (step scanner byte).2.filled + chunk.length < 9 := by
      rw [hstep]
      show scanner.filled + 1 + chunk.length < 9
      omega
    obtain ⟨hfinal, houtputs⟩ := ih (by rw [hstep]; exact hleft) hshort
    simp only [hstep] at hfinal houtputs
    have hcopy := copyAt_append scanner.header scanner.filled [byte] chunk
    rw [List.length_singleton, List.singleton_append] at hcopy
    constructor
    · rw [hfinal]
      apply FrameScanner.ext
      · exact hcopy
      · show scanner.filled + 1 + chunk.length = scanner.filled + (chunk.length + 1)
        omega
      · rfl
      · rfl
    · rw [houtputs, List.length_cons, List.replicate_succ]

/-- The bytes that make a header full. -/
theorem run_announce (hleft : scanner.payloadLeft = 0) {chunk : Text}
    (h : scanner.filled + chunk.length = 9) :
    final step scanner chunk = announce (copyAt scanner.header scanner.filled chunk) ∧
      outputs step scanner chunk = List.replicate (chunk.length - 1) false ++
        [(copyAt scanner.header scanner.filled chunk)[3] == 1] := by
  have hfilled := scanner.filled_lt
  have hne : chunk ≠ [] := by
    rintro rfl
    rw [List.length_nil] at h
    omega
  obtain ⟨first, last, rfl⟩ := (List.eq_nil_or_concat chunk).resolve_left hne
  rw [List.concat_eq_append] at h ⊢
  rw [List.length_append, List.length_singleton] at h
  have hfirst : scanner.filled + first.length < 9 := by omega
  obtain ⟨hfinal, houtputs⟩ := run_header hleft hfirst
  have hcopy := copyAt_append scanner.header scanner.filled first [last]
  rw [final_append, outputs_append, hfinal, houtputs, final_cons, outputs_cons, final_nil,
    outputs_nil]
  have hstep : step
      { scanner with
        header := copyAt scanner.header scanner.filled first
        filled := scanner.filled + first.length
        filled_lt := hfirst } last =
      ((copyAt scanner.header scanner.filled (first ++ [last]))[3] == 1,
        announce (copyAt scanner.header scanner.filled (first ++ [last]))) := by
    rw [step, dif_neg (by simp only [hleft]; omega), dif_pos (by simp only; omega)]
    simp only [hcopy]
  rw [hstep]
  refine ⟨rfl, ?_⟩
  rw [List.length_append, List.length_singleton, Nat.add_sub_cancel]

/-- The loop reads its data byte by byte. -/
theorem feedFrom_eq (scanner : FrameScanner) (data : Text) (progress : Bool) :
    scanner.feedFrom data progress =
      (progress || (outputs step scanner data).any id, final step scanner data) := by
  -- by induction on the length of the data: every round takes at least one byte of it
  induction hn : data.length using Nat.strong_induction_on generalizing scanner data progress with
  | _ n ih =>
    rw [feedFrom]
    split
    · rename_i hdata
      rw [hdata]
      simp
    · rename_i hdata
      have hpos := List.length_pos_of_ne_nil hdata
      split
      · -- inside a payload: skip as much of it as there is
        rename_i hleft
        have hlength : (data.take (min scanner.payloadLeft data.length)).length =
            min scanner.payloadLeft data.length := by
          rw [List.length_take]
          omega
        have hshort : (data.drop (min scanner.payloadLeft data.length)).length < n := by
          rw [List.length_drop]
          omega
        have hpayload : (data.take (min scanner.payloadLeft data.length)).length ≤
            scanner.payloadLeft := by omega
        obtain ⟨hfinal, houtputs⟩ := run_payload hpayload
        simp only
        rw [ih _ hshort _ _ _ rfl]
        conv_rhs => rw [← List.take_append_drop (min scanner.payloadLeft data.length) data]
        rw [final_append, outputs_append, hfinal, houtputs, List.any_append, List.any_replicate]
        simp only [hlength, if_neg (show min scanner.payloadLeft data.length ≠ 0 by omega),
          Bool.or_assoc]
        rfl
      · -- inside a header: copy as much of it as there is
        rename_i hleft
        have hzero : scanner.payloadLeft = 0 := by omega
        have hfilled := scanner.filled_lt
        have hlength : (data.take (min (9 - scanner.filled) data.length)).length =
            min (9 - scanner.filled) data.length := by
          rw [List.length_take]
          omega
        have hshort : (data.drop (min (9 - scanner.filled) data.length)).length < n := by
          rw [List.length_drop]
          omega
        simp only
        split
        · -- the header is complete and announces the next payload
          rename_i hfull
          have hwhole : scanner.filled +
              (data.take (min (9 - scanner.filled) data.length)).length = 9 := by omega
          obtain ⟨hfinal, houtputs⟩ := run_announce hzero hwhole
          rw [ih _ hshort _ _ _ rfl]
          conv_rhs => rw [← List.take_append_drop (min (9 - scanner.filled) data.length) data]
          rw [final_append, outputs_append, hfinal, houtputs, List.any_append, List.any_append,
            List.any_replicate]
          simp [Bool.or_assoc]
        · -- the header is still cut off
          rename_i hfull
          have hpart : scanner.filled +
              (data.take (min (9 - scanner.filled) data.length)).length < 9 := by omega
          obtain ⟨hfinal, houtputs⟩ := run_header hzero hpart
          rw [ih _ hshort _ _ _ rfl]
          conv_rhs => rw [← List.take_append_drop (min (9 - scanner.filled) data.length) data]
          rw [final_append, outputs_append, hfinal, houtputs, List.any_append, List.any_replicate]
          simp [hlength]

/-- **One piece is its bytes**: feeding it reports progress if one of its bytes is progress. -/
theorem feed_eq (scanner : FrameScanner) (data : Text) :
    scanner.feed data = ((outputs step scanner data).any id, final step scanner data) := by
  rw [feed, feedFrom_eq, Bool.false_or]

/-- Pieces leave the scanner where their bytes together leave it. -/
theorem final_feed (scanner : FrameScanner) (pieces : List Text) :
    final feed scanner pieces = (scanner.feed pieces.flatten).2 := by
  induction pieces generalizing scanner with
  | nil => rw [List.flatten_nil, feed_eq, final_nil, final_nil]
  | cons piece pieces ih =>
    rw [final_cons, ih, List.flatten_cons, feed_eq, feed_eq, feed_eq, final_append]

end FrameScanner

/-! ## Frames -/

/-- A frame of HTTP/2, of any type. -/
structure Frame where
  kind : UInt8
  flags : UInt8
  /-- the stream identifier, with its reserved bit -/
  stream : Vector UInt8 4
  payload : Text
  length_lt : payload.length < 2 ^ 24

namespace Frame

/-- The nine bytes of a frame header: the length in network order, the type, the flags and the
    stream. -/
def head (frame : Frame) : Text :=
  [.ofNat (frame.payload.length / 2 ^ 16), .ofNat (frame.payload.length / 2 ^ 8),
    .ofNat frame.payload.length, frame.kind, frame.flags] ++ frame.stream.toList

/-- A frame on the wire. -/
def bytes (frame : Frame) : Text := frame.head ++ frame.payload

/-- Which bytes of a frame are progress: the last one of the header of `HEADERS`, and the payload
    of `DATA`, `HEADERS` and `CONTINUATION`. -/
def marks (frame : Frame) : List Bool :=
  List.replicate 8 false ++ (frame.kind == 1) ::
    List.replicate frame.payload.length (FrameScanner.carries frame.kind)

theorem length_head (frame : Frame) : frame.head.length = 9 := by
  rw [head, List.length_append, Vector.length_toList]
  rfl

theorem length_bytes (frame : Frame) : frame.bytes.length = 9 + frame.payload.length := by
  rw [bytes, List.length_append, length_head]

end Frame

/-- A scanner at the start of a frame. -/
def FrameScanner.Fresh (scanner : FrameScanner) : Prop :=
  scanner.filled = 0 ∧ scanner.payloadLeft = 0

namespace FrameScanner

variable {scanner : FrameScanner}

theorem fresh_new : new.Fresh := ⟨rfl, rfl⟩

/-- A header that was copied in is the header of the frame. -/
theorem getElem_copyAt_head (header : Vector UInt8 9) (frame : Frame) {i : ℕ} (hi : i < 9) :
    some ((copyAt header 0 frame.head)[i]) = frame.head[i]? := by
  have hlt : i < frame.head.length := by rw [frame.length_head]; exact hi
  rw [getElem_copyAt header 0 frame.head hi, if_pos (Nat.zero_le i), Nat.sub_zero,
    List.getElem?_eq_getElem hlt]
  rfl

theorem announce_head (header : Vector UInt8 9) (frame : Frame) :
    (copyAt header 0 frame.head)[3] = frame.kind ∧
      payloadLength (copyAt header 0 frame.head) = frame.payload.length := by
  have hzero := Option.some.inj (getElem_copyAt_head header frame (i := 0) (by decide))
  have hone := Option.some.inj (getElem_copyAt_head header frame (i := 1) (by decide))
  have htwo := Option.some.inj (getElem_copyAt_head header frame (i := 2) (by decide))
  have hthree := Option.some.inj (getElem_copyAt_head header frame (i := 3) (by decide))
  refine ⟨hthree, ?_⟩
  -- the length is below 2^24, so its three bytes give it back
  have hlength := frame.length_lt
  rw [payloadLength, hzero, hone, htwo]
  simp only [UInt8.toNat_ofNat']
  omega

/-- The bytes of a frame, one by one. -/
theorem run_frame (h : scanner.Fresh) (frame : Frame) :
    (final step scanner frame.bytes).Fresh ∧ outputs step scanner frame.bytes = frame.marks := by
  obtain ⟨hfilled, hleft⟩ := h
  have hfull : scanner.filled + frame.head.length = 9 := by rw [hfilled, frame.length_head]
  obtain ⟨hfinal, houtputs⟩ := run_announce hleft hfull
  rw [hfilled] at hfinal houtputs
  obtain ⟨hkind, hlength⟩ := announce_head scanner.header frame
  have hpayload : frame.payload.length ≤
      (announce (copyAt scanner.header 0 frame.head)).payloadLeft := hlength.ge
  obtain ⟨hfinal', houtputs'⟩ := run_payload hpayload
  rw [Frame.bytes, final_append, outputs_append, hfinal, houtputs, hfinal', houtputs']
  constructor
  · refine ⟨rfl, ?_⟩
    show payloadLength (copyAt scanner.header 0 frame.head) - frame.payload.length = 0
    rw [hlength, Nat.sub_self]
  · show _ ++ List.replicate _ (carries (copyAt scanner.header 0 frame.head)[3]) = _
    rw [hkind, frame.length_head, Frame.marks, List.append_assoc]
    rfl

/-- **The bytes of frames that are progress**, from the start of a frame on. -/
theorem outputs_frames (h : scanner.Fresh) (frames : List Frame) :
    outputs step scanner (frames.flatMap Frame.bytes) = frames.flatMap Frame.marks := by
  induction frames generalizing scanner with
  | nil => rfl
  | cons frame frames ih =>
    obtain ⟨hfresh, hmarks⟩ := run_frame h frame
    rw [List.flatMap_cons, List.flatMap_cons, outputs_append, hmarks, ih hfresh]

end FrameScanner

/-- The byte at an index of a frame is progress: it completes the header of a `HEADERS` frame, or
    it is a byte of the payload of a `DATA`, `HEADERS` or `CONTINUATION` frame. -/
def Frame.ProgressAt (frame : Frame) (i : ℕ) : Prop :=
  (frame.kind = 1 ∧ i = 8) ∨
    ((frame.kind = 0 ∨ frame.kind = 1 ∨ frame.kind = 9) ∧ 9 ≤ i ∧ i < frame.bytes.length)

/-- The byte at an index of a sequence of frames is progress. -/
def ProgressAt (frames : List Frame) (i : ℕ) : Prop :=
  ∃ done frame rest, frames = done ++ frame :: rest ∧
    ∃ j, i = (done.flatMap Frame.bytes).length + j ∧ frame.ProgressAt j

/-- A frame without progress: another type, or no payload (and not `HEADERS`). -/
def Frame.Quiet (frame : Frame) : Prop :=
  frame.kind ≠ 1 ∧ ((frame.kind = 0 ∨ frame.kind = 9) → frame.payload = [])

theorem Frame.Quiet.not_progressAt {frame : Frame} (h : frame.Quiet) (i : ℕ) :
    ¬ frame.ProgressAt i := by
  obtain ⟨hheaders, hpayload⟩ := h
  rintro (⟨hkind, -⟩ | ⟨hkind, hstart, hstop⟩)
  · exact hheaders hkind
  · have hempty : frame.payload = [] := by
      rcases hkind with hkind | hkind | hkind
      · exact hpayload (.inl hkind)
      · exact (hheaders hkind).elim
      · exact hpayload (.inr hkind)
    rw [frame.length_bytes, hempty, List.length_nil] at hstop
    omega

theorem carries_iff (kind : UInt8) :
    FrameScanner.carries kind = true ↔ kind = 0 ∨ kind = 1 ∨ kind = 9 := by
  simp [FrameScanner.carries, or_assoc]

/-- The marks of a frame. -/
theorem Frame.getElem?_marks (frame : Frame) (i : ℕ) :
    frame.marks[i]? = some true ↔ frame.ProgressAt i := by
  rw [marks, ProgressAt, ← carries_iff, frame.length_bytes]
  rcases Nat.lt_trichotomy i 8 with hlt | rfl | hgt
  · rw [List.getElem?_append_left (by simpa using hlt), List.getElem?_replicate, if_pos hlt]
    refine iff_of_false (by simp) ?_
    rintro (⟨-, rfl⟩ | ⟨-, hstart, -⟩)
    · omega
    · omega
  · rw [List.getElem?_append_right (by simp), List.length_replicate, Nat.sub_self,
      List.getElem?_cons_zero, Option.some.injEq, beq_iff_eq]
    constructor
    · exact fun hkind => .inl ⟨hkind, rfl⟩
    · rintro (⟨hkind, -⟩ | ⟨-, hstart, -⟩)
      · exact hkind
      · omega
  · obtain ⟨k, rfl⟩ : ∃ k, i = 9 + k := ⟨i - 9, by omega⟩
    rw [List.getElem?_append_right (by simp; omega), List.length_replicate,
      show 9 + k - 8 = k + 1 by omega, List.getElem?_cons_succ, List.getElem?_replicate]
    constructor
    · intro h
      split at h
      · exact .inr ⟨Option.some.inj h, by omega, by omega⟩
      · cases h
    · rintro (⟨-, hlast⟩ | ⟨hcarries, -, hstop⟩)
      · omega
      · rw [if_pos (by omega), hcarries]

theorem Frame.length_marks (frame : Frame) : frame.marks.length = frame.bytes.length := by
  rw [marks, frame.length_bytes, List.length_append, List.length_cons, List.length_replicate,
    List.length_replicate]
  omega

/-- The marks of a sequence of frames. -/
theorem getElem?_flatMap_marks (frames : List Frame) (i : ℕ) :
    (frames.flatMap Frame.marks)[i]? = some true ↔ ProgressAt frames i := by
  induction frames generalizing i with
  | nil =>
    refine iff_of_false (by simp) ?_
    rintro ⟨done, frame, rest, hframes, -⟩
    cases done with
    | nil => cases hframes
    | cons _ _ => cases hframes
  | cons first frames ih =>
    rw [List.flatMap_cons]
    rcases Nat.lt_or_ge i first.bytes.length with hlt | hge
    · rw [List.getElem?_append_left (first.length_marks ▸ hlt), first.getElem?_marks]
      constructor
      · exact fun h => ⟨[], first, frames, rfl, i, (Nat.zero_add i).symm, h⟩
      · rintro ⟨done, frame, rest, hframes, j, rfl, h⟩
        cases done with
        | nil =>
          obtain ⟨rfl, rfl⟩ := List.cons.inj hframes
          rw [List.flatMap_nil, List.length_nil, Nat.zero_add]
          exact h
        | cons other done =>
          obtain ⟨rfl, -⟩ := List.cons.inj hframes
          rw [List.flatMap_cons, List.length_append] at hlt
          omega
    · obtain ⟨k, rfl⟩ : ∃ k, i = first.bytes.length + k := ⟨i - first.bytes.length, by omega⟩
      rw [List.getElem?_append_right (by rw [first.length_marks]; omega), first.length_marks,
        Nat.add_sub_cancel_left, ih]
      constructor
      · rintro ⟨done, frame, rest, rfl, j, rfl, h⟩
        refine ⟨first :: done, frame, rest, rfl, j, ?_, h⟩
        rw [List.flatMap_cons, List.length_append, Nat.add_assoc]
      · rintro ⟨done, frame, rest, hframes, j, hj, h⟩
        cases done with
        | nil =>
          -- the first frame has no byte there
          obtain ⟨rfl, rfl⟩ := List.cons.inj hframes
          rw [List.flatMap_nil, List.length_nil, Nat.zero_add] at hj
          rw [first.length_bytes] at hj
          rcases h with ⟨-, rfl⟩ | ⟨-, -, hstop⟩
          · omega
          · rw [first.length_bytes] at hstop
            omega
        | cons other done =>
          obtain ⟨rfl, rfl⟩ := List.cons.inj hframes
          rw [List.flatMap_cons, List.length_append] at hj
          exact ⟨done, frame, rest, rfl, j, by omega, h⟩

/-! ## `Tracked` -/

/-- `Tracked`: whether there is an activity to report to, and the scanner. -/
structure Tracked where
  watched : Bool
  scanner : FrameScanner

/-- A write, and how many bytes the socket accepts; none are when it is not ready or fails. It
    accepts no more of a plain write than it is offered. -/
inductive Write where
  | plain (data : Text) (accepted : Option ℕ) (h : ∀ n ∈ accepted, n ≤ data.length)
  | vectored (buffers : List Text) (accepted : Option ℕ)

namespace Tracked

/-- `Tracked::new` -/
def new (watched : Bool) : Tracked := { watched, scanner := .new }

/-- `Tracked::observe`: whether the activity is touched. -/
def observe (tracked : Tracked) (written : Text) : Bool × Tracked :=
  if tracked.watched then
    ((tracked.scanner.feed written).1,
      { tracked with scanner := (tracked.scanner.feed written).2 })
  else (false, tracked)

/-- The loop of `poll_write_vectored` over its buffers. -/
def observeBuffers (tracked : Tracked) (left : ℕ) : List Text → List Bool × Tracked
  | [] => ([], tracked)
  | buffer :: buffers =>
    if left = 0 then ([], tracked)
    else
      let take := min left buffer.length
      let (touched, tracked) := tracked.observe (buffer.take take)
      let (more, tracked) := tracked.observeBuffers (left - take) buffers
      (touched :: more, tracked)

/-- `poll_write` and `poll_write_vectored`: what each call of `observe` reports. -/
def pollWrite (tracked : Tracked) : Write → List Bool × Tracked
  | .plain data (some written) _ =>
    let (touched, tracked) := tracked.observe (data.take written)
    ([touched], tracked)
  | .vectored buffers (some left) => tracked.observeBuffers left buffers
  | .plain _ none _ | .vectored _ none => ([], tracked)

end Tracked

/-- The bytes of a write that the socket accepts. -/
def Write.accepted : Write → Text
  | .plain data accepted _ => data.take (accepted.getD 0)
  | .vectored buffers accepted => buffers.flatten.take (accepted.getD 0)

/-- The accepted parts of the buffers. -/
def piecesOf (left : ℕ) : List Text → List Text
  | [] => []
  | buffer :: buffers =>
    if left = 0 then []
    else buffer.take (min left buffer.length) :: piecesOf (left - min left buffer.length) buffers

/-- The pieces of a write that are scanned. -/
def Write.pieces : Write → List Text
  | .plain data accepted _ => (accepted.map (data.take ·)).toList
  | .vectored buffers accepted => (accepted.map (piecesOf · buffers)).getD []

/-- The pieces of the buffers are what is accepted of them. -/
theorem flatten_piecesOf (left : ℕ) (buffers : List Text) :
    (piecesOf left buffers).flatten = buffers.flatten.take left := by
  induction buffers generalizing left with
  | nil => simp [piecesOf]
  | cons buffer buffers ih =>
    rw [piecesOf]
    split
    · rename_i hzero
      rw [hzero]
      rfl
    · rw [List.flatten_cons, List.flatten_cons, ih, List.take_append]
      rcases Nat.le_total left buffer.length with hle | hge
      · rw [Nat.min_eq_left hle, Nat.sub_self, Nat.sub_eq_zero_of_le hle]
      · rw [Nat.min_eq_right hge, List.take_length, List.take_of_length_le hge]

theorem Write.flatten_pieces (write : Write) : write.pieces.flatten = write.accepted := by
  cases write with
  | plain data accepted h =>
    cases accepted with
    | none => rfl
    | some written => exact List.append_nil _
  | vectored buffers accepted =>
    cases accepted with
    | none => rfl
    | some left => exact flatten_piecesOf left buffers

namespace Tracked

/-- A watched connection, seen as its scanner. -/
def ofScanner (scanner : FrameScanner) : Tracked := { watched := true, scanner }

theorem observeBuffers_eq (scanner : FrameScanner) (left : ℕ) (buffers : List Text) :
    (ofScanner scanner).observeBuffers left buffers =
      (outputs FrameScanner.feed scanner (piecesOf left buffers),
        ofScanner (final FrameScanner.feed scanner (piecesOf left buffers))) := by
  induction buffers generalizing scanner left with
  | nil => rfl
  | cons buffer buffers ih =>
    rw [observeBuffers, piecesOf]
    split
    · rfl
    · show (_ :: ((ofScanner _).observeBuffers _ buffers).1,
        ((ofScanner _).observeBuffers _ buffers).2) = _
      rw [ih]
      rfl

/-- **A write is its pieces.** -/
theorem pollWrite_eq (scanner : FrameScanner) (write : Write) :
    (ofScanner scanner).pollWrite write =
      (outputs FrameScanner.feed scanner write.pieces,
        ofScanner (final FrameScanner.feed scanner write.pieces)) := by
  cases write with
  | plain data accepted h =>
    cases accepted with
    | none => rfl
    | some written => rfl
  | vectored buffers accepted =>
    cases accepted with
    | none => rfl
    | some left => exact observeBuffers_eq scanner left buffers

/-- A run of writes is the run of all their pieces. -/
theorem run_writes (scanner : FrameScanner) (writes : List Write) :
    (outputs pollWrite (ofScanner scanner) writes).flatten =
        outputs FrameScanner.feed scanner (writes.flatMap Write.pieces) ∧
      final pollWrite (ofScanner scanner) writes =
        ofScanner (final FrameScanner.feed scanner (writes.flatMap Write.pieces)) := by
  induction writes generalizing scanner with
  | nil => exact ⟨rfl, rfl⟩
  | cons write writes ih =>
    rw [outputs_cons, final_cons, pollWrite_eq, List.flatten_cons, (ih _).1, (ih _).2,
      List.flatMap_cons, outputs_append, final_append]
    exact ⟨rfl, rfl⟩

end Tracked

/-! ## Every cut -/

/-- The pieces of a run, up to one of them, are bytes of the frames. -/
theorem feed_iff {frames : List Frame} {before : List Text} {piece : Text}
    (hsent : before.flatten ++ piece <+: frames.flatMap Frame.bytes) :
    ((final FrameScanner.feed .new before).feed piece).1 = true ↔
      ∃ i, before.flatten.length ≤ i ∧ i < before.flatten.length + piece.length ∧
        ProgressAt frames i := by
  -- what the bytes of the piece report, one by one
  have houtputs : outputs FrameScanner.step (final FrameScanner.feed .new before) piece =
      (outputs FrameScanner.step .new (before.flatten ++ piece)).drop before.flatten.length := by
    rw [drop_outputs, FrameScanner.final_feed, FrameScanner.feed_eq]
  have hmarks : outputs FrameScanner.step .new (before.flatten ++ piece) <+:
      frames.flatMap Frame.marks := by
    rw [← FrameScanner.outputs_frames FrameScanner.fresh_new frames]
    exact outputs_prefix FrameScanner.step _ hsent
  have hget : ∀ i < before.flatten.length + piece.length,
      (outputs FrameScanner.step .new (before.flatten ++ piece))[i]? =
        (frames.flatMap Frame.marks)[i]? := by
    intro i hi
    have hlength : i < (outputs FrameScanner.step .new (before.flatten ++ piece)).length := by
      rw [length_outputs, List.length_append]
      exact hi
    obtain ⟨rest, hrest⟩ := hmarks
    rw [← hrest, List.getElem?_append_left hlength]
  rw [FrameScanner.feed_eq, houtputs]
  show List.any _ id = true ↔ _
  rw [List.any_eq_true]
  constructor
  · rintro ⟨mark, hmem, hmark⟩
    obtain ⟨k, hk⟩ := List.getElem?_of_mem hmem
    rw [List.getElem?_drop] at hk
    have hlt := (List.getElem?_eq_some_iff.mp hk).1
    rw [length_outputs, List.length_append] at hlt
    refine ⟨before.flatten.length + k, Nat.le_add_right _ _, hlt, ?_⟩
    rw [← getElem?_flatMap_marks, ← hget _ hlt, hk]
    exact congrArg some hmark
  · rintro ⟨i, hstart, hstop, hprogress⟩
    refine ⟨true, List.mem_of_getElem? (i := i - before.flatten.length) ?_, rfl⟩
    rw [List.getElem?_drop, Nat.add_sub_cancel' hstart, hget i hstop]
    exact (getElem?_flatMap_marks frames i).mpr hprogress

theorem flatten_flatMap_pieces (writes : List Write) :
    (writes.flatMap Write.pieces).flatten = writes.flatMap Write.accepted := by
  induction writes with
  | nil => rfl
  | cons write writes ih =>
    rw [List.flatMap_cons, List.flatMap_cons, List.flatten_append, ih, write.flatten_pieces]

/-- **The frame scanner is exact for every cut.** Whatever the writes are and however much of them
the socket accepts, as long as the accepted bytes begin a sequence of frames: the scanner ends
where it ends with all these bytes at once, a piece is reported exactly when one of its bytes is
progress, pieces of quiet frames never are, and the counters stay in their ranges. -/
theorem frameScanner_exact (frames : List Frame) (writes : List Write)
    (hsent : writes.flatMap Write.accepted <+: frames.flatMap Frame.bytes) :
    let pieces := writes.flatMap Write.pieces
    (final Tracked.pollWrite (.new true) writes).scanner =
        (FrameScanner.new.feed (writes.flatMap Write.accepted)).2 ∧
      (outputs Tracked.pollWrite (.new true) writes).flatten =
        outputs FrameScanner.feed .new pieces ∧
      ∀ before piece after, pieces = before ++ piece :: after →
        let scanner := final FrameScanner.feed .new before
        let start := before.flatten.length
        ((scanner.feed piece).1 = true ↔
          ∃ i, start ≤ i ∧ i < start + piece.length ∧ ProgressAt frames i) ∧
        ((∀ done frame rest, frames = done ++ frame :: rest →
            (done.flatMap Frame.bytes).length < start + piece.length →
            start < (done.flatMap Frame.bytes).length + frame.bytes.length → frame.Quiet) →
          (scanner.feed piece).1 = false) ∧
        scanner.filled < 9 ∧ scanner.payloadLeft < 2 ^ 24 := by
  intro pieces
  obtain ⟨houtputs, hfinal⟩ := Tracked.run_writes .new writes
  refine ⟨?_, houtputs, ?_⟩
  · show (final Tracked.pollWrite (Tracked.ofScanner .new) writes).scanner = _
    rw [hfinal]
    show final FrameScanner.feed .new pieces = _
    rw [FrameScanner.final_feed, flatten_flatMap_pieces]
  · intro before piece after hpieces scanner start
    have hsplit : before.flatten ++ piece <+: frames.flatMap Frame.bytes := by
      refine List.IsPrefix.trans ⟨after.flatten, ?_⟩ hsent
      have hflatten : pieces.flatten = writes.flatMap Write.accepted := flatten_flatMap_pieces writes
      rw [← hflatten, hpieces, List.flatten_append, List.flatten_cons, List.append_assoc]
    have hiff := feed_iff hsplit
    refine ⟨hiff, fun hquiet => ?_, scanner.filled_lt, scanner.payloadLeft_lt⟩
    rw [Bool.eq_false_iff]
    intro hreport
    obtain ⟨i, hstart, hstop, done, frame, rest, hframes, j, rfl, hprogress⟩ := hiff.mp hreport
    -- the frame with the byte overlaps the piece
    have hj : j < frame.bytes.length := by
      rw [frame.length_bytes]
      rcases hprogress with ⟨-, rfl⟩ | ⟨-, -, hend⟩
      · omega
      · rw [frame.length_bytes] at hend
        omega
    have hoverlap : frame.Quiet := by
      apply hquiet done frame rest hframes
      · omega
      · show before.flatten.length < _
        omega
    exact hoverlap.not_progressAt j hprogress

/-- An empty `SETTINGS` frame and a `HEADERS` frame of three bytes. -/
def exampleFrames : List Frame :=
  [{ kind := 4, flags := 1, stream := #v[0, 0, 0, 0], payload := [], length_lt := by decide },
    { kind := 1, flags := 4, stream := #v[0, 0, 0, 1], payload := [130, 132, 135]
      length_lt := by decide }]

/-- The socket takes ten of the bytes, and the others from two buffers and an empty one. -/
def exampleWrites : List Write :=
  [.plain [0, 0, 0, 4, 1, 0, 0, 0, 0, 0, 0, 3] (some 10) (by simp),
    .vectored [[0, 3, 1, 4, 0, 0, 0], [], [1, 130, 132, 135]] (some 10)]

theorem frameScanner_exact_example :
    (final Tracked.pollWrite (.new true) exampleWrites).scanner =
      (FrameScanner.new.feed (exampleWrites.flatMap Write.accepted)).2 :=
  (frameScanner_exact exampleFrames exampleWrites (by decide +kernel)).1

end OasRs
