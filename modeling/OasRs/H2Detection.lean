import OasRs.Lib.InitialSegment
import OasRs.Lib.Transducer
import OasRs.Text

/-!
# Detecting HTTP/2

`detect_h2` reads from a connection until the HTTP/2 preface is confirmed or ruled out, and
`Rewind` replays what was read. The code is generic in what it reads from; here it reads from a
socket whose client sends any bytes, closes at any point or never, and whose bytes arrive in any
portions. A read that fails, or is not answered in time, ends the connection and is not modelled.

## Main results

- `detectH2_spec`: what detection consumes, and what it answers
- `detectReads_proper`: no read is made once the preface is confirmed or ruled out
- `Rewind.pollRead_spec`: a read through `Rewind` is a read of the whole stream
- `h2c_lossless`: detection and everything that is read afterwards
-/

namespace OasRs

open Lib Lib.Transducer
open Stream' (Seq)

/-! ## `detect_h2` -/

/-- `H2_PREFACE` -/
def h2Preface : Text := str "PRI * HTTP/2.0\r\n\r\nSM\r\n\r\n"

section Generic

variable {σ : Type} (read : σ → ℕ → Text × σ)

/-- `detect_h2`, from what was seen so far: the answer, what was seen, and the connection. A read
    without bytes is the end of the stream. -/
def detectH2 (io : σ) (seen : Text) : Bool × Text × σ :=
  if hshort : seen.length < h2Preface.length then
    if ¬ seen.isPrefixOf h2Preface then (false, seen, io)
    else
      let answer := read io (h2Preface.length - seen.length)
      if hend : answer.1 = [] then (false, seen, answer.2)
      else detectH2 answer.2 (seen ++ answer.1)
  else (seen == h2Preface, seen, io)
termination_by h2Preface.length - seen.length
decreasing_by
  have hpos : 0 < (read io (h2Preface.length - seen.length)).1.length :=
    List.length_pos_of_ne_nil hend
  rw [List.length_append]
  omega

/-- What the reads of `detect_h2` return, in order. -/
def detectReads (io : σ) (seen : Text) : List Text :=
  if hshort : seen.length < h2Preface.length then
    if ¬ seen.isPrefixOf h2Preface then []
    else
      let answer := read io (h2Preface.length - seen.length)
      if hend : answer.1 = [] then [[]]
      else answer.1 :: detectReads answer.2 (seen ++ answer.1)
  else []
termination_by h2Preface.length - seen.length
decreasing_by
  have hpos : 0 < (read io (h2Preface.length - seen.length)).1.length :=
    List.length_pos_of_ne_nil hend
  rw [List.length_append]
  omega

section Steps

variable {io : σ} {seen : Text}

theorem detectH2_ruled (hshort : seen.length < h2Preface.length) (hruled : ¬ seen <+: h2Preface) :
    detectH2 read io seen = (false, seen, io) := by
  rw [detectH2, dif_pos hshort, if_pos (by simpa using hruled)]

theorem detectReads_ruled (hshort : seen.length < h2Preface.length)
    (hruled : ¬ seen <+: h2Preface) : detectReads read io seen = [] := by
  rw [detectReads, dif_pos hshort, if_pos (by simpa using hruled)]

theorem detectH2_ended (hshort : seen.length < h2Preface.length) (hbegins : seen <+: h2Preface)
    (hend : (read io (h2Preface.length - seen.length)).1 = []) :
    detectH2 read io seen = (false, seen, (read io (h2Preface.length - seen.length)).2) := by
  rw [detectH2, dif_pos hshort, if_neg (by simpa using hbegins)]
  exact dif_pos hend

theorem detectReads_ended (hshort : seen.length < h2Preface.length) (hbegins : seen <+: h2Preface)
    (hend : (read io (h2Preface.length - seen.length)).1 = []) :
    detectReads read io seen = [[]] := by
  rw [detectReads, dif_pos hshort, if_neg (by simpa using hbegins)]
  exact dif_pos hend

theorem detectH2_more (hshort : seen.length < h2Preface.length) (hbegins : seen <+: h2Preface)
    (hmore : (read io (h2Preface.length - seen.length)).1 ≠ []) :
    detectH2 read io seen = detectH2 read (read io (h2Preface.length - seen.length)).2
      (seen ++ (read io (h2Preface.length - seen.length)).1) := by
  rw [detectH2, dif_pos hshort, if_neg (by simpa using hbegins)]
  exact dif_neg hmore

theorem detectReads_more (hshort : seen.length < h2Preface.length) (hbegins : seen <+: h2Preface)
    (hmore : (read io (h2Preface.length - seen.length)).1 ≠ []) :
    detectReads read io seen = (read io (h2Preface.length - seen.length)).1 ::
      detectReads read (read io (h2Preface.length - seen.length)).2
        (seen ++ (read io (h2Preface.length - seen.length)).1) := by
  rw [detectReads, dif_pos hshort, if_neg (by simpa using hbegins)]
  exact dif_neg hmore

theorem detectH2_full (hfull : ¬ seen.length < h2Preface.length) :
    detectH2 read io seen = (seen == h2Preface, seen, io) := by
  rw [detectH2, dif_neg hfull]

theorem detectReads_full (hfull : ¬ seen.length < h2Preface.length) :
    detectReads read io seen = [] := by
  rw [detectReads, dif_neg hfull]

end Steps

/-- `Rewind` -/
structure Rewind (σ : Type) where
  prefixBytes : Text
  inner : σ

/-- `Rewind::poll_read`, into a buffer of the given size -/
def Rewind.pollRead (rewind : Rewind σ) (size : ℕ) : Text × Rewind σ :=
  if rewind.prefixBytes ≠ [] then
    let count := min rewind.prefixBytes.length size
    (rewind.prefixBytes.take count,
      { rewind with prefixBytes := rewind.prefixBytes.drop count })
  else
    let answer := read rewind.inner size
    (answer.1, { rewind with inner := answer.2 })

/-- The start of a connection with `h2c`: the answer, and what the HTTP layer reads from. -/
def sniff (io : σ) : Bool × Rewind σ :=
  let (isH2, seen, inner) := detectH2 read io []
  (isH2, { prefixBytes := seen, inner })

end Generic

/-! ## The socket -/

/-- A socket: what its client still sends before it closes, if it does, and how much is there at
    each read. -/
structure Socket where
  rest : Seq UInt8
  /-- one less than the number of bytes that are there at a read, if there are so many left -/
  arrivals : ℕ → ℕ
  reads : ℕ

/-- A read into a buffer of the given size. -/
def Socket.read (socket : Socket) (size : ℕ) : Text × Socket :=
  let bytes := socket.rest.take (min size (socket.arrivals socket.reads + 1))
  (bytes, { socket with rest := socket.rest.drop bytes.length, reads := socket.reads + 1 })

/-- A read of a stream gives some of the bytes that come next, and none only at its end. -/
structure IsRead (s : Seq UInt8) (size : ℕ) (bytes : Text) : Prop where
  length_le : bytes.length ≤ size
  begins : Begins bytes s
  ended : 0 < size → bytes = [] → s.get? 0 = none

/-- What was read is no longer to come. -/
theorem Socket.read_rest (socket : Socket) (size : ℕ) :
    (socket.read size).2.rest = socket.rest.drop (socket.read size).1.length := rfl

theorem Socket.read_spec (socket : Socket) (size : ℕ) :
    IsRead socket.rest size (socket.read size).1 where
  length_le := Seq.length_take_le.trans (Nat.min_le_left _ _)
  begins := begins_take _ _
  ended := by
    intro hsize hempty
    have hpos : 0 < min size (socket.arrivals socket.reads + 1) := by omega
    exact get?_zero_of_take_eq_nil hpos hempty

/-! ## Detection -/

/-- A run of detection: what was seen so far begins the stream, and the rest is not read yet. -/
structure Sniffed (s : Seq UInt8) (socket : Socket) (seen : Text) : Prop where
  begins : Begins seen s
  rest : socket.rest = s.drop seen.length
  length_le : seen.length ≤ h2Preface.length

variable {s : Seq UInt8} {socket : Socket} {seen : Text}

/-- A read keeps the run. -/
theorem Sniffed.read (h : Sniffed s socket seen) (hshort : seen.length < h2Preface.length) :
    Sniffed s (socket.read (h2Preface.length - seen.length)).2
      (seen ++ (socket.read (h2Preface.length - seen.length)).1) := by
  have hread := socket.read_spec (h2Preface.length - seen.length)
  rw [h.rest] at hread
  constructor
  · exact h.begins.append hread.begins
  · rw [Socket.read_rest, List.length_append, Seq.dropn_add, ← h.rest]
  · rw [List.length_append]
    have hle := hread.length_le
    omega

/-- A read without bytes shows that everything was seen. -/
theorem Sniffed.ended (h : Sniffed s socket seen) (hshort : seen.length < h2Preface.length)
    (hempty : (socket.read (h2Preface.length - seen.length)).1 = []) : s = Seq.ofList seen := by
  apply h.begins.eq_ofList
  have hend := (socket.read_spec (h2Preface.length - seen.length)).ended (by omega) hempty
  rw [h.rest, Seq.drop_get?] at hend
  exact hend


/-- Detection is over: the bytes are not a prefix of the preface any more, or all of it, or the
    stream has ended. -/
def Settled (s : Seq UInt8) (seen : Text) : Prop :=
  ¬ seen <+: h2Preface ∨ seen = h2Preface ∨ s = Seq.ofList seen

/-- **Detection consumes what it has seen**, and it goes on until it is settled. -/
theorem detectH2_spec (h : Sniffed s socket seen) :
    Sniffed s (detectH2 Socket.read socket seen).2.2 (detectH2 Socket.read socket seen).2.1 ∧
      Settled s (detectH2 Socket.read socket seen).2.1 ∧
      ((detectH2 Socket.read socket seen).1 = true ↔
        (detectH2 Socket.read socket seen).2.1 = h2Preface) := by
  induction socket, seen using detectH2.induct Socket.read with
  | case1 socket seen hshort hruled =>
    have hruled : ¬ seen <+: h2Preface := by simpa using hruled
    rw [detectH2_ruled _ hshort hruled]
    refine ⟨h, Or.inl hruled, ?_⟩
    constructor
    · intro hfalse
      cases hfalse
    · intro heq
      have heq : seen = h2Preface := heq
      rw [heq] at hshort
      omega
  | case2 socket seen hshort hbegins answer hend =>
    have hbegins : seen <+: h2Preface := by simpa using hbegins
    have hend : (socket.read (h2Preface.length - seen.length)).1 = [] := hend
    rw [detectH2_ended _ hshort hbegins hend]
    have hread := h.read hshort
    rw [hend, List.append_nil] at hread
    refine ⟨hread, Or.inr (Or.inr (h.ended hshort hend)), ?_⟩
    constructor
    · intro hfalse
      cases hfalse
    · intro heq
      have heq : seen = h2Preface := heq
      rw [heq] at hshort
      omega
  | case3 socket seen hshort hbegins answer hmore ih =>
    have hbegins : seen <+: h2Preface := by simpa using hbegins
    rw [detectH2_more _ hshort hbegins hmore]
    exact ih (h.read hshort)
  | case4 socket seen hfull =>
    rw [detectH2_full _ hfull]
    refine ⟨h, ?_, by simp⟩
    by_cases heq : seen = h2Preface
    · exact Or.inr (Or.inl heq)
    · left
      show ¬ seen <+: h2Preface
      intro hbegins
      -- a prefix as long as the preface is the preface
      exact heq (hbegins.eq_of_length_le (by omega))

/-- The reads of detection are proper: each one is made while the bytes seen are a proper prefix of
    the preface, and none after the end of the stream. -/
structure ProperReads (seen : Text) (reads : List Text) : Prop where
  undecided : ∀ before chunk after, reads = before ++ chunk :: after →
    seen ++ before.flatten <+: h2Preface ∧ seen ++ before.flatten ≠ h2Preface
  ended : ∀ before chunk after, reads = before ++ chunk :: after → chunk = [] → after = []

theorem ProperReads.nil (seen : Text) : ProperReads seen [] where
  undecided := by
    intro before chunk after h
    simp at h
  ended := by
    intro before chunk after h
    simp at h

theorem ProperReads.cons {seen chunk : Text} {reads : List Text}
    (h : ProperReads (seen ++ chunk) reads) (hbegins : seen <+: h2Preface)
    (hshort : seen.length < h2Preface.length) (hend : chunk = [] → reads = []) :
    ProperReads seen (chunk :: reads) := by
  constructor
  · intro before next after heq
    cases before with
    | nil =>
      rw [List.flatten_nil, List.append_nil]
      refine ⟨hbegins, ?_⟩
      intro hpreface
      rw [hpreface] at hshort
      omega
    | cons first before =>
      obtain ⟨rfl, rfl⟩ := List.cons.inj heq
      rw [List.flatten_cons, ← List.append_assoc]
      exact h.undecided before next after rfl
  · intro before next after heq hempty
    cases before with
    | nil =>
      obtain ⟨rfl, rfl⟩ := List.cons.inj heq
      exact hend hempty
    | cons first before =>
      obtain ⟨rfl, rfl⟩ := List.cons.inj heq
      exact h.ended before next after rfl hempty

/-- **Detection reads no more than it needs.** -/
theorem detectReads_proper (socket : Socket) (seen : Text) :
    ProperReads seen (detectReads Socket.read socket seen) ∧
      (detectH2 Socket.read socket seen).2.1 =
        seen ++ (detectReads Socket.read socket seen).flatten := by
  induction socket, seen using detectH2.induct Socket.read with
  | case1 socket seen hshort hruled =>
    have hruled : ¬ seen <+: h2Preface := by simpa using hruled
    rw [detectH2_ruled _ hshort hruled, detectReads_ruled _ hshort hruled]
    exact ⟨ProperReads.nil seen, by simp⟩
  | case2 socket seen hshort hbegins answer hend =>
    have hbegins : seen <+: h2Preface := by simpa using hbegins
    rw [detectH2_ended _ hshort hbegins hend, detectReads_ended _ hshort hbegins hend]
    refine ⟨?_, by simp⟩
    exact (ProperReads.nil _).cons hbegins hshort (fun _ => rfl)
  | case3 socket seen hshort hbegins answer hmore ih =>
    have hbegins : seen <+: h2Preface := by simpa using hbegins
    obtain ⟨hproper, hseen⟩ := ih
    rw [detectH2_more _ hshort hbegins hmore, detectReads_more _ hshort hbegins hmore]
    constructor
    · exact hproper.cons hbegins hshort (fun hempty => absurd hempty hmore)
    · rw [hseen, List.flatten_cons, List.append_assoc]
  | case4 socket seen hfull =>
    rw [detectH2_full _ hfull, detectReads_full _ hfull]
    exact ⟨ProperReads.nil seen, by simp⟩

/-- The preface was seen if and only if the stream starts with it. -/
theorem Sniffed.eq_preface_iff (h : Sniffed s socket seen) (hsettled : Settled s seen) :
    seen = h2Preface ↔ Begins h2Preface s := by
  constructor
  · intro heq
    rw [← heq]
    exact h.begins
  · intro hpreface
    have hbegins : seen <+: h2Preface := h.begins.isPrefix hpreface h.length_le
    rcases hsettled with hruled | heq | hended
    · exact absurd hbegins hruled
    · exact heq
    · -- all there is was seen
      rw [hended, begins_ofList] at hpreface
      exact hbegins.eq_of_length_le hpreface.length_le

/-! ## Replaying -/

/-- What `Rewind` still gives is the stream. -/
structure Rewind.Holds (s : Seq UInt8) (rewind : Rewind Socket) : Prop where
  begins : Begins rewind.prefixBytes s
  rest : rewind.inner.rest = s.drop rewind.prefixBytes.length

/-- **A read through `Rewind` is a read of the stream**, from the bytes that are replayed or from
    the socket, and it leaves the rest. -/
theorem Rewind.pollRead_spec {rewind : Rewind Socket} (h : rewind.Holds s) (size : ℕ) :
    IsRead s size (rewind.pollRead Socket.read size).1 ∧
      (rewind.pollRead Socket.read size).2.Holds
        (s.drop (rewind.pollRead Socket.read size).1.length) := by
  unfold Rewind.pollRead
  split
  · -- what is held is replayed first, and the socket is not touched
    rename_i hbegins
    show IsRead s size (rewind.prefixBytes.take _) ∧ _
    have hsplit := h.begins
    rw [← List.take_append_drop (min rewind.prefixBytes.length size) rewind.prefixBytes] at hsplit
    obtain ⟨hreplay, hkept⟩ := hsplit.of_append
    have hpos := List.length_pos_of_ne_nil hbegins
    constructor
    · constructor
      · rw [List.length_take]
        omega
      · exact hreplay
      · -- bytes that are held are replayed
        intro hsize hempty
        have hlength := congrArg List.length hempty
        rw [List.length_take, List.length_nil] at hlength
        omega
    · constructor
      · exact hkept
      · show rewind.inner.rest = _
        rw [h.rest, ← Seq.dropn_add, ← List.length_append, List.take_append_drop]
  · rename_i hbegins
    -- nothing is held any more: the socket is read
    have hempty : rewind.prefixBytes = [] := not_not.mp hbegins
    have hrest : rewind.inner.rest = s := by
      rw [h.rest, hempty]
      rfl
    show IsRead s size (rewind.inner.read size).1 ∧ _
    have hread := rewind.inner.read_spec size
    rw [hrest] at hread
    refine ⟨hread, ?_, ?_⟩
    · show Begins rewind.prefixBytes _
      rw [hempty]
      exact begins_nil _
    · show (rewind.inner.read size).2.rest = Seq.drop _ rewind.prefixBytes.length
      rw [Socket.read_rest, hrest, hempty]
      rfl

/-- What reads of the given sizes give of a stream: the stream in order, a byte at least for each
    read that has room for one until all of it is given, and nothing only at its end. -/
structure Replayed (s : Seq UInt8) (sizes : List ℕ) (chunks : List Text) : Prop where
  begins : Begins chunks.flatten s
  length_le : List.Forall₂ (fun size chunk => chunk.length ≤ size) sizes chunks
  ended : ∀ i size, sizes[i]? = some size → 0 < size → chunks[i]? = some [] →
    s = Seq.ofList (chunks.take i).flatten
  progress : sizes.countP (0 < ·) ≤ chunks.flatten.length ∨ s = Seq.ofList chunks.flatten

theorem Replayed.nil (s : Seq UInt8) : Replayed s [] [] where
  begins := begins_nil s
  length_le := List.Forall₂.nil
  ended := by
    intro i size hsize
    simp at hsize
  progress := Or.inl le_rfl

/-- A read, and the reads of the rest. -/
theorem Replayed.cons {size : ℕ} {chunk : Text} {sizes : List ℕ} {chunks : List Text}
    (hread : IsRead s size chunk) (h : Replayed (s.drop chunk.length) sizes chunks) :
    Replayed s (size :: sizes) (chunk :: chunks) := by
  constructor
  · exact hread.begins.append h.begins
  · exact List.Forall₂.cons hread.length_le h.length_le
  · intro i next hnext hpos hempty
    cases i with
    | zero =>
      obtain rfl : size = next := Option.some.inj hnext
      obtain rfl : chunk = [] := Option.some.inj hempty
      exact (begins_nil s).eq_ofList (hread.ended hpos rfl)
    | succ i => exact hread.begins.eq_ofList_append (h.ended i next hnext hpos hempty)
  · rw [List.countP_cons, List.flatten_cons, List.length_append]
    rcases h.progress with hcount | hall
    · by_cases hpos : 0 < size
      · by_cases hempty : chunk = []
        · -- the stream has ended, so nothing is given from here on
          right
          subst hempty
          have hend : s = Seq.ofList [] := (begins_nil s).eq_ofList (hread.ended hpos rfl)
          have hnothing := h.begins
          rw [hend] at hnothing
          have hnil : chunks.flatten = [] := List.prefix_nil.mp (begins_ofList.mp hnothing)
          rw [hend, hnil]
          rfl
        · left
          have hlength := List.length_pos_of_ne_nil hempty
          simp only [decide_eq_true hpos, if_true]
          omega
      · left
        simp only [decide_eq_false hpos, Bool.false_eq_true, if_false]
        omega
    · right
      exact hread.begins.eq_ofList_append hall

/-- Every run of reads through `Rewind` gives the stream. -/
theorem Rewind.replayed {rewind : Rewind Socket} (h : rewind.Holds s) (sizes : List ℕ) :
    Replayed s sizes (outputs (Rewind.pollRead Socket.read) rewind sizes) := by
  induction sizes generalizing s rewind with
  | nil => exact Replayed.nil s
  | cons size sizes ih =>
    obtain ⟨hread, hkept⟩ := Rewind.pollRead_spec h size
    exact Replayed.cons hread (ih hkept)

/-! ## A connection -/

theorem length_h2Preface : h2Preface.length = 24 := by decide +kernel

/-- **Detection loses no bytes**, for every stream, every way it arrives and all sizes of the reads
    that follow: it is HTTP/2 if and only if the stream starts with the preface, at most its 24
    bytes are consumed, each read of detection was needed and none is missing, and what is read
    afterwards is the stream from its first byte on. -/
theorem h2c_lossless (s : Seq UInt8) (arrivals : ℕ → ℕ) (sizes : List ℕ) :
    let socket : Socket := { rest := s, arrivals, reads := 0 }
    let isH2 := (sniff Socket.read socket).1
    let rewind := (sniff Socket.read socket).2
    let reads := detectReads Socket.read socket []
    (isH2 = true ↔ Begins h2Preface s) ∧
      (reads.flatten.length ≤ 24 ∧ rewind.inner.rest = s.drop reads.flatten.length) ∧
      (ProperReads [] reads ∧ Settled s reads.flatten) ∧
      Replayed s sizes (outputs (Rewind.pollRead Socket.read) rewind sizes) := by
  intro socket isH2 rewind reads
  -- nothing has been read yet
  have hsniffed : Sniffed s socket [] := by
    refine ⟨begins_nil s, rfl, ?_⟩
    exact Nat.zero_le _
  obtain ⟨hafter, hsettled, hanswer⟩ := detectH2_spec hsniffed
  obtain ⟨hproper, hseen⟩ := detectReads_proper socket []
  rw [List.nil_append] at hseen
  -- what is replayed is what the reads of detection brought
  have hreads : rewind.prefixBytes = reads.flatten := hseen
  have hholds : rewind.Holds s := ⟨hafter.begins, hafter.rest⟩
  refine ⟨?_, ⟨?_, ?_⟩, ⟨hproper, ?_⟩, Rewind.replayed hholds sizes⟩
  · exact hanswer.trans (hafter.eq_preface_iff hsettled)
  · rw [← hreads, ← length_h2Preface]
    exact hafter.length_le
  · rw [← hreads]
    exact hafter.rest
  · rw [← hreads]
    exact hsettled

end OasRs
