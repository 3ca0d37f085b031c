import OasRs.Lib.Search
import OasRs.Text
import Mathlib.Order.Interval.Finset.Nat
import Mathlib.Algebra.GroupWithZero.Nat

/-!
# Multipart Uploads

`src/multipart.rs`: the guard of `Multipart::from_stream`. A parser that pulls body bytes
and produces nothing is cut off, while the data of a part that the handler skips does not
count.

## Main results

- `Run.bounded`: what piles up, in runs that skip a part before its end was pulled
- `not_bounded`: a part that is skipped after its end was pulled hides what follows
-/

namespace OasRs.Multipart

open Lib.Search

/-! ## The guard -/

/-- `MAX_UNPRODUCTIVE` -/
def maxUnproductive : ℕ := 256 * 1024

/-- `Progress` -/
structure Progress where
  unproductive : ℕ
  draining : Bool

/-- `Progress::made` -/
def Progress.made : Progress := { unproductive := 0, draining := false }

/-- `DelimiterScan` -/
structure DelimiterScan where
  delimiter : Text
  carry : Text

namespace DelimiterScan

/-- `DelimiterScan::new` -/
def new (boundary : Text) : DelimiterScan :=
  { delimiter := str "\r\n--" ++ boundary, carry := [] }

/-- `DelimiterScan::feed` -/
def feed (scan : DelimiterScan) (chunk : Text) : Option ℕ × DelimiterScan :=
  let window := scan.carry ++ chunk
  match find scan.delimiter window with
  | some position =>
    (some (window.length - position - scan.delimiter.length), { scan with carry := [] })
  | none =>
    (none, { scan with carry := keep (min (scan.delimiter.length - 1) window.length) window })

end DelimiterScan

/-- What the body gives when it is polled. -/
inductive Polled where
  | data (bytes : Text)
  | error
  | done
  | pending

/-- What the guarded body gives. -/
inductive Answer where
  | data (bytes : Text)
  /-- "multipart preamble or part headers too large" -/
  | tooLarge
  | error
  | done
  | pending
  deriving DecidableEq

/-- `GuardedBody` -/
structure GuardedBody where
  progress : Progress
  scan : DelimiterScan

namespace GuardedBody

/-- The body of a new `Multipart`. -/
def new (boundary : Text) : GuardedBody :=
  { progress := { unproductive := 0, draining := false }, scan := .new boundary }

/-- `GuardedBody::poll_next` -/
def pollNext (body : GuardedBody) (polled : Polled) : Answer × GuardedBody :=
  match polled with
  | .data bytes =>
    if body.progress.draining then
      match body.scan.feed bytes with
      | (some after, scan) =>
        (.data bytes, { progress := { unproductive := after, draining := false }, scan })
      | (none, scan) =>
        (.data bytes, { progress := { unproductive := 0, draining := true }, scan })
    else
      let before := body.progress.unproductive
      let body := { body with
        progress := { body.progress with unproductive := before + bytes.length } }
      if before > maxUnproductive then (.tooLarge, body) else (.data bytes, body)
  | .error => (.error, body)
  | .done => (.done, body)
  | .pending => (.pending, body)

/-- `Progress::made` on the shared progress -/
def made (body : GuardedBody) : GuardedBody := { body with progress := .made }

/-- `SkipGuard::drop`, when the field is not finished -/
def skip (body : GuardedBody) : GuardedBody :=
  { body with progress := { body.progress with draining := true } }

end GuardedBody

/-! ## Sessions -/

/-- What happens in an upload. -/
inductive Event where
  /-- the parser polls the body -/
  | poll (polled : Polled)
  /-- `Multipart::next_field` returns a field whose data begins at an offset of the body, or
      nothing -/
  | nextField (start : Option ℕ)
  /-- `Field::chunk` returns a piece, or the end -/
  | chunk (more : Bool)
  /-- a field that is not finished is dropped -/
  | drop

/-- An upload: the guard, and what a witness of the events knows. -/
structure Session where
  guard : GuardedBody
  /-- the bytes that were pulled -/
  pulled : Text
  /-- how many there were at the last productive event -/
  since : ℕ
  /-- where the data of the field begins that the handler holds, if it is not finished -/
  field : Option ℕ
  /-- where the data of the part begins that was dropped since the last productive event -/
  skipped : Option ℕ
  /-- the sizes of the chunks, the last one first -/
  sizes : List ℕ
  /-- whether a poll returned the error of the guard -/
  refused : Bool

namespace Session

/-- A session that has pulled nothing. -/
def start (boundary : Text) : Session :=
  { guard := .new boundary, pulled := [], since := 0, field := none, skipped := none, sizes := [],
    refused := false }

/-- Something was produced. -/
def made (s : Session) (field : Option ℕ) : Session :=
  { s with guard := s.guard.made, since := s.pulled.length, field, skipped := none }

/-- The effect of an event. -/
def step (s : Session) : Event → Session
  | .poll polled =>
    let (answer, guard) := s.guard.pollNext polled
    let s := { s with guard, refused := s.refused || answer == .tooLarge }
    match polled with
    | .data bytes =>
      { s with pulled := s.pulled ++ bytes, sizes := bytes.length :: s.sizes }
    | _ => s
  | .nextField start => s.made start
  | .chunk more => s.made (if more then s.field else none)
  | .drop => { s with guard := s.guard.skip, field := none, skipped := s.field }

/-- When an event can happen: chunks come from the body in order, a field is returned after
    its headers were pulled and while no other is held. -/
def Allowed (body : Text) (s : Session) : Event → Prop
  | .poll (.data bytes) => s.pulled ++ bytes <+: body
  | .poll _ => True
  | .nextField start => s.field = none ∧ ∀ offset, start = some offset → offset ≤ s.pulled.length
  | .chunk _ => s.field.isSome = true
  | .drop => s.field.isSome = true

end Session

/-- The sessions with a body, when every event meets a condition. -/
inductive Run (boundary body : Text) (condition : Session → Event → Prop) : Session → Prop where
  | start : Run boundary body condition (.start boundary)
  | step {s : Session} {e : Event} (run : Run boundary body condition s) (allowed : s.Allowed body e)
      (meets : condition s e) : Run boundary body condition (s.step e)

/-! ## What piles up -/

/-- Where the data of a part ends: behind the first delimiter at or after its beginning. -/
def endOf (delimiter body : Text) (start : ℕ) : Option ℕ :=
  (find delimiter (body.drop start)).map (start + · + delimiter.length)

namespace Session

/-- Whether a byte of the body belongs to the rest of a part that was dropped. -/
def excusable (delimiter body : Text) (s : Session) (i : ℕ) : Bool :=
  match s.skipped with
  | some start =>
    decide (start ≤ i) && ((endOf delimiter body start).map fun stop => decide (i < stop)).getD true
  | none => false

/-- The bytes pulled since the last productive event that are not excusable. -/
def unexcused (delimiter body : Text) (s : Session) : ℕ :=
  ((Finset.Ico s.since s.pulled.length).filter fun i => s.excusable delimiter body i = false).card

/-- The bound of the guard: the limit and two chunks, or the error was returned. -/
def Bounded (boundary body : Text) (s : Session) : Prop :=
  s.refused = true ∨
    s.unexcused (DelimiterScan.new boundary).delimiter body ≤ maxUnproductive + (s.sizes.take 2).sum

/-- A field is dropped before any of the delimiter that ends its part was pulled. -/
def DropsEarly (boundary body : Text) (s : Session) (e : Event) : Prop :=
  e = .drop → ∀ start, s.field = some start → ∀ i, start ≤ i → i < s.pulled.length →
    ¬ OccursAt (DelimiterScan.new boundary).delimiter body i

end Session

/-! ## The delimiter of a skipped part -/

section Delimiter

variable {delimiter body pulled : Text} {start i : ℕ}

/-- If a part ends before some byte that was pulled, its delimiter is among the bytes that
    were pulled. -/
theorem occursAt_of_endOf {stop : ℕ} (hpulled : pulled <+: body)
    (hstop : endOf delimiter body start = some stop) (hle : stop ≤ pulled.length) :
    ∃ position, stop = position + delimiter.length ∧ start ≤ position ∧
      OccursAt delimiter pulled position ∧ OccursAt delimiter body position := by
  rw [endOf, Option.map_eq_some_iff] at hstop
  obtain ⟨offset, hfind, rfl⟩ := hstop
  obtain ⟨⟨hoccurs, -⟩, -⟩ := find_eq_some_iff.mp hfind
  rw [OccursAt, List.drop_drop] at hoccurs
  obtain ⟨rest, rfl⟩ := hpulled
  refine ⟨start + offset, rfl, Nat.le_add_right _ _, OccursAt.of_append hoccurs hle, hoccurs⟩

end Delimiter

/-! ## The invariant -/

/-- The guard while it drains a part: the scanner knows enough of what came since the drop to
    find the delimiter, and the delimiter does not begin before. -/
structure Drains (delimiter body : Text) (s : Session) (start : ℕ) : Prop where
  skipped : s.skipped = some start
  scans : ∃ stale from', from' ≤ s.pulled.length ∧
    Remembers delimiter (stale ++ s.pulled.drop from') s.guard.scan.carry ∧
    ∀ i, start ≤ i → i < from' → ¬ OccursAt delimiter body i

/-- What holds between two events, as long as the error was not returned. -/
structure Inv (boundary body : Text) (s : Session) : Prop where
  delimiter : s.guard.scan.delimiter = (DelimiterScan.new boundary).delimiter
  carry_lt : s.guard.scan.carry.length < (DelimiterScan.new boundary).delimiter.length
  pulled : s.pulled <+: body
  since_le : s.since ≤ s.pulled.length
  field_le : ∀ start, s.field = some start → start ≤ s.since
  skipped_le : ∀ start, s.skipped = some start → start ≤ s.since
  small : s.guard.progress.unproductive ≤ maxUnproductive + (s.sizes.take 1).sum
  counts : s.guard.progress.draining = false → ∀ i, s.since ≤ i → i < s.pulled.length →
    s.excusable (DelimiterScan.new boundary).delimiter body i = false →
      s.pulled.length ≤ i + s.guard.progress.unproductive
  drains : s.guard.progress.draining = true →
    ∃ start, Drains (DelimiterScan.new boundary).delimiter body s start

theorem delimiter_ne_nil (boundary : Text) : (DelimiterScan.new boundary).delimiter ≠ [] := by
  simp [DelimiterScan.new, str]

theorem inv_start (boundary body : Text) : Inv boundary body (.start boundary) where
  delimiter := rfl
  carry_lt := List.length_pos_of_ne_nil (delimiter_ne_nil boundary)
  pulled := List.nil_prefix
  since_le := Nat.le_refl _
  field_le _ h := by cases h
  skipped_le _ h := by cases h
  small := Nat.zero_le _
  counts _ i _ hi := absurd hi (Nat.not_lt_zero i)
  drains h := by cases h

/-- A byte that is not excusable comes after the end of the part. -/
theorem stop_le_of_excusable {delimiter body : Text} {s : Session} {start i : ℕ}
    (hskipped : s.skipped = some start) (hi : start ≤ i)
    (h : s.excusable delimiter body i = false) :
    ∃ stop, endOf delimiter body start = some stop ∧ stop ≤ i := by
  simp only [Session.excusable, hskipped, hi, decide_true, Bool.true_and] at h
  cases hstop : endOf delimiter body start with
  | none => simp [hstop] at h
  | some stop => exact ⟨stop, rfl, by simpa [hstop] using h⟩

/-- While a part is drained every byte that was pulled is excusable. -/
theorem Drains.excusable {delimiter body : Text} {s : Session} {start : ℕ}
    (h : Drains delimiter body s start) (hpulled : s.pulled <+: body)
    {i : ℕ} (hstart : start ≤ i) (hi : i < s.pulled.length) :
    s.excusable delimiter body i = true := by
  by_contra hcontra
  obtain ⟨stop, hstop, hle⟩ := stop_le_of_excusable h.skipped hstart (by simpa using hcontra)
  obtain ⟨position, rfl, hposition, hoccurs, hbody⟩ :=
    occursAt_of_endOf hpulled hstop (by omega)
  obtain ⟨stale, from', hfrom, hremembers, hclear⟩ := h.scans
  -- the delimiter begins after the drop, where the scanner would have found it
  have hlate : from' ≤ position := by
    by_contra hlt
    exact hclear position hposition (by omega) hbody
  apply hremembers.absent (stale.length + (position - from'))
  rw [occursAt_length_add, OccursAt, List.drop_drop, Nat.add_sub_cancel' hlate]
  exact hoccurs

/-! ## Event by event -/

section Steps

variable {boundary body : Text} {s : Session}

/-- A productive event starts the count again. -/
theorem Inv.made (h : Inv boundary body s) {field : Option ℕ}
    (hfield : ∀ start, field = some start → start ≤ s.pulled.length) :
    Inv boundary body (s.made field) where
  delimiter := h.delimiter
  carry_lt := h.carry_lt
  pulled := h.pulled
  since_le := Nat.le_refl _
  field_le := hfield
  skipped_le _ hs := by cases hs
  small := Nat.zero_le _
  counts _ i hi hi' := absurd hi' (Nat.not_lt.mpr hi)
  drains hd := by cases hd

/-- A drop before any of the delimiter was pulled: from there on the scanner sees all of
    it. -/
theorem Inv.drop (h : Inv boundary body s) (hfield : s.field.isSome = true)
    (hearly : s.DropsEarly boundary body .drop) : Inv boundary body (s.step .drop) where
  delimiter := h.delimiter
  carry_lt := h.carry_lt
  pulled := h.pulled
  since_le := h.since_le
  field_le _ hf := by cases hf
  skipped_le := h.field_le
  small := h.small
  counts hd := by cases hd
  drains _ := by
    obtain ⟨start, hstart⟩ := Option.isSome_iff_exists.mp hfield
    refine ⟨start, hstart, s.guard.scan.carry, s.pulled.length, Nat.le_refl _, ?_,
      hearly rfl start hstart⟩
    show Remembers _ (s.guard.scan.carry ++ s.pulled.drop s.pulled.length) s.guard.scan.carry
    rw [List.drop_length, List.append_nil]
    exact Remembers.of_short h.carry_lt

/-- A chunk that is pulled while nothing is drained is counted. -/
theorem Inv.count (h : Inv boundary body s) (hdraining : s.guard.progress.draining = false)
    {bytes : Text} (hbytes : s.pulled ++ bytes <+: body) :
    Inv boundary body (s.step (.poll (.data bytes))) ∨
      (s.step (.poll (.data bytes))).refused = true := by
  have hstep : s.step (.poll (.data bytes)) =
      { s with
        guard := { s.guard with
          progress := { s.guard.progress with
            unproductive := s.guard.progress.unproductive + bytes.length } }
        pulled := s.pulled ++ bytes
        sizes := bytes.length :: s.sizes
        refused := s.refused || decide (s.guard.progress.unproductive > maxUnproductive) } := by
    by_cases hbefore : s.guard.progress.unproductive > maxUnproductive
    · simp [Session.step, GuardedBody.pollNext, hdraining, hbefore]
    · simp [Session.step, GuardedBody.pollNext, hdraining, hbefore]
  rw [hstep]
  by_cases hbefore : s.guard.progress.unproductive > maxUnproductive
  · -- too much was pulled before: the error
    right
    simp [hbefore]
  left
  exact
    { delimiter := h.delimiter
      carry_lt := h.carry_lt
      pulled := hbytes
      since_le := h.since_le.trans (by simp)
      field_le := h.field_le
      skipped_le := h.skipped_le
      small := by
        simp only [List.take_succ_cons, List.take_zero, List.sum_cons, List.sum_nil]
        omega
      counts := by
        intro _ i hsince hi hexcusable
        rw [List.length_append] at hi ⊢
        rcases Nat.lt_or_ge i s.pulled.length with hold | hnew
        · -- a pulled byte was counted before, a new one is counted by this step
          have := h.counts hdraining i hsince hold hexcusable
          show s.pulled.length + bytes.length ≤ i + (s.guard.progress.unproductive + bytes.length)
          omega
        · show s.pulled.length + bytes.length ≤ i + (s.guard.progress.unproductive + bytes.length)
          omega
      drains := fun hd => absurd (hdraining.symm.trans hd) Bool.false_ne_true }

/-- A chunk that is pulled while a part is drained: either its delimiter was found, and what
    follows it is counted, or the part goes on. -/
theorem Inv.drain (h : Inv boundary body s) (hdraining : s.guard.progress.draining = true)
    {bytes : Text} (hbytes : s.pulled ++ bytes <+: body) :
    Inv boundary body (s.step (.poll (.data bytes))) := by
  obtain ⟨start, hdrains⟩ := h.drains hdraining
  obtain ⟨stale, from', hfrom, hremembers, hclear⟩ := hdrains.scans
  have hne := delimiter_ne_nil boundary
  have hstart := h.skipped_le start hdrains.skipped
  -- everything since the drop, with the chunk
  have hseen : stale ++ s.pulled.drop from' ++ bytes = stale ++ (s.pulled ++ bytes).drop from' := by
    rw [List.append_assoc, List.drop_append_of_le_length hfrom]
  have hfind := hremembers.find_eq hne bytes
  rw [hseen] at hfind
  have hcarry : s.guard.scan.carry.length ≤ (stale ++ s.pulled.drop from').length :=
    hremembers.suffix.length_le
  cases hposition : find (DelimiterScan.new boundary).delimiter (s.guard.scan.carry ++ bytes) with
  | none =>
    have hstep : s.step (.poll (.data bytes)) =
        { s with
          guard :=
            { progress := { unproductive := 0, draining := true }
              scan := { s.guard.scan with
                carry := keep (min ((DelimiterScan.new boundary).delimiter.length - 1)
                  (s.guard.scan.carry ++ bytes).length) (s.guard.scan.carry ++ bytes) } }
          pulled := s.pulled ++ bytes
          sizes := bytes.length :: s.sizes } := by
      simp [Session.step, GuardedBody.pollNext, hdraining, DelimiterScan.feed, h.delimiter, hposition]
    have hnext := hremembers.next hne hposition
    rw [hseen] at hnext
    rw [hstep]
    exact
      { delimiter := h.delimiter
        carry_lt := by
          have hpos := List.length_pos_of_ne_nil hne
          simp only [keep, List.length_drop]
          omega
        pulled := hbytes
        since_le := h.since_le.trans (by simp)
        field_le := h.field_le
        skipped_le := h.skipped_le
        small := Nat.zero_le _
        counts := fun hd => absurd hd.symm Bool.false_ne_true
        drains := fun _ => ⟨start, hdrains.skipped, stale, from', by simp; omega, hnext, hclear⟩ }
  | some position =>
    have hstep : s.step (.poll (.data bytes)) =
        { s with
          guard :=
            { progress :=
                { unproductive := (s.guard.scan.carry ++ bytes).length - position -
                    (DelimiterScan.new boundary).delimiter.length
                  draining := false }
              scan := { s.guard.scan with carry := [] } }
          pulled := s.pulled ++ bytes
          sizes := bytes.length :: s.sizes } := by
      simp [Session.step, GuardedBody.pollNext, hdraining, DelimiterScan.feed, h.delimiter, hposition]
    rw [hposition, Option.map_some] at hfind
    have hcarry_lt := h.carry_lt
    rw [hstep]
    exact
      { delimiter := h.delimiter
        carry_lt := List.length_pos_of_ne_nil hne
        pulled := hbytes
        since_le := h.since_le.trans (by simp)
        field_le := h.field_le
        skipped_le := h.skipped_le
        small := by
          simp only [List.take_succ_cons, List.take_zero, List.sum_cons, List.sum_nil,
            List.length_append]
          omega
        counts := by
          intro _ i hsince hi hexcusable
          obtain ⟨stop, hstop, hle⟩ := stop_le_of_excusable hdrains.skipped (hstart.trans hsince)
            hexcusable
          obtain ⟨truth, rfl, htruth, hoccurs, hbody⟩ :=
            occursAt_of_endOf hbytes hstop (hle.trans hi.le)
          have hlate : from' ≤ truth := by
            by_contra hlt
            exact hclear truth htruth (by omega) hbody
          -- the scanner found the first occurrence, which is not behind the true one
          have hoccurs' : OccursAt (DelimiterScan.new boundary).delimiter
              (stale ++ (s.pulled ++ bytes).drop from') (stale.length + (truth - from')) := by
            rw [occursAt_length_add, OccursAt, List.drop_drop, Nat.add_sub_cancel' hlate]
            exact hoccurs
          obtain ⟨first, hfirst, hfind'⟩ := hoccurs'.find_le
          rw [hfind, Option.some.injEq] at hfind'
          simp only [List.length_append, List.length_drop] at hfind' hcarry ⊢
          omega
        drains := fun hd => absurd hd Bool.false_ne_true }

/-- Once the error was returned this is not taken back. -/
theorem refused_step (h : s.refused = true) (e : Event) : (s.step e).refused = true := by
  cases e with
  | poll polled =>
    cases polled with
    | data bytes => simp [Session.step, h]
    | error => simp [Session.step, h]
    | done => simp [Session.step, h]
    | pending => simp [Session.step, h]
  | nextField start => exact h
  | chunk more => exact h
  | drop => exact h

/-- A chunk is noted with its size. -/
theorem sizes_step_data (bytes : Text) :
    (s.step (.poll (.data bytes))).sizes = bytes.length :: s.sizes := rfl

/-- A poll that gives no bytes changes nothing. -/
theorem step_poll_idle {polled : Polled} (hidle : ∀ bytes, polled ≠ .data bytes) :
    s.step (.poll polled) = s := by
  have hanswer (answer : Answer) (h : (answer == .tooLarge) = false) :
      { s with refused := s.refused || answer == .tooLarge } = s := by
    rw [h, Bool.or_false]
  cases polled with
  | data bytes => exact absurd rfl (hidle bytes)
  | error => exact hanswer .error rfl
  | done => exact hanswer .done rfl
  | pending => exact hanswer .pending rfl

/-- **One event**: the invariant is kept, or the error is returned. -/
theorem Inv.step (h : Inv boundary body s) {e : Event} (hallowed : s.Allowed body e)
    (hearly : s.DropsEarly boundary body e) :
    Inv boundary body (s.step e) ∨ (s.step e).refused = true := by
  cases e with
  | poll polled =>
    cases polled with
    | data bytes =>
      cases hdraining : s.guard.progress.draining with
      | false => exact h.count hdraining hallowed
      | true => exact .inl (h.drain hdraining hallowed)
    | error =>
      left
      rw [step_poll_idle (by simp)]
      exact h
    | done =>
      left
      rw [step_poll_idle (by simp)]
      exact h
    | pending =>
      left
      rw [step_poll_idle (by simp)]
      exact h
  | nextField start =>
    left
    apply h.made
    exact hallowed.2
  | chunk more =>
    left
    apply h.made
    intro start hstart
    cases more with
    | false => cases hstart
    | true => exact (h.field_le start hstart).trans h.since_le
  | drop => exact .inl (h.drop hallowed hearly)

/-- The invariant is the bound: what counts is among the last bytes that were pulled. -/
theorem Inv.bounds (h : Inv boundary body s) :
    s.unexcused (DelimiterScan.new boundary).delimiter body ≤
      maxUnproductive + (s.sizes.take 2).sum := by
  have hsmall : s.guard.progress.unproductive ≤ maxUnproductive + (s.sizes.take 2).sum := by
    apply h.small.trans
    apply Nat.add_le_add_left
    cases s.sizes with
    | nil => exact Nat.le_refl _
    | cons size sizes => simp
  refine le_trans ?_ hsmall
  cases hdraining : s.guard.progress.draining with
  | true =>
    -- everything belongs to the part that is drained
    obtain ⟨start, hdrains⟩ := h.drains hdraining
    have hstart := h.skipped_le start hdrains.skipped
    rw [Session.unexcused, Finset.filter_false_of_mem, Finset.card_empty]
    · exact Nat.zero_le _
    intro i hi
    rw [Finset.mem_Ico] at hi
    simp [hdrains.excusable h.pulled (hstart.trans hi.1) hi.2]
  | false =>
    have hsub : ((Finset.Ico s.since s.pulled.length).filter fun i =>
          s.excusable (DelimiterScan.new boundary).delimiter body i = false) ⊆
        Finset.Ico (s.pulled.length - s.guard.progress.unproductive) s.pulled.length := by
      intro i hi
      rw [Finset.mem_filter, Finset.mem_Ico] at hi
      have := h.counts hdraining i hi.1.1 hi.1.2 hi.2
      rw [Finset.mem_Ico]
      omega
    apply (Finset.card_le_card hsub).trans
    rw [Nat.card_Ico]
    omega

end Steps

/-! ## All runs -/

/-- A whole run keeps the invariant until the error is returned. -/
theorem Run.inv {boundary body : Text} {s : Session}
    (run : Run boundary body (Session.DropsEarly boundary body) s) :
    s.refused = true ∨ Inv boundary body s := by
  induction run with
  | start => exact .inr (inv_start boundary body)
  | step run allowed meets ih =>
    rename_i s e
    cases ih with
    | inl hrefused => exact .inl (refused_step hrefused e)
    | inr hinv => exact (hinv.step allowed meets).symm

/-- **What can pile up**: in every run where a part is skipped before any of the delimiter
that ends it was pulled, at most the limit and two chunks are pulled that do not belong to
the skipped part, or the error was returned. -/
theorem Run.bounded {boundary body : Text} {s : Session}
    (run : Run boundary body (Session.DropsEarly boundary body) s) :
    s.Bounded boundary body := by
  cases run.inv with
  | inl hrefused => exact .inl hrefused
  | inr hinv => exact .inr hinv.bounds

/-- A part whose delimiter comes after the drop. -/
theorem Run.bounded_skipped :
    ((((Session.start (str "b")).step (.nextField (some 0))).step (.poll (.data (str "x")))).step
      .drop |>.step (.poll (.data (str "\r\n--b")))).Bounded (str "b") (str "x\r\n--b\r\n") := by
  apply Run.bounded
  refine .step (.step (.step (.step .start ?_ ?_) ?_ ?_) ?_ ?_) ?_ ?_
  · exact ⟨rfl, fun offset h => (Option.some.inj h).symm.le⟩
  · exact fun h => nomatch h
  · show _ <+: _
    decide
  · exact fun h => nomatch h
  · rfl
  · intro _ start hstart i _ hi
    -- one byte was pulled, and the delimiter begins behind it
    obtain rfl : i = 0 := Nat.lt_one_iff.mp hi
    decide
  · show _ <+: _
    decide
  · exact fun h => nomatch h

/-! ## A part whose end was pulled before the drop -/

/-- The first chunk of an upload: a part, the delimiter that ends it, and the beginning of the
    headers of the next part. -/
def firstChunk : Text :=
  str "--b\r\nContent-Disposition: form-data; name=\"f\"\r\n\r\nx\r\n--b\r\nX: "

/-- Where the data of the part begins. -/
def dataStart : ℕ := 49

/-- A piece of a header value that never ends: `a`, again and again. -/
def filler (n : ℕ) : Text := List.replicate n 97

theorem length_filler (n : ℕ) : (filler n).length = n := List.length_replicate

theorem eq_of_mem_filler {n : ℕ} {c : UInt8} (h : c ∈ filler n) : c = 97 :=
  List.eq_of_mem_replicate h

/-- The part ends within the first chunk, whatever follows. -/
theorem endOf_firstChunk (rest : Text) :
    endOf (DelimiterScan.new (str "b")).delimiter (firstChunk ++ rest) dataStart = some 55 := by
  rfl

/-- What follows the drop: the guard waits for a delimiter that was pulled before. -/
structure Misses (s : Session) (n : ℕ) : Prop where
  draining : s.guard.progress.draining = true
  delimiter : s.guard.scan.delimiter = (DelimiterScan.new (str "b")).delimiter
  carry : ∀ c ∈ s.guard.scan.carry, c = 97
  pulled : s.pulled = firstChunk ++ filler n
  since : s.since = firstChunk.length
  skipped : s.skipped = some dataStart
  refused : s.refused = false

/-- The session after the drop. -/
def dropped : Session :=
  (((Session.start (str "b")).step (.poll (.data firstChunk))).step
    (.nextField (some dataStart))).step .drop

theorem misses_dropped : Misses dropped 0 where
  draining := rfl
  delimiter := rfl
  carry _ h := by cases h
  pulled := rfl
  since := rfl
  skipped := rfl
  refused := rfl

/-- More of the header value is not counted, because there is no delimiter in it. -/
theorem Misses.step {s : Session} {n : ℕ} (h : Misses s n) (more : ℕ) :
    Misses (s.step (.poll (.data (filler more)))) (n + more) := by
  have hwindow : ∀ c ∈ s.guard.scan.carry ++ filler more, c = 97 := by
    intro c hc
    rw [List.mem_append] at hc
    exact hc.elim (h.carry c) eq_of_mem_filler
  have hnone : find (DelimiterScan.new (str "b")).delimiter (s.guard.scan.carry ++ filler more) =
      none := by
    rw [find_eq_none_iff]
    intro i hoccurs
    -- the delimiter begins with a carriage return
    have hmem : (13 : UInt8) ∈ s.guard.scan.carry ++ filler more := by
      apply List.mem_of_mem_drop
      apply hoccurs.subset
      decide
    exact absurd (hwindow 13 hmem) (by decide)
  have hstep : s.step (.poll (.data (filler more))) =
      { s with
        guard :=
          { progress := { unproductive := 0, draining := true }
            scan := { s.guard.scan with
              carry := keep (min ((DelimiterScan.new (str "b")).delimiter.length - 1)
                (s.guard.scan.carry ++ filler more).length) (s.guard.scan.carry ++ filler more) } }
        pulled := s.pulled ++ filler more
        sizes := (filler more).length :: s.sizes } := by
    simp [Session.step, GuardedBody.pollNext, h.draining, DelimiterScan.feed, h.delimiter, hnone]
  rw [hstep]
  exact
    { draining := rfl
      delimiter := h.delimiter
      carry := fun c hc => hwindow c (List.mem_of_mem_drop hc)
      pulled := by
        show s.pulled ++ filler more = firstChunk ++ filler (n + more)
        rw [h.pulled, List.append_assoc, filler, filler, filler, List.replicate_append_replicate]
      since := h.since
      skipped := h.skipped
      refused := h.refused }

/-- All of it counts: it comes after the end of the part. -/
theorem Misses.le_unexcused {s : Session} {n : ℕ} (h : Misses s n) :
    n ≤ s.unexcused (DelimiterScan.new (str "b")).delimiter (firstChunk ++ filler n) := by
  have hsub : Finset.Ico firstChunk.length (firstChunk.length + n) ⊆
      (Finset.Ico s.since s.pulled.length).filter fun i =>
        s.excusable (DelimiterScan.new (str "b")).delimiter (firstChunk ++ filler n) i = false := by
    intro i hi
    rw [Finset.mem_Ico] at hi
    have hlate : 55 ≤ i := le_trans (by decide) hi.1
    rw [Finset.mem_filter, Finset.mem_Ico, h.since, h.pulled, List.length_append, length_filler]
    refine ⟨hi, ?_⟩
    simp [Session.excusable, h.skipped, endOf_firstChunk, hlate]
  have hcard := Finset.card_le_card hsub
  rw [Nat.card_Ico, Nat.add_sub_cancel_left] at hcard
  exact hcard

/-- Four chunks of 200000 bytes after the drop. -/
def flooded : Session :=
  (((dropped.step (.poll (.data (filler 200000)))).step (.poll (.data (filler 200000)))).step
    (.poll (.data (filler 200000)))).step (.poll (.data (filler 200000)))

theorem misses_flooded : Misses flooded 800000 :=
  (((misses_dropped.step 200000).step 200000).step 200000).step 200000

/-- The body of the upload. -/
def floodedBody : Text := firstChunk ++ filler 800000

/-- While the body lasts, a piece of the header value can come. -/
theorem Misses.allowed {s : Session} {n : ℕ} (h : Misses s n) {more : ℕ}
    (hmore : n + more ≤ 800000) : s.Allowed floodedBody (.poll (.data (filler more))) := by
  show s.pulled ++ filler more <+: floodedBody
  rw [h.pulled, floodedBody, List.append_assoc, List.prefix_append_right_inj, filler, filler,
    filler, List.replicate_append_replicate]
  exact ⟨List.replicate (800000 - (n + more)) 97, by
    rw [List.replicate_append_replicate, Nat.add_sub_cancel' hmore]⟩

/-- The first chunk can come first. -/
theorem allowed_firstChunk :
    (Session.start (str "b")).Allowed floodedBody (.poll (.data firstChunk)) := by
  show [] ++ firstChunk <+: floodedBody
  exact List.prefix_append _ _

/-- **A part that is skipped after its end was pulled hides the headers that follow**, however
long they are. -/
theorem not_bounded :
    Run (str "b") floodedBody (fun _ _ => True) flooded ∧
      ¬ flooded.Bounded (str "b") floodedBody := by
  constructor
  · have hdropped : Run (str "b") floodedBody (fun _ _ => True) dropped := by
      refine .step (.step (.step .start allowed_firstChunk trivial) ?_ trivial) ?_ trivial
      · exact ⟨rfl, fun offset h => Option.some.inj h ▸ by decide⟩
      · rfl
    have h := misses_dropped
    refine .step (.step (.step (.step hdropped ?_ trivial) ?_ trivial) ?_ trivial) ?_ trivial
    · exact h.allowed (by decide)
    · exact (h.step 200000).allowed (by decide)
    · exact ((h.step 200000).step 200000).allowed (by decide)
    · exact (((h.step 200000).step 200000).step 200000).allowed (by decide)
  · rintro (hrefused | hle)
    · exact Bool.false_ne_true (misses_flooded.refused.symm.trans hrefused)
    · have hsizes : flooded.sizes.take 2 = [200000, 200000] := by
        rw [flooded, sizes_step_data, sizes_step_data, length_filler, List.take_succ_cons,
          List.take_succ_cons, List.take_zero]
      have hmany := misses_flooded.le_unexcused
      rw [hsizes] at hle
      exact absurd (hmany.trans hle) (by decide)

end OasRs.Multipart
