import OasRs.FrameScanner
import OasRs.Lib.Machine
import Mathlib.Order.Bounds.Basic

/-!
# The Send Timeout

The polls of `Tracked` in `src/runtime.rs`: writes and flushes of the socket go through, until the
socket has refused them for the send timeout. The time is what the timers of the language's runtime
go by.

## Main results

- `sendTimeout_exact`: when a write or a flush fails for the timeout
-/

namespace OasRs.Http2

open Lib

/-- What the socket answers. -/
inductive SocketAnswer where
  | pending
  | failed
  /-- with the number of bytes that it accepts or reads -/
  | ready (n : ℕ)
  deriving DecidableEq

/-- A poll of `Tracked`. -/
inductive Operation where
  | read
  /-- `poll_write` -/
  | write (data : Text)
  /-- `poll_write_vectored` -/
  | writeVectored (buffers : List Text)
  | flush
  | shutdown

/-- Whether the stall clock watches this operation. -/
def Operation.isSend : Operation → Bool
  | .write _ | .writeVectored _ | .flush => true
  | .read | .shutdown => false

/-- A poll, when it is made, and what the socket answers to it. -/
structure SocketPoll where
  now : ℕ
  operation : Operation
  answer : SocketAnswer

/-- What a poll of `Tracked` answers. -/
inductive TrackedAnswer where
  | socket (answer : SocketAnswer)
  /-- `TimedOut`, with the message about `send_timeout` -/
  | timedOut
  deriving DecidableEq

/-- `Tracked`, with the time of its last poll; a `Sleep` is its deadline. -/
structure Sending where
  tracked : Tracked
  sendTimeout : Option ℕ
  stall : Option ℕ
  clock : ℕ

namespace Sending

/-- `Tracked::new` -/
def new (watched : Bool) (sendTimeout : Option ℕ) : Sending where
  tracked := .new watched
  sendTimeout
  stall := none
  clock := 0

variable (sending : Sending)

/-- `Tracked::stalled`: whether the stall clock has run out. -/
def stalled (now : ℕ) : Bool × Sending :=
  match sending.sendTimeout with
  | none => (false, sending)
  | some limit =>
    let deadline := sending.stall.getD (now + limit)
    (deadline ≤ now, { sending with stall := some deadline })

/-- The calls of `observe` for what a poll has written. -/
def observed (operation : Operation) (written : ℕ) : Tracked :=
  match operation with
  | .write data => (sending.tracked.observe (data.take written)).2
  | .writeVectored buffers => (sending.tracked.observeBuffers written buffers).2
  | .read | .flush | .shutdown => sending.tracked

/-- `poll_read`, `poll_write`, `poll_write_vectored`, `poll_flush` and `poll_shutdown` -/
def poll (p : SocketPoll) : TrackedAnswer × Sending :=
  if p.operation.isSend then
    match p.answer with
    | .ready written =>
      (.socket p.answer,
        { sending with
          tracked := sending.observed p.operation written, stall := none, clock := p.now })
    | .failed => (.socket p.answer, { sending with stall := none, clock := p.now })
    | .pending =>
      let (out, sending) := sending.stalled p.now
      (if out then .timedOut else .socket p.answer, { sending with clock := p.now })
  else (.socket p.answer, { sending with clock := p.now })

/-- A poll, unless it is made before the last one. -/
def step (p : SocketPoll) : Option Sending :=
  if sending.clock ≤ p.now then some (sending.poll p).2 else none

end Sending

/-- The polls of one `Tracked`. -/
def sendings (watched : Bool) (sendTimeout : Option ℕ) : Machine Sending SocketPoll where
  init := .new watched sendTimeout
  step := Sending.step

/-! ## Refusals -/

namespace SocketPoll

/-- The socket does not take a write or a flush. -/
def Refused (p : SocketPoll) : Prop := p.operation.isSend = true ∧ p.answer = .pending

/-- The socket takes a write or a flush, or fails it. -/
def Answered (p : SocketPoll) : Prop := p.operation.isSend = true ∧ p.answer ≠ .pending

end SocketPoll

/-- The times of the refusals since the socket last answered a write or a flush. -/
def refusals (polls : List SocketPoll) : Set ℕ :=
  {t | ∃ before first after, polls = before ++ first :: after ∧ first.Refused ∧ first.now = t ∧
    ∀ p ∈ after, ¬ p.Answered}

theorem refusals_nil : refusals [] = ∅ := by
  apply Set.eq_empty_of_forall_notMem
  rintro t ⟨before, first, after, hpolls, _⟩
  exact absurd hpolls (by simp)

/-- One more poll. -/
theorem mem_refusals_concat {polls : List SocketPoll} {p : SocketPoll} {t : ℕ} :
    t ∈ refusals (polls ++ [p]) ↔ (p.Refused ∧ p.now = t) ∨ (¬ p.Answered ∧ t ∈ refusals polls) := by
  constructor
  · rintro ⟨before, first, after, hpolls, hfirst, hnow, hafter⟩
    rcases List.eq_nil_or_concat after with rfl | ⟨after', last, rfl⟩
    · obtain ⟨-, hp⟩ := List.append_inj' hpolls rfl
      cases hp
      exact .inl ⟨hfirst, hnow⟩
    · rw [List.concat_eq_append] at hpolls hafter
      rw [← List.cons_append, ← List.append_assoc] at hpolls
      obtain ⟨rfl, hp⟩ := List.append_inj' hpolls rfl
      cases hp
      right
      refine ⟨hafter p (List.mem_append_right _ (List.mem_singleton_self _)), before, first, after',
        rfl, hfirst, hnow, ?_⟩
      intro q hq
      exact hafter q (List.mem_append_left _ hq)
  · rintro (⟨hrefused, hnow⟩ | ⟨hanswered, before, first, after, rfl, hfirst, hnow, hafter⟩)
    · exact ⟨polls, p, [], rfl, hrefused, hnow, nofun⟩
    · refine ⟨before, first, after ++ [p], by simp, hfirst, hnow, ?_⟩
      intro q hq
      rcases List.mem_append.mp hq with hold | hnew
      · exact hafter q hold
      · rw [List.mem_singleton.mp hnew]
        exact hanswered

/-! ## The stall clock -/

/-- The stall clock runs from the first refusal. -/
structure Stalls (sendTimeout : Option ℕ) (polls : List SocketPoll) (sending : Sending) : Prop where
  limit : sending.sendTimeout = sendTimeout
  past : ∀ t ∈ refusals polls, t ≤ sending.clock
  off : sendTimeout = none → sending.stall = none
  idle : ∀ limit ∈ sendTimeout, sending.stall = none → refusals polls = ∅
  runs : ∀ limit ∈ sendTimeout, ∀ deadline ∈ sending.stall,
    ∃ t, IsLeast (refusals polls) t ∧ deadline = t + limit

variable {sendTimeout : Option ℕ} {polls : List SocketPoll} {sending : Sending} {p : SocketPoll}

theorem refusals_of_answered (h : p.Answered) : refusals (polls ++ [p]) = ∅ := by
  apply Set.eq_empty_of_forall_notMem
  intro t ht
  rcases mem_refusals_concat.mp ht with ⟨hrefused, _⟩ | ⟨hnot, _⟩
  · exact h.2 hrefused.2
  · exact hnot h

theorem refusals_of_other (h : p.operation.isSend = false) :
    refusals (polls ++ [p]) = refusals polls := by
  ext t
  rw [mem_refusals_concat]
  simp [SocketPoll.Refused, SocketPoll.Answered, h]

theorem refusals_of_refused (h : p.Refused) :
    refusals (polls ++ [p]) = insert p.now (refusals polls) := by
  have hnot : ¬ p.Answered := fun hanswered => hanswered.2 h.2
  ext t
  rw [mem_refusals_concat, Set.mem_insert_iff]
  simp only [h, hnot, true_and, not_false_eq_true]
  exact or_congr_left eq_comm

theorem stalls_new (watched : Bool) (sendTimeout : Option ℕ) :
    Stalls sendTimeout [] (.new watched sendTimeout) where
  limit := rfl
  past := by
    intro t ht
    rw [refusals_nil] at ht
    exact absurd ht (Set.notMem_empty t)
  off := fun _ => rfl
  idle := fun _ _ _ => refusals_nil
  runs := nofun

/-- When the stall clock began, if the socket refuses this poll: now, or before. -/
theorem isLeast_refusals (hs : Stalls sendTimeout polls sending) (hclock : sending.clock ≤ p.now)
    (hrefused : p.Refused) {limit : ℕ} (hlimit : limit ∈ sendTimeout) :
    ∃ t, IsLeast (refusals (polls ++ [p])) t ∧
      sending.stall.getD (p.now + limit) = t + limit := by
  rw [refusals_of_refused hrefused]
  cases hstall : sending.stall with
  | none =>
    rw [hs.idle limit hlimit hstall, Option.getD_none, insert_empty_eq]
    exact ⟨p.now, isLeast_singleton, rfl⟩
  | some deadline =>
    obtain ⟨t, hleast, hdeadline⟩ := hs.runs limit hlimit deadline hstall
    refine ⟨t, ⟨Set.mem_insert_of_mem _ hleast.1, ?_⟩, hdeadline⟩
    intro t' ht'
    rcases Set.mem_insert_iff.mp ht' with rfl | hold
    · exact (hs.past t hleast.1).trans hclock
    · exact hleast.2 hold

/-- An answer of the socket ends the stall. -/
theorem stalls_of_answered {sending' : Sending} (hanswered : p.Answered)
    (hlimit : sending'.sendTimeout = sendTimeout) (hstall : sending'.stall = none) :
    Stalls sendTimeout (polls ++ [p]) sending' := by
  have hnone : refusals (polls ++ [p]) = ∅ := refusals_of_answered hanswered
  constructor
  · exact hlimit
  · rw [hnone]
    exact nofun
  · exact fun _ => hstall
  · exact fun _ _ _ => hnone
  · intro _ _ deadline hdeadline
    rw [hstall] at hdeadline
    cases hdeadline

theorem stalls_step (hs : Stalls sendTimeout polls sending) (hclock : sending.clock ≤ p.now) :
    Stalls sendTimeout (polls ++ [p]) (sending.poll p).2 := by
  unfold Sending.poll
  cases hsend : p.operation.isSend with
  | false =>
    -- a read changes nothing
    rw [if_neg Bool.false_ne_true]
    constructor
    · exact hs.limit
    · rw [refusals_of_other hsend]
      intro t ht
      exact (hs.past t ht).trans hclock
    · exact hs.off
    · rw [refusals_of_other hsend]
      exact hs.idle
    · rw [refusals_of_other hsend]
      exact hs.runs
  | true =>
    rw [if_pos rfl]
    cases hanswer : p.answer with
    | ready | failed =>
      -- an answer from the socket stops the clock, and no refusal counts any more
      have hanswered : p.Answered := ⟨hsend, by rw [hanswer]; exact nofun⟩
      exact stalls_of_answered hanswered hs.limit rfl
    | pending =>
      have hrefused : p.Refused := ⟨hsend, hanswer⟩
      -- a refusal counts from its own moment, if there was none before
      have hpast : ∀ t ∈ refusals (polls ++ [p]), t ≤ p.now := by
        rw [refusals_of_refused hrefused]
        intro t ht
        rcases Set.mem_insert_iff.mp ht with rfl | hold
        · exact Nat.le_refl _
        · exact (hs.past t hold).trans hclock
      cases hlimit : sendTimeout with
      | none =>
        subst hlimit
        simp only [Sending.stalled, hs.limit]
        constructor
        · rfl
        · exact hpast
        · exact hs.off
        · exact nofun
        · exact nofun
      | some limit =>
        subst hlimit
        -- the clock runs to the limit after the first of the refusals
        simp only [Sending.stalled, hs.limit]
        constructor
        · rfl
        · exact hpast
        · exact nofun
        · exact nofun
        · intro limit' hlimit' deadline hdeadline
          cases hlimit'
          cases hdeadline
          exact isLeast_refusals hs hclock hrefused rfl

theorem stalls_run {watched : Bool} (h : (sendings watched sendTimeout).run polls = some sending) :
    Stalls sendTimeout polls sending := by
  apply Machine.runFrom_induction (P := Stalls sendTimeout) (stalls_new watched sendTimeout) ?_ h
  intro polls sending p sending' _ hs hstep
  simp only [sendings, Sending.step, Option.ite_none_right_eq_some, Option.some.injEq] at hstep
  obtain ⟨hclock, rfl⟩ := hstep
  exact stalls_step hs hclock

/-- **The send timeout is exact.** After any polls, a poll fails for the timeout exactly when it is
a write or a flush that the socket refuses, and the socket has refused every one since a refusal
that was at least the limit ago; every other poll gives what the socket answers. -/
theorem sendTimeout_exact {watched : Bool}
    (h : (sendings watched sendTimeout).run polls = some sending) (hclock : sending.clock ≤ p.now) :
    ((sending.poll p).1 = .timedOut ↔ p.Refused ∧
        ∃ limit ∈ sendTimeout, ∃ t ∈ refusals (polls ++ [p]), t + limit ≤ p.now) ∧
      ((sending.poll p).1 ≠ .timedOut → (sending.poll p).1 = .socket p.answer) := by
  have hs := stalls_run h
  unfold Sending.poll
  cases hsend : p.operation.isSend with
  | false =>
    -- a read is never refused for the timeout
    have hnot : ¬ p.Refused := by
      intro hrefused
      rw [SocketPoll.Refused, hsend] at hrefused
      cases hrefused.1
    rw [if_neg Bool.false_ne_true]
    exact ⟨by simp [hnot], fun _ => rfl⟩
  | true =>
    rw [if_pos rfl]
    cases hanswer : p.answer with
    | ready | failed =>
      have hnot : ¬ p.Refused := by
        intro hrefused
        rw [SocketPoll.Refused, hanswer] at hrefused
        cases hrefused.2
      exact ⟨by simp [hnot], fun _ => rfl⟩
    | pending =>
      have hrefused : p.Refused := ⟨hsend, hanswer⟩
      cases sendTimeout with
      | none =>
        simp only [Sending.stalled, hs.limit]
        exact ⟨by simp, fun _ => rfl⟩
      | some limit =>
        simp only [Sending.stalled, hs.limit]
        -- the clock is due exactly when the first refusal is the limit ago
        obtain ⟨t, hleast, hdeadline⟩ := isLeast_refusals hs hclock hrefused (Option.mem_some_self limit)
        rw [hdeadline]
        by_cases hdue : t + limit ≤ p.now
        · rw [if_pos (decide_eq_true hdue)]
          exact ⟨⟨fun _ => ⟨hrefused, limit, rfl, t, hleast.1, hdue⟩, fun _ => rfl⟩, absurd rfl⟩
        · rw [if_neg (by simpa using hdue)]
          refine ⟨⟨nofun, ?_⟩, fun _ => rfl⟩
          rintro ⟨_, limit', hlimit', t', ht', hle⟩
          cases hlimit'
          have hfirst := hleast.2 ht'
          omega

/-- A flush that is refused keeps the clock running that a write began. -/
theorem sendTimeout_exact_flush :
    let polls : List SocketPoll := [⟨5, .write [1, 2], .ready 1⟩, ⟨10, .write [2], .pending⟩,
      ⟨40, .read, .ready 7⟩, ⟨70, .flush, .pending⟩]
    ∃ sending, (sendings false (some 100)).run polls = some sending ∧
      (sending.poll ⟨110, .write [2], .pending⟩).1 = .timedOut := by
  intro polls
  have hrun : ((sendings false (some 100)).run polls).map Sending.clock = some 70 := by
    decide +kernel
  obtain ⟨sending, h, hclock⟩ := Option.map_eq_some_iff.mp hrun
  have hexact := sendTimeout_exact (p := ⟨110, .write [2], .pending⟩) h (by rw [hclock]; decide)
  refine ⟨sending, h, hexact.1.mpr ⟨⟨rfl, rfl⟩, 100, rfl, 10, ?_, by decide⟩⟩
  refine ⟨[⟨5, .write [1, 2], .ready 1⟩], ⟨10, .write [2], .pending⟩, _, rfl, ⟨rfl, rfl⟩, rfl, ?_⟩
  simp [SocketPoll.Answered, Operation.isSend]

end OasRs.Http2
