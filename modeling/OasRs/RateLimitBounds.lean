import OasRs.RateLimit
import Mathlib.Algebra.BigOperators.Fin
import Mathlib.Algebra.BigOperators.Ring.Finset
import Mathlib.Algebra.Order.BigOperators.Group.Finset

/-!
# Admission Bounds of the Rate Limiter

How many requests the limiter of `RateLimit.lean` lets through in a window of
time, whatever keys the requests use and however buckets are swept out, created
again or replaced by the overflow bucket meanwhile.

## The potential

A slot of the table that holds no bucket is worth a full bucket: that is what the
next new key would get. Sweeping out a bucket that would be full again, and
creating a full bucket in a free slot, then leave the worth of the table as it
is; only an admitted request lowers it, by one token.

## Main results

- `admitted_in_window_le`: the bound per shard and for the whole table
- `key_admitted_in_window_le`: the bound for a single key
-/

namespace OasRs.RateLimit

open OasRs.Lib

/-! ## The level of a bucket -/

section Level

variable (rate burst : ℚ)

/-- What a bucket would hold after a refill at time `t`. -/
def Bucket.level (b : Bucket) (t : ℚ) : ℚ := min (b.tokens + saturatingSince t b.last * rate) burst

variable {rate burst}

theorem saturatingSince_nonneg (t s : ℚ) : 0 ≤ saturatingSince t s := le_max_left _ _

theorem saturatingSince_eq_zero {t s : ℚ} (h : t ≤ s) : saturatingSince t s = 0 :=
  max_eq_left (sub_nonpos.mpr h)

/-- Elapsed time grows no faster than the clock. -/
theorem saturatingSince_grow {t t' : ℚ} (h : t ≤ t') (s : ℚ) :
    saturatingSince t' s ≤ saturatingSince t s + (t' - t) := by
  have h₁ : 0 ≤ saturatingSince t s := saturatingSince_nonneg t s
  have h₂ : t - s ≤ saturatingSince t s := le_max_right _ _
  exact max_le (by linarith) (by linarith)

theorem Bucket.level_le_burst (b : Bucket) (t : ℚ) : b.level rate burst t ≤ burst :=
  min_le_right _ _

theorem Bucket.level_nonneg (hr : 0 ≤ rate) (hb : 0 ≤ burst) {b : Bucket}
    (h : 0 ≤ b.tokens) (t : ℚ) : 0 ≤ b.level rate burst t :=
  le_min (add_nonneg h (mul_nonneg (saturatingSince_nonneg t b.last) hr)) hb

/-- A bucket fills at most at `rate`. -/
theorem Bucket.level_grow (hr : 0 ≤ rate) (b : Bucket) {t t' : ℚ} (h : t ≤ t') :
    b.level rate burst t' ≤ b.level rate burst t + rate * (t' - t) := by
  have hgain : 0 ≤ rate * (t' - t) := mul_nonneg hr (sub_nonneg.mpr h)
  have helapsed : saturatingSince t' b.last * rate ≤
      saturatingSince t b.last * rate + rate * (t' - t) := by
    have := mul_le_mul_of_nonneg_right (saturatingSince_grow h b.last) hr
    linarith
  rw [← sub_le_iff_le_add]
  refine le_min ?_ ?_
  · have := min_le_left (b.tokens + saturatingSince t' b.last * rate) burst
    simp only [Bucket.level]
    linarith
  · have : b.level rate burst t' ≤ burst := b.level_le_burst t'
    linarith

/-- A bucket created at `now` is full at `now`. -/
theorem Bucket.level_new (now : ℚ) :
    Bucket.level rate burst { tokens := burst, last := now } now = burst := by
  simp [Bucket.level, saturatingSince_eq_zero le_rfl]

/-- `refill` stores the level. -/
theorem tokens_refill (b : Bucket) (now : ℚ) :
    (refill rate burst b now).tokens = b.level rate burst now := rfl

/-- A token is taken exactly when the request is admitted. -/
theorem tokens_spend (rate : ℚ) (b : Bucket) :
    (spend rate b).2.tokens + (if (spend rate b).1.isOk then 1 else 0) = b.tokens := by
  by_cases h : 1 ≤ b.tokens
  · simp [spend, h, Except.isOk, Except.toBool]
  · simp [spend, h, Except.isOk, Except.toBool]

theorem spend_last (b : Bucket) : (spend rate b).2.last = b.last := by
  unfold spend
  split <;> rfl

/-- Taking never makes a bucket negative. -/
theorem tokens_spend_nonneg {b : Bucket} (h : 0 ≤ b.tokens) : 0 ≤ (spend rate b).2.tokens := by
  unfold spend
  split
  · simpa using sub_nonneg.mpr ‹1 ≤ b.tokens›
  · exact h

/-- What a request does to the bucket it is charged to: refill, then spend. -/
theorem Bucket.level_charge (rate burst : ℚ) (b : Bucket) (now : ℚ) :
    (spend rate (refill rate burst b now)).2.level rate burst now +
      (if (spend rate (refill rate burst b now)).1.isOk then 1 else 0) =
    b.level rate burst now := by
  have htok := tokens_spend rate (refill rate burst b now)
  rw [tokens_refill] at htok
  have hlast : saturatingSince now (spend rate (refill rate burst b now)).2.last = 0 := by
    rw [spend_last]
    exact saturatingSince_eq_zero (le_max_right _ _)
  have hle : (spend rate (refill rate burst b now)).2.tokens ≤ burst := by
    have : b.level rate burst now ≤ burst := b.level_le_burst now
    have : (0 : ℚ) ≤ if (spend rate (refill rate burst b now)).1.isOk then 1 else 0 := by
      split <;> norm_num
    linarith
  rw [← htok]
  simp [Bucket.level, hlast, hle]

end Level

/-! ## One request, on one shard -/

/-- What every shard of a limiter satisfies at any point of a run. -/
structure State.Valid (cap : ℕ) (s : State) : Prop where
  cap_eq : s.cap = cap
  size_le : s.buckets.size ≤ cap
  tokens_nonneg : ∀ a b, AList.lookup a s.buckets = some b → 0 ≤ b.tokens
  overflow_nonneg : 0 ≤ s.overflow.tokens

section Shard

variable (rate burst : ℚ)

/-- The bucket that a request for `id` is charged to, seen from outside: an absent
    bucket counts as a full one. -/
def State.account (s : State) (id : UInt64) (t : ℚ) : ℚ :=
  ((AList.lookup id s.buckets).map fun b => b.level rate burst t).getD burst

/-- The worth of the key table: the levels of its buckets, and a full bucket for
    every free slot. -/
def State.worth (s : State) (t : ℚ) : ℚ :=
  s.buckets.weight (fun _ b => b.level rate burst t) +
    ((s.cap : ℚ) - (s.buckets.size : ℚ)) * burst

variable {rate burst} {s : State} {id : UInt64} {now : ℚ}

/-- A request finds the shard as it was, or swept at this moment. -/
theorem swept_cases (rate burst : ℚ) (s : State) (id : UInt64) (now : ℚ) :
    s.swept rate burst id now = s ∨
    s.swept rate burst id now =
      { s with
        lastSweep := now
        buckets := s.buckets.retain fun _ b => b.informative rate burst now } := by
  simp only [State.swept]
  split
  · simp only [State.sweep]
    split
    · exact Or.inr rfl
    · exact Or.inl rfl
  · exact Or.inl rfl

@[simp] theorem swept_cap : (s.swept rate burst id now).cap = s.cap := by
  rcases swept_cases rate burst s id now with h | h <;> rw [h]

@[simp] theorem swept_overflow : (s.swept rate burst id now).overflow = s.overflow := by
  rcases swept_cases rate burst s id now with h | h <;> rw [h]

/-- A sweep keeps everything but buckets that would be full again. -/
theorem swept_buckets (rate burst : ℚ) (s : State) (id : UInt64) (now : ℚ) :
    ∃ keep : UInt64 → Bucket → Bool,
      (s.swept rate burst id now).buckets = s.buckets.retain keep ∧
      ∀ a b, keep a b = false → b.level rate burst now = burst := by
  rcases swept_cases rate burst s id now with h | h <;> rw [h]
  · have hall : s.buckets = s.buckets.retain fun _ _ => true := by
      apply AList.ext
      simp [Table.retain]
    exact ⟨fun _ _ => true, hall, by simp⟩
  · refine ⟨fun _ b => b.informative rate burst now, rfl, fun _ b hb => ?_⟩
    -- a dropped bucket has reached the burst
    exact min_eq_right (not_lt.mp (of_decide_eq_false hb))

/-- The table is not swept for a key that it holds. -/
theorem swept_of_known {b : Bucket} (h : AList.lookup id s.buckets = some b) :
    s.swept rate burst id now = s := by
  simp [State.swept, h]

theorem lookup_swept_of_unknown (h : AList.lookup id s.buckets = none) :
    AList.lookup id (s.swept rate burst id now).buckets = none := by
  obtain ⟨keep, hkeep, _⟩ := swept_buckets rate burst s id now
  simp [hkeep, h]

/-- Sweeping does not change what a key would find at that moment. -/
theorem account_swept (s : State) (id key : UInt64) (now : ℚ) :
    (s.swept rate burst id now).account rate burst key now = s.account rate burst key now := by
  obtain ⟨keep, hkeep, hfull⟩ := swept_buckets rate burst s id now
  simp only [State.account, hkeep, Table.lookup_retain]
  cases hl : AList.lookup key s.buckets with
  | none => rfl
  | some b =>
    cases hk : keep key b with
    | true => simp [Option.filter, hk]
    | false => simp [Option.filter, hk, hfull key b hk]

/-- Sweeping does not change the worth of the table at that moment. -/
theorem worth_swept (s : State) (id : UInt64) (now : ℚ) :
    (s.swept rate burst id now).worth rate burst now = s.worth rate burst now := by
  obtain ⟨keep, hkeep, hfull⟩ := swept_buckets rate burst s id now
  have hw := Table.weight_retain (fun _ b => Bucket.level rate burst b now) keep burst s.buckets
    fun a b _ hb => hfull a b hb
  simp only [State.worth, swept_cap, hkeep]
  rw [← hw]
  ring

theorem Valid.swept {cap : ℕ} (h : s.Valid cap) (id : UInt64) (now : ℚ) :
    (s.swept rate burst id now).Valid cap := by
  obtain ⟨keep, hkeep, _⟩ := swept_buckets rate burst s id now
  refine ⟨by simp [h.cap_eq], ?_, ?_, by simpa using h.overflow_nonneg⟩
  · rw [hkeep]
    exact (Table.size_retain_le keep s.buckets).trans h.size_le
  · intro a b hb
    rw [hkeep, Table.lookup_retain, Option.filter_eq_some_iff] at hb
    exact h.tokens_nonneg a b hb.1

/-- The bucket of the table that a request for `id` is charged to, when it is not
    the overflow bucket. -/
def State.own (burst : ℚ) (s : State) (id : UInt64) (now : ℚ) : Bucket :=
  (AList.lookup id s.buckets).getD { tokens := burst, last := now }

theorem own_level (s : State) (id : UInt64) (now : ℚ) :
    (s.own burst id now).level rate burst now = s.account rate burst id now := by
  unfold State.own State.account
  cases AList.lookup id s.buckets with
  | none => simp [Bucket.level_new]
  | some b => rfl

/-- **Step lemma**: a request either charges the overflow bucket and leaves the
    table alone, or charges the key's own bucket, for which there is room. -/
theorem take_cases (rate burst : ℚ) (s : State) (id : UInt64) (now : ℚ) :
    (s.overflows rate burst id now = true ∧
      AList.lookup id (s.swept rate burst id now).buckets = none ∧
      s.take rate burst id now =
        ((spend rate (refill rate burst s.overflow now)).1,
          { s.swept rate burst id now with
            overflow := (spend rate (refill rate burst s.overflow now)).2 })) ∨
    (s.overflows rate burst id now = false ∧
      (AList.lookup id (s.swept rate burst id now).buckets = none →
        (s.swept rate burst id now).buckets.size < s.cap) ∧
      s.take rate burst id now =
        ((spend rate (refill rate burst ((s.swept rate burst id now).own burst id now) now)).1,
          { s.swept rate burst id now with
            buckets := AList.insert id
              (spend rate (refill rate burst ((s.swept rate burst id now).own burst id now) now)).2
              (s.swept rate burst id now).buckets })) := by
  cases hov : s.overflows rate burst id now with
  | true =>
    refine Or.inl ⟨rfl, ?_, by simp [State.take, hov]⟩
    have hunknown : AList.lookup id s.buckets = none := by
      cases hl : AList.lookup id s.buckets with
      | none => rfl
      | some b => simp [State.overflows, hl] at hov
    exact lookup_swept_of_unknown hunknown
  | false =>
    refine Or.inr ⟨rfl, ?_, by simp [State.take, hov, State.own]⟩
    intro hnone
    have hunknown : AList.lookup id s.buckets = none := by
      cases hl : AList.lookup id s.buckets with
      | none => rfl
      | some b =>
        rw [swept_of_known hl, hl] at hnone
        cases hnone
    simpa [State.overflows, hunknown] using hov

/-- Whether a shard admits a request, as the number of tokens it costs. -/
def State.cost (rate burst : ℚ) (s : State) (id : UInt64) (now : ℚ) : ℚ :=
  if (s.take rate burst id now).1.isOk then 1 else 0

theorem Valid.take {cap : ℕ} (hr : 0 ≤ rate) (hb : 0 ≤ burst) (h : s.Valid cap) (id : UInt64)
    (now : ℚ) : (s.take rate burst id now).2.Valid cap := by
  have hswept : (s.swept rate burst id now).Valid cap := Valid.swept h id now
  have hspend : ∀ b : Bucket, 0 ≤ b.tokens →
      0 ≤ (spend rate (refill rate burst b now)).2.tokens :=
    fun b hb' => tokens_spend_nonneg (Bucket.level_nonneg hr hb hb' now)
  rcases take_cases rate burst s id now with ⟨-, -, heq⟩ | ⟨-, hroom, heq⟩ <;> rw [heq]
  · exact ⟨hswept.cap_eq, hswept.size_le, hswept.tokens_nonneg, hspend _ h.overflow_nonneg⟩
  · refine ⟨hswept.cap_eq, ?_, ?_, hswept.overflow_nonneg⟩
    · cases hl : AList.lookup id (s.swept rate burst id now).buckets with
      | none =>
        have := hroom hl
        rw [Table.size_insert_new _ hl]
        have := h.cap_eq
        omega
      | some b =>
        rw [Table.size_insert_known _ hl]
        exact hswept.size_le
    · intro a b hab
      by_cases ha : a = id
      · subst ha
        rw [AList.lookup_insert] at hab
        cases hab
        refine hspend _ ?_
        unfold State.own
        cases hl : AList.lookup a (s.swept rate burst a now).buckets with
        | none => exact hb
        | some b => exact hswept.tokens_nonneg a b hl
      · rw [AList.lookup_insert_ne ha] at hab
        exact hswept.tokens_nonneg a b hab

/-! ### What a request costs, and whom -/

/-- A request charged to the overflow bucket pays there. -/
theorem overflow_take_of_overflows (h : s.overflows rate burst id now = true) :
    (s.take rate burst id now).2.overflow.level rate burst now + s.cost rate burst id now =
      s.overflow.level rate burst now := by
  rcases take_cases rate burst s id now with ⟨-, -, heq⟩ | ⟨hno, -, -⟩
  · simp only [State.cost, heq]
    exact Bucket.level_charge rate burst s.overflow now
  · rw [h] at hno
    cases hno

/-- Every other request leaves the overflow bucket alone. -/
theorem overflow_take_of_own (h : s.overflows rate burst id now = false) :
    (s.take rate burst id now).2.overflow = s.overflow := by
  rcases take_cases rate burst s id now with ⟨hyes, -, -⟩ | ⟨-, -, heq⟩
  · rw [h] at hyes
    cases hyes
  · simp [heq]

/-- A request charged to its own bucket pays there. -/
theorem account_take_of_own (h : s.overflows rate burst id now = false) :
    (s.take rate burst id now).2.account rate burst id now + s.cost rate burst id now =
      s.account rate burst id now := by
  rcases take_cases rate burst s id now with ⟨hyes, -, -⟩ | ⟨-, -, heq⟩
  · rw [h] at hyes
    cases hyes
  · have hpay := Bucket.level_charge rate burst
      ((s.swept rate burst id now).own burst id now) now
    rw [own_level, account_swept] at hpay
    simp only [State.cost, heq]
    simpa [State.account] using hpay

/-- A request charged to the overflow bucket leaves every account alone. -/
theorem account_take_of_overflows (h : s.overflows rate burst id now = true) (key : UInt64) :
    (s.take rate burst id now).2.account rate burst key now = s.account rate burst key now := by
  rcases take_cases rate burst s id now with ⟨-, -, heq⟩ | ⟨hno, -, -⟩
  · rw [heq]
    exact account_swept s id key now
  · rw [h] at hno
    cases hno

/-- A request leaves the accounts of other keys alone, even if it sweeps them out. -/
theorem account_take_of_ne {key : UInt64} (hne : key ≠ id) :
    (s.take rate burst id now).2.account rate burst key now = s.account rate burst key now := by
  cases hov : s.overflows rate burst id now with
  | true => exact account_take_of_overflows hov key
  | false =>
    rcases take_cases rate burst s id now with ⟨hyes, -, -⟩ | ⟨-, -, heq⟩
    · rw [hov] at hyes
      cases hyes
    · rw [← account_swept s id key now, heq]
      simp only [State.account, AList.lookup_insert_ne hne]

/-- A request charged to its own bucket is paid by the worth of the table. -/
theorem worth_take_of_own (h : s.overflows rate burst id now = false) :
    (s.take rate burst id now).2.worth rate burst now + s.cost rate burst id now =
      s.worth rate burst now := by
  rcases take_cases rate burst s id now with ⟨hyes, -, -⟩ | ⟨-, hroom, heq⟩
  · rw [h] at hyes
    cases hyes
  · have hpay := Bucket.level_charge rate burst
      ((s.swept rate burst id now).own burst id now) now
    rw [own_level] at hpay
    rw [← worth_swept s id now]
    simp only [State.worth, State.cost, heq, swept_cap]
    simp only [State.account] at hpay
    cases hl : AList.lookup id (s.swept rate burst id now).buckets with
    | none =>
      -- a new bucket takes the place of a free slot
      rw [Table.weight_insert_new _ _ hl, Table.size_insert_new _ hl]
      simp only [hl, Option.map_none, Option.getD_none] at hpay
      push_cast
      linarith
    | some b =>
      rw [Table.weight_insert_known _ _ hl, Table.size_insert_known _ hl]
      simp only [hl, Option.map_some, Option.getD_some] at hpay
      linarith

/-- A request charged to the overflow bucket leaves the worth of the table alone. -/
theorem worth_take_of_overflows (h : s.overflows rate burst id now = true) :
    (s.take rate burst id now).2.worth rate burst now = s.worth rate burst now := by
  rcases take_cases rate burst s id now with ⟨-, -, heq⟩ | ⟨hno, -, -⟩
  · rw [heq, ← worth_swept s id now]
    rfl
  · rw [h] at hno
    cases hno

end Shard

/-! ## Resources of a shard -/

/-- A quantity of tokens in a shard: bounded, and growing at a bounded rate. -/
structure Resource (cap : ℕ) where
  value : State → ℚ → ℚ
  capacity : ℚ
  growth : ℚ
  growth_nonneg : 0 ≤ growth
  value_nonneg : ∀ s t, s.Valid cap → 0 ≤ value s t
  value_le : ∀ s t, s.Valid cap → value s t ≤ capacity
  value_grow : ∀ s t t', s.Valid cap → t ≤ t' → value s t' ≤ value s t + growth * (t' - t)

namespace Resource

variable {cap : ℕ}

/-- Two resources together. -/
def add (R R' : Resource cap) : Resource cap where
  value s t := R.value s t + R'.value s t
  capacity := R.capacity + R'.capacity
  growth := R.growth + R'.growth
  growth_nonneg := add_nonneg R.growth_nonneg R'.growth_nonneg
  value_nonneg s t h := add_nonneg (R.value_nonneg s t h) (R'.value_nonneg s t h)
  value_le s t h := add_le_add (R.value_le s t h) (R'.value_le s t h)
  value_grow s t t' h ht := by
    have h₁ := R.value_grow s t t' h ht
    have h₂ := R'.value_grow s t t' h ht
    linarith

variable {rate burst : ℚ}

/-- The tokens of the overflow bucket. -/
def overflow (hr : 0 ≤ rate) (hb : 0 ≤ burst) : Resource cap where
  value s t := s.overflow.level rate burst t
  capacity := burst
  growth := rate
  growth_nonneg := hr
  value_nonneg _ t h := Bucket.level_nonneg hr hb h.overflow_nonneg t
  value_le s t _ := s.overflow.level_le_burst t
  value_grow s _ _ _ ht := s.overflow.level_grow hr ht

/-- The account of one key. -/
def account (hr : 0 ≤ rate) (hb : 0 ≤ burst) (id : UInt64) : Resource cap where
  value s t := s.account rate burst id t
  capacity := burst
  growth := rate
  growth_nonneg := hr
  value_nonneg s t h := by
    unfold State.account
    cases hl : AList.lookup id s.buckets with
    | none => exact hb
    | some b => exact Bucket.level_nonneg hr hb (h.tokens_nonneg id b hl) t
  value_le s t _ := by
    unfold State.account
    cases AList.lookup id s.buckets with
    | none => exact le_rfl
    | some b => exact b.level_le_burst t
  value_grow s t t' _ ht := by
    unfold State.account
    cases AList.lookup id s.buckets with
    | none => simpa using mul_nonneg hr (sub_nonneg.mpr ht)
    | some b => exact b.level_grow hr ht

/-- The worth of the key table. -/
def table (hr : 0 ≤ rate) (hb : 0 ≤ burst) : Resource cap where
  value s t := s.worth rate burst t
  capacity := cap * burst
  growth := cap * rate
  growth_nonneg := mul_nonneg (Nat.cast_nonneg _) hr
  value_nonneg s t h := by
    have hfree : (0 : ℚ) ≤ (s.cap : ℚ) - s.buckets.size := by
      rw [h.cap_eq]
      exact sub_nonneg.mpr (by exact_mod_cast h.size_le)
    have hw := Table.weight_le_weight_add (f := fun _ _ => (0 : ℚ)) (c := 0)
      (g := fun _ b => Bucket.level rate burst b t) (t := s.buckets) fun a b hab => by
        simpa using Bucket.level_nonneg hr hb (h.tokens_nonneg a b hab) t
    have hzero : s.buckets.weight (fun _ _ => (0 : ℚ)) = 0 := by simp [Table.weight]
    have := mul_nonneg hfree hb
    unfold State.worth
    linarith
  value_le s t h := by
    have hw := Table.weight_le_weight_add (f := fun _ b => Bucket.level rate burst b t)
      (g := fun _ _ => (0 : ℚ)) (c := burst) (t := s.buckets) fun _ b _ => by
        simpa using b.level_le_burst t
    have hzero : s.buckets.weight (fun _ _ => (0 : ℚ)) = 0 := by simp [Table.weight]
    simp only [State.worth, h.cap_eq]
    linarith
  value_grow s t t' h ht := by
    have hw := Table.weight_le_weight_add (f := fun _ b => Bucket.level rate burst b t')
      (g := fun _ b => Bucket.level rate burst b t) (c := rate * (t' - t)) (t := s.buckets)
      fun _ b _ => b.level_grow hr ht
    have hsize : (s.buckets.size : ℚ) ≤ cap := by exact_mod_cast h.size_le
    have hgain := mul_le_mul_of_nonneg_right hsize (mul_nonneg hr (sub_nonneg.mpr ht))
    simp only [State.worth, h.cap_eq]
    linarith

end Resource

/-! ## One request, on the limiter -/

namespace Limiter

variable {κ : Type}

/-- What every limiter of a run shares with the one it started from, seen from
    shard `i`. -/
structure Follows (l₀ : Limiter κ) (i cap : ℕ) (l : Limiter κ) : Prop where
  rate_eq : l.rate = l₀.rate
  burst_eq : l.burst = l₀.burst
  hasher_eq : l.hasher = l₀.hasher
  length_eq : l.shards.length = l₀.shards.length
  shard : ∃ s, l.shards[i]? = some s ∧ s.Valid cap

variable {l₀ l : Limiter κ} {i cap : ℕ}

theorem Follows.shardOf_eq (h : Follows l₀ i cap l) (key : κ) : l.shardOf key = l₀.shardOf key := by
  simp [shardOf, h.hasher_eq, h.length_eq]

/-- A call works on the shard of its key. -/
theorem take_of_shard {key : κ} {s : State} (h : l.shards[l.shardOf key]? = some s) (now : ℚ) :
    l.take key now =
      ((s.take l.rate l.burst (l.hasher key) now).1,
        { l with shards := l.shards.set (l.shardOf key)
                  (s.take l.rate l.burst (l.hasher key) now).2 }) := by
  simp [take, h]

theorem after_rate (l : Limiter κ) (call : Call κ) : (l.after call).rate = l.rate := by
  simp only [after, take]
  split <;> rfl

theorem after_burst (l : Limiter κ) (call : Call κ) : (l.after call).burst = l.burst := by
  simp only [after, take]
  split <;> rfl

theorem after_hasher (l : Limiter κ) (call : Call κ) : (l.after call).hasher = l.hasher := by
  simp only [after, take]
  split <;> rfl

theorem after_length (l : Limiter κ) (call : Call κ) :
    (l.after call).shards.length = l.shards.length := by
  simp only [after, take]
  split <;> simp

/-- The shard of the key after a call. -/
theorem after_shard {call : Call κ} {s : State} (h : l.shards[l.shardOf call.1]? = some s) :
    (l.after call).shards[l.shardOf call.1]? =
      some (s.take l.rate l.burst (l.hasher call.1) call.2).2 := by
  have hlt : l.shardOf call.1 < l.shards.length := (List.getElem?_eq_some_iff.mp h).1
  simp [after, take_of_shard h, hlt]

/-- A call leaves the other shards alone. -/
theorem after_shard_of_ne {call : Call κ} (hne : l.shardOf call.1 ≠ i) :
    (l.after call).shards[i]? = l.shards[i]? := by
  simp only [after, take]
  split
  · simp [hne]
  · rfl

theorem Follows.after (hr : 0 ≤ l₀.rate) (hb : 0 ≤ l₀.burst) (h : Follows l₀ i cap l)
    (call : Call κ) : Follows l₀ i cap (l.after call) := by
  refine ⟨(after_rate l call).trans h.rate_eq, (after_burst l call).trans h.burst_eq,
    (after_hasher l call).trans h.hasher_eq, (after_length l call).trans h.length_eq, ?_⟩
  obtain ⟨s, hs, hvalid⟩ := h.shard
  by_cases hi : l.shardOf call.1 = i
  · subst hi
    refine ⟨_, after_shard hs, Valid.take ?_ ?_ hvalid _ _⟩
    · rwa [h.rate_eq]
    · rwa [h.burst_eq]
  · exact ⟨s, by rw [after_shard_of_ne hi, hs], hvalid⟩

/-- A resource of shard `i`, as a potential of the limiter. -/
def potential (R : Resource cap) (l₀ : Limiter κ) (i : ℕ) (hr : 0 ≤ l₀.rate) (hb : 0 ≤ l₀.burst) :
    Potential ℚ (after (κ := κ)) Prod.snd where
  inv := Follows l₀ i cap
  value l t := (l.shards[i]?.map fun s => R.value s t).getD 0
  capacity := R.capacity
  rate := R.growth
  relevant call := l₀.shardOf call.1 == i
  inv_step _ call h := h.after hr hb call
  value_nonneg l t h := by
    obtain ⟨s, hs, hvalid⟩ := h.shard
    simpa [hs] using R.value_nonneg s t hvalid
  value_le l t h := by
    obtain ⟨s, hs, hvalid⟩ := h.shard
    simpa [hs] using R.value_le s t hvalid
  rate_nonneg := R.growth_nonneg
  value_grow l t t' h ht := by
    obtain ⟨s, hs, hvalid⟩ := h.shard
    simpa [hs] using R.value_grow s t t' hvalid ht
  value_irrelevant l call t h hrel := by
    have hne : l.shardOf call.1 ≠ i := by
      rw [h.shardOf_eq]
      simpa using hrel
    rw [after_shard_of_ne hne]

/-- The limiter's version of `State.cost`. -/
theorem admits_eq {call : Call κ} {s : State} (hs : l.shards[l.shardOf call.1]? = some s) :
    (if l.admits call then (1 : ℚ) else 0) =
      s.cost l.rate l.burst (l.hasher call.1) call.2 := by
  simp only [admits, take_of_shard hs, State.cost]

theorem overflows_eq {call : Call κ} {s : State} (hs : l.shards[l.shardOf call.1]? = some s) :
    l.overflows call = s.overflows l.rate l.burst (l.hasher call.1) call.2 := by
  simp [overflows, hs]

/-- **Bound for a resource**: if every call in the window that is selected by
    `which` belongs to shard `i`, and every call on that shard pays what it costs
    (if selected) out of the resource, then the window admits at most what the
    resource can hold and gain. -/
theorem admitted_le (R : Resource cap) (l₀ : Limiter κ) (i : ℕ) (hr : 0 ≤ l₀.rate)
    (hb : 0 ≤ l₀.burst) (hstart : Follows l₀ i cap l₀) (which : κ → Bool)
    (hwhich : ∀ key, which key = true → l₀.shardOf key = i)
    (calls : List (Call κ)) (horder : l₀.InOrder calls) {a T : ℚ} (hT : 0 ≤ T)
    (hpays : ∀ x ∈ visits after l₀ calls, l₀.shardOf x.2.1 = i → x.2.2 ≤ a + T → a ≤ x.2.2 →
      ∀ s, x.1.shards[i]? = some s →
        R.value (s.take l₀.rate l₀.burst (l₀.hasher x.2.1) x.2.2).2 x.2.2 +
          (if which x.2.1 then s.cost l₀.rate l₀.burst (l₀.hasher x.2.1) x.2.2 else 0) ≤
        R.value s x.2.2) :
    (l₀.admitted calls a (a + T) which : ℚ) ≤ R.capacity + R.growth * T := by
  have hbound := (potential R l₀ i hr hb).window_le
    (fun l call => which call.1 && l.admits call) (a := a) (b := a + T)
    (by linarith) calls hstart (horder i)
    (by
      intro x _ hx
      simp only [Bool.and_eq_true] at hx
      simpa [potential] using hwhich x.2.1 hx.1)
    (by
      intro x hx hrel hle hge
      have hinv := visits_invariant after (Follows l₀ i cap)
        (fun l call h => h.after hr hb call) hstart calls x hx
      obtain ⟨s, hs, -⟩ := hinv.shard
      have hi : l₀.shardOf x.2.1 = i := by simpa [potential] using hrel
      have hi' : x.1.shardOf x.2.1 = i := by rw [hinv.shardOf_eq, hi]
      have hs' : x.1.shards[x.1.shardOf x.2.1]? = some s := by rw [hi', hs]
      have hpay := hpays x hx hi hle hge s hs
      have hafter := after_shard hs'
      rw [hi', hinv.rate_eq, hinv.burst_eq, hinv.hasher_eq] at hafter
      have hcost := admits_eq hs'
      rw [hinv.rate_eq, hinv.burst_eq, hinv.hasher_eq] at hcost
      simp only [Potential.Pays, potential, hafter, hs, Option.map_some, Option.getD_some]
      by_cases hw : which x.2.1 = true
      · simp only [hw, if_true, Bool.true_and] at hpay ⊢
        rwa [hcost]
      · simpa [hw] using hpay)
  have hwindow : a + T - a = T := by ring
  rw [hwindow] at hbound
  exact hbound

end Limiter

/-! ## The shards of a configuration -/

section Config

variable {κ : Type} (c : Config) (hasher : κ → UInt64) (clock : ℕ → ℚ)

theorem countOf_pos (maxKeys : ℕ) : 0 < countOf maxKeys := by
  unfold countOf
  split <;> decide

@[simp] theorem length_buildShards (maxKeys : ℕ) (burst : ℚ) :
    (buildShards maxKeys burst clock).length = countOf maxKeys := by
  simp [buildShards]

/-- The caps of the first `n` shards. -/
private theorem sum_range_caps (base extra n : ℕ) :
    ((List.range n).map fun i => base + if i < extra then 1 else 0).sum =
      n * base + min n extra := by
  induction n with
  | zero => simp
  | succ n ih =>
    rw [List.range_succ, List.map_append, List.sum_append, ih]
    simp only [List.map_cons, List.map_nil, List.sum_cons, List.sum_nil]
    rw [Nat.succ_mul]
    split <;> omega

/-- The caps add up to exactly `max_keys`. -/
theorem sum_caps_buildShards (maxKeys : ℕ) (burst : ℚ) :
    ((buildShards maxKeys burst clock).map State.cap).sum = maxKeys := by
  have hlt := Nat.mod_lt maxKeys (countOf_pos maxKeys)
  have hdiv := Nat.div_add_mod maxKeys (countOf maxKeys)
  simp only [buildShards, List.map_map, Function.comp_def]
  rw [sum_range_caps, min_eq_right hlt.le]
  exact hdiv

/-- Every shard starts empty and with a full overflow bucket. -/
theorem valid_of_mem_buildShards {maxKeys : ℕ} {burst : ℚ} (hb : 0 ≤ burst) {s : State}
    (hs : s ∈ buildShards maxKeys burst clock) : s.Valid s.cap := by
  simp only [buildShards, List.mem_map] at hs
  obtain ⟨i, -, rfl⟩ := hs
  exact ⟨rfl, by simp [Table.size], by simp, hb⟩

theorem follows_ofConfig {i : ℕ} {s : State}
    (hs : (Limiter.ofConfig c hasher clock).shards[i]? = some s) :
    Limiter.Follows (Limiter.ofConfig c hasher clock) i s.cap
      (Limiter.ofConfig c hasher clock) :=
  ⟨rfl, rfl, rfl, rfl, s, hs, valid_of_mem_buildShards clock c.burst_pos.le
    (List.mem_of_getElem? hs)⟩

theorem shardOf_lt (key : κ) :
    (Limiter.ofConfig c hasher clock).shardOf key <
      (Limiter.ofConfig c hasher clock).shards.length := by
  refine Nat.mod_lt _ ?_
  simpa [Limiter.ofConfig] using countOf_pos c.maxKeys

/-- A run in global time order is in order on every shard. -/
theorem inOrder_of_pairwise {l : Limiter κ} {calls : List (Limiter.Call κ)}
    (h : calls.Pairwise fun x y => x.2 ≤ y.2) : l.InOrder calls :=
  fun _ => h.filter _

/-- One request per second, at most one tracked key. -/
def tightConfig : Config where
  limit := 1
  per := 1
  burst := 1
  maxKeys := 1
  one_le_limit := le_rfl
  per_pos := one_pos
  one_le_burst := le_rfl
  one_le_maxKeys := le_rfl

/-- Key 0 occupies the table; key 1 is served by the overflow bucket at 0.9 s, and
    by a fresh bucket of its own at 1 s, when key 0 has been swept out. -/
def tightCalls : List (Limiter.Call ℕ) := [(0, 0), (1, 9 / 10), (1, 1)]

/-! ## Admission bounds -/

/-- The bound for one shard: `(cap + 1) * (burst + rate * T)`. -/
theorem shard_admitted_le (calls : List (Limiter.Call κ))
    (horder : (Limiter.ofConfig c hasher clock).InOrder calls) {a T : ℚ} (hT : 0 ≤ T)
    {i : ℕ} {s : State} (hs : (Limiter.ofConfig c hasher clock).shards[i]? = some s) :
    ((Limiter.ofConfig c hasher clock).admitted calls a (a + T)
        (fun key => decide ((Limiter.ofConfig c hasher clock).shardOf key = i)) : ℚ) ≤
      ((s.cap : ℚ) + 1) * (c.burst + c.rate * T) := by
  have hr := c.rate_pos.le
  have hb := c.burst_pos.le
  have hbound := Limiter.admitted_le ((Resource.table hr hb).add (Resource.overflow hr hb))
    (Limiter.ofConfig c hasher clock) i hr hb (follows_ofConfig c hasher clock hs)
    (fun key => decide ((Limiter.ofConfig c hasher clock).shardOf key = i))
    (fun key h => of_decide_eq_true h) calls horder (a := a) hT
    (by
      intro x _ hi _ _ s' _
      simp only [hi, decide_true, if_true]
      refine le_of_eq ?_
      show State.worth _ _ _ _ + Bucket.level _ _ _ _ + _ =
        State.worth _ _ _ _ + Bucket.level _ _ _ _
      cases hov : s'.overflows c.rate c.burst (hasher x.2.1) x.2.2 with
      | true =>
        have h₁ := worth_take_of_overflows hov
        have h₂ := overflow_take_of_overflows hov
        simp only [Limiter.ofConfig] at h₁ h₂ ⊢
        linarith
      | false =>
        have h₁ := worth_take_of_own hov
        have h₂ := overflow_take_of_own hov
        simp only [Limiter.ofConfig] at h₁ h₂ ⊢
        rw [h₂]
        linarith)
  refine hbound.trans (le_of_eq ?_)
  simp only [Resource.add, Resource.table, Resource.overflow]
  ring

/-- **The limit cannot be bypassed by varying the key.** In any window of length
    `T`, a shard with cap `c` admits at most `(c + 1) * (burst + rate * T)` calls, and
    all shards together at most `(max_keys + shards) * (burst + rate * T)`, whatever
    is swept, evicted or served by an overflow bucket before or during the window. -/
theorem admitted_in_window_le (calls : List (Limiter.Call κ))
    (horder : (Limiter.ofConfig c hasher clock).InOrder calls) (a T : ℚ) (hT : 0 ≤ T) :
    (∀ i s, (Limiter.ofConfig c hasher clock).shards[i]? = some s →
      ((Limiter.ofConfig c hasher clock).admitted calls a (a + T)
          (fun key => decide ((Limiter.ofConfig c hasher clock).shardOf key = i)) : ℚ) ≤
        ((s.cap : ℚ) + 1) * (c.burst + c.rate * T)) ∧
    ((Limiter.ofConfig c hasher clock).admitted calls a (a + T) (fun _ => true) : ℚ) ≤
      ((c.maxKeys : ℚ) + ((Limiter.ofConfig c hasher clock).shards.length : ℚ)) *
        (c.burst + c.rate * T) := by
  refine ⟨fun i s hs => shard_admitted_le c hasher clock calls horder hT hs, ?_⟩
  -- the calls are split by shard, and the capacities of the shards add up to `max_keys`
  have hsplit := Potential.chargedIn_eq_sum Prod.snd
    (fun (l : Limiter κ) call => l.admits call)
    (fun call : Limiter.Call κ => (⟨_, shardOf_lt c hasher clock call.1⟩ :
      Fin (Limiter.ofConfig c hasher clock).shards.length))
    a (a + T) (visits Limiter.after (Limiter.ofConfig c hasher clock) calls)
  have hcaps : ∑ i : Fin (Limiter.ofConfig c hasher clock).shards.length,
      ((Limiter.ofConfig c hasher clock).shards[i].cap : ℚ) = c.maxKeys := by
    have hsum := sum_caps_buildShards clock c.maxKeys c.burst
    have hfin := Fin.sum_univ_fun_getElem (Limiter.ofConfig c hasher clock).shards State.cap
    have : ((Limiter.ofConfig c hasher clock).shards.map State.cap).sum = c.maxKeys := hsum
    rw [this] at hfin
    rw [← hfin]
    push_cast
    rfl
  have hshards : ∑ i : Fin (Limiter.ofConfig c hasher clock).shards.length,
      (((Limiter.ofConfig c hasher clock).shards[i].cap : ℚ) + 1) * (c.burst + c.rate * T) =
      ((c.maxKeys : ℚ) + ((Limiter.ofConfig c hasher clock).shards.length : ℚ)) *
        (c.burst + c.rate * T) := by
    rw [← Finset.sum_mul, Finset.sum_add_distrib, hcaps]
    simp
  rw [← hshards]
  simp only [Limiter.admitted, Bool.true_and]
  rw [hsplit]
  push_cast
  refine Finset.sum_le_sum fun i _ => ?_
  have hi := shard_admitted_le c hasher clock calls horder (a := a) hT
    (i := i) (s := (Limiter.ofConfig c hasher clock).shards[i]) (by simp)
  simpa [Limiter.admitted, Fin.ext_iff] using hi

/-- The bound for a run of three calls with two keys and one tracked bucket. -/
theorem admitted_in_window_le_tight :
    ((Limiter.ofConfig tightConfig UInt64.ofNat fun _ => 0).admitted tightCalls 0 (0 + 1)
      (fun _ => true) : ℚ) ≤
      ((tightConfig.maxKeys : ℚ) +
        ((Limiter.ofConfig tightConfig UInt64.ofNat fun _ => 0).shards.length : ℚ)) *
        (tightConfig.burst + tightConfig.rate * 1) :=
  (admitted_in_window_le tightConfig UInt64.ofNat (fun _ => 0) tightCalls
    (inOrder_of_pairwise (by decide +kernel)) 0 1 (by norm_num)).2

/-! ## Bounds for a single key -/

section Key

variable [DecidableEq κ] (calls : List (Limiter.Call κ)) (k : κ)

omit [DecidableEq κ] in
/-- A shard of the initial limiter that a key belongs to. -/
private theorem exists_shard :
    ∃ s, (Limiter.ofConfig c hasher clock).shards[
      (Limiter.ofConfig c hasher clock).shardOf k]? = some s :=
  ⟨_, List.getElem?_eq_getElem (shardOf_lt c hasher clock k)⟩

/-- The calls for one key are paid by a resource that pays for every call with the
    key's hash. -/
private theorem key_admitted_le (R : ∀ cap : ℕ, Resource cap) {capacity growth : ℚ}
    (hcap : ∀ cap, (R cap).capacity = capacity) (hgrowth : ∀ cap, (R cap).growth = growth)
    (hdistinct : ∀ call ∈ calls, hasher call.1 = hasher k → call.1 = k)
    (horder : (Limiter.ofConfig c hasher clock).InOrder calls) {a T : ℚ} (hT : 0 ≤ T)
    (hother : ∀ cap (s : State) id now, id ≠ hasher k →
      (R cap).value (s.take c.rate c.burst id now).2 now ≤ (R cap).value s now)
    (hown : ∀ cap, ∀ x ∈ visits Limiter.after (Limiter.ofConfig c hasher clock) calls,
      x.2.1 = k → x.2.2 ≤ a + T → a ≤ x.2.2 → ∀ s : State,
      x.1.overflows x.2 = s.overflows c.rate c.burst (hasher k) x.2.2 →
      (R cap).value (s.take c.rate c.burst (hasher k) x.2.2).2 x.2.2 +
        s.cost c.rate c.burst (hasher k) x.2.2 ≤ (R cap).value s x.2.2) :
    ((Limiter.ofConfig c hasher clock).admitted calls a (a + T)
        (fun key => decide (key = k)) : ℚ) ≤ capacity + growth * T := by
  have hr := c.rate_pos.le
  have hb := c.burst_pos.le
  obtain ⟨s₀, hs₀⟩ := exists_shard c hasher clock k
  have hbound := Limiter.admitted_le (R s₀.cap) (Limiter.ofConfig c hasher clock)
    ((Limiter.ofConfig c hasher clock).shardOf k) hr hb (follows_ofConfig c hasher clock hs₀)
    (fun key => decide (key = k))
    (fun key h => by rw [of_decide_eq_true h]) calls horder (a := a) hT
    (by
      intro x hx hi hle hge s hs
      -- a visit is one of the calls
      have hmem : x.2 ∈ calls := by
        have := List.mem_map_of_mem (f := Prod.snd) hx
        rwa [map_snd_visits] at this
      by_cases hk : x.2.1 = k
      · -- a call of the key is charged to its shard, with the decision of the limiter
        have hinv := visits_invariant Limiter.after
          (Limiter.Follows (Limiter.ofConfig c hasher clock)
            ((Limiter.ofConfig c hasher clock).shardOf k) s₀.cap)
          (fun l call h => Limiter.Follows.after hr hb h call)
          (follows_ofConfig c hasher clock hs₀) calls x hx
        have hs' : x.1.shards[x.1.shardOf x.2.1]? = some s := by
          rw [hinv.shardOf_eq, hi, hs]
        have hov := Limiter.overflows_eq hs'
        rw [hinv.rate_eq, hinv.burst_eq, hinv.hasher_eq] at hov
        have hpay := hown s₀.cap x hx hk hle hge s (by rw [hov, hk]; rfl)
        simpa [hk, Limiter.ofConfig] using hpay
      · -- another key has another hash, and is not charged
        have hne : hasher x.2.1 ≠ hasher k := fun h => hk (hdistinct x.2 hmem h)
        simpa [hk, Limiter.ofConfig] using hother s₀.cap s (hasher x.2.1) x.2.2 hne)
  rwa [hcap, hgrowth] at hbound

/-- A call never adds tokens to the overflow bucket at its own time. -/
private theorem overflow_take_le (rate burst : ℚ) (s : State) (id : UInt64) (now : ℚ) :
    (s.take rate burst id now).2.overflow.level rate burst now ≤
      s.overflow.level rate burst now := by
  cases hov : s.overflows rate burst id now with
  | true =>
    have hpay := overflow_take_of_overflows hov
    have : (0 : ℚ) ≤ s.cost rate burst id now := by
      unfold State.cost
      split <;> norm_num
    linarith
  | false => rw [overflow_take_of_own hov]

/-- **The limit for one key.** In any window of length `T`, the calls for one key
    that are let through number at most `2 * (burst + rate * T)`: one share for the
    key's own bucket and one for the overflow bucket. If all of them in the window are
    charged to the same one of the two, it is `burst + rate * T`. -/
theorem key_admitted_in_window_le
    (hdistinct : ∀ call ∈ calls, hasher call.1 = hasher k → call.1 = k)
    (horder : (Limiter.ofConfig c hasher clock).InOrder calls) (a T : ℚ) (hT : 0 ≤ T) :
    ((Limiter.ofConfig c hasher clock).admitted calls a (a + T)
        (fun key => decide (key = k)) : ℚ) ≤ 2 * (c.burst + c.rate * T) ∧
    (∀ shared : Bool,
      (∀ x ∈ visits Limiter.after (Limiter.ofConfig c hasher clock) calls,
        x.2.1 = k → a ≤ x.2.2 → x.2.2 ≤ a + T → x.1.overflows x.2 = shared) →
      ((Limiter.ofConfig c hasher clock).admitted calls a (a + T)
        (fun key => decide (key = k)) : ℚ) ≤ c.burst + c.rate * T) := by
  have hr := c.rate_pos.le
  have hb := c.burst_pos.le
  refine ⟨?_, ?_⟩
  · -- the account of the key and the overflow bucket pay together
    have hbound : ((Limiter.ofConfig c hasher clock).admitted calls a (a + T)
        (fun key => decide (key = k)) : ℚ) ≤ (c.burst + c.burst) + (c.rate + c.rate) * T :=
      key_admitted_le c hasher clock calls k
      (fun _ => (Resource.account hr hb (hasher k)).add (Resource.overflow hr hb))
      (fun _ => rfl) (fun _ => rfl) hdistinct horder (a := a) hT
      (fun _ s id now hne =>
        add_le_add (account_take_of_ne (Ne.symm hne)).le (overflow_take_le _ _ s id now))
      (fun _ x _ _ _ _ s _ => by
        show State.account _ _ _ _ _ + Bucket.level _ _ _ _ + _ ≤
          State.account _ _ _ _ _ + Bucket.level _ _ _ _
        cases hov : s.overflows c.rate c.burst (hasher k) x.2.2 with
        | true =>
          have h₁ := account_take_of_overflows hov (hasher k)
          have h₂ := overflow_take_of_overflows hov
          linarith
        | false =>
          have h₁ := account_take_of_own hov
          have h₂ := overflow_take_of_own hov
          rw [h₂]
          linarith)
    refine hbound.trans (le_of_eq ?_)
    ring
  · intro shared hover
    -- all its visits are paid by one of the two
    cases shared with
    | true =>
      exact key_admitted_le c hasher clock calls k (fun _ => Resource.overflow hr hb)
        (fun _ => rfl) (fun _ => rfl) hdistinct horder (a := a) hT
        (fun _ s id now _ => overflow_take_le _ _ s id now)
        (fun _ x hx hk hle hge s hs =>
          (overflow_take_of_overflows (hs ▸ hover x hx hk hge hle)).le)
    | false =>
      exact key_admitted_le c hasher clock calls k (fun _ => Resource.account hr hb (hasher k))
        (fun _ => rfl) (fun _ => rfl) hdistinct horder (a := a) hT
        (fun _ s id now hne => (account_take_of_ne (Ne.symm hne)).le)
        (fun _ x hx hk hle hge s hs =>
          (account_take_of_own (hs ▸ hover x hx hk hge hle)).le)

end Key

/-- The hypotheses of `key_admitted_in_window_le` hold for the run above. -/
theorem key_admitted_in_window_le_tight :
    ((Limiter.ofConfig tightConfig UInt64.ofNat fun _ => 0).admitted tightCalls
      (9 / 10) (9 / 10 + 1 / 10) (fun key => decide (key = 1)) : ℚ) ≤
      2 * ((tightConfig.burst : ℚ) + tightConfig.rate * (1 / 10)) :=
  (key_admitted_in_window_le tightConfig UInt64.ofNat (fun _ => 0) tightCalls 1 (by decide)
    (inOrder_of_pairwise (by decide +kernel)) (9 / 10) (1 / 10) (by norm_num)).1

/-- The bound `burst + rate * T` fails for a key whose bucket changes. -/
theorem not_key_admitted_le_single :
    ¬ ∀ (c : Config) (hasher : ℕ → UInt64) (clock : ℕ → ℚ) (calls : List (Limiter.Call ℕ))
        (k : ℕ), (∀ call ∈ calls, hasher call.1 = hasher k → call.1 = k) →
        (Limiter.ofConfig c hasher clock).InOrder calls → ∀ a T : ℚ, 0 ≤ T →
        ((Limiter.ofConfig c hasher clock).admitted calls a (a + T)
          (fun key => decide (key = k)) : ℚ) ≤ c.burst + c.rate * T := by
  intro h
  have hle := h tightConfig UInt64.ofNat (fun _ => 0) tightCalls 1 (by decide)
    (inOrder_of_pairwise (by decide +kernel)) (9 / 10) (1 / 10) (by norm_num)
  have htwo : (Limiter.ofConfig tightConfig UInt64.ofNat fun _ => 0).admitted tightCalls
      (9 / 10) (9 / 10 + 1 / 10) (fun key => decide (key = 1)) = 2 := by decide +kernel
  rw [htwo] at hle
  norm_num [tightConfig, Config.rate] at hle

end Config

end OasRs.RateLimit
