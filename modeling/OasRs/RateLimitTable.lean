import OasRs.RateLimitBounds

/-!
# The Key Table of the Rate Limiter

What a call of `Limiter::take` does to the buckets of the table and to the overflow buckets, and
what holds of them in every run. A wait is an exact rational here, not rounded to nanoseconds.

## Main results

- `Limiter.bucket?_after_self`, `Limiter.bucket?_after_of_ne`: the bucket that serves a call, and
  all the others
- `results_eq_loneResults`: a key that is never sent to the overflow bucket sees a bucket of its own
- `table_invariant`: bounds of the table, and when a wait is long enough
-/

namespace OasRs.RateLimit

open OasRs.Lib

/-! ## Places of buckets -/

/-- Where a bucket is kept. -/
structure Place where
  shard : ℕ
  /-- the hash in the table of the shard, or none for its overflow bucket -/
  id : Option UInt64
  deriving DecidableEq

section Shard

variable {rate burst : ℚ} {s : State} {id : UInt64} {now : ℚ}

/-- The bucket of a shard under a hash, or its overflow bucket. -/
def State.bucket? (s : State) : Option UInt64 → Option Bucket
  | none => some s.overflow
  | some id => AList.lookup id s.buckets

/-- The bucket of a shard that serves a call. -/
def State.slot (rate burst : ℚ) (s : State) (id : UInt64) (now : ℚ) : Option UInt64 :=
  if s.overflows rate burst id now then none else some id

/-- The bucket that a call finds at its place, refilled. -/
def refilled (rate burst : ℚ) (found : Option Bucket) (now : ℚ) : Bucket :=
  refill rate burst (found.getD { tokens := burst, last := now }) now

theorem lookup_swept_self :
    AList.lookup id (s.swept rate burst id now).buckets = AList.lookup id s.buckets := by
  cases hl : AList.lookup id s.buckets with
  | none => exact lookup_swept_of_unknown hl
  | some b => rw [swept_of_known hl, hl]

/-- A call is answered by the bucket at its place. -/
theorem take_slot (rate burst : ℚ) (s : State) (id : UInt64) (now : ℚ) :
    (s.take rate burst id now).1 =
        (spend rate (refilled rate burst (s.bucket? (s.slot rate burst id now)) now)).1 ∧
      (s.take rate burst id now).2.bucket? (s.slot rate burst id now) =
        some (spend rate (refilled rate burst (s.bucket? (s.slot rate burst id now)) now)).2 := by
  rcases take_cases rate burst s id now with ⟨hov, -, heq⟩ | ⟨hov, -, heq⟩
  · have hslot : s.slot rate burst id now = none := by rw [State.slot, if_pos hov]
    rw [heq, hslot]
    exact ⟨rfl, rfl⟩
  · have hslot : s.slot rate burst id now = some id := by
      rw [State.slot, hov]
      rfl
    rw [heq, hslot]
    simp only [State.own, lookup_swept_self, State.bucket?, AList.lookup_insert]
    exact ⟨rfl, rfl⟩

/-- A call leaves every other bucket alone, or sweeps it out when it would be full again. -/
theorem take_slot_of_ne {slot : Option UInt64} (hne : slot ≠ s.slot rate burst id now) :
    (s.take rate burst id now).2.bucket? slot = s.bucket? slot ∨
      ((s.take rate burst id now).2.bucket? slot = none ∧
        ∃ b, s.bucket? slot = some b ∧ b.level rate burst now = burst) := by
  obtain ⟨keep, hkeep, hfull⟩ := swept_buckets rate burst s id now
  cases slot with
  | none =>
    -- the overflow bucket of a call that has a place in the table
    rcases take_cases rate burst s id now with ⟨hov, -, -⟩ | ⟨hov, -, heq⟩
    · rw [State.slot, if_pos hov] at hne
      exact (hne rfl).elim
    · left
      rw [heq]
      exact congrArg some swept_overflow
  | some other =>
    have hother : (s.take rate burst id now).2.bucket? (some other) =
        AList.lookup other (s.swept rate burst id now).buckets := by
      rcases take_cases rate burst s id now with ⟨hov, -, heq⟩ | ⟨hov, -, heq⟩
      · rw [heq]
        rfl
      · have hid : other ≠ id := by
          rintro rfl
          rw [State.slot, hov] at hne
          exact hne rfl
        rw [heq]
        exact AList.lookup_insert_ne hid
    rw [hother, hkeep, Table.lookup_retain]
    show _ = AList.lookup other s.buckets ∨ _ ∧ ∃ b, AList.lookup other s.buckets = some b ∧ _
    cases hl : AList.lookup other s.buckets with
    | none => exact .inl rfl
    | some b =>
      cases hk : keep other b with
      | true => exact .inl (by simp [Option.filter, hk])
      | false => exact .inr ⟨by simp [Option.filter, hk], b, rfl, hfull other b hk⟩

end Shard

namespace Limiter

variable {κ : Type} {l : Limiter κ} {call : Call κ}

/-- The bucket at a place. -/
def bucket? (l : Limiter κ) (place : Place) : Option Bucket :=
  l.shards[place.shard]?.bind fun s => s.bucket? place.id

/-- The place of the bucket that serves a call. -/
def placeOf (l : Limiter κ) (call : Call κ) : Place where
  shard := l.shardOf call.1
  id := if l.overflows call then none else some (l.hasher call.1)

/-- The bucket that serves a call, refilled. -/
def served (l : Limiter κ) (call : Call κ) : Bucket :=
  refilled l.rate l.burst (l.bucket? (l.placeOf call)) call.2

theorem exists_shardOf (h : 0 < l.shards.length) (key : κ) :
    ∃ s, l.shards[l.shardOf key]? = some s :=
  ⟨_, List.getElem?_eq_getElem (Nat.mod_lt _ h)⟩

theorem placeOf_eq {s : State} (hs : l.shards[l.shardOf call.1]? = some s) :
    l.placeOf call =
      { shard := l.shardOf call.1, id := s.slot l.rate l.burst (l.hasher call.1) call.2 } := by
  rw [placeOf, overflows_eq hs]
  rfl

/-- **The bucket that serves a call** gives the answer, and keeps what is left. -/
theorem bucket?_after_self (h : 0 < l.shards.length) (call : Call κ) :
    (l.take call.1 call.2).1 = (spend l.rate (l.served call)).1 ∧
      (l.after call).bucket? (l.placeOf call) = some (spend l.rate (l.served call)).2 := by
  obtain ⟨s, hs⟩ := exists_shardOf h call.1
  obtain ⟨hanswer, hkept⟩ := take_slot l.rate l.burst s (l.hasher call.1) call.2
  have hfound : l.bucket? (l.placeOf call) =
      s.bucket? (s.slot l.rate l.burst (l.hasher call.1) call.2) := by
    rw [placeOf_eq hs, bucket?, hs, Option.bind_some]
  rw [served, hfound]
  constructor
  · rw [take_of_shard hs]
    exact hanswer
  · rw [placeOf_eq hs, bucket?, after_shard hs, Option.bind_some]
    exact hkept

/-- **All the other buckets** are left alone, or swept out when they would be full again. -/
theorem bucket?_after_of_ne (h : 0 < l.shards.length) {place : Place} (hne : place ≠ l.placeOf call) :
    (l.after call).bucket? place = l.bucket? place ∨
      ((l.after call).bucket? place = none ∧
        ∃ b, l.bucket? place = some b ∧ b.level l.rate l.burst call.2 = l.burst) := by
  obtain ⟨s, hs⟩ := exists_shardOf h call.1
  by_cases hshard : l.shardOf call.1 = place.shard
  · have hslot : place.id ≠ s.slot l.rate l.burst (l.hasher call.1) call.2 := by
      intro hid
      apply hne
      rw [placeOf_eq hs, hshard, ← hid]
    simp only [bucket?, ← hshard, after_shard hs, hs, Option.bind_some]
    exact take_slot_of_ne hslot
  · left
    rw [bucket?, after_shard_of_ne hshard]
    rfl

end Limiter

theorem shards_ofConfig_pos {κ : Type} (c : Config) (hasher : κ → UInt64) (clock : ℕ → ℚ) :
    0 < (Limiter.ofConfig c hasher clock).shards.length := by
  rw [Limiter.ofConfig, length_buildShards]
  exact countOf_pos c.maxKeys

/-- A new limiter has nothing in its tables. -/
theorem bucket?_ofConfig {κ : Type} (c : Config) (hasher : κ → UInt64) (clock : ℕ → ℚ) (shard : ℕ)
    (id : UInt64) : (Limiter.ofConfig c hasher clock).bucket? { shard, id := some id } = none := by
  rw [Limiter.bucket?]
  cases hs : (Limiter.ofConfig c hasher clock).shards[shard]? with
  | none => rfl
  | some s =>
    have hmem : s ∈ buildShards c.maxKeys c.burst clock := List.mem_of_getElem? hs
    simp only [buildShards, List.mem_map] at hmem
    obtain ⟨index, -, rfl⟩ := hmem
    rfl

/-! ## A bucket of its own -/

/-- A call of a token bucket alone. The calls come in order of time. -/
def lone (rate size : ℚ) (b : Bucket) (now : ℚ) : Except ℚ Unit × Bucket :=
  let tokens := min size (b.tokens + rate * (now - b.last))
  if 1 ≤ tokens then (.ok (), { tokens := tokens - 1, last := now })
  else (.error (durationOfSecs ((1 - tokens) / rate)), { tokens, last := now })

/-- The answers of a lone bucket, which is created full at its first call. -/
def loneFrom (rate size : ℚ) : Option Bucket → List ℚ → List (Except ℚ Unit)
  | _, [] => []
  | found, now :: times =>
    let (answer, b) := lone rate size (found.getD { tokens := size, last := now }) now
    answer :: loneFrom rate size (some b) times

/-- The answers of a lone bucket from its creation on. -/
def loneResults (rate size : ℚ) (times : List ℚ) : List (Except ℚ Unit) :=
  loneFrom rate size none times

/-- The times at which a key is used. -/
def timesOf {κ : Type} [DecidableEq κ] (key : κ) (calls : List (Limiter.Call κ)) : List ℚ :=
  (calls.filter fun call => call.1 = key).map Prod.snd

/-- The answers that a key gets in a run. -/
def Limiter.results {κ : Type} [DecidableEq κ] (l : Limiter κ) (key : κ)
    (calls : List (Limiter.Call κ)) : List (Except ℚ Unit) :=
  ((visits Limiter.after l calls).filter fun visit => visit.2.1 = key).map
    fun visit => (visit.1.take visit.2.1 visit.2.2).1

section Lone

variable {rate burst : ℚ}

/-- A bucket that is not used does not lose tokens. -/
theorem Bucket.level_mono (hr : 0 ≤ rate) (b : Bucket) {t t' : ℚ} (h : t ≤ t') :
    b.level rate burst t ≤ b.level rate burst t' := by
  have helapsed : saturatingSince t b.last ≤ saturatingSince t' b.last :=
    max_le_max_left 0 (sub_le_sub_right h b.last)
  exact min_le_min_right burst (add_le_add_right (mul_le_mul_of_nonneg_right helapsed hr) b.tokens)

/-- A full bucket stays full. -/
theorem Bucket.level_eq_burst (hr : 0 ≤ rate) {b : Bucket} {t t' : ℚ}
    (hfull : b.level rate burst t = burst) (h : t ≤ t') : b.level rate burst t' = burst := by
  apply le_antisymm (b.level_le_burst t')
  calc burst = b.level rate burst t := hfull.symm
    _ ≤ b.level rate burst t' := b.level_mono hr h

/-- As long as the clock does not go back, a call is that of a lone bucket. -/
theorem spend_refill_eq_lone {b : Bucket} {now : ℚ} (h : b.last ≤ now) :
    spend rate (refill rate burst b now) = lone rate burst b now := by
  have helapsed : saturatingSince now b.last = now - b.last := max_eq_right (sub_nonneg.mpr h)
  have hrefill : refill rate burst b now =
      { tokens := min burst (b.tokens + rate * (now - b.last)), last := now } := by
    rw [refill, helapsed, max_eq_right h, min_comm, mul_comm]
  rw [hrefill]
  rfl

theorem lone_last (rate burst : ℚ) (b : Bucket) (now : ℚ) :
    (lone rate burst b now).2.last = now := by
  unfold lone
  simp only
  split
  · rfl
  · rfl

/-- What the table has of a key, beside its lone bucket: the same bucket, or nothing where the
    lone bucket is full. -/
def Tracks (rate burst t : ℚ) (found ideal : Option Bucket) : Prop :=
  match found with
  | some b => ideal = some b ∧ b.last ≤ t
  | none => ∀ b ∈ ideal, b.last ≤ t ∧ b.level rate burst t = burst

variable {t now : ℚ} {found ideal : Option Bucket}

/-- A call at the key's place is a call of the lone bucket. -/
theorem Tracks.serve (hr : 0 ≤ rate) (h : Tracks rate burst t found ideal) (ht : t ≤ now) :
    spend rate (refilled rate burst found now) =
        lone rate burst (ideal.getD { tokens := burst, last := now }) now := by
  cases found with
  | some b =>
    obtain ⟨rfl, hlast⟩ := h
    exact spend_refill_eq_lone (hlast.trans ht)
  | none =>
    cases ideal with
    | none => exact spend_refill_eq_lone le_rfl
    | some b =>
      obtain ⟨hlast, hfull⟩ := h b rfl
      -- both are full buckets at this moment
      have hlevel : b.level rate burst now = burst := Bucket.level_eq_burst hr hfull ht
      have hnew : refilled rate burst none now = refill rate burst b now := by
        show Bucket.mk (Bucket.level rate burst { tokens := burst, last := now } now) (max now now) =
          Bucket.mk (b.level rate burst now) (max b.last now)
        rw [Bucket.level_new, hlevel, max_self, max_eq_right (hlast.trans ht)]
      rw [hnew]
      exact spend_refill_eq_lone (hlast.trans ht)

/-- A call for another key does not matter. -/
theorem Tracks.skip (hr : 0 ≤ rate) (h : Tracks rate burst t found ideal) (ht : t ≤ now)
    {found' : Option Bucket}
    (hskip : found' = found ∨
      (found' = none ∧ ∃ b, found = some b ∧ b.level rate burst now = burst)) :
    Tracks rate burst now found' ideal := by
  rcases hskip with rfl | ⟨rfl, b, rfl, hlevel⟩
  · cases found' with
    | some b => exact ⟨h.1, h.2.trans ht⟩
    | none =>
      intro b hb
      obtain ⟨hlast, hfull⟩ := h b hb
      exact ⟨hlast.trans ht, Bucket.level_eq_burst hr hfull ht⟩
  · -- swept out
    obtain ⟨rfl, hlast⟩ := h
    intro b' hb'
    cases hb'
    exact ⟨hlast.trans ht, hlevel⟩

end Lone

section Refinement

variable {κ : Type} [DecidableEq κ]

/-- From any point of a run on, a key sees what its lone bucket gives. -/
theorem results_eq_loneFrom {l : Limiter κ} {key : κ} {t : ℚ} {ideal : Option Bucket}
    (hr : 0 ≤ l.rate) (hshards : 0 < l.shards.length) {calls : List (Limiter.Call κ)}
    (hsorted : calls.Pairwise fun x y => x.2 ≤ y.2) (hfrom : ∀ call ∈ calls, t ≤ call.2)
    (hdistinct : ∀ call ∈ calls, l.hasher call.1 = l.hasher key → call.1 = key)
    (hown : ∀ visit ∈ visits Limiter.after l calls,
      visit.2.1 = key → visit.1.overflows visit.2 = false)
    (htracks : Tracks l.rate l.burst t
      (l.bucket? { shard := l.shardOf key, id := some (l.hasher key) }) ideal) :
    l.results key calls = loneFrom l.rate l.burst ideal (timesOf key calls) := by
  induction calls generalizing l t ideal with
  | nil => rfl
  | cons call calls ih =>
    obtain ⟨hfirst, hrest⟩ := List.pairwise_cons.mp hsorted
    have ht : t ≤ call.2 := hfrom call List.mem_cons_self
    have hplace : ({ shard := (l.after call).shardOf key, id := some ((l.after call).hasher key) } :
        Place) = { shard := l.shardOf key, id := some (l.hasher key) } := by
      rw [Limiter.shardOf, Limiter.after_hasher, Limiter.after_length]
      rfl
    -- the rest of the run, from the limiter after this call
    have hnext : ∀ ideal', Tracks l.rate l.burst call.2
        ((l.after call).bucket? { shard := l.shardOf key, id := some (l.hasher key) }) ideal' →
        (l.after call).results key calls = loneFrom l.rate l.burst ideal' (timesOf key calls) := by
      intro ideal' h
      rw [← Limiter.after_rate l call, ← Limiter.after_burst l call]
      apply ih
      · rw [Limiter.after_rate]
        exact hr
      · rw [Limiter.after_length]
        exact hshards
      · exact hrest
      · exact hfirst
      · rw [Limiter.after_hasher]
        exact fun other hother => hdistinct other (List.mem_cons_of_mem _ hother)
      · exact fun visit hvisit => hown visit (List.mem_cons_of_mem _ hvisit)
      · rw [hplace, Limiter.after_rate, Limiter.after_burst]
        exact h
    by_cases hkey : call.1 = key
    · have hself : l.placeOf call = { shard := l.shardOf key, id := some (l.hasher key) } := by
        have hoverflows := hown (l, call) List.mem_cons_self hkey
        rw [Limiter.placeOf, hoverflows, hkey]
        rfl
      obtain ⟨hanswer, hkept⟩ := Limiter.bucket?_after_self hshards call
      have hserve := htracks.serve hr ht
      rw [Limiter.served, hself] at hanswer hkept
      rw [hserve] at hanswer hkept
      have hresults : l.results key (call :: calls) =
          (l.take call.1 call.2).1 :: (l.after call).results key calls := by
        simp [Limiter.results, hkey]
      have htimes : timesOf key (call :: calls) = call.2 :: timesOf key calls := by
        simp [timesOf, hkey]
      rw [hresults, htimes, hanswer, hnext _ _]
      · rfl
      · rw [hkept]
        exact ⟨rfl, (lone_last _ _ _ _).le⟩
    · have hne : ({ shard := l.shardOf key, id := some (l.hasher key) } : Place) ≠ l.placeOf call := by
        intro heq
        have hid : some (l.hasher key) =
            if l.overflows call then none else some (l.hasher call.1) := congrArg Place.id heq
        split at hid
        · cases hid
        · exact hkey (hdistinct call List.mem_cons_self (Option.some.inj hid).symm)
      have hresults : l.results key (call :: calls) = (l.after call).results key calls := by
        simp [Limiter.results, hkey]
      have htimes : timesOf key (call :: calls) = timesOf key calls := by
        simp [timesOf, hkey]
      rw [hresults, htimes]
      exact hnext ideal (htracks.skip hr ht (Limiter.bucket?_after_of_ne hshards hne))

/-- **A bounded table changes nothing** for a key whose calls never reach the overflow bucket: it
gets the answers of a bucket of its own, which is created full at its first call and stays. -/
theorem results_eq_loneResults (c : Config) (hasher : κ → UInt64) (clock : ℕ → ℚ)
    {calls : List (Limiter.Call κ)} (hsorted : calls.Pairwise fun x y => x.2 ≤ y.2) {key : κ}
    (hdistinct : ∀ call ∈ calls, hasher call.1 = hasher key → call.1 = key)
    (hown : ∀ visit ∈ visits Limiter.after (Limiter.ofConfig c hasher clock) calls,
      visit.2.1 = key → visit.1.overflows visit.2 = false) :
    (Limiter.ofConfig c hasher clock).results key calls =
      loneResults c.rate c.burst (timesOf key calls) := by
  cases calls with
  | nil => rfl
  | cons call calls =>
    have hfrom : ∀ other ∈ call :: calls, call.2 ≤ other.2 := by
      intro other hother
      rcases List.mem_cons.mp hother with rfl | hother
      · exact le_rfl
      · exact (List.pairwise_cons.mp hsorted).1 other hother
    apply results_eq_loneFrom (l := Limiter.ofConfig c hasher clock) c.rate_pos.le
      (shards_ofConfig_pos c hasher clock) hsorted hfrom hdistinct hown
    rw [bucket?_ofConfig]
    exact fun b hb => by cases hb

end Refinement

/-- Key 0 is swept out for key 1, and comes back. -/
def evictedCalls : List (Limiter.Call ℕ) := [(0, 0), (1, 1), (0, 2), (0, 5 / 2)]

theorem results_eq_loneResults_evicted :
    (Limiter.ofConfig tightConfig UInt64.ofNat fun _ => 0).results 0 evictedCalls =
      loneResults tightConfig.rate tightConfig.burst (timesOf 0 evictedCalls) := by
  apply results_eq_loneResults
  · decide +kernel
  · decide +kernel
  · decide +kernel

/-! ## The table in every run -/

namespace Limiter

variable {κ : Type} {c : Config} {l : Limiter κ}

/-- What holds between the calls of a run. -/
structure Bounded (c : Config) (l : Limiter κ) : Prop where
  rate_eq : l.rate = c.rate
  burst_eq : l.burst = c.burst
  nonempty : 0 < l.shards.length
  caps : (l.shards.map State.cap).sum = c.maxKeys
  cap_pos : ∀ s ∈ l.shards, 1 ≤ s.cap
  size_le : ∀ s ∈ l.shards, s.buckets.size ≤ s.cap
  tokens : ∀ place b, l.bucket? place = some b → 0 ≤ b.tokens ∧ b.tokens ≤ c.burst

theorem bounded_ofConfig (c : Config) (hasher : κ → UInt64) (clock : ℕ → ℚ) :
    (Limiter.ofConfig c hasher clock).Bounded c where
  rate_eq := rfl
  burst_eq := rfl
  nonempty := shards_ofConfig_pos c hasher clock
  caps := sum_caps_buildShards clock c.maxKeys c.burst
  cap_pos := by
    intro s hs
    obtain ⟨index, hindex, rfl⟩ := List.mem_map.mp hs
    have hone := c.one_le_maxKeys
    show 1 ≤ c.maxKeys / countOf c.maxKeys + _
    -- a table that is split has more keys than shards
    have hsplit : countOf c.maxKeys ≤ c.maxKeys := by
      rw [countOf]
      split
      · exact le_trans (by decide) ‹shardThreshold ≤ c.maxKeys›
      · exact hone
    exact le_add_right ((Nat.one_le_div_iff (countOf_pos c.maxKeys)).mpr hsplit)
  size_le := by
    intro s hs
    exact (valid_of_mem_buildShards clock c.burst_pos.le hs).size_le
  tokens := by
    intro place b hb
    obtain ⟨s, hs, hbucket⟩ := Option.bind_eq_some_iff.mp hb
    obtain ⟨index, hindex, rfl⟩ := List.mem_map.mp (List.mem_of_getElem? hs)
    cases hid : place.id with
    | none =>
      rw [hid] at hbucket
      cases hbucket
      exact ⟨c.burst_pos.le, le_rfl⟩
    | some id =>
      rw [hid] at hbucket
      cases hbucket

/-- A shard of a bounded limiter is valid. -/
theorem Bounded.valid (h : l.Bounded c) {i : ℕ} {s : State} (hs : l.shards[i]? = some s) :
    s.Valid s.cap where
  cap_eq := rfl
  size_le := h.size_le s (List.mem_of_getElem? hs)
  tokens_nonneg id b hb := by
    refine (h.tokens { shard := i, id := some id } b ?_).1
    rw [bucket?, hs, Option.bind_some]
    exact hb
  overflow_nonneg := by
    refine (h.tokens { shard := i, id := none } s.overflow ?_).1
    rw [bucket?, hs, Option.bind_some]
    rfl

/-- The bucket that serves a call holds between nothing and the burst. -/
theorem Bounded.served_tokens (h : l.Bounded c) (call : Call κ) :
    0 ≤ (l.served call).tokens ∧ (l.served call).tokens ≤ c.burst := by
  have hburst : (0 : ℚ) ≤ l.burst := h.burst_eq ▸ c.burst_pos.le
  have hrate : 0 ≤ l.rate := h.rate_eq ▸ c.rate_pos.le
  rw [served, refilled, tokens_refill, ← h.burst_eq]
  refine ⟨Bucket.level_nonneg hrate hburst ?_ _, Bucket.level_le_burst _ _⟩
  cases hfound : l.bucket? (l.placeOf call) with
  | none => exact hburst
  | some b => exact (h.tokens _ b hfound).1

/-- The shards after a call: one of them has changed, within its cap. -/
theorem Bounded.exists_set (h : l.Bounded c) (call : Call κ) :
    ∃ i s s', l.shards[i]? = some s ∧ (l.after call).shards = l.shards.set i s' ∧ s'.Valid s.cap := by
  obtain ⟨s, hs⟩ := exists_shardOf h.nonempty call.1
  have hrate : 0 ≤ l.rate := h.rate_eq ▸ c.rate_pos.le
  have hburst : 0 ≤ l.burst := h.burst_eq ▸ c.burst_pos.le
  have hvalid := Valid.take hrate hburst (h.valid hs) (l.hasher call.1) call.2
  refine ⟨l.shardOf call.1, s, _, hs, ?_, hvalid⟩
  rw [Limiter.after, take_of_shard hs]

theorem Bounded.after (h : l.Bounded c) (call : Call κ) : (l.after call).Bounded c := by
  obtain ⟨i, s, s', hs, hset, hvalid⟩ := h.exists_set call
  -- one shard is replaced, by one of the same capacity
  have hcaps : (l.after call).shards.map State.cap = l.shards.map State.cap := by
    obtain ⟨hi, hget⟩ := List.getElem?_eq_some_iff.mp hs
    rw [hset, List.map_set, hvalid.cap_eq, ← hget, ← List.getElem_map State.cap (h := by simpa using hi)]
    exact List.set_getElem_self _
  have hmem : ∀ t ∈ (l.after call).shards, t ∈ l.shards ∨ t = s' := by
    rw [hset]
    exact fun t ht => List.mem_or_eq_of_mem_set ht
  refine ⟨(after_rate l call).trans h.rate_eq, (after_burst l call).trans h.burst_eq, ?_, ?_, ?_, ?_,
    ?_⟩
  · rw [after_length]
    exact h.nonempty
  · rw [hcaps]
    exact h.caps
  · intro t ht
    rcases hmem t ht with ht | rfl
    · exact h.cap_pos t ht
    · rw [hvalid.cap_eq]
      exact h.cap_pos s (List.mem_of_getElem? hs)
  · intro t ht
    rcases hmem t ht with ht | rfl
    · exact h.size_le t ht
    · rw [hvalid.cap_eq]
      exact hvalid.size_le
  · intro place b hb
    -- the served bucket spends what it had, the others are as they were or gone
    by_cases hplace : place = l.placeOf call
    · rw [hplace, (bucket?_after_self h.nonempty call).2, Option.some.injEq] at hb
      obtain ⟨hnonneg, hle⟩ := h.served_tokens call
      rw [← hb]
      refine ⟨tokens_spend_nonneg hnonneg, le_trans ?_ hle⟩
      have hspent := tokens_spend l.rate (l.served call)
      split at hspent
      · linarith
      · linarith
    · rcases bucket?_after_of_ne h.nonempty hplace with heq | ⟨hnone, -⟩
      · exact h.tokens place b (heq ▸ hb)
      · rw [hnone] at hb
        cases hb

/-- **Every run keeps the bounds.** -/
theorem Bounded.run (h : l.Bounded c) (calls : List (Call κ)) :
    (calls.foldl Limiter.after l).Bounded c := by
  induction calls generalizing l with
  | nil => exact h
  | cons call calls ih => exact ih (h.after call)

/-- The shards together hold at most `max_keys` buckets. -/
theorem Bounded.total_le (h : l.Bounded c) :
    (l.shards.map fun s => s.buckets.size).sum ≤ c.maxKeys := by
  rw [← h.caps]
  exact List.sum_le_sum h.size_le

/-- The clock of a bucket never goes back while the bucket stays. -/
theorem Bounded.last_le (h : l.Bounded c) (call : Call κ) {place : Place} {b b' : Bucket}
    (hb : l.bucket? place = some b) (hb' : (l.after call).bucket? place = some b') :
    b.last ≤ b'.last := by
  by_cases hplace : place = l.placeOf call
  · rw [hplace] at hb hb'
    rw [(bucket?_after_self h.nonempty call).2, Option.some.injEq] at hb'
    rw [← hb', spend_last, served, hb]
    exact le_max_left _ _
  · rcases bucket?_after_of_ne h.nonempty hplace with heq | ⟨hnone, -⟩
    · rw [heq, hb, Option.some.injEq] at hb'
      rw [hb']
    · rw [hnone] at hb'
      cases hb'

/-! ### Waits -/

/-- A refused call took nothing: its bucket was there, and is only refilled. -/
theorem Bounded.refused (h : l.Bounded c) (hper : c.per ≤ durationMax) {call : Call κ} {wait : ℚ}
    (hrefused : (l.take call.1 call.2).1 = .error wait) :
    ∃ b, l.bucket? (l.placeOf call) = some b ∧
      (l.after call).bucket? (l.placeOf call) = some (refill c.rate c.burst b call.2) ∧
      (refill c.rate c.burst b call.2).tokens < 1 ∧
      wait = (1 - (refill c.rate c.burst b call.2).tokens) / c.rate := by
  obtain ⟨hanswer, hkept⟩ := bucket?_after_self h.nonempty call
  rw [hrefused] at hanswer
  have hempty : ¬ 1 ≤ (l.served call).tokens := by
    intro hone
    rw [spend, if_pos hone] at hanswer
    cases hanswer
  rw [spend, if_neg hempty] at hanswer hkept
  obtain ⟨hnonneg, -⟩ := h.served_tokens call
  -- a period is a `Duration`, so no wait is too long for one
  have hfits : (1 - (l.served call).tokens) / l.rate < 2 ^ 64 := by
    have hmax : durationMax < 2 ^ 64 := by norm_num [durationMax]
    have hone : (1 : ℚ) ≤ c.limit := by exact_mod_cast c.one_le_limit
    have hperiod : c.per / c.limit ≤ c.per := div_le_self c.per_pos.le hone
    calc (1 - (l.served call).tokens) / l.rate ≤ 1 / l.rate := by
          apply div_le_div_of_nonneg_right _ (h.rate_eq ▸ c.rate_pos.le)
          linarith
      _ = c.per / c.limit := by rw [h.rate_eq, Config.rate, one_div_div]
      _ ≤ durationMax := hperiod.trans hper
      _ < 2 ^ 64 := hmax
  cases hfound : l.bucket? (l.placeOf call) with
  | none =>
    -- a new bucket is full
    have hfull : (l.served call).tokens = c.burst := by
      rw [served, hfound, refilled, tokens_refill, Option.getD_none, Bucket.level_new, h.burst_eq]
    have hburst : (1 : ℚ) ≤ c.burst := by exact_mod_cast c.one_le_burst
    exact (hempty (hfull ▸ hburst)).elim
  | some b =>
    have hserved : l.served call = refill c.rate c.burst b call.2 := by
      rw [served, hfound, refilled, Option.getD_some, h.rate_eq, h.burst_eq]
    rw [hserved] at hempty hkept hanswer hfits
    refine ⟨b, rfl, hkept, not_le.mp hempty, ?_⟩
    rw [h.rate_eq] at hanswer hfits
    rw [durationOfSecs, if_pos hfits] at hanswer
    exact Except.error.inj hanswer

/-- A part of a run in which no call is served by the bucket at a place. -/
def Idle (l : Limiter κ) (place : Place) (more : List (Call κ)) : Prop :=
  ∀ visit ∈ visits Limiter.after l more, visit.1.placeOf visit.2 ≠ place

/-- A bucket that is idle and stays is left alone. -/
theorem Bounded.bucket?_idle (h : l.Bounded c) {place : Place} {more : List (Call κ)}
    (hidle : l.Idle place more) {b : Bucket}
    (hb : (more.foldl Limiter.after l).bucket? place = some b) : l.bucket? place = some b := by
  induction more generalizing l with
  | nil => exact hb
  | cons call more ih =>
    have hrest := ih (h.after call) (fun visit hvisit => hidle visit (List.mem_cons_of_mem _ hvisit)) hb
    have hne : place ≠ l.placeOf call := (hidle (l, call) List.mem_cons_self).symm
    rcases bucket?_after_of_ne h.nonempty hne with heq | ⟨hnone, -⟩
    · exact heq ▸ hrest
    · rw [hnone] at hrest
      cases hrest

end Limiter

/-- After the wait there is a token, unless the call came with a clock that is behind the
    bucket's: the wait is counted from the later of the two. -/
theorem one_le_level_iff {c : Config} {b : Bucket} {now wait : ℚ}
    (hempty : (refill c.rate c.burst b now).tokens < 1)
    (hwait : wait = (1 - (refill c.rate c.burst b now).tokens) / c.rate) :
    1 ≤ (refill c.rate c.burst b now).level c.rate c.burst (now + wait) ↔ b.last ≤ now := by
  generalize hkept : refill c.rate c.burst b now = kept at hempty hwait
  have hlast : kept.last = max b.last now := by rw [← hkept, refill]
  have hburst : (1 : ℚ) ≤ c.burst := by exact_mod_cast c.one_le_burst
  have hrate : wait * c.rate = 1 - kept.tokens := by
    rw [hwait, div_mul_cancel₀ _ c.rate_pos.ne']
  have hpos : 0 < wait := by
    rw [hwait]
    exact div_pos (by linarith) c.rate_pos
  rw [Bucket.level, le_min_iff]
  constructor
  · rintro ⟨hone, -⟩
    by_contra hbehind
    have hclock : kept.last = b.last := by rw [hlast, max_eq_left (not_le.mp hbehind).le]
    -- less than the wait has passed on the bucket's clock
    have hshort : saturatingSince (now + wait) kept.last < wait := by
      rw [hclock]
      exact max_lt hpos (by linarith [not_le.mp hbehind])
    have hless := mul_lt_mul_of_pos_right hshort c.rate_pos
    linarith
  · intro hle
    have hclock : kept.last = now := by rw [hlast, max_eq_right hle]
    have hpassed : saturatingSince (now + wait) kept.last = wait := by
      rw [hclock, saturatingSince, add_sub_cancel_left, max_eq_right hpos.le]
    rw [hpassed, hrate]
    exact ⟨by linarith, hburst⟩

/-- A call is admitted if its bucket holds a token by then. -/
theorem Limiter.Bounded.admits_iff {κ : Type} {c : Config} {l : Limiter κ} (h : l.Bounded c)
    {call : Limiter.Call κ} {b : Bucket} (hb : l.bucket? (l.placeOf call) = some b) :
    l.admits call = true ↔ 1 ≤ b.level c.rate c.burst call.2 := by
  have hserved : (l.served call).tokens = b.level c.rate c.burst call.2 := by
    rw [Limiter.served, hb, refilled, tokens_refill, Option.getD_some, h.rate_eq, h.burst_eq]
  rw [Limiter.admits, (Limiter.bucket?_after_self h.nonempty call).1, ← hserved, spend]
  split
  · exact iff_of_true rfl ‹_›
  · exact iff_of_false (fun hok => by cases hok) ‹_›

/-- **The table in every run**, with calls in any order of time: the caps add up, no shard and no
bucket is too full, and no bucket's clock goes back. A refused call takes nothing, and a call after
the wait on the same bucket is admitted exactly when the clock of the refused call was not behind
the clock of the bucket. -/
theorem table_invariant {κ : Type} (c : Config) (hper : c.per ≤ durationMax) (hasher : κ → UInt64)
    (clock : ℕ → ℚ) (calls : List (Limiter.Call κ)) :
    let start := Limiter.ofConfig c hasher clock
    let l := calls.foldl Limiter.after start
    ((start.shards.map State.cap).sum = c.maxKeys ∧ ∀ s ∈ start.shards, 1 ≤ s.cap) ∧
    ((l.shards.map State.cap).sum = c.maxKeys ∧ (∀ s ∈ l.shards, 1 ≤ s.cap) ∧
      (∀ s ∈ l.shards, s.buckets.size ≤ s.cap) ∧
      (l.shards.map fun s => s.buckets.size).sum ≤ c.maxKeys) ∧
    (∀ place b, l.bucket? place = some b → 0 ≤ b.tokens ∧ b.tokens ≤ c.burst) ∧
    (∀ call place b b', l.bucket? place = some b → (l.after call).bucket? place = some b' →
      b.last ≤ b'.last) ∧
    ∀ call wait, (l.take call.1 call.2).1 = .error wait →
      ∃ b, l.bucket? (l.placeOf call) = some b ∧
        (l.after call).bucket? (l.placeOf call) = some (refill c.rate c.burst b call.2) ∧
        ∀ more, (l.after call).Idle (l.placeOf call) more →
          let later := more.foldl Limiter.after (l.after call)
          (later.bucket? (l.placeOf call)).isSome = true →
          ∀ key, later.placeOf (key, call.2 + wait) = l.placeOf call →
            (later.admits (key, call.2 + wait) = true ↔ b.last ≤ call.2) := by
  intro start l
  have hstart : start.Bounded c := Limiter.bounded_ofConfig c hasher clock
  have hl : l.Bounded c := hstart.run calls
  refine ⟨⟨hstart.caps, hstart.cap_pos⟩, ⟨hl.caps, hl.cap_pos, hl.size_le, hl.total_le⟩, hl.tokens,
    fun call place b b' hb hb' => hl.last_le call hb hb', fun call wait hrefused => ?_⟩
  -- a refused call leaves its bucket refilled, with less than one token
  obtain ⟨b, hfound, hkept, hempty, hwait⟩ := hl.refused hper hrefused
  refine ⟨b, hfound, hkept, ?_⟩
  intro more hidle later hstays key hplace
  -- while the bucket is idle and stays in the table, it is the same bucket
  obtain ⟨b', hb'⟩ := Option.isSome_iff_exists.mp hstays
  have hsame := (hl.after call).bucket?_idle hidle hb'
  rw [hkept, Option.some.injEq] at hsame
  rw [← hplace] at hb'
  rw [((hl.after call).run more).admits_iff hb', ← hsame]
  exact one_le_level_iff hempty hwait

/-- A call at 10 s, a refused call at 10.5 s, and a call half a second later. -/
theorem table_invariant_waited :
    ((([(0, 10)].foldl Limiter.after
      (Limiter.ofConfig tightConfig UInt64.ofNat fun _ => 0)).after (0, 21 / 2)).admits
        (0, 21 / 2 + 1 / 2)) = true := by
  obtain ⟨b, hfound, -, hlater⟩ := (table_invariant tightConfig (by norm_num [tightConfig, durationMax])
    UInt64.ofNat (fun _ => 0) [(0, 10)]).2.2.2.2 (0, 21 / 2) (1 / 2) (by decide +kernel)
  have hb : b = { tokens := 0, last := 10 } :=
    Option.some.inj (hfound.symm.trans (by decide +kernel))
  refine (hlater [] (fun visit hvisit => by cases hvisit) (by decide +kernel) 0
    (by decide +kernel)).mpr ?_
  rw [hb]
  norm_num

/-- The wait that is returned to a clock that lags is too short for it. -/
theorem not_admitted_after_wait :
    ¬ ∀ (c : Config) (hasher : ℕ → UInt64) (clock : ℕ → ℚ) (calls : List (Limiter.Call ℕ))
        (call : Limiter.Call ℕ) (wait : ℚ),
        let l := calls.foldl Limiter.after (Limiter.ofConfig c hasher clock)
        (l.take call.1 call.2).1 = .error wait →
        (l.after call).placeOf (call.1, call.2 + wait) = l.placeOf call →
        (l.after call).admits (call.1, call.2 + wait) = true := by
  intro h
  have hadmits := h tightConfig UInt64.ofNat (fun _ => 0) [(0, 10)] (0, 5) 1 (by decide +kernel)
    (by decide +kernel)
  revert hadmits
  decide +kernel

end OasRs.RateLimit
