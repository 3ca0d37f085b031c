import OasRs.Lib.Table
import OasRs.Lib.Window
import Mathlib.Data.Rat.Defs
import Mathlib.Algebra.Order.Field.Rat
import Mathlib.Tactic.NormNum

/-!
# The Rate Limiter

A model of `src/rate_limit.rs`: token buckets in a sharded, bounded key table
with a throttled sweep and one overflow bucket per shard.

Token arithmetic is over exact rationals, and an `Instant` is the number of
seconds since some epoch, so `as_secs_f64` is the identity here.

## Overview

- `Config`: what the builder (`new`, `burst`, `max_keys`) can produce
- `State`, `Limiter`: one shard, and the limiter with all of them
- `Limiter.take`: one request
- `buildShards`: the shards a configuration starts with
-/

namespace OasRs.RateLimit

open OasRs.Lib

/-! ## Configuration -/

/-- `DEFAULT_MAX_KEYS` -/
def defaultMaxKeys : ℕ := 10000

/-- A configuration of `RateLimit`. The fields that the builder asserts to be
    positive carry the proof. -/
structure Config where
  /-- requests per `per` -/
  limit : ℕ
  /-- the period, in seconds -/
  per : ℚ
  burst : ℕ
  maxKeys : ℕ
  one_le_limit : 1 ≤ limit
  per_pos : 0 < per
  one_le_burst : 1 ≤ burst
  one_le_maxKeys : 1 ≤ maxKeys

namespace Config

/-- `RateLimit::new`; `none` is the panic on a zero limit or period. -/
def new (limit : ℕ) (per : ℚ) : Option Config :=
  if h : 1 ≤ limit ∧ 0 < per then
    some
      { limit, per, burst := limit, maxKeys := defaultMaxKeys
        one_le_limit := h.1
        per_pos := h.2
        one_le_burst := h.1
        one_le_maxKeys := by decide }
  else none

/-- `RateLimit::burst`; `none` is the panic on a zero burst. -/
def withBurst (c : Config) (burst : ℕ) : Option Config :=
  if h : 1 ≤ burst then some { c with burst, one_le_burst := h } else none

/-- `RateLimit::max_keys`; `none` is the panic on zero keys. -/
def withMaxKeys (c : Config) (maxKeys : ℕ) : Option Config :=
  if h : 1 ≤ maxKeys then some { c with maxKeys, one_le_maxKeys := h } else none

/-- Tokens added per second. `edit` keeps the rate of `new`: it depends on the
    limit, not on the burst. -/
def rate (c : Config) : ℚ := c.limit / c.per

theorem rate_pos (c : Config) : 0 < c.rate :=
  div_pos (by exact_mod_cast c.one_le_limit) c.per_pos

theorem burst_pos (c : Config) : (0 : ℚ) < c.burst := by
  exact_mod_cast c.one_le_burst

end Config

/-! ## Buckets and shards -/

/-- `Bucket` -/
structure Bucket where
  tokens : ℚ
  last : ℚ
  deriving DecidableEq, Repr

/-- `State`: one shard of the key table. -/
structure State where
  /-- keyed by the 64-bit hash of the key -/
  buckets : Table UInt64 Bucket
  overflow : Bucket
  /-- when idle buckets were last swept out of a full table -/
  lastSweep : ℚ
  /-- the most buckets this shard keeps -/
  cap : ℕ

/-- `Limiter`, for keys of type `κ`. -/
structure Limiter (κ : Type) where
  rate : ℚ
  burst : ℚ
  maxKeys : ℕ
  hasher : κ → UInt64
  shards : List State

/-- `Instant::saturating_duration_since` -/
def saturatingSince (now earlier : ℚ) : ℚ := max 0 (now - earlier)

/-- `Duration::MAX` -/
def durationMax : ℚ := 2 ^ 64 - 1 + 999999999 / 1000000000

/-- `Duration::try_from_secs_f64(..).unwrap_or(Duration::MAX)` -/
def durationOfSecs (secs : ℚ) : ℚ := if secs < 2 ^ 64 then secs else durationMax

/-! ## `build_shards` -/

/-- `SHARD_THRESHOLD` -/
def shardThreshold : ℕ := 1024

/-- `SHARDS` -/
def shardCount : ℕ := 16

/-- How many shards a table of `maxKeys` keys is split into. -/
def countOf (maxKeys : ℕ) : ℕ := if shardThreshold ≤ maxKeys then shardCount else 1

/-- `build_shards`. Every shard reads the clock twice; `clock` gives the readings. -/
def buildShards (maxKeys : ℕ) (burst : ℚ) (clock : ℕ → ℚ) : List State :=
  let count := countOf maxKeys
  let base := maxKeys / count
  let extra := maxKeys % count
  (List.range count).map fun index =>
    { buckets := ∅
      overflow := { tokens := burst, last := clock (2 * index) }
      lastSweep := clock (2 * index + 1)
      cap := base + if index < extra then 1 else 0 }

/-- The limiter of a configuration. -/
def Limiter.ofConfig {κ : Type} (c : Config) (hasher : κ → UInt64) (clock : ℕ → ℚ) :
    Limiter κ where
  rate := c.rate
  burst := c.burst
  maxKeys := c.maxKeys
  hasher := hasher
  shards := buildShards c.maxKeys c.burst clock

/-! ## `Limiter::refill` and `Limiter::take` -/

section Shard

variable (rate burst : ℚ)

/-- `Limiter::refill` -/
def refill (bucket : Bucket) (now : ℚ) : Bucket :=
  let elapsed := saturatingSince now bucket.last
  { tokens := min (bucket.tokens + elapsed * rate) burst
    last := max bucket.last now }

/-- A bucket that would be full again carries no information. -/
def Bucket.informative (now : ℚ) (bucket : Bucket) : Bool :=
  let elapsed := saturatingSince now bucket.last
  decide (bucket.tokens + elapsed * rate < burst)

/-- The sweep of a full table: at most once per token interval, and at least a
    second apart. -/
def State.sweep (state : State) (now : ℚ) : State :=
  let interval := max (1 / rate) 1
  if interval ≤ saturatingSince now state.lastSweep then
    { state with
      lastSweep := now
      buckets := state.buckets.retain fun _ bucket => bucket.informative rate burst now }
  else state

/-- The shard a request for `id` finds after the sweep (if one is due). -/
def State.swept (state : State) (id : UInt64) (now : ℚ) : State :=
  let known := (AList.lookup id state.buckets).isSome
  if !known && state.cap ≤ state.buckets.size then state.sweep rate burst now else state

/-- Whether a request for `id` is charged to the overflow bucket. -/
def State.overflows (state : State) (id : UInt64) (now : ℚ) : Bool :=
  let known := (AList.lookup id state.buckets).isSome
  let state := state.swept rate burst id now
  !known && decide (state.cap ≤ state.buckets.size)

/-- Take a token from a refilled bucket, or tell how long until there is one. -/
def spend (bucket : Bucket) : Except ℚ Unit × Bucket :=
  if 1 ≤ bucket.tokens then (.ok (), { bucket with tokens := bucket.tokens - 1 })
  else (.error (durationOfSecs ((1 - bucket.tokens) / rate)), bucket)

/-- `Limiter::take` under the lock of one shard. -/
def State.take (state : State) (id : UInt64) (now : ℚ) : Except ℚ Unit × State :=
  let overflow := state.overflows rate burst id now
  let state := state.swept rate burst id now
  let bucket :=
    if overflow then state.overflow
    else (AList.lookup id state.buckets).getD { tokens := burst, last := now }
  let (outcome, bucket) := spend rate (refill rate burst bucket now)
  if overflow then (outcome, { state with overflow := bucket })
  else (outcome, { state with buckets := AList.insert id bucket state.buckets })

end Shard

namespace Limiter

variable {κ : Type}

/-- The shard of a key. -/
def shardOf (l : Limiter κ) (key : κ) : ℕ := (l.hasher key).toNat % l.shards.length

/-- `Limiter::take` -/
def take (l : Limiter κ) (key : κ) (now : ℚ) : Except ℚ Unit × Limiter κ :=
  match l.shards[l.shardOf key]? with
  | some state =>
    let (outcome, state) := state.take l.rate l.burst (l.hasher key) now
    (outcome, { l with shards := l.shards.set (l.shardOf key) state })
  | none => (.error 0, l)  -- unreachable: there is at least one shard

/-- A call of `take`: the key and the clock reading. -/
abbrev Call (κ : Type) : Type := κ × ℚ

/-- The limiter after a call. -/
def after (l : Limiter κ) (call : Call κ) : Limiter κ := (l.take call.1 call.2).2

/-- Whether a call is let through. -/
def admits (l : Limiter κ) (call : Call κ) : Bool := (l.take call.1 call.2).1.isOk

/-- Whether a call is charged to the overflow bucket of its shard. -/
def overflows (l : Limiter κ) (call : Call κ) : Bool :=
  match l.shards[l.shardOf call.1]? with
  | some state => state.overflows l.rate l.burst (l.hasher call.1) call.2
  | none => false

/-- The number of calls of a run that are let through in the window `[a, b]`, among
    those whose key is selected by `which`. -/
def admitted (l : Limiter κ) (calls : List (Call κ)) (a b : ℚ) (which : κ → Bool) : ℕ :=
  Potential.chargedIn Prod.snd (fun l call => which call.1 && l.admits call) a b
    (visits after l calls)

/-- The clock readings of a run never decrease per shard, in the order the shard's
    lock is taken. -/
def InOrder (l : Limiter κ) (calls : List (Call κ)) : Prop :=
  ∀ i, (calls.filter fun call => l.shardOf call.1 == i).Pairwise fun x y => x.2 ≤ y.2

end Limiter

end OasRs.RateLimit
