import Gyt.Errors
import Gyt.Foundation.Table

/-!
# Rate limits

The token buckets of `net/rate_limit.rs`: one for every address and one for every actor, with a
request charged to both.  Times are in nanoseconds, tokens in thousandths.

A bucket that was not used for five minutes is dropped, and the next request of its key finds a full
one.  `bounded_iff` says that this keeps the promise of a token bucket, at most
`capacity + refill * w` requests in any `w` seconds, exactly if five minutes refill an empty bucket.

The multiplication in `take` wraps around, as it does in a release build.
-/

namespace Gyt.RateLimit

open List Option Nat Table

/-- The address of a client. -/
inductive IpAddr where
  | v4 (bits : BitVec 32)
  | v6 (bits : BitVec 128)
  deriving DecidableEq, Repr

/-- What a decision is made for. -/
inductive Key where
  | ip (addr : IpAddr)
  | actor (name : Str)
  deriving DecidableEq, Repr

/-- The size of a bucket, and the tokens that it gains in a second. -/
structure LimitConfig where
  capacity : UInt32
  refillPerSec : UInt32
  deriving DecidableEq, Repr

/-- The default for addresses, `DEFAULT_IP`. -/
def LimitConfig.defaultIp : LimitConfig := ⟨60, 10⟩

/-- The default for actors, `DEFAULT_ACTOR`. -/
def LimitConfig.defaultActor : LimitConfig := ⟨600, 100⟩

/-- The tokens of a full bucket, in thousandths. -/
def LimitConfig.cap (cfg : LimitConfig) : ℕ := cfg.capacity.toNat * 1000

structure Bucket where
  millitokens : ℕ
  lastRefill : ℕ
  lastSeen : ℕ
  deriving DecidableEq, Repr

namespace Bucket

/-- The bucket of a new key. -/
def fresh (cfg : LimitConfig) (now : ℕ) : Bucket := ⟨cfg.cap, now, now⟩

/-- The milliseconds since the last refill, as a number of 64 bits. -/
def elapsedMs (b : Bucket) (now : ℕ) : ℕ := (now - b.lastRefill) / 10 ^ 6 % 2 ^ 64

/-- The bucket with what it gained since the last refill. -/
def refill (cfg : LimitConfig) (now : ℕ) (b : Bucket) : Bucket :=
  if 0 < b.elapsedMs now then
    let added := b.elapsedMs now * cfg.refillPerSec.toNat % 2 ^ 64
    ⟨min (min (b.millitokens + added) (2 ^ 64 - 1)) cfg.cap, now, now⟩
  else { b with lastSeen := now }

/-- Taking a token, if there is one. -/
def charge (b : Bucket) : Bool × Bucket :=
  if 1000 ≤ b.millitokens then (true, { b with millitokens := b.millitokens - 1000 })
  else (false, b)

end Bucket

abbrev Buckets := Table Key Bucket

/-- The maximum number of buckets, `MAX_RATE_LIMIT_ENTRIES`. -/
def maxRateLimitEntries : ℕ := 65536

/-- Taking a token from the bucket of a key.  A new key is refused if there are too many buckets. -/
def take (map : Buckets) (key : Key) (cfg : LimitConfig) (now : ℕ) : Bool × Buckets :=
  if (map.get? key).isNone && maxRateLimitEntries ≤ map.size then (false, map)
  else
    let entry := ((map.get? key).getD (.fresh cfg now)).refill cfg now
    (entry.charge.1, map.insert key entry.charge.2)

structure RateLimiter where
  ipCfg : LimitConfig
  actorCfg : LimitConfig
  deriving DecidableEq, Repr

/-- Taking a token for the key of one side of a request, unless that side is disabled. -/
def takeSide {α : Type} (cfg : LimitConfig) (key : α → Key) (who : Option α) (now : ℕ)
    (map : Buckets) : Bool × Buckets :=
  if cfg.capacity = 0 then (true, map)
  else
    match who with
    | some a => take map (key a) cfg now
    | none => (true, map)

namespace RateLimiter

/-- Deciding about a request: both sides are charged, whatever the other one says. -/
def allow (limiter : RateLimiter) (ip : Option IpAddr) (actor : Option Str) (now : ℕ)
    (map : Buckets) : Bool × Buckets :=
  let ipSide := takeSide limiter.ipCfg .ip ip now map
  let actorSide := takeSide limiter.actorCfg .actor actor now ipSide.2
  (ipSide.1 && actorSide.1, actorSide.2)

/-- Dropping the buckets that were not used for some time. -/
def gcIdle (maxIdle now : ℕ) (map : Buckets) : Buckets :=
  map.retain fun _ b => now - b.lastSeen < maxIdle

def config (limiter : RateLimiter) : Key → LimitConfig
  | .ip _ => limiter.ipCfg
  | .actor _ => limiter.actorCfg

end RateLimiter

/-! ## Runs -/

inductive Call where
  | allow (ip : Option IpAddr) (actor : Option Str)
  | gcIdle
  deriving DecidableEq, Repr

/-- Five minutes, the time after which the server drops an idle bucket. -/
def fiveMinutes : ℕ := 300 * 10 ^ 9

def Call.charges (limiter : RateLimiter) (key : Key) : Call → Bool
  | .allow ip actor =>
    match key with
    | .ip addr => limiter.ipCfg.capacity ≠ 0 && ip = some addr
    | .actor name => limiter.actorCfg.capacity ≠ 0 && actor = some name
  | .gcIdle => false

def step (limiter : RateLimiter) (map : Buckets) (now : ℕ) : Call → Bool × Buckets
  | .allow ip actor => limiter.allow ip actor now map
  | .gcIdle => (false, RateLimiter.gcIdle fiveMinutes now map)

def after (limiter : RateLimiter) (map : Buckets) (calls : List (ℕ × Call)) : Buckets :=
  calls.foldl (fun map c => (step limiter map c.1 c.2).2) map

/-- The number of requests that are charged to a key and accepted between `a` and `a + w`. -/
def accepted (limiter : RateLimiter) (key : Key) (a w : ℕ) : Buckets → List (ℕ × Call) → ℕ
  | _, [] => 0
  | map, (now, call) :: calls =>
    (if call.charges limiter key && (step limiter map now call).1 && a ≤ now && now ≤ a + w then 1
      else 0) +
      accepted limiter key a w (step limiter map now call).2 calls

/-- The promise of the limits to a key: in every window, of length `w` in nanoseconds, of every
sequence of calls in the order of time, at most `capacity + refill * w` requests are accepted, with
`w` rounded up to seconds. -/
def Bounded (limiter : RateLimiter) (key : Key) : Prop :=
  ∀ calls : List (ℕ × Call), (calls.map Prod.fst).Pairwise (· ≤ ·) → ∀ a w : ℕ,
    accepted limiter key a w .empty calls ≤ (limiter.config key).capacity.toNat +
      (limiter.config key).refillPerSec.toNat * (w ⌈/⌉ 10 ^ 9)

/-! ## What one call does to one bucket -/

section Calls

variable {limiter : RateLimiter} {map : Buckets} {key key' : Key} {cfg : LimitConfig} {now : ℕ}

/-- A bucket after a request of its key, if the key has one. -/
def charged (cfg : LimitConfig) (now : ℕ) (b : Option Bucket) : Bool × Bucket :=
  ((b.getD (.fresh cfg now)).refill cfg now).charge

/-- Taking a token leaves the other buckets. -/
lemma get?_take_of_ne (h : key' ≠ key) : (take map key cfg now).2.get? key' = map.get? key' := by
  unfold take
  split_ifs
  · rfl
  · exact get?_insert_of_ne h

/-- A key is refused for want of room, or its bucket is charged. -/
lemma take_cases (map : Buckets) (key : Key) (cfg : LimitConfig) (now : ℕ) :
    (map.get? key = none ∧ (take map key cfg now).1 = false ∧
        (take map key cfg now).2.get? key = none) ∨
      (take map key cfg now).1 = (charged cfg now (map.get? key)).1 ∧
        (take map key cfg now).2.get? key = some (charged cfg now (map.get? key)).2 := by
  unfold take
  split_ifs with hfull
  · have hnone : map.get? key = none := by
      rw [Bool.and_eq_true, isNone_iff_eq_none] at hfull
      exact hfull.1
    exact .inl ⟨hnone, rfl, hnone⟩
  · exact .inr ⟨rfl, get?_insert_self⟩

/-- A side that is not charged to a key leaves its bucket. -/
lemma get?_takeSide_of_ne {α : Type} {f : α → Key} {who : Option α}
    (h : cfg.capacity ≠ 0 → ∀ a, who = some a → key ≠ f a) :
    (takeSide cfg f who now map).2.get? key = map.get? key := by
  unfold takeSide
  split_ifs with hzero
  · rfl
  · cases who with
    | none => rfl
    | some a => exact get?_take_of_ne (h hzero a rfl)

/-- Addresses and actors do not share buckets. -/
lemma get?_actorSide (who : Option Str) (addr : IpAddr) :
    (takeSide cfg .actor who now map).2.get? (.ip addr) = map.get? (.ip addr) :=
  get?_takeSide_of_ne fun _ _ _ => Key.noConfusion

lemma get?_ipSide (who : Option IpAddr) (name : Str) :
    (takeSide cfg .ip who now map).2.get? (.actor name) = map.get? (.actor name) :=
  get?_takeSide_of_ne fun _ _ _ => Key.noConfusion

/-- A call that is not charged to a key leaves its bucket, unless it drops buckets. -/
lemma get?_allow_of_not_charges {ip : Option IpAddr} {actor : Option Str}
    (h : (Call.allow ip actor).charges limiter key = false) :
    (limiter.allow ip actor now map).2.get? key = map.get? key := by
  unfold RateLimiter.allow
  dsimp only
  cases key with
  | ip addr =>
    have hip : limiter.ipCfg.capacity ≠ 0 → ∀ a, ip = some a → Key.ip addr ≠ .ip a := by
      rintro hcap a rfl heq
      cases heq
      simp [Call.charges, hcap] at h
    rw [get?_actorSide, get?_takeSide_of_ne hip]
  | actor name =>
    have hactor : limiter.actorCfg.capacity ≠ 0 → ∀ a, actor = some a →
        Key.actor name ≠ .actor a := by
      rintro hcap a rfl heq
      cases heq
      simp [Call.charges, hcap] at h
    rw [get?_takeSide_of_ne hactor, get?_ipSide]

/-- A request that is charged to a key takes a token from its bucket if it is accepted. -/
lemma allow_of_charges (map : Buckets) (now : ℕ) {ip : Option IpAddr} {actor : Option Str}
    (h : (Call.allow ip actor).charges limiter key = true) :
    ∃ map' : Buckets, map'.get? key = map.get? key ∧ (limiter.allow ip actor now map).2.get? key =
        (take map' key (limiter.config key) now).2.get? key ∧
      ((limiter.allow ip actor now map).1 = true →
        (take map' key (limiter.config key) now).1 = true) := by
  unfold RateLimiter.allow
  dsimp only
  cases key with
  | ip addr =>
    -- The bucket of the address is charged first.
    obtain ⟨hcap, rfl⟩ : limiter.ipCfg.capacity ≠ 0 ∧ ip = some addr := by
      simpa [Call.charges] using h
    have hside : takeSide limiter.ipCfg .ip (some addr) now map =
        take map (.ip addr) limiter.ipCfg now := by
      rw [takeSide, if_neg hcap]
    refine ⟨map, rfl, ?_, ?_⟩
    · rw [get?_actorSide, hside]
      rfl
    · rw [hside]
      intro haccepted
      exact (Bool.and_eq_true_iff.mp haccepted).1
  | actor name =>
    obtain ⟨hcap, rfl⟩ : limiter.actorCfg.capacity ≠ 0 ∧ actor = some name := by
      simpa [Call.charges] using h
    refine ⟨(takeSide limiter.ipCfg .ip ip now map).2, ?_, ?_, ?_⟩
    · exact get?_ipSide ip name
    · rw [takeSide, if_neg hcap]
      rfl
    · rw [takeSide, if_neg hcap]
      intro haccepted
      exact (Bool.and_eq_true_iff.mp haccepted).2

end Calls

/-! ## What the requests of a window have paid -/

/-- A time in nanoseconds, rounded up to milliseconds. -/
def ceilMs (d : ℕ) : ℕ := (d + 999999) / 10 ^ 6

/-- A time at which the next refill of a bucket starts to count.  It is within a millisecond before
the last use, and it is that of the last refill up to multiples of the time that a counter of
milliseconds with 64 bits can tell. -/
structure Bucket.CountsFrom (b : Bucket) (r : ℕ) : Prop where
  congr : ∃ q, r = b.lastRefill + q * (2 ^ 64 * 10 ^ 6)
  le_seen : r ≤ b.lastSeen
  seen_lt : b.lastSeen < r + 10 ^ 6

/-- A bucket after `acc` accepted requests since the time `a`: what they took and what is left comes
from a full bucket and the refills since `a`. -/
structure Spent (cfg : LimitConfig) (a acc : ℕ) (b : Bucket) : Prop where
  le_cap : b.millitokens ≤ cfg.cap
  refill_le : b.lastRefill ≤ b.lastSeen
  paid : acc = 0 ∨ a ≤ b.lastSeen ∧ ∃ r, b.CountsFrom r ∧
    acc * 1000 + b.millitokens ≤ cfg.cap + cfg.refillPerSec.toNat * ceilMs (r - a)

/-- The invariant for one key: without a bucket, the accepted requests since `a` were paid by
refills alone. -/
def Paid (cfg : LimitConfig) (a acc now : ℕ) : Option Bucket → Prop
  | none => acc * 1000 ≤ cfg.refillPerSec.toNat * ceilMs (now - a)
  | some b => b.lastSeen ≤ now ∧ Spent cfg a acc b

section Paid

variable {cfg : LimitConfig} {a acc acc' now t : ℕ} {b : Bucket} {entry : Option Bucket}

/-- A refill counts at most the milliseconds from any of these times on. -/
lemma Bucket.CountsFrom.elapsedMs_le {r : ℕ} (h : b.CountsFrom r) (ht : b.lastSeen ≤ t) :
    b.elapsedMs t ≤ (t - r) / 10 ^ 6 := by
  obtain ⟨q, hq⟩ := h.congr
  have hle := h.le_seen
  unfold Bucket.elapsedMs
  omega

/-- After a refill, the tokens of a bucket and those spent are still paid. -/
lemma Spent.refill (h : Spent cfg a acc b) (ht : b.lastSeen ≤ t) :
    (b.refill cfg t).lastSeen = t ∧ (b.refill cfg t).lastRefill ≤ t ∧
      (b.refill cfg t).millitokens ≤ cfg.cap ∧ ∃ r, (b.refill cfg t).CountsFrom r ∧
        acc * 1000 + (b.refill cfg t).millitokens ≤
          cfg.cap + cfg.refillPerSec.toNat * ceilMs (r - a) := by
  obtain ⟨hcap, hrefill, hpaid⟩ := h
  unfold Bucket.refill
  split_ifs with helapsed
  · refine ⟨rfl, le_rfl, min_le_right _ _, t, ⟨⟨0, by simp⟩, le_rfl, by simp⟩, ?_⟩
    rcases hpaid with rfl | ⟨ha, r, hr, hspent⟩
    · have hfull : min (min (b.millitokens + b.elapsedMs t * cfg.refillPerSec.toNat % 2 ^ 64)
          (2 ^ 64 - 1)) cfg.cap ≤ cfg.cap := min_le_right _ _
      dsimp only
      omega
    · -- The refill adds no more than the time since `r` gives.
      have hgain : b.elapsedMs t * cfg.refillPerSec.toNat % 2 ^ 64 ≤
          cfg.refillPerSec.toNat * b.elapsedMs t := by
        rw [mul_comm]
        exact mod_le _ _
      have htime : ceilMs (r - a) + b.elapsedMs t ≤ ceilMs (t - a) := by
        have hle := hr.elapsedMs_le ht
        have hseen := hr.le_seen
        have hlt := hr.seen_lt
        unfold ceilMs
        omega
      have hscaled := mul_le_mul_left cfg.refillPerSec.toNat htime
      rw [mul_add] at hscaled
      dsimp only
      omega
  · -- Within a millisecond nothing is added, and the refill still counts from before.
    have hzero : (t - b.lastRefill) / 10 ^ 6 % 2 ^ 64 = 0 := by
      unfold Bucket.elapsedMs at helapsed
      omega
    refine ⟨rfl, by dsimp only; omega, hcap,
      b.lastRefill + (t - b.lastRefill) / 10 ^ 6 / 2 ^ 64 * (2 ^ 64 * 10 ^ 6),
      ⟨⟨_, rfl⟩, by dsimp only; omega, by dsimp only; omega⟩, ?_⟩
    rcases hpaid with rfl | ⟨ha, r, hr, hspent⟩
    · dsimp only
      omega
    · have htime : ceilMs (r - a) ≤ ceilMs (b.lastRefill +
          (t - b.lastRefill) / 10 ^ 6 / 2 ^ 64 * (2 ^ 64 * 10 ^ 6) - a) := by
        obtain ⟨q, hq⟩ := hr.congr
        have hseen := hr.le_seen
        unfold ceilMs
        omega
      have hscaled := mul_le_mul_left cfg.refillPerSec.toNat htime
      dsimp only
      omega

/-- What a charge takes is what it counts. -/
lemma Bucket.charge_millitokens (b : Bucket) :
    b.charge.2.millitokens + (if b.charge.1 then 1000 else 0) = b.millitokens := by
  unfold charge
  by_cases h : 1000 ≤ b.millitokens
  · rw [if_pos h, if_pos rfl]
    exact Nat.sub_add_cancel h
  · rw [if_neg h, if_neg Bool.false_ne_true]
    exact add_zero _

lemma Bucket.charge_times (b : Bucket) :
    b.charge.2.lastRefill = b.lastRefill ∧ b.charge.2.lastSeen = b.lastSeen := by
  unfold charge
  split_ifs <;> exact ⟨rfl, rfl⟩

section

variable (h : Paid cfg a acc now entry) (hnow : now ≤ t)

include h hnow

/-- Time alone breaks no promise. -/
lemma Paid.mono : Paid cfg a acc t entry := by
  cases entry with
  | none =>
    have htime : ceilMs (now - a) ≤ ceilMs (t - a) := by
      unfold ceilMs
      omega
    exact le_trans h (mul_le_mul_left _ htime)
  | some b => exact ⟨h.1.trans hnow, h.2⟩

/-- The bucket that a request finds, which is full if there was none. -/
lemma Paid.found :
    (entry.getD (.fresh cfg t)).lastSeen ≤ t ∧ Spent cfg a acc (entry.getD (.fresh cfg t)) := by
  cases entry with
  | some b => exact ⟨h.1.trans hnow, h.2⟩
  | none =>
    refine ⟨le_rfl, le_rfl, le_rfl, ?_⟩
    have hpaid : acc * 1000 ≤ cfg.refillPerSec.toNat * ceilMs (t - a) := h.mono hnow
    by_cases ha : a ≤ t
    · refine .inr ⟨ha, t, ⟨⟨0, by simp [Bucket.fresh]⟩, le_rfl, by simp [Bucket.fresh]⟩, ?_⟩
      simp only [getD_none, Bucket.fresh]
      linarith
    · have hzero : ceilMs (t - a) = 0 := by
        unfold ceilMs
        omega
      rw [hzero, mul_zero] at hpaid
      exact .inl (by omega)

/-- A request in the window that is accepted is paid by the token it takes. -/
lemma Paid.charged (hacc : acc' = acc ∨ acc' = acc + 1 ∧ (charged cfg t entry).1 = true ∧ a ≤ t) :
    Paid cfg a acc' t (some (charged cfg t entry).2) := by
  obtain ⟨hseen, hspent⟩ := h.found hnow
  obtain ⟨hseen', hrefill', hcap', r, hr, hpaid⟩ := hspent.refill hseen
  unfold RateLimit.charged at hacc ⊢
  have htokens := Bucket.charge_millitokens ((entry.getD (.fresh cfg t)).refill cfg t)
  obtain ⟨hrefilled, hseen''⟩ := Bucket.charge_times ((entry.getD (.fresh cfg t)).refill cfg t)
  generalize (entry.getD (.fresh cfg t)).refill cfg t = b at *
  refine ⟨by omega, by omega, by omega, ?_⟩
  by_cases ha : a ≤ t
  · refine .inr ⟨by omega, r, ⟨?_, by rw [hseen'']; exact hr.le_seen,
      by rw [hseen'']; exact hr.seen_lt⟩, ?_⟩
    · rw [hrefilled]
      exact hr.congr
    · rcases hacc with rfl | ⟨rfl, hok, -⟩
      · omega
      · rw [if_pos hok] at htokens
        linarith
  · -- Before the window nothing is counted.
    left
    rcases hacc with rfl | ⟨-, -, ha'⟩
    · rcases hspent.paid with hzero | ⟨ha', -⟩
      · exact hzero
      · exact absurd (ha'.trans hseen) ha
    · exact absurd ha' ha

end

/-- If five minutes refill a bucket, one that was idle for so long can be dropped. -/
lemma Paid.gcIdle (hcfg : cfg.capacity.toNat ≤ 300 * cfg.refillPerSec.toNat)
    (h : Paid cfg a acc now entry) (hnow : now ≤ t) :
    Paid cfg a acc t (entry.filter fun b => t - b.lastSeen < fiveMinutes) := by
  cases entry with
  | none => exact h.mono hnow
  | some b =>
    obtain ⟨hseen, hspent⟩ := h
    by_cases hidle : t - b.lastSeen < fiveMinutes
    · rw [filter_some_pos (by simpa using hidle)]
      exact ⟨hseen.trans hnow, hspent⟩
    · rw [filter_some_neg (by simpa using hidle)]
      unfold fiveMinutes at hidle
      rcases hspent.paid with rfl | ⟨ha, r, hr, hpaid⟩
      · simp [Paid]
      · have htime : ceilMs (r - a) + 300000 ≤ ceilMs (t - a) := by
          have hle := hr.le_seen
          unfold ceilMs
          omega
        have hscaled := mul_le_mul_left cfg.refillPerSec.toNat htime
        rw [mul_add] at hscaled
        unfold LimitConfig.cap at hpaid
        simp only [Paid]
        linarith

/-- What was accepted is bounded by a full bucket and the refills. -/
lemma Paid.le (h : Paid cfg a acc now entry) :
    acc * 1000 ≤ cfg.cap + cfg.refillPerSec.toNat * ceilMs (now - a) := by
  cases entry with
  | none => exact h.trans (le_add_left _ _)
  | some b =>
    rcases h.2.paid with rfl | ⟨ha, r, hr, hpaid⟩
    · simp
    · have htime : ceilMs (r - a) ≤ ceilMs (now - a) := by
        have hle := hr.le_seen.trans h.1
        unfold ceilMs
        omega
      have hscaled := mul_le_mul_left cfg.refillPerSec.toNat htime
      linarith

end Paid

section Runs

variable {limiter : RateLimiter} {key : Key} {cfg : LimitConfig} {a w acc now t n : ℕ}
  {map map' map'' : Buckets} {calls : List (ℕ × Call)} (hconfig : limiter.config key = cfg)

section Paid

variable (hcfg : cfg.capacity.toNat ≤ 300 * cfg.refillPerSec.toNat)

include hconfig hcfg

/-- One call keeps the invariant. -/
theorem Paid.step (h : Paid cfg a acc now (map.get? key)) (hnow : now ≤ t) (call : Call) :
    Paid cfg a
      (acc + if call.charges limiter key && (step limiter map t call).1 && a ≤ t && t ≤ a + w then 1
        else 0) t ((step limiter map t call).2.get? key) := by
  subst hconfig
  cases call with
  | gcIdle =>
    rw [if_neg (by simp [Call.charges]), add_zero]
    change Paid _ a acc t ((map.retain fun _ b => t - b.lastSeen < fiveMinutes).get? key)
    rw [get?_retain]
    exact h.gcIdle hcfg hnow
  | allow ip actor =>
    cases hcharges : (Call.allow ip actor).charges limiter key with
    | false =>
      rw [if_neg (by simp), add_zero]
      change Paid _ a acc t ((limiter.allow ip actor t map).2.get? key)
      rw [get?_allow_of_not_charges hcharges]
      exact h.mono hnow
    | true =>
      obtain ⟨map', hentry, hafter, haccepted⟩ := allow_of_charges map t hcharges
      change Paid _ a _ t ((limiter.allow ip actor t map).2.get? key)
      rw [← hentry] at h
      rw [hafter]
      rcases take_cases map' key (limiter.config key) t with ⟨hnone, hdenied, hnone'⟩ | ⟨hok, hsome⟩
      · have hfalse : (limiter.allow ip actor t map).1 = false := by
          rw [Bool.eq_false_iff]
          intro hallowed
          rw [haccepted hallowed] at hdenied
          cases hdenied
        rw [if_neg (by simp [RateLimit.step, hfalse]), add_zero, hnone', ← hnone]
        exact h.mono hnow
      · rw [hsome]
        apply h.charged hnow
        split_ifs with hcount
        · simp only [Bool.true_and, Bool.and_eq_true, decide_eq_true_eq] at hcount
          exact .inr ⟨rfl, hok ▸ haccepted hcount.1.1, hcount.1.2⟩
        · exact .inl rfl

omit hconfig hcfg in
/-- After a window nothing is counted. -/
lemma accepted_eq_zero (h : ∀ c ∈ calls, a + w < c.1) :
    accepted limiter key a w map calls = 0 := by
  induction calls generalizing map with
  | nil => rfl
  | cons c calls ih =>
    obtain ⟨hc, hcalls⟩ := forall_mem_cons.mp h
    rw [accepted, ih hcalls, if_neg]
    simp [hc]

/-- The accepted requests of a window are bounded by a full bucket and the refills of the window. -/
theorem Paid.run (h : Paid cfg a acc now (map.get? key)) (hwindow : now ≤ a + w)
    (hnow : ∀ c ∈ calls, now ≤ c.1) (hsorted : (calls.map Prod.fst).Pairwise (· ≤ ·)) :
    (acc + accepted limiter key a w map calls) * 1000 ≤
      cfg.cap + cfg.refillPerSec.toNat * ceilMs w := by
  have htime : ∀ now ≤ a + w, ceilMs (now - a) ≤ ceilMs w := by
    intro now hnow
    unfold ceilMs
    omega
  induction calls generalizing map acc now with
  | nil => exact h.le.trans (Nat.add_le_add_left (Nat.mul_le_mul_left _ (htime now hwindow)) _)
  | cons c calls ih =>
    obtain ⟨t, call⟩ := c
    obtain ⟨hfirst, hrest⟩ := pairwise_cons.mp hsorted
    have hlater : ∀ c ∈ calls, t ≤ c.1 := fun c hc => hfirst _ (mem_map_of_mem hc)
    by_cases ht : t ≤ a + w
    · rw [accepted, ← add_assoc]
      exact ih (h.step hconfig hcfg (hnow _ mem_cons_self) call) ht hlater hrest
    · -- The rest of the calls is after the window.
      have hzero : accepted limiter key a w map ((t, call) :: calls) = 0 := by
        apply accepted_eq_zero
        intro c hc
        rcases mem_cons.mp hc with rfl | hc
        · exact not_le.mp ht
        · exact (not_le.mp ht).trans_le (hlater c hc)
      rw [hzero, add_zero]
      exact h.le.trans (Nat.add_le_add_left (Nat.mul_le_mul_left _ (htime now hwindow)) _)

lemma bounded_of_le : Bounded limiter key := by
  subst hconfig
  intro calls hsorted a w
  have hstart : Paid (limiter.config key) a 0 0 ((empty : Buckets).get? key) := by simp [Paid]
  have hrun := hstart.run (w := w) rfl hcfg (zero_le _) (fun c _ => zero_le _) hsorted
  have hsec : ceilMs w ≤ 1000 * (w ⌈/⌉ 10 ^ 9) := by
    rw [ceilDiv_eq_add_pred_div]
    unfold ceilMs
    omega
  have hscaled := mul_le_mul_left (limiter.config key).refillPerSec.toNat hsec
  rw [mul_left_comm] at hscaled
  unfold LimitConfig.cap at hrun
  rw [zero_add] at hrun
  linarith

end Paid

/-! ## Two bursts -/

def Key.request : Key → Call
  | .ip addr => .allow (some addr) none
  | .actor name => .allow none (some name)

def only (key : Key) (b : Bucket) : Buckets := ⟨[(key, b)], by simp⟩

lemma accepted_append {calls' : List (ℕ × Call)} :
    accepted limiter key a w map (calls ++ calls') = accepted limiter key a w map calls +
        accepted limiter key a w (after limiter map calls) calls' := by
  induction calls generalizing map with
  | nil => simp [accepted, after]
  | cons c calls ih =>
    rw [cons_append, accepted, accepted, ih, add_assoc]
    rfl

section Bursts

variable (hcap : cfg.capacity ≠ 0)

include hconfig hcap

lemma step_request : step limiter map t key.request = take map key cfg t := by
  subst hconfig
  cases key with
  | ip addr =>
    have hip : takeSide limiter.ipCfg .ip (some addr) t map =
        take map (.ip addr) limiter.ipCfg t := if_neg hcap
    have hactor : ∀ map, takeSide limiter.actorCfg .actor none t map = (true, map) := by
      intro map
      unfold takeSide
      split_ifs <;> rfl
    simp only [step, Key.request, RateLimiter.allow, hip, hactor, Bool.and_true]
    rfl
  | actor name =>
    have hip : takeSide limiter.ipCfg .ip none t map = (true, map) := by
      unfold takeSide
      split_ifs <;> rfl
    have hactor : takeSide limiter.actorCfg .actor (some name) t map =
        take map (.actor name) limiter.actorCfg t := if_neg hcap
    simp only [step, Key.request, RateLimiter.allow, hip, hactor, Bool.true_and]
    rfl

lemma charges_request : key.request.charges limiter key = true := by
  subst hconfig
  cases key <;> simpa [Call.charges, Key.request, RateLimiter.config] using hcap

omit hconfig hcap in
/-- A bucket with a token, refilled at this moment, pays for one request. -/
lemma take_only {m : ℕ} :
    take (only key ⟨m + 1000, t, t⟩) key cfg t = (true, only key ⟨m, t, t⟩) := by
  have hget : (only key ⟨m + 1000, t, t⟩).get? key = some ⟨m + 1000, t, t⟩ := lookup_cons_self
  have hrefill : Bucket.refill cfg t ⟨m + 1000, t, t⟩ = ⟨m + 1000, t, t⟩ := by
    simp [Bucket.refill, Bucket.elapsedMs]
  have hinsert : ∀ b, (only key ⟨m + 1000, t, t⟩).insert key b = only key b := by
    intro b
    simp [only, Table.insert]
  unfold take
  rw [hget, if_neg (by simp), getD_some, hrefill]
  dsimp only
  rw [hinsert]
  simp [Bucket.charge]

omit hconfig hcap in
/-- A full bucket pays for the first request of a key. -/
lemma take_empty {m : ℕ} (hcap : cfg.cap = m + 1000) :
    take .empty key cfg t = (true, only key ⟨m, t, t⟩) := by
  have hrefill : Bucket.refill cfg t (.fresh cfg t) = ⟨m + 1000, t, t⟩ := by
    simp [Bucket.refill, Bucket.elapsedMs, Bucket.fresh, hcap]
  unfold take
  rw [Table.get?_empty, if_neg (by simp [Table.size, Table.empty, maxRateLimitEntries]),
    getD_none, hrefill]
  simp [Bucket.charge, only, Table.insert, Table.empty]

/-- As many requests as are given, at one moment. -/
def burst (key : Key) (t n : ℕ) : List (ℕ × Call) := List.replicate n (t, key.request)

/-- A burst within the window, all of which is accepted. -/
def Spends (limiter : RateLimiter) (key : Key) (a w t n : ℕ) (map map' : Buckets) : Prop :=
  accepted limiter key a w map (burst key t n) = n ∧ after limiter map (burst key t n) = map'

variable (ha : a ≤ t) (hw : t ≤ a + w)

include ha hw

/-- One request that is accepted, and then others at the same moment. -/
lemma Spends.succ (hstep : step limiter map t key.request = (true, map'))
    (h : Spends limiter key a w t n map' map'') : Spends limiter key a w t (n + 1) map map'' := by
  unfold Spends burst at h ⊢
  rw [replicate_succ, accepted, hstep, charges_request hconfig hcap, h.1]
  refine ⟨?_, ?_⟩
  · rw [if_pos (by simp [ha, hw]), add_comm]
  · rw [after, foldl_cons, hstep]
    exact h.2

/-- A bucket pays for as many requests at one moment as it has tokens. -/
lemma spends_only (n : ℕ) :
    Spends limiter key a w t n (only key ⟨n * 1000, t, t⟩) (only key ⟨0, t, t⟩) := by
  induction n with
  | zero => exact ⟨rfl, by simp [after, burst]⟩
  | succ n ih =>
    refine ih.succ hconfig hcap ha hw ?_
    rw [step_request hconfig hcap, succ_mul, take_only]

/-- A key without a bucket can make as many requests at one moment as a bucket holds. -/
lemma spends_empty : Spends limiter key a w t cfg.capacity.toNat .empty (only key ⟨0, t, t⟩) := by
  obtain ⟨n, hn⟩ : ∃ n, cfg.capacity.toNat = n + 1 := by
    apply exists_eq_succ_of_ne_zero
    intro hzero
    exact hcap (UInt32.toNat_inj.mp hzero)
  have hfull : cfg.cap = n * 1000 + 1000 := by
    rw [LimitConfig.cap, hn, succ_mul]
  rw [hn]
  refine (spends_only hconfig hcap ha hw n).succ hconfig hcap ha hw ?_
  rw [step_request hconfig hcap, take_empty hfull]

end Bursts

/-- All requests of a full bucket, five minutes of rest until the bucket is dropped, and all
requests of a full bucket again. -/
def twoBursts (limiter : RateLimiter) (key : Key) : List (ℕ × Call) :=
  List.replicate (limiter.config key).capacity.toNat (0, key.request) ++
    ((fiveMinutes, .gcIdle) ::
      List.replicate (limiter.config key).capacity.toNat (fiveMinutes, key.request))

lemma pairwise_twoBursts (limiter : RateLimiter) (key : Key) :
    ((twoBursts limiter key).map Prod.fst).Pairwise (· ≤ ·) := by
  simp [twoBursts, pairwise_append, pairwise_replicate]

lemma accepted_twoBursts (hcap : (limiter.config key).capacity ≠ 0) :
    accepted limiter key 0 fiveMinutes .empty (twoBursts limiter key) =
      2 * (limiter.config key).capacity.toNat := by
  obtain ⟨hfirst, hafter⟩ := spends_empty (w := fiveMinutes) rfl hcap le_rfl (zero_le _)
  obtain ⟨hsecond, -⟩ := spends_empty (a := 0) (w := fiveMinutes) (t := fiveMinutes) rfl hcap
    (zero_le _) (le_add_left _ _)
  unfold burst at hfirst hafter hsecond
  have hdrop : step limiter (only key ⟨0, 0, 0⟩) fiveMinutes .gcIdle = (false, .empty) := by
    simp [step, RateLimiter.gcIdle, retain, only, empty]
  rw [twoBursts, accepted_append, hfirst, hafter, accepted, hdrop, hsecond,
    if_neg (by simp [Call.charges]), zero_add, two_mul]

/-- The limits keep their promise to a key exactly if five minutes refill its bucket. -/
theorem bounded_iff (limiter : RateLimiter) (key : Key)
    (hcap : 1 ≤ (limiter.config key).capacity.toNat) :
    Bounded limiter key ↔
      (limiter.config key).capacity.toNat ≤ 300 * (limiter.config key).refillPerSec.toNat := by
  constructor
  · intro h
    have hne : (limiter.config key).capacity ≠ 0 := by
      intro hzero
      rw [hzero] at hcap
      exact absurd hcap (by decide)
    have hbound := h _ (pairwise_twoBursts limiter key) 0 fiveMinutes
    have hsec : fiveMinutes ⌈/⌉ 10 ^ 9 = 300 := by
      rw [Nat.ceilDiv_eq_add_pred_div]
      rfl
    rw [accepted_twoBursts hne, hsec] at hbound
    omega
  · exact bounded_of_le rfl

def sampleKey : Key := .ip (.v4 0)

/-- A limit of three requests for an address that is never refilled. -/
def neverRefilled : RateLimiter := ⟨⟨3, 0⟩, .defaultActor⟩

/-- The limit of three requests is passed twice within five minutes. -/
theorem idle_bucket_refilled :
    accepted neverRefilled sampleKey 0 fiveMinutes .empty (twoBursts neverRefilled sampleKey) = 6 ∧
      ¬ Bounded neverRefilled sampleKey := by
  have haccepted : accepted neverRefilled sampleKey 0 fiveMinutes .empty
      (twoBursts neverRefilled sampleKey) = 6 := by decide +kernel
  refine ⟨haccepted, ?_⟩
  intro h
  have hbound := h _ (pairwise_twoBursts neverRefilled sampleKey) 0 fiveMinutes
  rw [haccepted] at hbound
  exact absurd hbound (by decide)

/-- The promise to an address under the default limits. -/
theorem bounded_iff_default :
    Bounded ⟨.defaultIp, .defaultActor⟩ sampleKey ↔ 60 ≤ 300 * 10 :=
  bounded_iff ⟨.defaultIp, .defaultActor⟩ sampleKey (by decide)

end Runs

end Gyt.RateLimit
