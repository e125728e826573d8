/-
The rate limiter (`rate_limiter.h`, `rate_limiter.cpp`). Each operation holds
the mutex throughout, so that it is one step; the readings of the steady
clock within it are its arguments. Times are in nanoseconds, rates and tokens
exact rationals.
-/
import Webserver.Bucket
import Webserver.Strings
import Webserver.Systems

namespace Webserver

open Cxx Systems

structure TokenBucket where
  tokens : ℚ
  lastRefill : Int

structure RateLimiter where
  enabled : Bool
  requestsPerSecond : ℚ
  burstCapacity : ℚ
  buckets : AList fun _ : Bytes => TokenBucket
  totalRequests : Nat
  blockedRequests : Nat
  lastCleanup : Int

/-- `duration_cast<seconds>(d).count()` -/
def wholeSeconds (d : Int) : Int := d.tdiv 1000000000

/-- `duration_cast<milliseconds>(d).count()` -/
def wholeMilliseconds (d : Int) : Int := d.tdiv 1000000

namespace RateLimiter

def cleanupIntervalSeconds : Int := 300

def bucketExpirySeconds : Int := 3600

/-- The constructor, at time `now`. -/
def make (requestsPerSecond burstCapacity : ℚ) (enabled : Bool) (now : Int) : RateLimiter where
  enabled := enabled
  requestsPerSecond := requestsPerSecond
  burstCapacity := burstCapacity
  buckets := ∅
  totalRequests := 0
  blockedRequests := 0
  lastCleanup := now

/-- The part of an address before its last colon. -/
def extractIpFromAddress (address : Bytes) : Bytes :=
  if 58 ∈ address then (address.rdropWhile (· ≠ 58)).dropLast else address

/-- `tokens_to_add` -/
def tokensToAdd (requestsPerSecond : ℚ) (lastRefill now : Int) : ℚ :=
  (wholeMilliseconds (now - lastRefill) : ℚ) / 1000 * requestsPerSecond

def refillBucket (l : RateLimiter) (bucket : TokenBucket) (now : Int) : TokenBucket where
  tokens := min l.burstCapacity
    (bucket.tokens + tokensToAdd l.requestsPerSecond bucket.lastRefill now)
  lastRefill := now

def isExpired (bucket : TokenBucket) (now : Int) : Bool :=
  bucketExpirySeconds ≤ wholeSeconds (now - bucket.lastRefill)

def cleanupExpiredBuckets (l : RateLimiter) (now : Int) : RateLimiter :=
  { l with
    buckets :=
      { entries := l.buckets.entries.filter fun e => !isExpired e.2 now
        nodupKeys := l.buckets.nodupKeys.sublist List.filter_sublist } }

/-- The first lines of `is_allowed`: `now` is read for the comparison with
`last_cleanup_`, `swept` by `cleanup_expired_buckets`. -/
def autoCleanup (l : RateLimiter) (now swept : Int) : RateLimiter :=
  if cleanupIntervalSeconds ≤ wholeSeconds (now - l.lastCleanup) then
    { l.cleanupExpiredBuckets swept with lastCleanup := now }
  else l

/-- `is_allowed`: a new bucket reads `created`, `refill_bucket` reads `refilled`. -/
def isAllowed (l : RateLimiter) (clientIp : Bytes) (now swept created refilled : Int) :
    RateLimiter × Bool :=
  if !l.enabled then (l, true)
  else
    let l := { l with totalRequests := addSize l.totalRequests 1 }
    let l := l.autoCleanup now swept
    let ip := extractIpFromAddress clientIp
    let bucket := (l.buckets.lookup ip).getD { tokens := l.burstCapacity, lastRefill := created }
    let bucket := l.refillBucket bucket refilled
    if 1 ≤ bucket.tokens then
      ({ l with buckets := l.buckets.insert ip { bucket with tokens := bucket.tokens - 1 } }, true)
    else
      ({ l with buckets := l.buckets.insert ip bucket,
                blockedRequests := addSize l.blockedRequests 1 }, false)

def resetStats (l : RateLimiter) : RateLimiter := { l with totalRequests := 0, blockedRequests := 0 }

end RateLimiter

/-- A request that has been answered. Its time is the one its bucket was
refilled at. -/
structure Answer where
  client : Bytes
  time : Int
  allowed : Bool
  deriving DecidableEq

/-- A limiter at work: what the clock has last been read as, and the answers
given, latest first. -/
structure Limiting where
  limiter : RateLimiter
  clock : Int
  answers : List Answer

inductive LimiterOp
  | isAllowed (clientIp : Bytes) (now swept created refilled : Int)
  | cleanupExpiredBuckets (now : Int)
  | resetStats

namespace Limiting

/-- A call, if its readings of the clock do not go back. -/
def exec (s : Limiting) : LimiterOp → Option Limiting
  | .isAllowed clientIp now swept created refilled =>
    if s.clock ≤ now ∧ now ≤ swept ∧ swept ≤ created ∧ created ≤ refilled then
      let (limiter, allowed) := s.limiter.isAllowed clientIp now swept created refilled
      some { limiter, clock := refilled,
             answers := ⟨RateLimiter.extractIpFromAddress clientIp, refilled, allowed⟩ :: s.answers }
    else none
  | .cleanupExpiredBuckets now =>
    if s.clock ≤ now then
      some { s with limiter := s.limiter.cleanupExpiredBuckets now, clock := now }
    else none
  | .resetStats => some { s with limiter := s.limiter.resetStats }

/-- What a call does. -/
inductive Steps (s : Limiting) : LimiterOp → Limiting → Prop
  | isAllowed (clientIp now swept created refilled)
      (hle : s.clock ≤ now ∧ now ≤ swept ∧ swept ≤ created ∧ created ≤ refilled) :
      Steps s (.isAllowed clientIp now swept created refilled)
        { limiter := (s.limiter.isAllowed clientIp now swept created refilled).1, clock := refilled,
          answers := ⟨RateLimiter.extractIpFromAddress clientIp, refilled,
            (s.limiter.isAllowed clientIp now swept created refilled).2⟩ :: s.answers }
  | cleanupExpiredBuckets (now) (hle : s.clock ≤ now) :
      Steps s (.cleanupExpiredBuckets now)
        { s with limiter := s.limiter.cleanupExpiredBuckets now, clock := now }
  | resetStats : Steps s .resetStats { s with limiter := s.limiter.resetStats }

theorem exec_steps {s s' : Limiting} {op} (h : s.exec op = some s') : s.Steps op s' := by
  cases op with
  | isAllowed clientIp now swept created refilled =>
    simp only [exec] at h
    split at h
    · next hle => exact Option.some.inj h ▸ .isAllowed clientIp now swept created refilled hle
    · cases h
  | cleanupExpiredBuckets now =>
    simp only [exec] at h
    split at h
    · next hle => exact Option.some.inj h ▸ .cleanupExpiredBuckets now hle
    · cases h
  | resetStats => exact Option.some.inj h ▸ .resetStats

/-- An enabled limiter, constructed at `start`. -/
def system (rate burst : ℚ) (start : Int) : System Limiting LimiterOp where
  init s := s = { limiter := .make rate burst true start, clock := start, answers := [] }
  step := exec

/-- The requests of one client, latest first. -/
def times (s : Limiting) (client : Bytes) : List Int :=
  (s.answers.filter (·.client = client)).map (·.time)

/-- The requests of one client with their answers, latest first. -/
def answersTo (s : Limiting) (client : Bytes) : List (Int × Bool) :=
  (s.answers.filter (·.client = client)).map fun a => (a.time, a.allowed)

end Limiting

end Webserver
