/-
What the rate limiter grants a client. A client's answers are those of one
token bucket that only its own requests draw on, as long as no sweep throws
its bucket away before a refill would have filled it; bounds on that bucket
are bounds on what the limiter admits.
-/
import Webserver.RateLimiter

namespace Webserver

open Cxx Systems

/-! ## One call -/

theorem wholeMilliseconds_nonneg {d : Int} (h : 0 ≤ d) : 0 ≤ wholeMilliseconds d :=
  Int.tdiv_nonneg h (by decide)

theorem wholeMilliseconds_mono {d d' : Int} (h : 0 ≤ d) (hle : d ≤ d') :
    wholeMilliseconds d ≤ wholeMilliseconds d' := by
  rw [wholeMilliseconds, wholeMilliseconds, Int.tdiv_eq_ediv_of_nonneg h,
    Int.tdiv_eq_ediv_of_nonneg (h.trans hle)]
  exact Int.ediv_le_ediv (by decide) hle

/-- Whole milliseconds are at most the time that has passed. -/
theorem wholeMilliseconds_le {d : Int} (h : 0 ≤ d) : wholeMilliseconds d * 1000000 ≤ d := by
  rw [wholeMilliseconds, Int.tdiv_eq_ediv_of_nonneg h]
  omega

/-- An hour in whole seconds is an hour in whole milliseconds. -/
theorem le_wholeMilliseconds {d : Int} {n : Nat} (h : (n + 1 : Int) ≤ wholeSeconds d) :
    (n + 1) * 1000 ≤ wholeMilliseconds d := by
  have hd : 0 ≤ d := by
    by_contra hneg
    have : 0 ≤ (-d).tdiv 1000000000 := Int.tdiv_nonneg (by omega) (by decide)
    rw [Int.neg_tdiv] at this
    unfold wholeSeconds at h
    omega
  rw [wholeSeconds, Int.tdiv_eq_ediv_of_nonneg hd] at h
  rw [wholeMilliseconds, Int.tdiv_eq_ediv_of_nonneg hd]
  omega

namespace RateLimiter

theorem tokensToAdd_nonneg {rate : ℚ} (hr : 0 ≤ rate) {t t' : Int} (h : t ≤ t') :
    0 ≤ tokensToAdd rate t t' := by
  have : (0 : ℚ) ≤ wholeMilliseconds (t' - t) := by
    exact_mod_cast wholeMilliseconds_nonneg (Int.sub_nonneg.mpr h)
  unfold tokensToAdd
  positivity

theorem tokensToAdd_mono {rate : ℚ} (hr : 0 ≤ rate) {t t₁ t₂ : Int} (h : t ≤ t₁) (hle : t₁ ≤ t₂) :
    tokensToAdd rate t t₁ ≤ tokensToAdd rate t t₂ := by
  have : (wholeMilliseconds (t₁ - t) : ℚ) ≤ wholeMilliseconds (t₂ - t) := by
    exact_mod_cast wholeMilliseconds_mono (Int.sub_nonneg.mpr h) (Int.sub_le_sub_right hle t)
  unfold tokensToAdd
  gcongr

/-- What the rate yields in nanoseconds of time. -/
def worth (rate : ℚ) (t : Int) : ℚ := rate * ((t : ℚ) / 1000000000)

theorem worth_mono {rate : ℚ} (hr : 0 ≤ rate) : Monotone (worth rate) := by
  intro t t' h
  have : (t : ℚ) ≤ t' := by exact_mod_cast h
  unfold worth
  gcongr

theorem tokensToAdd_le {rate : ℚ} (hr : 0 ≤ rate) {t t' : Int} (h : t ≤ t') :
    tokensToAdd rate t t' ≤ worth rate t' - worth rate t := by
  have hms : (wholeMilliseconds (t' - t) : ℚ) * 1000000 ≤ (t' : ℚ) - t := by
    exact_mod_cast wholeMilliseconds_le (Int.sub_nonneg.mpr h)
  have hle : (wholeMilliseconds (t' - t) : ℚ) / 1000 ≤ ((t' : ℚ) - t) / 1000000000 := by linarith
  calc tokensToAdd rate t t' ≤ ((t' : ℚ) - t) / 1000000000 * rate := by
        unfold tokensToAdd
        gcongr
    _ = worth rate t' - worth rate t := by
        unfold worth
        ring

theorem lookup_cleanupExpiredBuckets (l : RateLimiter) (now : Int) (client : Bytes) :
    (l.cleanupExpiredBuckets now).buckets.lookup client =
      (l.buckets.lookup client).filter fun b => !isExpired b now := by
  refine Option.ext fun b => ?_
  rw [← Option.mem_def, ← Option.mem_def, Option.mem_filter_iff, AList.mem_lookup_iff,
    AList.mem_lookup_iff]
  simp [cleanupExpiredBuckets]

@[simp] theorem autoCleanup_rate (l : RateLimiter) (now swept : Int) :
    (l.autoCleanup now swept).requestsPerSecond = l.requestsPerSecond := by
  unfold autoCleanup
  split <;> rfl

@[simp] theorem autoCleanup_burst (l : RateLimiter) (now swept : Int) :
    (l.autoCleanup now swept).burstCapacity = l.burstCapacity := by
  unfold autoCleanup
  split <;> rfl

/-- The bucket that serves a request: the client's, if the sweep has left
one, or a new one. -/
def bucketFor (l : RateLimiter) (client : Bytes) (now swept created : Int) : TokenBucket :=
  ((l.autoCleanup now swept).buckets.lookup client).getD
    { tokens := l.burstCapacity, lastRefill := created }

/-- What `is_allowed` does, for an enabled limiter. -/
structure Serves (l : RateLimiter) (client : Bytes) (now swept created refilled : Int)
    (l' : RateLimiter) (allowed : Bool) : Prop where
  enabled : l'.enabled = true
  rate : l'.requestsPerSecond = l.requestsPerSecond
  burst : l'.burstCapacity = l.burstCapacity
  others : ∀ other, other ≠ client →
    l'.buckets.lookup other = (l.autoCleanup now swept).buckets.lookup other
  bucket : l'.buckets.lookup client =
    some ⟨(Bucket.spend (l.refillBucket (l.bucketFor client now swept created) refilled).tokens).1,
      refilled⟩
  allowed : allowed =
    (Bucket.spend (l.refillBucket (l.bucketFor client now swept created) refilled).tokens).2

theorem isAllowed_serves {l : RateLimiter} (he : l.enabled = true) (address : Bytes)
    (now swept created refilled : Int) :
    l.Serves (extractIpFromAddress address) now swept created refilled
      (l.isAllowed address now swept created refilled).1
      (l.isAllowed address now swept created refilled).2 := by
  have hcounted :
      { l with totalRequests := addSize l.totalRequests 1 }.autoCleanup now swept =
        { l.autoCleanup now swept with totalRequests := addSize l.totalRequests 1 } := by
    unfold autoCleanup
    split <;> rfl
  have henabled : (l.autoCleanup now swept).enabled = true := by
    unfold autoCleanup
    split <;> exact he
  rw [isAllowed, if_neg (by simp [he])]
  simp only [hcounted]
  generalize htokens : (refillBucket _ _ refilled).tokens = tokens
  have hbucket :
      (l.refillBucket (l.bucketFor (extractIpFromAddress address) now swept created) refilled).tokens =
        tokens := by
    rw [← htokens]
    simp [bucketFor, refillBucket]
  by_cases hle : 1 ≤ tokens
  · rw [if_pos hle]
    refine ⟨henabled, by simp, by simp, fun other hne => AList.lookup_insert_ne hne, ?_, ?_⟩
    · rw [hbucket, Bucket.spend_of_le hle]
      exact AList.lookup_insert _
    · rw [hbucket, Bucket.spend_of_le hle]
  · rw [if_neg hle]
    refine ⟨henabled, by simp, by simp, fun other hne => AList.lookup_insert_ne hne, ?_, ?_⟩
    · rw [hbucket, Bucket.spend, if_neg hle, ← htokens]
      exact AList.lookup_insert _
    · rw [hbucket, Bucket.spend, if_neg hle]

end RateLimiter

/-! ## A client's bucket -/

namespace RateLimiter

/-- A sweep at `now` throws the client's bucket away, although a refill would
not have filled it. -/
def forgets (l : RateLimiter) (client : Bytes) (now : Int) : Bool :=
  (l.buckets.lookup client).any fun b =>
    isExpired b now && b.tokens + tokensToAdd l.requestsPerSecond b.lastRefill now < l.burstCapacity

/-- How the limiter keeps the bucket of a client with the given requests: with
the tokens they left, or not at all once it would be full. -/
def Backed (rate burst : ℚ) (times : List Int) (clock : Int) : Option TokenBucket → Prop
  | some b => times.head? = some b.lastRefill ∧ b.tokens = Bucket.left burst (tokensToAdd rate) times
  | none => ∀ t ∈ times.head?,
      burst ≤ Bucket.left burst (tokensToAdd rate) times + tokensToAdd rate t clock

section

variable {rate burst : ℚ} {times : List Int} {clock : Int} {bucket : Option TokenBucket}

theorem Backed.mono (h : Backed rate burst times clock bucket) (hr : 0 ≤ rate)
    (hpast : ∀ t ∈ times.head?, t ≤ clock) {now : Int} (hle : clock ≤ now) :
    Backed rate burst times now bucket := by
  cases bucket with
  | some b => exact h
  | none =>
    intro t ht
    have := tokensToAdd_mono hr (hpast t ht) hle
    have := h t ht
    linarith

theorem Backed.sweep (h : Backed rate burst times clock bucket) (hr : 0 ≤ rate)
    (hpast : ∀ t ∈ times.head?, t ≤ clock) {now : Int} (hle : clock ≤ now)
    (hfull : ∀ b ∈ bucket, isExpired b now = true →
      burst ≤ b.tokens + tokensToAdd rate b.lastRefill now) :
    Backed rate burst times now (bucket.filter fun b => !isExpired b now) := by
  cases bucket with
  | none => exact h.mono hr hpast hle
  | some b =>
    by_cases hexp : isExpired b now = true
    · rw [Option.filter_some_neg (by simp [hexp])]
      intro t ht
      rw [h.1] at ht
      obtain rfl := Option.mem_some_iff.mp ht
      rw [← h.2]
      exact hfull b rfl hexp
    · rw [Option.filter_some_pos (by simpa using hexp)]
      exact h

/-- A request finds what it would find in a bucket that is never thrown away. -/
theorem Backed.found (h : Backed rate burst times clock bucket) (hr : 0 ≤ rate)
    (hpast : ∀ t ∈ times.head?, t ≤ clock) {created refilled : Int} (hc : clock ≤ created)
    (hle : created ≤ refilled) {b : TokenBucket}
    (hb : bucket.getD { tokens := burst, lastRefill := created } = b) :
    min burst (b.tokens + tokensToAdd rate b.lastRefill refilled) =
      Bucket.found burst (tokensToAdd rate) refilled (Bucket.left burst (tokensToAdd rate) times)
        times := by
  cases bucket with
  | some b' =>
    obtain ⟨hhead, htokens⟩ := h
    obtain ⟨ts, rfl⟩ := List.head?_eq_some_iff.mp hhead
    rw [← hb, Option.getD_some, htokens]
    rfl
  | none =>
    have hnew : 0 ≤ tokensToAdd rate created refilled := tokensToAdd_nonneg hr hle
    rw [← hb, Option.getD_none, min_eq_left (by linarith)]
    cases times with
    | nil => rfl
    | cons t ts =>
      have hmono := tokensToAdd_mono hr (hpast t rfl) (hc.trans hle)
      have := h t rfl
      exact (Bucket.fill_of_le (by linarith)).symm

end

end RateLimiter

namespace Limiting

open RateLimiter

variable {rate burst : ℚ} {start : Int}

/-- The operation throws the client's bucket away before it would be full. -/
def forgets (client : Bytes) (s : Limiting) : LimiterOp → Bool
  | .isAllowed _ now swept _ _ =>
    cleanupIntervalSeconds ≤ wholeSeconds (now - s.limiter.lastCleanup) &&
      s.limiter.forgets client swept
  | .cleanupExpiredBuckets now => s.limiter.forgets client now
  | .resetStats => false

/-- The settings stay what they are, and answers are given in order. -/
structure Steady (rate burst : ℚ) (s : Limiting) : Prop where
  enabled : s.limiter.enabled = true
  rate : s.limiter.requestsPerSecond = rate
  burst : s.limiter.burstCapacity = burst
  past : ∀ a ∈ s.answers, a.time ≤ s.clock
  sorted : s.answers.Pairwise fun a a' => a'.time ≤ a.time

theorem steady {ok} {s : Limiting} (h : (system rate burst start).ReachableBy ok s) :
    s.Steady rate burst := by
  refine h.invariant (I := Steady rate burst) ?_ ?_
  · intro s hs
    subst hs
    exact ⟨rfl, rfl, rfl, by simp, .nil⟩
  intro s op s' _ hi _ hs
  cases exec_steps hs with
  | isAllowed clientIp now swept created refilled hle =>
    have hserves := isAllowed_serves hi.enabled clientIp now swept created refilled
    have hpast : ∀ a ∈ s.answers, a.time ≤ refilled := by
      intro a ha
      have := hi.past a ha
      omega
    refine ⟨hserves.enabled, hserves.rate.trans hi.rate, hserves.burst.trans hi.burst, ?_, ?_⟩
    · exact List.forall_mem_cons.mpr ⟨le_rfl, hpast⟩
    · exact List.pairwise_cons.mpr ⟨hpast, hi.sorted⟩
  | cleanupExpiredBuckets now hle =>
    exact ⟨hi.enabled, hi.rate, hi.burst, fun a ha => (hi.past a ha).trans hle, hi.sorted⟩
  | resetStats => exact ⟨hi.enabled, hi.rate, hi.burst, hi.past, hi.sorted⟩

theorem Steady.times_past {s : Limiting} (h : s.Steady rate burst) (client : Bytes) :
    ∀ t ∈ s.times client, t ≤ s.clock := by
  intro t ht
  obtain ⟨a, ha, rfl⟩ := List.mem_map.mp ht
  exact h.past a (List.mem_filter.mp ha).1

theorem Steady.times_sorted {s : Limiting} (h : s.Steady rate burst) (client : Bytes) :
    (s.times client).Pairwise (· ≥ ·) :=
  List.pairwise_map.mpr (h.sorted.filter _)

/-- The client's answers are those of a bucket of its own. -/
structure Alone (rate burst : ℚ) (client : Bytes) (s : Limiting) : Prop where
  answers : s.answersTo client = Bucket.answers burst (tokensToAdd rate) (s.times client)
  backed : Backed rate burst (s.times client) s.clock (s.limiter.buckets.lookup client)

theorem alone (hr : 0 ≤ rate) (client : Bytes) {s : Limiting}
    (h : (system rate burst start).ReachableBy (fun s op => !s.forgets client op) s) :
    s.Alone rate burst client := by
  refine h.invariant (I := Alone rate burst client) ?_ ?_
  · intro s hs
    subst hs
    exact ⟨rfl, nofun⟩
  intro s op s' hreach hi hok hs
  have hst := steady hreach
  have hpast : ∀ t ∈ (s.times client).head?, t ≤ s.clock := fun t ht =>
    hst.times_past client t (List.mem_of_mem_head? ht)
  -- a sweep takes no bucket that is not full
  have swept : ∀ now, s.clock ≤ now → s.limiter.forgets client now = false →
      Backed rate burst (s.times client) now
        ((s.limiter.cleanupExpiredBuckets now).buckets.lookup client) := by
    intro now hle hf
    rw [lookup_cleanupExpiredBuckets]
    refine hi.backed.sweep hr hpast hle fun b hb hexp => ?_
    rw [RateLimiter.forgets, Option.mem_def.mp hb, hst.rate, hst.burst] at hf
    simpa [hexp] using hf
  cases exec_steps hs with
  | isAllowed clientIp now swept' created refilled hle =>
    have hserves := isAllowed_serves hst.enabled clientIp now swept' created refilled
    have hback : Backed rate burst (s.times client) swept'
        ((s.limiter.autoCleanup now swept').buckets.lookup client) := by
      unfold autoCleanup
      split
      · next hdue =>
        refine swept swept' (by omega) ?_
        simpa [forgets, hdue] using hok
      · exact hi.backed.mono hr hpast (by omega)
    have hpast' : ∀ t ∈ (s.times client).head?, t ≤ swept' := fun t ht =>
      (hpast t ht).trans (by omega)
    by_cases hclient : extractIpFromAddress clientIp = client
    · subst hclient
      have hfound : (s.limiter.refillBucket
          (s.limiter.bucketFor (extractIpFromAddress clientIp) now swept' created) refilled).tokens =
            Bucket.found burst (tokensToAdd rate) refilled
              (Bucket.left burst (tokensToAdd rate) (s.times (extractIpFromAddress clientIp)))
              (s.times (extractIpFromAddress clientIp)) := by
        rw [refillBucket, bucketFor, hst.rate, hst.burst]
        exact hback.found hr hpast' hle.2.2.1 hle.2.2.2 rfl
      have hbucket := hserves.bucket
      have hallowed := hserves.allowed
      rw [hfound] at hbucket hallowed
      refine ⟨?_, ?_⟩
      · rw [answersTo, times, List.filter_cons_of_pos (by simp), List.map_cons, List.map_cons,
          Bucket.answers, hallowed]
        exact congrArg _ hi.answers
      · rw [times, List.filter_cons_of_pos (by simp), List.map_cons, hbucket]
        exact ⟨rfl, rfl⟩
    · have hother := hserves.others client (Ne.symm hclient)
      refine ⟨?_, ?_⟩
      · rw [answersTo, times, List.filter_cons_of_neg (by simp [hclient])]
        exact hi.answers
      · rw [times, List.filter_cons_of_neg (by simp [hclient]), hother]
        exact hback.mono hr hpast' (hle.2.2.1.trans hle.2.2.2)
  | cleanupExpiredBuckets now hle =>
    exact ⟨hi.answers, swept now hle (by simpa [forgets] using hok)⟩
  | resetStats => exact ⟨hi.answers, hi.backed⟩

/-- Where an hour's worth is the whole burst, no bucket is thrown away before
it would be full. -/
theorem Alone.not_forgets {client : Bytes} {s : Limiting} (h : s.Alone rate burst client)
    (hst : s.Steady rate burst) (hr : 0 ≤ rate) (hb : 0 ≤ burst) (hfull : burst ≤ 3600 * rate)
    (op : LimiterOp) : s.forgets client op = false := by
  have hkept : ∀ now, s.limiter.forgets client now = false := by
    intro now
    have hback := h.backed
    rw [RateLimiter.forgets]
    cases hbucket : s.limiter.buckets.lookup client with
    | none => rfl
    | some b =>
    rw [hbucket] at hback
    have htokens : 0 ≤ b.tokens := by
      rw [hback.2]
      exact Bucket.left_nonneg hb (fun t t' hle => tokensToAdd_nonneg hr hle) (hst.times_sorted client)
    rw [Option.any_some, Bool.and_eq_false_imp, hst.rate, hst.burst, decide_eq_false_iff_not, not_lt]
    intro hexp
    have hms : (3600000 : ℚ) ≤ wholeMilliseconds (now - b.lastRefill) := by
      have hhour : ((3599 : Nat) + 1 : Int) ≤ wholeSeconds (now - b.lastRefill) :=
        of_decide_eq_true hexp
      have : 3600000 ≤ wholeMilliseconds (now - b.lastRefill) := le_wholeMilliseconds hhour
      exact_mod_cast this
    have hdue : 3600 * rate ≤ tokensToAdd rate b.lastRefill now := by
      unfold tokensToAdd
      have : (3600 : ℚ) ≤ (wholeMilliseconds (now - b.lastRefill) : ℚ) / 1000 := by linarith
      gcongr
    linarith
  cases op with
  | isAllowed clientIp now swept created refilled => simp [forgets, hkept]
  | cleanupExpiredBuckets now => exact hkept now
  | resetStats => rfl

theorem reachableBy_not_forgets (hr : 0 ≤ rate) (hb : 0 ≤ burst) (hfull : burst ≤ 3600 * rate)
    (client : Bytes) {s : Limiting} (h : (system rate burst start).Reachable s) :
    (system rate burst start).ReachableBy (fun s op => !s.forgets client op) s := by
  induction h with
  | init hi => exact .init hi
  | step _ _ hs ih =>
    refine .step ih ?_ hs
    rw [(alone hr client ih).not_forgets (steady ih) hr hb hfull]
    rfl

/-- **The admission bound**: in a window of time a client is granted at most
the burst and what the rate yields in the window. -/
theorem admitted_le (hr : 0 ≤ rate) (hb : 0 ≤ burst) (hfull : burst ≤ 3600 * rate) {s : Limiting}
    (h : (system rate burst start).Reachable s) (client : Bytes) {t t' : Int} (hle : t ≤ t') :
    (Bucket.admitted t t' (s.answersTo client) : ℚ) ≤
      burst + rate * (((t' : ℚ) - t) / 1000000000) := by
  rw [(alone hr client (reachableBy_not_forgets hr hb hfull client h)).answers]
  have hbound := Bucket.admitted_le_cap hb (fun t t' hle => tokensToAdd_nonneg hr hle)
    (fun t t' hle => tokensToAdd_le hr hle) (worth_mono hr) hle ((steady h).times_sorted client)
  refine hbound.trans_eq ?_
  unfold worth
  ring

/-- A request at a time of the clock, from a client without a port. -/
def requestAt (client : String) (time : Int) : LimiterOp :=
  .isAllowed (bytes client) time time time time

theorem admitted_le_burst : ∃ s : Limiting, (system 5 2 0).Reachable s ∧
    Bucket.admitted 0 1000000000 (s.answersTo (bytes "10.0.0.1")) = 2 ∧
    (Bucket.admitted 0 1000000000 (s.answersTo (bytes "10.0.0.1")) : ℚ) ≤
      2 + 5 * (((1000000000 : Int) - (0 : Int) : ℚ) / 1000000000) := by
  obtain ⟨s, hr, hs⟩ := System.exists_reachable (S := system 5 2 0) rfl
    [requestAt "10.0.0.1" 0, requestAt "10.0.0.1" 0, requestAt "10.0.0.1" 1000]
    (fun s => Bucket.admitted 0 1000000000 (s.answersTo (bytes "10.0.0.1")) = 2) (by decide +kernel)
  refine ⟨s, hr, of_decide_eq_true hs, ?_⟩
  exact admitted_le (by norm_num) (by norm_num) (by norm_num) hr (bytes "10.0.0.1") (by norm_num)

/-! ## Two runs -/

/-- **Clients on their own**: two runs in which a client makes the same
requests, and neither of which throws its bucket away before it would be
full, give it the same answers. -/
theorem answersTo_eq (hr : 0 ≤ rate) (client : Bytes) {s s' : Limiting}
    (h : (system rate burst start).ReachableBy (fun s op => !s.forgets client op) s)
    (h' : (system rate burst start).ReachableBy (fun s op => !s.forgets client op) s')
    (hsame : s.times client = s'.times client) : s.answersTo client = s'.answersTo client := by
  rw [(alone hr client h).answers, (alone hr client h').answers, hsame]

/-- Between the client's requests, another client has used up its tokens. -/
theorem answersTo_eq_crowded : ∃ s s' : Limiting, s.answers.length ≠ s'.answers.length ∧
    s.answersTo (bytes "10.0.0.1") = s'.answersTo (bytes "10.0.0.1") := by
  obtain ⟨s, hr, hs⟩ := System.exists_reachableBy (S := system 5 1 0) rfl
    (fun s op => !s.forgets (bytes "10.0.0.1") op)
    [requestAt "10.0.0.1" 0, requestAt "10.0.0.1" 1000000]
    (fun s => s.times (bytes "10.0.0.1") = [1000000, 0] ∧ s.answers.length = 2) (by decide +kernel)
  obtain ⟨s', hr', hs'⟩ := System.exists_reachableBy (S := system 5 1 0) rfl
    (fun s op => !s.forgets (bytes "10.0.0.1") op)
    [requestAt "10.0.0.1" 0, requestAt "10.0.0.2" 0, requestAt "10.0.0.2" 1000,
      requestAt "10.0.0.1" 1000000]
    (fun s => s.times (bytes "10.0.0.1") = [1000000, 0] ∧ s.answers.length = 4) (by decide +kernel)
  obtain ⟨ht, hl⟩ := of_decide_eq_true hs
  obtain ⟨ht', hl'⟩ := of_decide_eq_true hs'
  exact ⟨s, s', by omega, answersTo_eq (by norm_num) (bytes "10.0.0.1") hr hr' (ht.trans ht'.symm)⟩

/-- A second in nanoseconds. -/
def second : Int := 1000000000

/-- With no refill, a client that has used its one token gets another after
an hour if its own request starts the sweep, and none if a sweep started by
another client has just gone by. -/
theorem not_answersTo_eq : ¬ ∀ (rate burst : ℚ) (start : Int) (client : Bytes) (s s' : Limiting),
    0 ≤ rate → 0 ≤ burst → (system rate burst start).Reachable s →
      (system rate burst start).Reachable s' → s.times client = s'.times client →
        s.answersTo client = s'.answersTo client := by
  intro h
  obtain ⟨s, hr, hs⟩ := System.exists_reachable (S := system 0 1 0) rfl
    [requestAt "10.0.0.1" 0, requestAt "10.0.0.1" (3600 * second)]
    (fun s => s.times (bytes "10.0.0.1") = [3600 * second, 0] ∧
      s.answersTo (bytes "10.0.0.1") = [(3600 * second, true), (0, true)]) (by decide +kernel)
  obtain ⟨s', hr', hs'⟩ := System.exists_reachable (S := system 0 1 0) rfl
    [requestAt "10.0.0.1" 0, requestAt "10.0.0.2" (3400 * second),
      requestAt "10.0.0.1" (3600 * second)]
    (fun s => s.times (bytes "10.0.0.1") = [3600 * second, 0] ∧
      s.answersTo (bytes "10.0.0.1") = [(3600 * second, false), (0, true)]) (by decide +kernel)
  obtain ⟨ht, ha⟩ := of_decide_eq_true hs
  obtain ⟨ht', ha'⟩ := of_decide_eq_true hs'
  have := h 0 1 0 (bytes "10.0.0.1") s s' le_rfl zero_le_one hr hr' (ht.trans ht'.symm)
  rw [ha, ha'] at this
  exact absurd this (by decide)

/-! ## A client that waits -/

/-- The requests of some stretch exceed the tokens due between them, in whole
milliseconds, by more than the burst allows. -/
def starves (client : Bytes) (s : Limiting) : LimiterOp → Bool
  | .isAllowed clientIp _ _ _ refilled =>
    extractIpFromAddress clientIp = client &&
      s.limiter.burstCapacity - 1 <
        Bucket.shortfall (tokensToAdd s.limiter.requestsPerSecond) (refilled :: s.times client)
  | _ => false

/-- All requests of the client have been admitted, and its bucket lacks no
more than the shortfall. -/
structure Granted (rate burst : ℚ) (client : Bytes) (s : Limiting) : Prop where
  allowed : ∀ a ∈ s.answers, a.client = client → a.allowed = true
  bucket : ∀ b, s.limiter.buckets.lookup client = some b →
    (s.times client).head? = some b.lastRefill ∧
      burst - 1 - Bucket.shortfall (tokensToAdd rate) (s.times client) ≤ b.tokens

theorem granted (hr : 0 ≤ rate) (client : Bytes) {s : Limiting}
    (h : (system rate burst start).ReachableBy (fun s op => !s.starves client op) s) :
    s.Granted rate burst client := by
  refine h.invariant (I := Granted rate burst client) ?_ ?_
  · intro s hs
    subst hs
    exact ⟨by simp, fun b hb => by cases hb⟩
  intro s op s' hreach hi hok hs
  have hst := steady hreach
  -- a sweep leaves the bucket or takes it
  have swept : ∀ now b, (s.limiter.cleanupExpiredBuckets now).buckets.lookup client = some b →
      s.limiter.buckets.lookup client = some b := by
    intro now b hb
    rw [lookup_cleanupExpiredBuckets] at hb
    exact (Option.mem_filter_iff.mp hb).1
  cases exec_steps hs with
  | isAllowed clientIp now swept' created refilled hle =>
    have hserves := isAllowed_serves hst.enabled clientIp now swept' created refilled
    have hauto : ∀ b, (s.limiter.autoCleanup now swept').buckets.lookup client = some b →
        s.limiter.buckets.lookup client = some b := by
      intro b hb
      unfold autoCleanup at hb
      split at hb
      · exact swept swept' b hb
      · exact hb
    by_cases hclient : extractIpFromAddress clientIp = client
    · have hshort : Bucket.shortfall (tokensToAdd rate) (refilled :: s.times client) ≤ burst - 1 := by
        simpa [starves, hclient, hst.rate, hst.burst] using hok
      subst hclient
      have hfound : burst - Bucket.shortfall (tokensToAdd rate)
            (refilled :: s.times (extractIpFromAddress clientIp)) ≤
          (s.limiter.refillBucket
            (s.limiter.bucketFor (extractIpFromAddress clientIp) now swept' created) refilled).tokens := by
        rw [refillBucket, bucketFor, hst.rate, hst.burst]
        cases hb : (s.limiter.autoCleanup now swept').buckets.lookup (extractIpFromAddress clientIp) with
        | some b =>
          obtain ⟨hhead, htokens⟩ := hi.bucket b (hauto b hb)
          obtain ⟨ts, hts⟩ := List.head?_eq_some_iff.mp hhead
          rw [hts] at htokens ⊢
          exact Bucket.le_fill_of_shortfall htokens
        | none =>
          -- a new bucket is full
          have := tokensToAdd_nonneg hr hle.2.2.2
          have := Bucket.shortfall_nonneg (tokensToAdd rate)
            (refilled :: s.times (extractIpFromAddress clientIp))
          exact le_min (by linarith) (by simp only [Option.getD_none]; linarith)
      have hbucket := hserves.bucket
      have hallowed := hserves.allowed
      rw [Bucket.spend_of_le (by linarith)] at hbucket hallowed
      refine ⟨fun a ha hc => ?_, fun b hb => ?_⟩
      · rcases List.mem_cons.mp ha with rfl | ha
        · exact hallowed
        · exact hi.allowed a ha hc
      · rw [hbucket] at hb
        cases hb
        rw [times, List.filter_cons_of_pos (by simp), List.map_cons]
        refine ⟨rfl, ?_⟩
        simp only [times] at hfound
        linarith
    · have hother := hserves.others client (Ne.symm hclient)
      refine ⟨fun a ha hc => ?_, fun b hb => ?_⟩
      · rcases List.mem_cons.mp ha with rfl | ha
        · exact absurd hc hclient
        · exact hi.allowed a ha hc
      · rw [times, List.filter_cons_of_neg (by simp [hclient])]
        exact hi.bucket b (hauto b (hother ▸ hb))
  | cleanupExpiredBuckets now hle =>
    exact ⟨hi.allowed, fun b hb => hi.bucket b (swept now b hb)⟩
  | resetStats => exact ⟨hi.allowed, hi.bucket⟩

/-- **A client that waits is never refused**, as long as what its requests
exceed the tokens due between them by, with each wait cut to whole
milliseconds, stays below the burst. -/
theorem always_allowed (hr : 0 ≤ rate) (client : Bytes) {s : Limiting}
    (h : (system rate burst start).ReachableBy (fun s op => !s.starves client op) s) :
    ∀ a ∈ s.answers, a.client = client → a.allowed = true :=
  (granted hr client h).allowed

/-- So a client is if each of its waits, in whole milliseconds, yields a token. -/
theorem reachableBy_not_starves (hb : 1 ≤ burst) (client : Bytes) {s : Limiting}
    (h : (system rate burst start).Reachable s)
    (hwaits : (s.times client).IsChain fun t t' => 1 ≤ tokensToAdd rate t' t) :
    (system rate burst start).ReachableBy (fun s op => !s.starves client op) s := by
  induction h with
  | init hi => exact .init hi
  | @step s op s' hr _ hs ih =>
    have hst := steady hr
    cases exec_steps hs with
    | isAllowed clientIp now swept created refilled =>
      by_cases hclient : extractIpFromAddress clientIp = client
      · rw [times, List.filter_cons_of_pos (by simp [hclient]), List.map_cons] at hwaits
        refine .step (ih hwaits.tail) ?_ hs
        have hzero : Bucket.shortfall (tokensToAdd rate) (refilled :: s.times client) = 0 :=
          Bucket.shortfall_eq_zero hwaits
        have hle : Bucket.shortfall (tokensToAdd rate) (refilled :: s.times client) ≤ burst - 1 := by
          rw [hzero]
          linarith
        simpa [starves, hclient, hst.rate, hst.burst] using hle
      · rw [times, List.filter_cons_of_neg (by simp [hclient])] at hwaits
        exact .step (ih hwaits) (by simp [starves, hclient]) hs
    | cleanupExpiredBuckets | resetStats => exact .step (ih hwaits) rfl hs

/-- A client that makes two requests at once, and then one every 200 ms. -/
theorem always_allowed_spaced : ∃ s : Limiting, (s.times (bytes "10.0.0.1")).length = 4 ∧
    ∀ a ∈ s.answers, a.client = bytes "10.0.0.1" → a.allowed = true := by
  obtain ⟨s, hr, hs⟩ := System.exists_reachableBy (S := system 5 2 0) rfl
    (fun s op => !s.starves (bytes "10.0.0.1") op)
    [requestAt "10.0.0.1" 0, requestAt "10.0.0.1" 0, requestAt "10.0.0.1" 200000000,
      requestAt "10.0.0.1" 400900000]
    (fun s => (s.times (bytes "10.0.0.1")).length = 4) (by decide +kernel)
  exact ⟨s, of_decide_eq_true hs, always_allowed (by norm_num) (bytes "10.0.0.1") hr⟩

/-- The client's requests are at least `1 / rate` seconds apart. -/
def Conforms (rate : ℚ) (client : Bytes) (s : Limiting) : Prop :=
  (s.times client).IsChain fun t t' => 1 ≤ rate * (((t : ℚ) - t') / 1000000000)

/-- At 2000/3 requests a second a client may send one every 1.5 ms; of each
such wait the limiter counts 1 ms. -/
theorem not_always_allowed : ¬ ∀ (rate burst : ℚ) (start : Int) (client : Bytes) (s : Limiting),
    0 < rate → 1 ≤ burst → (system rate burst start).Reachable s → s.Conforms rate client →
      ∀ a ∈ s.answers, a.client = client → a.allowed = true := by
  intro h
  obtain ⟨s, hr, hs⟩ := System.exists_reachable (S := system (2000 / 3) 1 0) rfl
    [requestAt "10.0.0.1" 0, requestAt "10.0.0.1" 1500000]
    (fun s => s.times (bytes "10.0.0.1") = [1500000, 0] ∧
      ⟨bytes "10.0.0.1", 1500000, false⟩ ∈ s.answers) (by decide +kernel)
  obtain ⟨ht, ha⟩ := of_decide_eq_true hs
  have hconforms : s.Conforms (2000 / 3) (bytes "10.0.0.1") := by
    rw [Conforms, ht]
    norm_num
  have := h (2000 / 3) 1 0 (bytes "10.0.0.1") s (by norm_num) le_rfl hr hconforms _ ha rfl
  exact absurd this (by decide)

end Limiting

end Webserver
