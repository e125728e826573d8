/-
Two limiters that are called alike, the second with a rate and a burst that
are no lower. A bucket of the second may hold fewer tokens, but only because
it has admitted more requests; sweeps throw away the same buckets of both.
-/
import Webserver.Admission

namespace Webserver

open Cxx Systems

namespace RateLimiter

theorem lookup_autoCleanup (l : RateLimiter) (now swept : Int) (client : Bytes) :
    (l.autoCleanup now swept).buckets.lookup client =
      if cleanupIntervalSeconds ≤ wholeSeconds (now - l.lastCleanup) then
        (l.buckets.lookup client).filter fun b => !isExpired b swept
      else l.buckets.lookup client := by
  unfold autoCleanup
  split
  · exact lookup_cleanupExpiredBuckets l swept client
  · rfl

theorem autoCleanup_lastCleanup (l : RateLimiter) (now swept : Int) :
    (l.autoCleanup now swept).lastCleanup =
      if cleanupIntervalSeconds ≤ wholeSeconds (now - l.lastCleanup) then now else l.lastCleanup := by
  unfold autoCleanup
  split <;> rfl

theorem isAllowed_lastCleanup {l : RateLimiter} (he : l.enabled = true) (address : Bytes)
    (now swept created refilled : Int) :
    (l.isAllowed address now swept created refilled).1.lastCleanup =
      (l.autoCleanup now swept).lastCleanup := by
  have hcounted : ({ l with totalRequests := addSize l.totalRequests 1 }.autoCleanup now swept).lastCleanup =
      (l.autoCleanup now swept).lastCleanup :=
    (autoCleanup_lastCleanup _ now swept).trans (autoCleanup_lastCleanup l now swept).symm
  rw [isAllowed, if_neg (by simp [he])]
  dsimp only
  split <;> exact hcounted

theorem tokensToAdd_rate_mono {rate rate' : ℚ} (hr : rate ≤ rate') {t t' : Int} (h : t ≤ t') :
    tokensToAdd rate t t' ≤ tokensToAdd rate' t t' := by
  have : (0 : ℚ) ≤ wholeMilliseconds (t' - t) := by
    exact_mod_cast wholeMilliseconds_nonneg (Int.sub_nonneg.mpr h)
  unfold tokensToAdd
  gcongr

/-- How the buckets of a client compare that has been admitted `n` and `n'`
times. -/
def Outdoes (clock : Int) (n n' : Nat) : Option TokenBucket → Option TokenBucket → Prop
  | some b, some b' =>
    b'.lastRefill = b.lastRefill ∧ b.lastRefill ≤ clock ∧ Bucket.Ahead n b.tokens n' b'.tokens
  | none, none => n ≤ n'
  | _, _ => False

section

variable {clock : Int} {n n' : Nat} {bucket bucket' : Option TokenBucket}

theorem Outdoes.count (h : Outdoes clock n n' bucket bucket') : n ≤ n' := by
  cases bucket with
  | none =>
    cases bucket' with
    | none => exact h
    | some b' => exact h.elim
  | some b =>
    cases bucket' with
    | none => exact h.elim
    | some b' => exact h.2.2.count

theorem Outdoes.mono (h : Outdoes clock n n' bucket bucket') {now : Int} (hle : clock ≤ now) :
    Outdoes now n n' bucket bucket' := by
  cases bucket with
  | none =>
    cases bucket' with
    | none => exact h
    | some b' => exact h.elim
  | some b =>
    cases bucket' with
    | none => exact h.elim
    | some b' => exact ⟨h.1, h.2.1.trans hle, h.2.2⟩

/-- Whether a bucket has expired does not depend on its tokens. -/
theorem Outdoes.sweep (h : Outdoes clock n n' bucket bucket') (now : Int) :
    Outdoes clock n n' (bucket.filter fun b => !isExpired b now)
      (bucket'.filter fun b => !isExpired b now) := by
  cases bucket with
  | none =>
    cases bucket' with
    | none => exact h
    | some b' => exact h.elim
  | some b =>
    cases bucket' with
    | none => exact h.elim
    | some b' =>
      have hexp : isExpired b' now = isExpired b now := by
        rw [isExpired, isExpired, h.1]
      rw [Option.filter_some, Option.filter_some, hexp]
      split
      · exact h
      · exact h.count

end

/-- Two limiters alike but for the second's higher rate, burst and counts. -/
structure Raises (l l' : RateLimiter) : Prop where
  enabled : l.enabled = true
  enabled' : l'.enabled = true
  rate : l.requestsPerSecond ≤ l'.requestsPerSecond
  burst : l.burstCapacity ≤ l'.burstCapacity
  lastCleanup : l'.lastCleanup = l.lastCleanup

section

variable {l l' : RateLimiter} {clock : Int} {n n' : Nat} {client : Bytes}

theorem Raises.autoCleanup (h : l.Raises l')
    (ho : Outdoes clock n n' (l.buckets.lookup client) (l'.buckets.lookup client)) (now swept : Int) :
    Outdoes clock n n' ((l.autoCleanup now swept).buckets.lookup client)
      ((l'.autoCleanup now swept).buckets.lookup client) := by
  rw [lookup_autoCleanup, lookup_autoCleanup, h.lastCleanup]
  split
  · exact ho.sweep swept
  · exact ho

/-- The buckets that serve a request, refilled. -/
theorem Raises.refillBucket (h : l.Raises l')
    (ho : Outdoes clock n n' (l.buckets.lookup client) (l'.buckets.lookup client))
    (now swept : Int) {created refilled : Int} (hle : clock ≤ refilled) (hcr : created ≤ refilled) :
    Bucket.Ahead n (l.refillBucket (l.bucketFor client now swept created) refilled).tokens n'
      (l'.refillBucket (l'.bucketFor client now swept created) refilled).tokens := by
  have hswept := h.autoCleanup ho now swept
  unfold RateLimiter.refillBucket bucketFor
  cases hb : (l.autoCleanup now swept).buckets.lookup client with
  | none =>
    cases hb' : (l'.autoCleanup now swept).buckets.lookup client with
    | some b' =>
      rw [hb, hb'] at hswept
      exact hswept.elim
    | none =>
      exact (Bucket.Ahead.of_le ho.count h.burst).fill h.burst (tokensToAdd_rate_mono h.rate hcr)
  | some b =>
    cases hb' : (l'.autoCleanup now swept).buckets.lookup client with
    | none =>
      rw [hb, hb'] at hswept
      exact hswept.elim
    | some b' =>
      rw [hb, hb'] at hswept
      obtain ⟨hlast, hpast, hahead⟩ := hswept
      refine hahead.fill h.burst ?_
      rw [Option.getD_some, Option.getD_some, hlast]
      exact tokensToAdd_rate_mono h.rate (hpast.trans hle)

end

end RateLimiter

open RateLimiter

namespace Limiting

/-- How many requests of a client have been admitted. -/
def admissions (s : Limiting) (client : Bytes) : Nat := (s.answersTo client).countP (·.2)

theorem admissions_cons (l l' : RateLimiter) (clock clock' : Int) (a : Answer) (as : List Answer)
    (client : Bytes) :
    (Limiting.mk l clock (a :: as)).admissions client =
      (Limiting.mk l' clock' as).admissions client + if a.client = client then a.allowed.toNat else 0 := by
  unfold admissions answersTo
  by_cases hc : a.client = client
  · rw [List.filter_cons_of_pos (by simpa using hc), List.map_cons, List.countP_cons, if_pos hc]
    cases a.allowed <;> rfl
  · rw [List.filter_cons_of_neg (by simpa using hc), if_neg hc]
    rfl

/-- Two limiters that have been called alike. -/
structure Raised (s s' : Limiting) : Prop where
  limiter : s.limiter.Raises s'.limiter
  clock : s'.clock = s.clock
  buckets : ∀ client, Outdoes s.clock (s.admissions client) (s'.admissions client)
    (s.limiter.buckets.lookup client) (s'.limiter.buckets.lookup client)

theorem Raised.make {rate rate' burst burst' : ℚ} (hr : rate ≤ rate') (hb : burst ≤ burst')
    (start : Int) :
    Raised ⟨.make rate burst true start, start, []⟩ ⟨.make rate' burst' true start, start, []⟩ :=
  ⟨⟨rfl, rfl, hr, hb, rfl⟩, rfl, fun _ => Nat.le_refl 0⟩

theorem Raised.exec {s t s' : Limiting} {op : LimiterOp} (h : s.Raised t)
    (hs : s.exec op = some s') : ∃ t', t.exec op = some t' ∧ s'.Raised t' := by
  cases exec_steps hs with
  | isAllowed clientIp now swept created refilled hle =>
    simp only [Limiting.exec]
    rw [h.clock, if_pos hle]
    refine ⟨_, rfl, ?_⟩
    have hclock : s.clock ≤ refilled := by omega
    have hserves := isAllowed_serves h.limiter.enabled clientIp now swept created refilled
    have hserves' := isAllowed_serves h.limiter.enabled' clientIp now swept created refilled
    refine ⟨⟨hserves.enabled, hserves'.enabled, ?_, ?_, ?_⟩, rfl, fun client => ?_⟩
    · exact hserves.rate ▸ hserves'.rate ▸ h.limiter.rate
    · exact hserves.burst ▸ hserves'.burst ▸ h.limiter.burst
    · show (t.limiter.isAllowed _ _ _ _ _).1.lastCleanup = (s.limiter.isAllowed _ _ _ _ _).1.lastCleanup
      rw [isAllowed_lastCleanup h.limiter.enabled, isAllowed_lastCleanup h.limiter.enabled',
        autoCleanup_lastCleanup, autoCleanup_lastCleanup, h.limiter.lastCleanup]
    rw [admissions_cons _ s.limiter _ s.clock, admissions_cons _ t.limiter _ t.clock]
    dsimp only
    by_cases hclient : extractIpFromAddress clientIp = client
    · subst hclient
      have hahead := (h.limiter.refillBucket (h.buckets (extractIpFromAddress clientIp)) now swept
        hclock hle.2.2.2).spend
      rw [hserves.bucket, hserves'.bucket, if_pos rfl, if_pos rfl, hserves.allowed, hserves'.allowed]
      exact ⟨rfl, le_rfl, hahead⟩
    · rw [hserves.others client (Ne.symm hclient), hserves'.others client (Ne.symm hclient),
        if_neg hclient, if_neg hclient]
      exact (h.limiter.autoCleanup (h.buckets client) now swept).mono hclock
  | cleanupExpiredBuckets now hle =>
    simp only [Limiting.exec]
    rw [h.clock, if_pos hle]
    refine ⟨_, rfl, ⟨h.limiter.enabled, h.limiter.enabled', h.limiter.rate, h.limiter.burst,
      h.limiter.lastCleanup⟩, rfl, fun client => ?_⟩
    have hswept := ((h.buckets client).sweep now).mono hle
    rw [← lookup_cleanupExpiredBuckets, ← lookup_cleanupExpiredBuckets] at hswept
    exact hswept
  | resetStats =>
    exact ⟨_, rfl, ⟨h.limiter.enabled, h.limiter.enabled', h.limiter.rate, h.limiter.burst,
      h.limiter.lastCleanup⟩, h.clock, h.buckets⟩

/-- **Raising a limit never admits less**: after any calls, a limiter with a
rate and a burst that are no lower, and called alike, has admitted at least as
many requests of each client. -/
theorem admissions_le {rate rate' burst burst' : ℚ} {start : Int} {ops : List LimiterOp} {s : Limiting}
    (hr : rate ≤ rate') (hb : burst ≤ burst')
    (h : (system rate burst start).run ⟨.make rate burst true start, start, []⟩ ops = some s) :
    ∃ s', (system rate' burst' start).run ⟨.make rate' burst' true start, start, []⟩ ops = some s' ∧
      ∀ client, s.admissions client ≤ s'.admissions client := by
  obtain ⟨s', hs', hrel⟩ : ∃ s', (system rate' burst' start).run ⟨.make rate' burst' true start, start, []⟩
      ops = some s' ∧ Raised s s' :=
    System.simulates (fun s t op s' => Raised.exec) (Raised.make hr hb start) h
  exact ⟨s', hs', fun client => (hrel.buckets client).count⟩

/-- The second limiter refuses the last request, which the first admits: it
has admitted one more before. -/
theorem admissions_le_spent : ∃ s s' : Limiting,
    s.answersTo (bytes "10.0.0.1") = [(1000000000, true), (500000000, false), (0, true)] ∧
    s'.answersTo (bytes "10.0.0.1") = [(1000000000, false), (500000000, true), (0, true)] ∧
    s.admissions (bytes "10.0.0.1") ≤ s'.admissions (bytes "10.0.0.1") := by
  have hrun : ((system 1 1 0).run ⟨.make 1 1 true 0, 0, []⟩
      [requestAt "10.0.0.1" 0, requestAt "10.0.0.1" 500000000, requestAt "10.0.0.1" 1000000000]).any
      (fun s => s.answersTo (bytes "10.0.0.1") =
        [(1000000000, true), (500000000, false), (0, true)]) = true := by decide +kernel
  have hrun' : ((system 1 (3 / 2) 0).run ⟨.make 1 (3 / 2) true 0, 0, []⟩
      [requestAt "10.0.0.1" 0, requestAt "10.0.0.1" 500000000, requestAt "10.0.0.1" 1000000000]).all
      (fun s => s.answersTo (bytes "10.0.0.1") =
        [(1000000000, false), (500000000, true), (0, true)]) = true := by decide +kernel
  obtain ⟨s, hs, ha⟩ := (Option.any_eq_true _ _).mp hrun
  obtain ⟨s', hs', hle⟩ := admissions_le (le_refl 1) (by norm_num : (1 : ℚ) ≤ 3 / 2) hs
  rw [hs'] at hrun'
  exact ⟨s, s', of_decide_eq_true ha, of_decide_eq_true hrun', hle (bytes "10.0.0.1")⟩

end Limiting

end Webserver
