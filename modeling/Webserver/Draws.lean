/-
Who draws on which bucket. Each bucket of the limiter has a number, given as it
is emplaced; the address and the bucket of each request are noted, and the
buckets a clean-up erases. While its bucket lasts, two requests draw on
one bucket if and only if they have one key, which is not to say one IP.
-/
import Webserver.Addresses
import Webserver.Entries
import Webserver.Limits

namespace Webserver

open Cxx Systems Entries RateLimiter

inductive DrawOp
  | isAllowed (client : Address) (now swept created refilled : Int)
  | cleanupExpiredBuckets (now : Int)
  | resetStats

/-- The call of the limiter. -/
def DrawOp.limiterOp : DrawOp → LimiterOp
  | isAllowed client now swept created refilled => .isAllowed client.text now swept created refilled
  | cleanupExpiredBuckets now => .cleanupExpiredBuckets now
  | resetStats => .resetStats

/-- A limiter at work, with the numbers of its buckets. -/
structure Draws where
  limiting : Limiting
  table : Table Address Bytes

namespace Draws

/-- The buckets a limiter has. -/
def has (l : RateLimiter) (key : Bytes) : Bool := (l.buckets.lookup key).isSome

/-- What a call does to the buckets: the clean-up that `is_allowed` begins with,
then the request on the bucket of its key. -/
def note (l : RateLimiter) (t : Table Address Bytes) : DrawOp → Table Address Bytes
  | .isAllowed client now swept _ _ => (t.sweep (has (l.autoCleanup now swept))).use Address.key client
  | .cleanupExpiredBuckets now => t.sweep (has (l.cleanupExpiredBuckets now))
  | .resetStats => t

def exec (s : Draws) (op : DrawOp) : Option Draws :=
  (s.limiting.exec op.limiterOp).map fun limiting => { limiting, table := note s.limiting.limiter s.table op }

def system (rate burst : ℚ) (start : Int) : System Draws DrawOp where
  init s := (Limiting.system rate burst start).init s.limiting ∧ s.table = .empty
  step := exec

variable {rate burst : ℚ} {start : Int} {s : Draws}

theorem reachable_limiting (h : (system rate burst start).Reachable s) :
    (Limiting.system rate burst start).Reachable s.limiting := by
  induction h with
  | init hs => exact .init hs.1
  | step _ _ hs ih =>
    obtain ⟨limiting, hexec, rfl⟩ := Option.map_eq_some_iff.mp hs
    exact .step ih trivial hexec

theorem has_autoCleanup {l : RateLimiter} {now swept : Int} {key : Bytes}
    (h : has (l.autoCleanup now swept) key = true) : has l key = true := by
  unfold has at h ⊢
  rw [lookup_autoCleanup] at h
  split at h
  · exact Option.isSome_of_isSome_filter _ _ h
  · exact h

theorem has_cleanupExpiredBuckets {l : RateLimiter} {now : Int} {key : Bytes}
    (h : has (l.cleanupExpiredBuckets now) key = true) : has l key = true := by
  unfold has at h ⊢
  rw [lookup_cleanupExpiredBuckets] at h
  exact Option.isSome_of_isSome_filter _ _ h

theorem has_isAllowed {l : RateLimiter} (he : l.enabled = true) (address : Bytes)
    (now swept created refilled : Int) (key : Bytes) :
    has (l.isAllowed address now swept created refilled).1 key = true ↔
      key = extractIpFromAddress address ∨ has (l.autoCleanup now swept) key = true := by
  have hserves := isAllowed_serves he address now swept created refilled
  unfold has
  by_cases hkey : key = extractIpFromAddress address
  · rw [hkey, hserves.bucket]
    simp
  · rw [hserves.others key hkey]
    simp [hkey]

/-- The numbered buckets are those of the limiter. -/
theorem live_iff (h : (system rate burst start).Reachable s) (key : Bytes) :
    key ∈ s.table.live ↔ has s.limiting.limiter key = true := by
  induction h with
  | init hs =>
    rw [hs.2, hs.1]
    exact iff_of_false List.not_mem_nil (by simp [has, make])
  | @step s op s' hr _ hs ih =>
    obtain ⟨limiting, hexec, rfl⟩ := Option.map_eq_some_iff.mp hs
    cases op with
    | isAllowed client now swept created refilled =>
      have henabled := (Limiting.steady (reachable_limiting hr)).enabled
      have hlimiter : limiting.limiter = (s.limiting.limiter.isAllowed client.text now swept created refilled).1 := by
        cases Limiting.exec_steps hexec
        rfl
      rw [note, Table.mem_live_use, Table.mem_live_sweep, ih, hlimiter, has_isAllowed henabled]
      exact or_congr_right (and_iff_right_of_imp has_autoCleanup)
    | cleanupExpiredBuckets now =>
      have hlimiter : limiting.limiter = s.limiting.limiter.cleanupExpiredBuckets now := by
        cases Limiting.exec_steps hexec
        rfl
      rw [note, Table.mem_live_sweep, ih, hlimiter]
      exact and_iff_right_of_imp has_cleanupExpiredBuckets
    | resetStats =>
      cases hexec
      exact ih

theorem sound (h : (system rate burst start).Reachable s) : s.table.Sound Address.key := by
  induction h with
  | init hs =>
    rw [hs.2]
    exact Table.sound_empty
  | @step s op s' _ _ hs ih =>
    obtain ⟨limiting, -, rfl⟩ := Option.map_eq_some_iff.mp hs
    cases op with
    | isAllowed client now swept created refilled => exact (ih.sweep _).use client
    | cleanupExpiredBuckets now => exact ih.sweep _
    | resetStats => exact ih

/-- **One bucket per IP, where the cut is clear.** Whatever calls are made, of
two requests: they draw on the entry of one key if and only if their clients
have one IP, exactly where the cut at the last colon is clear about their
addresses. So it is with the bucket itself while it lasts; once it has been
erased, a later request draws on another. -/
theorem sameBucket_iff (h : (system rate burst start).Reachable s) {after between before : List (Entries.Event Address)}
    {a b : Address} {m n : Nat}
    (hevents : s.table.events = after ++ .used b n :: (between ++ .used a m :: before)) :
    ((a.key = b.key ↔ a.ip = b.ip) ↔ a.Clear b) ∧
      (.removed m ∉ between → ((m = n ↔ a.ip = b.ip) ↔ a.Clear b)) ∧ (.removed m ∈ between → m ≠ n) := by
  have hkey := Address.key_eq_iff a b
  have hsame : n = m ↔ b.key = a.key ∧ .removed m ∉ between := (sound h).same after b n between a m before hevents
  rw [eq_comm, @eq_comm _ b.key] at hsame
  refine ⟨hkey, fun hkept => ?_, fun herased heq => ?_⟩
  · rwa [hsame, and_iff_left hkept]
  · exact (hsame.mp heq).2 herased

theorem read_v4 : Ip.read (bytes "192.168.1.100") = some (.v4 [192, 168, 1, 100]) := by decide

theorem digits_ports : ((some (bytes "8080")).all fun p => !p.isEmpty && p.all isDigit) = true ∧
    ((some (bytes "9090")).all fun p => !p.isEmpty && p.all isDigit) = true := by decide

/-- One host, from two ports. -/
def port8080 : Address := ⟨bytes "192.168.1.100", some (bytes "8080"), _, read_v4, digits_ports.1⟩

def port9090 : Address := ⟨bytes "192.168.1.100", some (bytes "9090"), _, read_v4, digits_ports.2⟩

/-- A request at the start. -/
def request (client : Address) : DrawOp := .isAllowed client 0 0 0 0

theorem sameBucket_iff_ports : ∃ s : Draws, (system 1 1 0).Reachable s ∧
    s.table.events = [.used port9090 0, .used port8080 0] ∧
    ((port8080.key = port9090.key ↔ port8080.ip = port9090.ip) ↔ port8080.Clear port9090) ∧
    ((.removed 0 : Entries.Event Address) ∉ [] →
      ((0 = 0 ↔ port8080.ip = port9090.ip) ↔ port8080.Clear port9090)) ∧
    ((.removed 0 : Entries.Event Address) ∈ [] → 0 ≠ 0) := by
  obtain ⟨s, hr, hs⟩ := System.exists_reachable (S := system 1 1 0)
    (s := ⟨⟨.make 1 1 true 0, 0, []⟩, .empty⟩) ⟨rfl, rfl⟩ [request port8080, request port9090]
    (fun s => s.table.events = [.used port9090 0, .used port8080 0]) (by decide +kernel)
  have hevents := of_decide_eq_true hs
  exact ⟨s, hr, hevents, @sameBucket_iff 1 1 0 s hr [] [] [] _ _ _ _ hevents⟩

theorem read_v6 : Ip.read (bytes "2001:db8::1") = some (.v6 [8193, 3512, 0, 0, 0, 0, 0, 1]) ∧
    Ip.read (bytes "2001:db8::2") = some (.v6 [8193, 3512, 0, 0, 0, 0, 0, 2]) := by decide

theorem digits_none : ((none : Option Bytes).all fun p => !p.isEmpty && p.all isDigit) = true := rfl

/-- Two hosts of one network. -/
def host1 : Address := ⟨bytes "2001:db8::1", none, _, read_v6.1, digits_none⟩

def host2 : Address := ⟨bytes "2001:db8::2", none, _, read_v6.2, digits_none⟩

theorem not_sameBucket_iff : ¬∀ (s : Draws) (a b : Address) (m n : Nat) (before : List (Entries.Event Address)),
    (system 10 20 0).Reachable s → s.table.events = .used b n :: .used a m :: before → (m = n ↔ a.ip = b.ip) := by
  intro h
  obtain ⟨s, hr, hs⟩ := System.exists_reachable (S := system 10 20 0)
    (s := ⟨⟨.make 10 20 true 0, 0, []⟩, .empty⟩) ⟨rfl, rfl⟩ [request host1, request host2]
    (fun s => s.table.events = [.used host2 0, .used host1 0]) (by decide +kernel)
  exact absurd ((h s host1 host2 0 0 [] hr (of_decide_eq_true hs)).mp rfl) (by decide)

end Draws

end Webserver
