/-
Token buckets: a request takes one token if there is one, and brings the
tokens due since the request before it, up to a capacity. What is due between
two points in time is a parameter, so that a clock may be coarse; a history
is the list of the times of a bucket's requests, latest first.
-/
import Mathlib

namespace Bucket

universe u v

variable {K : Type u} [Field K] [LinearOrder K] {T : Type v}

/-- The tokens after a refill. -/
def fill (cap tokens due : K) : K := min cap (tokens + due)

/-- A request: the tokens left, and whether it took one. -/
def spend (tokens : K) : K × Bool := if 1 ≤ tokens then (tokens - 1, true) else (tokens, false)

/-- The tokens taken by a request. -/
def cost (admitted : Bool) : K := if admitted then 1 else 0

theorem fill_le (cap tokens due : K) : fill cap tokens due ≤ cap := min_le_left _ _

theorem fill_le_add (cap tokens due : K) : fill cap tokens due ≤ tokens + due := min_le_right _ _

theorem fill_of_le {cap tokens due : K} (h : cap ≤ tokens + due) : fill cap tokens due = cap :=
  min_eq_left h

theorem spend_add_cost (tokens : K) : (spend tokens).1 + cost (spend tokens).2 = tokens := by
  unfold spend
  split <;> simp [cost]

theorem spend_of_le {tokens : K} (h : 1 ≤ tokens) : spend tokens = (tokens - 1, true) := if_pos h

/-! ## The bucket of one client -/

section

variable (cap : K) (due : T → T → K)

/-- The tokens a request at `t` finds after the requests before it, where
`tokens` are those they left. -/
def found (t : T) (tokens : K) : List T → K
  | [] => cap
  | t' :: _ => fill cap tokens (due t' t)

/-- The tokens left after the requests of a history; a new bucket is full. -/
def left : List T → K
  | [] => cap
  | t :: ts => (spend (found cap due t (left ts) ts)).1

/-- Whether the last request of a history is admitted. -/
def admits (t : T) (ts : List T) : Bool := (spend (found cap due t (left cap due ts) ts)).2

/-- The requests of a history with their answers. -/
def answers : List T → List (T × Bool)
  | [] => []
  | t :: ts => (t, admits cap due t ts) :: answers ts

/-- By how much the requests of a stretch of the history that ends with its
last one exceed the tokens due between them, at most. -/
def shortfall : List T → K
  | t :: t' :: ts => max 0 (shortfall (t' :: ts) + 1 - due t' t)
  | _ => 0

/-- The admitted requests from `start` to `stop`. -/
def admitted [LinearOrder T] (start stop : T) (log : List (T × Bool)) : Nat :=
  log.countP fun p => p.2 && start ≤ p.1 && p.1 ≤ stop

end

section

variable (cap : K) (due : T → T → K)

theorem left_cons_add_cost (t : T) (ts : List T) :
    left cap due (t :: ts) + cost (admits cap due t ts) = found cap due t (left cap due ts) ts :=
  spend_add_cost _

theorem found_le (t : T) (tokens : K) (ts : List T) : found cap due t tokens ts ≤ cap := by
  cases ts with
  | nil => exact le_rfl
  | cons t' ts => exact fill_le _ _ _

theorem times_answers (ts : List T) : (answers cap due ts).map (·.1) = ts := by
  induction ts with
  | nil => rfl
  | cons t ts ih => rw [answers, List.map_cons, ih]

theorem shortfall_nonneg (ts : List T) : 0 ≤ shortfall due ts := by
  unfold shortfall
  split
  · exact le_max_left _ _
  · exact le_rfl

end

variable {cap : K} {due : T → T → K}

variable [IsStrictOrderedRing K]

theorem fill_nonneg {tokens due : K} (hc : 0 ≤ cap) (ht : 0 ≤ tokens) (hd : 0 ≤ due) :
    0 ≤ fill cap tokens due := le_min hc (add_nonneg ht hd)

theorem spend_nonneg {tokens : K} (h : 0 ≤ tokens) : 0 ≤ (spend tokens).1 := by
  unfold spend
  split
  · next h₁ => exact sub_nonneg.mpr h₁
  · exact h

/-- Where a token is due between any two successive requests, nothing is
missing. -/
theorem shortfall_eq_zero {ts : List T} (h : ts.IsChain fun t t' => 1 ≤ due t' t) :
    shortfall due ts = 0 := by
  induction ts with
  | nil => rfl
  | cons t ts ih =>
    cases ts with
    | nil => rfl
    | cons t' ts =>
      obtain ⟨hdue, hrest⟩ := List.isChain_cons_cons.mp h
      rw [shortfall, ih hrest]
      exact max_eq_left (by linarith)

/-- A bucket that lacks no more than the shortfall still does after its next
refill. -/
theorem le_fill_of_shortfall {t t' : T} {ts : List T} {tokens : K}
    (h : cap - 1 - shortfall due (t' :: ts) ≤ tokens) :
    cap - shortfall due (t :: t' :: ts) ≤ fill cap tokens (due t' t) := by
  have h₀ : 0 ≤ shortfall due (t :: t' :: ts) := le_max_left _ _
  have h₁ : shortfall due (t' :: ts) + 1 - due t' t ≤ shortfall due (t :: t' :: ts) :=
    le_max_right _ _
  exact le_min (by linarith) (by linarith)

/-! ## Two buckets -/

/-- The second of two buckets is ahead: it has admitted no fewer requests, and
no fewer with the tokens it has left. -/
structure Ahead (n : Nat) (tokens : K) (n' : Nat) (tokens' : K) : Prop where
  count : n ≤ n'
  total : n + tokens ≤ n' + tokens'

namespace Ahead

variable {n n' : Nat} {tokens tokens' : K}

theorem of_le (hn : n ≤ n') (ht : tokens ≤ tokens') : Ahead n tokens n' tokens' :=
  ⟨hn, add_le_add (Nat.cast_le.mpr hn) ht⟩

theorem fill {cap' d d' : K} (h : Ahead n tokens n' tokens') (hc : cap ≤ cap') (hd : d ≤ d') :
    Ahead n (Bucket.fill cap tokens d) n' (Bucket.fill cap' tokens' d') := by
  have hcount : (n : K) ≤ n' := Nat.cast_le.mpr h.count
  have htotal := h.total
  have hcap := fill_le cap tokens d
  have hadd := fill_le_add cap tokens d
  refine ⟨h.count, ?_⟩
  rw [← sub_le_iff_le_add']
  exact le_min (by linarith) (by linarith)

/-- Where only the first admits a request, the second has admitted one more
before. -/
theorem spend (h : Ahead n tokens n' tokens') :
    Ahead (n + (Bucket.spend tokens).2.toNat) (Bucket.spend tokens).1 (n' + (Bucket.spend tokens').2.toNat)
      (Bucket.spend tokens').1 := by
  have htotal := h.total
  have hcount := h.count
  unfold Bucket.spend
  split
  case isTrue h₁ =>
    split
    case isTrue =>
      refine ⟨Nat.add_le_add_right hcount 1, ?_⟩
      push_cast [Bool.toNat_true]
      linarith
    case isFalse h₂ =>
      have hlt : (n : K) < n' := by linarith [not_le.mp h₂]
      refine ⟨Nat.cast_lt.mp hlt, ?_⟩
      push_cast [Bool.toNat_true, Bool.toNat_false]
      linarith
  case isFalse =>
    split
    case isTrue =>
      refine ⟨hcount.trans (Nat.le_add_right _ _), ?_⟩
      push_cast [Bool.toNat_true, Bool.toNat_false]
      linarith
    case isFalse => exact ⟨hcount, by simpa using htotal⟩

end Ahead

/-! ## Windows -/

section

variable [LinearOrder T] {worth : T → K}

theorem left_nonneg (hc : 0 ≤ cap) (hdue : ∀ t t', t ≤ t' → 0 ≤ due t t') {ts : List T}
    (hs : ts.Pairwise (· ≥ ·)) : 0 ≤ left cap due ts := by
  induction ts with
  | nil => exact hc
  | cons t ts ih =>
    refine spend_nonneg ?_
    cases ts with
    | nil => exact hc
    | cons t' ts =>
      obtain ⟨hle, hs⟩ := List.pairwise_cons.mp hs
      exact fill_nonneg hc (ih hs) (hdue _ _ (hle t' List.mem_cons_self))

variable (cap due) in
omit [IsStrictOrderedRing K] in
/-- No request of a history that ends before a window is in it. -/
theorem admitted_eq_zero (stop : T) {start t : T} {ts : List T} (hs : (t :: ts).Pairwise (· ≥ ·))
    (ht : t < start) : admitted start stop (answers cap due (t :: ts)) = 0 := by
  refine List.countP_eq_zero.mpr fun p hp => ?_
  have hmem : p.1 ∈ t :: ts := by
    rw [← times_answers cap due (t :: ts)]
    exact List.mem_map_of_mem hp
  have hle : p.1 ≤ t := by
    rcases List.mem_cons.mp hmem with he | hm
    · exact he.le
    · exact (List.pairwise_cons.mp hs).1 p.1 hm
  have : ¬ start ≤ p.1 := not_le.mpr (lt_of_le_of_lt hle ht)
  simp [this]

variable (cap due) in
theorem admitted_cons_le (start stop t : T) (ts : List T) :
    (admitted start stop (answers cap due (t :: ts)) : K) ≤
      admitted start stop (answers cap due ts) + cost (admits cap due t ts) := by
  rw [answers, admitted, List.countP_cons]
  cases admits cap due t ts with
  | false => simp [cost, admitted]
  | true =>
    push_cast
    refine add_le_add le_rfl ?_
    split <;> simp [cost]

variable (cap) in
/-- If no more is due than time is worth, a window admits at most the
capacity and what the window is worth, less the tokens left. -/
theorem admitted_add_left_le (hdue : ∀ t t', t ≤ t' → due t t' ≤ worth t' - worth t)
    (hworth : Monotone worth) {start t : T} (stop : T) {ts : List T}
    (hs : (t :: ts).Pairwise (· ≥ ·)) (ht : start ≤ t) :
    admitted start stop (answers cap due (t :: ts)) + left cap due (t :: ts) ≤
      cap + (worth t - worth start) := by
  have hw := hworth ht
  have hcount := admitted_cons_le cap due start stop t ts
  have hleft := left_cons_add_cost cap due t ts
  induction ts generalizing t with
  | nil =>
    have hzero : admitted start stop (answers cap due []) = 0 := rfl
    have hfound : found cap due t (left cap due []) [] = cap := rfl
    rw [hzero, Nat.cast_zero] at hcount
    linarith
  | cons t' ts ih =>
    obtain ⟨hle, hs'⟩ := List.pairwise_cons.mp hs
    have htt : t' ≤ t := hle t' List.mem_cons_self
    by_cases ht' : start ≤ t'
    · have := ih hs' ht' (hworth ht') (admitted_cons_le cap due start stop t' ts)
        (left_cons_add_cost cap due t' ts)
      have hfound : found cap due t (left cap due (t' :: ts)) (t' :: ts) ≤
          left cap due (t' :: ts) + due t' t := fill_le_add _ _ _
      have := hdue t' t htt
      linarith
    · -- the bucket may be full where the window starts
      have hzero := admitted_eq_zero cap due stop hs' (not_le.mp ht')
      have hfound := found_le cap due t (left cap due (t' :: ts)) (t' :: ts)
      rw [hzero, Nat.cast_zero] at hcount
      linarith

/-- A window admits at most the capacity and what the window is worth. -/
theorem admitted_le_cap (hc : 0 ≤ cap) (hnonneg : ∀ t t', t ≤ t' → 0 ≤ due t t')
    (hdue : ∀ t t', t ≤ t' → due t t' ≤ worth t' - worth t) (hworth : Monotone worth)
    {start stop : T} (hle : start ≤ stop) {ts : List T} (hs : ts.Pairwise (· ≥ ·)) :
    (admitted start stop (answers cap due ts) : K) ≤ cap + (worth stop - worth start) := by
  have hw := hworth hle
  induction ts with
  | nil =>
    have hzero : admitted start stop (answers cap due []) = 0 := rfl
    rw [hzero, Nat.cast_zero]
    linarith
  | cons t ts ih =>
    have ih := ih (List.pairwise_cons.mp hs).2
    by_cases hstop : t ≤ stop
    · by_cases hstart : start ≤ t
      · have := admitted_add_left_le cap hdue hworth stop hs hstart
        have := left_nonneg hc hnonneg hs
        have := hworth hstop
        linarith
      · rw [admitted_eq_zero cap due stop hs (not_le.mp hstart), Nat.cast_zero]
        linarith
    · have hskip : admitted start stop (answers cap due (t :: ts)) =
          admitted start stop (answers cap due ts) := by
        rw [answers, admitted, List.countP_cons_of_neg (by simp [hstop])]
        rfl
      rw [hskip]
      exact ih

end

end Bucket
