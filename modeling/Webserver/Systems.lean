/-
Transition systems whose steps are chosen by an environment: the states a
run reaches, runs whose steps all meet a condition, and the induction that
proves an invariant of them. For systems of threads, what one thread's step
does to a count over all threads.
-/
import Mathlib

namespace Systems

universe u v v' w

/-- A system: its initial states and, for an action, the state it leads to
where it is enabled. -/
structure System (σ : Type u) (α : Type v) where
  init : σ → Prop
  step : σ → α → Option σ

namespace System

variable {σ : Type u} {α : Type v} (S : System σ α)

/-- The states reached by runs whose every step meets `ok`, a condition on
the state before the step and the action taken. -/
inductive ReachableBy (ok : σ → α → Prop) : σ → Prop
  | init {s} : S.init s → ReachableBy ok s
  | step {s a s'} : ReachableBy ok s → ok s a → S.step s a = some s' → ReachableBy ok s'

/-- The states any run reaches. -/
abbrev Reachable : σ → Prop := S.ReachableBy fun _ _ => True

/-- The run that takes the given actions, if each is enabled. -/
def run (s : σ) : List α → Option σ
  | [] => some s
  | a :: as => (S.step s a).bind fun s' => run s' as

/-- The run that takes the given actions, if each is enabled and meets `ok`. -/
def runBy (ok : σ → α → Bool) (s : σ) : List α → Option σ
  | [] => some s
  | a :: as => if ok s a then (S.step s a).bind fun s' => runBy ok s' as else none

variable {S}

theorem ReachableBy.mono {ok ok' : σ → α → Prop} {s} (h : S.ReachableBy ok s)
    (hok : ∀ s a, ok s a → ok' s a) : S.ReachableBy ok' s := by
  induction h with
  | init hi => exact .init hi
  | step _ ha hs ih => exact .step ih (hok _ _ ha) hs

theorem ReachableBy.reachable {ok : σ → α → Prop} {s} (h : S.ReachableBy ok s) : S.Reachable s :=
  h.mono fun _ _ _ => trivial

/-- An invariant: it holds initially, and every step that meets the
condition keeps it. The step may use that the state before it is reached. -/
theorem ReachableBy.invariant {ok : σ → α → Prop} {I : σ → Prop} (hinit : ∀ s, S.init s → I s)
    (hstep : ∀ s a s', S.ReachableBy ok s → I s → ok s a → S.step s a = some s' → I s') {s}
    (h : S.ReachableBy ok s) : I s := by
  induction h with
  | init hi => exact hinit _ hi
  | step hr ha hs ih => exact hstep _ _ _ hr ih ha hs

theorem ReachableBy.of_runBy {ok : σ → α → Prop} {okb : σ → α → Bool}
    (hok : ∀ s a, okb s a = true → ok s a) {s s'} {as : List α} (h : S.ReachableBy ok s)
    (hr : S.runBy okb s as = some s') : S.ReachableBy ok s' := by
  induction as generalizing s with
  | nil => simp only [runBy, Option.some.injEq] at hr; exact hr ▸ h
  | cons a as ih =>
    simp only [runBy] at hr
    split at hr
    · next ha =>
      obtain ⟨s₁, h₁, h₂⟩ := Option.bind_eq_some_iff.mp hr
      exact ih (.step h (hok _ _ ha) h₁) h₂
    · cases hr

theorem runBy_mono {ok ok' : σ → α → Bool} (hok : ∀ s a, ok s a = true → ok' s a = true) {s s'} {as : List α}
    (hr : S.runBy ok s as = some s') : S.runBy ok' s as = some s' := by
  induction as generalizing s with
  | nil => exact hr
  | cons a as ih =>
    simp only [runBy] at hr ⊢
    split at hr
    · next ha =>
      obtain ⟨s₁, h₁, h₂⟩ := Option.bind_eq_some_iff.mp hr
      rw [if_pos (hok _ _ ha), h₁]
      exact ih h₂
    · cases hr

theorem Reachable.of_run {s s'} {as : List α} (h : S.Reachable s) (hr : S.run s as = some s') :
    S.Reachable s' := by
  induction as generalizing s with
  | nil => simp only [run, Option.some.injEq] at hr; exact hr ▸ h
  | cons a as ih =>
    obtain ⟨s₁, h₁, h₂⟩ := Option.bind_eq_some_iff.mp hr
    exact ih (.step h trivial h₁) h₂

/-- What every step keeps holds after a run if it holds before. -/
theorem invariant_of_run {I : σ → Prop} (hstep : ∀ s a s', I s → S.step s a = some s' → I s') {s s'}
    {as : List α} (h : I s) (hr : S.run s as = some s') : I s' := by
  induction as generalizing s with
  | nil => simp only [run, Option.some.injEq] at hr; exact hr ▸ h
  | cons a as ih =>
    obtain ⟨s₁, h₁, h₂⟩ := Option.bind_eq_some_iff.mp hr
    exact ih (hstep _ _ _ h h₁) h₂

/-- A simulation by the same actions: where the second system matches each
step of the first from related states, it matches each run. -/
theorem simulates {τ : Type v'} {S' : System τ α} {R : σ → τ → Prop}
    (hstep : ∀ s t a s', R s t → S.step s a = some s' → ∃ t', S'.step t a = some t' ∧ R s' t') {s s' t}
    {as : List α} (h : R s t) (hr : S.run s as = some s') : ∃ t', S'.run t as = some t' ∧ R s' t' := by
  induction as generalizing s t with
  | nil =>
    cases hr
    exact ⟨t, rfl, h⟩
  | cons a as ih =>
    obtain ⟨s₁, h₁, h₂⟩ := Option.bind_eq_some_iff.mp hr
    obtain ⟨t₁, ht₁, hrel⟩ := hstep _ _ _ _ h h₁
    obtain ⟨t', ht', hrel'⟩ := ih hrel h₂
    refine ⟨t', ?_, hrel'⟩
    rw [run, ht₁]
    exact ht'

/-- A projection: where a step is one of a part or nothing to the part, the part
reaches what the whole reaches of it. -/
theorem ReachableBy.projects {τ : Type v'} {β : Type w} {T : System τ β} {ok : σ → α → Prop}
    {okT : τ → β → Prop} (part : σ → τ) (hinit : ∀ s, S.init s → T.init (part s))
    (hstep : ∀ s a s', S.ReachableBy ok s → ok s a → S.step s a = some s' →
      part s' = part s ∨ ∃ b, okT (part s) b ∧ T.step (part s) b = some (part s')) {s}
    (h : S.ReachableBy ok s) : T.ReachableBy okT (part s) := by
  refine h.invariant (I := fun s => T.ReachableBy okT (part s)) (fun s hs => .init (hinit s hs)) ?_
  intro s a s' hr ih hok hs
  rcases hstep s a s' hr hok hs with heq | ⟨b, hb, hstep⟩
  · exact heq ▸ ih
  · exact .step ih hb hstep

/-- A run whose every step lowers a measure is no longer than the measure. -/
theorem length_le_of_runBy {okb : σ → α → Bool} (μ : σ → Nat)
    (hstep : ∀ s a s', okb s a = true → S.step s a = some s' → μ s' < μ s) {s s'} {as : List α}
    (hr : S.runBy okb s as = some s') : as.length + μ s' ≤ μ s := by
  induction as generalizing s with
  | nil =>
    cases hr
    simp
  | cons a as ih =>
    simp only [runBy] at hr
    split at hr
    · next ha =>
      obtain ⟨s₁, h₁, h₂⟩ := Option.bind_eq_some_iff.mp hr
      have hlt := hstep s a s₁ ha h₁
      have hle := ih h₂
      simp only [List.length_cons]
      omega
    · cases hr

/-- A run without end, and the actions it takes. -/
def Endless (S : System σ α) (f : Nat → σ) (a : Nat → α) : Prop :=
  ∀ k, S.step (f k) (a k) = some (f (k + 1))

/-- In a run without end steps that do not lower the measure come again and
again. -/
theorem Endless.exists_not {f : Nat → σ} {a : Nat → α} (h : S.Endless f a) (ok : σ → α → Prop)
    (μ : σ → Nat) (N : Nat) (hstep : ∀ k s', N ≤ k → ok (f k) (a k) → S.step (f k) (a k) = some s' →
      μ s' < μ (f k)) : ∃ k, N ≤ k ∧ ¬ ok (f k) (a k) := by
  by_contra hall
  have hok : ∀ k, N ≤ k → ok (f k) (a k) := fun k hk => by_contra fun hn => hall ⟨k, hk, hn⟩
  have falls : ∀ j, μ (f (N + j)) + j ≤ μ (f N) := by
    intro j
    induction j with
    | zero => simp
    | succ j ih =>
      have hlt := hstep (N + j) _ (Nat.le_add_right N j) (hok _ (Nat.le_add_right N j)) (h (N + j))
      rw [Nat.add_assoc] at hlt
      omega
  have := falls (μ (f N) + 1)
  omega

/-- A run that meets the condition and ends in a state with a property is
evidence of a reachable state that has it. -/
theorem exists_reachableBy {s} (hs : S.init s) (okb : σ → α → Bool) (as : List α) (p : σ → Bool)
    (h : (S.runBy okb s as).any p = true) :
    ∃ s', S.ReachableBy (fun s a => okb s a = true) s' ∧ p s' = true := by
  cases hr : S.runBy okb s as with
  | none => rw [hr] at h; cases h
  | some s' => exact ⟨s', .of_runBy (fun _ _ => id) (.init hs) hr, by simpa [hr] using h⟩

theorem exists_reachable {s} (hs : S.init s) (as : List α) (p : σ → Bool)
    (h : (S.run s as).any p = true) : ∃ s', S.Reachable s' ∧ p s' = true := by
  cases hr : S.run s as with
  | none => rw [hr] at h; cases h
  | some s' => exact ⟨s', .of_run (.init hs) hr, by simpa [hr] using h⟩

end System

/-- One thread moves from `f t` to `x`: what the threads add up to. -/
theorem sum_update {Θ : Type u} {β : Type v} [Fintype Θ] [DecidableEq Θ] (f : Θ → β) (t : Θ) (x : β)
    (g : β → Nat) :
    ∑ t', g (Function.update f t x t') + g (f t) = ∑ t', g (f t') + g x := by
  have h : ∀ t', g (Function.update f t x t') = Function.update (fun t' => g (f t')) t (g x) t' := by
    intro t'
    by_cases ht : t' = t <;> simp [ht]
  simp only [h]
  rw [Finset.sum_update_of_mem (Finset.mem_univ t), ← Finset.add_sum_erase _ _ (Finset.mem_univ t),
    Finset.sdiff_singleton_eq_erase]
  omega

theorem le_sum {Θ : Type u} [Fintype Θ] (g : Θ → Nat) (t : Θ) : g t ≤ ∑ t', g t' :=
  Finset.single_le_sum (fun _ _ => Nat.zero_le _) (Finset.mem_univ t)

/-- Where each thread counts one at most and one counts nothing. -/
theorem sum_le_others {Θ : Type u} [Fintype Θ] [DecidableEq Θ] {g : Θ → Nat} (h : ∀ t, g t ≤ 1) {t : Θ}
    (ht : g t = 0) : ∑ t', g t' ≤ Fintype.card Θ - 1 := by
  rw [← Finset.add_sum_erase _ _ (Finset.mem_univ t), ht, Nat.zero_add]
  have hle := Finset.sum_le_card_nsmul (Finset.univ.erase t) g 1 fun t' _ => h t'
  rwa [Finset.card_erase_of_mem (Finset.mem_univ t), Finset.card_univ, smul_eq_mul, Nat.mul_one] at hle

end Systems
