/-
Mutexes held by threads: ownership, who waits for whom, and deadlock.

A thread's locks nest (`std::lock_guard`): the one taken last is released
first, so a thread holds a stack of them. `Consistent` ties the owner the
mutexes record to the stacks; `Consistent.step` keeps it through a lock
operation. A deadlock is a cycle of threads each waiting for a mutex the next
one owns; `not_deadlock_of_rank` excludes it by a rank that falls along every
wait for a thread that is itself waiting.
-/
import Mathlib

namespace Locks

variable {M Θ : Type*} [DecidableEq M]

/-- What a step does to the mutexes. -/
inductive LockOp (M : Type*)
  | skip
  | lock (m : M)
  | unlock (m : M)

/-- The owners after thread `t`'s operation; a mutex that is owned cannot be
locked. -/
def LockOp.apply (t : Θ) (own : M → Option Θ) : LockOp M → Option (M → Option Θ)
  | .skip => some own
  | .lock m => match own m with
    | none => some (Function.update own m (some t))
    | some _ => none
  | .unlock m => some (Function.update own m none)

/-- The mutex an operation waits for. -/
def LockOp.wants : LockOp M → Option M
  | .lock m => some m
  | _ => none

/-- The stacks of a thread's mutexes before and after an operation. -/
def LockOp.Moves (before after : List M) : LockOp M → Prop
  | .skip => after = before
  | .lock m => after = m :: before
  | .unlock m => before = m :: after

/-- The owner each mutex records is the thread that holds it, and no thread
holds a mutex twice. -/
structure Consistent (own : M → Option Θ) (held : Θ → List M) : Prop where
  owner : ∀ m t, own m = some t ↔ m ∈ held t
  nodup : ∀ t, (held t).Nodup

omit [DecidableEq M] in
theorem Consistent.exclusive {own : M → Option Θ} {held : Θ → List M} (h : Consistent own held)
    {m} (t t' : Θ) (ht : m ∈ held t) (ht' : m ∈ held t') : t = t' := by
  have h₁ := (h.owner m t).mpr ht
  have h₂ := (h.owner m t').mpr ht'
  rw [h₁] at h₂
  simpa using h₂

section

variable {own : M → Option Θ} {held held' : Θ → List M} {t : Θ} {m : M}

theorem Consistent.lock (h : Consistent own held) (hfree : own m = none)
    (ht : held' t = m :: held t) (hf : ∀ t', t' ≠ t → held' t' = held t') :
    Consistent (Function.update own m (some t)) held' := by
  have hnot : ∀ t', m ∉ held t' := fun t' hmem => by
    have := (h.owner m t').mpr hmem
    rw [hfree] at this
    cases this
  refine ⟨fun m' t' => ?_, fun t' => ?_⟩
  · rw [Function.update_apply]
    by_cases ht' : t' = t
    · subst ht'
      by_cases hm : m' = m
      · simp [ht, hm]
      · simp [ht, hm, h.owner]
    · rw [hf t' ht']
      by_cases hm : m' = m
      · simp [hm, Ne.symm ht', hnot]
      · simp [hm, h.owner]
  · by_cases ht' : t' = t
    · rw [ht', ht]; exact List.nodup_cons.mpr ⟨hnot t, h.nodup t⟩
    · rw [hf t' ht']; exact h.nodup t'

theorem Consistent.unlock (h : Consistent own held) (ht : held t = m :: held' t)
    (hf : ∀ t', t' ≠ t → held' t' = held t') : Consistent (Function.update own m none) held' := by
  have hnd : m ∉ held' t ∧ (held' t).Nodup := List.nodup_cons.mp (ht ▸ h.nodup t)
  have hmem : m ∈ held t := by rw [ht]; simp
  refine ⟨fun m' t' => ?_, fun t' => ?_⟩
  · rw [Function.update_apply]
    by_cases ht' : t' = t
    · subst ht'
      by_cases hm : m' = m
      · simp [hm, hnd.1]
      · have := h.owner m' t'
        rw [ht] at this
        simpa [hm] using this
    · rw [hf t' ht']
      by_cases hm : m' = m
      · have : m ∉ held t' := fun hx => ht' (h.exclusive _ _ hx hmem)
        simp [hm, this]
      · simp [hm, h.owner]
  · by_cases ht' : t' = t
    · rw [ht']; exact hnd.2
    · rw [hf t' ht']; exact h.nodup t'

/-- A thread's lock operation keeps ownership and stacks in agreement. -/
theorem Consistent.step {own' : M → Option Θ} {op : LockOp M} (h : Consistent own held)
    (ha : op.apply t own = some own') (hm : op.Moves (held t) (held' t))
    (hf : ∀ t', t' ≠ t → held' t' = held t') : Consistent own' held' := by
  cases op with
  | skip =>
    simp only [LockOp.apply, Option.some.injEq] at ha
    simp only [LockOp.Moves] at hm
    have : held' = held := by
      funext t'
      by_cases ht' : t' = t
      · rw [ht', hm]
      · exact hf t' ht'
    rw [← ha, this]
    exact h
  | lock m =>
    simp only [LockOp.apply] at ha
    split at ha
    · next hfree =>
      simp only [Option.some.injEq] at ha
      exact ha ▸ h.lock hfree hm hf
    · cases ha
  | unlock m =>
    simp only [LockOp.apply, Option.some.injEq] at ha
    exact ha ▸ h.unlock hm hf

end

/-! ## Waiting -/

/-- `t` waits for a mutex that `t'` owns. -/
def WaitsFor (own : M → Option Θ) (wants : Θ → Option M) (t t' : Θ) : Prop :=
  ∃ m, wants t = some m ∧ own m = some t'

/-- A cycle of threads each waiting for a mutex the next one owns. -/
def Deadlock (own : M → Option Θ) (wants : Θ → Option M) : Prop :=
  ∃ t, Relation.TransGen (WaitsFor own wants) t t

omit [DecidableEq M] in
/-- No cycle where a rank falls along every wait for a thread that waits
itself: all threads of a cycle wait. -/
theorem not_deadlock_of_rank {own : M → Option Θ} {wants : Θ → Option M} (rank : Θ → Nat)
    (h : ∀ t t' t'', WaitsFor own wants t t' → WaitsFor own wants t' t'' → rank t' < rank t) :
    ¬ Deadlock own wants := by
  rintro ⟨t, ht⟩
  have key : ∀ {a b}, Relation.TransGen (WaitsFor own wants) a b →
      (∃ c, WaitsFor own wants b c) → rank b < rank a := by
    intro a b hab
    induction hab with
    | single hab => exact fun ⟨c, hbc⟩ => h _ _ _ hab hbc
    | tail _ hbc ih => exact fun ⟨d, hcd⟩ => Nat.lt_trans (h _ _ _ hbc hcd) (ih ⟨_, hbc⟩)
  obtain ⟨t', ht', -⟩ := Relation.TransGen.head'_iff.mp ht
  exact Nat.lt_irrefl _ (key ht ⟨t', ht'⟩)

omit [DecidableEq M] in
/-- Without a cycle, the waits of a thread lead to one that waits for none. -/
theorem exists_not_waiting [Finite Θ] {own : M → Option Θ} {wants : Θ → Option M}
    (h : ¬ Deadlock own wants) (t : Θ) :
    ∃ t', Relation.ReflTransGen (WaitsFor own wants) t t' ∧ ∀ t'', ¬ WaitsFor own wants t' t'' := by
  have irrefl : Std.Irrefl (flip (Relation.TransGen (WaitsFor own wants))) := ⟨fun t ht => h ⟨t, ht⟩⟩
  have trans : IsTrans Θ (flip (Relation.TransGen (WaitsFor own wants))) :=
    ⟨fun _ _ _ h₁ h₂ => h₂.trans h₁⟩
  have wf : WellFounded (flip (Relation.TransGen (WaitsFor own wants))) :=
    Finite.wellFounded_of_trans_of_irrefl _
  induction t using wf.induction with
  | _ t ih =>
    by_cases hw : ∃ t', WaitsFor own wants t t'
    · obtain ⟨t', ht'⟩ := hw
      obtain ⟨t'', hchain, hend⟩ := ih t' (.single ht')
      exact ⟨t'', .head ht' hchain, hend⟩
    · exact ⟨t, .refl, fun t' ht' => hw ⟨t', ht'⟩⟩

omit [DecidableEq M] in
/-- The thread the waits lead to, if it is another one, holds a mutex. -/
theorem Consistent.holds_of_waits {own : M → Option Θ} {held : Θ → List M} {wants : Θ → Option M}
    (hc : Consistent own held) {t t'} (h : Relation.ReflTransGen (WaitsFor own wants) t t') :
    t' = t ∨ held t' ≠ [] := by
  rcases h.cases_tail with rfl | ⟨t₁, -, m, -, hm⟩
  · exact .inl rfl
  · exact .inr (List.ne_nil_of_mem ((hc.owner m t').mp hm))

/-- A thread that waits for no other can take its lock operation. -/
theorem LockOp.apply_of_not_waiting {own : M → Option Θ} {wants : Θ → Option M} {op : LockOp M} {t}
    (hop : wants t = op.wants) (h : ∀ t', ¬ WaitsFor own wants t t') :
    ∃ own', op.apply t own = some own' := by
  cases op with
  | lock m =>
    cases hm : own m with
    | none => exact ⟨Function.update own m (some t), by simp [LockOp.apply, hm]⟩
    | some t' => exact absurd ⟨m, hop, hm⟩ (h t')
  | _ => exact ⟨_, rfl⟩

end Locks
