/-
Wakeups in the thread pool. `notify_one` is called after the mutex is
released and may find nobody to wake; but a worker blocks only where the
queue is empty, so that tasks with every worker blocked have a notification
under way.
-/
import Webserver.ThreadPool

namespace Webserver.ThreadPool

open Locks Systems

namespace Worker

variable {n : Nat} {ι : Type}

/-- A worker blocks where the queue is empty and the flag not set. -/
theorem Steps.blocks {s : Shared n ι} {w} {pc : Worker ι} {s' pc'} (h : Steps s w pc s' pc')
    (hb : pc' = .blocked) : s'.tasks = [] ∧ s.shutdown = false := by
  cases h with
  | block hs empty => exact ⟨empty, hs⟩
  | _ => cases hb

theorem Steps.shutdown {s : Shared n ι} {w} {pc : Worker ι} {s' pc'} (h : Steps s w pc s' pc') :
    s'.shutdown = s.shutdown := by
  cases h <;> rfl

theorem wake_ne_blocked (pc : Worker ι) : pc.wake ≠ .blocked := by
  cases pc <;> simp [wake]

end Worker

/-- `shutdown` has stored the flag and goes on to notify and join. -/
def Shutdown.hasStored {n : Nat} : Shutdown n → Bool
  | .notifyAll | .joinTest _ | .join _ _ | .waits _ _ => true
  | _ => false

namespace State

variable {n : Nat} {ι κ : Type} [DecidableEq ι] [DecidableEq κ]

/-- A worker is not blocked or a notification is under way, if there is a task. -/
def Attended (s : State n ι κ) : Prop :=
  s.shared.tasks ≠ [] → (∃ w, s.worker w ≠ .blocked) ∨ ∃ e, s.enqueuer e = .notify

omit [DecidableEq κ] in
/-- A caller of `enqueue` that is not about to notify takes no notification away. -/
theorem Attended.goto {s : State n ι κ} (h : s.Attended) {e : ι} {pc : Enqueue} {s₁ : State n ι κ}
    (hpc : s.enqueuer e ≠ .notify) (he : s₁.enqueuer = Function.update s.enqueuer e pc)
    (htasks : s₁.shared.tasks = s.shared.tasks) (hw : s₁.worker = s.worker) : s₁.Attended := by
  intro hne
  rcases h (htasks ▸ hne) with ⟨w, hb⟩ | ⟨e', he'⟩
  · exact .inl ⟨w, hw ▸ hb⟩
  · have hne : e' ≠ e := fun heq => hpc (heq ▸ he')
    exact .inr ⟨e', by rw [he, Function.update_of_ne hne, he']⟩

theorem attended (hn : 0 < n) {ok} {s : State n ι κ} (h : (system n ι κ).ReachableBy ok s) :
    s.Attended := by
  refine h.invariant (I := Attended) ?_ ?_
  · intro s hinit
    cases hinit
    exact fun htasks => absurd rfl htasks
  intro s a s' _ hi _ hs
  cases step_cases hs with
  | worker w threw sh pc hw =>
    intro htasks
    have hpc : pc ≠ .blocked := fun hb => htasks (hw.blocks hb).1
    exact .inl ⟨w, by simpa using hpc⟩
  | spurious w => exact fun _ => .inl ⟨w, by simp⟩
  | enqueue e woken s₁ he =>
    show s₁.Attended
    cases he with
    | begin hpc | refuse hpc | proceed hpc | lock hpc =>
      exact hi.goto (by rw [hpc]; decide) rfl rfl rfl
    | push => exact fun _ => .inr ⟨e, by simp⟩
    | notify w => exact fun _ => .inl ⟨w, by simp [endCall]⟩
    | notifyNobody _ hnone => exact fun _ => .inl ⟨⟨0, hn⟩, hnone _⟩
  | shutdown c s₁ he =>
    show s₁.Attended
    cases he with
    | notifyAll => exact fun _ => .inl ⟨⟨0, hn⟩, Worker.wake_ne_blocked _⟩
    | _ => exact hi

/-- The flag is set and every worker awake. -/
structure Quiet (s : State n ι κ) : Prop where
  shutdown : s.shared.shutdown = true
  awake : ∀ w, s.worker w ≠ .blocked

omit [DecidableEq ι] [DecidableEq κ] in
theorem Quiet.congr {s s' : State n ι κ} (h : s.Quiet)
    (hs : s'.shared.shutdown = s.shared.shutdown) (hw : s'.worker = s.worker) : s'.Quiet :=
  ⟨hs.trans h.shutdown, fun w => hw ▸ h.awake w⟩

theorem Quiet.step {s s' : State n ι κ} {a} (h : s.Quiet) (hs : s.step a = some s') : s'.Quiet := by
  cases step_cases hs with
  | worker w threw sh pc hw =>
    refine ⟨hw.shutdown.trans h.shutdown, fun w' => ?_⟩
    by_cases heq : w' = w
    · subst heq
      have hpc : pc ≠ .blocked := fun hb =>
        Bool.false_ne_true ((hw.blocks hb).2.symm.trans h.shutdown)
      simpa using hpc
    · simpa [heq] using h.awake w'
  | spurious w hw => exact absurd hw (h.awake w)
  | enqueue e woken s₁ he =>
    suffices hq : s₁.Quiet from hq.congr rfl rfl
    cases he with
    | notify w _ hw => exact absurd hw (h.awake w)
    | _ => exact h.congr rfl rfl
  | shutdown c s₁ he =>
    suffices hq : s₁.Quiet from hq.congr rfl rfl
    cases he with
    | store => exact ⟨rfl, h.awake⟩
    | notifyAll => exact ⟨h.shutdown, fun w => Worker.wake_ne_blocked _⟩
    | _ => exact h.congr rfl rfl

/-- Where a call of `shutdown` has stored the flag, it is set. -/
def Raised (s : State n ι κ) : Prop :=
  ∀ c, (s.stopper c).hasStored = true → s.shared.shutdown = true

omit [DecidableEq ι] [DecidableEq κ] in
theorem Raised.congr {s s' : State n ι κ} (h : s.Raised)
    (hs : s'.shared.shutdown = s.shared.shutdown) (hc : s'.stopper = s.stopper) : s'.Raised := by
  intro c hstored
  rw [hs]
  exact h c (hc ▸ hstored)

omit [DecidableEq ι] in
theorem Raised.goto {s : State n ι κ} (h : s.Raised) {c : κ} {pc : Shutdown n} {s₁ : State n ι κ}
    (hc : s₁.stopper = Function.update s.stopper c pc)
    (hs : s.shared.shutdown = true → s₁.shared.shutdown = true)
    (hpc : pc.hasStored = true → s₁.shared.shutdown = true) : s₁.Raised := by
  intro c' hstored
  rw [hc] at hstored
  by_cases heq : c' = c
  · subst heq
    rw [Function.update_self] at hstored
    exact hpc hstored
  · rw [Function.update_of_ne heq] at hstored
    exact hs (h c' hstored)

theorem raised {ok} {s : State n ι κ} (h : (system n ι κ).ReachableBy ok s) : s.Raised := by
  refine h.invariant (I := Raised) ?_ ?_
  · intro s hinit c hc
    cases hinit
    cases hc
  intro s a s' _ hi _ hs
  cases step_cases hs with
  | worker w threw sh pc hw => exact hi.congr hw.shutdown rfl
  | spurious => exact hi.congr rfl rfl
  | enqueue e woken s₁ he =>
    show s₁.Raised
    cases he <;> exact hi.congr rfl rfl
  | shutdown c s₁ he =>
    show s₁.Raised
    have keeps : ∀ pc, s.stopper c = pc → pc.hasStored = true → s.shared.shutdown = true :=
      fun pc hpc hstored => hi c (hpc ▸ hstored)
    cases he with
    | store => exact hi.goto rfl (fun _ => rfl) fun _ => rfl
    | notifyAll hpc | joinTest _ _ hpc | skip _ _ hpc | join _ _ hpc | joined _ _ hpc =>
      exact hi.goto rfl id fun _ => keeps _ hpc rfl
    | _ => exact hi.goto rfl id nofun

/-- **No wakeup is lost**: where there is a task and nobody about to notify, a
worker is not blocked; and from the `notify_all` of `shutdown` on, none is. -/
theorem no_lost_wakeup (hn : 0 < n) {s : State n ι κ} (h : (system n ι κ).Reachable s) :
    (s.shared.tasks ≠ [] → (∀ e, s.enqueuer e ≠ .notify) → ∃ w, s.worker w ≠ .blocked) ∧
      ∀ c s₁ as s', s.stopper c = .notifyAll → s.step (.shutdown c) = some s₁ →
        (system n ι κ).run s₁ as = some s' → ∀ w, s'.worker w ≠ .blocked := by
  refine ⟨fun htasks hnone => ?_, fun c s₁ as s' hc hs hrun => ?_⟩
  · rcases attended hn h htasks with hw | ⟨e, he⟩
    · exact hw
    · exact absurd he (hnone e)
  · have hquiet : s₁.Quiet := by
      have hflag := raised h c (by rw [hc]; rfl)
      simp only [step, Option.bind_eq_bind, Option.bind_eq_some_iff, Option.pure_def,
        Option.some.injEq] at hs
      obtain ⟨own, -, s₂, he, rfl⟩ := hs
      rw [shutdownStep, hc] at he
      cases he
      exact ⟨hflag, fun w => Worker.wake_ne_blocked _⟩
    exact (System.invariant_of_run (S := system n ι κ) (fun _ _ _ hq hs => Quiet.step hq hs) hquiet
      hrun).awake

/-- A worker that blocks, a task that wakes it, and then `shutdown`. -/
theorem no_lost_wakeup_blocked : ∃ s : State 1 Unit Unit, s.shared.tasks ≠ [] ∧
    (∃ w, s.worker w ≠ .blocked) ∧ s.stopper () = .notifyAll ∧
    ∀ s₁ as s', s.step (.shutdown ()) = some s₁ → (system 1 Unit Unit).run s₁ as = some s' →
      ∀ w, s'.worker w ≠ .blocked := by
  obtain ⟨s, hr, hs⟩ := System.exists_reachable (S := system 1 Unit Unit) (s := {}) rfl
    ([.worker (Fin.last 0) false, .worker (Fin.last 0) false, .worker (Fin.last 0) false,
      .enqueue () none, .enqueue () none, .enqueue () none, .enqueue () none,
      .enqueue () (some (Fin.last 0))] ++ List.replicate 4 (.shutdown ()))
    (fun s => decide (s.shared.tasks ≠ []) && decide (s.enqueuer () = .idle) &&
      decide (s.stopper () = .notifyAll)) (by decide +kernel)
  simp only [Bool.and_eq_true, decide_eq_true_eq] at hs
  obtain ⟨⟨htasks, he⟩, hc⟩ := hs
  have hwake := no_lost_wakeup Nat.zero_lt_one hr
  refine ⟨s, htasks, hwake.1 htasks fun e => ?_, hc, fun s₁ as s' hs => hwake.2 () s₁ as s' hc hs⟩
  rw [show e = () from rfl, he]
  decide

end State

end Webserver.ThreadPool
