/-
Where the thread pool comes to rest. Between two calls from outside, and
without spurious wakeups, its threads take a bounded number of steps; they
stop only where every call has ended and each worker is blocked at an empty
queue or has left its loop.
-/
import Webserver.Drain
import Webserver.Wakeup

namespace Webserver.ThreadPool

open Locks Systems

/-! ## The steps left -/

/-- The steps a worker may take before it is blocked or has left. -/
def Worker.work {ι : Type} : Worker ι → Nat
  | blocked | exited => 0
  | wait => 1
  | lock => 2
  | loop => 3
  | run _ => 4

/-- The steps of a call of `enqueue`, with those of the worker it wakes and of
its task. -/
def Enqueue.work : Enqueue → Nat
  | idle => 0
  | notify => 3
  | push => 8
  | lock => 9
  | test => 10

/-- The steps of a call of `shutdown`, with those of the workers it wakes,
where `workers_` has `m` threads. -/
def Shutdown.work {n : Nat} (m : Nat) : Shutdown n → Nat
  | idle | returned | thrown => 0
  | joinTest rest => 1 + 3 * rest.length
  | waits _ rest => 2 + 3 * rest.length
  | join _ rest => 3 + 3 * rest.length
  | notifyAll => 2 + 3 * m + 2 * n
  | store => 3 + 3 * m + 2 * n
  | lock => 4 + 3 * m + 2 * n
  | test => 5 + 3 * m + 2 * n

theorem Shutdown.work_mono {n m m' : Nat} (h : m' ≤ m) (pc : Shutdown n) : pc.work m' ≤ pc.work m := by
  cases pc <;> simp only [work] <;> omega

theorem Worker.work_wake_le {ι : Type} (pc : Worker ι) : pc.wake.work ≤ pc.work + 2 := by
  cases pc <;> simp [wake, work]

theorem Worker.Steps.work {n : Nat} {ι : Type} {s : Shared n ι} {w} {pc : Worker ι} {s' pc'}
    (h : Steps s w pc s' pc') : s'.workers = s.workers ∧
      pc'.work + 4 * s'.tasks.length < pc.work + 4 * s.tasks.length := by
  cases h with
  | take t rest htasks =>
    simp only [Shared.emit, Worker.work, htasks, List.length_cons, true_and]
    omega
  | _ => simp [Shared.emit, Worker.work]

namespace State

variable {n : Nat} {ι κ : Type} [DecidableEq ι] [DecidableEq κ]

/-- A step that the pool does not take by itself: a call of `enqueue` or
`shutdown` begins, or a blocked worker wakes up for no reason. -/
def stimulus (s : State n ι κ) : Action n ι κ → Bool
  | .worker _ _ => false
  | .spurious _ => true
  | .enqueue e _ => s.enqueuer e = .idle
  | .shutdown c => s.stopper c = .idle

section Finite

variable [Fintype ι] [Fintype κ]

def work (s : State n ι κ) : Nat :=
  ∑ w, (s.worker w).work + 4 * s.shared.tasks.length + ∑ e, (s.enqueuer e).work +
    ∑ c, (s.stopper c).work s.shared.workers.length

omit [DecidableEq κ] in
/-- A step of a call of `enqueue` takes work off, what it hands on to the
queue and to a worker included. -/
theorem Enqueues.work {s s' : State n ι κ} {e} (h : s.Enqueues e s') (hpc : s.enqueuer e ≠ .idle) :
    s'.work < s.work := by
  have falls : ∀ {old}, s.enqueuer e = old → ∀ pc, ∑ e', (Function.update s.enqueuer e pc e').work +
      old.work = ∑ e', (s.enqueuer e').work + pc.work := by
    rintro _ rfl pc
    exact sum_update s.enqueuer e pc Enqueue.work
  cases h with
  | begin hidle => exact absurd hidle hpc
  | refuse htest =>
    have hsum : _ + 10 = _ + 0 := falls htest .idle
    simp only [State.work, endCall, Shared.emit]
    omega
  | proceed htest =>
    have hsum : _ + 10 = _ + 9 := falls htest .lock
    simp only [State.work]
    omega
  | lock hlock =>
    have hsum : _ + 9 = _ + 8 := falls hlock .push
    simp only [State.work]
    omega
  | push hpush =>
    have hsum : _ + 8 = _ + 3 := falls hpush .notify
    simp only [State.work, Shared.emit, List.length_append, List.length_singleton]
    omega
  | notify w hnotify hw =>
    have hsum : _ + 3 = _ + 0 := falls hnotify .idle
    have hwoken := sum_update s.worker w .lock Worker.work
    rw [hw] at hwoken
    have hwoken : _ + 0 = _ + 2 := hwoken
    simp only [State.work, endCall, Shared.emit]
    omega
  | notifyNobody hnotify =>
    have hsum : _ + 3 = _ + 0 := falls hnotify .idle
    simp only [State.work, endCall, Shared.emit]
    omega

omit [DecidableEq ι] in
/-- A call of `shutdown` goes on, and nothing else that counts changes. -/
theorem work_lt_of_stopper {s s' : State n ι κ} {c : κ} {pc : Shutdown n} (hworker : s'.worker = s.worker)
    (htasks : s'.shared.tasks = s.shared.tasks) (henqueuer : s'.enqueuer = s.enqueuer)
    (hworkers : s'.shared.workers = s.shared.workers) (hstopper : s'.stopper = Function.update s.stopper c pc)
    (hlt : pc.work s.shared.workers.length < (s.stopper c).work s.shared.workers.length) : s'.work < s.work := by
  have hsum := sum_update s.stopper c pc (Shutdown.work s.shared.workers.length)
  simp only [work, hworker, htasks, henqueuer, hworkers, hstopper]
  omega

omit [DecidableEq ι] in
theorem Shutdowns.work {s s' : State n ι κ} {c} (h : s.Shutdowns c s') (hpc : s.stopper c ≠ .idle) :
    s'.work < s.work := by
  cases h with
  | begin hidle => exact absurd hidle hpc
  | again htest => exact work_lt_of_stopper rfl rfl rfl rfl rfl (by simp [htest, Shutdown.work])
  | first htest => exact work_lt_of_stopper rfl rfl rfl rfl rfl (by simp [htest, Shutdown.work])
  | lock hlock => exact work_lt_of_stopper rfl rfl rfl rfl rfl (by simp [hlock, Shutdown.work])
  | store hstore => exact work_lt_of_stopper rfl rfl rfl rfl rfl (by simp [hstore, Shutdown.work])
  | notifyAll hnotify =>
    have hsum := sum_update s.stopper c (.joinTest s.shared.workers) (Shutdown.work s.shared.workers.length)
    have hwoken : ∑ w, (s.worker w).wake.work ≤ ∑ w, (s.worker w).work + 2 * n := by
      calc ∑ w, (s.worker w).wake.work ≤ ∑ w, ((s.worker w).work + 2) :=
            Finset.sum_le_sum fun w _ => Worker.work_wake_le _
        _ = ∑ w, (s.worker w).work + 2 * n := by simp [Finset.sum_add_distrib, Nat.mul_comm]
    rw [hnotify] at hsum
    have hsum : _ + (2 + _ + 2 * n) = _ + (1 + _) := hsum
    simp only [State.work]
    omega
  | joinTest w rest htest =>
    exact work_lt_of_stopper rfl rfl rfl rfl rfl (by simp only [htest, Shutdown.work, List.length_cons]; omega)
  | skip w rest htest =>
    exact work_lt_of_stopper rfl rfl rfl rfl rfl (by simp only [htest, Shutdown.work, List.length_cons]; omega)
  | join w rest hjoin => exact work_lt_of_stopper rfl rfl rfl rfl rfl (by simp [hjoin, Shutdown.work])
  | throws w rest hjoin => exact work_lt_of_stopper rfl rfl rfl rfl rfl (by simp [hjoin, Shutdown.work])
  | joined w rest hwaits => exact work_lt_of_stopper rfl rfl rfl rfl rfl (by simp [hwaits, Shutdown.work])
  | clear htest =>
    have hsum := sum_update s.stopper c .returned (Shutdown.work s.shared.workers.length)
    have hmono : ∑ c', (Function.update s.stopper c .returned c').work 0 ≤
        ∑ c', (Function.update s.stopper c .returned c').work s.shared.workers.length :=
      Finset.sum_le_sum fun c' _ => Shutdown.work_mono (Nat.zero_le _) _
    rw [htest] at hsum
    have hsum : _ + 1 = _ + 0 := hsum
    simp only [State.work, List.length_nil]
    omega

theorem step_work {s s' : State n ι κ} {a} (ha : s.stimulus a = false) (hs : s.step a = some s') :
    s'.work < s.work := by
  cases step_cases hs with
  | worker w threw sh pc hw =>
    obtain ⟨hworkers, hfalls⟩ := hw.work
    have := sum_update s.worker w pc Worker.work
    simp only [work, hworkers]
    omega
  | spurious => cases ha
  | enqueue e woken s₁ he =>
    have hpc : s.enqueuer e ≠ .idle := by simpa [stimulus] using ha
    exact he.work hpc
  | shutdown c s₁ he =>
    have hpc : s.stopper c ≠ .idle := by simpa [stimulus] using ha
    exact he.work hpc

end Finite

/-! ## Who can move -/

end State

/-- A thread holds the queue's mutex between its lock and the end of its
section, or the wait. -/
def Worker.held {ι : Type} : Worker ι → List Unit
  | wait => [()]
  | _ => []

def Enqueue.held : Enqueue → List Unit
  | push => [()]
  | _ => []

def Shutdown.held {n : Nat} : Shutdown n → List Unit
  | store => [()]
  | _ => []

theorem Worker.Steps.moves {n : Nat} {ι : Type} {s : Shared n ι} {w} {pc : Worker ι} {s' pc'}
    (h : Steps s w pc s' pc') : pc.lockOp.Moves pc.held pc'.held := by
  cases h <;> rfl

theorem Worker.held_wake {ι : Type} (pc : Worker ι) : pc.wake.held = pc.held := by
  cases pc <;> rfl

namespace State

variable {n : Nat} {ι κ : Type} [DecidableEq ι] [DecidableEq κ]

def held (s : State n ι κ) : Thread n ι κ → List Unit
  | .worker w => (s.worker w).held
  | .enqueuer e => (s.enqueuer e).held
  | .stopper c => (s.stopper c).held

omit [DecidableEq ι] [DecidableEq κ] in
theorem held_wakeOne {s : State n ι κ} {w} (hw : s.worker w = .blocked) (w' : Fin n) :
    (Function.update s.worker w .lock w').held = (s.worker w').held := by
  by_cases hww : w' = w
  · subst hww
    simp [hw, Worker.held]
  · simp [hww]

omit [DecidableEq κ] in
theorem Enqueues.moves {s s' : State n ι κ} {e} (h : s.Enqueues e s') :
    (s.enqueuer e).lockOp.Moves (s.held (.enqueuer e)) (s'.held (.enqueuer e)) ∧
      ∀ t, t ≠ .enqueuer e → s'.held t = s.held t := by
  have frame : ∀ pc e', e' ≠ e → (Function.update s.enqueuer e pc e').held = (s.enqueuer e').held :=
    fun pc e' hne => by simp [hne]
  cases h with
  | notify w hpc hw =>
    refine ⟨by simp [held, endCall, hpc, Enqueue.lockOp, Enqueue.held, LockOp.Moves], ?_⟩
    rintro (w' | e' | c) ht
    · exact held_wakeOne hw w'
    · exact frame .idle e' fun he => ht (by rw [he])
    · rfl
  | begin hpc | refuse hpc | proceed hpc | lock hpc | push hpc | notifyNobody hpc =>
    refine ⟨by simp [held, endCall, hpc, Enqueue.lockOp, Enqueue.held, LockOp.Moves], ?_⟩
    rintro (w' | e' | c) ht
    · rfl
    · exact frame _ e' fun he => ht (by rw [he])
    · rfl

omit [DecidableEq ι] in
theorem Shutdowns.moves {s s' : State n ι κ} {c} (h : s.Shutdowns c s') :
    (s.stopper c).lockOp.Moves (s.held (.stopper c)) (s'.held (.stopper c)) ∧
      ∀ t, t ≠ .stopper c → s'.held t = s.held t := by
  have frame : ∀ pc c', c' ≠ c → (Function.update s.stopper c pc c').held = (s.stopper c').held :=
    fun pc c' hne => by simp [hne]
  cases h with
  | notifyAll hpc =>
    refine ⟨by simp [held, hpc, Shutdown.lockOp, Shutdown.held, LockOp.Moves], ?_⟩
    rintro (w' | e | c') ht
    · exact Worker.held_wake _
    · rfl
    · exact frame _ c' fun hc => ht (by rw [hc])
  | begin hpc | again hpc | first hpc | lock hpc | store hpc | joinTest _ _ hpc | skip _ _ hpc
  | join _ _ hpc | throws _ _ hpc | joined _ _ hpc | clear hpc =>
    refine ⟨by simp [held, hpc, Shutdown.lockOp, Shutdown.held, LockOp.Moves], ?_⟩
    rintro (w' | e | c') ht
    · rfl
    · rfl
    · exact frame _ c' fun hc => ht (by rw [hc])

/-- The mutex is owned by the thread that is in a section under it. -/
theorem consistent {ok} {s : State n ι κ} (h : (system n ι κ).ReachableBy ok s) :
    Consistent s.owner s.held := by
  refine h.invariant (I := fun s => Consistent s.owner s.held) ?_ ?_
  · intro s hinit
    cases hinit
    refine ⟨fun m t => ?_, fun t => ?_⟩ <;> cases t <;>
      simp [held, Worker.held, Enqueue.held, Shutdown.held]
  intro s a s' _ hi _ hs
  cases a with
  | worker w threw =>
    simp only [system, step, Option.bind_eq_bind, Option.bind_eq_some_iff, Option.pure_def,
      Option.some.injEq, Prod.exists] at hs
    obtain ⟨own, hown, sh, pc, he, rfl⟩ := hs
    have hmoves := (Worker.exec_steps he).moves
    refine hi.step hown (by simpa [held] using hmoves) ?_
    rintro (w' | e | c) ht
    · have hne : w' ≠ w := fun hw => ht (by rw [hw])
      simp [held, hne]
    · rfl
    · rfl
  | spurious w =>
    simp only [system, step] at hs
    split at hs
    · next hw =>
      obtain rfl := Option.some.inj hs
      have hheld : held { s with worker := Function.update s.worker w .lock } = s.held := by
        funext t
        cases t with
        | worker w' => exact held_wakeOne hw w'
        | enqueuer e => rfl
        | stopper c => rfl
      rw [hheld]
      exact hi
    · cases hs
  | enqueue e woken =>
    simp only [system, step, Option.bind_eq_bind, Option.bind_eq_some_iff, Option.pure_def,
      Option.some.injEq] at hs
    obtain ⟨own, hown, s₁, he, rfl⟩ := hs
    have hmoves := (enqueueStep_cases he).moves
    exact hi.step hown hmoves.1 hmoves.2
  | shutdown c =>
    simp only [system, step, Option.bind_eq_bind, Option.bind_eq_some_iff, Option.pure_def,
      Option.some.injEq] at hs
    obtain ⟨own, hown, s₁, he, rfl⟩ := hs
    have hmoves := (shutdownStep_cases he).moves
    exact hi.step hown hmoves.1 hmoves.2

/-- The pool can take a step by itself. -/
def Stirs (s : State n ι κ) : Prop := ∃ a s', s.stimulus a = false ∧ s.step a = some s'

theorem stirs_of_isSome {s : State n ι κ} {a} (ha : s.stimulus a = false) (h : (s.step a).isSome) :
    s.Stirs := by
  obtain ⟨s', hs⟩ := Option.isSome_iff_exists.mp h
  exact ⟨a, s', ha, hs⟩

theorem stirs_worker {s : State n ι κ} {w : Fin n} (hb : s.worker w ≠ .blocked)
    (hx : s.worker w ≠ .exited) (hfree : s.worker w = .lock → s.owner () = none) : s.Stirs := by
  refine stirs_of_isSome (a := .worker w false) rfl ?_
  cases hpc : s.worker w with
  | blocked => exact absurd hpc hb
  | exited => exact absurd hpc hx
  | lock => simp [step, hpc, Worker.lockOp, LockOp.apply, hfree hpc, Worker.exec]
  | wait => cases ht : s.shared.tasks <;> simp [step, hpc, Worker.lockOp, LockOp.apply, Worker.exec, ht]
  | _ => simp [step, hpc, Worker.lockOp, LockOp.apply, Worker.exec]

theorem stirs_enqueuer {s : State n ι κ} {e : ι} (hidle : s.enqueuer e ≠ .idle)
    (hfree : s.enqueuer e = .lock → s.owner () = none) : s.Stirs := by
  have ha : ∀ woken, s.stimulus (.enqueue e woken) = false := fun _ => by simp [stimulus, hidle]
  cases hpc : s.enqueuer e with
  | idle => exact absurd hpc hidle
  | test =>
    refine stirs_of_isSome (ha none) ?_
    cases hf : s.shared.shutdown <;>
      simp [step, hpc, Enqueue.lockOp, LockOp.apply, enqueueStep, hf]
  | lock =>
    exact stirs_of_isSome (ha none)
      (by simp [step, hpc, Enqueue.lockOp, LockOp.apply, hfree hpc, enqueueStep])
  | push =>
    exact stirs_of_isSome (ha none) (by simp [step, hpc, Enqueue.lockOp, LockOp.apply, enqueueStep])
  | notify =>
    -- whom `notify_one` wakes depends on who is blocked
    by_cases hb : ∃ w, s.worker w = .blocked
    · obtain ⟨w, hw⟩ := hb
      exact stirs_of_isSome (ha (some w))
        (by simp [step, hpc, Enqueue.lockOp, LockOp.apply, enqueueStep, notifyOne, hw])
    · have hnone : ∀ w, s.worker w ≠ .blocked := fun w hw => hb ⟨w, hw⟩
      exact stirs_of_isSome (ha none)
        (by simp [step, hpc, Enqueue.lockOp, LockOp.apply, enqueueStep, notifyOne, hnone])

theorem stirs_stopper {s : State n ι κ} {c : κ} (hidle : s.stopper c ≠ .idle)
    (hret : s.stopper c ≠ .returned) (hthrown : s.stopper c ≠ .thrown)
    (hfree : s.stopper c = .lock → s.owner () = none)
    (hwaits : ∀ w rest, s.stopper c = .waits w rest → s.worker w = .exited) : s.Stirs := by
  refine stirs_of_isSome (a := .shutdown c) (by simp [stimulus, hidle]) ?_
  cases hpc : s.stopper c with
  | idle => exact absurd hpc hidle
  | returned => exact absurd hpc hret
  | thrown => exact absurd hpc hthrown
  | lock => simp [step, hpc, Shutdown.lockOp, LockOp.apply, hfree hpc, shutdownStep]
  | joinTest rest => cases rest <;> simp [step, hpc, Shutdown.lockOp, LockOp.apply, shutdownStep]
  | join w rest =>
    cases hok : s.shared.joinable w && !s.shared.joining w <;>
      simp [step, hpc, Shutdown.lockOp, LockOp.apply, shutdownStep, hok]
  | waits w rest =>
    simp [step, hpc, Shutdown.lockOp, LockOp.apply, shutdownStep, hwaits w rest hpc]
  | _ => simp [step, hpc, Shutdown.lockOp, LockOp.apply, shutdownStep]

/-- The thread that owns the mutex can always move. -/
theorem free_of_not_stirs {ok} {s : State n ι κ} (h : (system n ι κ).ReachableBy ok s)
    (hno : ¬ s.Stirs) : s.owner () = none := by
  by_contra hown
  obtain ⟨t, ht⟩ := Option.ne_none_iff_exists'.mp hown
  have hheld : () ∈ s.held t := ((consistent h).owner () t).mp ht
  cases t with
  | worker w =>
    have hpc : s.worker w = .wait := by
      cases hpc : s.worker w <;> simp [held, hpc, Worker.held] at hheld ⊢
    exact hno (stirs_worker (w := w) (by simp [hpc]) (by simp [hpc]) (by simp [hpc]))
  | enqueuer e =>
    have hpc : s.enqueuer e = .push := by
      cases hpc : s.enqueuer e <;> simp [held, hpc, Enqueue.held] at hheld ⊢
    exact hno (stirs_enqueuer (e := e) (by simp [hpc]) (by simp [hpc]))
  | stopper c =>
    have hpc : s.stopper c = .store := by
      cases hpc : s.stopper c <;> simp [held, hpc, Shutdown.held] at hheld ⊢
    exact hno (stirs_stopper (c := c) (by simp [hpc]) (by simp [hpc]) (by simp [hpc]) (by simp [hpc])
      (by simp [hpc]))

/-- Once the flag is set, `notify_all` is still to come or nobody is blocked. -/
def Roused (s : State n ι κ) : Prop :=
  s.shared.shutdown = true → (∃ c, s.stopper c = .notifyAll) ∨ ∀ w, s.worker w ≠ .blocked

omit [DecidableEq ι] in
theorem Roused.goto {s : State n ι κ} (h : s.Roused) {c : κ} {pc : Shutdown n} {s₁ : State n ι κ}
    (hpc : s.stopper c ≠ .notifyAll) (hc : s₁.stopper = Function.update s.stopper c pc)
    (hs : s₁.shared.shutdown = s.shared.shutdown) (hw : s₁.worker = s.worker) : s₁.Roused := by
  intro hset
  rcases h (hs ▸ hset) with ⟨c', hc'⟩ | hawake
  · have hne : c' ≠ c := fun heq => hpc (heq ▸ hc')
    exact .inl ⟨c', by rw [hc, Function.update_of_ne hne, hc']⟩
  · exact .inr (hw ▸ hawake)

theorem roused {ok} {s : State n ι κ} (h : (system n ι κ).ReachableBy ok s) : s.Roused := by
  refine h.invariant (I := Roused) ?_ ?_
  · intro s hinit hset
    cases hinit
    cases hset
  intro s a s' _ hi _ hs
  cases step_cases hs with
  | worker w threw sh pc hw =>
    intro hset
    have hset₀ : s.shared.shutdown = true := hw.shutdown ▸ hset
    refine (hi hset₀).imp id fun hawake w' => ?_
    by_cases hww : w' = w
    · subst hww
      have hpc : pc ≠ .blocked := fun hb => by cases (hw.blocks hb).2.symm.trans hset₀
      simpa using hpc
    · simpa [hww] using hawake w'
  | spurious w hw => exact fun hset => (hi hset).imp id fun hawake => absurd hw (hawake w)
  | enqueue e woken s₁ he =>
    show s₁.Roused
    cases he with
    | notify w _ hw => exact fun hset => (hi hset).imp id fun hawake => absurd hw (hawake w)
    | _ => exact hi
  | shutdown c s₁ he =>
    show s₁.Roused
    cases he with
    | store => exact fun _ => .inl ⟨c, by simp⟩
    | notifyAll => exact fun _ => .inr fun w => Worker.wake_ne_blocked _
    | begin hpc | again hpc | first hpc | lock hpc | joinTest _ _ hpc | skip _ _ hpc | join _ _ hpc
    | throws _ _ hpc | joined _ _ hpc | clear hpc => exact hi.goto (by rw [hpc]; nofun) rfl rfl rfl

/-- A worker leaves its loop only once the flag is set. -/
theorem shutdown_of_exited {ok} {s : State n ι κ} (h : (system n ι κ).ReachableBy ok s) {w : Fin n}
    (hx : s.worker w = .exited) : s.shared.shutdown = true := by
  refine h.invariant (I := fun s => s.worker w = .exited → s.shared.shutdown = true) ?_ ?_ hx
  · intro s hinit hx
    cases hinit
    cases hx
  intro s a s' _ hi _ hs hx'
  cases step_cases hs with
  | worker w' threw sh pc hw =>
    show sh.shutdown = true
    rw [hw.shutdown]
    by_cases hww : w = w'
    · subst hww
      have hpc : pc = .exited := by simpa using hx'
      generalize s.worker w = pc₀ at hw
      cases hw with
      | leave hset | quit hset => exact hset
      | _ => cases hpc
    · exact hi (by simpa [hww] using hx')
  | spurious w' hw =>
    by_cases hww : w = w'
    · subst hww
      simp at hx'
    · exact hi (by simpa [hww] using hx')
  | enqueue e woken s₁ he =>
    cases he with
    | notify w' _ hw =>
      by_cases hww : w = w'
      · subst hww
        simp [endCall] at hx'
      · exact hi (by simpa [endCall, hww] using hx')
    | _ => exact hi hx'
  | shutdown c s₁ he =>
    cases he with
    | store => rfl
    | notifyAll =>
      refine hi ?_
      have hx' : (s.worker w).wake = .exited := hx'
      cases hpc : s.worker w <;> simp [hpc, Worker.wake] at hx' ⊢
    | _ => exact hi hx'

/-! ## The pool at rest -/

/-- Each call has ended, and each worker is blocked or has left its loop. -/
structure Settled (s : State n ι κ) : Prop where
  enqueuer : ∀ e, s.enqueuer e = .idle
  stopper : ∀ c, s.stopper c = .idle ∨ s.stopper c = .returned ∨ s.stopper c = .thrown
  worker : ∀ w, s.worker w = .blocked ∨ s.worker w = .exited

theorem Settled.of_not_stirs {ok} {s : State n ι κ} (h : (system n ι κ).ReachableBy ok s)
    (hno : ¬ s.Stirs) : s.Settled := by
  have hfree := free_of_not_stirs h hno
  have hworker : ∀ w, s.worker w = .blocked ∨ s.worker w = .exited := by
    intro w
    by_contra hw
    exact hno (stirs_worker (fun hb => hw (.inl hb)) (fun hx => hw (.inr hx)) fun _ => hfree)
  refine ⟨fun e => ?_, fun c => ?_, hworker⟩
  · by_contra he
    exact hno (stirs_enqueuer he fun _ => hfree)
  · by_contra hc
    refine hno (stirs_stopper (c := c) (fun hi => hc (.inl hi)) (fun hr => hc (.inr (.inl hr)))
      (fun ht => hc (.inr (.inr ht))) (fun _ => hfree) fun w rest hwaits => ?_)
    -- the flag is set and `notify_all` behind: the worker waited for is not blocked
    have hset : s.shared.shutdown = true := raised h c (by rw [hwaits]; rfl)
    rcases roused h hset with ⟨c', hc'⟩ | hawake
    · exact absurd (stirs_stopper (c := c') (by simp [hc']) (by simp [hc']) (by simp [hc'])
        (by simp [hc']) (by simp [hc'])) hno
    · exact (hworker w).resolve_left (hawake w)

theorem Settled.not_stirs {s : State n ι κ} (h : s.Settled) : ¬ s.Stirs := by
  rintro ⟨a, s', ha, hs⟩
  cases step_cases hs with
  | worker w threw sh pc hw =>
    rcases h.worker w with hpc | hpc <;> rw [hpc] at hw <;> cases hw
  | spurious => cases ha
  | enqueue e woken s₁ he => simp [stimulus, h.enqueuer e] at ha
  | shutdown c s₁ he =>
    rcases h.stopper c with hpc | hpc | hpc
    · simp [stimulus, hpc] at ha
    · cases he <;> simp_all
    · cases he <;> simp_all

/-- **The pool comes to rest.** Left to itself it takes no more steps than
there is work, and it can take none exactly if every call has ended and each
worker is blocked or has left. -/
theorem comes_to_rest [Fintype ι] [Fintype κ] {s : State n ι κ} (h : (system n ι κ).Reachable s) :
    (∀ as s', (system n ι κ).runBy (fun s a => !s.stimulus a) s as = some s' →
      as.length + s'.work ≤ s.work) ∧ (s.Stirs ↔ ¬ s.Settled) := by
  refine ⟨fun as s' hrun => ?_, fun hstirs hsettled => hsettled.not_stirs hstirs, fun hnot => ?_⟩
  · exact System.length_le_of_runBy work (fun _ _ _ ha hs => step_work (by simpa using ha) hs) hrun
  · by_contra hno
    exact hnot (.of_not_stirs h hno)

/-- The worker runs a task, the next call of `enqueue` is in its section, and
two calls of `shutdown` are about to wait for the mutex. -/
def busy : List (Action 1 Unit Bool) :=
  List.replicate 5 (.enqueue () none) ++ List.replicate 3 (.worker sole false) ++
    List.replicate 3 (.enqueue () none) ++ List.replicate 2 (.shutdown true) ++
    List.replicate 2 (.shutdown false)

/-- From there on both calls of `shutdown` come to their loops, where the one
waits for the worker and the other is thrown out. -/
def settling : List (Action 1 Unit Bool) :=
  List.replicate 2 (.enqueue () none) ++ List.replicate 5 (.shutdown true) ++
    List.replicate 5 (.shutdown false) ++ List.replicate 2 (.worker sole false) ++
    List.replicate 2 (.shutdown true)

theorem comes_to_rest_busy : ∃ s s' : State 1 Unit Bool, s.owner () = some (.enqueuer ()) ∧ s.Stirs ∧
    (system 1 Unit Bool).runBy (fun s a => !s.stimulus a) s settling = some s' ∧
    settling.length + s'.work ≤ s.work ∧ s'.stopper false = .thrown ∧ ¬ s'.Stirs := by
  obtain ⟨s, hr, hs⟩ := System.exists_reachable (S := system 1 Unit Bool) (s := {}) rfl busy
    (fun s => decide (s.enqueuer () = .push) &&
      ((system 1 Unit Bool).runBy (fun s a => !s.stimulus a) s settling).any fun s' : State 1 Unit Bool =>
        decide (s'.enqueuer () = .idle ∧ s'.stopper true = .returned ∧ s'.stopper false = .thrown ∧
          s'.worker sole = .exited)) (by decide +kernel)
  simp only [Bool.and_eq_true, decide_eq_true_eq, Option.any_eq_true] at hs
  obtain ⟨hpush, s', hrun, hidle, hreturned, hthrown, hexited⟩ := hs
  have hsettled : s'.Settled := by
    refine ⟨fun _ => hidle, fun c => ?_, fun w => .inr (Subsingleton.elim w sole ▸ hexited)⟩
    cases c
    · exact .inr (.inr hthrown)
    · exact .inr (.inl hreturned)
  have hr' : (system 1 Unit Bool).Reachable s' := hr.of_runBy (fun _ _ _ => trivial) hrun
  refine ⟨s, s', ?_, ?_, hrun, (comes_to_rest hr).1 _ _ hrun, hthrown, fun hstirs => ?_⟩
  · exact ((consistent hr).owner () (.enqueuer ())).mpr (by simp [held, hpush, Enqueue.held])
  · refine (comes_to_rest hr).2.mpr fun h => ?_
    cases (h.enqueuer ()).symm.trans hpush
  · exact (comes_to_rest hr').2.mp hstirs hsettled

/-! ## What has become of the calls -/

/-- The call has ended: it threw and pushed nothing, or it returned. -/
def Answered (log : List (Event n ι)) (t : Task ι) : Prop :=
  (.refused t ∈ log ∧ pushes log t = 0) ∨ .accepted t ∈ log

omit [DecidableEq κ] in
/-- What is said later does not change it, the task's own push apart. -/
theorem Answered.emit {log : List (Event n ι)} {t : Task ι} (h : Answered log t) {e : Event n ι}
    (he : e ≠ .pushed t) : Answered (log ++ [e]) t := by
  refine h.imp (fun hr => ⟨List.mem_append_left _ hr.1, ?_⟩) (List.mem_append_left _)
  simpa [pushes, he] using hr.2

/-- Each call that has been made so far. -/
def Ended (s : State n ι κ) : Prop := ∀ e k, k < s.calls e → Answered s.shared.log (e, k)

omit [DecidableEq κ] in
theorem Ended.emit {s s' : State n ι κ} (h : s.Ended) {e : Event n ι}
    (hl : s'.shared.log = s.shared.log ++ [e]) (hc : s'.calls = s.calls)
    (he : ∀ e' k, k < s.calls e' → e ≠ .pushed (e', k)) : s'.Ended := by
  intro e' k hk
  rw [hc] at hk
  rw [hl]
  exact (h e' k hk).emit (he e' k hk)

omit [DecidableEq κ] in
theorem Ended.congr {s s' : State n ι κ} (h : s.Ended) (hl : s'.shared.log = s.shared.log)
    (hc : s'.calls = s.calls) : s'.Ended := by
  intro e k hk
  rw [hl]
  exact h e k (hc ▸ hk)

omit [DecidableEq κ] in
theorem Ended.endCall {s : State n ι κ} (h : s.Ended) (e : ι) {event : Event n ι}
    (he : ∀ t, event ≠ .pushed t) (hans : Answered (s.shared.log ++ [event]) (s.task e)) :
    (s.endCall e event).Ended := by
  intro e' k hk
  by_cases hcall : e' = e ∧ k = s.calls e
  · obtain ⟨rfl, rfl⟩ := hcall
    exact hans
  · refine (h e' k ?_).emit (he _)
    by_cases hee : e' = e
    · subst hee
      simp only [State.endCall, Function.update_self] at hk
      have hne : k ≠ s.calls e' := fun hk => hcall ⟨rfl, hk⟩
      omega
    · simpa [State.endCall, hee] using hk

theorem ended {ok} {s : State n ι κ} (h : (system n ι κ).ReachableBy ok s) : s.Ended := by
  refine h.invariant (I := Ended) ?_ ?_
  · intro s hinit e k hk
    cases hinit
    cases hk
  intro s a s' hr hi _ hs
  cases step_cases hs with
  | worker w threw sh pc hw =>
    generalize s.worker w = pc₀ at hw
    cases hw with
    | take | execute => exact hi.emit rfl rfl (by simp)
    | _ => exact hi.congr rfl rfl
  | spurious => exact hi.congr rfl rfl
  | enqueue e woken s₁ he =>
    suffices hs₁ : s₁.Ended from hs₁.congr rfl rfl
    cases he with
    | begin | proceed | lock => exact hi.congr rfl rfl
    | refuse hpc =>
      have hnone := (called hr).before e (by simp [hpc])
      exact hi.endCall e (by simp) (.inl ⟨by simp, by simpa [pushes] using hnone⟩)
    | push hpc =>
      refine hi.emit rfl rfl fun e' k hk heq => ?_
      obtain ⟨rfl, rfl⟩ := Prod.mk.inj (Event.pushed.inj heq)
      exact Nat.lt_irrefl _ hk
    | notify w =>
      have hwoken : Ended { s with worker := Function.update s.worker w .lock } := hi.congr rfl rfl
      exact hwoken.endCall e (by simp) (.inr (List.mem_append_right _ (List.mem_singleton_self _)))
    | notifyNobody => exact hi.endCall e (by simp) (.inr (by simp))
  | shutdown c s₁ he =>
    suffices hs₁ : s₁.Ended from hs₁.congr rfl rfl
    cases he with
    | joined => exact hi.emit rfl rfl (by simp)
    | _ => exact hi.congr rfl rfl

/-- **A pool at rest has done what it was asked**, in every run in which the
flag is set, and any task pushed after it, only while the workers past the
loop's test outnumber the tasks: the queue is empty, the workers have all left
or are all blocked, and each call of `enqueue` has thrown and its task was
never run, or has returned and its task was run exactly once. -/
theorem Settled.calls_done {s : State n ι κ} (h : (system n ι κ).ReachableBy (fun s a => !s.drops a) s)
    (hs : s.Settled) (hn : 0 < n) :
    s.shared.tasks = [] ∧
      (∀ w, s.worker w = if s.shared.shutdown then .exited else .blocked) ∧
      ∀ e k, k < s.calls e →
        (.refused (e, k) ∈ s.shared.log ∧ executions s.shared.log (e, k) = 0) ∨
          (.accepted (e, k) ∈ s.shared.log ∧ executions s.shared.log (e, k) = 1) := by
  have hworker : ∀ w, s.worker w = if s.shared.shutdown then .exited else .blocked := by
    intro w
    rcases hs.worker w with hw | hw
    · cases hset : s.shared.shutdown with
      | false => exact hw
      | true =>
        rcases roused h hset with ⟨c, hc⟩ | hawake
        · rcases hs.stopper c with hpc | hpc | hpc <;> cases hpc.symm.trans hc
        · exact absurd hw (hawake w)
    · rw [shutdown_of_exited h hw, if_pos rfl]
      exact hw
  have hempty : s.shared.tasks = [] := by
    cases hset : s.shared.shutdown with
    | false =>
      by_contra hne
      rcases attended hn h hne with ⟨w, hw⟩ | ⟨e, he⟩
      · exact hw (by rw [hworker w, hset]; rfl)
      · cases (hs.enqueuer e).symm.trans he
    | true =>
      have hnone : s.committed = 0 := by simp [committed, hworker, hset, Worker.committed]
      exact List.eq_nil_of_length_eq_zero (Nat.le_zero.mp (hnone ▸ covered h hset))
  have hidle : ∀ t, s.running t = 0 := by
    intro t
    cases hset : s.shared.shutdown <;> simp [running, hworker, hset, Worker.running]
  have hruns : ∀ t, executions s.shared.log t = pushes s.shared.log t := by
    intro t
    have := accounted h t
    rw [hempty, hidle] at this
    simpa using this.symm
  refine ⟨hempty, hworker, fun e k hk => ?_⟩
  rcases ended h e k hk with ⟨hr, hnone⟩ | ha
  · exact .inl ⟨hr, (hruns _).trans hnone⟩
  · exact .inr ⟨ha, (hruns _).trans ((called h).accepted _ ha).2⟩

theorem calls_done_drained : ∃ s : State 1 Unit Unit,
    (system 1 Unit Unit).ReachableBy (fun s a => !s.drops a) s ∧ s.calls () = 1 ∧
      executions s.shared.log ((), 0) = 1 := by
  obtain ⟨s, hr, hs⟩ := System.exists_reachableBy (S := system 1 Unit Unit) (s := {}) rfl
    (fun s a => !s.drops a) drained
    (fun s => decide (s.stopper () = .returned ∧ s.enqueuer () = .idle ∧ s.worker sole = .exited ∧
      s.calls () = 1 ∧ .refused ((), 0) ∉ s.shared.log)) (by decide +kernel)
  obtain ⟨hstop, hidle, hexited, hcalls, hnot⟩ := of_decide_eq_true hs
  have hsettled : s.Settled :=
    ⟨fun _ => hidle, fun _ => .inr (.inl hstop), fun w => .inr (Subsingleton.elim w sole ▸ hexited)⟩
  obtain ⟨-, -, hdone⟩ := hsettled.calls_done hr Nat.zero_lt_one
  rcases hdone () 0 (by omega) with ⟨hrefused, -⟩ | ⟨-, hrun⟩
  · exact absurd hrefused hnot
  · exact ⟨s, hr, hcalls, hrun⟩

end State

end Webserver.ThreadPool
