/-
What becomes of the queue when the pool is shut down. A worker tests
`shutdown_` before each turn of its loop, so that once the flag is set each
worker takes at most one more task: those already past the test. Tasks that
outnumber them stay in the queue for ever.
-/
import Webserver.ThreadPool

namespace Webserver.ThreadPool

open Locks Systems

/-! ## Counting -/

/-- How often a task was pushed. -/
def pushes {n : Nat} {ι : Type} [DecidableEq ι] (log : List (Event n ι)) (t : Task ι) : Nat :=
  log.count (.pushed t)

def Event.executes {n : Nat} {ι : Type} [DecidableEq ι] (t : Task ι) : Event n ι → Bool
  | .executed _ t' _ => t' = t
  | _ => false

/-- How often a task was executed. -/
def executions {n : Nat} {ι : Type} [DecidableEq ι] (log : List (Event n ι)) (t : Task ι) : Nat :=
  log.countP (Event.executes t)

namespace Worker

variable {ι : Type} [DecidableEq ι]

/-- The number of workers, one or none, that run task `t` here. -/
def running (t : Task ι) (pc : Worker ι) : Nat := if pc = .run t then 1 else 0

/-- The number of workers, one or none, that are past the loop's test and
will take one more task if there is any. -/
def committed : Worker ι → Nat
  | lock | wait | blocked => 1
  | loop | run _ | exited => 0

@[simp] theorem running_wake (t : Task ι) (pc : Worker ι) : pc.wake.running t = pc.running t := by
  cases pc <;> rfl

omit [DecidableEq ι] in
@[simp] theorem committed_wake (pc : Worker ι) : pc.wake.committed = pc.committed := by
  cases pc <;> rfl

end Worker

/-- The workers the thread that calls `shutdown` has not joined yet, once it
has notified all. -/
def Shutdown.toJoin {n : Nat} : Shutdown n → Option (List (Fin n))
  | .joinTest rest => some rest
  | .join w rest | .waits w rest => some (w :: rest)
  | .returned => some []
  | _ => none

/-- `shutdown` has not set the flag yet. -/
def Shutdown.toStore {n : Nat} : Shutdown n → Bool
  | .idle | .test | .lock | .store => true
  | _ => false

namespace State

variable {n : Nat} {ι κ : Type} [DecidableEq ι]

/-- The number of workers that run task `t`. -/
def running (s : State n ι κ) (t : Task ι) : Nat := ∑ w, (s.worker w).running t

/-- The number of workers that will take one more task if there is any. -/
def committed (s : State n ι κ) : Nat := ∑ w, (s.worker w).committed

/-- The flag is set with more tasks in the queue than workers past the loop's
test, or a task is pushed after that and makes them more. -/
def drops (s : State n ι κ) : Action n ι κ → Bool
  | .shutdown c => s.stopper c = .store && s.committed < s.shared.tasks.length
  | .enqueue e _ =>
    s.enqueuer e = .push && s.shared.shutdown && s.committed < s.shared.tasks.length + 1
  | _ => false

/-! ## Each task is in one place -/

/-- A task pushed is in the queue, with a worker or executed, once for each
push. -/
def Accounted (s : State n ι κ) : Prop :=
  ∀ t, pushes s.shared.log t = s.shared.tasks.count t + s.running t + executions s.shared.log t

theorem Accounted.congr {s s' : State n ι κ} (h : s.Accounted)
    (hlog : ∀ t, pushes s'.shared.log t = pushes s.shared.log t ∧
      executions s'.shared.log t = executions s.shared.log t)
    (htasks : s'.shared.tasks = s.shared.tasks) (hrun : ∀ t, s'.running t = s.running t) :
    s'.Accounted := by
  intro t
  rw [(hlog t).1, (hlog t).2, htasks, hrun t]
  exact h t

/-- A worker that is woken runs no task before or after. -/
theorem running_wakeOne {s : State n ι κ} {w} (hw : s.worker w = .blocked) (t : Task ι) :
    ∑ w', (Function.update s.worker w .lock w').running t = s.running t := by
  have := sum_update s.worker w .lock (·.running t)
  simp only [hw, Worker.running, reduceCtorEq, if_false, Nat.add_zero] at this
  exact this

theorem Accounted.endCall {s : State n ι κ} (h : s.Accounted) (e : ι) {event : Event n ι}
    (hp : ∀ t, event ≠ .pushed t) (he : ∀ t, event.executes t = false) :
    (s.endCall e event).Accounted := by
  refine h.congr (fun t => ⟨?_, ?_⟩) rfl fun _ => rfl
  · simp [State.endCall, Shared.emit, pushes, hp t]
  · simp [State.endCall, Shared.emit, executions, he t]

theorem Accounted.stepWorker {s : State n ι κ} {w sh pc own} (h : s.Accounted)
    (hs : (s.worker w).Steps s.shared w sh pc) :
    Accounted { s with shared := sh, worker := Function.update s.worker w pc, owner := own } := by
  intro t
  have hsum := sum_update s.worker w pc (·.running t)
  have ht := h t
  have hlog : pushes sh.log t + s.shared.tasks.count t + (s.worker w).running t +
      executions s.shared.log t =
      pushes s.shared.log t + sh.tasks.count t + pc.running t + executions sh.log t := by
    generalize s.worker w = pc₀ at hs
    cases hs with
    | take t' rest htasks =>
      simp only [Shared.emit, pushes, executions, List.count_append, List.countP_append, htasks]
      by_cases htt : t' = t
      · subst htt
        simp [Worker.running, Event.executes]
        omega
      · simp [Worker.running, Event.executes, htt]
    | execute t' threw =>
      simp only [Shared.emit, pushes, executions, List.count_append, List.countP_append]
      by_cases htt : t' = t
      · subst htt
        simp [Worker.running, Event.executes]
        omega
      · simp [Worker.running, Event.executes, htt]
    | _ => simp [Worker.running]
  simp only [running] at ht ⊢
  omega

theorem accounted [DecidableEq κ] {ok} {s : State n ι κ} (h : (system n ι κ).ReachableBy ok s) :
    s.Accounted := by
  refine h.invariant (I := Accounted) ?_ ?_
  · intro s hinit t
    cases hinit
    simp [pushes, executions, running, Worker.running]
  intro s a s' _ hi _ hs
  cases step_cases hs with
  | worker w threw sh pc hw => exact hi.stepWorker hw
  | spurious w hw => exact hi.congr (fun _ => ⟨rfl, rfl⟩) rfl (running_wakeOne hw)
  | enqueue e woken s₁ he =>
    show s₁.Accounted
    cases he with
    | refuse | notifyNobody => exact hi.endCall e nofun fun _ => rfl
    | push =>
      intro t
      have ht := hi t
      simp only [running, Shared.emit, pushes, executions, List.count_append, List.countP_append] at ht ⊢
      by_cases htt : s.task e = t
      · simp [htt, Event.executes]
        omega
      · simp [htt, Event.executes, ht]
    | notify w _ hw =>
      refine Accounted.endCall ?_ e nofun fun _ => rfl
      exact hi.congr (fun _ => ⟨rfl, rfl⟩) rfl (running_wakeOne hw)
    | _ => exact hi
  | shutdown c s₁ he =>
    show s₁.Accounted
    cases he with
    | notifyAll => exact hi.congr (fun _ => ⟨rfl, rfl⟩) rfl fun t => by simp [running]
    | joined =>
      refine hi.congr (fun t => ⟨?_, ?_⟩) rfl fun _ => rfl <;>
        simp [Shared.emit, pushes, executions, Event.executes]
    | _ => exact hi

/-! ## Calls of `enqueue` -/

/-- A call pushes its task once, before it returns. -/
structure Calls (s : State n ι κ) : Prop where
  later : ∀ e k, s.calls e < k → pushes s.shared.log (e, k) = 0
  before : ∀ e, s.enqueuer e ≠ .notify → pushes s.shared.log (s.task e) = 0
  after : ∀ e, s.enqueuer e = .notify → pushes s.shared.log (s.task e) = 1
  accepted : ∀ t, .accepted t ∈ s.shared.log → t.2 < s.calls t.1 ∧ pushes s.shared.log t = 1

/-- A step that neither pushes nor is part of a call. -/
theorem Calls.congr {s s' : State n ι κ} (h : s.Calls)
    (hpush : ∀ t, pushes s'.shared.log t = pushes s.shared.log t)
    (hacc : ∀ t, .accepted t ∈ s'.shared.log → .accepted t ∈ s.shared.log)
    (hpc : ∀ e, s'.enqueuer e = .notify ↔ s.enqueuer e = .notify) (hcalls : s'.calls = s.calls) :
    s'.Calls := by
  refine ⟨fun e k hk => ?_, fun e he => ?_, fun e he => ?_, fun t ht => ?_⟩
  · rw [hpush]
    exact h.later e k (hcalls ▸ hk)
  · rw [hpush, task, hcalls]
    exact h.before e ((hpc e).not.mp he)
  · rw [hpush, task, hcalls]
    exact h.after e ((hpc e).mp he)
  · rw [hpush, hcalls]
    exact h.accepted t (hacc t ht)

/-- A call moves on without a push. -/
theorem Calls.goto {s : State n ι κ} {e : ι} {pc : Enqueue} (h : s.Calls)
    (hold : s.enqueuer e ≠ .notify) (hnew : pc ≠ .notify) :
    Calls { s with enqueuer := Function.update s.enqueuer e pc } := by
  refine h.congr (fun _ => rfl) (fun _ => id) (fun e' => ?_) rfl
  by_cases he : e' = e
  · subst he
    simp [hold, hnew]
  · simp [he]

theorem Calls.push {s : State n ι κ} {e : ι} (h : s.Calls) (hpc : s.enqueuer e = .push) :
    Calls { s with
      shared := { s.shared with tasks := s.shared.tasks ++ [s.task e] }.emit (.pushed (s.task e)),
      enqueuer := Function.update s.enqueuer e .notify } := by
  have hpush : ∀ t, pushes (s.shared.log ++ [.pushed (s.task e)]) t =
      pushes s.shared.log t + if s.task e = t then 1 else 0 := by
    intro t
    by_cases ht : s.task e = t <;> simp [pushes, ht]
  refine ⟨fun e' k hk => ?_, fun e' he' => ?_, fun e' he' => ?_, fun t ht => ?_⟩
  · show pushes (s.shared.log ++ [.pushed (s.task e)]) (e', k) = 0
    have hne : s.task e ≠ (e', k) := by
      intro heq
      obtain ⟨rfl, rfl⟩ := Prod.mk.inj heq
      exact Nat.lt_irrefl _ hk
    rw [hpush, if_neg hne]
    exact h.later e' k hk
  · show pushes (s.shared.log ++ [.pushed (s.task e)]) (s.task e') = 0
    by_cases hee : e' = e
    · subst hee
      simp at he'
    · have hne : s.task e ≠ s.task e' := fun heq => hee (Prod.mk.inj heq).1.symm
      rw [hpush, if_neg hne]
      exact h.before e' (by simpa [hee] using he')
  · show pushes (s.shared.log ++ [.pushed (s.task e)]) (s.task e') = 1
    by_cases hee : e' = e
    · subst hee
      rw [hpush, if_pos rfl, h.before e' (by simp [hpc])]
    · have hne : s.task e ≠ s.task e' := fun heq => hee (Prod.mk.inj heq).1.symm
      rw [hpush, if_neg hne]
      exact h.after e' (by simpa [hee] using he')
  · have ht' : .accepted t ∈ s.shared.log := by simpa [Shared.emit] using ht
    obtain ⟨hlt, hone⟩ := h.accepted t ht'
    refine ⟨hlt, ?_⟩
    show pushes (s.shared.log ++ [.pushed (s.task e)]) t = 1
    have hne : s.task e ≠ t := by
      rintro rfl
      exact Nat.lt_irrefl _ hlt
    rw [hpush, if_neg hne, hone]

/-- A call ends, and returns only after it has pushed its task. -/
theorem Calls.endCall {s : State n ι κ} {e : ι} {event : Event n ι} (h : s.Calls)
    (hpush : ∀ t, event ≠ .pushed t)
    (hacc : ∀ t, event = .accepted t → t = s.task e ∧ s.enqueuer e = .notify) :
    (s.endCall e event).Calls := by
  have hp : ∀ t, pushes (s.shared.log ++ [event]) t = pushes s.shared.log t := by
    intro t
    simp [pushes, hpush t]
  refine ⟨fun e' k hk => ?_, fun e' he' => ?_, fun e' he' => ?_, fun t ht => ?_⟩
  · show pushes (s.shared.log ++ [event]) (e', k) = 0
    rw [hp]
    refine h.later e' k ?_
    by_cases hee : e' = e
    · subst hee
      simp only [State.endCall, Function.update_self] at hk
      omega
    · simpa [State.endCall, hee] using hk
  · show pushes (s.shared.log ++ [event]) ((s.endCall e event).task e') = 0
    rw [hp]
    by_cases hee : e' = e
    · subst hee
      simp only [State.endCall, task, Function.update_self]
      exact h.later e' _ (Nat.lt_succ_self _)
    · simp only [State.endCall, task, Function.update_of_ne hee] at he' ⊢
      exact h.before e' he'
  · show pushes (s.shared.log ++ [event]) ((s.endCall e event).task e') = 1
    rw [hp]
    by_cases hee : e' = e
    · subst hee
      simp [State.endCall] at he'
    · simp only [State.endCall, task, Function.update_of_ne hee] at he' ⊢
      exact h.after e' he'
  · show t.2 < Function.update s.calls e (s.calls e + 1) t.1 ∧
      pushes (s.shared.log ++ [event]) t = 1
    rw [hp]
    rcases List.mem_append.mp ht with ht | ht
    · obtain ⟨hlt, hone⟩ := h.accepted t ht
      refine ⟨?_, hone⟩
      by_cases hee : t.1 = e
      · rw [hee, Function.update_self]
        rw [hee] at hlt
        omega
      · rwa [Function.update_of_ne hee]
    · obtain ⟨rfl, hn⟩ := hacc t (List.mem_singleton.mp ht).symm
      exact ⟨by simp [task], h.after e hn⟩

theorem called [DecidableEq κ] {ok} {s : State n ι κ} (h : (system n ι κ).ReachableBy ok s) :
    s.Calls := by
  refine h.invariant (I := Calls) ?_ ?_
  · intro s hinit
    cases hinit
    exact ⟨fun _ _ _ => rfl, fun _ _ => rfl, nofun, nofun⟩
  intro s a s' _ hi _ hs
  cases step_cases hs with
  | worker w threw sh pc hw =>
    have hlog : (∀ t, pushes sh.log t = pushes s.shared.log t) ∧
        ∀ t, .accepted t ∈ sh.log → .accepted t ∈ s.shared.log := by
      generalize s.worker w = pc₀ at hw
      cases hw with
      | take t rest _ => exact ⟨fun t => by simp [Shared.emit, pushes], fun t => by simp [Shared.emit]⟩
      | execute t threw =>
        exact ⟨fun t => by simp [Shared.emit, pushes], fun t => by simp [Shared.emit]⟩
      | _ => exact ⟨fun _ => rfl, fun _ => id⟩
    exact hi.congr hlog.1 hlog.2 (fun _ => Iff.rfl) rfl
  | spurious => exact hi.congr (fun _ => rfl) (fun _ => id) (fun _ => Iff.rfl) rfl
  | enqueue e woken s₁ he =>
    suffices hs₁ : s₁.Calls from
      hs₁.congr (fun _ => rfl) (fun _ => id) (fun _ => Iff.rfl) rfl
    cases he with
    | begin hpc | proceed hpc | lock hpc => exact hi.goto (by simp [hpc]) nofun
    | refuse => exact hi.endCall nofun nofun
    | push hpc => exact hi.push hpc
    | notify w hpc hw =>
      have hwoken : Calls { s with worker := Function.update s.worker w .lock } :=
        hi.congr (fun _ => rfl) (fun _ => id) (fun _ => Iff.rfl) rfl
      exact hwoken.endCall nofun fun t ht => ⟨(Event.accepted.inj ht).symm, hpc⟩
    | notifyNobody hpc => exact hi.endCall nofun fun t ht => ⟨(Event.accepted.inj ht).symm, hpc⟩
  | shutdown c s₁ he =>
    suffices hs₁ : s₁.Calls from
      hs₁.congr (fun _ => rfl) (fun _ => id) (fun _ => Iff.rfl) rfl
    cases he with
    | joined =>
      exact hi.congr (fun t => by simp [Shared.emit, pushes]) (fun t => by simp [Shared.emit])
        (fun _ => Iff.rfl) rfl
    | _ => exact hi.congr (fun _ => rfl) (fun _ => id) (fun _ => Iff.rfl) rfl

/-! ## The queue after the flag is set -/

/-- Once the flag is set, each task in the queue has a worker that will take
it. -/
def Covered (s : State n ι κ) : Prop :=
  s.shared.shutdown = true → s.shared.tasks.length ≤ s.committed

omit [DecidableEq ι] in
theorem committed_wakeOne {s : State n ι κ} {w} (hw : s.worker w = .blocked) :
    ∑ w', (Function.update s.worker w .lock w').committed = s.committed := by
  have := sum_update s.worker w .lock Worker.committed
  rw [hw] at this
  exact Nat.add_right_cancel this

omit [DecidableEq ι] in
theorem Covered.stepWorker {s : State n ι κ} {w sh pc own} (h : s.Covered)
    (hs : (s.worker w).Steps s.shared w sh pc) :
    Covered { s with shared := sh, worker := Function.update s.worker w pc, owner := own } := by
  have hsum := sum_update s.worker w pc Worker.committed
  intro hsd
  show sh.tasks.length ≤ ∑ w', (Function.update s.worker w pc w').committed
  simp only [Covered, committed] at h
  generalize s.worker w = pc₀ at hs hsum
  cases hs with
  | leave _ =>
    have := h hsd
    have hsum : _ + 0 = _ + 0 := hsum
    omega
  | enter hf => cases hf.symm.trans hsd
  | lock =>
    have := h hsd
    have hsum : _ + 1 = _ + 1 := hsum
    omega
  | quit _ empty => simp [empty]
  | block hf => cases hf.symm.trans hsd
  | take t rest htasks =>
    -- one task and one worker less
    have := h hsd
    rw [htasks] at this
    have hsum : _ + 1 = _ + 0 := hsum
    simp only [Shared.emit, List.length_cons] at this ⊢
    omega
  | execute t threw =>
    have := h hsd
    have hsum : _ + 0 = _ + 0 := hsum
    simp only [Shared.emit]
    omega

theorem covered [DecidableEq κ] {s : State n ι κ}
    (h : (system n ι κ).ReachableBy (fun s a => !s.drops a) s) : s.Covered := by
  refine h.invariant (I := Covered) ?_ ?_
  · intro s hinit hsd
    cases hinit
    cases hsd
  intro s a s' _ hi hok hs
  cases step_cases hs with
  | worker w threw sh pc hw => exact hi.stepWorker hw
  | spurious w hw =>
    intro hsd
    exact (hi hsd).trans (committed_wakeOne hw).ge
  | enqueue e woken s₁ he =>
    show s₁.Covered
    cases he with
    | push hpc =>
      intro hsd
      have hsd : s.shared.shutdown = true := hsd
      simp only [drops, hpc, hsd, decide_true, Bool.and_self, Bool.true_and, Bool.not_eq_true',
        decide_eq_false_iff_not, Nat.not_lt] at hok
      show (s.shared.tasks ++ [s.task e]).length ≤ s.committed
      rwa [List.length_append, List.length_singleton]
    | notify w _ hw =>
      intro hsd
      exact (hi hsd).trans (committed_wakeOne hw).ge
    | _ => exact hi
  | shutdown c s₁ he =>
    show s₁.Covered
    cases he with
    | store hpc =>
      intro _
      show s.shared.tasks.length ≤ s.committed
      simpa [drops, hpc] using hok
    | notifyAll =>
      intro hsd
      refine (hi hsd).trans (le_of_eq ?_)
      simp [committed]
    | _ => exact hi

/-! ## One thread calls `shutdown` -/

/-- `shutdown` has done what it does, by the one thread that calls it. -/
structure Stops (s : State n ι Unit) : Prop where
  flag : s.shared.shutdown = !(s.stopper ()).toStore
  workers : s.stopper () ≠ .returned → s.shared.workers = List.finRange n
  joinable : ∀ w, s.shared.joinable w = false → s.worker w = .exited
  joined : ∀ rest, (s.stopper ()).toJoin = some rest → ∀ w, w ∉ rest → s.worker w = .exited

omit [DecidableEq ι] in
theorem Stops.congr {s s' : State n ι Unit} (h : s.Stops) (hf : s'.shared.shutdown = s.shared.shutdown)
    (hv : s'.shared.workers = s.shared.workers) (hj : s'.shared.joinable = s.shared.joinable)
    (hpc : s'.stopper = s.stopper) (hw : ∀ w, s.worker w = .exited → s'.worker w = .exited) :
    s'.Stops := by
  refine ⟨?_, ?_, fun w hjw => ?_, fun rest hrest w hnot => ?_⟩
  · rw [hpc, hf]
    exact h.flag
  · rw [hpc, hv]
    exact h.workers
  · exact hw w (h.joinable w (hj ▸ hjw))
  · exact hw w (h.joined rest (hpc ▸ hrest) w hnot)

omit [DecidableEq ι] in
theorem Stops.stepShutdown {s s' : State n ι Unit} (h : s.Stops)
    (hs : s.Shutdowns () s') : s'.Stops := by
  obtain ⟨hflag, hworkers, hjoinable, hjoined⟩ := h
  cases hs with
  | begin hpc | first hpc | lock hpc =>
    rw [hpc] at hflag
    exact ⟨hflag, fun _ => hworkers (by simp [hpc]), hjoinable, nofun⟩
  | again hpc hf =>
    -- nobody else has set the flag
    rw [hpc] at hflag
    cases hflag.symm.trans hf
  | store hpc =>
    exact ⟨rfl, fun _ => hworkers (by simp [hpc]), hjoinable, nofun⟩
  | notifyAll hpc =>
    have hv := hworkers (by simp [hpc])
    rw [hpc] at hflag
    refine ⟨hflag, fun _ => hv, fun w hw => ?_, fun rest hrest w hnot => ?_⟩
    · simp [hjoinable w hw, Worker.wake]
    · -- all workers are still to be joined
      obtain rfl : s.shared.workers = rest := Option.some.inj hrest
      exact absurd (hv ▸ List.mem_finRange w) hnot
  | joinTest w rest hpc =>
    have hrest := hjoined (w :: rest) (by rw [hpc]; rfl)
    rw [hpc] at hflag
    refine ⟨hflag, fun _ => hworkers (by simp [hpc]), hjoinable, fun rest' hr w' hnot => ?_⟩
    obtain rfl : w :: rest = rest' := Option.some.inj hr
    exact hrest w' hnot
  | skip w rest hpc hjw =>
    have hrest := hjoined (w :: rest) (by rw [hpc]; rfl)
    rw [hpc] at hflag
    refine ⟨hflag, fun _ => hworkers (by simp [hpc]), hjoinable, fun rest' hr w' hnot => ?_⟩
    obtain rfl : rest = rest' := Option.some.inj hr
    by_cases hww : w' = w
    · exact hww ▸ hjoinable w hjw
    · exact hrest w' (by simp [hww, hnot])
  | join w rest hpc =>
    have hrest := hjoined (w :: rest) (by rw [hpc]; rfl)
    rw [hpc] at hflag
    refine ⟨hflag, fun _ => hworkers (by simp [hpc]), hjoinable, fun rest' hr w' hnot => ?_⟩
    obtain rfl : w :: rest = rest' := Option.some.inj hr
    exact hrest w' hnot
  | throws w rest hpc =>
    rw [hpc] at hflag
    exact ⟨hflag, fun _ => hworkers (by simp [hpc]), hjoinable, nofun⟩
  | joined w rest hpc hw =>
    have hrest := hjoined (w :: rest) (by rw [hpc]; rfl)
    rw [hpc] at hflag
    refine ⟨hflag, fun _ => hworkers (by simp [hpc]), fun w' hjw => ?_, fun rest' hr w' hnot => ?_⟩
    · by_cases hww : w' = w
      · exact hww ▸ hw
      · exact hjoinable w' (by simpa [Shared.emit, hww] using hjw)
    · by_cases hww : w' = w
      · exact hww ▸ hw
      · obtain rfl : rest = rest' := Option.some.inj hr
        exact hrest w' (by simp [hww, hnot])
  | clear hpc =>
    rw [hpc] at hflag
    exact ⟨hflag, fun hne => absurd rfl hne, hjoinable, fun rest hr w hnot =>
      hjoined [] (by rw [hpc]; rfl) w (by simp)⟩

theorem stops {ok} {s : State n ι Unit} (h : (system n ι Unit).ReachableBy ok s) : s.Stops := by
  refine h.invariant (I := Stops) ?_ ?_
  · intro s hinit
    cases hinit
    exact ⟨rfl, fun _ => rfl, nofun, nofun⟩
  intro s a s' _ hi _ hs
  cases step_cases hs with
  | worker w threw sh pc hw =>
    have hframe : sh.shutdown = s.shared.shutdown ∧ sh.workers = s.shared.workers ∧
        sh.joinable = s.shared.joinable ∧ s.worker w ≠ .exited := by
      generalize s.worker w = pc₀ at hw
      cases hw <;> exact ⟨rfl, rfl, rfl, nofun⟩
    refine hi.congr hframe.1 hframe.2.1 hframe.2.2.1 rfl fun w' hw' => ?_
    have hne : w' ≠ w := by
      rintro rfl
      exact hframe.2.2.2 hw'
    simpa [hne] using hw'
  | spurious w hw => exact hi.congr rfl rfl rfl rfl (exited_wakeOne hw)
  | enqueue e woken s₁ he =>
    suffices hs₁ : s₁.Stops from hs₁.congr rfl rfl rfl rfl fun _ => id
    cases he with
    | notify w _ hw => exact hi.congr rfl rfl rfl rfl (exited_wakeOne hw)
    | _ => exact hi.congr rfl rfl rfl rfl fun _ => id
  | shutdown c s₁ he => exact (hi.stepShutdown he).congr rfl rfl rfl rfl fun _ => id

/-- **No accepted task is dropped**, in every run in which the flag is set,
and any task pushed after it, only while the workers past the loop's test
outnumber the tasks in the queue: when `shutdown` has returned, each task
whose `enqueue` has returned has been executed exactly once. -/
theorem accepted_executed {s : State n ι Unit}
    (h : (system n ι Unit).ReachableBy (fun s a => !s.drops a) s) (hstop : s.stopper () = .returned)
    {t : Task ι} (ht : .accepted t ∈ s.shared.log) : executions s.shared.log t = 1 := by
  have hexited : ∀ w, s.worker w = .exited := fun w =>
    (stops h).joined [] (by rw [hstop]; rfl) w (by simp)
  have hrun : s.running t = 0 := by simp [running, hexited, Worker.running]
  have hnone : s.committed = 0 := by simp [committed, hexited, Worker.committed]
  have hflag : s.shared.shutdown = true := by
    rw [(stops h).flag, hstop]
    rfl
  have hempty : s.shared.tasks = [] :=
    List.eq_nil_of_length_eq_zero (Nat.le_zero.mp (hnone ▸ covered h hflag))
  have hpush := ((called h).accepted t ht).2
  have hacc := accounted h t
  rw [hpush, hempty, hrun] at hacc
  simpa using hacc.symm

/-- The worker of a pool with one. -/
def sole : Fin 1 := Fin.last 0

/-- One call of `enqueue`, of a thread whose `notify_one` wakes `woken`. -/
def submit (woken : Option (Fin 1)) : List (Action 1 Unit Unit) :=
  [.enqueue () none, .enqueue () none, .enqueue () none, .enqueue () none, .enqueue () woken]

/-- `shutdown` up to its loop over the workers. -/
def setFlag : List (Action 1 Unit Unit) := List.replicate 5 (.shutdown ())

/-- The worker is blocked when the task is pushed, and has only been woken
when the flag is set. -/
def drained : List (Action 1 Unit Unit) :=
  [.worker sole false, .worker sole false, .worker sole false] ++ submit (some sole) ++ setFlag ++
    [.worker sole false, .worker sole false, .worker sole false, .worker sole false] ++
    List.replicate 4 (.shutdown ())

theorem accepted_executed_drained : ∃ s : State 1 Unit Unit,
    (system 1 Unit Unit).ReachableBy (fun s a => !s.drops a) s ∧ s.stopper () = .returned ∧
      .accepted ((), 0) ∈ s.shared.log ∧ executions s.shared.log ((), 0) = 1 := by
  obtain ⟨s, hr, hs⟩ := System.exists_reachableBy (S := system 1 Unit Unit) (s := {}) rfl
    (fun s a => !s.drops a) drained
    (fun s => s.stopper () = .returned && decide (.accepted ((), 0) ∈ s.shared.log)) (by decide +kernel)
  simp only [Bool.and_eq_true, decide_eq_true_eq] at hs
  exact ⟨s, hr, hs.1, hs.2, accepted_executed hr hs.1 hs.2⟩

/-- The worker comes to the loop's test after the flag is set, with one task
in the queue. -/
def dropped : List (Action 1 Unit Unit) :=
  submit none ++ setFlag ++ [.worker sole false] ++ List.replicate 4 (.shutdown ())

theorem not_accepted_executed : ¬ ∀ (n : Nat) (ι : Type) (_ : DecidableEq ι) (s : State n ι Unit),
    (system n ι Unit).Reachable s → s.stopper () = .returned →
      ∀ t, .accepted t ∈ s.shared.log → executions s.shared.log t = 1 := by
  intro h
  obtain ⟨s, hr, hs⟩ := System.exists_reachable (S := system 1 Unit Unit) (s := {}) rfl dropped
    (fun s => s.stopper () = .returned && decide (.accepted ((), 0) ∈ s.shared.log) &&
      executions s.shared.log ((), 0) = 0) (by decide +kernel)
  simp only [Bool.and_eq_true, decide_eq_true_eq] at hs
  obtain ⟨⟨hstop, hacc⟩, hnone⟩ := hs
  cases (h 1 Unit inferInstance s hr hstop _ hacc).symm.trans hnone

end State

end Webserver.ThreadPool
