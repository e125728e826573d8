/-
`stop()` against the event thread. `running_` is tested once in each turn of
`event_loop`, but the pool is shut down at once: a request the event thread
dispatches later in that turn, or has dispatched and not yet handed over,
makes `enqueue` throw, and nothing in `event_loop` catches it. Where every
request dispatched is past `enqueue`'s test when the pool is shut down, and
none is dispatched afterwards, no exception leaves the loop.
-/
import Webserver.Descriptors
import Webserver.Tasks

namespace Webserver

open Cxx Locks Systems

namespace EventPc

/-- A request is dispatched, and `enqueue` has not tested `shutdown_` yet. -/
def untested : EventPc → Bool
  | dataUnlock _ true _ | enqueue _ _ => true
  | _ => false

/-- The chunk to append completes a request, and no task has the connection. -/
def dispatches (s : Shared) : EventPc → Bool
  | dataAppend _ c chunk _ =>
    !overflows s c chunk && !(s.heap c).processingRequest &&
      isHttpRequestComplete ((s.heap c).buffer ++ chunk)
  | _ => false

theorem untested_resume (ret : EventRet) (next : Option SubPc) :
    (resume ret next).untested = false := by
  cases next <;> cases ret <;> rfl

/-- What the event thread's next point says of the test in `enqueue`. -/
structure Tests (s : Shared) (pc pc' : EventPc) : Prop where
  untested : pc'.untested → pc.untested ∨ pc.dispatches s
  dispatched : pc.dispatches s → pc'.untested
  threw : pc' = .thrown → pc.untested ∧ s.poolShutdown
  throws : pc.untested → s.poolShutdown → pc'.untested ∨ pc' = .thrown

theorem Tests.none {s : Shared} {pc pc' : EventPc} (h : pc.untested = false)
    (hd : pc.dispatches s = false) (h' : pc'.untested = false) (ht : pc' ≠ .thrown) :
    Tests s pc pc' :=
  ⟨by simp [h'], by simp [hd], fun e => absurd e ht, by simp [h]⟩

theorem exec_tests {s : Shared} {pc : EventPc} {i s' pc'} (h : pc.exec s i = some (s', pc')) :
    Tests s pc pc' := by
  cases exec_steps h with
  | tooLarge fd c chunk k hover => exact .none rfl (by simp [dispatches, hover]) rfl nofun
  | completes fd c chunk k fits idle complete =>
    exact ⟨fun _ => .inr (by simp [dispatches, fits, idle, complete]), fun _ => rfl, nofun, nofun⟩
  | appends fd c chunk k fits incomplete => exact .none rfl (by simpa [dispatches, fits] using incomplete) rfl nofun
  | process c k => exact ⟨fun _ => .inl rfl, nofun, nofun, fun _ _ => .inl rfl⟩
  | throws c k hs => exact ⟨nofun, nofun, fun _ => ⟨rfl, hs⟩, fun _ _ => .inr rfl⟩
  | enqueue c k hs => exact ⟨nofun, nofun, nofun, fun _ hd => absurd hd hs⟩
  | sub p ret next h₁ =>
    refine .none rfl rfl (untested_resume ret next) ?_
    cases next <;> cases ret <;> nofun
  | _ => exact .none rfl rfl rfl nofun

end EventPc

namespace Server

variable {n : Nat}

/-- The step leaves a dispatched request to an `enqueue` that will throw:
`stop()` shuts the pool down before the test, or the request is dispatched
after that. -/
def strands (s : Server n) : Action n → Bool
  | .event _ => s.shared.poolShutdown && s.event.dispatches s.shared
  | .stop => s.stop = .shutdownPool && s.event.untested
  | _ => false

/-- Once the pool is shut down no request waits for `enqueue`'s test. -/
structure Orderly (s : Server n) : Prop where
  untested : s.shared.poolShutdown → s.event.untested = false
  thrown : s.event ≠ .thrown

/-- **No exception leaves `event_loop`**, in every run in which the pool is
not shut down between a dispatch and the test in `enqueue`, and no request is
dispatched after it is. -/
theorem orderly {s : Server n} (h : (system n).ReachableBy (fun s a => !strands s a) s) :
    s.event ≠ .thrown := by
  refine (h.invariant (I := Orderly) ?_ ?_).thrown
  · intro s hinit
    obtain ⟨_, _, _, _, rfl⟩ := hinit
    exact ⟨nofun, nofun⟩
  intro s a s' hr hi hok hs
  cases step_cases hs with
  | event i sh pc he =>
    have tests := EventPc.exec_tests he
    have hp := EventPc.exec_poolShutdown he
    have idle : s.shared.poolShutdown → s.event.dispatches s.shared = false := by
      intro hd
      simpa [strands, hd] using hok
    refine ⟨fun hd => ?_, fun ht => ?_⟩
    · have hd : s.shared.poolShutdown := hp ▸ hd
      by_contra hu
      rcases tests.untested (by simpa using hu) with hu | hu
      · cases (hi.untested hd).symm.trans hu
      · cases (idle hd).symm.trans hu
    · obtain ⟨hu, hd⟩ := tests.threw ht
      cases (hi.untested hd).symm.trans hu
  | worker w i sh pc he =>
    exact ⟨fun hd => hi.untested (WorkerPc.exec_poolShutdown he ▸ hd), hi.thrown⟩
  | stop wl el sh pc he =>
    refine ⟨fun hd => ?_, hi.thrown⟩
    by_cases hpool : s.shared.poolShutdown
    · exact hi.untested hpool
    · -- this step sets the flag
      have hpc : s.stop = .shutdownPool := by
        rw [poolShutdown_eq hr] at hpool
        have hdown := (StopPc.exec_poolShutdown he).2 (poolShutdown_eq hr)
        generalize s.stop = stop at he hpool
        cases StopPc.exec_steps he with
        | notCalled => cases hdown.symm.trans hd
        | shutdownPool => rfl
        | _ => simp [StopPc.poolDown] at hpool
      simpa [strands, hpc] using hok
  | tick => exact ⟨hi.untested, hi.thrown⟩

theorem orderly_stopped : ∃ s : Server 1,
    (system 1).ReachableBy (fun s a => !strands s a) s ∧ s.stop = .done ∧ s.event ≠ .thrown := by
  obtain ⟨s, hr, hs⟩ := System.exists_reachableBy init_fresh (fun s a => !strands s a)
    answeredAndStopped (fun s => decide (s.stop = .done)) (by decide +kernel)
  exact ⟨s, hr, of_decide_eq_true hs, orderly hr⟩

/-! ## The exception -/

/-- The event thread is on its way to throw, or has thrown. -/
structure Stranded (s : Server n) : Prop where
  down : s.shared.poolShutdown
  event : s.event.untested ∨ s.event = .thrown

theorem Stranded.of_strands {s s' : Server n} {a} (ha : strands s a) (hs : s.step a = some s') :
    s'.Stranded := by
  cases step_cases hs with
  | event i sh pc he =>
    simp only [strands, Bool.and_eq_true] at ha
    exact ⟨(EventPc.exec_poolShutdown he).trans ha.1, .inl ((EventPc.exec_tests he).dispatched ha.2)⟩
  | worker => cases ha
  | stop wl el sh pc he =>
    simp only [strands, Bool.and_eq_true, decide_eq_true_eq] at ha
    rw [ha.1] at he
    cases StopPc.exec_steps he
    exact ⟨rfl, .inl ha.2⟩
  | tick => cases ha

theorem Stranded.step {s s' : Server n} {a} (h : s.Stranded) (hs : s.step a = some s') :
    s'.Stranded := by
  cases step_cases hs with
  | event i sh pc he =>
    refine ⟨(EventPc.exec_poolShutdown he).trans h.down, ?_⟩
    rcases h.event with hu | ht
    · exact (EventPc.exec_tests he).throws hu h.down
    · rw [ht] at he
      cases he
  | worker w i sh pc he => exact ⟨(WorkerPc.exec_poolShutdown he).trans h.down, h.event⟩
  | stop wl el sh pc he =>
    refine ⟨?_, h.event⟩
    by_contra hp
    cases h.down.symm.trans ((StopPc.exec_poolShutdown he).1 (by simpa using hp))
  | tick => exact ⟨h.down, h.event⟩

/-- Where a step strands a request, `stop()` never returns: the event thread
never leaves its loop other than by the exception. -/
theorem not_done_of_strands {s s' s'' : Server n} {a as} (h : (system n).Reachable s)
    (ha : strands s a) (hs : s.step a = some s') (hr : (system n).run s' as = some s'') :
    s''.Stranded ∧ s''.stop ≠ .done := by
  have hst : s''.Stranded := System.invariant_of_run (S := system n) (I := Stranded)
    (fun _ _ _ hi hs => hi.step hs) (Stranded.of_strands ha hs) hr
  refine ⟨hst, fun hdone => ?_⟩
  have hreach : (system n).Reachable s'' := System.Reachable.of_run (.step h trivial hs) hr
  have hexit := (joined hreach).event (by rw [hdone]; rfl)
  rcases hst.event with hu | ht
  · rw [hexit] at hu
    cases hu
  · cases hexit.symm.trans ht

/-- `stop()` is called while the event thread has just dispatched a request. -/
def stoppedInBetween : List (Action 1) :=
  acceptClient 7 1 ++ eventSteps (pollInputs [(7, true, false)] ++ dataInputs getRequest) ++
    [.stop, .stop] ++ eventSteps [.go]

theorem not_orderly : ¬ ∀ (n : Nat) (s : Server n), (system n).Reachable s → s.event ≠ .thrown := by
  intro h
  obtain ⟨s, hr, hs⟩ := System.exists_reachable init_fresh stoppedInBetween
    (fun s => s.event = .thrown) (by decide +kernel)
  exact h 1 s hr (of_decide_eq_true hs)

end Server

end Webserver
