/-
The pool's queue in order: what was pushed is what the workers have taken, in
the order taken, and then the queue. A worker takes a task, invokes it once
and comes back to its loop, however the task ends.
-/
import Webserver.ThreadPool

namespace Webserver.ThreadPool

open Locks Systems

/-! ## What a log tells -/

section

variable {n : Nat} {ι : Type}

/-- The tasks pushed, in order. -/
def pushed (log : List (Event n ι)) : List (Task ι) :=
  log.filterMap fun | .pushed t => some t | _ => none

/-- The tasks taken, in the order taken, by whichever worker. -/
def taken (log : List (Event n ι)) : List (Task ι) :=
  log.filterMap fun | .taken _ t => some t | _ => none

/-- A task taken or invoked by worker `w`. -/
def Event.isWork (w : Fin n) : Event n ι → Bool
  | .taken w' _ | .executed w' _ _ => w' = w
  | _ => false

/-- What worker `w` did with tasks, in order. -/
def workOf (w : Fin n) (log : List (Event n ι)) : List (Event n ι) := log.filter (Event.isWork w)

/-- A worker's turns: it takes a task and invokes it, which throws or not. -/
def turns (w : Fin n) (done : List (Task ι × Bool)) : List (Event n ι) :=
  done.flatMap fun d => [.taken w d.1, .executed w d.1 d.2]

/-- The turn a worker is in the middle of. -/
def Worker.begun (w : Fin n) : Worker ι → List (Event n ι)
  | run t => [.taken w t]
  | _ => []

/-- An event that is about no task in the queue or with a worker. -/
def Event.isCall : Event n ι → Bool
  | .refused _ | .accepted _ | .joined _ => true
  | _ => false

theorem pushed_emit (s : Shared n ι) (e : Event n ι) :
    pushed (s.emit e).log = pushed s.log ++ pushed [e] := List.filterMap_append ..

theorem taken_emit (s : Shared n ι) (e : Event n ι) :
    taken (s.emit e).log = taken s.log ++ taken [e] := List.filterMap_append ..

theorem workOf_emit (w : Fin n) (s : Shared n ι) (e : Event n ι) :
    workOf w (s.emit e).log = workOf w s.log ++ workOf w [e] := List.filter_append ..

@[simp] theorem begun_wake (w : Fin n) (pc : Worker ι) : pc.wake.begun w = pc.begun w := by
  cases pc <;> rfl

theorem turns_concat (w : Fin n) (done : List (Task ι × Bool)) (t : Task ι) (threw : Bool) :
    turns w (done ++ [(t, threw)]) = turns w done ++ [.taken w t] ++ [.executed w t threw] := by
  simp [turns]

end

namespace State

variable {n : Nat} {ι κ : Type}

/-- No task is lost, doubled or overtaken, and each worker goes through its
turns one after the other. -/
structure Conserved (s : State n ι κ) : Prop where
  order : pushed s.shared.log = taken s.shared.log ++ s.shared.tasks
  work : ∀ w, ∃ done, workOf w s.shared.log = turns w done ++ (s.worker w).begun w

theorem Conserved.congr {s s' : State n ι κ} (h : s.Conserved) (hs : s'.shared.log = s.shared.log)
    (htasks : s'.shared.tasks = s.shared.tasks)
    (hw : ∀ w, (s'.worker w).begun w = (s.worker w).begun w) : s'.Conserved := by
  refine ⟨by rw [hs, htasks, h.order], fun w => ?_⟩
  rw [hs, hw]
  exact h.work w

theorem Conserved.emit {s s' : State n ι κ} (h : s.Conserved) {e : Event n ι} (he : e.isCall)
    (hs : s'.shared.log = (s.shared.emit e).log) (htasks : s'.shared.tasks = s.shared.tasks)
    (hw : ∀ w, (s'.worker w).begun w = (s.worker w).begun w) : s'.Conserved := by
  have hnone : pushed [e] = [] ∧ taken [e] = [] ∧ ∀ w, workOf w [e] = [] := by
    cases e <;> first | exact ⟨rfl, rfl, fun _ => rfl⟩ | cases he
  refine ⟨?_, fun w => ?_⟩
  · rw [hs, htasks, pushed_emit, taken_emit, hnone.1, hnone.2.1, List.append_nil, List.append_nil, h.order]
  · rw [hs, hw, workOf_emit, hnone.2.2, List.append_nil]
    exact h.work w

/-- Another worker's step leaves a worker's turns alone. -/
theorem begun_update_of_ne {f : Fin n → Worker ι} {w w' : Fin n} (hne : w' ≠ w) (pc : Worker ι) :
    (Function.update f w pc w').begun w' = (f w').begun w' := by
  rw [Function.update_of_ne hne]

theorem Conserved.stepWorker {s : State n ι κ} {w sh pc own} (h : s.Conserved)
    (hs : (s.worker w).Steps s.shared w sh pc) :
    Conserved { s with shared := sh, worker := Function.update s.worker w pc, owner := own } := by
  have stays : pc.begun w = (s.worker w).begun w →
      ∀ w', (Function.update s.worker w pc w').begun w' = (s.worker w').begun w' := by
    intro hpc w'
    by_cases hw : w' = w
    · subst hw
      rw [Function.update_self, hpc]
    · exact begun_update_of_ne hw pc
  obtain ⟨done, hdone⟩ := h.work w
  generalize hpc₀ : s.worker w = pc₀ at hs hdone stays
  cases hs with
  | take t rest htasks =>
    refine ⟨?_, fun w' => ?_⟩
    · show pushed (s.shared.emit (.taken w t)).log = taken (s.shared.emit (.taken w t)).log ++ rest
      rw [pushed_emit, taken_emit, h.order, htasks]
      simp [pushed, taken]
    · show ∃ done, workOf w' (s.shared.emit (.taken w t)).log =
        turns w' done ++ (Function.update s.worker w (.run t) w').begun w'
      by_cases hw : w' = w
      · subst hw
        refine ⟨done, ?_⟩
        rw [workOf_emit, hdone, Function.update_self]
        simp [workOf, Event.isWork, Worker.begun]
      · obtain ⟨done', hdone'⟩ := h.work w'
        refine ⟨done', ?_⟩
        rw [workOf_emit, begun_update_of_ne hw, ← hdone']
        simp [workOf, Event.isWork, Ne.symm hw]
  | execute t threw =>
    refine ⟨?_, fun w' => ?_⟩
    · show pushed (s.shared.emit (.executed w t threw)).log =
        taken (s.shared.emit (.executed w t threw)).log ++ s.shared.tasks
      rw [pushed_emit, taken_emit, h.order]
      simp [pushed, taken]
    · show ∃ done, workOf w' (s.shared.emit (.executed w t threw)).log =
        turns w' done ++ (Function.update s.worker w .loop w').begun w'
      by_cases hw : w' = w
      · -- the turn that was begun is complete
        subst hw
        refine ⟨done ++ [(t, threw)], ?_⟩
        rw [workOf_emit, hdone, Function.update_self, turns_concat]
        simp [workOf, Event.isWork, Worker.begun]
      · obtain ⟨done', hdone'⟩ := h.work w'
        refine ⟨done', ?_⟩
        rw [workOf_emit, begun_update_of_ne hw, ← hdone']
        simp [workOf, Event.isWork, Ne.symm hw]
  | _ => exact h.congr rfl rfl (stays rfl)

variable [DecidableEq ι] [DecidableEq κ]

omit [DecidableEq ι] [DecidableEq κ] in
theorem Conserved.wakeOne {s : State n ι κ} {w} (h : s.Conserved) (hw : s.worker w = .blocked) :
    Conserved { s with worker := Function.update s.worker w .lock } := by
  refine h.congr rfl rfl fun w' => ?_
  by_cases heq : w' = w
  · subst heq
    simp [hw, Worker.begun]
  · exact begun_update_of_ne heq _

omit [DecidableEq κ] in
theorem Conserved.stepEnqueue {s s' : State n ι κ} {e} (h : s.Conserved)
    (he : s.Enqueues e s') : s'.Conserved := by
  cases he with
  | refuse => exact h.emit (e := .refused (s.task e)) rfl rfl rfl fun _ => rfl
  | push =>
    refine ⟨?_, fun w => ?_⟩
    · show pushed (s.shared.emit (.pushed (s.task e))).log =
        taken (s.shared.emit (.pushed (s.task e))).log ++ (s.shared.tasks ++ [s.task e])
      rw [pushed_emit, taken_emit, h.order]
      simp [pushed, taken]
    · show ∃ done, workOf w (s.shared.emit (.pushed (s.task e))).log = turns w done ++ (s.worker w).begun w
      obtain ⟨done, hdone⟩ := h.work w
      refine ⟨done, ?_⟩
      rw [workOf_emit, ← hdone]
      simp [workOf, Event.isWork]
  | notify w _ hw =>
    exact (h.wakeOne hw).emit (e := .accepted (s.task e)) rfl rfl rfl fun _ => rfl
  | notifyNobody => exact h.emit (e := .accepted (s.task e)) rfl rfl rfl fun _ => rfl
  | _ => exact h.congr rfl rfl fun _ => rfl

omit [DecidableEq ι] in
theorem Conserved.stepShutdown {s s' : State n ι κ} {c} (h : s.Conserved)
    (he : s.Shutdowns c s') : s'.Conserved := by
  cases he with
  | notifyAll => exact h.congr rfl rfl fun w => begun_wake w _
  | joined w => exact h.emit (e := .joined w) rfl rfl rfl fun _ => rfl
  | _ => exact h.congr rfl rfl fun _ => rfl

theorem conserves {ok} {s : State n ι κ} (h : (system n ι κ).ReachableBy ok s) : s.Conserved := by
  refine h.invariant (I := Conserved) ?_ ?_
  · intro s hinit
    cases hinit
    exact ⟨rfl, fun _ => ⟨[], rfl⟩⟩
  intro s a s' _ hi _ hs
  cases step_cases hs with
  | worker w threw sh pc hw => exact hi.stepWorker hw
  | spurious w hw => exact hi.wakeOne hw
  | enqueue e woken s₁ he => exact (hi.stepEnqueue he).congr rfl rfl fun _ => rfl
  | shutdown c s₁ he => exact (hi.stepShutdown he).congr rfl rfl fun _ => rfl

/-- **Conservation and order**: what was pushed is what was taken and then
the queue, in order; each worker takes a task and invokes it once, before it
takes another; and a worker with a task invokes it and goes on to its loop,
whether the task throws or not. -/
theorem conserved {s : State n ι κ} (h : (system n ι κ).Reachable s) :
    pushed s.shared.log = taken s.shared.log ++ s.shared.tasks ∧
    (∀ w, ∃ done, workOf w s.shared.log = turns w done ++ (s.worker w).begun w) ∧
    ∀ w t threw, s.worker w = .run t → ∃ s', s.step (.worker w threw) = some s' ∧
      s'.worker w = .loop ∧ s'.shared.log = s.shared.log ++ [.executed w t threw] := by
  refine ⟨(conserves h).order, (conserves h).work, fun w t threw hw => ?_⟩
  refine ⟨{ s with shared := s.shared.emit (.executed w t threw),
                   worker := Function.update s.worker w .loop }, ?_, by simp, rfl⟩
  simp [step, hw, Worker.lockOp, Worker.exec, LockOp.apply]

/-- A worker whose first task has thrown has taken a second one. -/
theorem conserved_threw : ∃ s : State 1 Unit Unit, (system 1 Unit Unit).Reachable s ∧
    workOf (Fin.last 0) s.shared.log = turns (Fin.last 0) [(((), 0), true)] ++ [.taken (Fin.last 0) ((), 1)] ∧
    pushed s.shared.log = taken s.shared.log ++ s.shared.tasks ∧
    ∃ s', s.step (.worker (Fin.last 0) false) = some s' ∧ s'.worker (Fin.last 0) = .loop ∧
      s'.shared.log = s.shared.log ++ [.executed (Fin.last 0) ((), 1) false] := by
  obtain ⟨s, hr, hs⟩ := System.exists_reachable (S := system 1 Unit Unit) (s := {}) rfl
    (List.replicate 10 (.enqueue () none) ++ List.replicate 7 (.worker (Fin.last 0) true))
    (fun s => decide (workOf (Fin.last 0) s.shared.log =
        turns (Fin.last 0) [(((), 0), true)] ++ [.taken (Fin.last 0) ((), 1)]) &&
      decide (s.worker (Fin.last 0) = .run ((), 1))) (by decide +kernel)
  simp only [Bool.and_eq_true, decide_eq_true_eq] at hs
  obtain ⟨horder, -, hgoes⟩ := conserved hr
  exact ⟨s, hr, hs.1, horder, hgoes (Fin.last 0) _ false hs.2⟩

end State

end Webserver.ThreadPool
