/-
The thread pool (`thread_pool.h`, `thread_pool.cpp`): `worker_thread`,
`enqueue` and `shutdown`, run by any number of threads in any order.

A step is one access to `shutdown_` outside the mutex, one lock of
`queue_mutex_`, one section under it up to its end, or one call on the
condition variable. A worker in `wait` has either the mutex or is blocked;
`notify_one` wakes one blocked worker if there is any, and a blocked worker
may wake for no reason. A task is named by the thread that submits it and the
number of that thread's call.
-/
import Webserver.Locks
import Webserver.Systems

namespace Webserver.ThreadPool

open Locks Systems

/-- A task: whose call of `enqueue` submits it, and the how-manieth. -/
abbrev Task (ι : Type) := ι × Nat

/-- What a step did. -/
inductive Event (n : Nat) (ι : Type)
  /-- `enqueue` threw. -/
  | refused (t : Task ι)
  | pushed (t : Task ι)
  /-- `enqueue` returned. -/
  | accepted (t : Task ι)
  | taken (w : Fin n) (t : Task ι)
  | executed (w : Fin n) (t : Task ι) (threw : Bool)
  | joined (w : Fin n)
  deriving DecidableEq

structure Shared (n : Nat) (ι : Type) where
  /-- `tasks_` -/
  tasks : List (Task ι) := []
  /-- `shutdown_` -/
  shutdown : Bool := false
  /-- `workers_` -/
  workers : List (Fin n) := List.finRange n
  joinable : Fin n → Bool := fun _ => true
  /-- A call waits for the worker in `join`. -/
  joining : Fin n → Bool := fun _ => false
  /-- Not in the source: what the steps did, in order. -/
  log : List (Event n ι) := []

def Shared.emit {n ι} (s : Shared n ι) (e : Event n ι) : Shared n ι := { s with log := s.log ++ [e] }

/-! ## `worker_thread` -/

inductive Worker (ι : Type)
  | loop
  | lock
  /-- At the test of `wait`, with the mutex. -/
  | wait
  | blocked
  | run (t : Task ι)
  | exited
  deriving DecidableEq

namespace Worker

variable {n : Nat} {ι : Type}

def lockOp : Worker ι → LockOp Unit
  | lock => .lock ()
  | wait => .unlock ()
  | _ => .skip

/-- A step of worker `w`; `threw` says how the task it runs ends. -/
def exec (s : Shared n ι) (w : Fin n) (threw : Bool) : Worker ι → Option (Shared n ι × Worker ι)
  | loop => some (s, if s.shutdown then exited else lock)
  | lock => some (s, wait)
  | wait =>
    match s.tasks with
    | [] => some (s, if s.shutdown then exited else blocked)
    | t :: rest => some ({ s with tasks := rest }.emit (.taken w t), run t)
  | run t => some (s.emit (.executed w t threw), loop)
  | blocked | exited => none

/-- A blocked worker has been notified, or wakes up by itself. -/
def wake : Worker ι → Worker ι
  | blocked => lock
  | pc => pc

end Worker

/-! ## `enqueue` -/

/-- A thread that calls `enqueue`, in a call or between two. -/
inductive Enqueue
  | idle
  | test
  | lock
  | push
  | notify
  deriving DecidableEq

def Enqueue.lockOp : Enqueue → LockOp Unit
  | lock => .lock ()
  | push => .unlock ()
  | _ => .skip

/-! ## `shutdown` -/

inductive Shutdown (n : Nat)
  | idle
  | test
  | lock
  | store
  | notifyAll
  /-- The loop over `workers_`, at the test of `joinable`. -/
  | joinTest (rest : List (Fin n))
  | join (w : Fin n) (rest : List (Fin n))
  /-- In `join`, until the worker has left. -/
  | waits (w : Fin n) (rest : List (Fin n))
  | returned
  /-- `join` has thrown. -/
  | thrown
  deriving DecidableEq

def Shutdown.lockOp {n} : Shutdown n → LockOp Unit
  | lock => .lock ()
  | store => .unlock ()
  | _ => .skip

/-! ## The pool -/

/-- The threads: `n` workers, those of `ι` call `enqueue`, those of `κ` call
`shutdown`. -/
inductive Thread (n : Nat) (ι κ : Type)
  | worker (w : Fin n)
  | enqueuer (e : ι)
  | stopper (c : κ)

structure State (n : Nat) (ι κ : Type) where
  shared : Shared n ι := {}
  worker : Fin n → Worker ι := fun _ => .loop
  enqueuer : ι → Enqueue := fun _ => .idle
  /-- The number of calls of `enqueue` a thread has finished. -/
  calls : ι → Nat := fun _ => 0
  stopper : κ → Shutdown n := fun _ => .idle
  owner : Unit → Option (Thread n ι κ) := fun _ => none

inductive Action (n : Nat) (ι κ : Type)
  | worker (w : Fin n) (threw : Bool)
  | spurious (w : Fin n)
  /-- `woken` is the worker that `notify_one` wakes. -/
  | enqueue (e : ι) (woken : Option (Fin n))
  | shutdown (c : κ)

namespace State

variable {n : Nat} {ι κ : Type} [DecidableEq ι] [DecidableEq κ]

/-- The task of the call of `enqueue` a thread is in or begins next. -/
def task (s : State n ι κ) (e : ι) : Task ι := (e, s.calls e)

/-- `enqueue` ends, as `event` says. -/
def endCall (s : State n ι κ) (e : ι) (event : Event n ι) : State n ι κ :=
  { s with shared := s.shared.emit event, enqueuer := Function.update s.enqueuer e .idle,
           calls := Function.update s.calls e (s.calls e + 1) }

/-- `condition_.notify_one()` -/
def notifyOne (s : State n ι κ) : Option (Fin n) → Option (State n ι κ)
  | some w => if s.worker w = .blocked then
      some { s with worker := Function.update s.worker w .lock } else none
  | none => if ∀ w, s.worker w ≠ .blocked then some s else none

/-- A step of a thread that calls `enqueue`. -/
def enqueueStep (s : State n ι κ) (e : ι) (woken : Option (Fin n)) : Option (State n ι κ) :=
  match s.enqueuer e with
  | .idle => some { s with enqueuer := Function.update s.enqueuer e .test }
  | .test =>
    if s.shared.shutdown then some (s.endCall e (.refused (s.task e)))
    else some { s with enqueuer := Function.update s.enqueuer e .lock }
  | .lock => some { s with enqueuer := Function.update s.enqueuer e .push }
  | .push =>
    some { s with shared := { s.shared with tasks := s.shared.tasks ++ [s.task e] }.emit
                    (.pushed (s.task e)),
                  enqueuer := Function.update s.enqueuer e .notify }
  | .notify => (s.notifyOne woken).map (·.endCall e (.accepted (s.task e)))

/-- A step of a thread that calls `shutdown`. `join` throws where another call
has joined the worker since the test, or waits for it. Where another call comes to
`workers_.clear()` meanwhile, the loop goes on over the threads it began with,
which have been joined (the standard leaves this open). -/
def shutdownStep (s : State n ι κ) (c : κ) : Option (State n ι κ) :=
  let goto (pc : Shutdown n) := Function.update s.stopper c pc
  match s.stopper c with
  | .idle => some { s with stopper := goto .test }
  | .test => some { s with stopper := goto (if s.shared.shutdown then .returned else .lock) }
  | .lock => some { s with stopper := goto .store }
  | .store => some { s with shared := { s.shared with shutdown := true }, stopper := goto .notifyAll }
  | .notifyAll =>
    some { s with worker := fun w => (s.worker w).wake, stopper := goto (.joinTest s.shared.workers) }
  | .joinTest (w :: rest) =>
    some { s with stopper := goto (if s.shared.joinable w then .join w rest else .joinTest rest) }
  | .join w rest =>
    if s.shared.joinable w && !s.shared.joining w then
      some { s with shared := { s.shared with joining := Function.update s.shared.joining w true },
                    stopper := goto (.waits w rest) }
    else some { s with stopper := goto .thrown }
  | .waits w rest =>
    if s.worker w = .exited then
      some { s with shared := { s.shared with joinable := Function.update s.shared.joinable w false,
                                              joining := Function.update s.shared.joining w false }.emit
                      (.joined w),
                    stopper := goto (.joinTest rest) }
    else none
  | .joinTest [] => some { s with shared := { s.shared with workers := [] }, stopper := goto .returned }
  | .returned | .thrown => none

def step (s : State n ι κ) : Action n ι κ → Option (State n ι κ)
  | .worker w threw => do
    let owner ← (s.worker w).lockOp.apply (.worker w) s.owner
    let (shared, pc) ← (s.worker w).exec s.shared w threw
    return { s with shared, worker := Function.update s.worker w pc, owner }
  | .spurious w =>
    if s.worker w = .blocked then some { s with worker := Function.update s.worker w .lock } else none
  | .enqueue e woken => do
    let owner ← (s.enqueuer e).lockOp.apply (.enqueuer e) s.owner
    let s ← s.enqueueStep e woken
    return { s with owner }
  | .shutdown c => do
    let owner ← (s.stopper c).lockOp.apply (.stopper c) s.owner
    let s ← s.shutdownStep c
    return { s with owner }

end State

/-- A pool of `n` workers as a system, from the end of its constructor on. -/
def system (n : Nat) (ι κ : Type) [DecidableEq ι] [DecidableEq κ] :
    System (State n ι κ) (Action n ι κ) where
  init s := s = {}
  step := State.step

/-! ## Steps -/

/-- What a step of a worker does. -/
inductive Worker.Steps {n : Nat} {ι : Type} (s : Shared n ι) (w : Fin n) :
    Worker ι → Shared n ι → Worker ι → Prop
  | leave (h : s.shutdown = true) : Steps s w .loop s .exited
  | enter (h : s.shutdown = false) : Steps s w .loop s .lock
  | lock : Steps s w .lock s .wait
  | quit (h : s.shutdown = true) (empty : s.tasks = []) : Steps s w .wait s .exited
  | block (h : s.shutdown = false) (empty : s.tasks = []) : Steps s w .wait s .blocked
  | take (t rest) (h : s.tasks = t :: rest) :
      Steps s w .wait ({ s with tasks := rest }.emit (.taken w t)) (.run t)
  | execute (t threw) : Steps s w (.run t) (s.emit (.executed w t threw)) .loop

theorem Worker.exec_steps {n : Nat} {ι : Type} {s : Shared n ι} {w threw} {pc : Worker ι} {s' pc'}
    (h : pc.exec s w threw = some (s', pc')) : Steps s w pc s' pc' := by
  cases pc with
  | loop =>
    simp only [exec, Option.some.injEq, Prod.mk.injEq] at h
    obtain ⟨rfl, rfl⟩ := h
    cases hs : s.shutdown
    · exact .enter hs
    · exact .leave hs
  | lock =>
    cases h
    exact .lock
  | wait =>
    simp only [exec] at h
    split at h
    · next empty =>
      simp only [Option.some.injEq, Prod.mk.injEq] at h
      obtain ⟨rfl, rfl⟩ := h
      cases hs : s.shutdown
      · exact .block hs empty
      · exact .quit hs empty
    · next t rest htasks =>
      cases h
      exact .take t rest htasks
  | run t =>
    cases h
    exact .execute t threw
  | blocked => cases h
  | exited => cases h

namespace State

variable {n : Nat} {ι κ : Type} [DecidableEq ι] [DecidableEq κ]

omit [DecidableEq κ] in
/-- `notify_one` wakes a blocked worker, if there is one. -/
theorem notifyOne_cases {s s' : State n ι κ} {woken} (h : s.notifyOne woken = some s') :
    (s' = s ∧ ∀ w, s.worker w ≠ .blocked) ∨
      ∃ w, s.worker w = .blocked ∧ s' = { s with worker := Function.update s.worker w .lock } := by
  cases woken with
  | none =>
    simp only [notifyOne] at h
    split at h
    · next hnone => exact .inl ⟨(Option.some.inj h).symm, hnone⟩
    · cases h
  | some w =>
    simp only [notifyOne] at h
    split at h
    · next hw => exact .inr ⟨w, hw, (Option.some.inj h).symm⟩
    · cases h

/-- What a step of a thread that calls `enqueue` does. -/
inductive Enqueues (s : State n ι κ) (e : ι) : State n ι κ → Prop
  | begin (hpc : s.enqueuer e = .idle) :
      Enqueues s e { s with enqueuer := Function.update s.enqueuer e .test }
  | refuse (hpc : s.enqueuer e = .test) (h : s.shared.shutdown = true) :
      Enqueues s e (s.endCall e (.refused (s.task e)))
  | proceed (hpc : s.enqueuer e = .test) (h : s.shared.shutdown = false) :
      Enqueues s e { s with enqueuer := Function.update s.enqueuer e .lock }
  | lock (hpc : s.enqueuer e = .lock) :
      Enqueues s e { s with enqueuer := Function.update s.enqueuer e .push }
  | push (hpc : s.enqueuer e = .push) :
      Enqueues s e
        { s with shared := { s.shared with tasks := s.shared.tasks ++ [s.task e] }.emit
                   (.pushed (s.task e)),
                 enqueuer := Function.update s.enqueuer e .notify }
  | notify (w) (hpc : s.enqueuer e = .notify) (h : s.worker w = .blocked) :
      Enqueues s e
        ({ s with worker := Function.update s.worker w .lock }.endCall e (.accepted (s.task e)))
  | notifyNobody (hpc : s.enqueuer e = .notify) (h : ∀ w, s.worker w ≠ .blocked) :
      Enqueues s e (s.endCall e (.accepted (s.task e)))

omit [DecidableEq κ] in
theorem enqueueStep_cases {s s' : State n ι κ} {e woken} (h : s.enqueueStep e woken = some s') :
    s.Enqueues e s' := by
  cases hpc : s.enqueuer e with
  | idle =>
    simp only [enqueueStep, hpc, Option.some.injEq] at h
    exact h ▸ .begin hpc
  | test =>
    simp only [enqueueStep, hpc] at h
    split at h
    · next hs => exact Option.some.inj h ▸ .refuse hpc hs
    · next hs => exact Option.some.inj h ▸ .proceed hpc (by simpa using hs)
  | lock =>
    simp only [enqueueStep, hpc, Option.some.injEq] at h
    exact h ▸ .lock hpc
  | push =>
    simp only [enqueueStep, hpc, Option.some.injEq] at h
    exact h ▸ .push hpc
  | notify =>
    simp only [enqueueStep, hpc] at h
    obtain ⟨s₁, hn, rfl⟩ := Option.map_eq_some_iff.mp h
    rcases notifyOne_cases hn with ⟨rfl, hnone⟩ | ⟨w, hw, rfl⟩
    · exact .notifyNobody hpc hnone
    · exact .notify w hpc hw

/-- What a step of a thread that calls `shutdown` does. -/
inductive Shutdowns (s : State n ι κ) (c : κ) : State n ι κ → Prop
  | begin (hpc : s.stopper c = .idle) :
      Shutdowns s c { s with stopper := Function.update s.stopper c .test }
  | again (hpc : s.stopper c = .test) (h : s.shared.shutdown = true) :
      Shutdowns s c { s with stopper := Function.update s.stopper c .returned }
  | first (hpc : s.stopper c = .test) (h : s.shared.shutdown = false) :
      Shutdowns s c { s with stopper := Function.update s.stopper c .lock }
  | lock (hpc : s.stopper c = .lock) :
      Shutdowns s c { s with stopper := Function.update s.stopper c .store }
  | store (hpc : s.stopper c = .store) :
      Shutdowns s c { s with shared := { s.shared with shutdown := true },
                             stopper := Function.update s.stopper c .notifyAll }
  | notifyAll (hpc : s.stopper c = .notifyAll) :
      Shutdowns s c { s with worker := fun w => (s.worker w).wake,
                             stopper := Function.update s.stopper c (.joinTest s.shared.workers) }
  | joinTest (w rest) (hpc : s.stopper c = .joinTest (w :: rest)) (h : s.shared.joinable w = true) :
      Shutdowns s c { s with stopper := Function.update s.stopper c (.join w rest) }
  | skip (w rest) (hpc : s.stopper c = .joinTest (w :: rest)) (h : s.shared.joinable w = false) :
      Shutdowns s c { s with stopper := Function.update s.stopper c (.joinTest rest) }
  | join (w rest) (hpc : s.stopper c = .join w rest) (h : s.shared.joinable w = true)
      (alone : s.shared.joining w = false) :
      Shutdowns s c { s with shared := { s.shared with joining := Function.update s.shared.joining w true },
                             stopper := Function.update s.stopper c (.waits w rest) }
  | throws (w rest) (hpc : s.stopper c = .join w rest)
      (h : s.shared.joinable w = false ∨ s.shared.joining w = true) :
      Shutdowns s c { s with stopper := Function.update s.stopper c .thrown }
  | joined (w rest) (hpc : s.stopper c = .waits w rest) (h : s.worker w = .exited) :
      Shutdowns s c
        { s with shared := { s.shared with joinable := Function.update s.shared.joinable w false,
                                           joining := Function.update s.shared.joining w false }.emit
                   (.joined w),
                 stopper := Function.update s.stopper c (.joinTest rest) }
  | clear (hpc : s.stopper c = .joinTest []) :
      Shutdowns s c { s with shared := { s.shared with workers := [] },
                             stopper := Function.update s.stopper c .returned }

theorem shutdownStep_cases {s s' : State n ι κ} {c} (h : s.shutdownStep c = some s') :
    s.Shutdowns c s' := by
  unfold shutdownStep at h
  split at h
  case h_2 hpc =>
    cases hs : s.shared.shutdown <;> simp only [hs, Option.some.injEq] at h
    · exact h ▸ .first hpc hs
    · exact h ▸ .again hpc hs
  case h_6 w rest hpc =>
    cases hj : s.shared.joinable w <;> simp only [hj, Option.some.injEq] at h
    · exact h ▸ .skip w rest hpc hj
    · exact h ▸ .joinTest w rest hpc hj
  case h_7 w rest hpc =>
    split at h
    · next hok =>
      simp only [Bool.and_eq_true, Bool.not_eq_true'] at hok
      exact Option.some.inj h ▸ .join w rest hpc hok.1 hok.2
    · next hnot =>
      refine Option.some.inj h ▸ .throws w rest hpc ?_
      simpa [imp_iff_not_or] using hnot
  case h_8 w rest hpc =>
    split at h
    · next hw => exact Option.some.inj h ▸ .joined w rest hpc hw
    · cases h
  all_goals simp only [Option.some.injEq, reduceCtorEq] at h
  all_goals subst h
  all_goals constructor
  all_goals assumption

/-- What a step does: one thread's code runs, or a blocked worker wakes up. -/
inductive Steps (s : State n ι κ) : Action n ι κ → State n ι κ → Prop
  | worker (w threw sh pc) (hw : (s.worker w).Steps s.shared w sh pc) (own) :
      Steps s (.worker w threw)
        { s with shared := sh, worker := Function.update s.worker w pc, owner := own }
  | spurious (w) (hw : s.worker w = .blocked) :
      Steps s (.spurious w) { s with worker := Function.update s.worker w .lock }
  | enqueue (e woken s₁) (he : s.Enqueues e s₁) (own) :
      Steps s (.enqueue e woken) { s₁ with owner := own }
  | shutdown (c s₁) (he : s.Shutdowns c s₁) (own) : Steps s (.shutdown c) { s₁ with owner := own }

theorem step_cases {s s' : State n ι κ} {a} (h : s.step a = some s') : s.Steps a s' := by
  cases a with
  | worker w threw =>
    simp only [step, Option.bind_eq_bind, Option.bind_eq_some_iff, Option.pure_def,
      Option.some.injEq, Prod.exists] at h
    obtain ⟨own, -, sh, pc, he, rfl⟩ := h
    exact .worker w threw sh pc (Worker.exec_steps he) own
  | spurious w =>
    simp only [step] at h
    split at h
    · next hw => exact Option.some.inj h ▸ .spurious w hw
    · cases h
  | enqueue e woken =>
    simp only [step, Option.bind_eq_bind, Option.bind_eq_some_iff, Option.pure_def,
      Option.some.injEq] at h
    obtain ⟨own, -, s₁, he, rfl⟩ := h
    exact .enqueue e woken s₁ (enqueueStep_cases he) own
  | shutdown c =>
    simp only [step, Option.bind_eq_bind, Option.bind_eq_some_iff, Option.pure_def,
      Option.some.injEq] at h
    obtain ⟨own, -, s₁, he, rfl⟩ := h
    exact .shutdown c s₁ (shutdownStep_cases he) own

omit [DecidableEq ι] [DecidableEq κ] in
/-- A wakeup is none of a worker that has left. -/
theorem exited_wakeOne {s : State n ι κ} {w} (hw : s.worker w = .blocked) (w' : Fin n)
    (he : s.worker w' = .exited) : Function.update s.worker w .lock w' = .exited := by
  have hne : w' ≠ w := by
    rintro rfl
    cases he.symm.trans hw
  rwa [Function.update_of_ne hne]

end State

end Webserver.ThreadPool
