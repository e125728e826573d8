/-
What a step of the server can do, function by function: to the mutexes, to
one connection and its history, and to the pool's queue.
-/
import Webserver.Branches

namespace Webserver

open Cxx Locks Systems

/-! ## The shared state's operations -/

namespace Shared

@[simp] theorem emit_log (s : Shared) (e : Event) : (s.emit e).log = s.log ++ [e] := rfl

@[simp] theorem modifyFd_heap (s : Shared) (fd : Fd) (out ok : Bool) :
    (s.modifyFd fd out ok).heap = s.heap := by unfold modifyFd; split <;> rfl

@[simp] theorem modifyFd_log (s : Shared) (fd : Fd) (out ok : Bool) :
    (s.modifyFd fd out ok).log = s.log := by unfold modifyFd; split <;> rfl

@[simp] theorem modifyFd_tasks (s : Shared) (fd : Fd) (out ok : Bool) :
    (s.modifyFd fd out ok).tasks = s.tasks := by unfold modifyFd; split <;> rfl

@[simp] theorem modifyFd_connections (s : Shared) (fd : Fd) (out ok : Bool) :
    (s.modifyFd fd out ok).connections = s.connections := by unfold modifyFd; split <;> rfl

@[simp] theorem modifyFd_fds (s : Shared) (fd : Fd) (out ok : Bool) :
    (s.modifyFd fd out ok).fds = s.fds := by unfold modifyFd; split <;> rfl

@[simp] theorem modifyFd_created (s : Shared) (fd : Fd) (out ok : Bool) :
    (s.modifyFd fd out ok).created = s.created := by unfold modifyFd; split <;> rfl

@[simp] theorem modifyFd_accepted (s : Shared) (fd : Fd) (out ok : Bool) :
    (s.modifyFd fd out ok).accepted = s.accepted := by unfold modifyFd; split <;> rfl

@[simp] theorem modifyFd_poolShutdown (s : Shared) (fd : Fd) (out ok : Bool) :
    (s.modifyFd fd out ok).poolShutdown = s.poolShutdown := by unfold modifyFd; split <;> rfl

@[simp] theorem closeFd_heap (s : Shared) (fd : Fd) : (s.closeFd fd).heap = s.heap := by
  unfold closeFd; split <;> rfl

@[simp] theorem closeFd_tasks (s : Shared) (fd : Fd) : (s.closeFd fd).tasks = s.tasks := by
  unfold closeFd; split <;> rfl

@[simp] theorem closeFd_connections (s : Shared) (fd : Fd) :
    (s.closeFd fd).connections = s.connections := by unfold closeFd; split <;> rfl

@[simp] theorem closeFd_created (s : Shared) (fd : Fd) : (s.closeFd fd).created = s.created := by
  unfold closeFd; split <;> rfl

@[simp] theorem closeFd_accepted (s : Shared) (fd : Fd) :
    (s.closeFd fd).accepted = s.accepted := by unfold closeFd; split <;> rfl

@[simp] theorem closeFd_poolShutdown (s : Shared) (fd : Fd) :
    (s.closeFd fd).poolShutdown = s.poolShutdown := by unfold closeFd; split <;> rfl

@[simp] theorem closeFd_fds (s : Shared) (fd : Fd) :
    (s.closeFd fd).fds = Function.update s.fds fd none := by
  unfold closeFd
  split
  · next h => exact (Function.update_eq_self_iff.mpr h.symm).symm
  · rfl

@[simp] theorem unregister_heap (s : Shared) (fd : Fd) : (s.unregister fd).heap = s.heap := by
  unfold unregister; split <;> rfl

@[simp] theorem unregister_tasks (s : Shared) (fd : Fd) : (s.unregister fd).tasks = s.tasks := by
  unfold unregister; split <;> rfl

@[simp] theorem unregister_fds (s : Shared) (fd : Fd) : (s.unregister fd).fds = s.fds := by
  unfold unregister; split <;> rfl

@[simp] theorem unregister_created (s : Shared) (fd : Fd) :
    (s.unregister fd).created = s.created := by unfold unregister; split <;> rfl

@[simp] theorem unregister_accepted (s : Shared) (fd : Fd) :
    (s.unregister fd).accepted = s.accepted := by unfold unregister; split <;> rfl

@[simp] theorem unregister_poolShutdown (s : Shared) (fd : Fd) :
    (s.unregister fd).poolShutdown = s.poolShutdown := by unfold unregister; split <;> rfl

theorem lookup_unregister (s : Shared) (fd fd' : Fd) :
    (s.unregister fd).connections.lookup fd' =
      if fd' = fd then none else s.connections.lookup fd' := by
  unfold unregister
  split
  · next h =>
    split
    · next e => rw [e, h]
    · rfl
  · split
    · next e => rw [e]; exact AList.lookup_erase _ _
    · next e => exact AList.lookup_erase_ne e

end Shared

/-! ## Locks -/

namespace SubPc

/-- The mutexes held at the point a step of the two functions leads to. -/
def holdsNext : Option SubPc → List Mutex
  | none => []
  | some p => p.holds

theorem sendStep_next {s : Shared} {c r ctl s' next} (h : sendStep s c r ctl = some (s', next)) :
    next = none ∨ ∃ fd, next = some (.closeLock fd) := by
  simp only [sendStep, sendDone, sendFailed] at h
  repeat' split at h
  all_goals simp only [Option.some.injEq, Prod.mk.injEq, reduceCtorEq] at h
  all_goals obtain ⟨-, rfl⟩ := h
  all_goals simp

theorem exec_moves {s : Shared} {p : SubPc} {i s' next} (h : p.exec s i = some (s', next)) :
    p.lockOp.Moves p.holds (holdsNext next) := by
  cases exec_steps h with
  | send c r ctl h₁ => rcases sendStep_next h₁ with rfl | ⟨fd, rfl⟩ <;> rfl
  | _ => rfl

end SubPc

namespace EventPc

@[simp] theorem holds_resume (ret : EventRet) (next : Option SubPc) :
    (resume ret next).holds = SubPc.holdsNext next := by
  cases next <;> cases ret <;> rfl

theorem exec_moves {s : Shared} {pc : EventPc} {i s' pc'} (h : pc.exec s i = some (s', pc')) :
    pc.lockOp.Moves pc.holds pc'.holds := by
  cases exec_steps h with
  | sub p ret next h₁ =>
    rw [holds_resume]
    exact SubPc.exec_moves h₁
  | _ => rfl

end EventPc

namespace WorkerPc

@[simp] theorem holds_resume (c : ConnId) (next : Option SubPc) :
    (resume c next).holds = SubPc.holdsNext next := by
  cases next <;> rfl

theorem exec_moves {s : Shared} {pc : WorkerPc} {i s' pc'} (h : pc.exec s i = some (s', pc')) :
    pc.lockOp.Moves pc.holds pc'.holds := by
  cases exec_steps h with
  | sub p c next h₁ =>
    rw [holds_resume]
    exact SubPc.exec_moves h₁
  | _ => rfl

end WorkerPc

theorem StopPc.exec_moves {s : Shared} {pc : StopPc} {a b s' pc'}
    (h : pc.exec s a b = some (s', pc')) : pc.lockOp.Moves pc.holds pc'.holds := by
  cases exec_steps h <;> rfl

namespace Server

variable {n : Nat}

/-- What a step does: one thread's code runs, or the clock advances. -/
inductive Steps (s : Server n) : Action n → Server n → Prop
  | event (i sh pc) (he : s.event.exec s.shared i = some (sh, pc))
      (own) (ho : (s.lockOp .event).apply .event s.owner = some own) :
      Steps s (.event i) { s with shared := sh, event := pc, owner := own }
  | worker (w i sh pc) (he : (s.worker w).exec s.shared i = some (sh, pc))
      (own) (ho : (s.lockOp (.worker w)).apply (.worker w) s.owner = some own) :
      Steps s (.worker w i)
        { s with shared := sh, worker := Function.update s.worker w pc, owner := own }
  | stop (wl el sh pc) (he : s.stop.exec s.shared wl el = some (sh, pc))
      (hwl : wl = true → ∀ w, s.worker w = .exited) (hel : el = true → s.event = .exited)
      (own) (ho : (s.lockOp .stop).apply .stop s.owner = some own) :
      Steps s .stop { s with shared := sh, stop := pc, owner := own }
  | tick (ns : Nat) :
      Steps s (.tick ns) { s with shared := { s.shared with clock := s.shared.clock + ns } }

theorem step_cases {s s' : Server n} {a} (h : s.step a = some s') : s.Steps a s' := by
  cases a with
  | event i =>
    simp only [step, Option.bind_eq_bind, Option.bind_eq_some_iff, Option.pure_def,
      Option.some.injEq, Prod.exists] at h
    obtain ⟨own, ho, sh, pc, he, rfl⟩ := h
    exact .event i sh pc he own ho
  | worker w i =>
    simp only [step, Option.bind_eq_bind, Option.bind_eq_some_iff, Option.pure_def,
      Option.some.injEq, Prod.exists] at h
    obtain ⟨own, ho, sh, pc, he, rfl⟩ := h
    exact .worker w i sh pc he own ho
  | stop =>
    simp only [step, Option.bind_eq_bind, Option.bind_eq_some_iff, Option.pure_def,
      Option.some.injEq, Prod.exists] at h
    obtain ⟨own, ho, sh, pc, he, rfl⟩ := h
    refine .stop _ _ sh pc he (fun hall w => ?_) (by simp) own ho
    have := List.all_eq_true.mp hall w (List.mem_finRange w)
    split at this
    · next e => exact e
    · cases this
  | tick ns =>
    simp only [step, Option.some.injEq] at h
    exact h ▸ .tick ns

/-- In every reachable state the owner a mutex records is the thread whose
point of its code holds it. -/
theorem consistent {ok} {s : Server n} (h : (system n).ReachableBy ok s) :
    Consistent s.owner s.holds := by
  refine h.invariant (I := fun s => Consistent s.owner s.holds) ?_ ?_
  · intro s hinit
    obtain ⟨_, _, _, _, rfl⟩ := hinit
    refine ⟨fun m t => ?_, fun t => ?_⟩ <;> cases t <;>
      simp [initial, holds, EventPc.holds, WorkerPc.holds, StopPc.holds]
  intro s a s' _ hc _ hs
  cases step_cases hs with
  | event i sh pc he own ho =>
    refine hc.step ho (EventPc.exec_moves he) fun t ht => ?_
    cases t <;> first | rfl | exact absurd rfl ht
  | worker w i sh pc he own ho =>
    refine hc.step ho (by simpa [holds, lockOp] using WorkerPc.exec_moves he) fun t ht => ?_
    cases t with
    | worker w' =>
      have : w' ≠ w := fun e => ht (by rw [e])
      simp [holds, this]
    | _ => rfl
  | stop wl el sh pc he _ _ own ho =>
    refine hc.step ho (StopPc.exec_moves he) fun t ht => ?_
    cases t <;> first | rfl | exact absurd rfl ht
  | tick => exact hc

end Server

/-! ## Schedules -/

/-- What the environment answers while the event thread, alone, goes through
one batch: from its loop until `epoll_wait` has reported `events`. -/
def pollInputs (events : List (Fd × Bool × Bool)) : List Input := [.go, .polled events, .go]

/-- `handle_accept` registers one connection, with number `fd`. -/
def acceptInputs (fd : Fd) : List Input :=
  [.accepts fd, .go, .go, .ok true, .ok true, .go, .go, .go, .acceptFails true]

/-- `handle_client_data` appends a chunk, up to the release of the lock. -/
def dataInputs (chunk : Bytes) : List Input :=
  [.go, .go, .receives chunk, .go, .go, .go, .go, .go]

/-- `enqueue` runs its test and its push. -/
def enqueueInputs : List Input := [.go, .go]

/-- `close_connection` closes a descriptor that is registered. -/
def closeInputs : List Input := [.go, .go, .go, .go, .go, .go, .go]

/-- From the end of a batch back to the loop, with `k` connections registered,
none of them idle. -/
def sweepInputs (k : Nat) : List Input :=
  [.go, .go] ++ (List.replicate k [Input.go, .go, .go]).flatten ++ [.go, .go, .go]

/-- A request for the page that keeps the connection alive. -/
def getRequest : Bytes := bytes "GET / HTTP/1.1\r\n\r\n"

/-- What the file handler answers for a page. -/
def page : HttpResponse := .createFileResponse (bytes ".html") (bytes "hi") []

/-- The bytes a kept-alive client is sent for the page. -/
def pageBytes : Bytes := (page.setKeepAlive true).toString .newestFirst

/-- A worker's task, for a valid request for the page, until it has tested
whether the connection is still registered and released the map's mutex. -/
def answerInputs : List Input := [.go, .go, .go, .go, .go, .serves page [], .go, .go, .go]

/-- From there until the worker has stored the response and tried to send it. -/
def respondInputs (r : SendResult) : List Input := [.go, .go, .go, .sends r true]

/-- The worker clears the buffer and goes back to its loop. -/
def finishInputs : List Input := [.go, .go]

namespace Server

/-- A server with one worker, listening on descriptor 3. -/
def fresh : Server 1 := initial 1 3 1000 .newestFirst 0

theorem init_fresh : (system 1).init fresh := ⟨3, 1000, .newestFirst, 0, rfl⟩

def eventSteps (inputs : List Input) : List (Action 1) := inputs.map .event

def workerSteps (inputs : List Input) : List (Action 1) := inputs.map (.worker 0)

/-- The event thread accepts a client as `fd` and goes back to its loop,
where `k` clients are registered now. -/
def acceptClient (fd : Fd) (k : Nat) : List (Action 1) :=
  eventSteps (pollInputs [(3, true, false)] ++ acceptInputs fd ++ sweepInputs k)

/-- The event thread receives a chunk on `fd` that completes a request, and
hands the task to the pool; `k` clients are registered. -/
def receiveRequest (fd : Fd) (chunk : Bytes) (k : Nat) : List (Action 1) :=
  eventSteps (pollInputs [(fd, true, false)] ++ dataInputs chunk ++ enqueueInputs ++ sweepInputs k)

/-- The event thread receives a chunk on `fd` that only grows the buffer. -/
def receiveMore (fd : Fd) (chunk : Bytes) (k : Nat) : List (Action 1) :=
  eventSteps (pollInputs [(fd, true, false)] ++ dataInputs chunk ++ sweepInputs k)

/-- The event thread meets a failing `recv` on `fd` and closes it; `k`
clients are left. -/
def closeClient (fd : Fd) (k : Nat) : List (Action 1) :=
  eventSteps (pollInputs [(fd, true, false)] ++ [.go, .go, .recvFails .closed] ++ closeInputs ++
    sweepInputs k)

/-- The event thread finds room on `fd` and sends more of a response. -/
def sendMore (fd : Fd) (r : SendResult) (k : Nat) : List (Action 1) :=
  eventSteps (pollInputs [(fd, false, true)] ++ [.go, .go, .go, .sends r true] ++ sweepInputs k)

/-- One client asks and is answered. -/
def answered : List (Action 1) :=
  acceptClient 7 1 ++ receiveRequest 7 getRequest 1 ++
    workerSteps (answerInputs ++ respondInputs (.accepts pageBytes.length) ++ finishInputs)

/-- One client asks twice. The kernel takes five bytes of the first response,
and what is left of it once there is room. -/
def answeredInParts : List (Action 1) :=
  acceptClient 7 1 ++ receiveRequest 7 getRequest 1 ++
    workerSteps (answerInputs ++ respondInputs (.accepts 5) ++ finishInputs) ++
    sendMore 7 (.accepts (pageBytes.length - 5)) 1 ++ receiveRequest 7 getRequest 1 ++
    workerSteps answerInputs

/-- The same client is still registered when `stop()` is called and runs to
its end. -/
def answeredAndStopped : List (Action 1) :=
  answered ++ [.stop, .stop] ++ workerSteps [.leaves] ++ [.stop] ++ eventSteps [.go] ++
    [.stop, .stop, .stop, .stop]

end Server

end Webserver
