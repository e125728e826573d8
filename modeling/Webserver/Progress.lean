/-
How far the server gets by itself. Between two things that come from outside
(a report of `epoll_wait`, a client or an error at `accept`, the call of
`stop()`, the clock) its threads take a bounded number of steps; and where
they can take none, either two threads are crossed, or nothing is left to do:
the queue is empty, no worker has a task, and no registered connection holds
a complete request. The same argument brings `stop()` to its end.
-/
import Webserver.Accounting
import Webserver.ConnectionLimit
import Webserver.LockOrder
import Webserver.Stopping
import Webserver.Unread

namespace Webserver

open Cxx Locks Systems

/-! ## The steps left -/

namespace SubPc

/-- The steps a call of the two functions may still take. -/
def work : SubPc → Nat
  | closeMiss | closeFd _ => 1
  | closeRemoveFd _ => 2
  | closeErase _ => 3
  | closeReadPending _ _ => 4
  | closeLockConn _ _ => 5
  | closeFind _ => 6
  | closeLock _ => 7
  | send _ => 8
  | sendLock _ => 9

def workNext : Option SubPc → Nat
  | none => 0
  | some p => p.work

theorem exec_work {s : Shared} {p : SubPc} {i s' next} (h : p.exec s i = some (s', next)) :
    workNext next < p.work := by
  cases exec_steps h with
  | send c r ctl h₁ => rcases sendStep_next h₁ with rfl | ⟨fd, rfl⟩ <;> simp [workNext, work]
  | _ => simp [workNext, work]

end SubPc

/-- The steps of a task, its way out of the queue included. -/
def taskWork : Nat := 22

/-- The steps a handler call may take, and those of the task it may queue. -/
def Call.work : Call → Nat
  | accept => 2
  | data _ => 33
  | write _ => 12

/-- The steps the calls left in a batch may take, and the sweep over `m`
connections after them. -/
def batchWork (m : Nat) (k : List Call) : Nat := 6 + 11 * m + (k.map Call.work).sum

/-- The steps that close what the sweep has found. -/
def closeWork (fds : List Fd) : Nat := 2 + 8 * fds.length

def EventRet.work (m : Nat) : EventRet → Nat
  | calls k => batchWork m k
  | cleanup fds => closeWork fds

namespace EventPc

/-- The steps the event thread may take before `epoll_wait` has to report
again, where the map has `m` entries. -/
def work (m : Nat) : EventPc → Nat
  | wait | thrown | exited => 0
  | loop => 1
  | batch k => batchWork m k
  | accept k => batchWork m k + 1
  | acceptReject _ k => batchWork m k + 2
  | acceptInsert _ _ k => batchWork m k + 14
  | acceptInsertLock _ _ k => batchWork m k + 15
  | acceptConnection _ k => batchWork m k + 16
  | acceptAddFd _ k => batchWork m k + 17
  | acceptNonBlocking _ k => batchWork m k + 18
  | acceptCheck _ k => batchWork m k + 19
  | acceptLock _ k => batchWork m k + 20
  | dataUnlock _ false k => batchWork m k + 1
  | dataCloseFd _ _ k => batchWork m k + 2
  | dataRemoveFd _ _ k => batchWork m k + 3
  | dataErase _ _ k => batchWork m k + 4
  | dataEraseLock _ _ k => batchWork m k + 5
  | push _ k => batchWork m k + 23
  | enqueue _ k => batchWork m k + 24
  | dataUnlock _ true k => batchWork m k + 25
  | dataAppend _ _ _ k => batchWork m k + 26
  | dataCheck _ _ _ k => batchWork m k + 27
  | dataLockMap _ _ _ k => batchWork m k + 28
  | dataLockConn _ _ _ k => batchWork m k + 29
  | dataRecv _ _ k => batchWork m k + 30
  | dataFind _ k => batchWork m k + 31
  | dataLock _ k => batchWork m k + 32
  | writeFind _ k => batchWork m k + 10
  | writeLock _ k => batchWork m k + 11
  | cleanupLock _ => 5 + 11 * m
  | cleanupScan _ rest inactive => closeWork inactive + 2 + 11 * rest.length
  | cleanupLockConn _ _ _ _ rest inactive => closeWork inactive + 12 + 11 * rest.length
  | cleanupRead _ _ _ _ rest inactive => closeWork inactive + 11 + 11 * rest.length
  | cleanupUnlock inactive => closeWork inactive + 1
  | cleanupClose fds => closeWork fds
  | sub p ret => p.work + ret.work m

theorem work_resume (m : Nat) (ret : EventRet) (next : Option SubPc) :
    (resume ret next).work m = SubPc.workNext next + ret.work m := by
  cases next <;> cases ret <;> simp [resume, work, SubPc.workNext, EventRet.work]

theorem work_mono {m m' : Nat} (h : m' ≤ m) (pc : EventPc) : pc.work m' ≤ pc.work m := by
  cases pc with
  | sub p ret => cases ret <;> simp only [work, EventRet.work, batchWork] <;> omega
  | dataUnlock c b k => cases b <;> simp only [work, batchWork] <;> omega
  | _ => simp only [work, batchWork]; try omega

end EventPc

/-- The input comes from outside, and not as the answer to a call made for
one connection. -/
def Input.isStimulus : Input → Bool
  | .polled _ | .pollFails | .accepts _ | .acceptFails false => true
  | _ => false

/-- The entries of the map. -/
def Shared.size (s : Shared) : Nat := s.connections.entries.length

theorem Shared.size_insert_le (s : Shared) (fd : Fd) (c : ConnId) :
    (s.connections.insert fd c).entries.length ≤ s.size + 1 := by
  have := (List.kerase_sublist fd s.connections.entries).length_le
  rw [AList.entries_insert, List.length_cons, Shared.size]
  omega

namespace EventPc

/-- A step of the event thread takes work off; where it registers a
connection it leaves that much less as the sweep and `stop()` have more. -/
structure Works (s : Shared) (pc : EventPc) (s' : Shared) (pc' : EventPc) (d : Nat) : Prop where
  size : s'.size ≤ s.size + d
  one : d ≤ 1
  falls : pc'.work s'.size + taskWork * s'.tasks.length + d < pc.work s.size + taskWork * s.tasks.length

theorem Works.of_narrows {s s' : Shared} {pc pc' : EventPc} (hn : s.Narrows s')
    (ht : s'.tasks = s.tasks) (h : pc'.work s.size < pc.work s.size) : Works s pc s' pc' 0 := by
  have hmono := work_mono (show s'.size ≤ s.size from hn.size) pc'
  refine ⟨hn.size, Nat.zero_le 1, ?_⟩
  rw [ht]
  omega

theorem exec_works {s : Shared} {pc : EventPc} {i s' pc'} (hi : i.isStimulus = false)
    (h : pc.exec s i = some (s', pc')) : ∃ d, Works s pc s' pc' d := by
  cases exec_steps h with
  | polled | pollFails | accept | acceptAgain => cases hi
  | batchDone => exact ⟨0, .of_narrows (.of_eq rfl rfl) rfl (by simp [work, batchWork])⟩
  | callAccept k | callData fd k | callWrite fd k =>
    exact ⟨0, .of_narrows (.of_eq rfl rfl) rfl (by simp [work, batchWork, Call.work]; omega)⟩
  | acceptFull fd k | acceptReject fd k | dataCloseFd fd c k =>
    exact ⟨0, .of_narrows (.closeFd s fd) (by simp) (by simp [work])⟩
  | acceptInsert fd c k =>
    -- one entry more: eleven steps of the sweep and one of `stop()`
    have hsize : ∀ e, (({ s with connections := s.connections.insert fd c } : Shared).emit e).size ≤
        s.size + 1 := fun _ => s.size_insert_le fd c
    refine ⟨1, hsize _, le_rfl, ?_⟩
    have hmono := work_mono (hsize (.registered c)) (EventPc.accept k)
    simp only [work, batchWork, Shared.emit] at hmono ⊢
    omega
  | dataErase fd c k => exact ⟨0, .of_narrows (.unregister s fd) (by simp) (by simp [work])⟩
  | push c k =>
    refine ⟨0, le_rfl, Nat.zero_le 1, ?_⟩
    simp only [work, Shared.size, List.length_append, List.length_singleton, taskWork]
    omega
  | cleanupLock now =>
    refine ⟨0, .of_narrows (.of_eq rfl rfl) rfl ?_⟩
    simp only [work, closeWork, List.length_map, List.length_nil, Shared.size]
    omega
  | cleanupScan now fd c rest inactive =>
    exact ⟨0, .of_narrows (.of_eq rfl rfl) rfl (by simp [work]; omega)⟩
  | sweeps now fd c rest inactive =>
    exact ⟨0, .of_narrows (.of_eq rfl rfl) rfl (by simp [work, closeWork]; omega)⟩
  | cleanupClose fd fds =>
    exact ⟨0, .of_narrows (.of_eq rfl rfl) rfl (by
      simp [work, closeWork, SubPc.work, EventRet.work]; omega)⟩
  | writeFound fd c k =>
    exact ⟨0, .of_narrows (.of_eq rfl rfl) rfl (by simp [work, SubPc.work, EventRet.work]; omega)⟩
  | recvFails fd c k why =>
    exact ⟨0, .of_narrows (.of_eq rfl rfl) rfl (by simp [work, SubPc.work, EventRet.work]; omega)⟩
  | sub p ret next h₁ =>
    refine ⟨0, .of_narrows (SubPc.exec_narrows h₁) (SubPc.exec_tasks h₁).1 ?_⟩
    have := SubPc.exec_work h₁
    rw [work_resume]
    simp only [work]
    omega
  | _ => exact ⟨0, .of_narrows (.of_eq rfl rfl) rfl (by simp [work, closeWork])⟩

end EventPc

namespace WorkerPc

/-- The steps a worker may take before it is at its loop again, or has left it. -/
def work : WorkerPc → Nat
  | exited => 0
  | idle => 1
  | finish _ | unregUnlock => 2
  | finishLock _ | unreg _ => 3
  | unregLock _ => 4
  | sub p _ => p.work + 3
  | store _ _ => 13
  | storeLock _ _ => 14
  | checkUnlock _ _ => 15
  | check _ _ => 16
  | checkLock _ _ => 17
  | respond _ _ => 18
  | keep _ _ => 19
  | keepLock _ _ => 20
  | parse _ => 21
  | parseLock _ => 22

theorem work_resume (c : ConnId) (next : Option SubPc) :
    (resume c next).work = SubPc.workNext next + 3 := by
  cases next <;> rfl

theorem exec_works {s : Shared} {pc : WorkerPc} {i s' pc'} (h : pc.exec s i = some (s', pc')) :
    s.Narrows s' ∧ pc'.work + taskWork * s'.tasks.length < pc.work + taskWork * s.tasks.length := by
  refine ⟨exec_narrows h, ?_⟩
  cases exec_steps h with
  | take c rest ht =>
    simp only [ht, work, List.length_cons, taskWork]
    omega
  | sub p c next h₁ =>
    have := SubPc.exec_work h₁
    rw [(SubPc.exec_tasks h₁).1, work_resume]
    simp only [work]
    omega
  | _ => simp [work, Shared.setConn, Shared.emit, SubPc.work]

/-- A worker leaves its loop only once the pool is shut down. -/
theorem exec_leaves {s : Shared} {pc : WorkerPc} {i s' pc'} (h : pc.exec s i = some (s', pc'))
    (hx : pc' = exited) : s.poolShutdown = true := by
  cases exec_steps h with
  | leave hdown => exact hdown
  | sub p c next => cases next <;> cases hx
  | _ => cases hx

end WorkerPc

namespace StopPc

/-- The steps left of a `stop()` that has been called. -/
def work (m : Nat) : StopPc → Nat
  | notCalled | done => 0
  | closeAll rest => 1 + rest.length
  | lock => 2 + m
  | joinEvent => 3 + m
  | joinWorkers => 4 + m
  | shutdownPool => 5 + m

theorem work_le {m m' d : Nat} (h : m' ≤ m + d) (pc : StopPc) : pc.work m' ≤ pc.work m + d := by
  cases pc <;> simp only [work] <;> omega

theorem exec_works {s : Shared} {pc : StopPc} {a b s' pc'} (hc : pc ≠ notCalled)
    (h : pc.exec s a b = some (s', pc')) :
    s.Narrows s' ∧ s'.tasks = s.tasks ∧ pc'.work s'.size < pc.work s.size := by
  refine ⟨exec_narrows h, ?_⟩
  cases exec_steps h with
  | notCalled => exact absurd rfl hc
  | lock => simp [work, Shared.size]
  | close fd rest => simp [work, Shared.removeFd]
  | _ => simp [work, Shared.size]

end StopPc

namespace Server

variable {n : Nat}

/-- The steps the threads may take by themselves. -/
def work (s : Server n) : Nat :=
  s.event.work s.shared.size + ∑ w, (s.worker w).work + taskWork * s.shared.tasks.length +
    s.stop.work s.shared.size

/-- The step does what comes from outside: `epoll_wait` reports or fails, a
client is accepted or `accept` fails with an error other than `EAGAIN`,
`stop()` is called, the clock advances. -/
def stimulus (s : Server n) : Action n → Bool
  | .event i => i.isStimulus
  | .worker _ _ => false
  | .stop => s.stop = .notCalled
  | .tick _ => true

theorem step_work {s s' : Server n} {a} (ha : s.stimulus a = false) (hs : s.step a = some s') :
    s'.work < s.work := by
  cases step_cases hs with
  | event i sh pc he =>
    obtain ⟨d, hsize, -, hfalls⟩ := EventPc.exec_works ha he
    have hstop := StopPc.work_le hsize s.stop
    simp only [work]
    omega
  | worker w i sh pc he =>
    obtain ⟨hn, hfalls⟩ := WorkerPc.exec_works he
    have hsum := sum_update s.worker w pc WorkerPc.work
    have hevent := EventPc.work_mono (show sh.size ≤ s.shared.size from hn.size) s.event
    have hstop := StopPc.work_le (show sh.size ≤ s.shared.size + 0 from hn.size) s.stop
    simp only [work]
    omega
  | stop wl el sh pc he =>
    obtain ⟨hn, ht, hfalls⟩ := StopPc.exec_works (by simpa [stimulus] using ha) he
    have hevent := EventPc.work_mono (show sh.size ≤ s.shared.size from hn.size) s.event
    simp only [work, ht]
    omega
  | tick => cases ha

/-- **The threads come to rest.** From any state, however the threads are
scheduled and whatever their calls are answered, they take no more than
`work` steps before something comes from outside. -/
theorem own_steps_le {s s' : Server n} {actions : List (Action n)}
    (h : (system n).runBy (fun s a => !s.stimulus a) s actions = some s') :
    actions.length + s'.work ≤ s.work :=
  System.length_le_of_runBy work (fun _ _ _ ha hs => step_work (by simpa using ha) hs) h

/-- A client has asked for the page. -/
def asked : List (Action 1) := acceptClient 7 1 ++ receiveRequest 7 getRequest 1

/-- The worker answers, alone. -/
def answers : List (Action 1) :=
  workerSteps (answerInputs ++ respondInputs (.accepts pageBytes.length) ++ finishInputs)

theorem own_steps_le_answers : ∃ s s' : Server 1, (system 1).Reachable s ∧
    .cleared 0 ∈ s'.shared.log ∧ answers.length + s'.work ≤ s.work := by
  obtain ⟨s, hr, hs⟩ := System.exists_reachable init_fresh asked
    (fun s => ((system 1).runBy (fun s a => !s.stimulus a) s answers).any fun s' : Server 1 =>
      decide (Event.cleared 0 ∈ s'.shared.log)) (by decide +kernel)
  obtain ⟨s', hrun, hs'⟩ := (Option.any_eq_true _ _).mp hs
  exact ⟨s, s', hr, of_decide_eq_true hs', own_steps_le hrun⟩

/-! ## Where no thread can take a step -/

end Server

theorem SubPc.exec_enabled (s : Shared) (p : SubPc) :
    ∃ i, i.isStimulus = false ∧ (p.exec s i).isSome := by
  cases p with
  | closeFind fd => exact ⟨.go, rfl, by cases hl : s.connections.lookup fd <;> simp [exec, hl]⟩
  | send c =>
    refine ⟨.sends .again true, rfl, ?_⟩
    simp only [exec, sendStep]
    split
    · rfl
    · split <;> rfl
  | _ => exact ⟨.go, rfl, rfl⟩

/-- The event thread has a step of its own, unless it waits for a report of
`epoll_wait` or has left its loop. -/
theorem EventPc.exec_enabled (s : Shared) (pc : EventPc) (hw : pc ≠ .wait) (hx : pc ≠ .exited)
    (ht : pc ≠ .thrown) : ∃ i, i.isStimulus = false ∧ (pc.exec s i).isSome := by
  cases pc with
  | wait => exact absurd rfl hw
  | exited => exact absurd rfl hx
  | thrown => exact absurd rfl ht
  | accept k => exact ⟨.acceptFails true, rfl, rfl⟩
  | acceptNonBlocking fd k => exact ⟨.ok false, rfl, rfl⟩
  | acceptAddFd fd k => exact ⟨.ok false, rfl, rfl⟩
  | acceptCheck fd k =>
    refine ⟨.go, rfl, ?_⟩
    simp only [exec]
    split <;> rfl
  | dataRecv fd c k => exact ⟨.recvFails .again, rfl, rfl⟩
  | dataFind fd k => exact ⟨.go, rfl, by cases hl : s.connections.lookup fd <;> simp [exec, hl]⟩
  | writeFind fd k => exact ⟨.go, rfl, by cases hl : s.connections.lookup fd <;> simp [exec, hl]⟩
  | cleanupScan now rest inactive => cases rest <;> exact ⟨.go, rfl, rfl⟩
  | cleanupRead now fd c idle rest inactive =>
    refine ⟨.go, rfl, ?_⟩
    simp only [exec]
    split <;> rfl
  | cleanupClose fds => cases fds <;> exact ⟨.go, rfl, rfl⟩
  | sub p ret =>
    obtain ⟨i, hi, ho⟩ := SubPc.exec_enabled s p
    exact ⟨i, hi, by simpa [exec] using ho⟩
  | _ => exact ⟨.go, rfl, rfl⟩

theorem WorkerPc.exec_enabled (s : Shared) (pc : WorkerPc) (hi : pc ≠ .idle) (hx : pc ≠ .exited) :
    ∃ i, (pc.exec s i).isSome := by
  cases pc with
  | idle => exact absurd rfl hi
  | exited => exact absurd rfl hx
  | respond c request => exact ⟨.serves (.new .ok []) [], rfl⟩
  | sub p c =>
    obtain ⟨i, -, ho⟩ := SubPc.exec_enabled s p
    exact ⟨i, by simpa [exec] using ho⟩
  | _ => exact ⟨.go, rfl⟩

namespace Server

variable {n : Nat}

/-- Nothing is left to do: the event thread waits for a report of `epoll_wait`
or has left its loop, the workers wait for tasks and there are none, and
`stop()` at most waits for the event thread. -/
structure Settled (s : Server n) : Prop where
  event : s.event = .wait ∨ s.event = .exited ∨ s.event = .thrown
  worker : ∀ w, s.worker w = .idle ∧ s.shared.tasks = [] ∧ s.shared.poolShutdown = false ∨
    s.worker w = .exited
  stop : s.stop = .notCalled ∨ (s.stop = .joinEvent ∧ s.event ≠ .exited) ∨ s.stop = .done

/-- The workers have all left their loops. -/
def workersLeft (s : Server n) : Bool :=
  (List.finRange n).all fun w => match s.worker w with | .exited => true | _ => false

theorem step_stop (s : Server n) : s.step .stop = ((s.lockOp .stop).apply .stop s.owner).bind fun owner =>
    (s.stop.exec s.shared s.workersLeft (s.event = .exited)).bind fun out =>
      some { s with shared := out.1, stop := out.2, owner } := rfl

/-- The thread's code has a step of its own, mutexes aside. -/
def Moves (s : Server n) : Thread n → Prop
  | .event => ∃ i, i.isStimulus = false ∧ (s.event.exec s.shared i).isSome
  | .worker w => ∃ i, ((s.worker w).exec s.shared i).isSome
  | .stop => s.stop ≠ .notCalled ∧ (s.stop.exec s.shared s.workersLeft (s.event = .exited)).isSome

/-- The server takes a step of its own. -/
def Stirs (s : Server n) : Prop := ∃ a s', s.stimulus a = false ∧ s.step a = some s'

theorem Moves.stirs {s : Server n} {t : Thread n} (h : s.Moves t)
    (hfree : ∀ t', ¬ WaitsFor s.owner s.wants t t') : s.Stirs := by
  have hwants : s.wants t = (s.lockOp t).wants := rfl
  obtain ⟨own, ho⟩ := LockOp.apply_of_not_waiting hwants hfree
  cases t with
  | event =>
    obtain ⟨i, hi, hsome⟩ := h
    obtain ⟨⟨sh, pc⟩, he⟩ := Option.isSome_iff_exists.mp hsome
    exact ⟨.event i, { s with shared := sh, event := pc, owner := own }, hi, by simp [step, ho, he]⟩
  | worker w =>
    obtain ⟨i, hsome⟩ := h
    obtain ⟨⟨sh, pc⟩, he⟩ := Option.isSome_iff_exists.mp hsome
    exact ⟨.worker w i,
      { s with shared := sh, worker := Function.update s.worker w pc, owner := own }, rfl,
      by simp [step, ho, he]⟩
  | stop =>
    obtain ⟨hc, hsome⟩ := h
    obtain ⟨⟨sh, pc⟩, he⟩ := Option.isSome_iff_exists.mp hsome
    refine ⟨.stop, { s with shared := sh, stop := pc, owner := own }, by simpa [stimulus] using hc, ?_⟩
    rw [step_stop, ho, Option.bind_some, he]
    rfl

/-- A thread that holds a mutex has a step. -/
theorem moves_of_holds {s : Server n} {t : Thread n} (h : s.holds t ≠ []) : s.Moves t := by
  cases t with
  | event =>
    refine EventPc.exec_enabled s.shared s.event ?_ ?_ ?_ <;> intro hpc <;>
      simp [holds, hpc, EventPc.holds] at h
  | worker w =>
    refine WorkerPc.exec_enabled s.shared (s.worker w) ?_ ?_ <;> intro hpc <;>
      simp [holds, hpc, WorkerPc.holds] at h
  | stop =>
    simp only [holds] at h
    cases hst : s.stop with
    | closeAll rest =>
      refine ⟨by simp [hst], ?_⟩
      rw [hst]
      cases rest <;> rfl
    | _ => simp [hst, StopPc.holds] at h

instance : Finite (Thread n) :=
  Finite.of_injective (fun t => match t with
    | .event => none
    | .stop => some none
    | .worker w => some (some w)) (by rintro (_ | _ | _) (_ | _ | _) h <;> simp_all)

/-- Where no threads are crossed, a thread that has a step can take it, or
another one can. -/
theorem stirs_of_moves {s : Server n} (hc : Consistent s.owner s.holds) (hx : ¬ s.Crossed)
    {t : Thread n} (h : s.Moves t) : s.Stirs := by
  obtain ⟨t', hchain, hfree⟩ := exists_not_waiting (not_deadlock_of_not_crossed hc hx) t
  rcases hc.holds_of_waits hchain with rfl | hheld
  · exact h.stirs hfree
  · exact (moves_of_holds hheld).stirs hfree

theorem workersLeft_iff {s : Server n} : s.workersLeft = true ↔ ∀ w, s.worker w = .exited := by
  simp only [workersLeft, List.all_eq_true, List.mem_finRange, true_implies]
  refine forall_congr' fun w => ?_
  cases s.worker w <;> simp

/-- A state with no step of the server's own is settled: each thread is where
its code has none. -/
theorem Settled.of_not_moves {s : Server n} (h : ∀ t, ¬ s.Moves t)
    (hdown : s.shared.poolShutdown = s.stop.poolDown) : s.Settled := by
  have hev : s.event = .wait ∨ s.event = .exited ∨ s.event = .thrown := by
    by_contra hne
    simp only [not_or] at hne
    exact h .event (EventPc.exec_enabled s.shared s.event hne.1 hne.2.1 hne.2.2)
  have hwork : ∀ w, s.worker w = .idle ∧ s.shared.tasks = [] ∧ s.shared.poolShutdown = false ∨
      s.worker w = .exited := by
    intro w
    by_cases hx : s.worker w = .exited
    · exact .inr hx
    have hidle : s.worker w = .idle := by
      by_contra hne
      exact h (.worker w) (WorkerPc.exec_enabled s.shared (s.worker w) hne hx)
    refine .inl ⟨hidle, ?_, ?_⟩
    · cases ht : s.shared.tasks with
      | nil => rfl
      | cons c rest => exact absurd ⟨.go, by simp [hidle, WorkerPc.exec, ht]⟩ (h (.worker w))
    · by_contra hp
      exact h (.worker w) ⟨.leaves, by simp_all [WorkerPc.exec]⟩
  refine ⟨hev, hwork, ?_⟩
  have hstop := h .stop
  cases hst : s.stop with
  | notCalled => exact .inl rfl
  | done => exact .inr (.inr rfl)
  | joinEvent =>
    refine .inr (.inl ⟨rfl, fun hx => hstop ⟨by simp [hst], by simp [hst, StopPc.exec, hx]⟩⟩)
  | closeAll rest => exact absurd ⟨by simp [hst], by rw [hst]; cases rest <;> rfl⟩ hstop
  | joinWorkers =>
    -- the pool is down: no worker is idle
    have hexited : ∀ w, s.worker w = .exited := fun w =>
      (hwork w).resolve_left fun hidle => by simp [hdown, hst, StopPc.poolDown] at hidle
    exact absurd ⟨by simp [hst], by simp [hst, StopPc.exec, workersLeft_iff.mpr hexited]⟩ hstop
  | _ => exact absurd ⟨by simp [hst], by rw [hst]; rfl⟩ hstop

theorem Settled.not_stirs {s : Server n} (h : s.Settled) : ¬ s.Stirs := by
  rintro ⟨a, s', ha, hs⟩
  cases step_cases hs with
  | event i sh pc he =>
    rcases h.event with hpc | hpc | hpc <;> rw [hpc] at he
    · cases EventPc.exec_steps he <;> cases ha
    · cases he
    · cases he
  | worker w i sh pc he =>
    rcases h.worker w with ⟨hpc, ht, hp⟩ | hpc <;> rw [hpc] at he
    · cases WorkerPc.exec_steps he with
      | take c rest htake => cases ht.symm.trans htake
      | leave hdown => cases hp.symm.trans hdown
    · cases he
  | stop wl el sh pc he _ hel =>
    rcases h.stop with hst | ⟨hst, hne⟩ | hst
    · simp [stimulus, hst] at ha
    · rw [hst] at he
      cases StopPc.exec_steps he with
      | joinEvent helt => exact hne (hel helt)
    · rw [hst] at he
      cases he
  | tick => cases ha

/-- Where no step has crossed two threads, a state that is not settled has a
step of the server's own. -/
theorem stirs_of_not_settled {s : Server n} (h : (system n).ReachableBy (fun s a => !s.crosses a) s)
    (hnot : ¬ s.Settled) : s.Stirs := by
  by_contra hno
  exact hnot (.of_not_moves (fun t ht => hno (stirs_of_moves (consistent h) (not_crossed h) ht))
    (poolShutdown_eq h))

/-- **The server halts only where nothing is left to do**, in every run in
which no step crosses the event thread and a worker: it has a step of its own
exactly if it is not settled. -/
theorem stirs_iff {s : Server n} (h : (system n).ReachableBy (fun s a => !s.crosses a) s) :
    s.Stirs ↔ ¬ s.Settled :=
  ⟨fun hstirs hsettled => hsettled.not_stirs hstirs, stirs_of_not_settled h⟩

/-- A test that implies that the running server has settled. -/
def quiet (s : Server n) : Bool :=
  decide (s.shared.poolShutdown = false ∧ s.event = .wait ∧ s.stop = .notCalled ∧ s.shared.tasks = []) &&
    (List.finRange n).all fun w => match s.worker w with | .idle => true | _ => false

theorem settled_of_quiet {s : Server n} (h : s.quiet = true) : s.Settled := by
  simp only [quiet, Bool.and_eq_true, decide_eq_true_eq, List.all_eq_true] at h
  obtain ⟨⟨hpool, hev, hst, ht⟩, hw⟩ := h
  have hidle : ∀ w, s.worker w = .idle := by
    intro w
    have := hw w (List.mem_finRange w)
    split at this
    · assumption
    · cases this
  exact ⟨.inl hev, fun w => .inl ⟨hidle w, ht, hpool⟩, .inl hst⟩

/-- The worker stores its response while the event thread, with the client's
next bytes, waits for the connection's mutex. -/
def contended : List (Action 1) :=
  asked ++ workerSteps (answerInputs ++ [.go]) ++
    eventSteps (pollInputs [(7, true, false)] ++ [.go, .go, .receives getRequest])

/-- From there the worker sends the response, and both threads go on to the end. -/
def released : List (Action 1) :=
  workerSteps [.go, .go, .sends (.accepts pageBytes.length) true] ++
    eventSteps (List.replicate 5 .go ++ sweepInputs 1 ++ [.go]) ++ workerSteps finishInputs

theorem stirs_contended : ∃ s s' : Server 1, s.owner (.conn 0) = some (.worker 0) ∧
    s.event = .dataLockConn 7 0 getRequest [] ∧ s.Stirs ∧
    (system 1).runBy (fun s a => !s.crosses a) s released = some s' ∧ ¬ s'.Stirs := by
  obtain ⟨s, hr, hs⟩ := System.exists_reachableBy init_fresh (fun s a => !s.crosses a) contended
    (fun s => decide (s.owner (.conn 0) = some (.worker 0) ∧ s.event = .dataLockConn 7 0 getRequest []) &&
      ((system 1).runBy (fun s a => !s.crosses a) s released).any quiet) (by decide +kernel)
  simp only [Bool.and_eq_true, decide_eq_true_eq, Option.any_eq_true] at hs
  obtain ⟨⟨howner, hev⟩, s', hrun, hquiet⟩ := hs
  have hr' : (system 1).ReachableBy (fun s a => !s.crosses a) s' := hr.of_runBy (fun _ _ => id) hrun
  refine ⟨s, s', howner, hev, (stirs_iff hr).mpr fun h => ?_, hrun, fun hstirs => ?_⟩
  · rcases h.event with hpc | hpc | hpc <;> cases hpc.symm.trans hev
  · exact (stirs_iff hr').mp hstirs (settled_of_quiet hquiet)

/-- While the pool runs no worker has left its loop. -/
theorem not_left {ok} {s : Server n} (h : (system n).ReachableBy ok s)
    (hpool : s.shared.poolShutdown = false) (w : Fin n) : s.worker w ≠ .exited := by
  refine h.invariant (I := fun s => s.shared.poolShutdown = false → s.worker w ≠ .exited) ?_ ?_ hpool
  · intro s hinit _
    obtain ⟨_, _, _, _, rfl⟩ := hinit
    nofun
  intro s a s' _ hi _ hs hpool'
  cases step_cases hs with
  | event i sh pc he => exact hi ((EventPc.exec_poolShutdown he).symm.trans hpool')
  | worker w' i sh pc he =>
    have hpool := (WorkerPc.exec_poolShutdown he).symm.trans hpool'
    by_cases hw : w = w'
    · subst hw
      intro hx
      cases (WorkerPc.exec_leaves he (by simpa using hx)).symm.trans hpool
    · simpa [hw] using hi hpool
  | stop wl el sh pc he => exact hi ((StopPc.exec_poolShutdown he).1 hpool')
  | tick => exact hi hpool'

/-- **Where the server has settled, every request that is complete has been
taken up and seen to its end**: no connection has a task, and none that is
registered holds a complete request. -/
theorem Settled.requests_done {s : Server n} (h : (system n).Reachable s) (hs : s.Settled) (hn : 0 < n)
    (hpool : s.shared.poolShutdown = false) (c : ConnId) :
    s.tasksOf c = 0 ∧ (s.shared.heap c).processingRequest = false ∧
      ∀ fd, s.shared.connections.lookup fd = some c → (s.shared.heap c).Incomplete := by
  have hidle : ∀ w, s.worker w = .idle ∧ s.shared.tasks = [] := fun w =>
    ((hs.worker w).resolve_right (not_left h hpool w)).imp_right And.left
  have hqueued : s.event.queued s.shared c = 0 := by
    rcases hs.event with hpc | hpc | hpc <;>
      simp [EventPc.queued, hpc, EventPc.carries, (hidle ⟨0, hn⟩).2]
  have hload : ∀ w, (s.worker w).load c = 0 := by
    intro w
    rw [(hidle w).1]
    rfl
  have hnone : s.tasksOf c = 0 := by simp [tasksOf, hqueued, hload]
  have hflag : s.shared.flagged c = 0 := ((tasked h c).eq hpool).symm.trans hnone
  refine ⟨hnone, by simpa [Shared.flagged] using hflag, fun fd hl => ?_⟩
  exact incomplete_of_no_task h hpool hl hnone

theorem requests_done_answered : ∃ s : Server 1, (system 1).Reachable s ∧
    s.shared.connections.lookup 7 = some 0 ∧ s.tasksOf 0 = 0 ∧ (s.shared.heap 0).Incomplete := by
  obtain ⟨s, hr, hs⟩ := System.exists_reachable init_fresh (answered ++ eventSteps [.go])
    (fun s => decide (s.shared.poolShutdown = false ∧ s.shared.connections.lookup 7 = some 0) && s.quiet)
    (by decide +kernel)
  simp only [Bool.and_eq_true, decide_eq_true_eq] at hs
  obtain ⟨⟨hpool, hl⟩, hquiet⟩ := hs
  obtain ⟨hnone, -, hinc⟩ := (settled_of_quiet hquiet).requests_done hr (by decide) hpool 0
  exact ⟨s, hr, hl, hnone, hinc 7 hl⟩

/-! ## The end of `stop()` -/

end Server

namespace Shared

@[simp] theorem modifyFd_running (s : Shared) (fd : Fd) (out ok : Bool) :
    (s.modifyFd fd out ok).running = s.running := by unfold modifyFd; split <;> rfl

@[simp] theorem closeFd_running (s : Shared) (fd : Fd) : (s.closeFd fd).running = s.running := by
  unfold closeFd; split <;> rfl

@[simp] theorem unregister_running (s : Shared) (fd : Fd) :
    (s.unregister fd).running = s.running := by unfold unregister; split <;> rfl

@[simp] theorem setConn_running (s : Shared) (c : ConnId) (conn : Connection) :
    (s.setConn c conn).running = s.running := rfl

@[simp] theorem emit_running (s : Shared) (e : Event) : (s.emit e).running = s.running := rfl

end Shared

theorem SubPc.sendDone_running (s : Shared) (c : ConnId) (ctl : Bool) :
    (sendDone s c ctl).1.running = s.running := by
  simp only [sendDone]
  split <;> simp

theorem SubPc.exec_running {s : Shared} {p : SubPc} {i s' next} (h : p.exec s i = some (s', next)) :
    s'.running = s.running := by
  cases exec_steps h with
  | closeErase | closeFd => simp
  | send c r ctl h₁ =>
    generalize hout : (s', next) = out at h₁
    have hs : s' = out.1 := by rw [← hout]
    rw [hs]
    cases sendStep_cases h₁ <;> simp [sendDone_running, sendFailed, handed]
  | _ => rfl

theorem EventPc.exec_running {s : Shared} {pc : EventPc} {i s' pc'}
    (h : pc.exec s i = some (s', pc')) : s'.running = s.running := by
  cases exec_steps h with
  | acceptFull | acceptReject | dataErase | dataCloseFd => simp
  | sub p ret next h₁ => exact SubPc.exec_running h₁
  | _ => rfl

theorem WorkerPc.exec_running {s : Shared} {pc : WorkerPc} {i s' pc'}
    (h : pc.exec s i = some (s', pc')) : s'.running = s.running := by
  cases exec_steps h with
  | sub p c next h₁ => exact SubPc.exec_running h₁
  | _ => rfl

/-- Where `running_` is false the event thread goes on to `exited` at its loop. -/
theorem EventPc.exec_not_wait {s : Shared} {pc : EventPc} {i s' pc'} (hrun : s.running = false)
    (h : pc.exec s i = some (s', pc')) : pc' ≠ .wait := by
  cases exec_steps h with
  | loop hr => cases hrun.symm.trans hr
  | sub p ret next => cases next <;> cases ret <;> nofun
  | _ => nofun

namespace Server

variable {n : Nat}

/-- A client or an error at `accept`, or the clock: what `stop()` cannot bring
to an end. -/
def outside : Action n → Bool
  | .event (.accepts _) | .event (.acceptFails false) | .tick _ => true
  | _ => false

theorem running_eq {ok} {s : Server n} (h : (system n).ReachableBy ok s) :
    s.shared.running = true ↔ s.stop = .notCalled := by
  refine h.invariant (I := fun s => s.shared.running = true ↔ s.stop = .notCalled) ?_ ?_
  · intro s hinit
    obtain ⟨_, _, _, _, rfl⟩ := hinit
    exact ⟨fun _ => rfl, fun _ => rfl⟩
  intro s a s' _ hi _ hs
  cases step_cases hs with
  | event i sh pc he => exact (by rw [EventPc.exec_running he]; exact hi)
  | worker w i sh pc he => exact (by rw [WorkerPc.exec_running he]; exact hi)
  | stop wl el sh pc he =>
    generalize s.stop = stop at he hi
    cases StopPc.exec_steps he with
    | notCalled => simp [Shared.emit]
    | close fd rest => simpa [Shared.removeFd] using hi
    | _ => simpa using hi
  | tick => exact hi

theorem called_step {s s' : Server n} {a} (hr : (system n).Reachable s) (hc : s.stop ≠ .notCalled)
    (hs : s.step a = some s') : s'.stop ≠ .notCalled := by
  intro hc'
  have hrun' := (running_eq (.step hr trivial hs)).mpr hc'
  refine hc ((running_eq hr).mp ?_)
  cases step_cases hs with
  | event i sh pc he => exact (EventPc.exec_running he).symm.trans hrun'
  | worker w i sh pc he => exact (WorkerPc.exec_running he).symm.trans hrun'
  | stop wl el sh pc he =>
    generalize s.stop = stop at he hc
    cases StopPc.exec_steps he <;> cases hc'
  | tick => exact hrun'

/-- A stimulus other than those is a report of `epoll_wait` or its failure;
once `stop()` has been called it is the last. -/
theorem last_report {s s' : Server n} {a} (hrun : s.shared.running = false) (hc : s.stop ≠ .notCalled)
    (ha : s.stimulus a = true) (ho : outside a = false) (hs : s.step a = some s') :
    s'.event ≠ .wait := by
  cases step_cases hs with
  | event i sh pc he => exact EventPc.exec_not_wait hrun he
  | worker => cases ha
  | stop => exact absurd (by simpa [stimulus] using ha) hc
  | tick => cases ho

theorem stays_off_wait {s s' : Server n} {a} (hrun : s.shared.running = false) (hw : s.event ≠ .wait)
    (hs : s.step a = some s') : s'.event ≠ .wait := by
  cases step_cases hs with
  | event i sh pc he => exact EventPc.exec_not_wait hrun he
  | _ => exact hw

theorem not_stimulus {s s' : Server n} {a} (hc : s.stop ≠ .notCalled) (hw : s.event ≠ .wait)
    (ho : outside a = false) (hs : s.step a = some s') : s.stimulus a = false := by
  cases step_cases hs with
  | event i sh pc he =>
    cases i with
    | polled =>
      generalize s.event = pc₀ at he hw
      cases EventPc.exec_steps he with
      | polled => exact absurd rfl hw
      | sub p ret next h₁ => cases SubPc.exec_steps h₁
    | pollFails =>
      generalize s.event = pc₀ at he hw
      cases EventPc.exec_steps he with
      | pollFails => exact absurd rfl hw
      | sub p ret next h₁ => cases SubPc.exec_steps h₁
    | accepts => cases ho
    | acceptFails again => cases again <;> first | rfl | cases ho
    | _ => rfl
  | worker => rfl
  | stop => simpa [stimulus] using hc
  | tick => cases ho

/-- **`stop()` comes to its end.** Once it has been called, and where no step
has crossed two threads or stranded a request, the threads stop taking steps
unless clients keep coming or `accept` keeps failing; and where no other step
is left, `stop()` has returned, the threads have ended, and no descriptor is
open. -/
theorem stop_ends {s : Server n}
    (h : (system n).ReachableBy (fun s a => !s.crosses a && !s.strands a) s) (hc : s.stop ≠ .notCalled) :
    (∀ f a, (system n).Endless f a → f 0 = s → ∀ N, ∃ k, N ≤ k ∧ outside (a k) = true) ∧
    ((∀ a s', s.step a = some s' → outside a = true) →
      s.stop = .done ∧ s.event = .exited ∧ (∀ w, s.worker w = .exited) ∧
        s.shared.connections = ∅ ∧ ∀ fd, s.shared.fds fd = none) := by
  refine ⟨fun f a hrun hf N => ?_, fun hhalt => ?_⟩
  · by_contra hall
    have inside : ∀ k, N ≤ k → outside (a k) = false := fun k hk => by
      by_contra ho
      exact hall ⟨k, hk, by simpa using ho⟩
    have called : ∀ k, (system n).Reachable (f k) ∧ (f k).stop ≠ .notCalled := by
      intro k
      induction k with
      | zero => exact hf ▸ ⟨h.reachable, hc⟩
      | succ k ih => exact ⟨.step ih.1 trivial (hrun k), called_step ih.1 ih.2 (hrun k)⟩
    have stopped : ∀ k, (f k).shared.running = false := fun k => by
      simpa using mt (running_eq (called k).1).mp (called k).2
    -- from some step on `epoll_wait` reports nothing more
    obtain ⟨M, hM, quiet⟩ : ∃ M, N ≤ M ∧ ∀ k, M ≤ k → (f k).stimulus (a k) = false := by
      by_cases hex : ∃ k, N ≤ k ∧ (f k).stimulus (a k) = true
      · obtain ⟨k₀, hk₀, hstim⟩ := hex
        have hoff : ∀ k, k₀ + 1 ≤ k → (f k).event ≠ .wait := by
          intro k hk
          induction k, hk using Nat.le_induction with
          | base => exact last_report (stopped k₀) (called k₀).2 hstim (inside k₀ hk₀) (hrun k₀)
          | succ k _ ih => exact stays_off_wait (stopped k) ih (hrun k)
        exact ⟨k₀ + 1, by omega, fun k hk =>
          not_stimulus (called k).2 (hoff k hk) (inside k (by omega)) (hrun k)⟩
      · exact ⟨N, le_rfl, fun k hk => by simpa using fun hstim => hex ⟨k, hk, hstim⟩⟩
    obtain ⟨k, hk, hno⟩ := hrun.exists_not (fun s a => s.stimulus a = false) work M
      fun k s' _ ha hs => step_work ha hs
    exact hno (quiet k hk)
  · have hnot : ¬ s.Stirs := by
      rintro ⟨a, s', ha, hs⟩
      have hstim : ∀ a : Action n, outside a = true → s.stimulus a = true := by
        intro a ho
        unfold outside at ho
        split at ho
        · rfl
        · rfl
        · rfl
        · cases ho
      cases ha.symm.trans (hstim a (hhalt a s' hs))
    have hsettled : s.Settled := by
      by_contra hns
      exact hnot ((stirs_iff (h.mono fun s a ha => by simp_all)).mpr hns)
    have hthrown : s.event ≠ .thrown := orderly (h.mono fun s a ha => by simp_all)
    have hexited : s.event = .exited := by
      rcases hsettled.event with hw | hx | ht
      · have hpoll : s.step (.event (.polled [])) = some { s with event := .batch [] } := by
          simp [step, lockOp, hw, EventPc.lockOp, LockOp.apply, EventPc.exec]
        cases hhalt _ _ hpoll
      · exact hx
      · exact absurd ht hthrown
    have hdone : s.stop = .done := by
      rcases hsettled.stop with hn | ⟨-, hne⟩ | hd
      · exact absurd hn hc
      · exact absurd hexited hne
      · exact hd
    have hclosing := closing h
    simp only [Closing, hdone] at hclosing
    exact ⟨hdone, hexited, (joined h).worker (by rw [hdone]; rfl), hclosing.2, hclosing.1⟩

theorem stop_ends_answered : ∃ s : Server 1,
    (system 1).ReachableBy (fun s a => !s.crosses a && !s.strands a) s ∧ .accepted 7 0 ∈ s.shared.log ∧
      s.stop = .done ∧ ∀ fd, s.shared.fds fd = none := by
  obtain ⟨s, hr, hs⟩ := System.exists_reachableBy init_fresh
    (fun s a => !s.crosses a && !s.strands a) answeredAndStopped
    (fun s => decide (s.stop = .done ∧ .accepted 7 0 ∈ s.shared.log)) (by decide +kernel)
  obtain ⟨hdone, hacc⟩ := of_decide_eq_true hs
  have hjoined := joined hr
  have hhalt : ∀ a s', s.step a = some s' → outside a = true := by
    intro a s' hstep
    cases step_cases hstep with
    | event i sh pc he => simp [hjoined.event (by rw [hdone]; rfl), EventPc.exec] at he
    | worker w i sh pc he => simp [hjoined.worker (by rw [hdone]; rfl) w, WorkerPc.exec] at he
    | stop wl el sh pc he => simp [hdone, StopPc.exec] at he
    | tick => rfl
  obtain ⟨hd, -, -, -, hfds⟩ := (stop_ends hr (by rw [hdone]; nofun)).2 hhalt
  exact ⟨s, hr, hacc, hd, hfds⟩

end Server

end Webserver
