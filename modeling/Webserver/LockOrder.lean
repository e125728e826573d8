/-
The order in which the two kinds of mutex are taken. `handle_client_data`
takes the connection's mutex and, inside that section, the map's; the other
functions take the map's first. The event thread and a worker are in a cycle
exactly if each holds the one mutex and waits for the other, for the same
connection; where no step crosses them so, no deadlock is reached.
-/
import Webserver.ServerFacts

namespace Webserver

open Cxx Locks Systems

/-! ## Who waits with a mutex in hand -/

/-- `handle_client_data` holds the mutex of connection `c` and waits for the
map's. -/
def EventPc.awaitsMap : EventPc → Option ConnId
  | dataLockMap _ c _ _ | dataEraseLock _ c _ => some c
  | _ => none

/-- A worker holds the map's mutex and waits for the one of connection `c`. -/
def WorkerPc.awaitsConn : WorkerPc → Option ConnId
  | unregLock c | sub (.closeLockConn _ c) _ => some c
  | _ => none

/-- The event thread waits while it holds a mutex only where one of the two
kinds is in its hands and it wants the other. -/
theorem EventPc.holds_wants {pc : EventPc} {m m'} (hm : m ∈ pc.holds)
    (hw : pc.lockOp.wants = some m') :
    (m' = .connections ∧ ∃ c, m = .conn c ∧ pc.awaitsMap = some c) ∨
      (m = .connections ∧ pc.awaitsMap = none ∧ ∃ c, m' = .conn c) := by
  cases pc with
  | cleanupLockConn now fd c idle rest inactive =>
    exact .inr ⟨List.mem_singleton.mp hm, rfl, c, (Option.some.inj hw).symm⟩
  | sub p ret =>
    cases p with
    | closeLockConn fd c => exact .inr ⟨List.mem_singleton.mp hm, rfl, c, (Option.some.inj hw).symm⟩
    | _ => simp_all [holds, lockOp, SubPc.holds, SubPc.lockOp, LockOp.wants]
  | _ => simp_all [holds, lockOp, LockOp.wants, awaitsMap]

theorem WorkerPc.holds_wants {pc : WorkerPc} {m m'} (hm : m ∈ pc.holds)
    (hw : pc.lockOp.wants = some m') :
    m = .connections ∧ ∃ c, m' = .conn c ∧ pc.awaitsConn = some c := by
  cases pc with
  | sub p c =>
    cases p <;> simp_all [holds, lockOp, SubPc.holds, SubPc.lockOp, LockOp.wants, awaitsConn]
  | _ => simp_all [holds, lockOp, LockOp.wants, awaitsConn]

theorem StopPc.holds_wants {pc : StopPc} {m m'} (hm : m ∈ pc.holds) :
    pc.lockOp.wants ≠ some m' := by
  cases pc with
  | closeAll rest => cases rest <;> nofun
  | _ => cases hm

theorem EventPc.of_awaitsMap {pc : EventPc} {c} (h : pc.awaitsMap = some c) :
    pc.holds = [.conn c] ∧ pc.lockOp.wants = some .connections := by
  cases pc <;> simp_all [awaitsMap, holds, lockOp, LockOp.wants]

theorem WorkerPc.of_awaitsConn {pc : WorkerPc} {c} (h : pc.awaitsConn = some c) :
    pc.holds = [.connections] ∧ pc.lockOp.wants = some (.conn c) := by
  cases pc with
  | sub p c' =>
    cases p <;> simp_all [awaitsConn, holds, lockOp, SubPc.holds, SubPc.lockOp, LockOp.wants]
  | _ => simp_all [awaitsConn, holds, lockOp, LockOp.wants]

/-! ## How they come to wait so -/

/-- The event thread comes to wait for the map's mutex in the two places of
`handle_client_data`. -/
theorem EventPc.exec_awaitsMap {s : Shared} {pc : EventPc} {i s' pc' c}
    (h : pc.exec s i = some (s', pc')) (ha : pc'.awaitsMap = some c) :
    i = .go ∧ ((∃ fd chunk k, pc = dataLockConn fd c chunk k) ∨
      ∃ fd chunk k, pc = dataAppend fd c chunk k ∧ overflows s c chunk) := by
  cases exec_steps h with
  | dataLockConn fd c' chunk k =>
    obtain rfl : c' = c := Option.some.inj ha
    exact ⟨rfl, .inl ⟨fd, chunk, k, rfl⟩⟩
  | tooLarge fd c' chunk k hover =>
    obtain rfl : c' = c := Option.some.inj ha
    exact ⟨rfl, .inr ⟨fd, chunk, k, rfl, hover⟩⟩
  | sub p ret next => cases next <;> cases ret <;> cases ha
  | _ => cases ha

/-- A worker comes to wait for a connection's mutex where `close_connection`
has found the connection in the map, and where `handle_client_request` has
found its number not there. -/
theorem WorkerPc.exec_awaitsConn {s : Shared} {pc : WorkerPc} {i s' pc' c}
    (h : pc.exec s i = some (s', pc')) (ha : pc'.awaitsConn = some c) :
    i = .go ∧ ((∃ fd c', pc = sub (.closeFind fd) c' ∧ s.connections.lookup fd = some c) ∨
      ∃ response, pc = check c response ∧ s.connections.lookup (s.heap c).fd = none) := by
  cases exec_steps h with
  | missing c' response hl =>
    obtain rfl : c' = c := Option.some.inj ha
    exact ⟨rfl, .inr ⟨response, rfl, hl⟩⟩
  | sub p c' next h₁ =>
    cases SubPc.exec_steps h₁ with
    | closeFound fd c'' hl =>
      obtain rfl : c'' = c := Option.some.inj ha
      exact ⟨rfl, .inl ⟨fd, c', rfl, hl⟩⟩
    | send c'' r ctl h₂ => rcases SubPc.sendStep_next h₂ with rfl | ⟨fd, rfl⟩ <;> cases ha
    | _ => cases ha
  | _ => cases ha

/-! ## Deadlock -/

namespace Server

variable {n : Nat}

/-- The mutex a thread is about to lock. -/
def wants (s : Server n) (t : Thread n) : Option Mutex := (s.lockOp t).wants

/-- The event thread holds a connection's mutex and waits for the map's; a
worker holds the map's and waits for that connection's. -/
def Crossed (s : Server n) : Prop :=
  ∃ w c, s.event.awaitsMap = some c ∧ (s.worker w).awaitsConn = some c

theorem Crossed.deadlock {s : Server n} (hc : Consistent s.owner s.holds) (h : s.Crossed) :
    Deadlock s.owner s.wants := by
  obtain ⟨w, c, he, hw⟩ := h
  obtain ⟨heh, hew⟩ := EventPc.of_awaitsMap he
  obtain ⟨hwh, hww⟩ := WorkerPc.of_awaitsConn hw
  have event : WaitsFor s.owner s.wants .event (.worker w) :=
    ⟨.connections, hew, (hc.owner _ _).mpr (by simp [holds, hwh])⟩
  have worker : WaitsFor s.owner s.wants (.worker w) .event :=
    ⟨.conn c, hww, (hc.owner _ _).mpr (by simp [holds, heh])⟩
  exact ⟨.event, .tail (.single event) worker⟩

/-- Threads that hold nothing come first, then the event thread where it
holds a connection's mutex and waits for the map's, then all others. -/
def rank (s : Server n) (t : Thread n) : Nat :=
  if s.holds t = [] then 2
  else match t with
    | .event => if s.event.awaitsMap = none then 0 else 1
    | _ => 0

theorem not_deadlock_of_not_crossed {s : Server n} (hc : Consistent s.owner s.holds)
    (h : ¬ s.Crossed) : ¬ Deadlock s.owner s.wants := by
  refine not_deadlock_of_rank s.rank fun t t' t'' htt' htt'' => ?_
  obtain ⟨m, hm, how⟩ := htt'
  obtain ⟨m', hm', -⟩ := htt''
  have hold : m ∈ s.holds t' := (hc.owner m t').mp how
  have hne : s.holds t' ≠ [] := List.ne_nil_of_mem hold
  by_cases hfree : s.holds t = []
  · -- a thread that holds nothing waits for one that holds something
    have : s.rank t = 2 := by simp [rank, hfree]
    rw [this]
    simp only [rank, hne, if_false]
    split
    · split <;> omega
    · omega
  obtain ⟨m₀, hm₀⟩ := List.exists_mem_of_ne_nil _ hfree
  have first : ∀ {w}, t = .worker w → m₀ = .connections ∧
      ∃ c, m = .conn c ∧ (s.worker w).awaitsConn = some c := by
    intro w ht
    subst ht
    exact WorkerPc.holds_wants hm₀ hm
  cases t' with
  | stop => exact absurd hm' (StopPc.holds_wants hold)
  | worker w' =>
    obtain ⟨rfl, c', -, -⟩ := WorkerPc.holds_wants hold hm'
    have low : s.rank (.worker w') = 0 := by simp [rank, hne]
    cases t with
    | stop => exact absurd hm (StopPc.holds_wants hm₀)
    | worker w =>
      obtain ⟨-, c, hmc, -⟩ := first rfl
      cases hmc
    | event =>
      rcases EventPc.holds_wants hm₀ hm with ⟨-, c, -, ha⟩ | ⟨-, -, c, hmc⟩
      · have : s.rank .event = 1 := by simp [rank, hfree, ha]
        omega
      · cases hmc
  | event =>
    cases t with
    | stop => exact absurd hm (StopPc.holds_wants hm₀)
    | worker w =>
      obtain ⟨-, c, rfl, hw⟩ := first rfl
      rcases EventPc.holds_wants hold hm' with ⟨-, c', hcc, ha⟩ | ⟨hcc, -⟩
      · cases hcc
        exact absurd ⟨w, c, ha, hw⟩ h
      · cases hcc
    | event =>
      -- no thread waits for a mutex it holds
      rcases EventPc.holds_wants hold hm with ⟨rfl, c, hcc, -⟩ | ⟨rfl, -, c, hcc⟩ <;> cases hcc

/-- **The one deadlock of the server**: it has a cycle of waiting threads
exactly if the event thread and a worker are crossed. -/
theorem deadlock_iff_crossed {s : Server n} (h : (system n).Reachable s) :
    Deadlock s.owner s.wants ↔ s.Crossed := by
  refine ⟨fun hd => ?_, Crossed.deadlock (consistent h)⟩
  by_contra hn
  exact not_deadlock_of_not_crossed (consistent h) hn hd

/-- The event thread comes to wait for the map's mutex, with the mutex of a
connection in hand that a worker waits for. -/
def eventCrosses (s : Server n) : Bool :=
  match s.event with
  | .dataLockConn _ c _ _ => (List.finRange n).any fun w => (s.worker w).awaitsConn = some c
  | .dataAppend _ c chunk _ => EventPc.overflows s.shared c chunk &&
    (List.finRange n).any fun w => (s.worker w).awaitsConn = some c
  | _ => false

/-- A worker comes to wait for a connection's mutex, with the map's mutex in
hand, while the event thread holds the former and waits for the latter. -/
def workerCrosses (s : Server n) (w : Fin n) : Bool :=
  match s.worker w with
  | .sub (.closeFind fd) _ => match s.shared.connections.lookup fd with
    | some c => s.event.awaitsMap = some c
    | none => false
  | .check c _ => s.shared.connections.lookup (s.shared.heap c).fd = none && s.event.awaitsMap = some c
  | _ => false

def crosses (s : Server n) : Action n → Bool
  | .event _ => s.eventCrosses
  | .worker w _ => s.workerCrosses w
  | _ => false

theorem not_crossed {s : Server n} (h : (system n).ReachableBy (fun s a => !s.crosses a) s) :
    ¬ s.Crossed := by
  refine h.invariant (I := fun s => ¬ s.Crossed) ?_ ?_
  · intro s hinit hx
    obtain ⟨_, _, _, _, rfl⟩ := hinit
    obtain ⟨w, c, he, -⟩ := hx
    cases he
  intro s a s' _ hi hok hs hx
  obtain ⟨w', c, he', hw'⟩ := hx
  cases step_cases hs with
  | event i sh pc he =>
    have waits : ((List.finRange n).any fun w => (s.worker w).awaitsConn = some c) = true :=
      List.any_eq_true.mpr ⟨w', List.mem_finRange w', by simpa using hw'⟩
    rcases EventPc.exec_awaitsMap he he' with ⟨-, ⟨fd, chunk, k, hpc⟩ | ⟨fd, chunk, k, hpc, hover⟩⟩
    · simp [crosses, eventCrosses, hpc, waits] at hok
    · simp [crosses, eventCrosses, hpc, hover, waits] at hok
  | worker w i sh pc he =>
    by_cases hw : w' = w
    · subst hw
      have he' : s.event.awaitsMap = some c := he'
      rcases WorkerPc.exec_awaitsConn he (by simpa using hw') with
        ⟨-, ⟨fd, c', hpc, hl⟩ | ⟨response, hpc, hl⟩⟩
      · simp [crosses, workerCrosses, hpc, hl, he'] at hok
      · simp [crosses, workerCrosses, hpc, hl, he'] at hok
    · exact hi ⟨w', c, he', by simpa [hw] using hw'⟩
  | stop => exact hi ⟨w', c, he', hw'⟩
  | tick => exact hi ⟨w', c, he', hw'⟩

/-- **No deadlock is reached** in a run in which no step crosses the event
thread and a worker. -/
theorem deadlock_free {s : Server n} (h : (system n).ReachableBy (fun s a => !s.crosses a) s) :
    ¬ Deadlock s.owner s.wants :=
  not_deadlock_of_not_crossed (consistent h) (not_crossed h)

theorem deadlock_free_answered : ∃ s : Server 1,
    (system 1).ReachableBy (fun s a => !s.crosses a) s ∧ .cleared 0 ∈ s.shared.log ∧
      ¬ Deadlock s.owner s.wants := by
  obtain ⟨s, hr, hs⟩ := System.exists_reachableBy init_fresh (fun s a => !s.crosses a) answered
    (fun s => decide (.cleared 0 ∈ s.shared.log)) (by decide +kernel)
  exact ⟨s, hr, of_decide_eq_true hs, deadlock_free hr⟩

/-- The worker has sent the whole of a response after which the connection is
to be closed, and has found the connection in the map; the event thread has
received one more byte on it. -/
def crossing : List (Action 1) :=
  acceptClient 7 1 ++ receiveRequest 7 (bytes "GET / HTTP/1.0\r\n\r\n") 1 ++
    workerSteps (answerInputs ++ respondInputs (.accepts ((page.setKeepAlive false).toString
      .newestFirst).length)) ++
    eventSteps (pollInputs [(7, true, false)] ++ [.go, .go, .receives [0]]) ++
    workerSteps [.go, .go] ++ eventSteps [.go]

theorem not_deadlock_free : ¬ ∀ (n : Nat) (s : Server n), (system n).Reachable s →
    ¬ Deadlock s.owner s.wants := by
  intro h
  obtain ⟨s, hr, hs⟩ := System.exists_reachable init_fresh crossing
    (fun s => s.event.awaitsMap = some 0 && (s.worker 0).awaitsConn = some 0) (by decide +kernel)
  simp only [Bool.and_eq_true, decide_eq_true_eq] at hs
  exact h 1 s hr ((deadlock_iff_crossed hr).mpr ⟨0, 0, hs.1, hs.2⟩)

end Server

end Webserver
