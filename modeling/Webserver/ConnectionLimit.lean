/-
The connection limit: the event thread tests it in one section and registers
in a later one, but no other thread registers in between.
-/
import Webserver.ServerFacts

namespace Webserver

open Cxx Locks Systems

/-- The map loses entries at most, and the limit stays. -/
structure Shared.Narrows (s s' : Shared) : Prop where
  limit : s'.maxConnections = s.maxConnections
  size : s'.connections.entries.length ≤ s.connections.entries.length
  lookup : ∀ fd c, s'.connections.lookup fd = some c → s.connections.lookup fd = some c

theorem Shared.Narrows.of_eq {s s' : Shared} (hl : s'.maxConnections = s.maxConnections)
    (hc : s'.connections = s.connections) : s.Narrows s' := ⟨hl, by rw [hc], fun _ _ => by rw [hc]; exact id⟩

theorem Shared.Narrows.unregister (s : Shared) (fd : Fd) : s.Narrows (s.unregister fd) := by
  refine ⟨?_, ?_, fun fd' c hc => ?_⟩
  · unfold Shared.unregister
    split <;> rfl
  · unfold Shared.unregister
    split
    · exact le_rfl
    · exact (List.kerase_sublist fd s.connections.entries).length_le
  · rw [lookup_unregister] at hc
    split at hc
    · cases hc
    · exact hc

theorem Shared.modifyFd_maxConnections (s : Shared) (fd : Fd) (out ok : Bool) :
    (s.modifyFd fd out ok).maxConnections = s.maxConnections := by unfold modifyFd; split <;> rfl

theorem Shared.closeFd_maxConnections (s : Shared) (fd : Fd) :
    (s.closeFd fd).maxConnections = s.maxConnections := by unfold closeFd; split <;> rfl

theorem Shared.Narrows.closeFd (s : Shared) (fd : Fd) : s.Narrows (s.closeFd fd) :=
  .of_eq (s.closeFd_maxConnections fd) (by simp)

namespace SubPc

theorem sendStep_narrows {s : Shared} {c r ctl s' next} (h : sendStep s c r ctl = some (s', next)) :
    s.Narrows s' := by
  simp only [sendStep, sendDone, sendFailed] at h
  repeat' split at h
  all_goals simp only [Option.some.injEq, Prod.mk.injEq, reduceCtorEq] at h
  all_goals
    obtain ⟨rfl, -⟩ := h
    exact .of_eq (by simp [Shared.modifyFd_maxConnections, Shared.emit, Shared.setConn])
      (by simp [Shared.emit, Shared.setConn])

theorem exec_narrows {s : Shared} {p : SubPc} {i s' next} (h : p.exec s i = some (s', next)) :
    s.Narrows s' := by
  cases exec_steps h with
  | closeErase fd => exact .unregister s fd
  | closeFd fd => exact .closeFd s fd
  | send c r ctl h₁ => exact sendStep_narrows h₁
  | _ => exact .of_eq rfl rfl

end SubPc

theorem WorkerPc.exec_narrows {s : Shared} {pc : WorkerPc} {i s' pc'} (h : pc.exec s i = some (s', pc')) :
    s.Narrows s' := by
  cases exec_steps h with
  | sub p c next h₁ => exact SubPc.exec_narrows h₁
  | _ => exact .of_eq rfl rfl

theorem StopPc.exec_narrows {s : Shared} {pc : StopPc} {a b s' pc'} (h : pc.exec s a b = some (s', pc')) :
    s.Narrows s' := by
  cases exec_steps h with
  | close fd rest => exact .of_eq ((s.removeFd fd).closeFd_maxConnections fd) (by simp [Shared.removeFd])
  | clear => exact ⟨rfl, Nat.zero_le _, by simp⟩
  | _ => exact .of_eq rfl rfl

namespace EventPc

/-- Between the test of the limit and the registration. -/
def admits : EventPc → Bool
  | acceptNonBlocking _ _ | acceptAddFd _ _ | acceptConnection _ _ | acceptInsertLock _ _ _
  | acceptInsert _ _ _ => true
  | _ => false

theorem admits_resume (ret : EventRet) (next : Option SubPc) : (resume ret next).admits = false := by
  cases next <;> cases ret <;> rfl

variable {s s' : Shared} {pc pc' : EventPc}

/-- Only where the event thread registers does the map gain an entry. -/
theorem exec_narrows {i} (hne : ∀ fd c k, pc ≠ acceptInsert fd c k) (h : pc.exec s i = some (s', pc')) :
    s.Narrows s' := by
  cases exec_steps h with
  | acceptFull fd | acceptReject fd | dataCloseFd fd => exact .closeFd s fd
  | acceptInsert fd c k => exact absurd rfl (hne fd c k)
  | dataErase fd => exact .unregister s fd
  | sub p ret next h₁ => exact SubPc.exec_narrows h₁
  | _ => exact .of_eq rfl rfl

/-- The event thread goes on to register where the test of the limit found room. -/
theorem exec_admits {i} (h : pc.exec s i = some (s', pc')) (ha : pc'.admits = true) :
    pc.admits = true ∨ s'.connections.entries.length < s'.maxConnections := by
  cases exec_steps h with
  | acceptCheck fd k hroom => exact .inr (Nat.not_le.mp hroom)
  | sub p ret next =>
    rw [admits_resume] at ha
    cases ha
  | _ => first | exact .inl rfl | cases ha

/-- The limit is kept, and where the event thread is about to register there
is room for one more. -/
structure Room (s : Shared) (pc : EventPc) : Prop where
  within : s.connections.entries.length ≤ s.maxConnections
  space : pc.admits = true → s.connections.entries.length < s.maxConnections

/-- What takes entries away leaves the room there is. -/
theorem Room.narrows (h : Room s pc) (hs : s.Narrows s') (hpc : pc'.admits = true →
    pc.admits = true ∨ s'.connections.entries.length < s'.maxConnections) : Room s' pc' := by
  obtain ⟨hlimit, hsize, -⟩ := hs
  refine ⟨?_, fun ha => ?_⟩
  · have := h.within
    omega
  · rcases hpc ha with hbefore | hroom
    · have := h.space hbefore
      omega
    · exact hroom

theorem exec_room {i} (hr : Room s pc) (h : pc.exec s i = some (s', pc')) :
    Room s' pc' ∧ s'.maxConnections = s.maxConnections := by
  by_cases hinsert : ∃ fd c k, pc = acceptInsert fd c k
  · -- the registration takes the room the test found
    obtain ⟨fd, c, k, rfl⟩ := hinsert
    have hspace := hr.space rfl
    have hsize : (s.connections.insert fd c).entries.length ≤ s.connections.entries.length + 1 := by
      have := (List.kerase_sublist fd s.connections.entries).length_le
      rw [AList.entries_insert, List.length_cons]
      omega
    cases exec_steps h
    refine ⟨⟨?_, fun ha => by cases ha⟩, rfl⟩
    simp only [Shared.emit]
    omega
  · have hn := exec_narrows (fun fd c k hpc => hinsert ⟨fd, c, k, hpc⟩) h
    exact ⟨hr.narrows hn (exec_admits h), hn.limit⟩

end EventPc

namespace Server

variable {n : Nat}

/-- One step keeps the room and the limit. -/
theorem step_room {s s' : Server n} {a} (h : s.event.Room s.shared) (hs : s.step a = some s') :
    s'.event.Room s'.shared ∧ s'.shared.maxConnections = s.shared.maxConnections := by
  cases step_cases hs with
  | event i sh pc he => exact EventPc.exec_room h he
  | worker w i sh pc he =>
    have hn := WorkerPc.exec_narrows he
    exact ⟨h.narrows hn .inl, hn.limit⟩
  | stop wl el sh pc he =>
    have hn := StopPc.exec_narrows he
    exact ⟨h.narrows hn .inl, hn.limit⟩
  | tick => exact ⟨h.narrows (.of_eq rfl rfl) .inl, rfl⟩

theorem room_of_run {serverFd maxConnections : Nat} {order : MapOrder} {clock : Int} {actions : List (Action n)}
    {s : Server n} (h : (system n).run (initial n serverFd maxConnections order clock) actions = some s) :
    s.event.Room s.shared ∧ s.shared.maxConnections = maxConnections :=
  System.invariant_of_run
    (I := fun s : Server n => s.event.Room s.shared ∧ s.shared.maxConnections = maxConnections)
    (fun s a s' hi hs => by
      obtain ⟨hroom, hlimit⟩ := step_room hi.1 hs
      exact ⟨hroom, hlimit.trans hi.2⟩)
    ⟨⟨Nat.zero_le _, by simp [initial, EventPc.admits]⟩, rfl⟩ h

/-- In no run are more connections registered than the configured number. -/
theorem connections_le {serverFd maxConnections : Nat} {order : MapOrder} {clock : Int}
    {actions : List (Action n)} {s : Server n}
    (h : (system n).run (initial n serverFd maxConnections order clock) actions = some s) :
    s.shared.connections.entries.length ≤ maxConnections := by
  obtain ⟨hroom, hlimit⟩ := room_of_run h
  have := hroom.within
  omega

/-- A server for one client accepts one and turns a second away. -/
def turnedAway : List (Action 1) :=
  acceptClient 5 1 ++ eventSteps (pollInputs [(3, true, false)] ++ [.accepts 6, .go, .go, .acceptFails true])

theorem connections_le_turnedAway : ∃ s : Server 1,
    (system 1).run (initial 1 3 1 .newestFirst 0) turnedAway = some s ∧
    s.shared.connections.entries.length ≤ 1 := by
  have hrun : ((system 1).run (initial 1 3 1 .newestFirst 0) turnedAway).isSome := by decide +kernel
  obtain ⟨s, hs⟩ := Option.isSome_iff_exists.mp hrun
  exact ⟨s, hs, connections_le hs⟩

end Server

end Webserver
