/-
Every `Connection` a reachable state mentions (in the map, in the queue, in a
thread's hands or in the log) has been constructed.
-/
import Webserver.Touch

namespace Webserver

open Cxx Locks Systems

namespace SubPc

/-- The connections a point of the two functions refers to. -/
def refs : SubPc → List ConnId
  | closeLockConn _ c | closeReadPending _ c | sendLock c | send c => [c]
  | _ => []

def refsNext : Option SubPc → List ConnId
  | none => []
  | some p => p.refs

end SubPc

/-- The connections a point of the event thread's code refers to. -/
def EventPc.refs : EventPc → List ConnId
  | acceptInsertLock _ c _ | acceptInsert _ c _ | dataRecv _ c _ | dataLockConn _ c _ _
  | dataLockMap _ c _ _ | dataCheck _ c _ _ | dataAppend _ c _ _ | dataEraseLock _ c _
  | dataErase _ c _ | dataRemoveFd _ c _ | dataCloseFd _ c _ | dataUnlock c _ _ | enqueue c _
  | push c _ => [c]
  | cleanupScan _ rest _ => rest.map (·.2)
  | cleanupLockConn _ _ c _ rest _ | cleanupRead _ _ c _ rest _ => c :: rest.map (·.2)
  | sub p _ => p.refs
  | _ => []

/-- The connections a point of a worker's code refers to. -/
def WorkerPc.refs : WorkerPc → List ConnId
  | sub p c => c :: p.refs
  | pc => pc.carries.toList

/-- The map, the queue and the log mention only connections constructed. -/
structure Shared.Bounded (s : Shared) : Prop where
  connections : ∀ fd c, s.connections.lookup fd = some c → c < s.created
  tasks : ∀ c ∈ s.tasks, c < s.created
  log : ∀ e ∈ s.log, ∀ c, e.about = some c → c < s.created

namespace Shared

theorem Bounded.congr {s s' : Shared} (h : s.Bounded) (hc : s'.connections = s.connections)
    (ht : s'.tasks = s.tasks) (hl : s'.log = s.log) (hn : s'.created = s.created) : s'.Bounded :=
  ⟨by rw [hc, hn]; exact h.connections, by rw [ht, hn]; exact h.tasks,
    by rw [hl, hn]; exact h.log⟩

theorem Bounded.emit {s : Shared} (h : s.Bounded) {e : Event} {c : ConnId}
    (about : e.about = some c) (hc : c < s.created) : (s.emit e).Bounded := by
  refine ⟨h.connections, h.tasks, fun e' he' c' hc' => ?_⟩
  rcases List.mem_append.mp he' with he' | he'
  · exact h.log e' he' c' hc'
  · rw [List.mem_singleton.mp he', about] at hc'
    cases hc'
    exact hc

theorem Bounded.emit_of_none {s : Shared} (h : s.Bounded) {e : Event} (about : e.about = none) :
    (s.emit e).Bounded := by
  refine ⟨h.connections, h.tasks, fun e' he' c' hc' => ?_⟩
  rcases List.mem_append.mp he' with he' | he'
  · exact h.log e' he' c' hc'
  · rw [List.mem_singleton.mp he', about] at hc'
    cases hc'

theorem Bounded.setConn {s : Shared} (h : s.Bounded) (c : ConnId) (conn : Connection) :
    (s.setConn c conn).Bounded := h.congr rfl rfl rfl rfl

theorem Bounded.modifyFd {s : Shared} (h : s.Bounded) (fd out ok) : (s.modifyFd fd out ok).Bounded :=
  h.congr (by simp) (by simp) (by simp) (by simp)

theorem Bounded.closeFd {s : Shared} (h : s.Bounded) (fd : Fd) : (s.closeFd fd).Bounded := by
  unfold Shared.closeFd
  split
  · exact h
  · refine Bounded.emit_of_none (h.congr ?_ ?_ ?_ ?_) rfl <;> rfl

theorem Bounded.unregister {s : Shared} (h : s.Bounded) (fd : Fd) : (s.unregister fd).Bounded := by
  refine ⟨fun fd' c hc => ?_, by simpa using h.tasks, ?_⟩
  · rw [lookup_unregister] at hc
    split at hc
    · cases hc
    · simpa using h.connections fd' c hc
  · unfold Shared.unregister
    split
    · exact h.log
    · next c hl =>
      exact (h.emit (e := .unregistered c) rfl (h.connections fd c hl)).log

/-- A connection not yet constructed has no history. -/
theorem Bounded.history_created {s : Shared} (h : s.Bounded) : history s.created s.log = [] :=
  List.filter_eq_nil_iff.mpr fun e he => by
    simpa using fun hc => Nat.lt_irrefl _ (h.log e he s.created hc)

end Shared

namespace SubPc

theorem sendDone_bounded {s : Shared} {c ctl} (h : s.Bounded) (hc : c < s.created) :
    (sendDone s c ctl).1.Bounded := by
  simp only [sendDone]
  split
  · exact (h.setConn _ _).modifyFd _ _ _
  · exact ((h.setConn _ _).modifyFd _ _ _).emit rfl (by simpa [Shared.setConn] using hc)

theorem handed_bounded {s : Shared} {c k n} (h : s.Bounded) (hc : c < s.created) :
    (handed s c k n).Bounded := (h.setConn _ _).emit rfl hc

theorem sendStep_bounded {s : Shared} {c r ctl s' next} (hs : s.Bounded) (hc : c < s.created)
    (h : sendStep s c r ctl = some (s', next)) : s'.Bounded := by
  generalize hout : (s', next) = out at h
  have : s' = out.1 := by rw [← hout]
  rw [this]
  cases sendStep_cases h with
  | nothing => exact hs
  | empty ctl => exact sendDone_bounded hs hc
  | blocked ctl => exact hs.modifyFd _ _ _
  | failed => exact (hs.setConn _ _).emit rfl hc
  | whole k ctl => exact sendDone_bounded (handed_bounded hs hc) hc
  | part k n ctl => exact (handed_bounded hs hc).modifyFd _ _ _

theorem exec_bounded {s : Shared} {p : SubPc} {i s' next} (hs : s.Bounded)
    (hp : ∀ c ∈ p.refs, c < s.created) (h : p.exec s i = some (s', next)) :
    s'.Bounded ∧ s'.created = s.created ∧ ∀ c ∈ refsNext next, c < s'.created := by
  cases exec_steps h with
  | closeFound fd c hc => exact ⟨hs, rfl, by simpa [refsNext, refs] using hs.connections fd c hc⟩
  | closeErase fd => exact ⟨hs.unregister fd, by simp, List.forall_mem_nil _⟩
  | closeRemoveFd fd => exact ⟨hs.congr rfl rfl rfl rfl, rfl, List.forall_mem_nil _⟩
  | closeFd fd => exact ⟨hs.closeFd fd, by simp, List.forall_mem_nil _⟩
  | send c r ctl h₁ =>
    refine ⟨sendStep_bounded hs (hp c (by simp [refs])) h₁, (sendStep_frame h₁).created, ?_⟩
    rcases sendStep_next h₁ with rfl | ⟨fd, rfl⟩ <;> simp [refsNext, refs]
  | _ => first | exact ⟨hs, rfl, hp⟩ | exact ⟨hs, rfl, List.forall_mem_nil _⟩

end SubPc

namespace EventPc

theorem exec_bounded {s : Shared} {pc : EventPc} {i s' pc'} (hs : s.Bounded)
    (hpc : ∀ c ∈ pc.refs, c < s.created) (h : pc.exec s i = some (s', pc')) :
    s'.Bounded ∧ s.created ≤ s'.created ∧ ∀ c ∈ pc'.refs, c < s'.created := by
  cases exec_steps h with
  | accept =>
    refine ⟨Shared.Bounded.emit_of_none ?_ rfl, le_rfl, List.forall_mem_nil _⟩
    exact hs.congr rfl rfl rfl rfl
  | acceptFull | acceptReject => exact ⟨hs.closeFd _, by simp, List.forall_mem_nil _⟩
  | acceptAddFd => exact ⟨hs.congr rfl rfl rfl rfl, le_rfl, List.forall_mem_nil _⟩
  | acceptConnection fd k =>
    refine ⟨⟨fun fd c hc => ?_, fun c hc => ?_, fun e he c hc => ?_⟩, Nat.le_succ _, ?_⟩
    · exact Nat.lt_succ_of_lt (hs.connections fd c hc)
    · exact Nat.lt_succ_of_lt (hs.tasks c hc)
    · exact Nat.lt_succ_of_lt (hs.log e he c hc)
    · simp [refs, Shared.setConn]
  | acceptInsert fd c k =>
    have hc : c < s.created := hpc c (by simp [refs])
    refine ⟨Shared.Bounded.emit ?_ rfl hc, le_rfl, List.forall_mem_nil _⟩
    refine ⟨fun fd' c' hl => ?_, hs.tasks, hs.log⟩
    by_cases hfd : fd' = fd
    · rw [hfd, AList.lookup_insert] at hl
      exact Option.some.inj hl ▸ hc
    · rw [AList.lookup_insert_ne hfd] at hl
      exact hs.connections fd' c' hl
  | dataFound fd c k hl | writeFound fd c k hl =>
    exact ⟨hs, le_rfl, by simpa [refs, SubPc.refs] using hs.connections fd c hl⟩
  | recvFails fd c k why => exact ⟨hs.emit rfl (hpc c (by simp [refs])), le_rfl, List.forall_mem_nil _⟩
  | tooLarge fd c chunk k => exact ⟨hs.emit rfl (hpc c (by simp [refs])), le_rfl, hpc⟩
  | completes fd c chunk k =>
    have hc : c < s.created := hpc c (by simp [refs])
    exact ⟨((hs.emit rfl hc).setConn _ _).emit rfl hc, le_rfl, hpc⟩
  | appends fd c chunk k =>
    exact ⟨(hs.emit rfl (hpc c (by simp [refs]))).setConn _ _, le_rfl, hpc⟩
  | dataErase => exact ⟨hs.unregister _, by simp, by simpa [refs] using hpc⟩
  | dataRemoveFd => exact ⟨hs.congr rfl rfl rfl rfl, le_rfl, hpc⟩
  | dataCloseFd => exact ⟨hs.closeFd _, by simp, by simpa [refs] using hpc⟩
  | push c k =>
    refine ⟨⟨hs.connections, fun c' hc' => ?_, hs.log⟩, le_rfl, List.forall_mem_nil _⟩
    rcases List.mem_append.mp hc' with hc' | hc'
    · exact hs.tasks c' hc'
    · exact List.mem_singleton.mp hc' ▸ hpc c (by simp [refs])
  | cleanupLock now =>
    refine ⟨hs, le_rfl, fun c hc => ?_⟩
    simp only [refs, List.map_map, List.mem_map, Function.comp_apply] at hc
    obtain ⟨e, he, rfl⟩ := hc
    exact hs.connections e.1 e.2 (AList.mem_lookup_iff.mpr he)
  | sweeps now fd c rest inactive =>
    exact ⟨hs.emit rfl (hpc c (by simp [refs])), le_rfl,
      fun c' hc' => hpc c' (List.mem_cons_of_mem _ hc')⟩
  | spares => exact ⟨hs, le_rfl, fun c' hc' => hpc c' (List.mem_cons_of_mem _ hc')⟩
  | sub p ret next h₁ =>
    obtain ⟨hb, hn, hr⟩ := SubPc.exec_bounded hs hpc h₁
    refine ⟨hb, hn.ge, ?_⟩
    cases next with
    | none => cases ret <;> exact List.forall_mem_nil _
    | some p' => exact hr
  | _ => first | exact ⟨hs, le_rfl, hpc⟩ | exact ⟨hs, le_rfl, List.forall_mem_nil _⟩

end EventPc

namespace WorkerPc

theorem exec_bounded {s : Shared} {pc : WorkerPc} {i s' pc'} (hs : s.Bounded)
    (hpc : ∀ c ∈ pc.refs, c < s.created) (h : pc.exec s i = some (s', pc')) :
    s'.Bounded ∧ s'.created = s.created ∧ ∀ c ∈ pc'.refs, c < s'.created := by
  cases exec_steps h with
  | take c rest hl =>
    have htasks := hl ▸ hs.tasks
    exact ⟨⟨hs.connections, fun c' hc' => htasks c' (List.mem_cons_of_mem _ hc'), hs.log⟩, rfl,
      List.forall_mem_singleton.mpr (htasks c (by simp))⟩
  | parse c | parseInvalid c =>
    exact ⟨hs.emit rfl (hpc c (by simp [refs, carries, stage])), rfl, hpc⟩
  | keep => exact ⟨hs.setConn _ _, rfl, hpc⟩
  | unreg => exact ⟨hs.setConn _ _, rfl, List.forall_mem_nil _⟩
  | store c response =>
    have hc : c < s.created := hpc c (by simp [refs, carries, stage])
    exact ⟨(hs.setConn _ _).emit rfl hc, rfl,
      List.forall_mem_cons.mpr ⟨hc, List.forall_mem_singleton.mpr hc⟩⟩
  | sub p c next h₁ =>
    have hc : c < s.created := hpc c (by simp [refs])
    obtain ⟨hb, hn, hr⟩ :=
      SubPc.exec_bounded hs (fun c' hc' => hpc c' (List.mem_cons_of_mem _ hc')) h₁
    refine ⟨hb, hn, ?_⟩
    cases next with
    | none => simpa [resume, refs, carries, stage, hn] using hc
    | some p' => exact List.forall_mem_cons.mpr ⟨hn ▸ hc, hr⟩
  | finish c =>
    have hc : c < s.created := hpc c (by simp [refs, carries, stage])
    exact ⟨(hs.setConn _ _).emit rfl hc, rfl, List.forall_mem_nil _⟩
  | _ => exact ⟨hs, rfl, hpc⟩

end WorkerPc

theorem StopPc.exec_bounded {s : Shared} {pc : StopPc} {a b s' pc'} (hs : s.Bounded)
    (h : pc.exec s a b = some (s', pc')) : s'.Bounded ∧ s'.created = s.created := by
  cases exec_steps h with
  | notCalled =>
    refine ⟨Shared.Bounded.emit_of_none ?_ rfl, rfl⟩
    exact hs.congr rfl rfl rfl rfl
  | close fd rest =>
    have hb : (s.removeFd fd).Bounded := hs.congr rfl rfl rfl rfl
    exact ⟨hb.closeFd fd, by simp [Shared.removeFd]⟩
  | clear => exact ⟨⟨by simp, hs.tasks, hs.log⟩, rfl⟩
  | _ => exact ⟨hs.congr rfl rfl rfl rfl, rfl⟩

namespace Server

variable {n : Nat}

/-- Every connection the state mentions has been constructed. -/
structure Bounded (s : Server n) : Prop where
  shared : s.shared.Bounded
  event : ∀ c ∈ s.event.refs, c < s.shared.created
  worker : ∀ w, ∀ c ∈ (s.worker w).refs, c < s.shared.created

theorem bounded {ok} {s : Server n} (h : (system n).ReachableBy ok s) : s.Bounded := by
  refine h.invariant (I := Bounded) ?_ ?_
  · intro s hinit
    obtain ⟨_, _, _, _, rfl⟩ := hinit
    exact ⟨⟨nofun, nofun, nofun⟩, nofun, fun _ => nofun⟩
  intro s a s' _ hb _ hs
  cases step_cases hs with
  | event i sh pc he =>
    obtain ⟨hb', hn, hr⟩ := EventPc.exec_bounded hb.shared hb.event he
    exact ⟨hb', hr, fun w c hc => lt_of_lt_of_le (hb.worker w c hc) hn⟩
  | worker w i sh pc he =>
    obtain ⟨hb', hn, hr⟩ := WorkerPc.exec_bounded hb.shared (hb.worker w) he
    refine ⟨hb', fun c hc => hn ▸ hb.event c hc, fun w' c hc => ?_⟩
    by_cases hw : w' = w
    · subst hw
      exact hr c (by simpa using hc)
    · exact hn ▸ hb.worker w' c (by simpa [hw] using hc)
  | stop wl el sh pc he =>
    obtain ⟨hb', hn⟩ := StopPc.exec_bounded hb.shared he
    exact ⟨hb', fun c hc => hn ▸ hb.event c hc, fun w c hc => hn ▸ hb.worker w c hc⟩
  | tick => exact ⟨hb.shared.congr rfl rfl rfl rfl, hb.event, hb.worker⟩

end Server

end Webserver
