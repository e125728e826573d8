/-
What one step does to one connection: to its object, to the events that are
about it, and to the task it has with the pool. `EventPc.exec_touch` and
`WorkerPc.exec_touch` say it once; the invariants of a connection are proved
from them, without looking at the code again.
-/
import Webserver.ServerFacts

namespace Webserver

open Cxx Locks Systems

/-! ## The history of a connection -/

/-- The connection an event is about. -/
def Event.about : Event → Option ConnId
  | .registered c | .unregistered c | .recvFailed c _ | .tooLarge c | .received c _
  | .dispatched c | .parsed c _ | .stored c _ | .sent c _ _ | .sendFailed c _ | .finished c
  | .cleared c | .swept c => some c
  | .accepted _ _ | .closed _ _ | .stopping => none

/-- The events about connection `c`. -/
def history (c : ConnId) (log : List Event) : List Event := log.filter (·.about = some c)

/-- An event that leaves a connection's object as it is. -/
def Event.isNote : Event → Bool
  | .registered _ | .unregistered _ | .recvFailed _ _ | .tooLarge _ | .swept _ => true
  | _ => false

/-- An event of `send_response_async`. -/
def Event.isOutput : Event → Bool
  | .sent _ _ _ | .sendFailed _ _ | .finished _ => true
  | _ => false

theorem history_append {c l l'} : history c (l ++ l') = history c l ++ history c l' :=
  List.filter_append ..

theorem history_emit {c log} {e : Event} (h : e.about = some c) :
    history c (log ++ [e]) = history c log ++ [e] := by simp [history, h]

/-- A step that only logs an event of the connection, whatever else it changes. -/
theorem history_of_eq_emit {s s₁ s' : Shared} {c} {e : Event} (hs : s' = s₁.emit e) (hl : s₁.log = s.log)
    (h : e.about = some c) : history c s'.log = history c s.log ++ [e] := by
  rw [hs, ← hl]
  exact history_emit h

theorem history_emit_of_ne {c log} {e : Event} (h : e.about ≠ some c) :
    history c (log ++ [e]) = history c log := by simp [history, h]

theorem mem_history {c log} {e : Event} (h : e.about = some c) : e ∈ history c log ↔ e ∈ log := by
  simp [history, h]

@[simp] theorem history_closeFd (c : ConnId) (s : Shared) (fd : Fd) :
    history c (s.closeFd fd).log = history c s.log := by
  unfold Shared.closeFd
  split
  · rfl
  · simp [history, Shared.emit, Shared.removeFd, Event.about]

/-- Whenever an event with `P` occurs, what went before satisfies `Q`. -/
def Whenever (P : Event → Prop) (Q : List Event → Prop) (hist : List Event) : Prop :=
  ∀ l e r, hist = l ++ e :: r → P e → Q l

namespace Whenever

variable {P : Event → Prop} {Q : List Event → Prop} {hist l : List Event}

theorem nil : Whenever P Q [] := by
  intro l e r h
  simp at h

theorem concat {e : Event} (h : Whenever P Q hist) (he : P e → Q hist) :
    Whenever P Q (hist ++ [e]) := by
  intro l e' r hlr hp
  rcases List.eq_nil_or_concat r with rfl | ⟨r', e'', rfl⟩
  · obtain ⟨rfl, he'⟩ := List.append_inj' hlr rfl
    exact he ((List.cons.inj he').1 ▸ hp)
  · rw [List.concat_eq_append, ← List.cons_append, ← List.append_assoc] at hlr
    exact h l e' r' (List.append_inj' hlr rfl).1 hp

theorem append (h : Whenever P Q hist) (hl : ∀ e ∈ l, ¬ P e) : Whenever P Q (hist ++ l) := by
  induction l using List.reverseRecOn with
  | nil => rwa [List.append_nil]
  | append_singleton l e ih =>
    rw [← List.append_assoc]
    exact (ih fun e' he' => hl e' (by simp [he'])).concat fun hp => absurd hp (hl e (by simp))

end Whenever

/-! ## Stages of a task -/

/-- How far the task of a connection has come: its request not yet parsed,
parsed and the response not yet stored, given up since the connection is no
longer registered, or the response stored. -/
inductive Stage
  | waiting | answering | leaving | sending
  deriving DecidableEq

namespace WorkerPc

/-- The connection whose task a worker runs, and how far it has come. -/
def stage : WorkerPc → Option (ConnId × Stage)
  | parseLock c | parse c => some (c, .waiting)
  | keepLock c _ | keep c _ | respond c _ | checkLock c _ | check c _ | checkUnlock c _
  | storeLock c _ | store c _ => some (c, .answering)
  | unregLock c | unreg c => some (c, .leaving)
  | sub _ c | finishLock c | finish c => some (c, .sending)
  | idle | unregUnlock | exited => none

@[simp] theorem stage_resume (c : ConnId) (next : Option SubPc) :
    (resume c next).stage = some (c, .sending) := by cases next <;> rfl

/-- The connection whose task a worker runs. -/
def carries (pc : WorkerPc) : Option ConnId := pc.stage.map (·.1)

end WorkerPc

namespace EventPc

/-- The connection whose task the event thread is about to hand to the pool. -/
def carries : EventPc → Option ConnId
  | dataUnlock c true _ | enqueue c _ | push c _ => some c
  | _ => none

@[simp] theorem carries_resume (ret : EventRet) (next : Option SubPc) :
    (resume ret next).carries = none := by
  cases next <;> cases ret <;> rfl

/-- The tasks of `c` that no worker has taken yet. -/
def queued (s : Shared) (pc : EventPc) (c : ConnId) : Nat :=
  s.tasks.count c + if pc.carries = some c then 1 else 0

end EventPc

/-! ## Touches -/

namespace SubPc

/-- Two states of a connection that differ only in what is to be sent. -/
structure SameInput (conn conn' : Connection) : Prop where
  fd : conn'.fd = conn.fd
  sock : conn'.sock = conn.sock
  buffer : conn'.buffer = conn.buffer
  processing : conn'.processingRequest = conn.processingRequest

/-- What `send_response_async` leaves alone. -/
structure Frame (s : Shared) (c : ConnId) (s' : Shared) : Prop where
  tasks : s'.tasks = s.tasks
  connections : s'.connections = s.connections
  fds : s'.fds = s.fds
  created : s'.created = s.created
  accepted : s'.accepted = s.accepted
  poolShutdown : s'.poolShutdown = s.poolShutdown
  conn : SameInput (s.heap c) (s'.heap c)
  heap : ∀ c', c' ≠ c → s'.heap c' = s.heap c'
  history : ∀ c', c' ≠ c → history c' s'.log = history c' s.log

theorem SameInput.refl (conn : Connection) : SameInput conn conn := ⟨rfl, rfl, rfl, rfl⟩

theorem Frame.refl (s : Shared) (c : ConnId) : Frame s c s :=
  ⟨rfl, rfl, rfl, rfl, rfl, rfl, .refl _, fun _ _ => rfl, fun _ _ => rfl⟩

theorem Frame.trans {s s' s'' : Shared} {c} (h : Frame s c s') (h' : Frame s' c s'') :
    Frame s c s'' where
  tasks := h'.tasks.trans h.tasks
  connections := h'.connections.trans h.connections
  fds := h'.fds.trans h.fds
  created := h'.created.trans h.created
  accepted := h'.accepted.trans h.accepted
  poolShutdown := h'.poolShutdown.trans h.poolShutdown
  conn := ⟨h'.conn.fd.trans h.conn.fd, h'.conn.sock.trans h.conn.sock,
    h'.conn.buffer.trans h.conn.buffer, h'.conn.processing.trans h.conn.processing⟩
  heap c' hc := (h'.heap c' hc).trans (h.heap c' hc)
  history c' hc := (h'.history c' hc).trans (h.history c' hc)

theorem Frame.modifyFd {s s' : Shared} {c : ConnId} (h : Frame s c s') (fd out ok) :
    Frame s c (s'.modifyFd fd out ok) := by
  refine h.trans ⟨?_, ?_, ?_, ?_, ?_, ?_, ?_, fun _ _ => ?_, fun _ _ => ?_⟩ <;> simp [SameInput.refl]

theorem Frame.emit {s s' : Shared} {c : ConnId} (h : Frame s c s') {e : Event}
    (he : e.about = some c) : Frame s c (s'.emit e) :=
  h.trans ⟨rfl, rfl, rfl, rfl, rfl, rfl, .refl _, fun _ _ => rfl,
    fun _ hc => history_emit_of_ne (by simpa [he] using Ne.symm hc)⟩

theorem Frame.setConn {s s' : Shared} {c : ConnId} (h : Frame s c s') {conn : Connection}
    (same : SameInput (s'.heap c) conn) : Frame s c (s'.setConn c conn) :=
  h.trans ⟨rfl, rfl, rfl, rfl, rfl, rfl, by simpa [Shared.setConn] using same,
    fun c' hc => by simp [Shared.setConn, hc], fun _ _ => rfl⟩

theorem sendDone_frame {s s' : Shared} {c : ConnId} (h : Frame s c s') (ctl : Bool) :
    Frame s c (sendDone s' c ctl).1 := by
  simp only [sendDone]
  split
  · refine Frame.modifyFd (Frame.setConn h ?_) _ _ _
    exact ⟨rfl, rfl, rfl, rfl⟩
  · refine Frame.emit (Frame.modifyFd (Frame.setConn h ?_) _ _ _) rfl
    exact ⟨rfl, rfl, rfl, rfl⟩

/-- What is left to send of the response in the slot. -/
def rest (conn : Connection) : Bytes := conn.pendingResponse.drop conn.responseOffset

/-- The kernel has taken `n` more bytes of the response. -/
def handed (s : Shared) (c : ConnId) (k : Sock) (n : Nat) : Shared :=
  (s.setConn c { s.heap c with responseOffset := (s.heap c).responseOffset + n }).emit
    (.sent c k ((rest (s.heap c)).take n))

theorem handed_frame (s : Shared) (c : ConnId) (k : Sock) (n : Nat) : Frame s c (handed s c k n) := by
  refine Frame.emit (Frame.setConn (.refl s c) ?_) rfl
  exact ⟨rfl, rfl, rfl, rfl⟩

/-- The ways the section of `send_response_async` ends. -/
inductive Sends (s : Shared) (c : ConnId) (r : SendResult) : Shared × Option SubPc → Prop
  | nothing (h : (s.heap c).hasPendingWrite = false) : Sends s c r (s, none)
  | empty (ctl) (h : (s.heap c).hasPendingWrite) (hrest : rest (s.heap c) = []) :
      Sends s c r (sendDone s c ctl)
  | blocked (ctl) (h : (s.heap c).hasPendingWrite) :
      Sends s c r (s.modifyFd (s.heap c).fd true ctl, none)
  | failed (h : (s.heap c).hasPendingWrite) (hr : r = .interrupted ∨ r = .error ∨ r = .accepts 0) :
      Sends s c r (sendFailed s c r)
  | whole (k ctl) (h : (s.heap c).hasPendingWrite) (hk : s.fds (s.heap c).fd = some k) :
      Sends s c r (sendDone (handed s c k (rest (s.heap c)).length) c ctl)
  | part (k n ctl) (h : (s.heap c).hasPendingWrite) (hk : s.fds (s.heap c).fd = some k)
      (hn : n < (rest (s.heap c)).length) :
      Sends s c r ((handed s c k n).modifyFd (s.heap c).fd true ctl, none)

theorem sendStep_cases {s : Shared} {c r ctl out} (h : sendStep s c r ctl = some out) :
    Sends s c r out := by
  simp only [sendStep] at h
  split at h
  · next hp =>
    cases h
    exact .nothing (by simpa using hp)
  · next hp =>
    have hp : (s.heap c).hasPendingWrite = true := by simpa using hp
    split at h
    · next hrest =>
      cases h
      exact .empty ctl hp hrest
    · split at h
      · cases h; exact .blocked ctl hp
      · cases h; exact .failed hp (by simp)
      · cases h; exact .failed hp (by simp)
      · cases h; exact .failed hp (by simp)
      · next n _ =>
        split at h
        · cases h
        · next k hk =>
          split at h
          · cases h
          · next hle =>
            split at h
            · next hn =>
              cases h
              subst hn
              exact .whole k ctl hp hk
            · next hn =>
              cases h
              exact .part k n ctl hp hk (lt_of_le_of_ne (Nat.not_lt.mp hle) (Ne.symm hn))

theorem sendStep_frame {s : Shared} {c r ctl s' next} (h : sendStep s c r ctl = some (s', next)) :
    Frame s c s' := by
  generalize hout : (s', next) = out at h
  have hs : s' = out.1 := by rw [← hout]
  rw [hs]
  cases sendStep_cases h with
  | nothing => exact .refl s c
  | empty ctl => exact sendDone_frame (.refl s c) ctl
  | blocked ctl => exact (Frame.refl s c).modifyFd _ true ctl
  | failed =>
    refine Frame.emit (Frame.setConn (.refl s c) ?_) rfl
    exact ⟨rfl, rfl, rfl, rfl⟩
  | whole k ctl => exact sendDone_frame (handed_frame s c k _) ctl
  | part k n ctl => exact (handed_frame s c k n).modifyFd _ true ctl

theorem sendDone_history (s : Shared) (c : ConnId) (ctl : Bool) :
    history c (sendDone s c ctl).1.log = history c s.log ∨
      history c (sendDone s c ctl).1.log = history c s.log ++ [.finished c] := by
  simp only [sendDone]
  split
  · exact .inl (by simp [Shared.setConn])
  · exact .inr (by rw [Shared.emit_log, history_emit rfl]; simp [Shared.setConn])

/-- `send_response_async` only adds events about sending. -/
theorem sendStep_history {s : Shared} {c r ctl s' next} (h : sendStep s c r ctl = some (s', next)) :
    ∃ l, history c s'.log = history c s.log ++ l ∧ ∀ e ∈ l, e.isOutput := by
  have done : ∀ (s₁ : Shared) (ctl : Bool) (l : List Event),
      history c s₁.log = history c s.log ++ l → (∀ e ∈ l, e.isOutput) →
      ∃ l', history c (sendDone s₁ c ctl).1.log = history c s.log ++ l' ∧ ∀ e ∈ l', e.isOutput := by
    intro s₁ ctl l hl hk
    rcases sendDone_history s₁ c ctl with h | h
    · exact ⟨l, by rw [h, hl], hk⟩
    · exact ⟨l ++ [.finished c], by rw [h, hl, List.append_assoc],
        by simpa [or_imp, forall_and, Event.isOutput] using hk⟩
  have handed : ∀ k m, history c (handed s c k m).log =
      history c s.log ++ [.sent c k ((rest (s.heap c)).take m)] := fun _ _ => history_emit rfl
  generalize hout : (s', next) = out at h
  have hs : s' = out.1 := by rw [← hout]
  rw [hs]
  cases sendStep_cases h with
  | nothing => exact ⟨[], by simp, nofun⟩
  | empty ctl => exact done s ctl [] (by simp) nofun
  | blocked ctl => exact ⟨[], by simp, nofun⟩
  | failed => exact ⟨[.sendFailed c r], history_emit rfl, by simp [Event.isOutput]⟩
  | whole k ctl => exact done _ ctl _ (handed k _) (by simp [Event.isOutput])
  | part k m ctl =>
    exact ⟨_, (congrArg (history c) (Shared.modifyFd_log ..)).trans (handed k m),
      by simp [Event.isOutput]⟩

/-- What a step of the two functions does to connection `c`. -/
inductive Touch (s : Shared) (p : SubPc) (c : ConnId) (s' : Shared) (next : Option SubPc) : Prop
  | away (heap : s'.heap c = s.heap c) (hist : history c s'.log = history c s.log)
  | unregistered (heap : s'.heap c = s.heap c)
      (hist : history c s'.log = history c s.log ++ [.unregistered c])
      (found : ∃ fd, p = .closeErase fd ∧ s.connections.lookup fd = some c)
  | send (r ctl) (hp : p = .send c) (h : sendStep s c r ctl = some (s', next))

theorem unregister_touch (s : Shared) (fd : Fd) (c : ConnId) :
    history c (s.unregister fd).log = history c s.log ∨
      (history c (s.unregister fd).log = history c s.log ++ [.unregistered c] ∧
        s.connections.lookup fd = some c) := by
  unfold Shared.unregister
  split
  · exact .inl rfl
  · next c' h =>
    rcases eq_or_ne c' c with rfl | hne
    · exact .inr ⟨history_emit rfl, h⟩
    · exact .inl (history_emit_of_ne (by simpa [Event.about] using hne))

theorem exec_touch {s : Shared} {p : SubPc} {i s' next} (c : ConnId)
    (h : p.exec s i = some (s', next)) : Touch s p c s' next := by
  cases exec_steps h with
  | closeErase fd =>
    rcases unregister_touch s fd c with hist | ⟨hist, found⟩
    · exact .away (by simp) hist
    · exact .unregistered (by simp) hist ⟨fd, rfl, found⟩
  | closeFd fd => exact .away (by simp) (by simp)
  | send c' r ctl h₁ =>
    rcases eq_or_ne c c' with rfl | hne
    · exact .send r ctl rfl h₁
    · have := sendStep_frame h₁
      exact .away (this.heap c hne) (this.history c hne)
  | _ => exact .away rfl rfl

theorem exec_tasks {s : Shared} {p : SubPc} {i s' next} (h : p.exec s i = some (s', next)) :
    s'.tasks = s.tasks ∧ s'.poolShutdown = s.poolShutdown := by
  cases exec_steps h with
  | closeErase fd | closeFd fd => simp
  | send c r ctl h₁ => exact ⟨(sendStep_frame h₁).tasks, (sendStep_frame h₁).poolShutdown⟩
  | _ => exact ⟨rfl, rfl⟩

end SubPc

namespace EventPc

/-- A step keeps the tasks of `c` that no worker has taken; only where
`enqueue` throws is one dropped. -/
def KeepsTasks (s : Shared) (pc : EventPc) (c : ConnId) (s' : Shared) (pc' : EventPc) : Prop :=
  queued s' pc' c ≤ queued s pc c ∧ (s.poolShutdown = false → queued s' pc' c = queued s pc c)

/-- The descriptor whose entry the event thread erases. -/
def erasing : EventPc → Option Fd
  | dataErase fd _ _ | sub (.closeErase fd) _ => some fd
  | _ => none

/-- What a step of the event thread does to connection `c`. -/
inductive Touch (s : Shared) (pc : EventPc) (c : ConnId) (s' : Shared) (pc' : EventPc) : Prop
  | away (heap : s'.heap c = s.heap c) (hist : history c s'.log = history c s.log)
      (tasks : KeepsTasks s pc c s' pc')
  | noted (e : Event) (note : e.isNote) (heap : s'.heap c = s.heap c)
      (hist : history c s'.log = history c s.log ++ [e]) (tasks : KeepsTasks s pc c s' pc')
      (found : e = .unregistered c → ∃ fd, pc.erasing = some fd ∧ s.connections.lookup fd = some c)
  | created (fd) (hc : c = s.created)
      (heap : s'.heap c = { fd := fd, lastActivity := s.clock, sock := s.fds fd })
      (hist : history c s'.log = history c s.log) (tasks : KeepsTasks s pc c s' pc')
  | append (fd chunk k) (hpc : pc = dataAppend fd c chunk k) (fits : overflows s c chunk = false)
      (h : appendStep s fd c chunk k = (s', pc'))
  | send (ret r ctl next) (hpc : pc = sub (.send c) ret) (hpc' : pc' = resume ret next)
      (h : SubPc.sendStep s c r ctl = some (s', next)) (tasks : KeepsTasks s pc c s' pc')

theorem Touch.of_emit {s s' : Shared} {pc pc' : EventPc} {c c' : ConnId} {e : Event}
    (note : e.isNote) (about : e.about = some c') (heap : s'.heap = s.heap)
    (log : s'.log = s.log ++ [e]) (tasks : KeepsTasks s pc c s' pc')
    (stays : ∀ c, e ≠ .unregistered c) : Touch s pc c s' pc' := by
  rcases eq_or_ne c' c with rfl | hne
  · exact .noted e note (by rw [heap]) (by rw [log, history_emit about]) tasks
      fun he => absurd he (stays _)
  · exact .away (by rw [heap])
      (by rw [log, history_emit_of_ne (by simpa [about] using hne)]) tasks

theorem KeepsTasks.of_same {s s' : Shared} {pc pc' : EventPc} {c : ConnId}
    (ht : s'.tasks = s.tasks) (hp : pc'.carries = pc.carries) : KeepsTasks s pc c s' pc' := by
  simp [KeepsTasks, queued, ht, hp]

theorem appendStep_touch {s : Shared} {fd c chunk k s' pc'}
    (h : appendStep s fd c chunk k = (s', pc')) : Touch s (dataAppend fd c chunk k) c s' pc' := by
  by_cases fits : overflows s c chunk = true
  · rw [appendStep, if_pos fits] at h
    obtain ⟨rfl, rfl⟩ := Prod.mk.inj h
    exact .of_emit rfl rfl rfl rfl (.of_same rfl rfl) (by simp)
  · exact .append fd chunk k rfl (by simpa using fits) h

theorem appendStep_away {s : Shared} {fd c c' chunk k s' pc'} (hne : c' ≠ c)
    (h : appendStep s fd c' chunk k = (s', pc')) :
    s'.heap c = s.heap c ∧ history c s'.log = history c s.log ∧
      KeepsTasks s (dataAppend fd c' chunk k) c s' pc' := by
  simp only [appendStep] at h
  repeat' split at h
  all_goals
    obtain ⟨rfl, rfl⟩ := Prod.mk.inj h
    refine ⟨?_, ?_, ?_⟩
    · simp [Shared.emit, Shared.setConn, Ne.symm hne]
    · simp [Shared.emit, Shared.setConn, history, Event.about, hne]
    · simp [KeepsTasks, queued, carries, Shared.emit, Shared.setConn, hne]

/-- How a chunk that fits is appended: a request that it completes is dispatched
where no other is in progress. -/
inductive Appended (s : Shared) (c : ConnId) (chunk : Bytes) (k : List Call) (s' : Shared)
    (pc' : EventPc) : Prop
  | completes (idle : (s.heap c).processingRequest = false)
      (complete : isHttpRequestComplete ((s.heap c).buffer ++ chunk) = true)
      (heap : s'.heap c = { s.heap c with
        buffer := (s.heap c).buffer ++ chunk, lastActivity := s.clock, processingRequest := true })
      (hist : history c s'.log = history c s.log ++ [.received c chunk, .dispatched c])
      (tasks : s'.tasks = s.tasks) (hpc' : pc' = dataUnlock c true k)
  | waits (incomplete : (s.heap c).processingRequest = false →
        isHttpRequestComplete ((s.heap c).buffer ++ chunk) = false)
      (heap : s'.heap c = { s.heap c with
        buffer := (s.heap c).buffer ++ chunk, lastActivity := s.clock })
      (hist : history c s'.log = history c s.log ++ [.received c chunk])
      (tasks : s'.tasks = s.tasks) (hpc' : pc' = dataUnlock c false k)

theorem appendStep_cases {s : Shared} {fd c chunk k s' pc'} (fits : overflows s c chunk = false)
    (h : appendStep s fd c chunk k = (s', pc')) : Appended s c chunk k s' pc' := by
  simp only [appendStep, fits, Bool.false_eq_true, if_false] at h
  split at h <;> obtain ⟨rfl, rfl⟩ := Prod.mk.inj h
  · next hp =>
    simp only [Bool.and_eq_true, Bool.not_eq_true'] at hp
    exact .completes hp.1 hp.2 (by simp [Shared.emit, Shared.setConn])
      (by simp [Shared.emit, Shared.setConn, history, Event.about]) rfl rfl
  · next hnot =>
    simp only [Bool.and_eq_true, Bool.not_eq_true', not_and, Bool.not_eq_true] at hnot
    exact .waits hnot (by simp [Shared.setConn])
      (by simp [Shared.emit, Shared.setConn, history, Event.about]) rfl rfl

theorem exec_touch {s : Shared} {pc : EventPc} {i s' pc'} (c : ConnId)
    (h : pc.exec s i = some (s', pc')) : Touch s pc c s' pc' := by
  cases exec_steps h with
  | accept fd k => exact .away rfl (history_emit_of_ne nofun) (.of_same rfl rfl)
  | acceptFull fd | acceptReject fd | dataCloseFd fd => exact .away (by simp) (by simp) (.of_same (by simp) rfl)
  | acceptConnection fd k =>
    rcases eq_or_ne c s.created with rfl | hne
    · exact .created fd rfl (by simp [Shared.setConn]) rfl (.of_same rfl rfl)
    · exact .away (by simp [Shared.setConn, hne]) rfl (.of_same rfl rfl)
  | acceptInsert fd c' k =>
    exact .of_emit (s := { s with connections := _ }) rfl rfl rfl rfl (.of_same rfl rfl) (by simp)
  | recvFails | sweeps => exact .of_emit rfl rfl rfl rfl (.of_same rfl rfl) (by simp)
  | tooLarge fd c' chunk k | completes fd c' chunk k | appends fd c' chunk k =>
    rcases eq_or_ne c' c with rfl | hne
    · exact appendStep_touch (Option.some.inj h)
    · obtain ⟨heap, hist, tasks⟩ := appendStep_away hne (Option.some.inj h)
      exact .away heap hist tasks
  | dataErase fd c' k =>
    rcases SubPc.unregister_touch s fd c with hist | ⟨hist, found⟩
    · exact .away (by simp) hist (.of_same (by simp) rfl)
    · exact .noted _ rfl (by simp) hist (.of_same (by simp) rfl) fun _ => ⟨fd, rfl, found⟩
  | throws c' k hs => exact .away rfl rfl ⟨by simp [queued, carries], by simp [hs]⟩
  | push c' k =>
    have tasks : queued { s with tasks := s.tasks ++ [c'] } (batch k) c = queued s (push c' k) c := by
      simp [queued, carries, List.count_append, List.count_singleton]
    exact .away rfl rfl ⟨tasks.le, fun _ => tasks⟩
  | sub p ret next h₁ =>
    have tasks : KeepsTasks s (sub p ret) c s' (resume ret next) :=
      .of_same (SubPc.exec_tasks h₁).1 (carries_resume ret next)
    cases SubPc.exec_touch c h₁ with
    | away heap hist => exact .away heap hist tasks
    | unregistered heap hist found =>
      obtain ⟨fd, rfl, found⟩ := found
      exact .noted _ rfl heap hist tasks fun _ => ⟨fd, rfl, found⟩
    | send r ctl hp h => exact hp ▸ .send ret r ctl next rfl rfl h (hp ▸ tasks)
  | _ => exact .away rfl rfl (.of_same rfl rfl)

end EventPc

namespace WorkerPc

/-- How far the worker's task has come, where it is one of `c`. -/
def stageOf (pc : WorkerPc) (c : ConnId) : Option Stage :=
  (pc.stage.filter (·.1 = c)).map (·.2)

/-- What a step of a worker does to connection `c`. -/
inductive Touch (s : Shared) (pc : WorkerPc) (c : ConnId) (s' : Shared) (pc' : WorkerPc) : Prop
  | away (heap : s'.heap c = s.heap c) (hist : history c s'.log = history c s.log)
      (tasks : s'.tasks.count c = s.tasks.count c) (stage : pc'.stageOf c = pc.stageOf c)
  | unregistered (heap : s'.heap c = s.heap c)
      (hist : history c s'.log = history c s.log ++ [.unregistered c])
      (tasks : s'.tasks = s.tasks) (stage : pc'.stageOf c = pc.stageOf c)
      (found : ∃ fd c', pc = sub (.closeErase fd) c' ∧ s.connections.lookup fd = some c)
  | taken (hpc : pc = idle) (hs : s.tasks = c :: s'.tasks) (hpc' : pc' = parseLock c)
      (heap : s'.heap c = s.heap c) (log : s'.log = s.log)
  | parse (request) (hpc : pc = parse c) (hr : request = HttpRequest.parse (s.heap c).buffer)
      (hs : s' = s.emit (.parsed c (s.heap c).buffer))
      (hpc' : pc' = if request.valid then keepLock c request else respond c request)
      (hstage : pc'.stage = some (c, .answering))
  | keep (request) (hpc : pc = keep c request)
      (hs : s' = s.setConn c { s.heap c with keepAlive := request.isKeepAlive })
      (hpc' : pc' = respond c request)
  | missing (response) (hpc : pc = check c response)
      (h : s.connections.lookup (s.heap c).fd = none) (hs : s' = s) (hpc' : pc' = unregLock c)
  | unreg (hpc : pc = unreg c)
      (hs : s' = s.setConn c { s.heap c with processingRequest := false }) (hpc' : pc' = unregUnlock)
  | store (response) (hpc : pc = store c response)
      (hs : s' = (s.setConn c { s.heap c with
        pendingResponse := response.toString s.order, responseOffset := 0,
        hasPendingWrite := true }).emit (.stored c (response.toString s.order)))
      (hpc' : pc' = sub (.sendLock c) c)
  | send (c' r ctl next) (hpc : pc = sub (.send c) c') (hpc' : pc' = resume c' next)
      (h : SubPc.sendStep s c r ctl = some (s', next))
  | finish (hpc : pc = finish c)
      (hs : s' = (s.setConn c { s.heap c with
        buffer := [], processingRequest := false, lastActivity := s.clock }).emit (.cleared c))
      (hpc' : pc' = idle)

theorem stageOf_of_ne {pc : WorkerPc} {c : ConnId} (h : pc.carries ≠ some c) :
    pc.stageOf c = none := by
  cases hs : pc.stage with
  | none => simp [stageOf, hs]
  | some q =>
    have : q.1 ≠ c := by simpa [carries, hs] using h
    simp [stageOf, hs, Option.filter, this]

theorem stageOf_congr {pc pc' : WorkerPc} {c : ConnId} (h : pc'.stage = pc.stage) :
    pc'.stageOf c = pc.stageOf c := by simp [stageOf, h]

/-- A step of another connection's task. -/
theorem Touch.of_ne {s s' : Shared} {pc pc' : WorkerPc} {c c' : ConnId} (hne : c' ≠ c)
    (hpc : pc.carries = some c') (hpc' : pc'.carries = some c' ∨ pc'.carries = none)
    (heap : s'.heap c = s.heap c) (hist : history c s'.log = history c s.log)
    (tasks : s'.tasks = s.tasks) : Touch s pc c s' pc' := by
  have hc : pc.carries ≠ some c := by simpa [hpc] using hne
  have hc' : pc'.carries ≠ some c := by rcases hpc' with h | h <;> simp [h, hne]
  exact .away heap hist (by rw [tasks]) ((stageOf_of_ne hc').trans (stageOf_of_ne hc).symm)

theorem exec_touch {s : Shared} {pc : WorkerPc} {i s' pc'} (c : ConnId)
    (h : pc.exec s i = some (s', pc')) : Touch s pc c s' pc' := by
  cases exec_steps h with
  | take c' rest hs =>
    rcases eq_or_ne c' c with rfl | hne
    · exact .taken rfl hs rfl rfl rfl
    · exact .away rfl rfl (by simp [hs, hne])
        (stageOf_of_ne (by simpa [carries, stage] using hne))
  | parse c' hv | parseInvalid c' hv =>
    rcases eq_or_ne c' c with rfl | hne
    · exact .parse _ rfl rfl rfl (by simp [hv]) rfl
    · exact .of_ne hne rfl (.inl rfl) rfl (history_emit_of_ne (by simpa [Event.about])) rfl
  | keep c' request =>
    rcases eq_or_ne c' c with rfl | hne
    · exact .keep _ rfl rfl rfl
    · exact .of_ne hne rfl (.inl rfl) (by simp [Shared.setConn, hne.symm]) rfl rfl
  | missing c' response hl =>
    rcases eq_or_ne c' c with rfl | hne
    · exact .missing _ rfl hl rfl rfl
    · exact .of_ne hne rfl (.inl rfl) rfl rfl rfl
  | unreg c' =>
    rcases eq_or_ne c' c with rfl | hne
    · exact .unreg rfl rfl rfl
    · exact .of_ne hne rfl (.inr rfl) (by simp [Shared.setConn, hne.symm]) rfl rfl
  | store c' response =>
    rcases eq_or_ne c' c with rfl | hne
    · exact .store _ rfl rfl rfl
    · exact .of_ne hne rfl (.inl rfl) (by simp [Shared.setConn, Shared.emit, hne.symm])
        (history_emit_of_ne (by simpa [Event.about])) rfl
  | sub p c' next h₁ =>
    have stage : (resume c' next).stageOf c = (sub p c').stageOf c := stageOf_congr (stage_resume ..)
    have tasks := (SubPc.exec_tasks h₁).1
    cases SubPc.exec_touch c h₁ with
    | away heap hist => exact .away heap hist (by rw [tasks]) stage
    | unregistered heap hist found =>
      obtain ⟨fd, rfl, found⟩ := found
      exact .unregistered heap hist tasks stage ⟨fd, c', rfl, found⟩
    | send r ctl hp h => exact hp ▸ .send c' r ctl next rfl rfl h
  | finish c' =>
    rcases eq_or_ne c' c with rfl | hne
    · exact .finish rfl rfl rfl
    · exact .of_ne hne rfl (.inr rfl) (by simp [Shared.setConn, Shared.emit, hne.symm])
        (history_emit_of_ne (by simpa [Event.about])) rfl
  -- the steps that only move on
  | _ => exact .away rfl rfl rfl rfl

end WorkerPc

/-! ## `stop()` -/

namespace StopPc

/-- `stop()` has joined the workers. -/
def workersJoined : StopPc → Bool
  | joinEvent | lock | closeAll _ | done => true
  | _ => false

/-- `stop()` has joined the event thread. -/
def eventJoined : StopPc → Bool
  | lock | closeAll _ | done => true
  | _ => false

theorem workersJoined_of_eventJoined {pc : StopPc} (h : pc.eventJoined) : pc.workersJoined := by
  cases pc <;> first | rfl | cases h

theorem exec_joined {s : Shared} {pc : StopPc} {a b s' pc'} (h : pc.exec s a b = some (s', pc')) :
    (pc'.workersJoined → pc.workersJoined ∨ a) ∧ (pc'.eventJoined → pc.eventJoined ∨ b) ∧
      (pc.eventJoined → pc'.eventJoined) := by
  cases exec_steps h <;> simp_all [workersJoined, eventJoined]

theorem not_joined_before {s : Shared} {pc : StopPc} {a b s' pc'}
    (h : pc.exec s a b = some (s', pc')) (hn : pc'.eventJoined = false) : pc.eventJoined = false := by
  by_contra hj
  have := (exec_joined h).2.2 (by simpa using hj)
  rw [hn] at this
  cases this

/-- Before it has joined the event thread, `stop()` leaves the map and the
descriptors alone. -/
theorem exec_frame {s : Shared} {pc : StopPc} {a b s' pc'} (h : pc.exec s a b = some (s', pc')) :
    s'.heap = s.heap ∧ s'.created = s.created ∧ s'.tasks = s.tasks ∧
      (∀ c, history c s'.log = history c s.log) ∧
      (pc.eventJoined = false → s'.connections = s.connections ∧ s'.fds = s.fds) := by
  cases exec_steps h with
  | notCalled => exact ⟨rfl, rfl, rfl, fun c => history_emit_of_ne nofun, fun _ => ⟨rfl, rfl⟩⟩
  | close fd rest =>
    exact ⟨by simp [Shared.removeFd], by simp [Shared.removeFd], by simp [Shared.removeFd],
      fun c => history_closeFd c _ _, nofun⟩
  | clear => exact ⟨rfl, rfl, rfl, fun _ => rfl, nofun⟩
  | _ => exact ⟨rfl, rfl, rfl, fun _ => rfl, fun _ => ⟨rfl, rfl⟩⟩

end StopPc

end Webserver
