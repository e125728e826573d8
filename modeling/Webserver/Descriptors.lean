/-
Who may close a descriptor: in every reachable state each open descriptor of
a client is either registered, for the connection constructed for it, or in
the hands of one thread, which is about to register or to close it.
-/
import Webserver.Custody
import Webserver.References

namespace Webserver

open Cxx Locks Systems

/-! ## What a thread knows and holds at a point of its code -/

/-- A connection that holds no received byte and has no task. -/
def Connection.Idle (conn : Connection) : Prop := conn.buffer = [] ∧ conn.processingRequest = false

/-- A connection that has just been constructed: never registered, and idle. -/
structure Shared.New (s : Shared) (c : ConnId) : Prop where
  idle : (s.heap c).Idle
  unregistered : .registered c ∉ s.log

namespace SubPc

/-- The descriptors a point of the two functions is about to close. -/
def hands : SubPc → List Fd
  | closeRemoveFd fd | closeFd fd => [fd]
  | _ => []

def handsNext : Option SubPc → List Fd
  | none => []
  | some p => p.hands

/-- The descriptor whose entry `close_connection` erases, once it holds no
mutex of the connection that could stop it. -/
def erases : SubPc → Option Fd
  | closeReadPending fd _ | closeErase fd => some fd
  | _ => none

/-- What `close_connection` found in the map is still there. -/
def Knows (s : Shared) : SubPc → Prop
  | closeLockConn fd c | closeReadPending fd c => s.connections.lookup fd = some c
  | closeErase fd => s.connections.lookup fd ≠ none
  | _ => True

def KnowsNext (s : Shared) : Option SubPc → Prop
  | none => True
  | some p => p.Knows s

end SubPc

namespace EventPc

/-- The descriptors the event thread is about to register or to close. -/
def hands : EventPc → List Fd
  | acceptLock fd _ | acceptCheck fd _ | acceptNonBlocking fd _ | acceptAddFd fd _
  | acceptConnection fd _ | acceptInsertLock fd _ _ | acceptInsert fd _ _ | acceptReject fd _
  | dataRemoveFd fd _ _ | dataCloseFd fd _ _ => [fd]
  | sub p _ => p.hands
  | _ => []

/-- Where `handle_client_data` has found its descriptor still registered. -/
def appends : EventPc → Option Fd
  | dataAppend fd _ _ _ | dataEraseLock fd _ _ | dataErase fd _ _ => some fd
  | _ => none

def erases : EventPc → Option Fd
  | dataErase fd _ _ => some fd
  | sub p _ => p.erases
  | _ => none

/-- What the event thread has found or made is still so. Only it registers
connections, so a descriptor it has looked up can lose its entry but not
change it. -/
def Knows (s : Shared) : EventPc → Prop
  | acceptInsertLock fd c _ | acceptInsert fd c _ =>
    ((s.heap c).fd = fd ∧ (s.heap c).sock = s.fds fd) ∧ s.New c
  | dataRecv fd c _ | dataLockConn fd c _ _ | dataLockMap fd c _ _ | dataCheck fd c _ _ =>
    ∀ c', s.connections.lookup fd = some c' → c' = c
  | dataAppend fd c _ _ | dataEraseLock fd c _ | dataErase fd c _ =>
    s.connections.lookup fd = some c
  | sub p _ => p.Knows s
  | _ => True

end EventPc

namespace WorkerPc

def hands : WorkerPc → List Fd
  | sub p _ => p.hands
  | _ => []

def erases : WorkerPc → Option Fd
  | sub p _ => p.erases
  | _ => none

def Knows (s : Shared) : WorkerPc → Prop
  | sub p _ => p.Knows s
  | _ => True

end WorkerPc

/-! ## What a step does to the map and the descriptors -/

/-- What a step of a thread that holds `held` does to the map and the
descriptors; the lists are the thread's hands before and after. Only the
event thread accepts and registers; `event` is its point and its input. -/
inductive Handles (event : Option (EventPc × Input)) (held : List Mutex) (erases : Option Fd) (s s' : Shared) :
    List Fd → List Fd → Prop
  | same {l} (conns : s'.connections = s.connections) (fds : s'.fds = s.fds) :
      Handles event held erases s s' l l
  | accept (fd k) (he : event = some (.accept k, .accepts fd)) (closed : s.fds fd = none)
      (conns : s'.connections = s.connections)
      (fds : s'.fds = Function.update s.fds fd (some s.accepted)) :
      Handles event held erases s s' [] [fd]
  | register (fd c k) (he : event = some (.acceptInsert fd c k, .go)) (hm : .connections ∈ held)
      (named : (s'.heap c).fd = fd ∧ (s'.heap c).sock = s'.fds fd)
      (logged : .registered c ∈ s'.log)
      (conns : s'.connections = s.connections.insert fd c) (fds : s'.fds = s.fds) :
      Handles event held erases s s' [fd] []
  | erase (fd) (he : erases = some fd) (hm : .connections ∈ held)
      (found : s.connections.lookup fd ≠ none) (hs : s' = s.unregister fd) :
      Handles event held erases s s' [] [fd]
  | close (fd) (conns : s'.connections = s.connections)
      (fds : s'.fds = Function.update s.fds fd none) : Handles event held erases s s' [fd] []

/-- Only under its mutex does the map change. -/
theorem Handles.connections {event held erases s s' l l'}
    (h : Handles event held erases s s' l l') :
    s'.connections = s.connections ∨ .connections ∈ held := by
  cases h with
  | same conns | close _ conns | accept _ _ _ _ conns => exact .inl conns
  | register _ _ _ _ hm | erase _ _ hm => exact .inr hm

namespace SubPc

theorem exec_handles {s : Shared} {p : SubPc} {i s' next} (event : Option (EventPc × Input)) (hk : p.Knows s)
    (h : p.exec s i = some (s', next)) :
    Handles event p.holds p.erases s s' p.hands (handsNext next) := by
  cases exec_steps h with
  | closeErase fd => exact .erase fd rfl (by simp [holds]) hk rfl
  | closeFd fd => exact .close fd (by simp) (by simp)
  | send c r ctl h₁ =>
    have frame := sendStep_frame h₁
    rcases sendStep_next h₁ with rfl | ⟨fd, rfl⟩ <;> exact .same frame.connections frame.fds
  | _ => exact .same rfl rfl

theorem exec_knows {s : Shared} {p : SubPc} {i s' next} (hk : p.Knows s)
    (h : p.exec s i = some (s', next)) : KnowsNext s' next := by
  cases exec_steps h with
  | closeFound fd c hc => exact hc
  | closeReadPending fd c =>
    intro hn
    rw [Knows, hn] at hk
    cases hk
  | send c r ctl h₁ => rcases sendStep_next h₁ with rfl | ⟨fd, rfl⟩ <;> trivial
  | _ => first | exact hk | trivial

/-- A thread that is about to erase an entry has just locked the mutex of the
connection it found there. -/
theorem exec_erases {s : Shared} {p : SubPc} {i s' next fd} (hk : p.Knows s)
    (h : p.exec s i = some (s', next)) (he : next.bind erases = some fd) :
    p.erases = some fd ∨ ∃ c, p.lockOp = .lock (.conn c) ∧ s.connections.lookup fd = some c := by
  cases exec_steps h with
  | closeLockConn fd' c =>
    obtain rfl : fd' = fd := Option.some.inj he
    exact .inr ⟨c, rfl, hk⟩
  | closeReadPending fd' c => exact .inl he
  | send c r ctl h₁ => rcases sendStep_next h₁ with rfl | ⟨fd, rfl⟩ <;> cases he
  | _ => cases he

theorem Knows.stable {s s' : Shared} {p : SubPc} (hk : p.Knows s)
    (hc : s'.connections = s.connections ∨ .connections ∉ p.holds) : p.Knows s' := by
  rcases hc with hc | hc
  · cases p <;> first | trivial | (simp only [Knows, hc] at hk ⊢; exact hk)
  · cases p <;> first | trivial | exact absurd (by simp [holds]) hc

theorem connections_of_erases {p : SubPc} {fd} (h : p.erases = some fd) : .connections ∈ p.holds := by
  cases p <;> simp_all [erases, holds]

end SubPc

namespace EventPc

theorem hands_resume (ret : EventRet) (next : Option SubPc) :
    (resume ret next).hands = SubPc.handsNext next := by
  cases next <;> cases ret <;> rfl

theorem exec_handles {s : Shared} {pc : EventPc} {i s' pc'} (hk : pc.Knows s)
    (h : pc.exec s i = some (s', pc')) :
    Handles (some (pc, i)) pc.holds pc.erases s s' pc.hands pc'.hands := by
  cases exec_steps h with
  | accept fd k free => exact .accept fd k rfl free rfl rfl
  | acceptFull fd | acceptReject fd | dataCloseFd fd => exact .close fd (by simp) (by simp)
  | acceptInsert fd c k => exact .register fd c k rfl (by simp [holds]) hk.1 (by simp) rfl rfl
  | dataErase fd c k =>
    have found : s.connections.lookup fd = some c := hk
    exact .erase fd rfl (by simp [holds]) (by simp [found]) rfl
  | sub p ret next h₁ =>
    rw [hands_resume]
    exact SubPc.exec_handles (some _) hk h₁
  | _ => exact .same rfl rfl

theorem knows_resume {s : Shared} {ret : EventRet} {next : Option SubPc}
    (h : SubPc.KnowsNext s next) : (resume ret next).Knows s := by
  cases next <;> cases ret <;> trivial

theorem exec_knows {s : Shared} {pc : EventPc} {i s' pc'} (hb : s.Bounded) (hk : pc.Knows s)
    (h : pc.exec s i = some (s', pc')) : pc'.Knows s' := by
  cases exec_steps h with
  | acceptConnection fd k =>
    have unregistered : .registered s.created ∉ s.log :=
      fun hm => Nat.lt_irrefl _ (hb.log _ hm s.created rfl)
    exact ⟨by simp [Shared.setConn], by simp [Shared.setConn, Connection.Idle], unregistered⟩
  | dataFound fd c k hl | writeFound fd c k hl => simp [Knows, SubPc.Knows, hl]
  | dataCheck fd c chunk k hl =>
    obtain ⟨c', hc'⟩ := Option.ne_none_iff_exists'.mp hl
    have : c' = c := hk c' hc'
    exact this ▸ hc'
  | sub p ret next h₁ => exact knows_resume (SubPc.exec_knows hk h₁)
  | _ => first | exact hk | trivial

theorem appends_resume (ret : EventRet) (next : Option SubPc) : (resume ret next).appends = none := by
  cases next <;> cases ret <;> rfl

/-- The event thread finds the descriptor registered while it holds the map's mutex. -/
theorem exec_appends {s : Shared} {pc : EventPc} {i s' pc' fd}
    (h : pc.exec s i = some (s', pc')) (ha : pc'.appends = some fd) :
    pc.appends = some fd ∨ .connections ∈ pc.holds := by
  cases exec_steps h with
  | dataCheck fd c chunk k => exact .inr (by simp [holds])
  | sub p ret next =>
    rw [appends_resume] at ha
    cases ha
  | _ => first | exact .inl ha | cases ha

theorem holds_of_appends {s : Shared} {pc : EventPc} {fd} (hk : pc.Knows s)
    (ha : pc.appends = some fd) :
    ∃ c, s.connections.lookup fd = some c ∧ .conn c ∈ pc.holds := by
  cases pc <;> simp only [appends, Option.some.injEq, reduceCtorEq] at ha
  all_goals
    subst ha
    exact ⟨_, hk, by simp [holds]⟩

end EventPc

namespace WorkerPc

theorem hands_resume (c : ConnId) (next : Option SubPc) :
    (resume c next).hands = SubPc.handsNext next := by
  cases next <;> rfl

theorem exec_handles {s : Shared} {pc : WorkerPc} {i s' pc'} (hk : pc.Knows s)
    (h : pc.exec s i = some (s', pc')) :
    Handles none pc.holds pc.erases s s' pc.hands pc'.hands := by
  cases exec_steps h with
  | sub p c next h₁ =>
    rw [hands_resume]
    exact SubPc.exec_handles none hk h₁
  | _ => exact .same rfl rfl

theorem exec_knows {s : Shared} {pc : WorkerPc} {i s' pc'} (hk : pc.Knows s)
    (h : pc.exec s i = some (s', pc')) : pc'.Knows s' := by
  cases exec_steps h with
  | sub p c next h₁ =>
    have := SubPc.exec_knows hk h₁
    cases next with
    | none => trivial
    | some p' => exact this
  | _ => trivial

theorem exec_erases {s : Shared} {pc : WorkerPc} {i s' pc' fd} (hk : pc.Knows s)
    (h : pc.exec s i = some (s', pc')) (he : pc'.erases = some fd) :
    pc.erases = some fd ∨ ∃ c, pc.lockOp = .lock (.conn c) ∧ s.connections.lookup fd = some c := by
  cases exec_steps h with
  | sub p c next h₁ =>
    cases next with
    | none => cases he
    | some p' => exact SubPc.exec_erases hk h₁ he
  | _ => cases he

theorem Knows.stable {s s' : Shared} {pc : WorkerPc} (hk : pc.Knows s)
    (hc : s'.connections = s.connections ∨ .connections ∉ pc.holds) : pc.Knows s' := by
  cases pc with
  | sub p c => exact SubPc.Knows.stable hk hc
  | _ => trivial

theorem connections_of_erases {pc : WorkerPc} {fd} (h : pc.erases = some fd) :
    .connections ∈ pc.holds := by
  cases pc with
  | sub p c => exact SubPc.connections_of_erases h
  | _ => cases h

end WorkerPc

/-! ## Connections keep their descriptor -/

theorem EventPc.Touch.ids {s s' : Shared} {pc pc' : EventPc} {c} (h : Touch s pc c s' pc')
    (hc : c < s.created) : (s'.heap c).fd = (s.heap c).fd ∧ (s'.heap c).sock = (s.heap c).sock := by
  cases h with
  | away heap | noted _ _ heap => simp [heap]
  | created fd hn => exact absurd hn hc.ne
  | append fd chunk k hpc fits h =>
    cases appendStep_cases fits h with
    | completes _ _ heap | waits _ heap => simp [heap]
  | send ret r ctl next hpc hpc' h =>
    exact ⟨(SubPc.sendStep_frame h).conn.fd, (SubPc.sendStep_frame h).conn.sock⟩

theorem WorkerPc.Touch.ids {s s' : Shared} {pc pc' : WorkerPc} {c} (h : Touch s pc c s' pc') :
    (s'.heap c).fd = (s.heap c).fd ∧ (s'.heap c).sock = (s.heap c).sock := by
  cases h with
  | away heap | unregistered heap => simp [heap]
  | taken _ _ _ heap => simp [heap]
  | parse request hpc hr hs => simp [hs, Shared.emit]
  | missing response hpc hl hs => simp [hs]
  | keep _ _ hs | unreg _ hs | store _ _ hs | finish _ hs => simp [hs, Shared.setConn, Shared.emit]
  | send c' r ctl next hpc hpc' h =>
    exact ⟨(SubPc.sendStep_frame h).conn.fd, (SubPc.sendStep_frame h).conn.sock⟩

/-- A step adds to a history, and removes a connection only where it erases
the entry. -/
theorem EventPc.Touch.removal {s s' : Shared} {pc pc' : EventPc} {c} (h : Touch s pc c s' pc') :
    ∃ l, history c s'.log = history c s.log ++ l ∧ (.unregistered c ∈ l →
      l = [.unregistered c] ∧ ∃ fd, pc.erasing = some fd ∧ s.connections.lookup fd = some c) := by
  cases h with
  | away _ hist | created _ _ _ hist => exact ⟨[], by simpa using hist, by simp⟩
  | noted e note heap hist _ found =>
    refine ⟨[e], hist, fun hm => ?_⟩
    obtain rfl : .unregistered c = e := List.mem_singleton.mp hm
    exact ⟨rfl, found rfl⟩
  | send ret r ctl next _ _ hs =>
    obtain ⟨l, hl, hk⟩ := SubPc.sendStep_history hs
    exact ⟨l, hl, fun hm => by cases hk _ hm⟩
  | append fd chunk k hpc fits happ =>
    cases appendStep_cases fits happ with
    | completes _ _ _ hist => exact ⟨[.received c chunk, .dispatched c], hist, by simp⟩
    | waits _ _ hist => exact ⟨[.received c chunk], hist, by simp⟩

theorem WorkerPc.Touch.removal {s s' : Shared} {pc pc' : WorkerPc} {c} (h : Touch s pc c s' pc') :
    ∃ l, history c s'.log = history c s.log ++ l ∧ (.unregistered c ∈ l → l = [.unregistered c] ∧
      ∃ fd c', pc = sub (.closeErase fd) c' ∧ s.connections.lookup fd = some c) := by
  cases h with
  | away _ hist => exact ⟨[], by simpa using hist, by simp⟩
  | unregistered _ hist _ _ found => exact ⟨_, hist, fun _ => ⟨rfl, found⟩⟩
  | taken _ _ _ _ log => exact ⟨[], by simp [log], by simp⟩
  | send c' r ctl next hpc hpc' h =>
    obtain ⟨l, hl, hk⟩ := SubPc.sendStep_history h
    exact ⟨l, hl, fun hm => by cases hk _ hm⟩
  | keep _ _ hs | missing _ _ _ hs | unreg _ hs =>
    exact ⟨[], by simp [hs, Shared.setConn], by simp⟩
  | parse _ _ _ hs | store _ _ hs | finish _ hs =>
    exact ⟨_, by rw [hs]; exact history_emit rfl, by simp⟩

/-- A step only adds to a connection's history. -/
theorem EventPc.Touch.extends {s s' : Shared} {pc pc' : EventPc} {c} (h : Touch s pc c s' pc') :
    ∃ l, history c s'.log = history c s.log ++ l := by
  obtain ⟨l, hl, -⟩ := h.removal
  exact ⟨l, hl⟩

theorem WorkerPc.Touch.extends {s s' : Shared} {pc pc' : WorkerPc} {c} (h : Touch s pc c s' pc') :
    ∃ l, history c s'.log = history c s.log ++ l := by
  obtain ⟨l, hl, -⟩ := h.removal
  exact ⟨l, hl⟩

/-- An event of a connection's history stays in it. -/
theorem EventPc.Touch.mono {s s' : Shared} {pc pc' : EventPc} {c} {e : Event}
    (h : Touch s pc c s' pc') (he : e ∈ history c s.log) : e ∈ history c s'.log := by
  obtain ⟨l, hl⟩ := h.extends
  exact hl ▸ List.mem_append_left l he

theorem WorkerPc.Touch.mono {s s' : Shared} {pc pc' : WorkerPc} {c} {e : Event}
    (h : Touch s pc c s' pc') (he : e ∈ history c s.log) : e ∈ history c s'.log := by
  obtain ⟨l, hl⟩ := h.extends
  exact hl ▸ List.mem_append_left l he

/-- A worker registers no connection. -/
theorem WorkerPc.Touch.registered {s s' : Shared} {pc pc' : WorkerPc} {c}
    (h : Touch s pc c s' pc') (he : .registered c ∈ s'.log) : .registered c ∈ s.log := by
  have old : .registered c ∈ history c s.log → .registered c ∈ s.log := (mem_history rfl).mp
  have new : .registered c ∈ history c s'.log := (mem_history rfl).mpr he
  cases h with
  | away _ hist => exact old (hist ▸ new)
  | unregistered _ hist => exact old (by simpa [hist] using new)
  | taken _ _ _ _ log => exact log ▸ he
  | send c' r ctl next hpc hpc' h =>
    obtain ⟨l, hl, hk⟩ := SubPc.sendStep_history h
    rcases List.mem_append.mp (hl ▸ new) with hm | hm
    · exact old hm
    · cases hk _ hm
  | parse _ _ _ hs | keep _ _ hs | missing _ _ _ hs | unreg _ hs | store _ _ hs
  | finish _ hs => simpa [hs, Shared.setConn] using he

theorem WorkerPc.Touch.idle {s s' : Shared} {pc pc' : WorkerPc} {c} (h : Touch s pc c s' pc')
    (hi : (s.heap c).Idle) : (s'.heap c).Idle := by
  cases h with
  | away heap | unregistered heap => exact heap ▸ hi
  | taken _ _ _ heap => exact heap ▸ hi
  | parse request hpc hr hs => exact hs ▸ hi
  | missing response hpc hl hs => exact hs ▸ hi
  | keep _ _ hs | unreg _ hs | store _ _ hs | finish _ hs =>
    subst hs
    obtain ⟨h₁, h₂⟩ := hi
    simp [Connection.Idle, Shared.setConn, Shared.emit, h₁, h₂]
  | send c' r ctl next hpc hpc' h =>
    have same := (SubPc.sendStep_frame h).conn
    exact ⟨same.buffer.trans hi.1, same.processing.trans hi.2⟩

theorem WorkerPc.Touch.new {s s' : Shared} {pc pc' : WorkerPc} {c} (h : Touch s pc c s' pc')
    (hn : s.New c) : s'.New c := ⟨h.idle hn.idle, fun hm => hn.unregistered (h.registered hm)⟩

/-! ## The invariant -/

namespace Shared

/-- Each descriptor that is open is kept by the map or by one of the threads
whose hands are given. -/
def Kept {Θ : Type*} (s : Shared) (hands : Θ → List Fd) : Prop :=
  Custody.Kept (fun fd => s.fds fd ≠ none) (fun fd => s.connections.lookup fd ≠ none) hands

theorem Kept.congr {Θ : Type*} {s s' : Shared} {hands : Θ → List Fd} (h : s.Kept hands)
    (conns : s'.connections = s.connections) (fds : s'.fds = s.fds) : s'.Kept hands := by
  rw [Kept, conns, fds]
  exact h

theorem Kept.handles {Θ : Type*} {s s' : Shared} {hands hands' : Θ → List Fd} {t : Θ}
    {event held erases l l'} (h : s.Kept hands) (hh : Handles event held erases s s' l l')
    (ht : hands t = l) (ht' : hands' t = l') (hf : ∀ t', t' ≠ t → hands' t' = hands t') :
    s'.Kept hands' := by
  cases hh with
  | same conns fds =>
    have : hands' = hands := by
      funext t'
      by_cases hte : t' = t
      · rw [hte, ht, ht']
      · exact hf t' hte
    exact this ▸ h.congr conns fds
  | accept fd _ _ closed conns fds =>
    rw [Kept, conns]
    refine Custody.Kept.take h (r := fd) (by simp [closed]) (fun fd' => ?_) ht' hf
    by_cases hfd : fd' = fd <;> simp [fds, hfd]
  | register fd c _ _ _ _ _ conns fds =>
    rw [Kept, fds]
    refine Custody.Kept.shelve h (r := fd) (fun fd' => ?_) ht ht' hf
    by_cases hfd : fd' = fd
    · simp [conns, hfd]
    · simp [conns, hfd, AList.lookup_insert_ne hfd]
  | erase fd _ _ found hs =>
    subst hs
    rw [Kept, unregister_fds]
    refine Custody.Kept.unshelve h found (fun fd' => ?_) ht' hf
    by_cases hfd : fd' = fd <;> simp [lookup_unregister, hfd]
  | close fd conns fds =>
    rw [Kept, conns]
    refine Custody.Kept.drop h (r := fd) (fun fd' => ?_) ht ht' hf
    by_cases hfd : fd' = fd <;> simp [fds, hfd]

/-- The map's entries are the connections constructed for their descriptors. -/
def Named (s : Shared) : Prop :=
  ∀ fd c, s.connections.lookup fd = some c → (s.heap c).fd = fd ∧ (s.heap c).sock = s.fds fd

theorem Named.handles {Θ : Type*} {s s' : Shared} {hands : Θ → List Fd} {t : Θ}
    {event held erases l l'} (h : s.Named) (hk : s.Kept hands)
    (hh : Handles event held erases s s' l l') (ht : hands t = l) (hb : s.Bounded)
    (hid : ∀ c < s.created, (s'.heap c).fd = (s.heap c).fd ∧ (s'.heap c).sock = (s.heap c).sock) :
    s'.Named := by
  intro fd c hc
  have keep : s.connections.lookup fd = some c → s'.fds fd = s.fds fd →
      (s'.heap c).fd = fd ∧ (s'.heap c).sock = s'.fds fd := by
    intro hl hfds
    obtain ⟨h₁, h₂⟩ := hid c (hb.connections fd c hl)
    rw [h₁, h₂, hfds]
    exact h fd c hl
  cases hh with
  | same conns fds => exact keep (conns ▸ hc) (by rw [fds])
  | accept fd' _ _ closed conns fds =>
    rw [conns] at hc
    have hne : fd ≠ fd' := by
      rintro rfl
      exact hk.shelved_open fd (by simp [hc]) closed
    exact keep hc (by simp [fds, hne])
  | register fd' c' _ _ _ named _ conns fds =>
    by_cases hfd : fd = fd'
    · subst hfd
      rw [conns, AList.lookup_insert] at hc
      exact Option.some.inj hc ▸ named
    · rw [conns, AList.lookup_insert_ne hfd] at hc
      exact keep hc (by rw [fds])
  | erase fd' _ _ found hs =>
    subst hs
    rw [lookup_unregister] at hc
    split at hc
    · cases hc
    · exact keep hc (by simp)
  | close fd' conns fds =>
    rw [conns] at hc
    have hne : fd ≠ fd' := by
      rintro rfl
      exact hk.not_shelved t fd (by simp [ht]) (by simp [hc])
    exact keep hc (by simp [fds, hne])

/-- The log tells of the map's entries. -/
def Logged (s : Shared) : Prop :=
  ∀ fd c, s.connections.lookup fd = some c → .registered c ∈ s.log

theorem Logged.handles {s s' : Shared} {event held erases l l'} (h : s.Logged)
    (hh : Handles event held erases s s' l l')
    (hmono : ∀ c, .registered c ∈ s.log → .registered c ∈ s'.log) : s'.Logged := by
  intro fd c hc
  cases hh with
  | same conns | accept _ _ _ _ conns | close _ conns => exact hmono c (h fd c (conns ▸ hc))
  | register fd' c' _ _ _ _ logged conns =>
    by_cases hfd : fd = fd'
    · rw [conns, hfd, AList.lookup_insert] at hc
      exact Option.some.inj hc ▸ logged
    · rw [conns, AList.lookup_insert_ne hfd] at hc
      exact hmono c (h fd c hc)
  | erase fd' _ _ _ hs =>
    rw [hs, lookup_unregister] at hc
    split at hc
    · cases hc
    · exact hmono c (h fd c hc)

end Shared

theorem EventPc.Knows.congr {s s' : Shared} {pc : EventPc} (hk : pc.Knows s)
    (heap : s'.heap = s.heap) (conns : s'.connections = s.connections) (fds : s'.fds = s.fds)
    (hnew : ∀ c, s.New c → s'.New c) : pc.Knows s' := by
  cases pc with
  | sub p ret => exact SubPc.Knows.stable hk (.inl conns)
  | acceptInsertLock fd c k | acceptInsert fd c k => exact ⟨by rw [heap, fds]; exact hk.1, hnew c hk.2⟩
  | _ => first | trivial | (simp only [Knows, conns] at hk ⊢; exact hk)

/-- The event thread's knowledge outlasts a worker's step. -/
theorem EventPc.Knows.stable {s s' : Shared} {pc : EventPc} {wpc l l'} (hk : pc.Knows s)
    (hh : Handles none (WorkerPc.holds wpc) (WorkerPc.erases wpc) s s' l l')
    (hexcl : .connections ∈ wpc.holds → .connections ∉ pc.holds)
    (hapart : ∀ fd, pc.appends = some fd → wpc.erases ≠ some fd)
    (hhands : ∀ fd ∈ pc.hands, fd ∉ l) (hb : ∀ c ∈ pc.refs, c < s.created)
    (hid : ∀ c < s.created, (s'.heap c).fd = (s.heap c).fd ∧ (s'.heap c).sock = (s.heap c).sock)
    (hnew : ∀ c, s.New c → s'.New c) : pc.Knows s' := by
  have fds : ∀ fd ∈ pc.hands, s'.fds fd = s.fds fd := by
    intro fd hfd
    cases hh with
    | same _ fds => rw [fds]
    | accept _ _ he | register _ _ _ he => cases he
    | erase fd' _ _ _ hs => simp [hs]
    | close fd' _ fds =>
      have : fd ≠ fd' := by
        rintro rfl
        exact hhands fd hfd (by simp)
      simp [fds, this]
  have shrinks : ∀ fd c, s'.connections.lookup fd = some c → s.connections.lookup fd = some c := by
    intro fd c hc
    cases hh with
    | same conns | close _ conns => exact conns ▸ hc
    | accept _ _ he | register _ _ _ he => cases he
    | erase fd' _ _ _ hs =>
      rw [hs, Shared.lookup_unregister] at hc
      split at hc
      · cases hc
      · exact hc
  have stays : ∀ fd, pc.appends = some fd → ∀ c, s.connections.lookup fd = some c →
      s'.connections.lookup fd = some c := by
    intro fd ha c hc
    cases hh with
    | same conns | close _ conns => exact conns ▸ hc
    | accept _ _ he | register _ _ _ he => cases he
    | erase fd' he _ _ hs =>
      have : fd ≠ fd' := by
        rintro rfl
        exact hapart fd ha he
      simp [hs, Shared.lookup_unregister, this, hc]
  have conns : s'.connections = s.connections ∨ .connections ∉ pc.holds := by
    cases hh with
    | same conns | close _ conns => exact .inl conns
    | accept _ _ he | register _ _ _ he => cases he
    | erase fd' _ hm _ _ => exact .inr (hexcl hm)
  cases pc with
  | acceptInsertLock fd c k | acceptInsert fd c k =>
    obtain ⟨h₁, h₂⟩ := hid c (hb c (by simp [refs]))
    exact ⟨⟨h₁.trans hk.1.1, by rw [h₂, fds fd (by simp [hands])]; exact hk.1.2⟩, hnew c hk.2⟩
  | dataRecv fd c k | dataLockConn fd c chunk k | dataLockMap fd c chunk k
  | dataCheck fd c chunk k => exact fun c' hc' => hk c' (shrinks fd c' hc')
  | dataAppend fd c chunk k | dataEraseLock fd c k | dataErase fd c k => exact stays fd rfl c hk
  | sub p ret => exact SubPc.Knows.stable hk conns
  | _ => trivial

namespace Server

variable {n : Nat}

def hands (s : Server n) : Thread n → List Fd
  | .event => s.event.hands
  | .worker w => (s.worker w).hands
  | .stop => []

/-- The descriptors are kept by the map and the threads, the map's entries
are the connections constructed for them, and the threads know what they
found. -/
structure Tidy (s : Server n) : Prop where
  kept : s.shared.Kept s.hands
  named : s.shared.Named
  logged : s.shared.Logged
  event : s.event.Knows s.shared
  worker : ∀ w, (s.worker w).Knows s.shared
  apart : ∀ fd, s.event.appends = some fd → ∀ w, (s.worker w).erases ≠ some fd

theorem Tidy.initial (serverFd maxConnections order clock) :
    (initial n serverFd maxConnections order clock).Tidy := by
  refine ⟨⟨?_, ?_, ?_, ?_⟩, nofun, nofun, trivial, fun _ => trivial, nofun⟩
  · exact fun fd h => absurd rfl h
  all_goals
    intro t
    cases t <;> simp [Server.initial, hands, EventPc.hands, WorkerPc.hands]

theorem Tidy.stepEvent {s : Server n} {i sh pc own} (h : s.Tidy)
    (hc : Consistent s.owner s.holds) (hb : s.Bounded)
    (he : s.event.exec s.shared i = some (sh, pc)) :
    Tidy { s with shared := sh, event := pc, owner := own } := by
  have hh := EventPc.exec_handles h.event he
  have hid : ∀ c < s.shared.created, _ := fun c hlt => (EventPc.exec_touch c he).ids hlt
  have free : ∀ w, .connections ∈ s.event.holds → .connections ∉ (s.worker w).holds := by
    intro w hm hw
    cases hc.exclusive .event (.worker w) hm hw
  have hf : ∀ t, t ≠ .event →
      hands { s with shared := sh, event := pc, owner := own } t = s.hands t := by
    intro t ht
    cases t <;> first | rfl | exact absurd rfl ht
  refine ⟨h.kept.handles (t := .event) hh rfl rfl hf,
    h.named.handles (t := .event) h.kept hh rfl hb.shared hid,
    h.logged.handles hh fun c hm => (mem_history rfl).mp
      ((EventPc.exec_touch c he).mono ((mem_history rfl).mpr hm)),
    EventPc.exec_knows hb.shared h.event he, fun w => ?_, fun fd ha w hw => ?_⟩
  · exact (h.worker w).stable (hh.connections.imp_right (free w))
  · rcases EventPc.exec_appends he ha with hp | hm
    · exact h.apart fd hp w hw
    · exact free w hm (WorkerPc.connections_of_erases hw)

theorem Tidy.stepWorker {s : Server n} {w i sh pc own} (h : s.Tidy)
    (hc : Consistent s.owner s.holds) (hb : s.Bounded)
    (ho : (s.lockOp (.worker w)).apply (.worker w) s.owner = some own)
    (he : (s.worker w).exec s.shared i = some (sh, pc)) :
    Tidy { s with shared := sh, worker := Function.update s.worker w pc, owner := own } := by
  have hh := WorkerPc.exec_handles (h.worker w) he
  have hid : ∀ c < s.shared.created, _ := fun c _ => (WorkerPc.exec_touch c he).ids
  have hev : .connections ∈ (s.worker w).holds → .connections ∉ s.event.holds := by
    intro hm hw
    cases hc.exclusive (.worker w) .event hm hw
  have hf : ∀ t, t ≠ .worker w →
      hands { s with shared := sh, worker := Function.update s.worker w pc, owner := own } t =
        s.hands t := by
    intro t ht
    cases t with
    | worker w' =>
      have : w' ≠ w := fun e => ht (by rw [e])
      simp [hands, this]
    | _ => rfl
  refine ⟨h.kept.handles (t := .worker w) hh rfl (by simp [hands]) hf,
    h.named.handles (t := .worker w) h.kept hh rfl hb.shared hid,
    h.logged.handles hh fun c hm => (mem_history rfl).mp
      ((WorkerPc.exec_touch c he).mono ((mem_history rfl).mpr hm)), ?_, fun w' => ?_,
    fun fd ha w' hw => ?_⟩
  · refine h.event.stable hh hev (fun fd ha => h.apart fd ha w) (fun fd hfd hfd' => ?_) hb.event hid
      fun c => (WorkerPc.exec_touch c he).new
    cases h.kept.unique .event (.worker w) fd hfd hfd'
  · by_cases hw : w' = w
    · subst hw
      simpa using WorkerPc.exec_knows (h.worker w') he
    · simp only [Function.update_of_ne hw]
      refine (h.worker w').stable (hh.connections.imp_right fun hm hm' => hw ?_)
      cases hc.exclusive (.worker w') (.worker w) hm' hm
      rfl
  · by_cases hw' : w' = w
    · subst hw'
      rcases WorkerPc.exec_erases (h.worker w') he (by simpa using hw) with hp | ⟨c, hl, hl'⟩
      · exact h.apart fd ha w' hp
      · -- the worker locks the mutex of a connection the event thread holds
        obtain ⟨c', hc', hm⟩ := EventPc.holds_of_appends h.event ha
        obtain rfl : c = c' := Option.some.inj (hl'.symm.trans hc')
        have hown := (hc.owner (.conn c) .event).mpr hm
        simp [lockOp, hl, LockOp.apply, hown] at ho
    · exact h.apart fd ha w' (by simpa [hw'] using hw)

end Server

namespace Server

variable {n : Nat}

/-- `stop()` goes on only after the threads it joins have ended. -/
structure Joined (s : Server n) : Prop where
  worker : s.stop.workersJoined → ∀ w, s.worker w = .exited
  event : s.stop.eventJoined → s.event = .exited

theorem Joined.not_joined_of_event {s : Server n} (h : s.Joined) {i out}
    (he : s.event.exec s.shared i = some out) : s.stop.eventJoined = false := by
  by_contra hj
  rw [h.event (by simpa using hj)] at he
  cases he

theorem Joined.not_joined_of_worker {s : Server n} (h : s.Joined) {w i out}
    (he : (s.worker w).exec s.shared i = some out) : s.stop.eventJoined = false := by
  by_contra hj
  rw [h.worker (StopPc.workersJoined_of_eventJoined (by simpa using hj)) w] at he
  cases he

theorem joined {ok} {s : Server n} (h : (system n).ReachableBy ok s) : s.Joined := by
  refine h.invariant (I := Joined) ?_ ?_
  · intro s hinit
    obtain ⟨_, _, _, _, rfl⟩ := hinit
    exact ⟨nofun, nofun⟩
  intro s a s' _ hj _ hs
  cases step_cases hs with
  | event i sh pc he =>
    refine ⟨hj.worker, fun hst => ?_⟩
    rw [hj.event hst] at he
    cases he
  | worker w i sh pc he =>
    refine ⟨fun hst => ?_, hj.event⟩
    rw [hj.worker hst w] at he
    cases he
  | stop wl el sh pc he hwl hel =>
    obtain ⟨h₁, h₂, -⟩ := StopPc.exec_joined he
    exact ⟨fun hst => (h₁ hst).elim hj.worker hwl, fun hst => (h₂ hst).elim hj.event hel⟩
  | tick => exact ⟨hj.worker, hj.event⟩

/-- In every state reached before `stop()` has joined the event thread, each
descriptor is kept by the map or by one thread. -/
theorem tidy {ok} {s : Server n} (h : (system n).ReachableBy ok s)
    (hstop : s.stop.eventJoined = false) : s.Tidy := by
  refine h.invariant (I := fun s => s.stop.eventJoined = false → s.Tidy) ?_ ?_ hstop
  · intro s hinit _
    obtain ⟨_, _, _, _, rfl⟩ := hinit
    exact .initial ..
  intro s a s' hr hi _ hs hstop'
  cases step_cases hs with
  | event i sh pc he => exact (hi hstop').stepEvent (consistent hr) (bounded hr) he
  | worker w i sh pc he own ho => exact (hi hstop').stepWorker (consistent hr) (bounded hr) ho he
  | stop wl el sh pc he =>
    have hstop := StopPc.not_joined_before he hstop'
    obtain ⟨heap, -, -, hist, hframe⟩ := StopPc.exec_frame he
    obtain ⟨conns, fds⟩ := hframe hstop
    have ht := hi hstop
    have registered : ∀ c, .registered c ∈ sh.log ↔ .registered c ∈ s.shared.log := fun c => by
      rw [← mem_history (e := .registered c) rfl, hist c, mem_history rfl]
    have new : ∀ c, s.shared.New c → sh.New c := fun c hn =>
      ⟨by rw [heap]; exact hn.idle, by rw [registered]; exact hn.unregistered⟩
    refine ⟨ht.kept.congr conns fds, ?_, fun fd c hc => ?_, ht.event.congr heap conns fds new,
      fun w => (ht.worker w).stable (.inl conns), ht.apart⟩
    · simpa only [Shared.Named, heap, conns, fds] using ht.named
    · exact (registered c).mpr (ht.logged fd c (conns ▸ hc))
  | tick =>
    have ht := hi hstop'
    exact ⟨ht.kept.congr rfl rfl, ht.named, ht.logged,
      ht.event.congr rfl rfl rfl fun c hn => ⟨hn.idle, hn.unregistered⟩,
      fun w => (ht.worker w).stable (.inl rfl), ht.apart⟩

end Server

end Webserver
