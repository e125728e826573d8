/-
Each connection has a socket of its own: the kernel numbers the sockets it
accepts, and the event thread constructs one connection for each.
-/
import Webserver.Descriptors

namespace Webserver

open Cxx Locks Systems

/-- The descriptor of a client for which no connection is constructed yet. -/
def EventPc.greets : EventPc → Option Fd
  | acceptLock fd _ | acceptCheck fd _ | acceptNonBlocking fd _ | acceptAddFd fd _
  | acceptConnection fd _ => some fd
  | _ => none

/-- What the threads leave as it is, but for `accept` and the constructor of
a connection: no socket is made and no descriptor comes to denote another. -/
structure Shared.NoSocket (s s' : Shared) : Prop where
  accepted : s'.accepted = s.accepted
  created : s'.created = s.created
  fds : ∀ fd k, s'.fds fd = some k → s.fds fd = some k

theorem Shared.NoSocket.of_eq {s s' : Shared} (ha : s'.accepted = s.accepted)
    (hc : s'.created = s.created) (hf : s'.fds = s.fds) : s.NoSocket s' :=
  ⟨ha, hc, fun _ _ hk => hf ▸ hk⟩

theorem Shared.NoSocket.closeFd (s : Shared) (fd : Fd) : s.NoSocket (s.closeFd fd) := by
  refine ⟨by simp, by simp, fun fd' k hk => ?_⟩
  rw [closeFd_fds, Function.update_apply] at hk
  split at hk
  · cases hk
  · exact hk

theorem SubPc.exec_noSocket {s : Shared} {p : SubPc} {i s' next} (h : p.exec s i = some (s', next)) :
    s.NoSocket s' := by
  cases exec_steps h with
  | closeErase fd => exact .of_eq (by simp) (by simp) (by simp)
  | closeFd fd => exact .closeFd s fd
  | send c r ctl h₁ =>
    have frame := sendStep_frame h₁
    exact .of_eq frame.accepted frame.created frame.fds
  | _ => exact .of_eq rfl rfl rfl

theorem WorkerPc.exec_noSocket {s : Shared} {pc : WorkerPc} {i s' pc'}
    (h : pc.exec s i = some (s', pc')) : s.NoSocket s' := by
  cases exec_steps h with
  | sub p c next h₁ => exact SubPc.exec_noSocket h₁
  | _ => exact .of_eq rfl rfl rfl

theorem StopPc.exec_noSocket {s : Shared} {pc : StopPc} {a b s' pc'}
    (h : pc.exec s a b = some (s', pc')) : s.NoSocket s' := by
  cases exec_steps h with
  | close fd rest =>
    have := Shared.NoSocket.closeFd (s.removeFd fd) fd
    exact ⟨this.accepted, this.created, this.fds⟩
  | _ => exact .of_eq rfl rfl rfl

namespace EventPc

/-- What a step of the event thread does to the sockets. -/
inductive Greets (s : Shared) (pc : EventPc) (s' : Shared) (pc' : EventPc) : Prop
  | accept (fd) (greets : pc'.greets = some fd) (heap : s'.heap = s.heap)
      (created : s'.created = s.created) (accepted : s'.accepted = s.accepted + 1)
      (fds : s'.fds = Function.update s.fds fd (some s.accepted))
  | construct (fd) (greets : pc.greets = some fd) (greets' : pc'.greets = none)
      (created : s'.created = s.created + 1) (accepted : s'.accepted = s.accepted)
      (fds : s'.fds = s.fds) (sock : (s'.heap s.created).sock = s.fds fd)
  | other (same : s.NoSocket s') (greets : pc'.greets = none ∨ pc'.greets = pc.greets)

theorem greets_resume (ret : EventRet) (next : Option SubPc) : (resume ret next).greets = none := by
  cases next <;> cases ret <;> rfl

theorem exec_greets {s : Shared} {pc : EventPc} {i s' pc'} (h : pc.exec s i = some (s', pc')) :
    Greets s pc s' pc' := by
  cases exec_steps h with
  | accept fd k => exact .accept fd rfl rfl rfl rfl rfl
  | acceptConnection fd k => exact .construct fd rfl rfl rfl rfl rfl (by simp [Shared.setConn])
  | acceptFull fd | acceptReject fd | dataCloseFd fd => exact .other (.closeFd s fd) (.inl rfl)
  | dataErase fd => exact .other (.of_eq (by simp) (by simp) (by simp)) (.inl rfl)
  | sub p ret next h₁ => exact .other (SubPc.exec_noSocket h₁) (.inl (greets_resume ret next))
  | _ =>
    first
    | exact .other (.of_eq rfl rfl rfl) (.inr rfl)
    | exact .other (.of_eq rfl rfl rfl) (.inl rfl)

end EventPc

namespace Server

variable {n : Nat}

/-- No two connections were constructed for one socket, and none yet for the
socket the event thread has just accepted. -/
structure Sockets (s : Server n) : Prop where
  accepted : ∀ fd k, s.shared.fds fd = some k → k < s.shared.accepted
  constructed : ∀ c < s.shared.created, ∀ k, (s.shared.heap c).sock = some k →
    k < s.shared.accepted
  distinct : ∀ c < s.shared.created, ∀ c' < s.shared.created, ∀ k,
    (s.shared.heap c).sock = some k → (s.shared.heap c').sock = some k → c = c'
  greeted : ∀ fd k, s.event.greets = some fd → s.shared.fds fd = some k →
    ∀ c < s.shared.created, (s.shared.heap c).sock ≠ some k

theorem Sockets.noSocket {s s' : Server n} (h : s.Sockets) (hn : s.shared.NoSocket s'.shared)
    (hg : s'.event.greets = none ∨ s'.event.greets = s.event.greets)
    (hid : ∀ c < s.shared.created, (s'.shared.heap c).sock = (s.shared.heap c).sock) :
    s'.Sockets := by
  refine ⟨fun fd k hk => ?_, fun c hc k hk => ?_, fun c hc c' hc' k hk hk' => ?_,
    fun fd k hfd hk c hc hck => ?_⟩
  · exact hn.accepted ▸ h.accepted fd k (hn.fds fd k hk)
  · rw [hn.created] at hc
    exact hn.accepted ▸ h.constructed c hc k (hid c hc ▸ hk)
  · rw [hn.created] at hc hc'
    exact h.distinct c hc c' hc' k (hid c hc ▸ hk) (hid c' hc' ▸ hk')
  · rw [hn.created] at hc
    rcases hg with hg | hg
    · rw [hg] at hfd
      cases hfd
    · exact h.greeted fd k (hg ▸ hfd) (hn.fds fd k hk) c hc (hid c hc ▸ hck)

theorem Sockets.stepEvent {s : Server n} {i sh pc own} (h : s.Sockets)
    (he : s.event.exec s.shared i = some (sh, pc)) :
    Sockets { s with shared := sh, event := pc, owner := own } := by
  have hid : ∀ c < s.shared.created, (sh.heap c).sock = (s.shared.heap c).sock :=
    fun c hc => ((EventPc.exec_touch c he).ids hc).2
  cases EventPc.exec_greets he with
  | accept fd greets heap created accepted fds =>
    refine ⟨fun fd' k hk => ?_, fun c hc k hk => ?_, fun c hc c' hc' k hk hk' => ?_,
      fun fd' k hfd hk c hc hck => ?_⟩
    · simp only [fds, Function.update_apply] at hk
      split at hk
      · show k < sh.accepted
        rw [accepted, ← Option.some.inj hk]
        exact Nat.lt_succ_self _
      · show k < sh.accepted
        rw [accepted]
        exact Nat.lt_succ_of_lt (h.accepted fd' k hk)
    · show k < sh.accepted
      rw [accepted]
      exact Nat.lt_succ_of_lt (h.constructed c (created ▸ hc) k (heap ▸ hk))
    · exact h.distinct c (created ▸ hc) c' (created ▸ hc') k (heap ▸ hk) (heap ▸ hk')
    · obtain rfl : fd' = fd := Option.some.inj (hfd.symm.trans greets)
      simp only [fds, Function.update_self, Option.some.injEq] at hk
      exact absurd hk (Nat.ne_of_gt (h.constructed c (created ▸ hc) k (heap ▸ hck)))
  | construct fd greets greets' created accepted fds sock =>
    have old : ∀ c < sh.created, c < s.shared.created ∨ c = s.shared.created := by
      intro c hc
      rw [created] at hc
      exact Nat.lt_or_eq_of_le (Nat.le_of_lt_succ hc)
    refine ⟨fun fd' k hk => ?_, fun c hc k hk => ?_, fun c hc c' hc' k hk hk' => ?_,
      fun fd' k hfd => ?_⟩
    · exact accepted ▸ h.accepted fd' k (fds ▸ hk)
    · show k < sh.accepted
      rw [accepted]
      rcases old c hc with hlt | rfl
      · exact h.constructed c hlt k (hid c hlt ▸ hk)
      · exact h.accepted fd k (sock ▸ hk)
    · rcases old c hc with hlt | rfl <;> rcases old c' hc' with hlt' | rfl
      · exact h.distinct c hlt c' hlt' k (hid c hlt ▸ hk) (hid c' hlt' ▸ hk')
      · exact absurd (hid c hlt ▸ hk) (h.greeted fd k greets (sock ▸ hk') c hlt)
      · exact absurd (hid c' hlt' ▸ hk') (h.greeted fd k greets (sock ▸ hk) c' hlt')
      · rfl
    · intro hk
      cases greets'.symm.trans hfd
  | other same greets => exact h.noSocket same greets hid

theorem sockets {ok} {s : Server n} (h : (system n).ReachableBy ok s) : s.Sockets := by
  refine h.invariant (I := Sockets) ?_ ?_
  · intro s hinit
    obtain ⟨_, _, _, _, rfl⟩ := hinit
    exact ⟨nofun, nofun, nofun, nofun⟩
  intro s a s' _ hi _ hs
  cases step_cases hs with
  | event i sh pc he => exact hi.stepEvent he
  | worker w i sh pc he =>
    exact hi.noSocket (WorkerPc.exec_noSocket he) (.inr rfl) fun c _ =>
      (WorkerPc.exec_touch c he).ids.2
  | stop wl el sh pc he =>
    exact hi.noSocket (StopPc.exec_noSocket he) (.inr rfl) fun c _ => by
      rw [(StopPc.exec_frame he).1]
  | tick => exact ⟨hi.accepted, hi.constructed, hi.distinct, hi.greeted⟩

end Server

end Webserver
