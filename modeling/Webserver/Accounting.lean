/-
What becomes of the descriptors `accept` returns. The kernel's books, the
accepts and closes in the log, balance with what is open; what is open is
registered or in the hands of a thread that will register or close it; and
`stop()`, which runs when no thread has anything left in its hands, closes
what is registered. So every descriptor is closed once for each accept, and
no call of `close` meets a number that is not the server's.
-/
import Webserver.Descriptors

namespace Webserver

open Cxx Locks Systems

/-! ## Calls of `close` -/

/-- The descriptor the code at a point passes to `close`. -/
def SubPc.closes : SubPc → Option Fd
  | closeFd fd => some fd
  | _ => none

def EventPc.closes (s : Shared) : EventPc → Option Fd
  | acceptCheck fd _ => if s.maxConnections ≤ s.connections.entries.length then some fd else none
  | acceptReject fd _ | dataCloseFd fd _ _ => some fd
  | sub p _ => p.closes
  | _ => none

def WorkerPc.closes : WorkerPc → Option Fd
  | sub p _ => p.closes
  | _ => none

def StopPc.closes : StopPc → Option Fd
  | closeAll (fd :: _) => some fd
  | _ => none

/-- The descriptor a step passes to `close`. -/
def Server.closes {n : Nat} (s : Server n) : Action n → Option Fd
  | .event _ => s.event.closes s.shared
  | .worker w _ => (s.worker w).closes
  | .stop => s.stop.closes
  | .tick _ => none

/-! ## The books -/

/-- The events that are about descriptors. -/
def Event.inBooks : Event → Bool
  | .accepted _ _ | .closed _ _ => true
  | _ => false

/-- What a step that passes `closes` to `close` does to the descriptors, and
what the log tells of it. -/
inductive Shared.Books (closes : Option Fd) (s s' : Shared) : Prop
  | same (hc : closes = none) (fds : s'.fds = s.fds) (accepted : s'.accepted = s.accepted)
      (log : ∀ e, e.inBooks → s'.log.count e = s.log.count e)
  | accept (fd) (hc : closes = none) (closed : s.fds fd = none)
      (fds : s'.fds = Function.update s.fds fd (some s.accepted))
      (accepted : s'.accepted = s.accepted + 1) (log : s'.log = s.log ++ [.accepted fd s.accepted])
  | close (fd) (hc : closes = some fd) (fds : s'.fds = (s.closeFd fd).fds)
      (accepted : s'.accepted = s.accepted) (log : s'.log = (s.closeFd fd).log)

namespace Shared

theorem count_emit {s : Shared} {e e' : Event} (he : e.inBooks) (he' : e'.inBooks = false) :
    (s.emit e').log.count e = s.log.count e := by
  have hne : e' ≠ e := by
    rintro rfl
    cases he'.symm.trans he
  simp [List.count_append, hne]

theorem count_unregister (s : Shared) (fd : Fd) {e : Event} (he : e.inBooks) :
    (s.unregister fd).log.count e = s.log.count e := by
  unfold unregister
  split
  · rfl
  · exact count_emit (s := { s with connections := _ }) he rfl

end Shared

namespace SubPc

theorem count_sendDone (s : Shared) (c : ConnId) (ctl : Bool) {e : Event} (he : e.inBooks) :
    (sendDone s c ctl).1.log.count e = s.log.count e := by
  simp only [sendDone]
  split
  · simp [Shared.setConn]
  · rw [Shared.count_emit he rfl]
    simp [Shared.setConn]

theorem count_sendStep {s : Shared} {c r ctl s' next} (h : sendStep s c r ctl = some (s', next))
    {e : Event} (he : e.inBooks) : s'.log.count e = s.log.count e := by
  have handed : ∀ k m, (handed s c k m).log.count e = s.log.count e := fun _ _ =>
    Shared.count_emit (s := s.setConn c _) he rfl
  generalize hout : (s', next) = out at h
  have hs : s' = out.1 := by rw [← hout]
  rw [hs]
  cases sendStep_cases h with
  | nothing => rfl
  | empty ctl => exact count_sendDone s c ctl he
  | blocked ctl => simp
  | failed => exact Shared.count_emit (s := s.setConn c _) he rfl
  | whole k ctl => exact (count_sendDone _ c ctl he).trans (handed k _)
  | part k m ctl => exact (congrArg (List.count e) (Shared.modifyFd_log ..)).trans (handed k m)

theorem exec_books {s : Shared} {p : SubPc} {i s' next} (h : p.exec s i = some (s', next)) :
    Shared.Books p.closes s s' := by
  cases exec_steps h with
  | closeErase fd => exact .same rfl (by simp) (by simp) fun e he => s.count_unregister fd he
  | closeFd fd => exact .close fd rfl rfl (by simp) rfl
  | send c r ctl h₁ =>
    have frame := sendStep_frame h₁
    exact .same rfl frame.fds frame.accepted fun e he => count_sendStep h₁ he
  | _ => exact .same rfl rfl rfl fun _ _ => rfl

end SubPc

theorem EventPc.exec_books {s : Shared} {pc : EventPc} {i s' pc'} (h : pc.exec s i = some (s', pc')) :
    Shared.Books (pc.closes s) s s' := by
  cases exec_steps h with
  | accept fd k free => exact .accept fd rfl free rfl rfl rfl
  | acceptFull fd k hfull => exact .close fd (if_pos hfull) rfl (by simp) rfl
  | acceptCheck fd k hroom => exact .same (if_neg hroom) rfl rfl fun _ _ => rfl
  | acceptReject fd | dataCloseFd fd => exact .close fd rfl rfl (by simp) rfl
  | acceptInsert fd c k =>
    exact .same rfl rfl rfl fun e he => Shared.count_emit (s := { s with connections := _ }) he rfl
  | completes fd c chunk k | appends fd c chunk k =>
    refine .same rfl rfl rfl fun e he => ?_
    cases e <;> simp [Event.inBooks] at he <;> simp [Shared.setConn, List.count_append]
  | dataErase fd => exact .same rfl (by simp) (by simp) fun e he => s.count_unregister fd he
  | recvFails | tooLarge | sweeps => exact .same rfl rfl rfl fun e he => Shared.count_emit he rfl
  | sub p ret next h₁ => exact SubPc.exec_books h₁
  | _ => exact .same rfl rfl rfl fun _ _ => rfl

theorem WorkerPc.exec_books {s : Shared} {pc : WorkerPc} {i s' pc'}
    (h : pc.exec s i = some (s', pc')) : Shared.Books pc.closes s s' := by
  cases exec_steps h with
  | parse | parseInvalid => exact .same rfl rfl rfl fun e he => Shared.count_emit he rfl
  | store c response | finish c =>
    exact .same rfl rfl rfl fun e he => Shared.count_emit (s := s.setConn c _) he rfl
  | sub p c next h₁ => exact SubPc.exec_books h₁
  | _ => exact .same rfl rfl rfl fun _ _ => rfl

theorem StopPc.exec_books {s : Shared} {pc : StopPc} {a b s' pc'}
    (h : pc.exec s a b = some (s', pc')) : Shared.Books pc.closes s s' := by
  cases exec_steps h with
  | notCalled =>
    exact .same rfl rfl rfl fun e he => Shared.count_emit (s := { s with running := _ }) he rfl
  | close fd rest =>
    refine .close fd rfl (by simp [Shared.removeFd]) (by simp [Shared.removeFd]) ?_
    unfold Shared.closeFd Shared.removeFd
    dsimp only
    split <;> rfl
  | _ => exact .same rfl rfl rfl fun _ _ => rfl

/-- The books balance: each accept is of a socket not accepted before, and
its close has been logged unless the descriptor still denotes the socket. -/
structure Shared.Ledger (s : Shared) : Prop where
  balanced : ∀ fd k, s.log.count (.accepted fd k) =
    s.log.count (.closed fd k) + if s.fds fd = some k then 1 else 0
  once : ∀ fd k, s.log.count (.accepted fd k) ≤ 1
  fresh : ∀ fd k, s.accepted ≤ k → s.log.count (.accepted fd k) = 0

namespace Shared

theorem Ledger.books {s s' : Shared} {closes} (h : s.Ledger) (hb : Books closes s s') :
    s'.Ledger := by
  cases hb with
  | same _ fds accepted log =>
    refine ⟨fun fd k => ?_, fun fd k => ?_, fun fd k hk => ?_⟩
    · rw [log _ rfl, log _ rfl, fds]
      exact h.balanced fd k
    · rw [log _ rfl]
      exact h.once fd k
    · rw [log _ rfl]
      exact h.fresh fd k (accepted ▸ hk)
  | accept fd _ closed fds accepted log =>
    have counts : ∀ fd' k, s'.log.count (.accepted fd' k) =
        s.log.count (.accepted fd' k) + if fd' = fd ∧ k = s.accepted then 1 else 0 := by
      intro fd' k
      by_cases hk : fd' = fd ∧ k = s.accepted
      · obtain ⟨rfl, rfl⟩ := hk
        simp [log, List.count_append]
      · have hne : Event.accepted fd s.accepted ≠ .accepted fd' k := by
          rintro heq
          injection heq with h₁ h₂
          exact hk ⟨h₁.symm, h₂.symm⟩
        simp [log, List.count_append, hne, hk]
    have closes : ∀ fd' k, s'.log.count (.closed fd' k) = s.log.count (.closed fd' k) := by
      intro fd' k
      simp [log, List.count_append]
    refine ⟨fun fd' k => ?_, fun fd' k => ?_, fun fd' k hk => ?_⟩ <;> rw [counts]
    · have hbal := h.balanced fd' k
      rw [closes, fds, Function.update_apply]
      by_cases hfd : fd' = fd
      · subst hfd
        rw [closed] at hbal
        by_cases hk : k = s.accepted
        · simp_all
        · have : s.accepted ≠ k := fun e => hk e.symm
          simp_all
      · simpa [hfd] using hbal
    · have honce := h.once fd' k
      split
      · next hk =>
        have := h.fresh fd' k hk.2.ge
        omega
      · omega
    · rw [accepted] at hk
      rw [h.fresh fd' k (Nat.le_of_succ_le hk), if_neg fun e => Nat.ne_of_gt hk e.2]
  | close fd _ fds accepted log =>
    cases hfd : s.fds fd with
    | none =>
      have hs : s.closeFd fd = s := by simp only [closeFd, hfd]
      rw [hs] at fds log
      refine ⟨fun fd' k => ?_, fun fd' k => ?_, fun fd' k hk => ?_⟩ <;> rw [log]
      · rw [fds]
        exact h.balanced fd' k
      · exact h.once fd' k
      · exact h.fresh fd' k (accepted ▸ hk)
    | some k₀ =>
      have hlog : s'.log = s.log ++ [.closed fd k₀] := by
        rw [log]
        simp only [closeFd, hfd]
        rfl
      have counts : ∀ fd' k, s'.log.count (.accepted fd' k) = s.log.count (.accepted fd' k) := by
        intro fd' k
        simp [hlog, List.count_append]
      refine ⟨fun fd' k => ?_, fun fd' k => ?_, fun fd' k hk => ?_⟩ <;> rw [counts]
      · have hbal := h.balanced fd' k
        rw [fds, closeFd_fds, Function.update_apply, hlog, List.count_append, List.count_singleton]
        by_cases hfd' : fd' = fd
        · subst hfd'
          rw [hfd] at hbal
          by_cases hk : k₀ = k <;> simp_all
        · have hne : Event.closed fd k₀ ≠ .closed fd' k := by
            intro heq
            injection heq with h₁
            exact hfd' h₁.symm
          simpa [hfd', hne] using hbal
      · exact h.once fd' k
      · exact h.fresh fd' k (accepted ▸ hk)

/-- The number denotes a socket that was accepted and has not been closed. -/
structure Holds (s : Shared) (fd : Fd) (k : Sock) : Prop where
  denotes : s.fds fd = some k
  accepted : .accepted fd k ∈ s.log
  unclosed : .closed fd k ∉ s.log

theorem Ledger.holds {s : Shared} (h : s.Ledger) {fd} (hfd : s.fds fd ≠ none) :
    ∃ k, s.Holds fd k := by
  obtain ⟨k, hk⟩ := Option.ne_none_iff_exists'.mp hfd
  have hbal := h.balanced fd k
  have honce := h.once fd k
  rw [hk, if_pos rfl] at hbal
  exact ⟨k, hk, List.count_pos_iff.mp (by omega), List.count_eq_zero.mp (by omega)⟩

theorem Ledger.closed_le {s : Shared} (h : s.Ledger) (fd : Fd) (k : Sock) :
    s.log.count (.closed fd k) ≤ 1 := by
  have hbal := h.balanced fd k
  have honce := h.once fd k
  omega

/-- Each descriptor that is open is registered or in a thread's hands. -/
def Covered {Θ : Type*} (s : Shared) (hands : Θ → List Fd) : Prop :=
  Custody.Covered (fun fd => s.fds fd ≠ none) (fun fd => s.connections.lookup fd ≠ none) hands

theorem Covered.handles {Θ : Type*} {s s' : Shared} {hands hands' : Θ → List Fd} {t : Θ}
    {event held erases l l'} (h : s.Covered hands) (hh : Handles event held erases s s' l l')
    (ht : hands t = l) (ht' : hands' t = l') (hf : ∀ t', t' ≠ t → hands' t' = hands t') :
    s'.Covered hands' := by
  -- a step changes no thread's hands but in what it takes or lets go
  have keeps : ∀ fd, (∀ fd', fd' ≠ fd → fd' ∈ l → fd' ∈ l') →
      ∀ t' fd', fd' ≠ fd → fd' ∈ hands t' → fd' ∈ hands' t' := by
    intro fd hl t' fd' hne hm
    by_cases hte : t' = t
    · subst hte
      rw [ht']
      exact hl fd' hne (ht ▸ hm)
    · exact hf t' hte ▸ hm
  cases hh with
  | same conns fds =>
    intro fd hopen
    rcases h fd (fds ▸ hopen) with hl | ⟨t', hm⟩
    · exact .inl (conns ▸ hl)
    · by_cases hte : t' = t
      · exact .inr ⟨t, by rw [ht', ← ht, ← hte]; exact hm⟩
      · exact .inr ⟨t', hf t' hte ▸ hm⟩
  | accept fd k _ _ conns fds =>
    refine Custody.Covered.move h fd (fun _ => .inr ⟨t, by simp [ht']⟩) (fun fd' hne ho => ?_)
      (fun fd' _ hs => conns ▸ hs) (keeps fd (by simp))
    simpa [fds, hne] using ho
  | register fd c k _ _ _ _ conns fds =>
    refine Custody.Covered.move h fd (fun _ => .inl (by simp [conns])) (fun fd' _ ho => fds ▸ ho)
      (fun fd' hne hs => ?_) (keeps fd (by simp))
    simpa [conns, AList.lookup_insert_ne hne] using hs
  | erase fd _ _ found hs =>
    subst hs
    refine Custody.Covered.move h fd (fun _ => .inr ⟨t, by simp [ht']⟩)
      (fun fd' _ ho => by simpa using ho) (fun fd' hne hl => ?_) (keeps fd (by simp))
    simpa [lookup_unregister, hne] using hl
  | close fd conns fds =>
    refine Custody.Covered.move h fd (fun ho => absurd (by simp [fds]) ho) (fun fd' hne ho => ?_)
      (fun fd' _ hs => conns ▸ hs) (keeps fd (by simp))
    simpa [fds, hne] using ho

end Shared

namespace Server

variable {n : Nat}

theorem exec_books {s s' : Server n} {a} (h : s.step a = some s') :
    Shared.Books (s.closes a) s.shared s'.shared := by
  cases step_cases h with
  | event i sh pc he => exact EventPc.exec_books he
  | worker w i sh pc he => exact WorkerPc.exec_books he
  | stop wl el sh pc he => exact StopPc.exec_books he
  | tick => exact .same rfl rfl rfl fun _ _ => rfl

theorem ledger {ok} {s : Server n} (h : (system n).ReachableBy ok s) : s.shared.Ledger := by
  refine h.invariant (I := fun s => s.shared.Ledger) ?_ fun s a s' _ hi _ hs => hi.books (exec_books hs)
  intro s hinit
  obtain ⟨_, _, _, _, rfl⟩ := hinit
  exact ⟨fun _ _ => rfl, fun _ _ => Nat.zero_le _, fun _ _ _ => rfl⟩

theorem covered {ok} {s : Server n} (h : (system n).ReachableBy ok s)
    (hstop : s.stop.eventJoined = false) : s.shared.Covered s.hands := by
  refine h.invariant (I := fun s => s.stop.eventJoined = false → s.shared.Covered s.hands) ?_ ?_ hstop
  · intro s hinit _ fd hopen
    obtain ⟨_, _, _, _, rfl⟩ := hinit
    exact absurd rfl hopen
  intro s a s' hr hi _ hs hstop'
  cases step_cases hs with
  | event i sh pc he =>
    refine (hi hstop').handles (t := .event) (EventPc.exec_handles (tidy hr hstop').event he) rfl rfl
      fun t ht => ?_
    cases t <;> first | rfl | exact absurd rfl ht
  | worker w i sh pc he =>
    refine (hi hstop').handles (t := .worker w)
      (WorkerPc.exec_handles ((tidy hr hstop').worker w) he) rfl (by simp [hands]) fun t ht => ?_
    cases t with
    | worker w' =>
      have : w' ≠ w := fun e => ht (by rw [e])
      simp [hands, this]
    | _ => rfl
  | stop wl el sh pc he =>
    have hbefore := StopPc.not_joined_before he hstop'
    obtain ⟨conns, fds⟩ := (StopPc.exec_frame he).2.2.2.2 hbefore
    intro fd hopen
    exact conns ▸ hi hbefore fd (fds ▸ hopen)
  | tick => exact hi hstop'

/-- What `stop()` finds, once it is alone, and what it leaves. -/
def Closing (s : Server n) : Prop :=
  match s.stop with
  | .lock => ∀ fd, s.shared.fds fd ≠ none ↔ s.shared.connections.lookup fd ≠ none
  | .closeAll rest => rest.Nodup ∧ ∀ fd, s.shared.fds fd ≠ none ↔ fd ∈ rest
  | .done => (∀ fd, s.shared.fds fd = none) ∧ s.shared.connections = ∅
  | _ => True

theorem Closing.of_not_joined {s : Server n} (h : s.stop.eventJoined = false) : s.Closing := by
  unfold Closing
  split
  all_goals simp_all [StopPc.eventJoined]

/-- With the threads gone, what is open is what is registered. -/
theorem Closing.of_exited {s : Server n} (ht : s.Tidy) (hc : s.shared.Covered s.hands)
    (hev : s.event = .exited) (hw : ∀ w, s.worker w = .exited) :
    ∀ fd, s.shared.fds fd ≠ none ↔ s.shared.connections.lookup fd ≠ none := by
  intro fd
  refine ⟨fun hopen => (hc fd hopen).resolve_right ?_, ht.kept.shelved_open fd⟩
  rintro ⟨_ | w | _, hm⟩
  · simp [hands, hev, EventPc.hands] at hm
  · simp [hands, hw w, WorkerPc.hands] at hm
  · cases hm

theorem closing {ok} {s : Server n} (h : (system n).ReachableBy ok s) : s.Closing := by
  refine h.invariant (I := Closing) ?_ ?_
  · intro s hinit
    obtain ⟨_, _, _, _, rfl⟩ := hinit
    trivial
  intro s a s' hr hi _ hs
  cases step_cases hs with
  | event i sh pc he => exact .of_not_joined ((joined hr).not_joined_of_event he)
  | worker w i sh pc he => exact .of_not_joined ((joined hr).not_joined_of_worker he)
  | stop wl el sh pc he _ hel =>
    generalize hst : s.stop = stop at he
    cases StopPc.exec_steps he with
    | joinEvent helt =>
      have hnot : s.stop.eventJoined = false := by rw [hst]; rfl
      have hw := (joined hr).worker (by rw [hst]; rfl)
      exact Closing.of_exited (s := s) (tidy hr hnot) (covered hr hnot) (hel helt) hw
    | lock =>
      simp only [Closing, hst] at hi
      refine ⟨s.shared.connections.nodupKeys, fun fd => (hi fd).trans ?_⟩
      rw [Option.ne_none_iff_isSome, AList.lookup_isSome]
      rfl
    | close fd rest =>
      simp only [Closing, hst] at hi
      obtain ⟨hnot, hnodup⟩ := List.nodup_cons.mp hi.1
      refine ⟨hnodup, fun fd' => ?_⟩
      have hiff := hi.2 fd'
      simp only [Shared.closeFd_fds, Shared.removeFd, Function.update_apply]
      by_cases hfd : fd' = fd
      · subst hfd
        simpa using hnot
      · simpa [hfd] using hiff
    | clear =>
      simp only [Closing, hst] at hi
      exact ⟨fun fd => by_contra fun hne => List.not_mem_nil ((hi.2 fd).mp hne), rfl⟩
    | _ => trivial
  | tick => exact hi

/-- What a step passes to `close` is open. -/
theorem open_of_closes {s s' : Server n} {a fd} (h : (system n).Reachable s)
    (hs : s.step a = some s') (hc : s.closes a = some fd) : s.shared.fds fd ≠ none := by
  have inHand : s.stop.eventJoined = false → ∀ t, fd ∈ s.hands t → s.shared.fds fd ≠ none :=
    fun hstop t hm => (tidy h hstop).kept.hands_open t fd hm
  cases step_cases hs with
  | event i sh pc he =>
    refine inHand ((joined h).not_joined_of_event he) .event ?_
    simp only [closes, EventPc.closes] at hc
    simp only [hands]
    split at hc
    case h_1 fd' k _ =>
      split at hc <;> simp_all [EventPc.hands]
    case h_4 p ret hpc =>
      rw [hpc]
      cases p <;> simp_all [SubPc.closes, EventPc.hands, SubPc.hands]
    all_goals simp_all [EventPc.hands]
  | worker w i sh pc he =>
    refine inHand ((joined h).not_joined_of_worker he) (.worker w) ?_
    simp only [closes, WorkerPc.closes] at hc
    simp only [hands]
    split at hc
    · next p c hpc =>
      rw [hpc]
      cases p <;> simp_all [SubPc.closes, WorkerPc.hands, SubPc.hands]
    · cases hc
  | stop =>
    have hi := closing h
    simp only [closes, StopPc.closes] at hc
    split at hc
    · next fd' rest hst =>
      simp only [Closing, hst] at hi
      exact (hi.2 fd).mpr (by simp_all)
    · cases hc
  | tick => cases hc

/-- **The descriptors are accounted for.** A call of `close` is for a number
that denotes an accepted socket not closed before, so that none is closed
twice; outside the last section of `stop()` the keys of the map are such
numbers; a connection is registered under a number that has no entry; and
when `stop()` has returned, each accept has its close. -/
theorem descriptors_accounted {s : Server n} (h : (system n).Reachable s) :
    (∀ a s' fd, s.step a = some s' → s.closes a = some fd → ∃ k, s.shared.Holds fd k) ∧
    (∀ fd k, s.shared.log.count (.closed fd k) ≤ 1) ∧
    ((∀ rest, s.stop ≠ .closeAll rest) → ∀ fd c, s.shared.connections.lookup fd = some c →
      ∃ k, s.shared.Holds fd k) ∧
    (∀ fd c k, s.event = .acceptInsert fd c k → s.shared.connections.lookup fd = none) ∧
    (s.stop = .done → ∀ fd k, .accepted fd k ∈ s.shared.log →
      s.shared.log.count (.closed fd k) = 1) := by
  have hledger := ledger h
  have hclosing := closing h
  refine ⟨fun a s' fd hs hc => hledger.holds (open_of_closes h hs hc), hledger.closed_le,
    fun hnot fd c hl => hledger.holds ?_, fun fd c k hev => ?_, fun hdone fd k hacc => ?_⟩
  · have hl : s.shared.connections.lookup fd ≠ none := by simp [hl]
    cases hst : s.stop with
    | lock =>
      simp only [Closing, hst] at hclosing
      exact (hclosing fd).mpr hl
    | closeAll rest => exact absurd hst (hnot rest)
    | done =>
      simp only [Closing, hst] at hclosing
      simp [hclosing.2] at hl
    | _ => exact (tidy h (by rw [hst]; rfl)).kept.shelved_open fd hl
  · have hstop : s.stop.eventJoined = false := by
      by_contra hj
      cases hev.symm.trans ((joined h).event (by simpa using hj))
    have hm : fd ∈ s.hands .event := by simp [hands, hev, EventPc.hands]
    exact not_not.mp ((tidy h hstop).kept.not_shelved .event fd hm)
  · simp only [Closing, hdone] at hclosing
    have hbal := hledger.balanced fd k
    have honce := hledger.once fd k
    have hpos := List.count_pos_iff.mpr hacc
    rw [hclosing.1 fd, if_neg (by simp)] at hbal
    omega

theorem descriptors_accounted_stopped : ∃ s : Server 1, (system 1).Reachable s ∧ s.stop = .done ∧
    .accepted 7 0 ∈ s.shared.log ∧ s.shared.log.count (.closed 7 0) = 1 := by
  obtain ⟨s, hr, hs⟩ := System.exists_reachable init_fresh answeredAndStopped
    (fun s => decide (s.stop = .done ∧ .accepted 7 0 ∈ s.shared.log)) (by decide +kernel)
  obtain ⟨hdone, hacc⟩ := of_decide_eq_true hs
  exact ⟨s, hr, hdone, hacc, (descriptors_accounted hr).2.2.2.2 hdone 7 0 hacc⟩

end Server

end Webserver
