/-
The epoll set against the map. `add_fd`, `remove_fd` and `close` are calls of
their own, outside the map's mutex; still, in every reachable state the set
holds exactly the descriptors that are registered and those a thread is about
to register or to take out. So it never names a descriptor that is closed,
and nothing stays in it for good.
-/
import Webserver.Accounting

namespace Webserver

open Cxx Locks Systems

/-- The descriptor a point of `close_connection` is about to take out of the
epoll set. -/
def SubPc.watches : SubPc → List Fd
  | closeRemoveFd fd => [fd]
  | _ => []

/-- The descriptors the event thread has put in the epoll set and not yet
registered, or is about to take out. -/
def EventPc.watches : EventPc → List Fd
  | acceptConnection fd _ | acceptInsertLock fd _ _ | acceptInsert fd _ _ | dataRemoveFd fd _ _ => [fd]
  | sub p _ => p.watches
  | _ => []

def WorkerPc.watches : WorkerPc → List Fd
  | sub p _ => p.watches
  | _ => []

theorem SubPc.hands_of_watches {p : SubPc} {fd} (h : fd ∈ p.watches) : fd ∈ p.hands := by
  cases p <;> first | exact h | cases h

theorem EventPc.hands_of_watches {pc : EventPc} {fd} (h : fd ∈ pc.watches) : fd ∈ pc.hands := by
  cases pc with
  | sub p ret => exact SubPc.hands_of_watches h
  | _ => first | exact h | cases h

theorem WorkerPc.hands_of_watches {pc : WorkerPc} {fd} (h : fd ∈ pc.watches) : fd ∈ pc.hands := by
  cases pc with
  | sub p c => exact SubPc.hands_of_watches h
  | _ => cases h

/-- What a step of a thread does to the epoll set and the map; the lists are
what the thread watches before and after, `hands` what it has in its hands. -/
inductive Watches (hands : List Fd) (s s' : Shared) : List Fd → List Fd → Prop
  | same {l} (set : ∀ fd, s'.interest fd ≠ none ↔ s.interest fd ≠ none)
      (conns : s'.connections = s.connections) : Watches hands s s' l l
  | add (fd) (hm : fd ∈ hands) (set : s'.interest = Function.update s.interest fd (some false))
      (conns : s'.connections = s.connections) : Watches hands s s' [] [fd]
  | register (fd c) (set : s'.interest = s.interest)
      (conns : s'.connections = s.connections.insert fd c) : Watches hands s s' [fd] []
  | erase (fd) (found : s.connections.lookup fd ≠ none) (hs : s' = s.unregister fd) :
      Watches hands s s' [] [fd]
  | remove (fd) (set : s'.interest = Function.update s.interest fd none)
      (conns : s'.connections = s.connections) : Watches hands s s' [fd] []
  | close (fd) (hm : fd ∈ hands) (hs : s' = s.closeFd fd) : Watches hands s s' [] []

namespace Shared

theorem modifyFd_named (s : Shared) (fd : Fd) (out ok : Bool) (fd' : Fd) :
    (s.modifyFd fd out ok).interest fd' ≠ none ↔ s.interest fd' ≠ none := by
  unfold modifyFd
  split
  · by_cases h : fd' = fd <;> simp [h]
  · rfl

theorem closeFd_interest_of_none {s : Shared} {fd : Fd} (h : s.interest fd = none) :
    (s.closeFd fd).interest = s.interest := by
  unfold closeFd
  split
  · rfl
  · simp [emit, removeFd, ← h]

@[simp] theorem unregister_interest (s : Shared) (fd : Fd) :
    (s.unregister fd).interest = s.interest := by unfold unregister; split <;> rfl

end Shared

namespace SubPc

def watchesNext : Option SubPc → List Fd
  | none => []
  | some p => p.watches

theorem sendStep_interest {s : Shared} {c r ctl s' next} (h : sendStep s c r ctl = some (s', next))
    (fd : Fd) : s'.interest fd ≠ none ↔ s.interest fd ≠ none := by
  simp only [sendStep, sendDone, sendFailed] at h
  repeat' split at h
  all_goals simp only [Option.some.injEq, Prod.mk.injEq, reduceCtorEq] at h
  all_goals
    obtain ⟨rfl, -⟩ := h
    first | rfl | exact Shared.modifyFd_named _ _ _ _ _

theorem exec_watches {s : Shared} {p : SubPc} {i s' next} (hk : p.Knows s)
    (h : p.exec s i = some (s', next)) : Watches p.hands s s' p.watches (watchesNext next) := by
  cases exec_steps h with
  | closeErase fd => exact .erase fd hk rfl
  | closeRemoveFd fd => exact .remove fd rfl rfl
  | closeFd fd => exact .close fd (by simp [hands]) rfl
  | send c r ctl h₁ =>
    have frame := sendStep_frame h₁
    rcases sendStep_next h₁ with rfl | ⟨fd, rfl⟩ <;>
      exact .same (sendStep_interest h₁) frame.connections
  | _ => exact .same (fun _ => .rfl) rfl

end SubPc

namespace EventPc

theorem watches_resume (ret : EventRet) (next : Option SubPc) :
    (resume ret next).watches = SubPc.watchesNext next := by
  cases next <;> cases ret <;> rfl

theorem exec_watches {s : Shared} {pc : EventPc} {i s' pc'} (hk : pc.Knows s)
    (h : pc.exec s i = some (s', pc')) : Watches pc.hands s s' pc.watches pc'.watches := by
  cases exec_steps h with
  | acceptFull fd | acceptReject fd | dataCloseFd fd => exact .close fd (by simp [hands]) rfl
  | acceptAddFd fd => exact .add fd (by simp [hands]) rfl rfl
  | acceptInsert fd c => exact .register fd c rfl rfl
  | dataErase fd c k =>
    have found : s.connections.lookup fd = some c := hk
    exact .erase fd (by simp [found]) rfl
  | dataRemoveFd fd => exact .remove fd rfl rfl
  | sub p ret next h₁ =>
    rw [watches_resume]
    exact SubPc.exec_watches hk h₁
  | _ => exact .same (fun _ => .rfl) rfl

end EventPc

namespace WorkerPc

theorem watches_resume (c : ConnId) (next : Option SubPc) :
    (resume c next).watches = SubPc.watchesNext next := by
  cases next <;> rfl

theorem exec_watches {s : Shared} {pc : WorkerPc} {i s' pc'} (hk : pc.Knows s)
    (h : pc.exec s i = some (s', pc')) : Watches pc.hands s s' pc.watches pc'.watches := by
  cases exec_steps h with
  | sub p c next h₁ =>
    rw [watches_resume]
    exact SubPc.exec_watches hk h₁
  | _ => exact .same (fun _ => .rfl) rfl

end WorkerPc

/-- The epoll set holds what is registered and what the threads watch. -/
def Shared.Watched {Θ : Type*} (s : Shared) (watches : Θ → List Fd) : Prop :=
  Custody.Marked (fun fd => s.interest fd ≠ none) (fun fd => s.connections.lookup fd ≠ none) watches

theorem Shared.Watched.same {Θ : Type*} {s s' : Shared} {watches watches' : Θ → List Fd} {t : Θ}
    (h : s.Watched watches) (set : ∀ fd, s'.interest fd ≠ none ↔ s.interest fd ≠ none)
    (conns : s'.connections = s.connections) (ht : watches' t = watches t)
    (hf : ∀ t', t' ≠ t → watches' t' = watches t') : s'.Watched watches' := by
  have hsame : watches' = watches := by
    funext t'
    by_cases hte : t' = t
    · rw [hte, ht]
    · exact hf t' hte
  intro fd
  show s'.interest fd ≠ none ↔ s'.connections.lookup fd ≠ none ∨ ∃ t, fd ∈ watches' t
  rw [set fd, conns, hsame]
  exact h fd

theorem Shared.Watched.step {Θ : Type*} {s s' : Shared} {hands watches watches' : Θ → List Fd} {t : Θ}
    {l l'} (h : s.Watched watches) (hk : s.Kept hands) (hsub : ∀ t, ∀ fd ∈ watches t, fd ∈ hands t)
    (hw : Watches (hands t) s s' l l') (ht : watches t = l) (ht' : watches' t = l')
    (hf : ∀ t', t' ≠ t → watches' t' = watches t') : s'.Watched watches' := by
  cases hw with
  | same set conns => exact h.same set conns (ht'.trans ht.symm) hf
  | add fd hm set conns =>
    refine Custody.Marked.move h fd ?_ (fun fd' hne => ?_) (fun fd' _ => by rw [conns])
      (fun fd' hne => ?_) hf
    · exact ⟨fun _ => .inr ⟨t, by simp [ht']⟩, fun _ => by simp [set]⟩
    · simp [set, hne]
    · simp [ht, ht', hne]
  | register fd c set conns =>
    refine Custody.Marked.move h fd ?_ (fun fd' _ => by rw [set]) (fun fd' hne => ?_)
      (fun fd' hne => ?_) hf
    · exact ⟨fun _ => .inl (by simp [conns]), fun _ => set ▸ (h fd).mpr (.inr ⟨t, by simp [ht]⟩)⟩
    · simp [conns, AList.lookup_insert_ne hne]
    · simp [ht, ht', hne]
  | erase fd found hs =>
    subst hs
    refine Custody.Marked.move h fd ?_ (fun fd' _ => by simp) (fun fd' hne => ?_)
      (fun fd' hne => ?_) hf
    · exact ⟨fun _ => .inr ⟨t, by simp [ht']⟩, fun _ => by simpa using (h fd).mpr (.inl found)⟩
    · simp [lookup_unregister, hne]
    · simp [ht, ht', hne]
  | remove fd set conns =>
    have hm : fd ∈ watches t := by simp [ht]
    refine Custody.Marked.move h fd ?_ (fun fd' hne => by simp [set, hne])
      (fun fd' _ => by rw [conns]) (fun fd' hne => by simp [ht, ht', hne]) hf
    refine ⟨fun hset => absurd (by simp [set]) hset, ?_⟩
    -- no other thread watches it, and it is not registered
    rintro (hl | ⟨t', hm'⟩)
    · exact absurd (conns ▸ hl) (hk.not_shelved t fd (hsub t fd hm))
    · by_cases hte : t' = t
      · rw [hte, ht'] at hm'
        cases hm'
      · exact absurd (hk.unique t' t fd (hsub t' fd (hf t' hte ▸ hm')) (hsub t fd hm)) hte
  | close fd hm hs =>
    have hnot : ¬ s.interest fd ≠ none :=
      (show Custody.Marked (fun fd => s.interest fd ≠ none) _ _ from h).not_marked hk hsub hm
        (by simp [ht])
    have hout : s.interest fd = none := not_not.mp hnot
    subst hs
    exact h.same (fun fd' => by rw [closeFd_interest_of_none hout]) (by simp) (ht'.trans ht.symm) hf

namespace Server

variable {n : Nat}

def watches (s : Server n) : Thread n → List Fd
  | .event => s.event.watches
  | .worker w => (s.worker w).watches
  | .stop => []

theorem hands_of_watches (s : Server n) (t : Thread n) : ∀ fd ∈ s.watches t, fd ∈ s.hands t := by
  intro fd h
  cases t with
  | event => exact EventPc.hands_of_watches h
  | worker w => exact WorkerPc.hands_of_watches h
  | stop => cases h

theorem watched {ok} {s : Server n} (h : (system n).ReachableBy ok s)
    (hstop : s.stop.eventJoined = false) : s.shared.Watched s.watches := by
  refine h.invariant (I := fun s => s.stop.eventJoined = false → s.shared.Watched s.watches) ?_ ?_ hstop
  · intro s hinit _ fd
    obtain ⟨_, _, _, _, rfl⟩ := hinit
    refine ⟨fun hset => absurd rfl hset, ?_⟩
    rintro (hl | ⟨_ | w | _, hm⟩)
    · exact absurd rfl hl
    all_goals cases hm
  intro s a s' hr hi _ hs hstop'
  cases step_cases hs with
  | event i sh pc he =>
    have ht := tidy hr hstop'
    refine (hi hstop').step ht.kept s.hands_of_watches (t := .event) (EventPc.exec_watches ht.event he)
      rfl rfl fun t hne => ?_
    cases t <;> first | rfl | exact absurd rfl hne
  | worker w i sh pc he =>
    have ht := tidy hr hstop'
    refine (hi hstop').step ht.kept s.hands_of_watches (t := .worker w)
      (WorkerPc.exec_watches (ht.worker w) he) rfl (by simp [watches]) fun t hne => ?_
    cases t with
    | worker w' =>
      have : w' ≠ w := fun e => hne (by rw [e])
      simp [watches, this]
    | _ => rfl
  | stop wl el sh pc he =>
    have hbefore := StopPc.not_joined_before he hstop'
    intro fd
    have hold := hi hbefore fd
    generalize s.stop = stop at he hbefore
    cases StopPc.exec_steps he with
    | lock | close | clear => cases hstop'
    | _ => exact hold
  | tick => exact hi hstop'

/-- What `stop()` leaves in the epoll set. -/
def Unwatching (s : Server n) : Prop :=
  match s.stop with
  | .lock => ∀ fd, s.shared.interest fd ≠ none ↔ s.shared.connections.lookup fd ≠ none
  | .closeAll rest => ∀ fd, s.shared.interest fd ≠ none → fd ∈ rest
  | .done => ∀ fd, s.shared.interest fd = none
  | _ => True

theorem Unwatching.of_not_joined {s : Server n} (h : s.stop.eventJoined = false) : s.Unwatching := by
  unfold Unwatching
  split
  all_goals simp_all [StopPc.eventJoined]

theorem unwatching {ok} {s : Server n} (h : (system n).ReachableBy ok s) : s.Unwatching := by
  refine h.invariant (I := Unwatching) ?_ ?_
  · intro s hinit
    obtain ⟨_, _, _, _, rfl⟩ := hinit
    trivial
  intro s a s' hr hi _ hs
  cases step_cases hs with
  | event i sh pc he => exact .of_not_joined ((joined hr).not_joined_of_event he)
  | worker w i sh pc he => exact .of_not_joined ((joined hr).not_joined_of_worker he)
  | stop wl el sh pc he _ hel =>
    generalize hst : s.stop = stop at he
    cases StopPc.exec_steps he with
    | joinEvent helt =>
      -- the threads have ended and watch nothing
      have hwatched := watched hr (by rw [hst]; rfl)
      have hw := (joined hr).worker (by rw [hst]; rfl)
      refine fun fd => (hwatched fd).trans ⟨fun hm => hm.resolve_right ?_, .inl⟩
      rintro ⟨_ | w | _, hm⟩
      · simp [watches, hel helt, EventPc.watches] at hm
      · simp [watches, hw w, WorkerPc.watches] at hm
      · cases hm
    | lock =>
      simp only [Unwatching, hst] at hi
      intro fd hset
      have hl : (s.shared.connections.lookup fd).isSome :=
        Option.ne_none_iff_isSome.mp ((hi fd).mp hset)
      exact AList.lookup_isSome.mp hl
    | close fd rest =>
      simp only [Unwatching, hst] at hi
      intro fd' hset
      have hnone : (s.shared.removeFd fd).interest fd = none := by simp [Shared.removeFd]
      rw [Shared.closeFd_interest_of_none hnone] at hset
      by_cases hfd : fd' = fd
      · rw [hfd] at hset
        exact absurd hnone hset
      · refine (List.mem_cons.mp (hi fd' ?_)).resolve_left hfd
        simpa [Shared.removeFd, hfd] using hset
    | clear =>
      simp only [Unwatching, hst] at hi
      exact fun fd => by_contra fun hset => List.not_mem_nil (hi fd hset)
    | _ => trivial
  | tick => exact hi

/-- **The epoll set mirrors the map.** Until `stop()` has joined the event
thread, the set holds exactly the descriptors that are registered and those a
thread is about to register or to take out; it never names a closed
descriptor; and `stop()` leaves it empty. -/
theorem epoll_set {s : Server n} (h : (system n).Reachable s) :
    (s.stop.eventJoined = false → ∀ fd, s.shared.interest fd ≠ none ↔
      s.shared.connections.lookup fd ≠ none ∨ ∃ t, fd ∈ s.watches t) ∧
    (∀ fd, s.shared.interest fd ≠ none → s.shared.fds fd ≠ none) ∧
    (s.stop = .done → ∀ fd, s.shared.interest fd = none) := by
  have hset := unwatching h
  have hclosing := closing h
  refine ⟨fun hstop => watched h hstop, fun fd hin => ?_, fun hdone => ?_⟩
  · cases hst : s.stop with
    | lock =>
      simp only [Unwatching, Closing, hst] at hset hclosing
      exact (hclosing fd).mpr ((hset fd).mp hin)
    | closeAll rest =>
      simp only [Unwatching, Closing, hst] at hset hclosing
      exact (hclosing.2 fd).mpr (hset fd hin)
    | done =>
      simp only [Unwatching, hst] at hset
      exact absurd (hset fd) hin
    | _ =>
      have hstop : s.stop.eventJoined = false := by rw [hst]; rfl
      have hkept := (tidy h hstop).kept
      rcases (watched h hstop fd).mp hin with hl | ⟨t, hm⟩
      · exact hkept.shelved_open fd hl
      · exact hkept.hands_open t fd (s.hands_of_watches t fd hm)
  · simpa only [Unwatching, hdone] using hset

theorem epoll_set_answered : ∃ s : Server 1, (system 1).Reachable s ∧
    s.shared.connections.lookup 7 = some 0 ∧ s.shared.interest 7 ≠ none ∧ s.shared.fds 7 ≠ none := by
  obtain ⟨s, hr, hs⟩ := System.exists_reachable init_fresh answered
    (fun s => decide (s.shared.connections.lookup 7 = some 0 ∧ s.stop.eventJoined = false))
    (by decide +kernel)
  obtain ⟨hl, hstop⟩ := of_decide_eq_true hs
  have hin := ((epoll_set hr).1 hstop 7).mpr (.inl (by simp [hl]))
  exact ⟨s, hr, hl, hin, (epoll_set hr).2.1 7 hin⟩

end Server

end Webserver
