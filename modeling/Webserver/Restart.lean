/-
A server that is started again after `stop()`. The thread pool is made once, by
the constructor: what `stop()` has shut down stays shut down, and no worker is
left to take what is in its queue.
-/
import Webserver.Lifecycle
import Webserver.Stopping
import Webserver.Unread

namespace Webserver

open Cxx Locks Systems

/-! ## The connections of the new event thread -/

/-- The connections registered have been constructed since. -/
structure Shared.Since (base : ConnId) (s : Shared) : Prop where
  created : base ≤ s.created
  connections : ∀ fd c, s.connections.lookup fd = some c → base ≤ c

namespace Shared

variable {base : ConnId} {s s' : Shared}

theorem Since.congr (h : s.Since base) (hn : s'.created = s.created) (hc : s'.connections = s.connections) :
    s'.Since base := ⟨hn ▸ h.created, hc ▸ h.connections⟩

theorem Since.closeFd (h : s.Since base) (fd : Fd) : (s.closeFd fd).Since base := h.congr (by simp) (by simp)

theorem Since.unregister (h : s.Since base) (fd : Fd) : (s.unregister fd).Since base := by
  refine ⟨by simpa using h.created, fun fd' c hc => ?_⟩
  rw [lookup_unregister] at hc
  split at hc
  · cases hc
  · exact h.connections fd' c hc

end Shared

variable {base : ConnId}

theorem SubPc.exec_since {s : Shared} {p : SubPc} {i s' next} (hs : s.Since base) (hp : ∀ c ∈ p.refs, base ≤ c)
    (h : p.exec s i = some (s', next)) : s'.Since base ∧ ∀ c ∈ refsNext next, base ≤ c := by
  cases exec_steps h with
  | closeFound fd c hc => exact ⟨hs, by simpa [refsNext, refs] using hs.connections fd c hc⟩
  | closeErase fd => exact ⟨hs.unregister fd, List.forall_mem_nil _⟩
  | closeRemoveFd fd => exact ⟨hs.congr rfl rfl, List.forall_mem_nil _⟩
  | closeFd fd => exact ⟨hs.closeFd fd, List.forall_mem_nil _⟩
  | send c r ctl h₁ =>
    refine ⟨hs.congr (sendStep_frame h₁).created (sendStep_frame h₁).connections, ?_⟩
    rcases sendStep_next h₁ with rfl | ⟨fd, rfl⟩ <;> simp [refsNext, refs]
  | _ => first | exact ⟨hs, hp⟩ | exact ⟨hs, List.forall_mem_nil _⟩

/-- The event thread refers to what it has referred to, what it finds in the map,
and what it constructs. -/
theorem EventPc.exec_since {s : Shared} {pc : EventPc} {i s' pc'} (hs : s.Since base)
    (hpc : ∀ c ∈ pc.refs, base ≤ c) (h : pc.exec s i = some (s', pc')) :
    s'.Since base ∧ ∀ c ∈ pc'.refs, base ≤ c := by
  cases exec_steps h with
  | acceptFull | acceptReject => exact ⟨hs.closeFd _, List.forall_mem_nil _⟩
  | acceptConnection fd k =>
    exact ⟨⟨Nat.le_succ_of_le hs.created, hs.connections⟩, by simpa [refs] using hs.created⟩
  | acceptInsert fd c k =>
    refine ⟨⟨hs.created, fun fd' c' hl => ?_⟩, List.forall_mem_nil _⟩
    have hl : (s.connections.insert fd c).lookup fd' = some c' := hl
    by_cases hfd : fd' = fd
    · rw [hfd, AList.lookup_insert] at hl
      exact Option.some.inj hl ▸ hpc c (by simp [refs])
    · rw [AList.lookup_insert_ne hfd] at hl
      exact hs.connections fd' c' hl
  | dataFound fd c k hl | writeFound fd c k hl =>
    exact ⟨hs, by simpa [refs, SubPc.refs] using hs.connections fd c hl⟩
  | dataErase => exact ⟨hs.unregister _, by simpa [refs] using hpc⟩
  | dataCloseFd => exact ⟨hs.closeFd _, by simpa [refs] using hpc⟩
  | cleanupLock now =>
    refine ⟨hs, fun c hc => ?_⟩
    simp only [refs, List.map_map, List.mem_map, Function.comp_apply] at hc
    obtain ⟨e, he, rfl⟩ := hc
    exact hs.connections e.1 e.2 (AList.mem_lookup_iff.mpr he)
  | sweeps now fd c rest inactive =>
    exact ⟨hs.congr rfl rfl, fun c' hc' => hpc c' (List.mem_cons_of_mem _ hc')⟩
  | spares => exact ⟨hs, fun c' hc' => hpc c' (List.mem_cons_of_mem _ hc')⟩
  | sub p ret next h₁ =>
    obtain ⟨hb, hr⟩ := SubPc.exec_since hs hpc h₁
    refine ⟨hb, ?_⟩
    cases next with
    | none => cases ret <;> exact List.forall_mem_nil _
    | some p' => exact hr
  | _ => first | exact ⟨hs.congr rfl rfl, hpc⟩ | exact ⟨hs.congr rfl rfl, List.forall_mem_nil _⟩

theorem StopPc.exec_since {s : Shared} {pc : StopPc} {a b s' pc'} (hs : s.Since base)
    (h : pc.exec s a b = some (s', pc')) : s'.Since base := by
  cases exec_steps h with
  | close fd rest => exact (show (s.removeFd fd).Since base from hs.congr rfl rfl).closeFd fd
  | clear => exact ⟨hs.created, by simp⟩
  | _ => exact hs.congr rfl rfl

/-- A `Connection` that nothing has happened to. -/
structure Connection.Fresh (conn : Connection) : Prop where
  buffer : conn.buffer = []
  pending : conn.hasPendingWrite = false
  idle : conn.processingRequest = false

namespace Server

variable {n : Nat}

/-- A connection not yet constructed is as its construction will leave it. -/
theorem fresh_of_created_le {ok} {s : Server n} (h : (system n).ReachableBy ok s) {c : ConnId}
    (hc : s.shared.created ≤ c) : (s.shared.heap c).Fresh := by
  refine h.invariant (I := fun s => s.shared.created ≤ c → (s.shared.heap c).Fresh) ?_ ?_ hc
  · intro s hinit _
    obtain ⟨_, _, _, _, rfl⟩ := hinit
    exact ⟨rfl, rfl, rfl⟩
  intro s a s' hr hi _ hs hc'
  have hb := bounded hr
  cases step_cases hs with
  | event i sh pc he =>
    obtain ⟨-, hle, -⟩ := EventPc.exec_bounded hb.shared hb.event he
    have hold : s.shared.created ≤ c := hle.trans hc'
    -- no point of the code refers to the connection
    have absent : c ∉ s.event.refs := fun hm => absurd (hb.event c hm) hold.not_gt
    cases EventPc.exec_touch c he with
    | away heap | noted _ _ heap => exact (congrArg Connection.Fresh heap).mpr (hi hold)
    | created fd _ heap => exact (congrArg Connection.Fresh heap).mpr ⟨rfl, rfl, rfl⟩
    | append fd chunk k hpc => exact absurd (by simp [hpc, EventPc.refs]) absent
    | send ret r ctl next hpc => exact absurd (by simp [hpc, EventPc.refs, SubPc.refs]) absent
  | worker w i sh pc he =>
    obtain ⟨-, hn, -⟩ := WorkerPc.exec_bounded hb.shared (hb.worker w) he
    have hold : s.shared.created ≤ c := hn.ge.trans hc'
    have absent : c ∉ (s.worker w).refs := fun hm => absurd (hb.worker w c hm) hold.not_gt
    have carried : (s.worker w).carries ≠ some c := fun hcar => absent (WorkerPc.refs_of_carries hcar)
    cases WorkerPc.exec_touch c he with
    | away heap | unregistered heap => exact (congrArg Connection.Fresh heap).mpr (hi hold)
    | taken _ htasks => exact absurd (hb.shared.tasks c (by simp [htasks])) hold.not_gt
    | parse request hpc => exact absurd (by rw [hpc]; rfl) carried
    | keep request hpc => exact absurd (by rw [hpc]; rfl) carried
    | missing response hpc => exact absurd (by rw [hpc]; rfl) carried
    | unreg hpc => exact absurd (by rw [hpc]; rfl) carried
    | store response hpc => exact absurd (by rw [hpc]; rfl) carried
    | send c' r ctl next hpc => exact absurd (by simp [hpc, WorkerPc.refs, SubPc.refs]) absent
    | finish hpc => exact absurd (by rw [hpc]; rfl) carried
  | stop wl el sh pc he =>
    obtain ⟨heap, -⟩ := StopPc.exec_frame he
    have hn := (StopPc.exec_bounded hb.shared he).2
    exact (congrArg (fun f => (f c).Fresh) heap).mpr (hi (hn.ge.trans hc'))
  | tick => exact hi hc'

/-! ## A server that is started again -/

/-- `start()` on a server that has been stopped: a new socket, a new epoll
instance and a new event thread. The log begins anew. -/
def startAgain (s : Server n) (serverFd : Fd) : Server n :=
  { s with
    shared := { s.shared with serverFd, running := true, interest := fun _ => none, log := [] }
    event := .loop
    stop := .notCalled }

/-- A server that has run, has been stopped and is started again. -/
def systemAgain (n : Nat) : System (Server n) (Action n) where
  init s := ∃ t : Server n, ∃ serverFd, (system n).Reachable t ∧ t.stop = .done ∧ s = t.startAgain serverFd
  step := step

end Server

/-- What only a request taken up leaves in the log. -/
def Event.isAnswer : Event → Bool
  | .parsed _ _ | .stored _ _ | .sent _ _ _ => true
  | _ => false

namespace Server

variable {n : Nat}

/-- No worker is left, nothing is answered, and a complete request is on its way
to the exception. The connections from `base` on are those of the new run. -/
structure Mute (base : ConnId) (s : Server n) : Prop where
  worker : ∀ w, s.worker w = .exited
  pool : s.shared.poolShutdown = true
  since : s.shared.Since base
  refs : ∀ c ∈ s.event.refs, base ≤ c
  pending : ∀ c, base ≤ c → (s.shared.heap c).hasPendingWrite = false
  quiet : ∀ c, ∀ e ∈ history c s.shared.log, e.isAnswer = false
  flagged : ∀ c, base ≤ c → (s.shared.heap c).processingRequest = true →
    s.event.untested = true ∨ s.event = .thrown
  incomplete : ∀ c, base ≤ c → (s.shared.heap c).processingRequest = false →
    isHttpRequestComplete (s.shared.heap c).buffer = false

theorem not_complete_nil : isHttpRequestComplete [] = false := by decide

/-- What `stop()` leaves, started again. -/
theorem mute_startAgain {t : Server n} (h : (system n).Reachable t) (hdone : t.stop = .done) (serverFd : Fd) :
    (t.startAgain serverFd).Mute t.shared.created := by
  have hclosing := closing h
  simp only [Closing, hdone] at hclosing
  refine ⟨(joined h).worker (by rw [hdone]; rfl), ?_, ⟨le_rfl, fun fd c hl => ?_⟩, fun c hc => ?_, fun c hc => ?_,
    fun c e he => ?_, fun c hc hflag => ?_, fun c hc _ => ?_⟩
  · exact (poolShutdown_eq h).trans (by rw [hdone]; rfl)
  · simp [startAgain, hclosing.2] at hl
  · cases hc
  · exact (fresh_of_created_le h hc).pending
  · cases he
  · have hflag : (t.shared.heap c).processingRequest = true := hflag
    rw [(fresh_of_created_le h hc).idle] at hflag
    cases hflag
  · show isHttpRequestComplete (t.shared.heap c).buffer = false
    rw [(fresh_of_created_le h hc).buffer]
    exact not_complete_nil

theorem Mute.stepEvent {s : Server n} {i sh pc own} (h : s.Mute base)
    (he : s.event.exec s.shared i = some (sh, pc)) :
    Mute base { s with shared := sh, event := pc, owner := own } := by
  have hpool : sh.poolShutdown = true := (EventPc.exec_poolShutdown he).trans h.pool
  have htests := EventPc.exec_tests he
  obtain ⟨hsince, hrefs⟩ := EventPc.exec_since h.since h.refs he
  -- a complete request goes on to the exception, or the thread has ended
  have goes : s.event.untested = true ∨ s.event = .thrown → pc.untested = true ∨ pc = .thrown := by
    rintro (hu | ht)
    · exact htests.throws hu h.pool
    · rw [ht] at he
      cases he
  have touched : ∀ c, (∀ e ∈ history c sh.log, e.isAnswer = false) ∧ (base ≤ c →
      (sh.heap c).hasPendingWrite = false ∧
      ((sh.heap c).processingRequest = true → pc.untested = true ∨ pc = .thrown) ∧
      ((sh.heap c).processingRequest = false → isHttpRequestComplete (sh.heap c).buffer = false)) := by
    intro c
    have quiet : ∀ {l : List Event}, (∀ e ∈ l, e.isAnswer = false) →
        ∀ e ∈ history c s.shared.log ++ l, e.isAnswer = false := by
      intro l hl e hm
      rcases List.mem_append.mp hm with hm | hm
      · exact h.quiet c e hm
      · exact hl e hm
    have same : base ≤ c → (s.shared.heap c).hasPendingWrite = false ∧
        ((s.shared.heap c).processingRequest = true → pc.untested = true ∨ pc = .thrown) ∧
        ((s.shared.heap c).processingRequest = false → isHttpRequestComplete (s.shared.heap c).buffer = false) :=
      fun hc => ⟨h.pending c hc, fun hf => goes (h.flagged c hc hf), h.incomplete c hc⟩
    cases EventPc.exec_touch c he with
    | away heap hist =>
      rw [heap, hist]
      exact ⟨h.quiet c, same⟩
    | noted e note heap hist =>
      rw [heap, hist]
      refine ⟨quiet fun e' he' => ?_, same⟩
      obtain rfl := List.mem_singleton.mp he'
      cases e' <;> first | rfl | cases note
    | created fd hc heap hist =>
      rw [heap, hist]
      exact ⟨h.quiet c, fun _ => ⟨rfl, nofun, fun _ => not_complete_nil⟩⟩
    | append fd chunk k hpc fits happ =>
      cases EventPc.appendStep_cases fits happ with
      | completes idle complete heap hist _ hpc' =>
        rw [heap, hist]
        exact ⟨quiet (by simp [Event.isAnswer]), fun hc => ⟨h.pending c hc, fun _ => .inl (by rw [hpc']; rfl), nofun⟩⟩
      | waits incomplete heap hist _ hpc' =>
        rw [heap, hist]
        refine ⟨quiet (by simp [Event.isAnswer]), fun hc => ⟨h.pending c hc, fun hf => ?_, incomplete⟩⟩
        rcases h.flagged c hc hf with hu | ht
        · rw [hpc] at hu
          cases hu
        · rw [hpc] at ht
          cases ht
    | send ret r ctl next hpc hpc' hsend =>
      have hc : base ≤ c := h.refs c (by simp [hpc, EventPc.refs, SubPc.refs])
      have hnothing : SubPc.sendStep s.shared c r ctl = some (s.shared, none) := by
        simp [SubPc.sendStep, h.pending c hc]
      obtain ⟨rfl, -⟩ := Prod.mk.inj (Option.some.inj (hnothing.symm.trans hsend))
      exact ⟨h.quiet c, same⟩
  exact ⟨h.worker, hpool, hsince, hrefs, fun c hc => ((touched c).2 hc).1, fun c => (touched c).1,
    fun c hc => ((touched c).2 hc).2.1, fun c hc => ((touched c).2 hc).2.2⟩

theorem mute {s : Server n} (h : (systemAgain n).Reachable s) : ∃ base, s.Mute base := by
  refine h.invariant (I := fun s => ∃ base, s.Mute base) ?_ ?_
  · rintro s ⟨t, serverFd, ht, hdone, rfl⟩
    exact ⟨_, mute_startAgain ht hdone serverFd⟩
  rintro s a s' _ ⟨base, hi⟩ _ hs
  refine ⟨base, ?_⟩
  cases step_cases hs with
  | event i sh pc he => exact hi.stepEvent he
  | worker w i sh pc he =>
    rw [hi.worker w] at he
    cases he
  | stop wl el sh pc he =>
    obtain ⟨heap, -, -, hist, -⟩ := StopPc.exec_frame he
    have hpool : sh.poolShutdown = true := by
      cases hp : sh.poolShutdown with
      | true => rfl
      | false =>
        have hbefore := (StopPc.exec_poolShutdown he).1 hp
        rw [hi.pool] at hbefore
        cases hbefore
    have hsince : sh.Since base := StopPc.exec_since hi.since he
    exact ⟨hi.worker, hpool, hsince, hi.refs, fun c => by simpa [heap] using hi.pending c,
      fun c => by simpa [hist] using hi.quiet c, fun c => by simpa [heap] using hi.flagged c,
      fun c => by simpa [heap] using hi.incomplete c⟩
  | tick => exact ⟨hi.worker, hi.pool, hi.since.congr rfl rfl, hi.refs, hi.pending, hi.quiet, hi.flagged, hi.incomplete⟩

/-- **A server that is started again answers nothing**: in every run from there
no request is parsed, no response stored and no byte sent, whatever was left in
the queue, and no connection holds a complete request, unless the event thread is
about to hand it to the pool, whose `enqueue` throws, or has already ended with
the exception. -/
theorem answers_nothing {s : Server n} (h : (systemAgain n).Reachable s) :
    (∀ e ∈ s.shared.log, e.isAnswer = false) ∧
    ((∀ fd c, s.shared.connections.lookup fd = some c → (s.shared.heap c).Incomplete) ∨
      s.event.untested = true ∨ s.event = .thrown) := by
  obtain ⟨base, hm⟩ := mute h
  refine ⟨fun e he => ?_, ?_⟩
  · cases habout : e.about with
    | none => cases e <;> first | rfl | cases habout
    | some c => exact hm.quiet c e ((mem_history habout).mpr he)
  · by_cases hall : ∀ c, base ≤ c → (s.shared.heap c).processingRequest = false
    · exact .inl fun fd c hl => hm.incomplete c (hm.since.connections fd c hl) (hall c (hm.since.connections fd c hl))
    · push Not at hall
      obtain ⟨c, hc, hflag⟩ := hall
      exact .inr (hm.flagged c hc (by simpa using hflag))

/-- A client's request is in the queue when `stop()` is called, and stays there. -/
def stoppedAsked : List (Action 1) :=
  acceptClient 7 1 ++ receiveRequest 7 getRequest 1 ++ [.stop, .stop] ++ workerSteps [.leaves] ++ [.stop] ++
    eventSteps [.go] ++ [.stop, .stop, .stop, .stop]

/-- A client of the server that is started again asks as well, and its request
ends the process. -/
theorem answers_nothing_asked : ∃ s : Server 1, (systemAgain 1).Reachable s ∧ s.shared.tasks = [0] ∧
    s.event = .thrown ∧ .dispatched 1 ∈ s.shared.log ∧ ∀ e ∈ s.shared.log, e.isAnswer = false := by
  obtain ⟨t, ht, hrun⟩ := System.exists_reachable init_fresh stoppedAsked
    (fun t => decide (t.stop = .done) && ((systemAgain 1).run (t.startAgain 3)
      (acceptClient 7 1 ++ eventSteps (pollInputs [(7, true, false)] ++ dataInputs getRequest ++ [.go]))).any
        fun (s : Server 1) => decide (s.shared.tasks = [0] ∧ s.event = .thrown ∧ .dispatched 1 ∈ s.shared.log)) (by decide +kernel)
  simp only [Bool.and_eq_true, decide_eq_true_eq, Option.any_eq_true] at hrun
  obtain ⟨hdone, s, hs, htasks, hthrown, hdispatched⟩ := hrun
  have hr : (systemAgain 1).Reachable s := System.Reachable.of_run (.init ⟨t, 3, ht, hdone, rfl⟩) hs
  exact ⟨s, hr, htasks, hthrown, hdispatched, (answers_nothing hr).1⟩

end Server

end Webserver
