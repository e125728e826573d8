/-
The sweep over idle connections. It spares a connection with a response in its
slot, but does not look at `processing_request`: a request that waits in the
queue or is being answered for longer than the timeout is one its connection is
closed under. The flags and the place of the task tell which connections these
are; in a run where the sweep marks none of them, it closes none.
-/
import Webserver.Causes
import Webserver.ConnectionLimit
import Webserver.Resumption

namespace Webserver

open Cxx Locks Systems

/-! ## Requests in flight -/

/-- Each request dispatched has its response, and the last one is sent. -/
structure Answered (c : ConnId) (hist : List Event) : Prop where
  all : dispatches hist = (responses hist).length
  whole : ∃ l₁ out l₂, hist = l₁ ++ .stored c out :: l₂ ∧ responses l₂ = [] ∧ output l₂ = out

/-- A request of the connection was dispatched, and its response is not sent
completely. -/
structure Shared.InFlight (s : Shared) (c : ConnId) : Prop where
  processing : (s.heap c).processingRequest = true
  unanswered : ¬Answered c (history c s.log)

/-- Whoever is registered under the number has no request in flight. -/
def Shared.Spared (s : Shared) (fd : Fd) : Prop := ∀ c, s.connections.lookup fd = some c → ¬s.InFlight c

theorem Answered.append {c : ConnId} {hist l : List Event} (h : Answered c hist)
    (hl : ∀ e ∈ l, e.keepsRound = true ∧ e.keepsSlot = true) : Answered c (hist ++ l) := by
  have hr := responses_of_keepsRound fun e he => (hl e he).1
  have ho := output_of_keepsSlot fun e he => (hl e he).2
  obtain ⟨hall, l₁, out, l₂, rfl, hlast, hout⟩ := h
  refine ⟨?_, l₁, out, l₂ ++ l, by simp, ?_, ?_⟩
  · rw [dispatches_append, responses_append, dispatches_of_keepsRound fun e he => (hl e he).1, hr, hall,
      List.append_nil, Nat.add_zero]
  · rw [responses_append, hlast, hr, List.append_nil]
  · rw [output_append, hout, ho, List.append_nil]

namespace Shared

variable {s s' : Shared} {c : ConnId}

/-- What neither dispatches nor stores nor sends puts no request in flight. -/
theorem InFlight.of_quiet {l : List Event} (h : s'.InFlight c)
    (hp : (s'.heap c).processingRequest = true → (s.heap c).processingRequest = true)
    (hl : ∀ e ∈ l, e.keepsRound = true ∧ e.keepsSlot = true)
    (hist : history c s'.log = history c s.log ++ l) : s.InFlight c :=
  ⟨hp h.processing, fun ha => h.unanswered (hist ▸ ha.append hl)⟩

theorem InFlight.of_same (h : s'.InFlight c) (heap : s'.heap c = s.heap c)
    (hist : history c s'.log = history c s.log) : s.InFlight c :=
  h.of_quiet (l := []) (by rw [heap]; exact id) nofun (by simpa using hist)

/-- Sending puts no request in flight: what is answered has nothing left to send. -/
theorem InFlight.of_send {r ctl next} (h : s'.InFlight c) (hr : s.Resumes c)
    (hs : SubPc.sendStep s c r ctl = some (s', next)) : s.InFlight c := by
  refine ⟨(SubPc.sendStep_frame hs).conn.processing ▸ h.processing, fun ha => h.unanswered ?_⟩
  obtain ⟨l₁, out, l₂, hhist, hlast, hout⟩ := ha.whole
  have hp := ((hr l₁ out l₂ hhist hlast).ended_iff.mpr hout).1
  simp only [SubPc.sendStep, hp, Bool.not_false, if_true, Option.some.injEq, Prod.mk.injEq] at hs
  rwa [← hs.1]

end Shared

/-- Only where the event thread appends a chunk does it put a request in flight. -/
theorem EventPc.exec_inFlight {s : Shared} {pc : EventPc} {i s' pc' c} (hr : s.Resumes c)
    (hne : ∀ fd chunk k, pc ≠ dataAppend fd c chunk k) (he : pc.exec s i = some (s', pc'))
    (h : s'.InFlight c) : s.InFlight c := by
  cases exec_touch c he with
  | away heap hist => exact h.of_same heap hist
  | noted e note heap hist =>
    refine h.of_quiet (l := [e]) (by rw [heap]; exact id) (fun e' he' => ?_) hist
    rw [List.mem_singleton.mp he']
    exact ⟨Event.keepsRound_of_isNote note, Event.keepsSlot_of_isNote note⟩
  | created fd hc heap hist =>
    have hp := h.processing
    rw [heap] at hp
    cases hp
  | send ret r ctl next _ _ hsend => exact h.of_send hr hsend
  | append fd chunk k hpc => exact absurd hpc (hne fd chunk k)

/-- No worker puts a request in flight: the response it stores is owed. -/
theorem WorkerPc.exec_inFlight {s : Shared} {pc : WorkerPc} {i s' pc' c} (hr : s.Resumes c)
    (howing : ∀ response, pc = store c response → (s.heap c).processingRequest = true ∧
      dispatches (history c s.log) = (responses (history c s.log)).length + 1)
    (he : pc.exec s i = some (s', pc')) (h : s'.InFlight c) : s.InFlight c := by
  cases exec_touch c he with
  | away heap hist => exact h.of_same heap hist
  | unregistered heap hist =>
    exact h.of_quiet (l := [.unregistered c]) (by rw [heap]; exact id)
      (by simp [Event.keepsRound, Event.keepsSlot]) hist
  | taken _ _ _ heap log => exact h.of_same heap (by rw [log])
  | parse request _ _ hs =>
    subst hs
    exact h.of_quiet (l := [.parsed c (s.heap c).buffer]) id (by simp [Event.keepsRound, Event.keepsSlot])
      (history_emit rfl)
  | missing response _ _ hs => exact hs ▸ h
  | keep request _ hs =>
    subst hs
    exact h.of_quiet (l := []) (by simp [Shared.setConn]) (List.forall_mem_nil _) (by simp [Shared.setConn])
  | unreg _ hs | finish _ hs =>
    have hp := h.processing
    simp [hs, Shared.setConn, Shared.emit] at hp
  | store response hpc =>
    obtain ⟨hp, howes⟩ := howing response hpc
    refine ⟨hp, fun ha => ?_⟩
    have := ha.all
    omega
  | send c' r ctl next _ _ hsend => exact h.of_send hr hsend

/-! ## What the flags tell -/

/-- The flag of a connection is set by the dispatch of a request. -/
def Shared.Flagged (s : Shared) (c : ConnId) : Prop :=
  (s.heap c).processingRequest = true → .dispatched c ∈ history c s.log

theorem EventPc.exec_flagged {s : Shared} {pc : EventPc} {i s' pc' c} (h : s.Flagged c)
    (he : pc.exec s i = some (s', pc')) : s'.Flagged c := by
  intro hp
  have htouch := exec_touch c he
  have keeps : (s.heap c).processingRequest = true → .dispatched c ∈ history c s'.log :=
    fun hp => htouch.mono (h hp)
  cases htouch with
  | away heap | noted _ _ heap => exact keeps (heap ▸ hp)
  | created fd hc heap => simp [heap] at hp
  | send ret r ctl next _ _ hsend => exact keeps ((SubPc.sendStep_frame hsend).conn.processing ▸ hp)
  | append fd chunk k hpc fits happ =>
    cases appendStep_cases fits happ with
    | completes _ _ _ hist => simp [hist]
    | waits _ heap =>
      rw [heap] at hp
      exact keeps hp

theorem WorkerPc.exec_flagged {s : Shared} {pc : WorkerPc} {i s' pc' c} (h : s.Flagged c)
    (he : pc.exec s i = some (s', pc')) : s'.Flagged c := by
  intro hp
  have htouch := exec_touch c he
  refine htouch.mono (h ?_)
  cases htouch with
  | away heap | unregistered heap | taken _ _ _ heap => exact heap ▸ hp
  | parse _ _ _ hs | missing _ _ _ hs => simpa [hs, Shared.emit] using hp
  | keep _ _ hs | store _ _ hs => simpa [hs, Shared.setConn, Shared.emit] using hp
  | unreg _ hs | finish _ hs => simp [hs, Shared.setConn, Shared.emit] at hp
  | send c' r ctl next _ _ hsend => exact (SubPc.sendStep_frame hsend).conn.processing ▸ hp

/-- Where a response was stored, one was stored last. -/
theorem exists_lastStored {c : ConnId} {log : List Event} (h : responses (history c log) ≠ []) :
    ∃ l₁ out l₂, history c log = l₁ ++ .stored c out :: l₂ ∧ responses l₂ = [] := by
  induction log using List.reverseRecOn with
  | nil => exact absurd rfl h
  | append_singleton log e ih =>
    by_cases hc : e.about = some c
    · rw [history_emit hc] at h ⊢
      by_cases hs : e.isStored = true
      · cases e with
        | stored c' out =>
          obtain rfl : c' = c := Option.some.inj hc
          exact ⟨_, out, [], rfl, rfl⟩
        | _ => cases hs
      · have hnone : responses [e] = [] := responses_eq_nil fun e' he' => by
          rwa [List.mem_singleton.mp he']
        rw [responses_append, hnone, List.append_nil] at h
        obtain ⟨l₁, out, l₂, hhist, hlast⟩ := ih h
        exact ⟨l₁, out, l₂ ++ [e], by simp [hhist], by rw [responses_append, hlast, hnone]; rfl⟩
    · rw [history_emit_of_ne hc] at h ⊢
      exact ih h

namespace Server

variable {n : Nat}

theorem flagged {ok} {s : Server n} (h : (system n).ReachableBy ok s) (c : ConnId) :
    s.shared.Flagged c := by
  refine h.invariant (I := fun s => s.shared.Flagged c) ?_ ?_
  · intro s hinit
    obtain ⟨_, _, _, _, rfl⟩ := hinit
    exact nofun
  intro s a s' _ hi _ hs
  cases step_cases hs with
  | event i sh pc he => exact EventPc.exec_flagged hi he
  | worker w i sh pc he => exact WorkerPc.exec_flagged hi he
  | stop wl el sh pc he =>
    obtain ⟨heap, -, -, hist, -⟩ := StopPc.exec_frame he
    simpa only [Shared.Flagged, heap, hist] using hi
  | tick => exact hi

/-- **The flags and the worker's place tell** whether a request is in flight:
`processing_request` is set, and no worker has stored the response yet, or
`has_pending_write` is set, or a failed `send` has left it in the slot. -/
theorem inFlight_iff {ok} {s : Server n} (h : (system n).ReachableBy ok s)
    (hstop : s.stop.eventJoined = false) (c : ConnId) :
    s.shared.InFlight c ↔ (s.shared.heap c).processingRequest = true ∧
      ¬(s.sending c ∧ (s.shared.heap c).hasPendingWrite = false ∧
        (s.shared.heap c).pendingResponse = []) := by
  have hrounds := rounds (c := c) h hstop
  have hresumes := resumes h c
  constructor
  · intro hin
    refine ⟨hin.processing, fun ⟨hsending, hp, hempty⟩ => hin.unanswered ?_⟩
    have hall := hrounds.sending hsending
    have hpos : 0 < dispatches (history c s.shared.log) :=
      List.countP_pos_iff.mpr ⟨_, flagged h c hin.processing, rfl⟩
    obtain ⟨l₁, out, l₂, hhist, hlast⟩ :=
      exists_lastStored (List.ne_nil_of_length_pos (hall ▸ hpos))
    refine ⟨hall, l₁, out, l₂, hhist, hlast, ?_⟩
    rcases (hresumes l₁ out l₂ hhist hlast).ended hp with ⟨hout, -⟩ | ⟨-, -, hne⟩
    · exact hout
    · exact absurd hempty hne
  · rintro ⟨hp, hnot⟩
    refine ⟨hp, fun ha => hnot ?_⟩
    have hsending : s.sending c := by
      by_contra hns
      have := hrounds.owing hp hns
      have := ha.all
      omega
    obtain ⟨l₁, out, l₂, hhist, hlast, hout⟩ := ha.whole
    have hprogress := hresumes l₁ out l₂ hhist hlast
    obtain ⟨hpend, hopen⟩ := hprogress.ended_iff.mpr hout
    rcases hprogress.ended hpend with ⟨-, -, hempty⟩ | ⟨-, ⟨r, hfailed⟩, -⟩
    · exact ⟨hsending, hpend, hempty⟩
    · exact absurd hfailed (hopen r)

end Server

/-! ## What the sweep is going to close -/

namespace EventPc

/-- The numbers the sweep has marked and not closed yet. -/
def marked : EventPc → List Fd
  | cleanupScan _ _ inactive | cleanupLockConn _ _ _ _ _ inactive | cleanupRead _ _ _ _ _ inactive
  | cleanupUnlock inactive | cleanupClose inactive => inactive
  | sub p (.cleanup fds) => p.closing ++ fds
  | _ => []

/-- The sweep marks numbers whose connections have no request in flight, and
calls only `close_connection`. -/
structure Sparing (s : Shared) (pc : EventPc) : Prop where
  marked : ∀ fd ∈ pc.marked, s.Spared fd
  closes : ∀ p fds, pc = sub p (.cleanup fds) → p.sends = none

/-- What is left of the scan is registered. -/
def Scans (s : Shared) (pc : EventPc) : Prop :=
  ∀ fd c, (fd, c) ∈ pc.scanned → s.connections.lookup fd = some c

theorem exec_scans {s : Shared} {pc : EventPc} {i s' pc'} (hj : Scans s pc)
    (h : pc.exec s i = some (s', pc')) : Scans s' pc' := by
  cases exec_steps h with
  | cleanupLock now =>
    intro fd c hm
    obtain ⟨e, he, heq⟩ := List.mem_map.mp hm
    obtain ⟨rfl, rfl⟩ := Prod.mk.inj heq
    exact AList.mem_lookup_iff.mpr he
  | cleanupScan | cleanupLockConn => exact hj
  | sweeps | spares => exact fun fd c hm => hj fd c (List.mem_cons_of_mem _ hm)
  | sub p ret next h₁ => cases next <;> cases ret <;> exact nofun
  | _ => exact nofun

/-- The scan holds the mutex of the map. -/
theorem Scans.stable {s s' : Shared} {pc : EventPc} (hj : Scans s pc)
    (hconns : s'.connections = s.connections ∨ .connections ∉ pc.holds) : Scans s' pc := by
  intro fd c hm
  rcases hconns with hconns | hnot
  · exact hconns ▸ hj fd c hm
  · cases pc <;> simp [scanned] at hm <;> simp [holds] at hnot

/-- What a step marks beyond what was marked is the number the scan reads. -/
theorem exec_marked {s : Shared} {pc : EventPc} {i s' pc'} (h : pc.exec s i = some (s', pc'))
    (hcloses : ∀ p fds, pc = sub p (.cleanup fds) → p.sends = none) :
    (∀ p fds, pc' = sub p (.cleanup fds) → p.sends = none) ∧
    ∀ fd ∈ pc'.marked, fd ∈ pc.marked ∨
      ∃ now c rest inactive, pc = cleanupRead now fd c true rest inactive ∧ i = .go ∧
        (s.heap c).hasPendingWrite = false := by
  cases exec_steps h with
  | sweeps now fd c rest inactive hp =>
    refine ⟨nofun, fun fd' hm => ?_⟩
    rcases List.mem_append.mp hm with hm | hm
    · exact .inl hm
    · obtain rfl : fd' = fd := List.mem_singleton.mp hm
      exact .inr ⟨now, c, rest, inactive, rfl, rfl, hp⟩
  | cleanupClose fd fds =>
    refine ⟨fun p fds' heq => ?_, fun fd' hm => .inl hm⟩
    obtain ⟨rfl, -⟩ := EventPc.sub.inj heq
    rfl
  | sub p ret next h₁ =>
    cases ret with
    | calls k => cases next <;> exact ⟨nofun, nofun⟩
    | cleanup fds =>
      have hnot := hcloses p fds rfl
      have hsub : SubPc.closingNext next ⊆ p.closing := by
        rcases SubPc.exec_closing h₁ with hsub | ⟨c, r, ctl, rfl, -⟩
        · exact hsub
        · cases hnot
      cases next with
      | none => exact ⟨nofun, fun fd hm => .inl (List.mem_append_right _ hm)⟩
      | some p' =>
        refine ⟨fun p'' fds' heq => ?_, fun fd hm => .inl ?_⟩
        · obtain ⟨rfl, -⟩ := EventPc.sub.inj heq
          cases hsend : p'.sends with
          | none => rfl
          | some c => exact absurd (SubPc.exec_sends h₁ hsend) (by simp [hnot])
        · rcases List.mem_append.mp hm with hm | hm
          · exact List.mem_append_left _ (hsub hm)
          · exact List.mem_append_right _ hm
  | _ => exact ⟨nofun, fun _ hm => .inl hm⟩

/-- What registers nothing and puts no request in flight leaves the marked numbers spared. -/
theorem Sparing.stable {s s' : Shared} {pc : EventPc} (h : Sparing s pc) (hn : s.Narrows s')
    (hf : ∀ c, s'.InFlight c → s.InFlight c) : Sparing s' pc :=
  ⟨fun fd hfd c hc hin => h.marked fd hfd c (hn.lookup fd c hc) (hf c hin), h.closes⟩

theorem exec_sparing {s : Shared} {pc : EventPc} {i s' pc'} (hj : Sparing s pc) (hr : ∀ c, s.Resumes c)
    (hmark : ∀ now fd c rest inactive, pc = cleanupRead now fd c true rest inactive → i = .go →
      (s.heap c).hasPendingWrite = false → s.Spared fd)
    (he : pc.exec s i = some (s', pc')) : Sparing s' pc' := by
  obtain ⟨hcloses, hmarked⟩ := exec_marked he hj.closes
  refine ⟨fun fd hfd c hc hin => ?_, hcloses⟩
  -- the event thread is in its sweep, where it neither registers nor dispatches
  have hinsert : ∀ fd c k, pc ≠ acceptInsert fd c k := by
    rintro fd c k rfl
    cases exec_steps he
    cases hfd
  have happend : ∀ fd c chunk k, pc ≠ dataAppend fd c chunk k := by
    rintro fd c chunk k rfl
    cases exec_steps he <;> cases hfd
  have hspared : s.Spared fd := by
    rcases hmarked fd hfd with hm | ⟨now, c, rest, inactive, hpc, hi, hp⟩
    · exact hj.marked fd hm
    · exact hmark now fd c rest inactive hpc hi hp
  exact hspared c ((exec_narrows hinsert he).lookup fd c hc)
    (exec_inFlight (hr c) (fun fd chunk k => happend fd c chunk k) he hin)

end EventPc

/-! ## Runs -/

namespace Server

variable {n : Nat}

/-- Where the sweep marks a connection whose `processing_request` is set, a
worker has stored its response, and the slot is empty again. -/
def spares (s : Server n) : Action n → Prop
  | .event .go =>
    match s.event with
    | .cleanupRead _ _ c idle _ _ =>
      idle = true → (s.shared.heap c).hasPendingWrite = false →
        (s.shared.heap c).processingRequest = true →
          s.sending c ∧ (s.shared.heap c).pendingResponse = []
    | _ => True
  | _ => True

theorem scans {ok} {s : Server n} (h : (system n).ReachableBy ok s) : s.event.Scans s.shared := by
  refine h.invariant (I := fun s => s.event.Scans s.shared) ?_ ?_
  · intro s hinit
    obtain ⟨_, _, _, _, rfl⟩ := hinit
    exact nofun
  intro s a s' hr hi _ hs
  cases step_cases hs with
  | event i sh pc he => exact EventPc.exec_scans hi he
  | worker w i sh pc he =>
    have ht := tidy hr ((joined hr).not_joined_of_worker he)
    refine hi.stable ((WorkerPc.exec_handles (ht.worker w) he).connections.imp_right fun hm hm' => ?_)
    cases (consistent hr).exclusive (.worker w) .event hm hm'
  | stop wl el sh pc he =>
    obtain ⟨-, -, -, -, hframe⟩ := StopPc.exec_frame he
    cases hj : s.stop.eventJoined with
    | false => exact hi.stable (.inl (hframe hj).1)
    | true =>
      simp only [(joined hr).event hj]
      exact nofun
  | tick => exact hi.stable (.inl rfl)

theorem sparing {s : Server n} (h : (system n).ReachableBy spares s) : s.event.Sparing s.shared := by
  refine h.invariant (I := fun s => s.event.Sparing s.shared) ?_ ?_
  · intro s hinit
    obtain ⟨_, _, _, _, rfl⟩ := hinit
    exact ⟨nofun, nofun⟩
  intro s a s' hr hi hok hs
  cases step_cases hs with
  | event i sh pc he =>
    refine EventPc.exec_sparing hi (resumes hr) (fun now fd c rest inactive hpc hgo hp => ?_) he
    subst hgo
    intro c' hc' hin
    -- the connection that is marked is the one registered under the number
    have hl := scans hr fd c (by simp [hpc, EventPc.scanned])
    obtain rfl : c' = c := Option.some.inj (hc'.symm.trans hl)
    simp only [spares, hpc] at hok
    obtain ⟨hsending, hempty⟩ := hok trivial hp hin.processing
    exact ((inFlight_iff hr ((joined hr).not_joined_of_event he) c').mp hin).2 ⟨hsending, hp, hempty⟩
  | worker w i sh pc he =>
    refine hi.stable (WorkerPc.exec_narrows he) fun c hin => ?_
    refine WorkerPc.exec_inFlight (resumes hr c) (fun response hpc => ?_) he hin
    -- the task's response is the one that is owed
    have ht := tasked hr c
    have hst : (s.worker w).stageOf c = some .answering := hpc ▸ WorkerPc.stageOf_of_stage rfl
    have hp := (ht.alone hst).1
    refine ⟨hp, (rounds hr ((joined hr).not_joined_of_worker he)).owing hp ?_⟩
    rw [ht.sending_iff hst]
    simp
  | stop wl el sh pc he =>
    obtain ⟨heap, -, -, hist, -⟩ := StopPc.exec_frame he
    exact hi.stable (StopPc.exec_narrows he) fun c hin => hin.of_same (by rw [heap]) (hist c)
  | tick => exact hi.stable (.of_eq rfl rfl) fun c hin => hin.of_same rfl rfl

/-- **The idle sweep spares busy connections**, in every run in which it marks
none whose request has no response yet or one that is not sent: what it closes
has no request in flight. -/
theorem sweep_spares {s : Server n} (h : (system n).ReachableBy spares s) {fd : Fd} {fds : List Fd}
    {c : ConnId} (hclose : s.event = .sub (.closeErase fd) (.cleanup fds))
    (hc : s.shared.connections.lookup fd = some c) : ¬s.shared.InFlight c := by
  refine (sparing h).marked fd ?_ c hc
  rw [hclose]
  exact List.mem_cons_self

/-- With 31 seconds gone and nothing to report, the sweep over `k` connections
comes to erase the one that it marks. -/
def sweptAfter (actions : List (Action 1)) (k : Nat) : List (Action 1) :=
  actions ++ [.tick 31000000000] ++ eventSteps (pollInputs [] ++ List.replicate (8 + 3 * k) .go)

/-- One client says nothing; the kernel takes five bytes of the other one's
response, and its worker has not cleared the buffer yet. -/
def oneBusy : List (Action 1) :=
  sweptAfter (acceptClient 7 1 ++ acceptClient 8 2 ++ receiveRequest 8 getRequest 2 ++
    workerSteps (answerInputs ++ respondInputs (.accepts 5))) 2

/-- A test of the flags that implies the condition. -/
def sparesFlagged (s : Server 1) : Action 1 → Bool
  | .event .go =>
    match s.event with
    | .cleanupRead _ _ c idle _ _ =>
      !idle || (s.shared.heap c).hasPendingWrite || !(s.shared.heap c).processingRequest
    | _ => true
  | _ => true

theorem spares_of_sparesFlagged (s : Server 1) (a : Action 1) (h : sparesFlagged s a = true) :
    s.spares a := by
  unfold spares
  split
  · split
    · next hpc =>
      intro hidle hp hprocessing
      simp [sparesFlagged, hpc, hidle, hp, hprocessing] at h
    · trivial
  · trivial

theorem sweep_spares_oneBusy : ∃ s : Server 1, s.event = .sub (.closeErase 7) (.cleanup []) ∧
    s.shared.connections.lookup 7 = some 0 ∧ ¬s.shared.InFlight 0 ∧
    s.shared.connections.lookup 8 = some 1 ∧ s.shared.InFlight 1 := by
  obtain ⟨s, hr, hs⟩ := System.exists_reachableBy init_fresh sparesFlagged oneBusy
    (fun s => decide (s.event = .sub (.closeErase 7) (.cleanup []) ∧
      s.shared.connections.lookup 7 = some 0 ∧ s.shared.connections.lookup 8 = some 1 ∧
      (s.shared.heap 1).processingRequest = true ∧ (s.shared.heap 1).hasPendingWrite = true ∧
      s.stop = .notCalled)) (by decide +kernel)
  obtain ⟨hclose, hidle, hbusy, hprocessing, hp, hstop⟩ := of_decide_eq_true hs
  refine ⟨s, hclose, hidle, sweep_spares (hr.mono spares_of_sparesFlagged) hclose hidle, hbusy, ?_⟩
  refine (inFlight_iff hr (by rw [hstop]; rfl) 1).mpr ⟨hprocessing, fun h => ?_⟩
  simp [hp] at h

/-- The task waits in the queue while the connection is closed for it. -/
theorem not_sweep_spares : ¬ ∀ (n : Nat) (s : Server n), (system n).Reachable s → ∀ fd fds c,
    s.event = .sub (.closeErase fd) (.cleanup fds) → s.shared.connections.lookup fd = some c →
      ¬s.shared.InFlight c := by
  intro h
  obtain ⟨s, hr, hs⟩ := System.exists_reachable init_fresh
    (sweptAfter (acceptClient 7 1 ++ receiveRequest 7 getRequest 1) 1)
    (fun s => s.event = .sub (.closeErase 7) (.cleanup []) && s.shared.connections.lookup 7 = some 0 &&
      (s.shared.heap 0).processingRequest && decide (responses (history 0 s.shared.log) = []))
    (by decide +kernel)
  simp only [Bool.and_eq_true, decide_eq_true_eq] at hs
  obtain ⟨⟨⟨hclose, hc⟩, hp⟩, hnone⟩ := hs
  refine h 1 s hr 7 [] 0 hclose hc ⟨hp, fun ha => ?_⟩
  obtain ⟨l₁, out, l₂, hhist, -⟩ := ha.whole
  rw [hhist] at hnone
  simp [responses] at hnone

end Server

end Webserver
