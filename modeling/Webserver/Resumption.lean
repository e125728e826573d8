/-
Sending in parts. From the moment a response is stored until the next one is,
the bytes the kernel has taken are those before the offset; and the epoll set
waits for room exactly as long as some are left.
-/
import Webserver.Stream

namespace Webserver

open Cxx Locks Systems

/-! ## The last response -/

/-- How far a response has come since it was stored. -/
structure Progress (c : ConnId) (conn : Connection) (out : Bytes) (l : List Event) : Prop where
  pending : conn.hasPendingWrite = true → conn.pendingResponse = out ∧
    output l = out.take conn.responseOffset ∧ conn.responseOffset < out.length ∧
    ∀ r, .sendFailed c r ∉ l
  ended : conn.hasPendingWrite = false →
    (output l = out ∧ (∀ r, .sendFailed c r ∉ l) ∧ conn.pendingResponse = []) ∨
      (output l ≠ out ∧ (∃ r, .sendFailed c r ∈ l) ∧ conn.pendingResponse ≠ [])

/-- The response stored last has come as far as the slot says. -/
def Resumes (c : ConnId) (conn : Connection) (hist : List Event) : Prop :=
  ∀ l₁ out l₂, hist = l₁ ++ .stored c out :: l₂ → responses l₂ = [] → Progress c conn out l₂

/-- What stores nothing comes after the last response. -/
theorem append_eq_stored {c : ConnId} {hist l l₁ l₂ : List Event} {out : Bytes}
    (hl : ∀ e ∈ l, e.isStored = false) (h : hist ++ l = l₁ ++ .stored c out :: l₂) :
    ∃ l₃, hist = l₁ ++ .stored c out :: l₃ ∧ l₂ = l₃ ++ l := by
  have hnot : .stored c out ∉ l := fun hm => Bool.noConfusion (hl _ hm)
  rcases List.append_eq_append_iff.mp h with ⟨l', -, rfl⟩ | ⟨l', hhist, hl'⟩
  · exact absurd (List.mem_append_right l' List.mem_cons_self) hnot
  · cases l' with
    | nil =>
      rw [List.nil_append] at hl'
      exact absurd (hl' ▸ List.mem_cons_self) hnot
    | cons e l₃ =>
      obtain ⟨rfl, rfl⟩ := List.cons.inj hl'
      exact ⟨l₃, hhist, rfl⟩

namespace Resumes

variable {c : ConnId} {conn conn' : Connection} {hist l : List Event}

/-- What stores nothing adds to what is known of the last response. -/
theorem extend (h : Resumes c conn hist) (hl : ∀ e ∈ l, e.isStored = false)
    (hp : ∀ out l', Progress c conn out l' → Progress c conn' out (l' ++ l)) :
    Resumes c conn' (hist ++ l) := by
  intro l₁ out l₂ heq hlast
  obtain ⟨l₃, hhist, rfl⟩ := append_eq_stored hl heq
  rw [responses_append, List.append_eq_nil_iff] at hlast
  exact hp out l₃ (h l₁ out l₃ hhist hlast.1)

theorem of_no_history : Resumes c conn [] := by
  intro l₁ out l₂ heq
  simp at heq

theorem store {out : Bytes} (hne : out ≠ []) (conn : Connection) (hist : List Event) :
    Resumes c { conn with pendingResponse := out, responseOffset := 0, hasPendingWrite := true }
      (hist ++ [.stored c out]) := by
  intro l₁ out' l₂ heq hlast
  rcases List.eq_nil_or_concat l₂ with rfl | ⟨l₃, e, rfl⟩
  · obtain ⟨-, hout⟩ := List.append_inj' heq rfl
    obtain rfl : out = out' := by simpa using hout
    exact ⟨fun _ => ⟨rfl, rfl, List.length_pos_iff.mpr hne, nofun⟩, nofun⟩
  · -- nothing is stored after the last response
    rw [List.concat_eq_append, ← List.cons_append, ← List.append_assoc] at heq
    obtain ⟨-, he⟩ := List.append_inj' heq rfl
    obtain rfl : Event.stored c out = e := by simpa using he
    simp [responses] at hlast

end Resumes

namespace Progress

variable {c : ConnId} {conn conn' : Connection} {out : Bytes} {l l' : List Event}

theorem quiet (h : Progress c conn out l) (hl : ∀ e ∈ l', e.keepsSlot = true ∧ e.isOutput = false)
    (same : SameSlot conn conn') : Progress c conn' out (l ++ l') := by
  have ho : output (l ++ l') = output l := by
    rw [output_append, output_of_keepsSlot fun e he => (hl e he).1, List.append_nil]
  have hf : ∀ r, .sendFailed c r ∈ l ++ l' ↔ .sendFailed c r ∈ l := fun r => by
    refine List.mem_append.trans (or_iff_left fun hm => ?_)
    cases (hl _ hm).2
  refine ⟨fun hp => ?_, fun hp => ?_⟩
  · rw [same.response, same.offset, ho]
    simpa only [hf] using h.pending (same.pending ▸ hp)
  · rw [ho, same.response]
    simpa only [hf] using h.ended (same.pending ▸ hp)

/-- The kernel takes more bytes, but not all. -/
theorem handed {k : Sock} {m : Nat} (h : Progress c conn out l) (hp : conn.hasPendingWrite = true)
    (hm : m < (SubPc.rest conn).length) :
    Progress c { conn with responseOffset := conn.responseOffset + m } out
      (l ++ [.sent c k ((SubPc.rest conn).take m)]) := by
  obtain ⟨hresponse, hout, -, hopen⟩ := h.pending hp
  refine ⟨fun _ => ⟨hresponse, ?_, ?_, fun r => by simp [hopen r]⟩, fun hnot => ?_⟩
  · rw [output_append, hout, List.take_add]
    simp [output, Event.payload, SubPc.rest, hresponse]
  · simp only [SubPc.rest, List.length_drop, hresponse] at hm
    show conn.responseOffset + m < out.length
    omega
  · rw [show conn.hasPendingWrite = false from hnot] at hp
    cases hp

/-- The kernel takes the last bytes, and the slot is emptied. -/
theorem whole {k : Sock} (h : Progress c conn out l) (hp : conn.hasPendingWrite = true)
    (hp' : conn'.hasPendingWrite = false) (hr : conn'.pendingResponse = [])
    (hl : l' = [] ∨ l' = [.finished c]) :
    Progress c conn' out (l ++ .sent c k (SubPc.rest conn) :: l') := by
  obtain ⟨hresponse, hout, -, hopen⟩ := h.pending hp
  refine ⟨fun h => absurd h (by simp [hp']), fun _ => .inl ⟨?_, fun r => ?_, hr⟩⟩
  · rw [output_append, hout]
    rcases hl with rfl | rfl <;> simp [output, Event.payload, SubPc.rest, hresponse]
  · rcases hl with rfl | rfl <;> simp [hopen r]

/-- A send fails, and the response stays in the slot. -/
theorem failed {r : SendResult} (h : Progress c conn out l) (hp : conn.hasPendingWrite = true)
    (hp' : conn'.hasPendingWrite = false) (hr : conn'.pendingResponse = conn.pendingResponse) :
    Progress c conn' out (l ++ [.sendFailed c r]) := by
  obtain ⟨hresponse, hout, hlt, -⟩ := h.pending hp
  have hne : conn'.pendingResponse ≠ [] := by
    rw [hr, hresponse]
    exact List.ne_nil_of_length_pos (Nat.zero_lt_of_lt hlt)
  refine ⟨fun h => absurd h (by simp [hp']), fun _ => .inr ⟨fun hall => ?_, ⟨r, by simp⟩, hne⟩⟩
  have hfailed : output [Event.sendFailed c r] = [] := rfl
  rw [output_append, hout, hfailed, List.append_nil] at hall
  have hlen := congrArg List.length hall
  rw [List.length_take] at hlen
  omega

/-- Nothing is left, and no send failed, exactly if all was taken. -/
theorem ended_iff (h : Progress c conn out l) :
    conn.hasPendingWrite = false ∧ (∀ r, .sendFailed c r ∉ l) ↔ output l = out := by
  constructor
  · rintro ⟨hp, hopen⟩
    rcases h.ended hp with ⟨hall, -⟩ | ⟨-, ⟨r, hfailed⟩, -⟩
    · exact hall
    · exact absurd hfailed (hopen r)
  · intro hall
    cases hp : conn.hasPendingWrite with
    | true =>
      -- something is left, and so not all was taken
      obtain ⟨-, hout, hlt, -⟩ := h.pending hp
      have hlen := congrArg List.length (hout.symm.trans hall)
      rw [List.length_take] at hlen
      omega
    | false =>
      rcases h.ended hp with ⟨-, hopen, -⟩ | ⟨hnot, -⟩
      · exact ⟨rfl, hopen⟩
      · exact absurd hall hnot

end Progress

theorem Resumes.quiet {c : ConnId} {conn conn' : Connection} {hist l : List Event} (h : Resumes c conn hist)
    (hl : ∀ e ∈ l, e.keepsSlot = true ∧ e.isOutput = false) (same : SameSlot conn conn') :
    Resumes c conn' (hist ++ l) :=
  h.extend (fun e he => Bool.eq_false_iff.mpr (Event.not_isStored_of_keepsSlot (hl e he).1))
    fun _ _ hprogress => hprogress.quiet hl same

/-! ## One step -/

theorem HttpResponse.toString_ne_nil (order : MapOrder) (r : HttpResponse) : r.toString order ≠ [] := by
  have hversion : version ≠ [] := by decide +kernel
  simp [HttpResponse.toString, hversion]

theorem Shared.modifyFd_interest {s : Shared} {fd : Fd} (h : s.interest fd ≠ none) (out : Bool) :
    (s.modifyFd fd out true).interest fd = some out := by
  obtain ⟨waits, hwaits⟩ := Option.ne_none_iff_exists'.mp h
  simp [Shared.modifyFd, hwaits]

namespace SubPc

theorem sendStep_resumes {s : Shared} {c r ctl s' next} (h : Resumes c (s.heap c) (history c s.log))
    (hs : sendStep s c r ctl = some (s', next)) : Resumes c (s'.heap c) (history c s'.log) := by
  generalize hout : (s', next) = out at hs
  obtain rfl : s' = out.1 := by rw [← hout]
  have handed : ∀ k m, history c (handed s c k m).log =
      history c s.log ++ [.sent c k ((rest (s.heap c)).take m)] := fun _ _ => history_emit rfl
  have done : ∀ (s₁ : Shared) ctl, ((sendDone s₁ c ctl).1.heap c).hasPendingWrite = false ∧
      ((sendDone s₁ c ctl).1.heap c).pendingResponse = [] := by
    intro s₁ ctl
    simp only [sendDone]
    split <;> simp [Shared.setConn, Shared.emit]
  cases sendStep_cases hs with
  | nothing => exact h
  | blocked ctl => simpa using h
  | empty ctl hp hrest =>
    -- nothing is left only where nothing was stored
    have stuck : ∀ out l, ¬Progress c (s.heap c) out l := fun out l hprogress => by
      obtain ⟨hresponse, -, hlt, -⟩ := hprogress.pending hp
      rw [rest, hresponse, List.drop_eq_nil_iff] at hrest
      omega
    rcases sendDone_history s c ctl with hist | hist <;> rw [hist]
    · rw [← List.append_nil (history c s.log)]
      exact h.extend (by simp) fun out l hprogress => absurd hprogress (stuck out l)
    · exact h.extend (by simp [Event.isStored]) fun out l hprogress => absurd hprogress (stuck out l)
  | failed hp =>
    have hist : history c (SubPc.sendFailed s c r).1.log = history c s.log ++ [.sendFailed c r] :=
      history_emit rfl
    rw [hist]
    refine h.extend (by simp [Event.isStored]) fun out l hprogress => hprogress.failed hp ?_ ?_ <;>
      simp [SubPc.sendFailed, Shared.setConn, Shared.emit]
  | whole k ctl hp =>
    have hall : (rest (s.heap c)).take (rest (s.heap c)).length = rest (s.heap c) := List.take_length
    rcases sendDone_history (SubPc.handed s c k (rest (s.heap c)).length) c ctl with hist | hist <;>
      rw [hist, handed, hall]
    · exact h.extend (by simp [Event.isStored]) fun out l hprogress =>
        hprogress.whole hp (done _ ctl).1 (done _ ctl).2 (.inl rfl)
    · rw [List.append_assoc]
      exact h.extend (by simp [Event.isStored]) fun out l hprogress =>
        hprogress.whole hp (done _ ctl).1 (done _ ctl).2 (.inr rfl)
  | part k m ctl hp hk hm =>
    have := h.extend (l := [.sent c k ((rest (s.heap c)).take m)]) (by simp [Event.isStored])
      fun out l hprogress => hprogress.handed hp hm
    rw [Shared.modifyFd_log, Shared.modifyFd_heap, handed]
    simpa [SubPc.handed, Shared.emit, Shared.setConn] using this

/-- After a call the epoll set waits for room where a part is left, and no
longer where the connection is kept. -/
structure Waits (fd : Fd) (c : ConnId) (s' : Shared) : Prop where
  part : (s'.heap c).hasPendingWrite = true → s'.interest fd = some true
  whole : (s'.heap c).hasPendingWrite = false → (s'.heap c).keepAlive = true → s'.interest fd = some false

theorem Waits.blocked {s : Shared} {fd c} (hp : (s.heap c).hasPendingWrite = true)
    (hfd : s.interest fd ≠ none) : Waits fd c (s.modifyFd fd true true) where
  part _ := Shared.modifyFd_interest hfd true
  whole hnot := by
    rw [Shared.modifyFd_heap, hp] at hnot
    cases hnot

theorem Waits.done {s : Shared} {c} (hfd : s.interest (s.heap c).fd ≠ none) :
    Waits (s.heap c).fd c (sendDone s c true).1 := by
  let cleared := s.setConn c { s.heap c with
    hasPendingWrite := false, pendingResponse := [], responseOffset := 0 }
  have hwaits : (cleared.modifyFd (s.heap c).fd false true).interest (s.heap c).fd = some false :=
    Shared.modifyFd_interest hfd false
  simp only [sendDone]
  split <;> exact ⟨by simp [Shared.setConn, Shared.emit], fun _ _ => hwaits⟩

theorem Waits.failed (s : Shared) (fd : Fd) (c : ConnId) (r : SendResult) :
    Waits fd c (sendFailed s c r).1 := by
  constructor <;> simp [sendFailed, Shared.setConn, Shared.emit]

theorem sendStep_waits {s : Shared} {c r s' next} (hs : sendStep s c r true = some (s', next))
    (hp : (s.heap c).hasPendingWrite = true) (hfd : s.interest (s.heap c).fd ≠ none) :
    Waits (s.heap c).fd c s' := by
  generalize hout : (s', next) = out at hs
  obtain rfl : s' = out.1 := by rw [← hout]
  simp only [sendStep] at hs
  rw [if_neg (by simp [hp])] at hs
  split at hs
  · cases hs
    exact .done hfd
  split at hs
  · cases hs
    exact .blocked hp hfd
  · cases hs
    exact .failed s _ c _
  · cases hs
    exact .failed s _ c _
  · cases hs
    exact .failed s _ c _
  next m _ =>
  split at hs
  · cases hs
  next k hk =>
  split at hs
  · cases hs
  have hhanded : ((handed s c k m).heap c).fd = (s.heap c).fd := (handed_frame s c k m).conn.fd
  split at hs
  · cases hs
    have := Waits.done (s := handed s c k m) (c := c) (hhanded ▸ hfd)
    rwa [hhanded] at this
  · cases hs
    exact .blocked (s := handed s c k m) (by simpa [handed, Shared.setConn, Shared.emit] using hp) hfd

end SubPc

/-! ## Runs -/

/-- The response stored last for `c` has come as far as its slot says. -/
def Shared.Resumes (s : Shared) (c : ConnId) : Prop := Webserver.Resumes c (s.heap c) (history c s.log)

theorem Shared.Resumes.quiet {s s' : Shared} {c l} (h : s.Resumes c) (hk : s.KeepsSlot c s' l) :
    s'.Resumes c := by
  rw [Shared.Resumes, hk.hist]
  exact Webserver.Resumes.quiet h hk.events hk.slot

theorem EventPc.exec_resumes {s : Shared} {pc : EventPc} {i s' pc' c} (h : s.Resumes c) (hb : s.Bounded)
    (he : pc.exec s i = some (s', pc')) : s'.Resumes c := by
  cases (exec_touch c he).slots with
  | keeps l hk => exact h.quiet hk
  | created fd hc heap hist =>
    rw [Shared.Resumes, hist, hc, hb.history_created]
    exact .of_no_history
  | send ret r ctl next _ hsend => exact SubPc.sendStep_resumes h hsend

theorem WorkerPc.exec_resumes {s : Shared} {pc : WorkerPc} {i s' pc' c} (h : s.Resumes c)
    (he : pc.exec s i = some (s', pc')) : s'.Resumes c := by
  cases (exec_touch c he).slots with
  | keeps l hk => exact h.quiet hk
  | send c' r ctl next _ hsend => exact SubPc.sendStep_resumes h hsend
  | store response _ heap hist =>
    rw [Shared.Resumes, hist, heap]
    exact .store (HttpResponse.toString_ne_nil s.order response) (s.heap c) (history c s.log)

namespace Server

variable {n : Nat}

theorem resumes {ok} {s : Server n} (h : (system n).ReachableBy ok s) (c : ConnId) :
    s.shared.Resumes c := by
  refine h.invariant (I := fun s => s.shared.Resumes c) ?_ ?_
  · intro s hinit
    obtain ⟨_, _, _, _, rfl⟩ := hinit
    exact .of_no_history
  intro s a s' hr hi _ hs
  cases step_cases hs with
  | event i sh pc he => exact EventPc.exec_resumes hi (bounded hr).shared he
  | worker w i sh pc he => exact WorkerPc.exec_resumes hi he
  | stop wl el sh pc he =>
    obtain ⟨heap, -, -, hist, -⟩ := StopPc.exec_frame he
    exact hi.quiet (.of_same (List.forall_mem_nil _) (by simp [hist]) (by rw [heap]))
  | tick => exact hi

/-- **Sending is resumed where it stopped**: from the moment a response is
stored until the next one is, the bytes taken by the kernel are those before
the offset while some are left, and none are left without a failure exactly
if all were taken. A call whose `epoll_ctl` succeeds leaves the epoll set
waiting for room if a part is left, and not if the connection is kept. -/
theorem resumes_sending {s : Server n} (h : (system n).Reachable s) {c : ConnId} {l₁ l₂ : List Event}
    {out : Bytes} (hist : history c s.shared.log = l₁ ++ .stored c out :: l₂) (hlast : responses l₂ = []) :
    ((s.shared.heap c).hasPendingWrite = true → (s.shared.heap c).pendingResponse = out ∧
      output l₂ = out.take (s.shared.heap c).responseOffset) ∧
    ((s.shared.heap c).hasPendingWrite = false ∧ (∀ r, .sendFailed c r ∉ l₂) ↔ output l₂ = out) ∧
    ∀ r s' next, (SubPc.send c).exec s.shared (.sends r true) = some (s', next) →
      (s.shared.heap c).hasPendingWrite = true → s.shared.interest (s.shared.heap c).fd ≠ none →
        SubPc.Waits (s.shared.heap c).fd c s' := by
  have hprogress := resumes h c l₁ out l₂ hist hlast
  refine ⟨fun hp => ?_, hprogress.ended_iff, fun r s' next hs hp hfd => ?_⟩
  · obtain ⟨hresponse, hout, -⟩ := hprogress.pending hp
    exact ⟨hresponse, hout⟩
  · exact SubPc.sendStep_waits hs hp hfd

/-- The kernel has taken five bytes of the response. -/
def interrupted : List (Action 1) :=
  acceptClient 7 1 ++ receiveRequest 7 getRequest 1 ++
    workerSteps (answerInputs ++ respondInputs (.accepts 5))

theorem resumes_sending_interrupted : ∃ s : Server 1, (system 1).Reachable s ∧
    (s.shared.heap 0).hasPendingWrite = true ∧ (s.shared.heap 0).pendingResponse = pageBytes ∧
    pageBytes.take 5 = pageBytes.take (s.shared.heap 0).responseOffset := by
  obtain ⟨s, hr, hs⟩ := System.exists_reachable init_fresh interrupted
    (fun s => (s.shared.heap 0).hasPendingWrite && decide (history 0 s.shared.log =
      [.registered 0, .received 0 getRequest, .dispatched 0, .parsed 0 getRequest] ++
        .stored 0 pageBytes :: [.sent 0 0 (pageBytes.take 5)])) (by decide +kernel)
  simp only [Bool.and_eq_true, decide_eq_true_eq] at hs
  obtain ⟨hresponse, hout⟩ := (resumes_sending hr hs.2 rfl).1 hs.1
  exact ⟨s, hr, hs.1, hresponse, hout⟩

end Server

end Webserver
