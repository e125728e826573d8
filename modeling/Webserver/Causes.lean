/-
Why connections are closed. `recv` that has merely nothing to deliver is taken
for a failure, and so is an interrupted `send`; a worker closes by number, so
that a number handed out again gets another connection closed; and a
keep-alive response still being sent is taken for the last one as soon as the
next request asks to close. In a run without these steps a connection is
removed only for a cause of its own.
-/
import Webserver.Accounting
import Webserver.Stream

namespace Webserver

open Cxx Locks Systems

/-! ## Causes -/

/-- The bytes of a response that announces the end of the connection. -/
def ClosingResponse (out : Bytes) : Prop :=
  ∃ (r : HttpResponse) (order : MapOrder), out = (r.setKeepAlive false).toString order

/-- What a connection may be closed for, found in its history. -/
inductive Cause (c : ConnId) (hist : List Event) : Prop
  | left (h : .recvFailed c .closed ∈ hist)
  | recvFailed (h : .recvFailed c .error ∈ hist)
  | sendFailed (h : .sendFailed c .error ∈ hist)
  | tooLarge (h : .tooLarge c ∈ hist)
  | idle (h : .swept c ∈ hist)
  | answered (l₁ l₂ l₃ out) (h : hist = l₁ ++ .stored c out :: l₂ ++ .finished c :: l₃)
      (last : responses l₂ = []) (whole : output l₂ = out) (closing : ClosingResponse out)

theorem Cause.append {c : ConnId} {hist l : List Event} (h : Cause c hist) : Cause c (hist ++ l) := by
  cases h with
  | left h => exact .left (List.mem_append_left l h)
  | recvFailed h => exact .recvFailed (List.mem_append_left l h)
  | sendFailed h => exact .sendFailed (List.mem_append_left l h)
  | tooLarge h => exact .tooLarge (List.mem_append_left l h)
  | idle h => exact .idle (List.mem_append_left l h)
  | answered l₁ l₂ l₃ out h last whole closing =>
    exact .answered l₁ l₂ (l₃ ++ l) out (by simp [h]) last whole closing

/-- An answer of `send` that is no error of the connection. -/
def SendResult.spurious : SendResult → Bool
  | interrupted | accepts 0 => true
  | _ => false

/-! ## The response in the slot -/

/-- What is being sent: the response stored last, up to the offset; and where
the connection is to be closed after it, it says so. -/
structure Pending (c : ConnId) (conn : Connection) (hist : List Event) : Prop where
  round : conn.hasPendingWrite → ∃ l₁ l₂, hist = l₁ ++ .stored c conn.pendingResponse :: l₂ ∧
    responses l₂ = [] ∧ output l₂ = conn.pendingResponse.take conn.responseOffset
  closing : conn.hasPendingWrite → conn.keepAlive = false →
    Cause c hist ∨ ClosingResponse conn.pendingResponse

namespace Pending

variable {c : ConnId} {conn conn' : Connection} {hist l : List Event}

theorem of_empty (h : conn.hasPendingWrite = false) : Pending c conn hist :=
  ⟨by simp [h], by simp [h]⟩

theorem quiet (h : Pending c conn hist) (hl : ∀ e ∈ l, e.keepsSlot) (same : SameSlot conn conn')
    (keep : conn'.keepAlive = false → conn.hasPendingWrite → conn.keepAlive = false) :
    Pending c conn' (hist ++ l) := by
  refine ⟨fun hp => ?_, fun hp hk => ?_⟩
  · obtain ⟨l₁, l₂, he, hr, ho⟩ := h.round (same.pending ▸ hp)
    refine ⟨l₁, l₂ ++ l, by simp [he, same.response], ?_, ?_⟩
    · rw [responses_append, hr, responses_of_keepsSlot hl, List.append_nil]
    · rw [output_append, ho, output_of_keepsSlot hl, List.append_nil, same.response, same.offset]
  · have hp := same.pending ▸ hp
    rw [same.response]
    exact (h.closing hp (keep hk hp)).imp_left Cause.append

/-- The kernel takes more bytes. -/
theorem handed {k : Sock} {m : Nat} (h : Pending c conn hist) (hp : conn.hasPendingWrite) :
    Pending c { conn with responseOffset := conn.responseOffset + m }
      (hist ++ [.sent c k ((SubPc.rest conn).take m)]) := by
  refine ⟨fun _ => ?_, fun _ hk => (h.closing hp hk).imp_left Cause.append⟩
  obtain ⟨l₁, l₂, he, hr, ho⟩ := h.round hp
  refine ⟨l₁, l₂ ++ [.sent c k ((SubPc.rest conn).take m)], by simp [he], ?_, ?_⟩
  · rw [responses_append, hr]
    rfl
  · rw [output_append, ho, List.take_add]
    simp [output, Event.payload, SubPc.rest]

/-- A response is stored that says what is to become of the connection. -/
theorem store (out : Bytes) (h : conn.keepAlive = false → Cause c hist ∨ ClosingResponse out) :
    Pending c { conn with pendingResponse := out, responseOffset := 0, hasPendingWrite := true }
      (hist ++ [.stored c out]) :=
  ⟨fun _ => ⟨hist, [], rfl, rfl, rfl⟩, fun _ hk => (h hk).imp_left Cause.append⟩

/-- The last byte of the last response is sent. -/
theorem cause (h : Pending c conn hist) (hp : conn.hasPendingWrite)
    (hrest : SubPc.rest conn = []) (hk : conn.keepAlive = false) : Cause c (hist ++ [.finished c]) := by
  rcases h.closing hp hk with hc | hclosing
  · exact hc.append
  · obtain ⟨l₁, l₂, he, hr, ho⟩ := h.round hp
    refine .answered l₁ l₂ [] conn.pendingResponse (by simp [he]) hr ?_ hclosing
    rw [ho]
    exact List.take_of_length_le (List.drop_eq_nil_iff.mp hrest)

end Pending

namespace SubPc

/-- What `send_response_async` leaves: the slot as it should be, and a cause
where it goes on to close or drops the promise to keep the connection. -/
structure Sent (s : Shared) (c : ConnId) (out : Shared × Option SubPc) : Prop where
  pending : Pending c (out.1.heap c) (history c out.1.log)
  cause : out.2 ≠ none → Cause c (history c out.1.log)
  keep : (out.1.heap c).keepAlive = (s.heap c).keepAlive ∨ Cause c (history c out.1.log)

theorem sendDone_sent {s s₀ : Shared} {c ctl} (h : Pending c (s.heap c) (history c s.log))
    (hp : (s.heap c).hasPendingWrite) (hrest : rest (s.heap c) = [])
    (hk : (s.heap c).keepAlive = (s₀.heap c).keepAlive) : Sent s₀ c (sendDone s c ctl) := by
  simp only [sendDone]
  split
  · refine ⟨.of_empty ?_, fun hn => absurd rfl hn, .inl ?_⟩ <;> simp [Shared.setConn, hk]
  · next hka =>
    refine ⟨.of_empty ?_, fun _ => ?_, .inl ?_⟩
    · simp [Shared.setConn, Shared.emit]
    · rw [Shared.emit_log, history_emit rfl, Shared.modifyFd_log]
      exact h.cause hp hrest (by simpa using hka)
    · simp [Shared.setConn, Shared.emit, hk]

theorem handed_pending {s : Shared} {c k m} (h : Pending c (s.heap c) (history c s.log))
    (hp : (s.heap c).hasPendingWrite) :
    Pending c ((handed s c k m).heap c) (history c (handed s c k m).log) := by
  have hist : history c (handed s c k m).log =
      history c s.log ++ [.sent c k ((rest (s.heap c)).take m)] := history_emit rfl
  rw [hist]
  simpa [handed, Shared.emit, Shared.setConn] using h.handed (k := k) (m := m) hp

theorem sendStep_sent_pending {s : Shared} {c r ctl out}
    (h : Pending c (s.heap c) (history c s.log)) (hr : r.spurious = false)
    (hs : sendStep s c r ctl = some out) : Sent s c out := by
  cases sendStep_cases hs with
  | nothing => exact ⟨h, fun hn => absurd rfl hn, .inl rfl⟩
  | empty ctl hp hrest => exact sendDone_sent h hp hrest rfl
  | blocked ctl => exact ⟨by simpa using h, fun hn => absurd rfl hn, .inl (by simp)⟩
  | failed hp hfails =>
    have herror : r = .error := by
      rcases hfails with rfl | rfl | rfl
      · cases hr
      · rfl
      · cases hr
    have hcause : Cause c (history c (SubPc.sendFailed s c r).1.log) := by
      refine .sendFailed ((mem_history rfl).mpr ?_)
      simp [SubPc.sendFailed, herror]
    refine ⟨.of_empty ?_, fun _ => hcause, .inr hcause⟩
    simp [SubPc.sendFailed, Shared.setConn, Shared.emit]
  | whole k ctl hp =>
    refine sendDone_sent (handed_pending h hp) ?_ ?_ ?_
    · simpa [handed, Shared.emit, Shared.setConn] using hp
    · simp [handed, Shared.emit, Shared.setConn, rest]
      omega
    · simp [handed, Shared.emit, Shared.setConn]
  | part k m ctl hp =>
    refine ⟨by simpa using handed_pending (k := k) (m := m) h hp, fun hn => absurd rfl hn, .inl ?_⟩
    simp [handed, Shared.emit, Shared.setConn]

end SubPc

/-! ## One step -/

/-- What a step that sends with an honest answer does to the slot. -/
structure Shared.Slotted (s : Shared) (c : ConnId) (s' : Shared) : Prop where
  pending : Pending c (s'.heap c) (history c s'.log)
  keep : (s'.heap c).keepAlive = (s.heap c).keepAlive ∨ Cause c (history c s'.log)

theorem Shared.Slotted.quiet {s s' : Shared} {c} (h : Pending c (s.heap c) (history c s.log))
    {l : List Event} (hl : ∀ e ∈ l, e.keepsSlot) (hist : history c s'.log = history c s.log ++ l)
    (same : SameSlot (s.heap c) (s'.heap c))
    (keep : (s'.heap c).keepAlive = (s.heap c).keepAlive) : s.Slotted c s' :=
  ⟨hist ▸ h.quiet hl same fun hk _ => keep ▸ hk, .inl keep⟩

theorem EventPc.exec_slotted {s : Shared} {pc : EventPc} {i s' pc' c}
    (hpend : Pending c (s.heap c) (history c s.log))
    (hsend : ∀ r ctl, i = .sends r ctl → r.spurious = false)
    (h : pc.exec s i = some (s', pc')) :
    s.Slotted c s' ∨ (c = s.created ∧ Pending c (s'.heap c) (history c s'.log)) := by
  cases (exec_touch c h).slots with
  | keeps l hk keep => exact .inl (.quiet hpend hk.stays hk.hist hk.slot keep)
  | created fd hc heap => exact .inr ⟨hc, .of_empty (by simp [heap])⟩
  | send ret _ _ _ hpc =>
    subst hpc
    cases exec_steps h with
    | sub _ _ _ h₁ =>
      cases SubPc.exec_steps h₁ with
      | send _ r ctl hs =>
        have hsent := SubPc.sendStep_sent_pending hpend (hsend r ctl rfl) hs
        exact .inl ⟨hsent.pending, hsent.keep⟩

/-- What a worker's step does to the slot: it may also change what is promised
to the client, or store a response that says so. -/
theorem WorkerPc.exec_slotted {s : Shared} {pc : WorkerPc} {i s' pc' c}
    (hpend : Pending c (s.heap c) (history c s.log))
    (hsend : ∀ r ctl, i = .sends r ctl → r.spurious = false)
    (hkeep : ∀ request, pc = keep c request → i = .go → (s.heap c).hasPendingWrite →
      (s.heap c).keepAlive → request.isKeepAlive = true)
    (hstore : ∀ r, pc = store c r → Cause c (history c s.log) ∨
      ∃ r₀ : HttpResponse, r = r₀.setKeepAlive (s.heap c).keepAlive)
    (h : pc.exec s i = some (s', pc')) :
    Pending c (s'.heap c) (history c s'.log) ∧
      ((s'.heap c).keepAlive = (s.heap c).keepAlive ∨ Cause c (history c s'.log) ∨
        ∃ request, pc = keep c request) := by
  by_cases hk : ∃ request, pc = keep c request
  · obtain ⟨request, rfl⟩ := hk
    cases exec_steps h
    have hpend' : Pending c { s.heap c with keepAlive := request.isKeepAlive }
        (history c s.log ++ []) :=
      hpend.quiet (List.forall_mem_nil _) ⟨rfl, rfl, rfl⟩ fun hk hp => by
        by_contra hka
        have := hkeep request rfl rfl hp (by simpa using hka)
        simp_all
    exact ⟨by simpa [Shared.setConn] using hpend', .inr (.inr ⟨request, rfl⟩)⟩
  have slotted : s.Slotted c s' → Pending c (s'.heap c) (history c s'.log) ∧
      ((s'.heap c).keepAlive = (s.heap c).keepAlive ∨ Cause c (history c s'.log) ∨
        ∃ request, pc = keep c request) :=
    fun hs => ⟨hs.pending, hs.keep.imp_right .inl⟩
  cases (exec_touch c h).slots with
  | keeps l hslot keep =>
    exact slotted (.quiet hpend hslot.stays hslot.hist hslot.slot
      (keep fun request hpc => hk ⟨request, hpc⟩))
  | send c' _ _ _ hpc =>
    subst hpc
    cases exec_steps h with
    | sub _ _ _ h₁ =>
      cases SubPc.exec_steps h₁ with
      | send _ r ctl hs =>
        have hsent := SubPc.sendStep_sent_pending hpend (hsend r ctl rfl) hs
        exact slotted ⟨hsent.pending, hsent.keep⟩
  | store response hpc heap hist =>
    have closing : (s.heap c).keepAlive = false →
        Cause c (history c s.log) ∨ ClosingResponse (response.toString s.order) := by
      intro hk
      refine (hstore response hpc).imp_right fun hr => ?_
      obtain ⟨r₀, hr⟩ := hr
      exact ⟨r₀, s.order, by rw [hr, hk]⟩
    refine ⟨?_, .inl (by rw [heap])⟩
    rw [hist, heap]
    exact Pending.store (response.toString s.order) closing

/-! ## What the threads are going to close -/

/-- Whoever is registered under the number has given cause. -/
def Shared.Condemned (s : Shared) (fd : Fd) : Prop :=
  ∀ c, s.connections.lookup fd = some c → Cause c (history c s.log)

/-- No connection is registered, and no history loses anything. -/
structure Shared.Shrinks (s s' : Shared) : Prop where
  connections : ∀ fd c, s'.connections.lookup fd = some c → s.connections.lookup fd = some c
  cause : ∀ c, Cause c (history c s.log) → Cause c (history c s'.log)

namespace Shared

theorem Shrinks.of_extends {s s' : Shared}
    (connections : ∀ fd c, s'.connections.lookup fd = some c → s.connections.lookup fd = some c)
    (hist : ∀ c, ∃ l, history c s'.log = history c s.log ++ l) : s.Shrinks s' := by
  refine ⟨connections, fun c hc => ?_⟩
  obtain ⟨l, hl⟩ := hist c
  exact hl ▸ hc.append

theorem Condemned.shrinks {s s' : Shared} {fd} (h : s.Condemned fd) (hs : s.Shrinks s') :
    s'.Condemned fd := fun c hc => hs.cause c (h c (hs.connections fd c hc))

/-- Only the event thread's registration adds to the map. -/
theorem lookup_of_handles {s s' : Shared} {event held erases l l'}
    (hh : Handles event held erases s s' l l')
    (hreg : ∀ fd c k, event ≠ some (.acceptInsert fd c k, .go)) (fd : Fd) (c : ConnId)
    (hc : s'.connections.lookup fd = some c) : s.connections.lookup fd = some c := by
  cases hh with
  | same conns | accept _ _ _ _ conns | close _ conns => exact conns ▸ hc
  | register fd' c' k he => exact absurd he (hreg fd' c' k)
  | erase fd' _ _ _ hs =>
    rw [hs, lookup_unregister] at hc
    split at hc
    · cases hc
    · exact hc

end Shared

namespace SubPc

/-- The number whose entry `close_connection` is to erase. -/
def closing : SubPc → List Fd
  | closeLock fd | closeFind fd | closeLockConn fd _ | closeReadPending fd _ | closeErase fd => [fd]
  | _ => []

def closingNext : Option SubPc → List Fd
  | none => []
  | some p => p.closing

/-- Only a send brings the two functions to close a number they did not mean
to close before. -/
theorem exec_closing {s : Shared} {p : SubPc} {i s' next} (h : p.exec s i = some (s', next)) :
    closingNext next ⊆ p.closing ∨ ∃ c r ctl, p = send c ∧ i = .sends r ctl ∧
      sendStep s c r ctl = some (s', next) ∧ closingNext next ⊆ [(s.heap c).fd] := by
  cases exec_steps h with
  | send c r ctl h₁ =>
    refine .inr ⟨c, r, ctl, rfl, rfl, h₁, ?_⟩
    have hfd : ∀ fd, next = some (.closeLock fd) → fd = (s.heap c).fd := by
      rintro fd rfl
      simp only [sendStep, sendDone, sendFailed] at h₁
      repeat' split at h₁
      all_goals simp [Shared.emit, Shared.setConn] at h₁
      all_goals simp_all
    rcases sendStep_next h₁ with rfl | ⟨fd, rfl⟩
    · simp [closingNext]
    · simp [closingNext, closing, hfd fd rfl]
  | _ => exact .inl (by simp [closingNext, closing])

end SubPc

def EventRet.left : EventRet → List Fd
  | .calls _ => []
  | .cleanup fds => fds

namespace EventPc

/-- The numbers whose entries the event thread is to erase. -/
def condemned : EventPc → List Fd
  | dataEraseLock fd _ _ | dataErase fd _ _ => [fd]
  | cleanupScan _ _ inactive | cleanupLockConn _ _ _ _ _ inactive
  | cleanupRead _ _ _ _ _ inactive | cleanupUnlock inactive => inactive
  | cleanupClose fds => fds
  | sub p ret => p.closing ++ ret.left
  | _ => []

/-- The entries the scan for idle connections has still to look at. -/
def scanned : EventPc → List (Fd × ConnId)
  | cleanupScan _ rest _ => rest
  | cleanupLockConn _ fd c _ rest _ | cleanupRead _ fd c _ rest _ => (fd, c) :: rest
  | _ => []

/-- The event thread has a cause for what it is to close, and the connection
it sends for is the one its number is registered for, if any is. -/
structure Justified (s : Shared) (pc : EventPc) : Prop where
  condemned : ∀ fd ∈ pc.condemned, s.Condemned fd
  sends : ∀ c, pc.sends = some c → ∀ c', s.connections.lookup (s.heap c).fd = some c' → c' = c
  scanned : ∀ fd c, (fd, c) ∈ pc.scanned → s.connections.lookup fd = some c

namespace Justified

variable {s s' : Shared} {pc pc' : EventPc}

theorem nothing (hc : pc.condemned = []) (hs : pc.sends = none) (hl : pc.scanned = []) :
    pc.Justified s := by
  refine ⟨?_, ?_, ?_⟩ <;> simp [hc, hs, hl]

theorem fewer (h : pc.Justified s) (hs : s.Shrinks s') (hc : pc'.condemned ⊆ pc.condemned)
    (hsend : pc'.sends = none) (hscan : pc'.scanned = []) : pc'.Justified s' := by
  refine ⟨fun fd hfd => (h.condemned fd (hc hfd)).shrinks hs, ?_, ?_⟩ <;> simp [hsend, hscan]

end Justified

theorem condemned_resume (ret : EventRet) (next : Option SubPc) :
    (resume ret next).condemned = SubPc.closingNext next ++ ret.left := by
  cases next <;> cases ret <;> rfl

theorem sub_justified {s s' : Shared} {p : SubPc} {ret i next} (hj : (sub p ret).Justified s)
    (hs : s.Shrinks s') (hpend : ∀ c, Pending c (s.heap c) (history c s.log))
    (hin : ∀ r ctl, i = .sends r ctl → r.spurious = false)
    (h : p.exec s i = some (s', next)) : (resume ret next).Justified s' := by
  have hids : ∀ c, p.sends = some c → (s'.heap c).fd = (s.heap c).fd := by
    intro c _
    cases SubPc.exec_touch c h with
    | away heap | unregistered heap => rw [heap]
    | send r ctl _ h => exact (SubPc.sendStep_frame h).conn.fd
  refine ⟨fun fd hfd => ?_, fun c hc => ?_, ?_⟩
  · rw [condemned_resume] at hfd
    rcases List.mem_append.mp hfd with hm | hm
    · rcases SubPc.exec_closing h with hsub | ⟨c, r, ctl, rfl, rfl, hsend, hsub⟩
      · exact (hj.condemned fd (List.mem_append_left _ (hsub hm))).shrinks hs
      · -- `send_response_async` goes on to close
        intro c' hc'
        obtain rfl : fd = (s.heap c).fd := List.mem_singleton.mp (hsub hm)
        obtain rfl : c' = c := hj.sends c rfl c' (hs.connections _ _ hc')
        refine (SubPc.sendStep_sent_pending (hpend c') (hin r ctl rfl) hsend).cause ?_
        rintro rfl
        cases hm
    · exact (hj.condemned fd (List.mem_append_right _ hm)).shrinks hs
  · have hp : p.sends = some c := by
      cases next with
      | none => cases ret <;> cases hc
      | some p' => exact SubPc.exec_sends h hc
    intro c' hc'
    rw [hids c hp] at hc'
    exact hj.sends c hp c' (hs.connections _ _ hc')
  · cases next <;> cases ret <;> simp [resume, scanned]

theorem exec_shrinks {s : Shared} {pc : EventPc} {i s' pc'} (hk : pc.Knows s)
    (hne : ∀ fd c k, pc ≠ acceptInsert fd c k) (h : pc.exec s i = some (s', pc')) : s.Shrinks s' := by
  refine .of_extends (Shared.lookup_of_handles (exec_handles hk h) fun fd c k he => ?_) fun c =>
    (exec_touch c h).extends
  exact hne fd c k (Prod.mk.inj (Option.some.inj he)).1

theorem exec_justified {s : Shared} {pc : EventPc} {i s' pc'} (hk : pc.Knows s) (hn : s.Named)
    (hj : pc.Justified s) (hpend : ∀ c, Pending c (s.heap c) (history c s.log))
    (hrecv : i ≠ .recvFails .again) (hsend : ∀ r ctl, i = .sends r ctl → r.spurious = false)
    (h : pc.exec s i = some (s', pc')) : pc'.Justified s' := by
  have shrinks : (∀ fd c k, pc ≠ acceptInsert fd c k) → s.Shrinks s' := fun hne =>
    exec_shrinks hk hne h
  cases exec_steps h with
  | recvFails fd c k why =>
    have hcause : Cause c (history c (s.emit (.recvFailed c why)).log) := by
      cases why with
      | again => exact absurd rfl hrecv
      | closed => exact .left ((mem_history rfl).mpr (by simp))
      | error => exact .recvFailed ((mem_history rfl).mpr (by simp))
    refine ⟨fun fd' hfd c' hc' => ?_, ?_, ?_⟩
    · obtain rfl : fd' = fd := List.mem_singleton.mp hfd
      have : c' = c := hk c' hc'
      exact this ▸ hcause
    all_goals simp [sends, SubPc.sends, scanned]
  | tooLarge fd c chunk k =>
    refine ⟨fun fd' hfd c' hc' => ?_, by simp [sends], by simp [scanned]⟩
    obtain rfl : fd' = fd := List.mem_singleton.mp hfd
    obtain rfl : c' = c := Option.some.inj (hc'.symm.trans hk)
    exact .tooLarge ((mem_history rfl).mpr (by simp))
  | dataEraseLock | cleanupClose =>
    exact hj.fewer (shrinks (by simp)) (by simp [condemned, SubPc.closing, EventRet.left]) rfl rfl
  | writeFound fd c k hl =>
    refine ⟨by simp [condemned, SubPc.closing, EventRet.left], fun c' hc' c'' hc'' => ?_, by simp [scanned]⟩
    obtain rfl : c = c' := Option.some.inj hc'
    rw [(hn fd c hl).1, hl] at hc''
    exact (Option.some.inj hc'').symm
  | cleanupLock now =>
    refine ⟨by simp [condemned], by simp [sends], fun fd c hm => ?_⟩
    obtain ⟨e, he, heq⟩ := List.mem_map.mp hm
    obtain ⟨rfl, rfl⟩ := Prod.mk.inj heq
    exact AList.mem_lookup_iff.mpr he
  | scanned | cleanupScan | cleanupLockConn => exact ⟨hj.condemned, by simp [sends], hj.scanned⟩
  | sweeps now fd c rest inactive =>
    refine ⟨fun fd' hfd => ?_, by simp [sends], fun fd' c' hm =>
      hj.scanned fd' c' (List.mem_cons_of_mem _ hm)⟩
    rcases List.mem_append.mp hfd with hm | hm
    · exact (hj.condemned fd' hm).shrinks (shrinks (by simp))
    · intro c' hc'
      obtain rfl : fd' = fd := List.mem_singleton.mp hm
      have hl := hj.scanned fd' c List.mem_cons_self
      obtain rfl : c = c' := Option.some.inj (hl.symm.trans hc')
      exact .idle ((mem_history rfl).mpr (by simp))
  | spares =>
    exact ⟨hj.condemned, by simp [sends], fun fd' c' hm => hj.scanned fd' c' (List.mem_cons_of_mem _ hm)⟩
  | cleanupUnlock | cleanupDone => exact hj.fewer (shrinks (by simp)) (by simp [condemned]) rfl rfl
  | sub p ret next h₁ => exact sub_justified hj (shrinks (by simp)) hpend hsend h₁
  | _ => exact .nothing rfl rfl rfl

/-- What the event thread has found outlasts the step of a thread that
registers nothing. -/
theorem Justified.stable {s s' : Shared} {pc : EventPc} (hj : pc.Justified s) (hs : s.Shrinks s')
    (hid : ∀ c, (s'.heap c).fd = (s.heap c).fd)
    (hconns : s'.connections = s.connections ∨ .connections ∉ pc.holds) : pc.Justified s' := by
  refine ⟨fun fd hfd => (hj.condemned fd hfd).shrinks hs, fun c hc c' hc' => ?_, fun fd c hm => ?_⟩
  · rw [hid] at hc'
    exact hj.sends c hc c' (hs.connections _ _ hc')
  · rcases hconns with hconns | hnot
    · exact hconns ▸ hj.scanned fd c hm
    · cases pc <;> simp [EventPc.scanned] at hm <;> simp [holds] at hnot

end EventPc

/-! ## The workers -/

/-- What a worker has established for its task of `c` on the way to close. -/
def SubPc.Blames (s : Shared) (c : ConnId) : SubPc → Prop
  | sendLock c' | send c' => c' = c
  | closeLock _ | closeFind _ => Cause c (history c s.log)
  | closeLockConn fd _ | closeReadPending fd _ | closeErase fd => s.Condemned fd
  | closeMiss | closeRemoveFd _ | closeFd _ => True

namespace WorkerPc

def Justified (s : Shared) : WorkerPc → Prop
  | sub p c => p.Blames s c
  | _ => True

/-- The response a worker has computed and not stored yet. -/
def response : WorkerPc → Option (ConnId × HttpResponse)
  | checkLock c r | check c r | checkUnlock c r | storeLock c r | store c r => some (c, r)
  | _ => none

theorem stageOf_of_response {pc : WorkerPc} {c r} (h : pc.response = some (c, r)) :
    pc.stageOf c = some .answering := by
  refine stageOf_of_stage ?_
  unfold response at h
  split at h
  all_goals cases h
  all_goals rfl

/-- A response announces what `keep_alive` says when it is computed. -/
theorem exec_response {s : Shared} {pc : WorkerPc} {i s' pc' c r} (h : pc.exec s i = some (s', pc'))
    (hr : pc'.response = some (c, r)) :
    pc.response = some (c, r) ∨ (s' = s ∧ ∃ r₀ : HttpResponse, r = r₀.setKeepAlive (s.heap c).keepAlive) := by
  cases exec_steps h with
  | respond c' request served date =>
    obtain ⟨rfl, rfl⟩ := Prod.mk.inj (Option.some.inj hr)
    exact .inr ⟨rfl, _, rfl⟩
  | sub p c' next => cases next <;> cases hr
  | _ => first | exact .inl hr | cases hr

theorem Justified.stable {s s' : Shared} {pc : WorkerPc} (hj : pc.Justified s) (hs : s.Shrinks s') :
    pc.Justified s' := by
  cases pc with
  | sub p c =>
    cases p with
    | closeLock fd | closeFind fd => exact hs.cause c hj
    | closeLockConn fd _ | closeReadPending fd _ | closeErase fd => exact Shared.Condemned.shrinks hj hs
    | _ => exact hj
  | _ => trivial

/-- While a worker holds the map's mutex, nothing is registered. -/
theorem Justified.register {s s' : Shared} {pc : WorkerPc} (hj : pc.Justified s)
    (hfree : .connections ∉ pc.holds) (hc : ∀ c, Cause c (history c s.log) → Cause c (history c s'.log)) :
    pc.Justified s' := by
  cases pc with
  | sub p c =>
    cases p with
    | closeLock fd | closeFind fd => exact hc c hj
    | closeLockConn fd _ | closeReadPending fd _ | closeErase fd =>
      exact absurd (by simp [holds, SubPc.holds]) hfree
    | _ => exact hj
  | _ => trivial

theorem exec_justified {s : Shared} {pc : WorkerPc} {i s' pc'} (hk : pc.Knows s)
    (hj : pc.Justified s) (hpend : ∀ c, Pending c (s.heap c) (history c s.log))
    (hsend : ∀ r ctl, i = .sends r ctl → r.spurious = false)
    (hfind : ∀ fd c c', pc = sub (.closeFind fd) c → i = .go → s.connections.lookup fd = some c' →
      c' = c)
    (h : pc.exec s i = some (s', pc')) : pc'.Justified s' := by
  have shrinks : s.Shrinks s' := .of_extends
    (Shared.lookup_of_handles (exec_handles hk h) (by simp)) fun c => (exec_touch c h).extends
  cases exec_steps h with
  | store c response => exact rfl
  | sub p c next h₁ =>
    cases SubPc.exec_steps h₁ with
    | closeFound fd c' hl =>
      intro c'' hc''
      obtain rfl : c'' = c := hfind fd c c'' rfl rfl hc''
      exact hj
    | closeLock | closeLockConn | closeReadPending | sendLock => exact hj
    | send c' r ctl h₂ =>
      obtain rfl : c' = c := hj
      have hcause := (SubPc.sendStep_sent_pending (hpend c') (hsend r ctl rfl) h₂).cause
      rcases SubPc.sendStep_next h₂ with rfl | ⟨fd, rfl⟩
      · trivial
      · exact hcause nofun
    | _ => trivial
  | _ => trivial

end WorkerPc

/-! ## The invariant -/

namespace Server

variable {n : Nat}

/-- A step that may lead to a connection being closed for nothing: `recv`
answers `EAGAIN`, `EWOULDBLOCK` or `EINTR`; `send` is interrupted or takes no
byte; a worker that closes its connection by number finds another one; or a
worker clears `keep_alive` while a response that promised to keep the
connection is still being sent. -/
def misjudges (s : Server n) : Action n → Bool
  | .event (.recvFails why) => why = .again
  | .event (.sends r _) => r.spurious
  | .worker _ (.sends r _) => r.spurious
  | .worker w .go =>
    match s.worker w with
    | .sub (.closeFind fd) c =>
      match s.shared.connections.lookup fd with
      | some c' => c' ≠ c
      | none => false
    | .keep c request =>
      (s.shared.heap c).hasPendingWrite && (s.shared.heap c).keepAlive && !request.isKeepAlive
    | _ => false
  | _ => false

/-- Every removal had its cause, and every removal to come has it already. -/
structure Blameless (s : Server n) : Prop where
  removed : ∀ c, Whenever (· = .unregistered c) (Cause c) (history c s.shared.log)
  pending : ∀ c, Pending c (s.shared.heap c) (history c s.shared.log)
  response : ∀ w c r, (s.worker w).response = some (c, r) → Cause c (history c s.shared.log) ∨
    ∃ r₀ : HttpResponse, r = r₀.setKeepAlive (s.shared.heap c).keepAlive
  event : s.event.Justified s.shared
  worker : ∀ w, (s.worker w).Justified s.shared

/-- A removal is of a connection that has given cause. -/
theorem removed_append {c : ConnId} {hist hist' l : List Event}
    (h : Whenever (· = .unregistered c) (Cause c) hist) (hl : hist' = hist ++ l)
    (hc : .unregistered c ∈ l → l = [.unregistered c] ∧ Cause c hist) :
    Whenever (· = .unregistered c) (Cause c) hist' := by
  subst hl
  by_cases hm : .unregistered c ∈ l
  · obtain ⟨rfl, hcause⟩ := hc hm
    exact h.concat fun _ => hcause
  · exact h.append fun e he heq => hm (heq ▸ he)

theorem Blameless.stepEvent {s : Server n} {i sh pc own} (h : s.Blameless) (ht : s.Tidy)
    (hb : s.Bounded) (hc : Consistent s.owner s.holds) (hok : misjudges s (.event i) = false)
    (he : s.event.exec s.shared i = some (sh, pc)) :
    Blameless { s with shared := sh, event := pc, owner := own } := by
  have hrecv : i ≠ .recvFails .again := by
    rintro rfl
    cases hok
  have hsend : ∀ r ctl, i = .sends r ctl → r.spurious = false := by
    rintro r ctl rfl
    exact hok
  have mono : ∀ c, Cause c (history c s.shared.log) → Cause c (history c sh.log) := by
    intro c hcause
    obtain ⟨l, hl⟩ := (EventPc.exec_touch c he).extends
    exact hl ▸ hcause.append
  refine ⟨fun c => ?_, fun c => ?_, fun w c r hr => ?_,
    EventPc.exec_justified ht.event ht.named h.event h.pending hrecv hsend he, fun w => ?_⟩
  · obtain ⟨l, hl, hrem⟩ := (EventPc.exec_touch c he).removal
    refine removed_append (h.removed c) hl fun hm => ?_
    obtain ⟨rfl, fd, her, hlook⟩ := hrem hm
    refine ⟨rfl, h.event.condemned fd ?_ c hlook⟩
    unfold EventPc.erasing at her
    split at her
    all_goals cases her
    all_goals simp [*, EventPc.condemned, SubPc.closing]
  · rcases EventPc.exec_slotted (h.pending c) hsend he with hs | ⟨-, hs⟩
    · exact hs.pending
    · exact hs
  · have hlt : c < s.shared.created := by
      refine hb.worker w c (WorkerPc.refs_of_carries ?_)
      simp [WorkerPc.carries, WorkerPc.stage_of_stageOf (WorkerPc.stageOf_of_response hr)]
    rcases EventPc.exec_slotted (h.pending c) hsend he with hs | ⟨hnew, -⟩
    · rcases hs.keep with hk | hcause
      · exact (h.response w c r hr).imp (mono c) fun hr₀ => hk ▸ hr₀
      · exact .inl hcause
    · exact absurd hnew hlt.ne
  · by_cases hreg : ∃ fd c k, s.event = .acceptInsert fd c k
    · obtain ⟨fd, c, k, hev⟩ := hreg
      refine (h.worker w).register (fun hm => ?_) mono
      have hm' : .connections ∈ s.holds .event := by simp [holds, hev, EventPc.holds]
      cases hc.exclusive .event (.worker w) hm' hm
    · exact (h.worker w).stable (EventPc.exec_shrinks ht.event
        (fun fd c k hev => hreg ⟨fd, c, k, hev⟩) he)

theorem Blameless.stepWorker {s : Server n} {w i sh pc own} (h : s.Blameless) (ht : s.Tidy)
    (htask : ∀ c, s.Tasked c) (hc : Consistent s.owner s.holds)
    (hok : misjudges s (.worker w i) = false)
    (he : (s.worker w).exec s.shared i = some (sh, pc)) :
    Blameless { s with shared := sh, worker := Function.update s.worker w pc, owner := own } := by
  have hsend : ∀ r ctl, i = .sends r ctl → r.spurious = false := by
    rintro r ctl rfl
    exact hok
  have hfind : ∀ fd c c', s.worker w = .sub (.closeFind fd) c → i = .go →
      s.shared.connections.lookup fd = some c' → c' = c := by
    rintro fd c c' hw rfl hl
    simpa [misjudges, hw, hl] using hok
  have hkeep : ∀ c request, s.worker w = .keep c request → i = .go →
      (s.shared.heap c).hasPendingWrite → (s.shared.heap c).keepAlive →
      request.isKeepAlive = true := by
    rintro c request hw rfl hp hk
    simpa [misjudges, hw, hp, hk] using hok
  have hh := WorkerPc.exec_handles (ht.worker w) he
  have shrinks : s.shared.Shrinks sh := .of_extends (Shared.lookup_of_handles hh (by simp))
    fun c => (WorkerPc.exec_touch c he).extends
  have slotted : ∀ c, _ := fun c => WorkerPc.exec_slotted (c := c) (h.pending c) hsend (hkeep c)
    (fun r hw => h.response w c r (by rw [hw]; rfl)) he
  refine ⟨fun c => ?_, fun c => (slotted c).1, fun w' c r hr => ?_, ?_, fun w' => ?_⟩
  · obtain ⟨l, hl, hrem⟩ := (WorkerPc.exec_touch c he).removal
    refine removed_append (h.removed c) hl fun hm => ?_
    obtain ⟨rfl, fd, c', hpc, hlook⟩ := hrem hm
    have hj := h.worker w
    rw [hpc] at hj
    exact ⟨rfl, hj c hlook⟩
  · by_cases hw : w' = w
    · subst hw
      simp only [Function.update_self] at hr
      rcases WorkerPc.exec_response he hr with hold | ⟨rfl, hr₀⟩
      · rcases (slotted c).2 with hk | hcause | ⟨request, hpc⟩
        · exact (h.response w' c r hold).imp (shrinks.cause c) fun hr₀ => hk ▸ hr₀
        · exact .inl hcause
        · rw [hpc] at hold
          cases hold
      · exact .inr hr₀
    · simp only [Function.update_of_ne hw] at hr
      rcases (slotted c).2 with hk | hcause | ⟨request, hpc⟩
      · exact (h.response w' c r hr).imp (shrinks.cause c) fun hr₀ => hk ▸ hr₀
      · exact .inl hcause
      · -- the two workers would have one connection's tasks
        have hst : (s.worker w).stageOf c = some .answering := hpc ▸ WorkerPc.stageOf_of_stage rfl
        exact absurd ((htask c).only hst (WorkerPc.stageOf_of_response hr)) hw
  · refine h.event.stable shrinks (fun c => (WorkerPc.exec_touch c he).ids.1)
      (hh.connections.imp_right fun hm hm' => ?_)
    cases hc.exclusive (.worker w) .event hm hm'
  · by_cases hw : w' = w
    · subst hw
      simpa using WorkerPc.exec_justified (ht.worker w') (h.worker w') h.pending hsend hfind he
    · simpa [hw] using (h.worker w').stable shrinks

theorem blameless {s : Server n} (h : (system n).ReachableBy (fun s a => !misjudges s a) s) :
    s.Blameless := by
  refine h.invariant (I := Blameless) ?_ ?_
  · intro s hinit
    obtain ⟨_, _, _, _, rfl⟩ := hinit
    exact ⟨fun _ => Whenever.nil, fun _ => .of_empty rfl, nofun, .nothing rfl rfl rfl, fun _ => trivial⟩
  intro s a s' hr hi hok hs
  cases step_cases hs with
  | event i sh pc he =>
    exact hi.stepEvent (tidy hr ((joined hr).not_joined_of_event he)) (bounded hr) (consistent hr)
      (by simpa using hok) he
  | worker w i sh pc he =>
    exact hi.stepWorker (tidy hr ((joined hr).not_joined_of_worker he)) (tasked hr) (consistent hr)
      (by simpa using hok) he
  | stop wl el sh pc he =>
    obtain ⟨heap, -, -, hist, hframe⟩ := StopPc.exec_frame he
    refine ⟨fun c => hist c ▸ hi.removed c, fun c => by simpa only [hist c, heap] using hi.pending c,
      fun w c r hr => by simpa only [hist c, heap] using hi.response w c r hr, ?_, fun w => ?_⟩
    · cases hj : s.stop.eventJoined with
      | false =>
        have conns := (hframe hj).1
        exact hi.event.stable ⟨fun fd c hc => conns ▸ hc, fun c hc => hist c ▸ hc⟩
          (fun c => by rw [heap]) (.inl conns)
      | true =>
        simp only [(joined hr).event hj]
        exact .nothing rfl rfl rfl
    · cases hj : s.stop.eventJoined with
      | false =>
        have conns := (hframe hj).1
        exact (hi.worker w).stable ⟨fun fd c hc => conns ▸ hc, fun c hc => hist c ▸ hc⟩
      | true =>
        simp only [(joined hr).worker (StopPc.workersJoined_of_eventJoined hj) w]
        trivial
  | tick =>
    exact ⟨hi.removed, hi.pending, hi.response,
      hi.event.stable ⟨fun _ _ => id, fun _ => id⟩ (fun _ => rfl) (.inl rfl),
      fun w => (hi.worker w).stable ⟨fun _ _ => id, fun _ => id⟩⟩

/-- **A connection is closed only for cause**, in every run in which `recv`
never answers that there is nothing to receive, no `send` is interrupted, no
worker comes upon another connection under its number, and none withdraws
`keep_alive` under a response that is still being sent. It is removed only
after its peer closed it, an operation on it failed, its buffer would have
overflowed, its last response was sent whole or it was idle too long; and as
long as it is registered and the server is not being stopped, its socket is
open. -/
theorem closed_for_cause {s : Server n}
    (h : (system n).ReachableBy (fun s a => !misjudges s a) s) :
    (∀ c, Whenever (· = .unregistered c) (Cause c) (history c s.shared.log)) ∧
      (s.stop.eventJoined = false → ∀ fd c, s.shared.connections.lookup fd = some c →
        ∃ k, (s.shared.heap c).sock = some k ∧ s.shared.Holds fd k) := by
  refine ⟨(blameless h).removed, fun hstop fd c hl => ?_⟩
  have ht := tidy h hstop
  obtain ⟨k, hk⟩ := (ledger h).holds (ht.kept.shelved_open fd (by simp [hl]))
  exact ⟨k, (ht.named fd c hl).2.trans hk.denotes, hk⟩

/-- A request after which the connection is closed. -/
def lastRequest : Bytes := bytes "GET / HTTP/1.0\r\n\r\n"

/-- What a client whose connection is not kept alive is sent for the page. -/
def lastPageBytes : Bytes := (page.setKeepAlive false).toString .newestFirst

/-- One client asks for the last time; the worker answers and closes. -/
def answeredLast : List (Action 1) :=
  acceptClient 7 1 ++ receiveRequest 7 lastRequest 1 ++
    workerSteps (answerInputs ++ respondInputs (.accepts lastPageBytes.length) ++ closeInputs)

theorem closed_for_cause_answered : ∃ s : Server 1,
    (system 1).ReachableBy (fun s a => !misjudges s a) s ∧
      .unregistered 0 ∈ history 0 s.shared.log ∧
      Whenever (· = .unregistered 0) (Cause 0) (history 0 s.shared.log) := by
  obtain ⟨s, hr, hs⟩ := System.exists_reachableBy init_fresh (fun s a => !misjudges s a) answeredLast
    (fun s => decide (.unregistered 0 ∈ history 0 s.shared.log)) (by decide +kernel)
  exact ⟨s, hr, of_decide_eq_true hs, (closed_for_cause hr).1 0⟩

/-- A worker closes descriptor 7 after `epoll_wait` has reported it; the
listening socket's event comes first in the batch, and the next client is
accepted as 7. -/
def staleEvent : List (Action 1) :=
  acceptClient 7 1 ++ receiveRequest 7 lastRequest 1 ++
    eventSteps [.go, .polled [(3, true, false), (7, true, false)]] ++
    workerSteps (answerInputs ++ respondInputs (.accepts lastPageBytes.length) ++ closeInputs) ++
    eventSteps (.go :: acceptInputs 7 ++ [.go, .go, .go, .recvFails .again] ++ closeInputs)

theorem not_closed_for_cause : ¬ ∀ (n : Nat) (s : Server n), (system n).Reachable s →
    ∀ c, Whenever (· = .unregistered c) (Cause c) (history c s.shared.log) := by
  intro h
  obtain ⟨s, hr, hs⟩ := System.exists_reachable init_fresh staleEvent
    (fun s => history 1 s.shared.log = [.registered 1, .recvFailed 1 .again, .unregistered 1])
    (by decide +kernel)
  have hcause := h 1 s hr 1 [.registered 1, .recvFailed 1 .again] (.unregistered 1) []
    (of_decide_eq_true hs) rfl
  cases hcause with
  | answered l₁ l₂ l₃ out he =>
    have hm : .finished 1 ∈ [Event.registered 1, .recvFailed 1 .again] := he ▸ by simp
    simp at hm
  | _ h => simp at h

end Server

end Webserver
