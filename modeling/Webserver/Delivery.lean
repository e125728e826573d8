/-
To whom a response goes. A worker tests by number whether its connection is
still registered, and not at all between that test and `send`. A number the
kernel has handed out again in the meantime stands for another client's
socket, and gets the response. Where the test finds the connection itself and
the number is not handed out again before the send is over, every byte goes
to the socket the connection was constructed for.
-/
import Webserver.Descriptors

namespace Webserver

open Cxx Locks Systems

/-- The connection the two functions are about to send for. -/
def SubPc.sends : SubPc → Option ConnId
  | sendLock c | send c => some c
  | _ => none

def EventPc.sends : EventPc → Option ConnId
  | sub p _ => p.sends
  | _ => none

/-- The connection whose response a worker is about to send: it has found
the number registered and has not sent yet. -/
def WorkerPc.sends : WorkerPc → Option ConnId
  | checkUnlock c _ | storeLock c _ | store c _ => some c
  | sub p _ => p.sends
  | _ => none

namespace Server

variable {n : Nat}

/-- The test at the end of `handle_client_request` passes since the number of
connection `c` is registered, but for another connection. -/
def staleCheck (s : Server n) : Action n → Bool
  | .worker w .go =>
    match s.worker w with
    | .check c _ =>
      match s.shared.connections.lookup (s.shared.heap c).fd with
      | some c' => c' ≠ c
      | none => false
    | _ => false
  | _ => false

/-- `accept` returns the number of a connection a worker is about to send for. -/
def reusedBeforeSend (s : Server n) : Action n → Bool
  | .event (.accepts fd) => (List.finRange n).any fun w =>
    match (s.worker w).sends with
    | some c => (s.shared.heap c).fd = fd
    | none => false
  | _ => false

def keepsNumbers (s : Server n) (a : Action n) : Bool := !staleCheck s a && !reusedBeforeSend s a

end Server

/-! ## Owned descriptors -/

/-- The number of connection `c` stands for its own socket or for none. -/
def Shared.Owned (s : Shared) (c : ConnId) : Prop :=
  ∀ k, s.fds (s.heap c).fd = some k → (s.heap c).sock = some k

theorem Shared.Named.owned {s : Shared} (h : s.Named) {fd c}
    (hl : s.connections.lookup fd = some c) : s.Owned c := by
  intro k hk
  obtain ⟨h₁, h₂⟩ := h fd c hl
  rw [h₁, ← h₂] at hk
  exact hk

theorem Shared.Owned.handles {s s' : Shared} {c} {event held erases l l'} (h : s.Owned c)
    (hh : Handles event held erases s s' l l')
    (hacc : ∀ fd k, event = some (.accept k, .accepts fd) → (s.heap c).fd ≠ fd)
    (hid : (s'.heap c).fd = (s.heap c).fd ∧ (s'.heap c).sock = (s.heap c).sock) : s'.Owned c := by
  intro k hk
  rw [hid.1] at hk
  rw [hid.2]
  refine h k ?_
  cases hh with
  | same _ fds | register _ _ _ _ _ _ _ _ fds => exact fds ▸ hk
  | accept fd k he _ _ fds =>
    rw [fds, Function.update_of_ne (hacc fd k he)] at hk
    exact hk
  | erase _ _ _ _ hs => simpa [hs] using hk
  | close fd _ fds =>
    rw [fds, Function.update_apply] at hk
    split at hk
    · cases hk
    · exact hk

namespace SubPc

theorem exec_sends {s : Shared} {p : SubPc} {i s' next c} (h : p.exec s i = some (s', next))
    (hs : next.bind sends = some c) : p.sends = some c := by
  cases exec_steps h with
  | sendLock c' => exact hs
  | send c' r ctl h₁ => rcases sendStep_next h₁ with rfl | ⟨fd, rfl⟩ <;> cases hs
  | _ => cases hs

end SubPc

/-- The event thread sends only for a connection it has found in the map. -/
theorem EventPc.exec_sends {s : Shared} {pc : EventPc} {i s' pc' c}
    (h : pc.exec s i = some (s', pc')) (hs : pc'.sends = some c) :
    pc.sends = some c ∨ ∃ fd, s' = s ∧ s.connections.lookup fd = some c := by
  cases exec_steps h with
  | writeFound fd c' k hl => exact .inr ⟨fd, rfl, Option.some.inj hs ▸ hl⟩
  | sub p ret next h₁ =>
    cases next with
    | none => cases ret <;> cases hs
    | some p' => exact .inl (SubPc.exec_sends h₁ hs)
  | _ => cases hs

/-- A worker comes to send for a connection whose number it has found
registered. -/
theorem WorkerPc.exec_sends {s : Shared} {pc : WorkerPc} {i s' pc' c}
    (h : pc.exec s i = some (s', pc')) (hs : pc'.sends = some c) :
    pc.sends = some c ∨ ∃ response, pc = check c response ∧ i = .go ∧ s' = s ∧
      s.connections.lookup (s.heap c).fd ≠ none := by
  cases exec_steps h with
  | check c' response hl =>
    obtain rfl : c' = c := Option.some.inj hs
    exact .inr ⟨response, rfl, rfl, rfl, hl⟩
  | sub p c' next h₁ =>
    cases next with
    | none => cases hs
    | some p' => exact .inl (SubPc.exec_sends h₁ hs)
  | _ => exact .inl hs

/-- `send` hands bytes only to the socket the number stands for. -/
theorem SubPc.sendStep_sent {s : Shared} {c r ctl s' next k part}
    (h : sendStep s c r ctl = some (s', next)) (hs : .sent c k part ∈ s'.log) :
    .sent c k part ∈ s.log ∨ s.fds (s.heap c).fd = some k := by
  have done : ∀ {s₁ : Shared} {ctl}, .sent c k part ∈ (sendDone s₁ c ctl).1.log → .sent c k part ∈ s₁.log := by
    intro s₁ ctl h₁
    simp only [sendDone] at h₁
    split at h₁ <;> simpa [Shared.setConn] using h₁
  have given : ∀ {k' m}, s.fds (s.heap c).fd = some k' → .sent c k part ∈ (handed s c k' m).log →
      .sent c k part ∈ s.log ∨ s.fds (s.heap c).fd = some k := by
    intro k' m hk h₁
    rcases List.mem_append.mp h₁ with h₁ | h₁
    · exact .inl h₁
    · simp only [List.mem_singleton, Event.sent.injEq] at h₁
      exact .inr (h₁.2.1 ▸ hk)
  generalize hout : (s', next) = out at h
  have hs' : .sent c k part ∈ out.1.log := by rw [← hout]; exact hs
  cases sendStep_cases h with
  | nothing => exact .inl hs'
  | empty ctl => exact .inl (done hs')
  | blocked ctl => exact .inl (by simpa using hs')
  | failed => exact .inl (by simpa [sendFailed, Shared.setConn] using hs')
  | whole k' ctl _ hk => exact given hk (done hs')
  | part k' m ctl _ hk => exact given hk (by simpa using hs')

theorem SubPc.refs_of_sends {p : SubPc} {c} (h : p.sends = some c) : c ∈ p.refs := by
  cases p <;> simp_all [sends, refs]

theorem EventPc.refs_of_sends {pc : EventPc} {c} (h : pc.sends = some c) : c ∈ pc.refs := by
  cases pc with
  | sub p ret => exact SubPc.refs_of_sends h
  | _ => cases h

theorem WorkerPc.refs_of_sends {pc : WorkerPc} {c} (h : pc.sends = some c) : c ∈ pc.refs := by
  cases pc with
  | sub p c' => exact List.mem_cons_of_mem _ (SubPc.refs_of_sends h)
  | _ => cases h <;> simp [refs, carries, stage]

namespace EventPc

theorem Touch.sent {s s' : Shared} {pc pc' : EventPc} {c k part} (h : Touch s pc c s' pc')
    (hs : .sent c k part ∈ s'.log) : .sent c k part ∈ s.log ∨
      (pc.sends = some c ∧ s.fds (s.heap c).fd = some k) := by
  have about : Event.about (.sent c k part) = some c := rfl
  have old : .sent c k part ∈ history c s.log → .sent c k part ∈ s.log := List.mem_of_mem_filter
  have new : .sent c k part ∈ history c s'.log := List.mem_filter.mpr ⟨hs, by simp [about]⟩
  cases h with
  | away heap hist | created _ _ _ hist => exact .inl (old (hist ▸ new))
  | noted e note _ hist =>
    rw [hist] at new
    rcases List.mem_append.mp new with new | new
    · exact .inl (old new)
    · rw [← List.mem_singleton.mp new] at note
      cases note
  | append fd chunk l hpc fits h =>
    cases appendStep_cases fits h with
    | completes _ _ _ hist | waits _ _ hist => exact .inl (old (by simpa [hist] using new))
  | send ret r ctl next hpc _ h =>
    rcases SubPc.sendStep_sent h hs with h | h
    · exact .inl h
    · exact .inr ⟨by rw [hpc]; rfl, h⟩

end EventPc

namespace WorkerPc

theorem Touch.sent {s s' : Shared} {pc pc' : WorkerPc} {c k part} (h : Touch s pc c s' pc')
    (hs : .sent c k part ∈ s'.log) : .sent c k part ∈ s.log ∨
      (pc.sends = some c ∧ s.fds (s.heap c).fd = some k) := by
  have about : Event.about (.sent c k part) = some c := rfl
  have old : .sent c k part ∈ history c s.log → .sent c k part ∈ s.log := List.mem_of_mem_filter
  have new : .sent c k part ∈ history c s'.log := List.mem_filter.mpr ⟨hs, by simp [about]⟩
  cases h with
  | away heap hist => exact .inl (old (hist ▸ new))
  | unregistered _ hist => exact .inl (old (by simpa [hist] using new))
  | taken _ _ _ _ log => exact .inl (log ▸ hs)
  | send c' r ctl next hpc _ h =>
    rcases SubPc.sendStep_sent h hs with h | h
    · exact .inl h
    · exact .inr ⟨by rw [hpc]; rfl, h⟩
  | parse _ _ _ hs' | keep _ _ hs' | missing _ _ _ hs' | unreg _ hs' | store _ _ hs'
  | finish _ hs' => exact .inl (by simpa [hs', Shared.setConn] using hs)

end WorkerPc

/-! ## Delivery -/

namespace Server

variable {n : Nat}

/-- Whoever is about to send does so on the connection's own number, and all
bytes went to the connection's own socket so far. -/
structure Delivers (s : Server n) : Prop where
  event : ∀ c, s.event.sends = some c → s.shared.Owned c
  worker : ∀ w c, (s.worker w).sends = some c → s.shared.Owned c
  sent : ∀ c k part, .sent c k part ∈ s.shared.log → (s.shared.heap c).sock = some k

theorem Delivers.stepEvent {s : Server n} {i sh pc own} (h : s.Delivers) (ht : s.Tidy)
    (hb : s.Bounded) (hok : s.reusedBeforeSend (.event i) = false)
    (he : s.event.exec s.shared i = some (sh, pc)) :
    Delivers { s with shared := sh, event := pc, owner := own } := by
  have hh := EventPc.exec_handles ht.event he
  have hid : ∀ c < s.shared.created, _ := fun c hc => (EventPc.exec_touch c he).ids hc
  refine ⟨fun c hc => ?_, fun w c hc => ?_, fun c k part hs => ?_⟩
  · rcases EventPc.exec_sends he hc with hp | ⟨fd, rfl, hl⟩
    · have hlt : c < s.shared.created := hb.event c (EventPc.refs_of_sends hp)
      refine (h.event c hp).handles hh (fun fd k hev => ?_) (hid c hlt)
      rw [(Prod.mk.inj (Option.some.inj hev)).1] at hp
      cases hp
    · exact ht.named.owned hl
  · have hlt : c < s.shared.created := hb.worker w c (WorkerPc.refs_of_sends hc)
    refine (h.worker w c hc).handles hh (fun fd k hev => ?_) (hid c hlt)
    rintro rfl
    rw [(Prod.mk.inj (Option.some.inj hev)).2] at hok
    simp only [reusedBeforeSend, List.any_eq_false, List.mem_finRange, true_implies] at hok
    simpa [hc] using hok w
  · have hold : .sent c k part ∈ s.shared.log → (sh.heap c).sock = some k := by
      intro hs
      rw [(hid c (hb.shared.log _ hs c rfl)).2]
      exact h.sent c k part hs
    rcases (EventPc.exec_touch c he).sent hs with hs | ⟨hs, hk⟩
    · exact hold hs
    · rw [(hid c (hb.event c (EventPc.refs_of_sends hs))).2]
      exact h.event c hs k hk

theorem Delivers.stepWorker {s : Server n} {w i sh pc own} (h : s.Delivers) (ht : s.Tidy)
    (hok : s.staleCheck (.worker w i) = false)
    (he : (s.worker w).exec s.shared i = some (sh, pc)) :
    Delivers { s with shared := sh, worker := Function.update s.worker w pc, owner := own } := by
  have hh := WorkerPc.exec_handles (ht.worker w) he
  have hid : ∀ c, _ := fun c => (WorkerPc.exec_touch c he).ids
  have keep : ∀ c, s.shared.Owned c → sh.Owned c := fun c ho => ho.handles hh nofun (hid c)
  refine ⟨fun c hc => keep c (h.event c hc), fun w' c hc => ?_, fun c k part hs => ?_⟩
  · by_cases hw : w' = w
    · subst hw
      have hc : pc.sends = some c := by simpa using hc
      rcases WorkerPc.exec_sends he hc with hp | ⟨response, hp, rfl, rfl, hl⟩
      · exact keep c (h.worker w' c hp)
      · obtain ⟨c', hc'⟩ := Option.ne_none_iff_exists'.mp hl
        have : c' = c := by simpa [staleCheck, hp, hc'] using hok
        exact ht.named.owned (this ▸ hc')
    · exact keep c (h.worker w' c (by simpa [hw] using hc))
  · show (sh.heap c).sock = some k
    rw [(hid c).2]
    rcases (WorkerPc.exec_touch c he).sent hs with hs | ⟨hs, hk⟩
    · exact h.sent c k part hs
    · exact h.worker w c hs k hk

theorem delivers {s : Server n} (h : (system n).ReachableBy (fun s a => s.keepsNumbers a = true) s) :
    s.Delivers := by
  refine h.invariant (I := Delivers) ?_ ?_
  · intro s hinit
    obtain ⟨_, _, _, _, rfl⟩ := hinit
    exact ⟨nofun, fun _ => nofun, nofun⟩
  intro s a s' hr hd hok hs
  have hj := joined hr
  simp only [keepsNumbers, Bool.and_eq_true, Bool.not_eq_true'] at hok
  cases step_cases hs with
  | event i sh pc he =>
    exact hd.stepEvent (tidy hr (hj.not_joined_of_event he)) (bounded hr) hok.2 he
  | worker w i sh pc he => exact hd.stepWorker (tidy hr (hj.not_joined_of_worker he)) hok.1 he
  | stop wl el sh pc he =>
    obtain ⟨heap, -, -, hist, hframe⟩ := StopPc.exec_frame he
    have owned : ∀ c, s.stop.eventJoined = false → s.shared.Owned c → sh.Owned c := by
      intro c hj ho
      simpa only [Shared.Owned, heap, (hframe hj).2] using ho
    refine ⟨fun c hc => ?_, fun w c hc => ?_, fun c k part hs => ?_⟩
    · refine owned c ?_ (hd.event c hc)
      by_contra hn
      have hc : s.event.sends = some c := hc
      rw [hj.event (by simpa using hn)] at hc
      cases hc
    · refine owned c ?_ (hd.worker w c hc)
      by_contra hn
      have hc : (s.worker w).sends = some c := hc
      rw [hj.worker (StopPc.workersJoined_of_eventJoined (by simpa using hn)) w] at hc
      cases hc
    · show (sh.heap c).sock = some k
      rw [heap]
      have hs : .sent c k part ∈ history c sh.log := List.mem_filter.mpr ⟨hs, by simp [Event.about]⟩
      exact hd.sent c k part (List.mem_of_mem_filter (hist c ▸ hs))
  | tick => exact ⟨hd.event, hd.worker, hd.sent⟩

/-- **Every byte of a response goes to the socket its connection was
constructed for**, in every run in which a worker's test of the map finds
either nothing or the connection itself, and no number is handed out again
while a worker is between that test and the end of its send. -/
theorem sent_to_own_socket {s : Server n}
    (h : (system n).ReachableBy (fun s a => s.keepsNumbers a = true) s) {c k part}
    (hs : .sent c k part ∈ s.shared.log) : (s.shared.heap c).sock = some k :=
  (delivers h).sent c k part hs

/-- A client is answered and goes away, and 7 is handed out for the next one,
who is answered too. -/
def answeredInTurn : List (Action 1) :=
  answered ++ closeClient 7 0 ++ acceptClient 7 1 ++ receiveRequest 7 getRequest 1 ++
    workerSteps (answerInputs ++ respondInputs (.accepts pageBytes.length))

theorem sent_to_own_socket_answered : ∃ s : Server 1,
    (system 1).ReachableBy (fun s a => s.keepsNumbers a = true) s ∧
      (s.shared.heap 0).fd = (s.shared.heap 1).fd ∧
      .sent 0 0 pageBytes ∈ s.shared.log ∧ (s.shared.heap 0).sock = some 0 ∧
      .sent 1 1 pageBytes ∈ s.shared.log ∧ (s.shared.heap 1).sock = some 1 := by
  obtain ⟨s, hr, hs⟩ := System.exists_reachableBy init_fresh keepsNumbers answeredInTurn
    (fun s => decide ((s.shared.heap 0).fd = (s.shared.heap 1).fd ∧
      .sent 0 0 pageBytes ∈ s.shared.log ∧ .sent 1 1 pageBytes ∈ s.shared.log)) (by decide +kernel)
  obtain ⟨hfd, hfirst, hsecond⟩ := of_decide_eq_true hs
  exact ⟨s, hr, hfd, hfirst, sent_to_own_socket hr hfirst, hsecond, sent_to_own_socket hr hsecond⟩

/-- A worker has found connection 0 registered as 7; the client goes away,
and 7 is handed out for the next client, who gets the response. -/
def misdelivered : List (Action 1) :=
  acceptClient 7 1 ++ receiveRequest 7 getRequest 1 ++ workerSteps answerInputs ++
    closeClient 7 0 ++ acceptClient 7 1 ++ workerSteps (respondInputs (.accepts pageBytes.length))

theorem not_sent_to_own_socket : ¬ ∀ (n : Nat) (s : Server n), (system n).Reachable s →
    ∀ c k part, .sent c k part ∈ s.shared.log → (s.shared.heap c).sock = some k := by
  intro h
  obtain ⟨s, hr, hs⟩ := System.exists_reachable init_fresh misdelivered
    (fun s => s.shared.log.any (fun | .sent 0 1 _ => true | _ => false) &&
      (s.shared.heap 0).sock == some 0) (by decide +kernel)
  simp only [Bool.and_eq_true, beq_iff_eq] at hs
  obtain ⟨e, he, hsent⟩ := List.any_eq_true.mp hs.1
  split at hsent
  · next part =>
    have := h 1 s hr 0 1 part he
    rw [hs.2] at this
    cases this
  · cases hsent

end Server

end Webserver
