/-
The bytes a client is sent. A connection has one slot for a response
(`pending_response`, `response_offset`); a worker that stores the next
response while the slot still holds a part of the last one cuts that one
short. Where no worker does, the bytes handed to the socket are at every
moment a prefix of the responses, one after the other.
-/
import Webserver.Delivery
import Webserver.Rounds
import Webserver.Sockets

namespace Webserver

open Cxx Locks Systems

/-! ## Output -/

/-- The bytes a step handed to the kernel. -/
def Event.payload : Event → Bytes
  | .sent _ _ part => part
  | _ => []

/-- The bytes a step handed to socket `k`. -/
def Event.payloadOn (k : Sock) : Event → Bytes
  | .sent _ k' part => if k' = k then part else []
  | _ => []

def output (hist : List Event) : Bytes := hist.flatMap Event.payload

/-- All bytes handed to socket `k`, for whatever connection. -/
def sentOn (k : Sock) (log : List Event) : Bytes := log.flatMap (Event.payloadOn k)

@[simp] theorem output_append (hist l : List Event) : output (hist ++ l) = output hist ++ output l :=
  List.flatMap_append

/-- Where a socket belongs to one connection, its bytes are the connection's. -/
theorem sentOn_eq_output {c : ConnId} {k : Sock} {log : List Event}
    (own : ∀ k' part, .sent c k' part ∈ log → k' = k)
    (others : ∀ c' part, c' ≠ c → .sent c' k part ∉ log) :
    sentOn k log = output (history c log) := by
  induction log with
  | nil => rfl
  | cons e log ih =>
    have tail : sentOn k log = output (history c log) :=
      ih (fun k' part hm => own k' part (List.mem_cons_of_mem _ hm))
        fun c' part hne hm => others c' part hne (List.mem_cons_of_mem _ hm)
    simp only [sentOn, output, history, List.flatMap_cons] at tail ⊢
    by_cases hc : e.about = some c
    · have head : e.payloadOn k = e.payload := by
        cases e with
        | sent c' k' part =>
          obtain rfl : c' = c := Option.some.inj hc
          simp [Event.payloadOn, Event.payload, own k' part (by simp)]
        | _ => rfl
      rw [List.filter_cons_of_pos (by simpa using hc), List.flatMap_cons, head, tail]
    · have head : e.payloadOn k = [] := by
        cases e with
        | sent c' k' part =>
          have hne : c' ≠ c := fun h => hc (by rw [h]; rfl)
          have hk : k' ≠ k := by
            intro hk
            exact others c' part hne (by simp [hk])
          simp [Event.payloadOn, hk]
        | _ => rfl
      rw [List.filter_cons_of_neg (by simpa using hc), head, List.nil_append, tail]

/-! ## The slot -/

/-- An event that neither stores nor sends. -/
def Event.keepsSlot : Event → Bool
  | .stored _ _ | .sent _ _ _ => false
  | _ => true

theorem Event.keepsSlot_of_isNote {e : Event} (h : e.isNote) : e.keepsSlot := by
  cases e <;> first | rfl | cases h

theorem Event.not_isStored_of_keepsSlot {e : Event} (h : e.keepsSlot) : ¬ e.isStored := by
  cases e <;> first | exact Bool.false_ne_true | cases h

theorem Event.not_isStored_of_isOutput {e : Event} (h : e.isOutput) : ¬ e.isStored := by
  cases e <;> first | exact Bool.false_ne_true | cases h

theorem responses_of_keepsSlot {l : List Event} (hl : ∀ e ∈ l, e.keepsSlot) : responses l = [] :=
  responses_eq_nil fun e he => Event.not_isStored_of_keepsSlot (hl e he)

theorem output_of_keepsSlot {l : List Event} (hl : ∀ e ∈ l, e.keepsSlot) : output l = [] := by
  refine List.flatMap_eq_nil_iff.mpr fun e he => ?_
  have := hl e he
  cases e <;> first | rfl | cases this

/-- Two states of a connection with the same slot. -/
structure SameSlot (conn conn' : Connection) : Prop where
  pending : conn'.hasPendingWrite = conn.hasPendingWrite
  response : conn'.pendingResponse = conn.pendingResponse
  offset : conn'.responseOffset = conn.responseOffset

/-- The slot holds the last response, of which the bytes before the offset
are sent; all responses before it are sent, and all where the slot is empty. -/
structure Slot (conn : Connection) (hist : List Event) : Prop where
  pending : conn.hasPendingWrite = true → ∃ done,
    responses hist = done ++ [conn.pendingResponse] ∧
      output hist = done.flatten ++ conn.pendingResponse.take conn.responseOffset
  empty : conn.hasPendingWrite = false → output hist = (responses hist).flatten

namespace Slot

variable {conn conn' : Connection} {hist l : List Event}

theorem quiet (h : Slot conn hist) (hl : ∀ e ∈ l, e.keepsSlot) (same : SameSlot conn conn') :
    Slot conn' (hist ++ l) := by
  have hr : responses (hist ++ l) = responses hist := by
    rw [responses_append, responses_of_keepsSlot hl, List.append_nil]
  have ho : output (hist ++ l) = output hist := by
    rw [output_append, output_of_keepsSlot hl, List.append_nil]
  refine ⟨fun hp => ?_, fun hp => ?_⟩ <;> rw [hr, ho]
  · rw [same.response, same.offset]
    exact h.pending (same.pending ▸ hp)
  · exact h.empty (same.pending ▸ hp)

/-- Every response but the last is sent whole, and of the last a part. -/
theorem output_isPrefixOf (h : Slot conn hist) : output hist <+: (responses hist).flatten := by
  cases hp : conn.hasPendingWrite with
  | false => rw [h.empty hp]
  | true =>
    obtain ⟨done, hr, ho⟩ := h.pending hp
    rw [hr, ho, List.flatten_append, List.flatten_singleton]
    exact List.prefix_append_right_inj _ |>.mpr (List.take_prefix _ _)

/-- The slot is emptied once nothing is left to send. -/
theorem done (h : Slot conn hist) (hp : conn.hasPendingWrite = true) (hrest : SubPc.rest conn = [])
    (hl : ∀ e ∈ l, e.keepsSlot) (hp' : conn'.hasPendingWrite = false) : Slot conn' (hist ++ l) := by
  refine ⟨fun hp => absurd hp (by simp [hp']), fun _ => ?_⟩
  obtain ⟨done, hr, ho⟩ := h.pending hp
  have all : conn.pendingResponse.take conn.responseOffset = conn.pendingResponse :=
    List.take_of_length_le (List.drop_eq_nil_iff.mp hrest)
  rw [output_append, output_of_keepsSlot hl, responses_append, responses_of_keepsSlot hl, hr, ho, all]
  simp

/-- `n` more bytes are sent. -/
theorem handed {c : ConnId} {k : Sock} {m : Nat} (h : Slot conn hist)
    (hp : conn.hasPendingWrite = true) :
    Slot { conn with responseOffset := conn.responseOffset + m }
      (hist ++ [.sent c k ((SubPc.rest conn).take m)]) := by
  refine ⟨fun _ => ?_, fun hp' => absurd hp (by simpa using hp')⟩
  obtain ⟨done, hr, ho⟩ := h.pending hp
  refine ⟨done, ?_, ?_⟩
  · simpa [responses] using hr
  · rw [output_append, ho, List.append_assoc, List.take_add]
    simp [output, Event.payload, SubPc.rest]

/-- The next response is stored in an empty slot. -/
theorem store (c : ConnId) (out : Bytes) (h : Slot conn hist) (hp : conn.hasPendingWrite = false) :
    Slot { conn with pendingResponse := out, responseOffset := 0, hasPendingWrite := true }
      (hist ++ [.stored c out]) := by
  refine ⟨fun _ => ⟨responses hist, ?_, ?_⟩, nofun⟩
  · simp [responses]
  · rw [output_append, h.empty hp]
    simp [output, Event.payload]

end Slot

namespace SubPc

theorem sendDone_slot {s : Shared} {c ctl} (h : Slot (s.heap c) (history c s.log))
    (hp : (s.heap c).hasPendingWrite = true) (hrest : rest (s.heap c) = []) :
    Slot ((sendDone s c ctl).1.heap c) (history c (sendDone s c ctl).1.log) := by
  have empty : ((sendDone s c ctl).1.heap c).hasPendingWrite = false := by
    simp only [sendDone]
    split <;> simp [Shared.setConn, Shared.emit]
  rcases sendDone_history s c ctl with hist | hist <;> rw [hist]
  · have := h.done (l := []) hp hrest (by simp) empty
    rwa [List.append_nil] at this
  · exact h.done hp hrest (by simp [Event.keepsSlot]) empty

theorem handed_slot {s : Shared} {c k m} (h : Slot (s.heap c) (history c s.log))
    (hp : (s.heap c).hasPendingWrite = true) :
    Slot ((handed s c k m).heap c) (history c (handed s c k m).log) := by
  have hist : history c (handed s c k m).log =
      history c s.log ++ [.sent c k ((rest (s.heap c)).take m)] := history_emit rfl
  rw [hist]
  have := h.handed (c := c) (k := k) (m := m) hp
  simpa [handed, Shared.emit, Shared.setConn] using this

theorem sendStep_slot {s : Shared} {c r ctl s' next} (h : Slot (s.heap c) (history c s.log))
    (hs : sendStep s c r ctl = some (s', next)) (hopen : ∀ r, .sendFailed c r ∉ s'.log) :
    Slot (s'.heap c) (history c s'.log) := by
  generalize hout : (s', next) = out at hs
  obtain rfl : s' = out.1 := by rw [← hout]
  cases sendStep_cases hs with
  | nothing => exact h
  | empty ctl hp hrest => exact sendDone_slot h hp hrest
  | blocked ctl => simpa using h
  | failed => exact absurd (by simp [sendFailed]) (hopen r)
  | whole k ctl hp =>
    refine sendDone_slot (handed_slot h hp) ?_ ?_
    · simpa [handed, Shared.emit, Shared.setConn] using hp
    · simp [handed, Shared.emit, Shared.setConn, rest]
      omega
  | part k m ctl hp => simpa using handed_slot (k := k) (m := m) h hp

end SubPc

/-! ## What a step does to the slot -/

/-- A step that neither stores nor sends on the connection, and logs `l` for it. -/
structure Shared.KeepsSlot (s : Shared) (c : ConnId) (s' : Shared) (l : List Event) : Prop where
  events : ∀ e ∈ l, e.keepsSlot = true ∧ e.isOutput = false
  hist : history c s'.log = history c s.log ++ l
  slot : SameSlot (s.heap c) (s'.heap c)

theorem Shared.KeepsSlot.of_same {s s' : Shared} {c l} (events : ∀ e ∈ l, e.keepsSlot = true ∧ e.isOutput = false)
    (hist : history c s'.log = history c s.log ++ l) (heap : s'.heap c = s.heap c) : s.KeepsSlot c s' l :=
  ⟨events, hist, by rw [heap]; exact ⟨rfl, rfl, rfl⟩⟩

theorem Shared.KeepsSlot.stays {s s' : Shared} {c l} (h : s.KeepsSlot c s' l) : ∀ e ∈ l, e.keepsSlot :=
  fun e he => (h.events e he).1

namespace EventPc

/-- The event thread sends on a connection, constructs it, or leaves its slot. -/
inductive Slots (s : Shared) (pc : EventPc) (c : ConnId) (s' : Shared) : Prop
  | keeps (l) (h : s.KeepsSlot c s' l) (keep : (s'.heap c).keepAlive = (s.heap c).keepAlive)
  | created (fd) (hc : c = s.created)
      (heap : s'.heap c = { fd := fd, lastActivity := s.clock, sock := s.fds fd })
      (hist : history c s'.log = history c s.log)
  | send (ret r ctl next) (hpc : pc = sub (.send c) ret)
      (h : SubPc.sendStep s c r ctl = some (s', next))

theorem Touch.slots {s s' : Shared} {pc pc' : EventPc} {c} (h : Touch s pc c s' pc') : Slots s pc c s' := by
  cases h with
  | away heap hist =>
    exact .keeps [] (.of_same (List.forall_mem_nil _) (by simpa using hist) heap) (by rw [heap])
  | noted e note heap hist =>
    refine .keeps [e] (.of_same (fun e' he' => ?_) hist heap) (by rw [heap])
    rw [List.mem_singleton.mp he']
    cases e <;> first | exact ⟨rfl, rfl⟩ | cases note
  | created fd hc heap hist => exact .created fd hc heap hist
  | append fd chunk k _ fits happ =>
    cases appendStep_cases fits happ with
    | completes _ _ heap hist =>
      exact .keeps [.received c chunk, .dispatched c] ⟨by simp [Event.keepsSlot, Event.isOutput], hist,
        by rw [heap]; exact ⟨rfl, rfl, rfl⟩⟩ (by rw [heap])
    | waits _ heap hist =>
      exact .keeps [.received c chunk] ⟨by simp [Event.keepsSlot, Event.isOutput], hist,
        by rw [heap]; exact ⟨rfl, rfl, rfl⟩⟩ (by rw [heap])
  | send ret r ctl next hpc _ hsend => exact .send ret r ctl next hpc hsend

end EventPc

namespace WorkerPc

/-- A worker stores the response of a connection, sends on it, or leaves its slot. -/
inductive Slots (s : Shared) (pc : WorkerPc) (c : ConnId) (s' : Shared) : Prop
  | keeps (l) (h : s.KeepsSlot c s' l)
      (keep : (∀ request, pc ≠ keep c request) → (s'.heap c).keepAlive = (s.heap c).keepAlive)
  | store (response) (hpc : pc = store c response)
      (heap : s'.heap c = { s.heap c with
        pendingResponse := response.toString s.order, responseOffset := 0, hasPendingWrite := true })
      (hist : history c s'.log = history c s.log ++ [.stored c (response.toString s.order)])
  | send (c' r ctl next) (hpc : pc = sub (.send c) c')
      (h : SubPc.sendStep s c r ctl = some (s', next))

theorem Touch.slots {s s' : Shared} {pc pc' : WorkerPc} {c} (h : Touch s pc c s' pc') : Slots s pc c s' := by
  cases h with
  | away heap hist =>
    exact .keeps [] (.of_same (List.forall_mem_nil _) (by simpa using hist) heap) fun _ => by rw [heap]
  | unregistered heap hist =>
    exact .keeps [.unregistered c] (.of_same (by simp [Event.keepsSlot, Event.isOutput]) hist heap)
      fun _ => by rw [heap]
  | taken _ _ _ heap log =>
    exact .keeps [] (.of_same (List.forall_mem_nil _) (by simp [log]) heap) fun _ => by rw [heap]
  | parse request _ _ hs =>
    refine .keeps [.parsed c (s.heap c).buffer] (.of_same (by simp [Event.keepsSlot, Event.isOutput])
      (history_of_eq_emit hs rfl rfl) ?_) fun _ => ?_ <;> rw [hs] <;> rfl
  | missing response _ _ hs =>
    exact .keeps [] (.of_same (List.forall_mem_nil _) (by simp [hs]) (by rw [hs])) fun _ => by rw [hs]
  | keep request hpc hs =>
    refine .keeps [] ⟨List.forall_mem_nil _, by simp [hs, Shared.setConn], ?_⟩
      fun hne => absurd hpc (hne request)
    constructor <;> simp [hs, Shared.setConn]
  | unreg _ hs =>
    refine .keeps [] ⟨List.forall_mem_nil _, by simp [hs, Shared.setConn], ?_⟩ fun _ => ?_
    · constructor <;> simp [hs, Shared.setConn]
    · simp [hs, Shared.setConn]
  | finish _ hs =>
    refine .keeps [.cleared c] ⟨by simp [Event.keepsSlot, Event.isOutput], history_of_eq_emit hs rfl rfl, ?_⟩
      fun _ => ?_
    · constructor <;> simp [hs, Shared.setConn, Shared.emit]
    · simp [hs, Shared.setConn, Shared.emit]
  | store response hpc hs =>
    exact .store response hpc (by simp [hs, Shared.setConn, Shared.emit]) (history_of_eq_emit hs rfl rfl)
  | send c' r ctl next hpc _ hsend => exact .send c' r ctl next hpc hsend

end WorkerPc

/-! ## The stream -/

namespace Server

variable {n : Nat}

/-- A worker stores a response for `c` while the slot still holds a part of
the last one. -/
def storesOverPending (c : ConnId) (s : Server n) : Action n → Bool
  | .worker w .go =>
    match s.worker w with
    | .store c' _ => c' = c && (s.shared.heap c).hasPendingWrite
    | _ => false
  | _ => false

/-- What `c` was sent follows its responses, as long as no send failed, and
its responses follow its requests. -/
structure Streams (s : Server n) (c : ConnId) : Prop where
  slot : (∀ r, .sendFailed c r ∉ s.shared.log) → Slot (s.shared.heap c) (history c s.shared.log)
  inStep : InStep (history c s.shared.log)

theorem Streams.quiet {s s' : Server n} {c} (h : s.Streams c) {l : List Event}
    (hl : ∀ e ∈ l, e.keepsSlot) (hist : history c s'.shared.log = history c s.shared.log ++ l)
    (same : SameSlot (s.shared.heap c) (s'.shared.heap c)) : s'.Streams c := by
  refine ⟨fun hopen => ?_, ?_⟩
  · rw [hist]
    refine (h.slot fun r hm => hopen r ?_).quiet hl same
    rw [← mem_history (e := .sendFailed c r) rfl, hist]
    exact List.mem_append_left _ ((mem_history rfl).mpr hm)
  · rw [hist]
    exact Whenever.append h.inStep fun e he => Event.not_isStored_of_keepsSlot (hl e he)

theorem Streams.send {s s' : Server n} {c r ctl next} (h : s.Streams c)
    (hs : SubPc.sendStep s.shared c r ctl = some (s'.shared, next)) : s'.Streams c := by
  obtain ⟨l, hl, hk⟩ := SubPc.sendStep_history hs
  refine ⟨fun hopen => ?_, ?_⟩
  · refine SubPc.sendStep_slot (h.slot fun r hm => hopen r ?_) hs hopen
    rw [← mem_history (e := .sendFailed c r) rfl, hl]
    exact List.mem_append_left _ ((mem_history rfl).mpr hm)
  · rw [hl]
    exact Whenever.append h.inStep fun e he => Event.not_isStored_of_isOutput (hk e he)

theorem Streams.stepEvent {s : Server n} {i sh pc own c} (h : s.Streams c) (hb : s.Bounded)
    (he : s.event.exec s.shared i = some (sh, pc)) :
    Streams { s with shared := sh, event := pc, owner := own } c := by
  cases (EventPc.exec_touch c he).slots with
  | keeps l hk => exact h.quiet hk.stays hk.hist hk.slot
  | created fd hc heap hist =>
    have hnil : history c sh.log = [] := by rw [hist, hc, hb.shared.history_created]
    refine ⟨fun _ => ?_, ?_⟩
    · rw [heap, hnil]
      exact ⟨nofun, fun _ => rfl⟩
    · rw [hnil]
      exact Whenever.nil
  | send ret r ctl next _ hsend => exact h.send hsend

theorem Streams.stepWorker {s : Server n} {w i sh pc own c} (h : s.Streams c) (ht : s.Tasked c)
    (hr : s.Rounds c) (hok : storesOverPending c s (.worker w i) = false)
    (he : (s.worker w).exec s.shared i = some (sh, pc)) :
    Streams { s with shared := sh, worker := Function.update s.worker w pc, owner := own } c := by
  cases (WorkerPc.exec_touch c he).slots with
  | keeps l hk => exact h.quiet hk.stays hk.hist hk.slot
  | send c' r ctl next _ hsend => exact h.send hsend
  | store response hpc heap hist =>
    have hi : i = .go := by
      rw [hpc] at he
      cases WorkerPc.exec_steps he
      rfl
    have hp : (s.shared.heap c).hasPendingWrite = false := by
      simpa [storesOverPending, hi, hpc] using hok
    have hst : (s.worker w).stageOf c = some .answering := hpc ▸ WorkerPc.stageOf_of_stage rfl
    refine ⟨fun hopen => ?_, ?_⟩
    · have hslot := h.slot fun r hm => hopen r ?_
      · rw [hist, heap]
        exact hslot.store c (response.toString s.shared.order) hp
      · rw [← mem_history (e := .sendFailed c r) rfl, hist]
        exact List.mem_append_left _ ((mem_history rfl).mpr hm)
    · rw [hist]
      refine Whenever.concat h.inStep fun _ => hr.owing (ht.alone hst).1 ?_
      rw [ht.sending_iff hst]
      simp

theorem streams {c : ConnId} {s : Server n}
    (h : (system n).ReachableBy (fun s a => !storesOverPending c s a) s) : s.Streams c := by
  refine h.invariant (I := fun s => s.Streams c) ?_ ?_
  · intro s hinit
    obtain ⟨_, _, _, _, rfl⟩ := hinit
    exact ⟨fun _ => ⟨nofun, fun _ => rfl⟩, Whenever.nil⟩
  intro s a s' hr hi hok hs
  cases step_cases hs with
  | event i sh pc he => exact hi.stepEvent (bounded hr) he
  | worker w i sh pc he =>
    exact hi.stepWorker (tasked hr c) (rounds hr ((joined hr).not_joined_of_worker he))
      (by simpa using hok) he
  | stop wl el sh pc he =>
    obtain ⟨heap, -, -, hist, -⟩ := StopPc.exec_frame he
    exact hi.quiet (l := []) nofun (by simp [hist]) (by simp only [heap]; exact ⟨rfl, rfl, rfl⟩)
  | tick => exact ⟨hi.slot, hi.inStep⟩

/-- **The client of a connection is sent its responses whole and in order**,
in every run in which no worker stores a response of the connection while a
part of the last one is still to be sent, and no response goes to another
client's socket: the bytes handed to the socket of a connection on which no
send has failed are a prefix of its responses, the `i`-th of which is the one
to the `i`-th request dispatched. -/
theorem sent_in_order {c : ConnId} {s : Server n}
    (h : (system n).ReachableBy (fun s a => !storesOverPending c s a && s.keepsNumbers a) s)
    {k : Sock} (hc : c < s.shared.created) (hk : (s.shared.heap c).sock = some k)
    (hopen : ∀ r, .sendFailed c r ∉ s.shared.log) :
    sentOn k s.shared.log <+: (responses (history c s.shared.log)).flatten ∧
      InStep (history c s.shared.log) := by
  have hs : s.Streams c := streams (h.mono fun s a hok => (Bool.and_eq_true_iff.mp hok).1)
  have hd : s.Delivers := delivers (h.mono fun s a hok => (Bool.and_eq_true_iff.mp hok).2)
  have own : ∀ k' part, .sent c k' part ∈ s.shared.log → k' = k := fun k' part hm =>
    Option.some.inj ((hd.sent c k' part hm).symm.trans hk)
  have others : ∀ c' part, c' ≠ c → .sent c' k part ∉ s.shared.log := by
    intro c' part hne hm
    have hlt : c' < s.shared.created := (bounded h).shared.log _ hm c' rfl
    exact hne ((sockets h).distinct c' hlt c hc k (hd.sent c' k part hm) hk)
  rw [sentOn_eq_output own others]
  exact ⟨(hs.slot hopen).output_isPrefixOf, hs.inStep⟩

/-- The first response goes in two parts, and of the second five bytes have gone. -/
theorem sent_in_order_answered : ∃ s : Server 1,
    (system 1).ReachableBy (fun s a => !storesOverPending 0 s a && s.keepsNumbers a) s ∧
      sentOn 0 s.shared.log = pageBytes ++ pageBytes.take 5 ∧
      sentOn 0 s.shared.log <+: (responses (history 0 s.shared.log)).flatten ∧
      InStep (history 0 s.shared.log) := by
  obtain ⟨s, hr, hs⟩ := System.exists_reachableBy init_fresh
    (fun s a => !storesOverPending 0 s a && s.keepsNumbers a)
    (answeredInParts ++ workerSteps (respondInputs (.accepts 5)))
    (fun s => s.shared.created = 1 && (s.shared.heap 0).sock = some 0 &&
      sentOn 0 s.shared.log = pageBytes ++ pageBytes.take 5 &&
      s.shared.log.all fun | .sendFailed _ _ => false | _ => true) (by decide +kernel)
  simp only [Bool.and_eq_true, decide_eq_true_eq, List.all_eq_true] at hs
  obtain ⟨⟨⟨hc, hk⟩, hsent⟩, hopen⟩ := hs
  have hlt : 0 < s.shared.created := by simp [hc]
  exact ⟨s, hr, hsent, sent_in_order hr hlt hk fun r hm => Bool.noConfusion (hopen _ hm)⟩

/-- The kernel takes five bytes of the first response. The worker ends its
task, the client's next request is dispatched, and the next response takes
the place of what is left of the first. -/
def overtaken : List (Action 1) :=
  acceptClient 7 1 ++ receiveRequest 7 getRequest 1 ++
    workerSteps (answerInputs ++ respondInputs (.accepts 5) ++ finishInputs) ++
    receiveRequest 7 getRequest 1 ++
    workerSteps (answerInputs ++ respondInputs (.accepts pageBytes.length))

theorem not_sent_in_order : ¬ ∀ (n : Nat) (s : Server n), (system n).Reachable s →
    ∀ c < s.shared.created, ∀ k, (s.shared.heap c).sock = some k →
      (∀ r, .sendFailed c r ∉ s.shared.log) →
      sentOn k s.shared.log <+: (responses (history c s.shared.log)).flatten := by
  intro h
  obtain ⟨s, hr, hs⟩ := System.exists_reachable init_fresh overtaken
    (fun s => s.shared.created = 1 && (s.shared.heap 0).sock = some 0 &&
      (s.shared.log.all fun | .sendFailed _ _ => false | _ => true) &&
      !(sentOn 0 s.shared.log).isPrefixOf (responses (history 0 s.shared.log)).flatten)
    (by decide +kernel)
  simp only [Bool.and_eq_true, decide_eq_true_eq, List.all_eq_true, Bool.not_eq_true'] at hs
  obtain ⟨⟨⟨hc, hk⟩, hopen⟩, hnot⟩ := hs
  have := h 1 s hr 0 (by simp [hc]) 0 hk fun r hm => Bool.noConfusion (hopen _ hm)
  rw [← List.isPrefixOf_iff_prefix, hnot] at this
  cases this

end Server

end Webserver
