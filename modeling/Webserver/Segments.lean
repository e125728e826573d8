/-
A request that arrives in pieces. `is_http_request_complete` is true of the
whole message and of no shorter beginning of it, wherever the pieces are cut,
so that the piece with the last byte is the one that makes the task.
-/
import Webserver.Arrivals
import Webserver.Lines
import Webserver.Rounds

namespace Webserver

open Cxx HttpRequest

/-- A request as it is sent: its lines, and a body. -/
structure RawMessage where
  requestLine : Bytes
  headers : List Bytes
  body : Bytes

/-- A decimal number. -/
structure IsDecimal (s : Bytes) (n : Nat) : Prop where
  ne : s ≠ []
  digits : ∀ b ∈ s, isDigit b = true
  val : digitsVal s = n

namespace RawMessage

/-- The lines, without the line break of the last. -/
def head (m : RawMessage) : Bytes := headText m.requestLine m.headers

def toBytes (m : RawMessage) : Bytes := m.head ++ bytes "\r\n\r\n" ++ m.body

/-- The values of the `Content-Length` headers. -/
def contentLengths (m : RawMessage) : List Bytes := m.headers.filterMap (headerValue contentLengthName)

/-- One `Content-Length` at most, and the body is as long as it says, or
empty where there is none. -/
structure WellFormed (m : RawMessage) : Prop where
  requestLine : IsLine m.requestLine
  headers : ∀ line ∈ m.headers, IsLine line
  length : m.contentLengths = [] ∧ m.body = [] ∨
    ∃ value, m.contentLengths = [value] ∧ IsDecimal value m.body.length

/-! ## The end of the head -/

variable {m : RawMessage}

theorem WellFormed.find_toBytes (h : m.WellFormed) :
    find (bytes "\r\n\r\n") m.toBytes = some m.head.length :=
  find_headText h.requestLine h.headers m.body

/-! ## The length of the body -/

theorem WellFormed.framedLength_head (h : m.WellFormed) :
    framedLength m.head = m.contentLengths.head?.bind stoull := by
  have hstrip := stripCr_getlines h.requestLine h.headers
  have hdrop : ((getlines lf m.head).drop 1).map stripCr = m.headers := by
    rw [List.map_drop, head, hstrip, List.drop_one, List.tail_cons]
  have hfull : ((getlines lf m.head).drop 1).takeWhile (· ≠ []) = (getlines lf m.head).drop 1 := by
    refine List.takeWhile_eq_self_iff.mpr fun line hline => decide_eq_true fun hnil => ?_
    have : stripCr line ∈ m.headers := hdrop ▸ List.mem_map_of_mem hline
    rw [hnil] at this
    exact (h.headers _ this).ne rfl
  rw [framedLength, scanContentLength_eq, hfull, lengths, hdrop]
  rfl

/-- The test reads the length of the body. -/
theorem WellFormed.framedLength_eq (h : m.WellFormed) (hsize : m.body.length < 2 ^ 64) :
    framedLength m.head = none ∧ m.body = [] ∨ framedLength m.head = some m.body.length := by
  rw [h.framedLength_head]
  rcases h.length with ⟨hnone, hnil⟩ | ⟨value, hvalue, hdec⟩
  · exact .inl ⟨by rw [hnone]; rfl, hnil⟩
  · refine .inr ?_
    rw [hvalue, List.head?_cons, Option.bind_some, Message.stoull_digits hdec.ne hdec.digits, hdec.val,
      if_neg (by omega)]

theorem length_toBytes (m : RawMessage) : m.toBytes.length = m.head.length + 4 + m.body.length := by
  have h₄ : (bytes "\r\n\r\n").length = 4 := by decide
  simp only [toBytes, List.length_append, h₄]

/-- **Only the whole message is complete**: of its beginnings, however they
are cut, no shorter one is. -/
theorem WellFormed.complete_iff (h : m.WellFormed) (hsize : m.toBytes.length < 2 ^ 64) {b : Bytes}
    (hb : b <+: m.toBytes) : isHttpRequestComplete b = true ↔ b = m.toBytes := by
  have hiff : m.toBytes.length ≤ b.length ↔ b = m.toBytes :=
    ⟨fun hle => hb.eq_of_length (Nat.le_antisymm hb.length_le hle), fun he => he ▸ Nat.le_refl _⟩
  cases hf : find (bytes "\r\n\r\n") b with
  | none =>
    have hne : b ≠ m.toBytes := fun he => by
      rw [he, h.find_toBytes] at hf
      cases hf
    simp [isHttpRequestComplete, hf, hne]
  | some n =>
    obtain ⟨rest, hrest⟩ := hb
    obtain rfl : n = m.head.length := by
      have := find_append hf rest
      rw [hrest, h.find_toBytes] at this
      exact (Option.some.inj this).symm
    have htake : b.take m.head.length = m.head := by
      obtain ⟨tail, htail⟩ := find_spec hf
      have hlen : m.head.length ≤ b.length := by
        have := congrArg List.length htail
        simp only [List.length_append, List.length_take] at this
        have h₄ : (bytes "\r\n\r\n").length = 4 := by decide
        omega
      have hhead : m.toBytes.take m.head.length = m.head := by
        rw [toBytes, List.append_assoc, List.take_left]
      rw [← hhead, ← hrest, List.take_append_of_le_length hlen]
      simp
    have hlen := m.length_toBytes
    rw [← hiff, isHttpRequestComplete, hf]
    simp only [htake, decide_eq_true_eq]
    rcases h.framedLength_eq (by omega) with ⟨hnone, hnil⟩ | hsome
    · rw [hnil, List.length_nil] at hlen
      rw [hnone, hlen, addSize, Nat.mod_eq_of_lt (by omega), Nat.add_zero]
    · rw [hsome]
      simp only [addSize]
      rw [Nat.mod_eq_of_lt (by omega : m.head.length + 4 < 2 ^ 64), Nat.mod_eq_of_lt (by omega), hlen]

end RawMessage

/-! ## One connection -/

open Locks Systems

/-- The bytes appended to a connection's buffer. -/
def received (hist : List Event) : Bytes :=
  hist.flatMap fun | .received _ chunk => chunk | _ => []

/-- What the requests of a connection were parsed from. -/
def parses (hist : List Event) : List Bytes :=
  hist.filterMap fun | .parsed _ input => some input | _ => none

theorem received_append (hist l : List Event) : received (hist ++ l) = received hist ++ received l :=
  List.flatMap_append

theorem parses_append (hist l : List Event) : parses (hist ++ l) = parses hist ++ parses l :=
  List.filterMap_append

/-- An event that neither brings bytes nor makes or starts a task. -/
def Event.keepsInput : Event → Bool
  | .received _ _ | .dispatched _ | .parsed _ _ => false
  | _ => true

theorem Event.keepsInput_of_isNote {e : Event} (h : e.isNote) : e.keepsInput := by
  cases e <;> first | rfl | cases h

theorem Event.keepsInput_of_isOutput {e : Event} (h : e.isOutput) : e.keepsInput := by
  cases e <;> first | rfl | cases h

/-- What such events add. -/
theorem keepsInput_adds {l : List Event} (hl : ∀ e ∈ l, e.keepsInput) :
    received l = [] ∧ dispatches l = 0 ∧ parses l = [] := by
  refine ⟨List.flatMap_eq_nil_iff.mpr ?_, List.countP_eq_zero.mpr ?_, List.filterMap_eq_nil_iff.mpr ?_⟩
  all_goals
    intro e he
    have := hl e he
    cases e <;> first | rfl | exact Bool.false_ne_true | cases this

/-- The tasks of `c` a worker has taken and not yet parsed the request of. -/
def WorkerPc.unread (pc : WorkerPc) (c : ConnId) : Nat := if pc.stageOf c = some .waiting then 1 else 0

theorem WorkerPc.unread_of_stage {pc : WorkerPc} {c st} (h : pc.stage = some (c, st)) :
    pc.unread c = if st = .waiting then 1 else 0 := by
  rw [unread, stageOf_of_stage h]
  simp

theorem WorkerPc.unread_of_none {pc : WorkerPc} {c} (h : pc.stage = none) : pc.unread c = 0 := by
  simp [unread, stageOf, h]

/-- A step of the event thread makes a task where it logs one. -/
theorem EventPc.Touch.made {s s' : Shared} {pc pc' : EventPc} {c} (h : Touch s pc c s' pc') :
    ∃ l, history c s'.log = history c s.log ++ l ∧ parses l = [] ∧
      queued s' pc' c ≤ queued s pc c + Webserver.dispatches l ∧
      (s.poolShutdown = false → queued s' pc' c = queued s pc c + Webserver.dispatches l) := by
  have keeps : ∀ {l}, (∀ e ∈ l, e.keepsInput) → history c s'.log = history c s.log ++ l →
      KeepsTasks s pc c s' pc' → ∃ l, history c s'.log = history c s.log ++ l ∧ parses l = [] ∧
        queued s' pc' c ≤ queued s pc c + Webserver.dispatches l ∧
        (s.poolShutdown = false → queued s' pc' c = queued s pc c + Webserver.dispatches l) := by
    intro l hl hist tasks
    obtain ⟨-, hd, hp⟩ := keepsInput_adds hl
    exact ⟨l, hist, hp, by rw [hd]; exact tasks.1, fun hs => by rw [hd]; exact tasks.2 hs⟩
  cases h with
  | away heap hist tasks => exact keeps (l := []) nofun (by simpa using hist) tasks
  | noted e note heap hist tasks =>
    refine keeps (l := [e]) (fun e' he' => ?_) hist tasks
    exact List.mem_singleton.mp he' ▸ Event.keepsInput_of_isNote note
  | created fd hc heap hist tasks => exact keeps (l := []) nofun (by simpa using hist) tasks
  | send ret r ctl next hpc hpc' hsend tasks =>
    obtain ⟨l, hl, hk⟩ := SubPc.sendStep_history hsend
    exact keeps (fun e he => Event.keepsInput_of_isOutput (hk e he)) hl tasks
  | append fd chunk k hpc fits happ =>
    subst hpc
    cases appendStep_cases fits happ with
    | completes _ _ _ hist tasks hpc' =>
      exact ⟨[.received c chunk, .dispatched c], hist, rfl,
        by simp [queued, carries, tasks, hpc', Webserver.dispatches]⟩
    | waits _ _ hist tasks hpc' =>
      exact ⟨[.received c chunk], hist, rfl, by simp [queued, carries, tasks, hpc', Webserver.dispatches]⟩

/-- A step of a worker starts a task where it logs a `parse`. -/
theorem WorkerPc.Touch.started {s s' : Shared} {pc pc' : WorkerPc} {c} (h : Touch s pc c s' pc') :
    ∃ l, history c s'.log = history c s.log ++ l ∧ received l = [] ∧ dispatches l = 0 ∧
      s'.tasks.count c + pc'.unread c + (parses l).length = s.tasks.count c + pc.unread c := by
  have keeps : ∀ {l}, (∀ e ∈ l, e.keepsInput) → history c s'.log = history c s.log ++ l →
      s'.tasks.count c + pc'.unread c = s.tasks.count c + pc.unread c →
      ∃ l, history c s'.log = history c s.log ++ l ∧ received l = [] ∧ dispatches l = 0 ∧
        s'.tasks.count c + pc'.unread c + (parses l).length = s.tasks.count c + pc.unread c := by
    intro l hl hist hcount
    obtain ⟨hr, hd, hp⟩ := keepsInput_adds hl
    exact ⟨l, hist, hr, hd, by rw [hp]; exact hcount⟩
  cases h with
  | away heap hist tasks stage =>
    exact keeps (l := []) nofun (by simpa using hist) (by rw [tasks, unread, unread, stage])
  | unregistered heap hist tasks stage =>
    exact keeps (l := [.unregistered c]) (by simp [Event.keepsInput]) hist
      (by rw [tasks, unread, unread, stage])
  | taken hpc hs hpc' heap log =>
    refine keeps (l := []) nofun (by simp [log]) ?_
    rw [hpc, hpc', hs, unread_of_stage rfl, unread_of_none rfl, List.count_cons_self]
    rfl
  | parse request hpc hr hs hpc' hstage =>
    refine ⟨[.parsed c (s.heap c).buffer], history_of_eq_emit hs rfl rfl, rfl, rfl, ?_⟩
    rw [hpc, hs, unread_of_stage hstage, unread_of_stage rfl]
    rfl
  | keep request hpc hs hpc' =>
    subst hs hpc hpc'
    refine keeps (l := []) nofun (by simp [Shared.setConn]) ?_
    rw [unread_of_stage rfl, unread_of_stage rfl]
    rfl
  | missing response hpc hl hs hpc' =>
    subst hs hpc hpc'
    refine keeps (l := []) nofun (by simp) ?_
    rw [unread_of_stage rfl, unread_of_stage rfl]
    rfl
  | unreg hpc hs hpc' =>
    subst hs hpc hpc'
    refine keeps (l := []) nofun (by simp [Shared.setConn]) ?_
    rw [unread_of_none rfl, unread_of_stage rfl]
    rfl
  | store response hpc hs hpc' =>
    subst hs hpc hpc'
    refine keeps (l := [.stored c (response.toString s.order)]) (by simp [Event.keepsInput])
      (history_emit rfl) ?_
    rw [unread_of_stage rfl, unread_of_stage rfl]
    rfl
  | send c' r ctl next hpc hpc' hsend =>
    obtain ⟨l, hl, hk⟩ := SubPc.sendStep_history hsend
    refine keeps (fun e he => Event.keepsInput_of_isOutput (hk e he)) hl ?_
    have stage : (resume c' next).stageOf c = (sub (.send c) c').stageOf c :=
      stageOf_congr (stage_resume c' next)
    rw [(SubPc.sendStep_frame hsend).tasks, hpc, hpc', unread, unread, stage]
  | finish hpc hs hpc' =>
    subst hs hpc hpc'
    refine keeps (l := [.cleared c]) (by simp [Event.keepsInput]) (history_emit rfl) ?_
    rw [unread_of_none rfl, unread_of_stage rfl]
    rfl

namespace Server

variable {n : Nat}

/-- The tasks of `c` whose request has not been parsed yet, wherever they are. -/
def unparsed (s : Server n) (c : ConnId) : Nat :=
  s.event.queued s.shared c + ∑ w, (s.worker w).unread c

/-- Every dispatched request makes one task, which parses once. -/
structure Dispatched (s : Server n) (c : ConnId) : Prop where
  le : (parses (history c s.shared.log)).length + s.unparsed c ≤ dispatches (history c s.shared.log)
  eq : s.shared.poolShutdown = false →
    (parses (history c s.shared.log)).length + s.unparsed c = dispatches (history c s.shared.log)

theorem dispatched {ok} {s : Server n} (h : (system n).ReachableBy ok s) (c : ConnId) :
    s.Dispatched c := by
  refine h.invariant (I := fun s => s.Dispatched c) ?_ ?_
  · intro s hinit
    obtain ⟨serverFd, maxConnections, order, clock, rfl⟩ := hinit
    have hidle : WorkerPc.idle.unread c = 0 := WorkerPc.unread_of_none rfl
    have hnone : unparsed (initial n serverFd maxConnections order clock) c = 0 := by
      simp [unparsed, initial, EventPc.queued, EventPc.carries, hidle]
    have hnil : history c (initial n serverFd maxConnections order clock).shared.log = [] := rfl
    exact ⟨by rw [hnone, hnil]; rfl, fun _ => by rw [hnone, hnil]; rfl⟩
  intro s a s' _ hi _ hs
  obtain ⟨hle, heq⟩ := hi
  cases step_cases hs with
  | event i sh pc he =>
    obtain ⟨l, hist, hp, hq, hq'⟩ := (EventPc.exec_touch c he).made
    have hpool := EventPc.exec_poolShutdown he
    refine ⟨?_, fun hsd => ?_⟩ <;> simp only [unparsed] at hle heq ⊢ <;>
      rw [hist, parses_append, dispatches_append, hp, List.append_nil]
    · omega
    · have := heq (hpool ▸ hsd)
      have := hq' (hpool ▸ hsd)
      omega
  | worker w i sh pc he =>
    obtain ⟨l, hist, -, hd, hcount⟩ := (WorkerPc.exec_touch c he).started
    have hsum := sum_update s.worker w pc (·.unread c)
    have hpool := WorkerPc.exec_poolShutdown he
    refine ⟨?_, fun hsd => ?_⟩ <;> simp only [unparsed, EventPc.queued] at hle heq ⊢ <;>
      rw [hist, parses_append, dispatches_append, hd, Nat.add_zero, List.length_append]
    · omega
    · have := heq (hpool ▸ hsd)
      omega
  | stop wl el sh pc he _ _ own =>
    obtain ⟨heap, -, htasks, hist, -⟩ := StopPc.exec_frame he
    have hcount : unparsed { s with shared := sh, stop := pc, owner := own } c = s.unparsed c := by
      simp [unparsed, EventPc.queued, htasks]
    refine ⟨?_, fun hsd => ?_⟩ <;> rw [hcount] <;> simp only [hist]
    · exact hle
    · exact heq ((StopPc.exec_poolShutdown he).1 hsd)
  | tick => exact ⟨hle, heq⟩

end Server

/-! ## One message -/

/-- A chunk that has been received is not empty. -/
def EventPc.ChunkNonempty : EventPc → Prop
  | dataLockConn _ _ chunk _ | dataLockMap _ _ chunk _ | dataCheck _ _ chunk _
  | dataAppend _ _ chunk _ => chunk ≠ []
  | _ => True

theorem EventPc.chunkNonempty_resume (ret : EventRet) (next : Option SubPc) :
    (resume ret next).ChunkNonempty := by
  cases next <;> cases ret <;> trivial

theorem EventPc.exec_chunkNonempty {s : Shared} {pc : EventPc} {i s' pc'} (hc : pc.ChunkNonempty)
    (h : pc.exec s i = some (s', pc')) : pc'.ChunkNonempty := by
  cases exec_steps h with
  | dataRecv fd c chunk k _ hchunk => exact hchunk
  | sub p ret next => exact chunkNonempty_resume ret next
  | _ => trivial

/-- A worker without a task of `c` leaves its buffer alone. -/
theorem WorkerPc.Touch.undisturbed {s s' : Shared} {pc pc' : WorkerPc} {c} (h : Touch s pc c s' pc')
    (hnone : pc.stageOf c = none) : (s'.heap c).buffer = (s.heap c).buffer ∧
      (s'.heap c).processingRequest = (s.heap c).processingRequest := by
  cases h with
  | away heap | unregistered heap | taken _ _ _ heap => rw [heap]; exact ⟨rfl, rfl⟩
  | send c' r ctl next _ _ hsend =>
    have same := (SubPc.sendStep_frame hsend).conn
    exact ⟨same.buffer, same.processing⟩
  | parse _ hpc | keep _ hpc | missing _ hpc | unreg hpc | store _ hpc | finish hpc =>
    rw [hpc, stageOf_of_stage rfl] at hnone
    cases hnone

/-- A request has been dispatched where the received bytes were complete. -/
def DispatchedAt (c : ConnId) (input : Bytes) (hist : List Event) : Prop :=
  ∃ before chunk after, hist = before ++ .received c chunk :: .dispatched c :: after ∧
    received before ++ chunk = input ∧ dispatches before = 0 ∧ dispatches after = 0

theorem DispatchedAt.append {c : ConnId} {input : Bytes} {hist l : List Event}
    (h : DispatchedAt c input hist) (hl : dispatches l = 0) : DispatchedAt c input (hist ++ l) := by
  obtain ⟨before, chunk, after, rfl, hinput, hbefore, hafter⟩ := h
  refine ⟨before, chunk, after ++ l, by simp, hinput, hbefore, ?_⟩
  rw [dispatches_append, hafter, hl]

theorem DispatchedAt.dispatches {c : ConnId} {input : Bytes} {hist : List Event}
    (h : DispatchedAt c input hist) : dispatches hist = 1 := by
  obtain ⟨before, chunk, after, rfl, -, hbefore, hafter⟩ := h
  have hsplit : before ++ .received c chunk :: .dispatched c :: after =
      before ++ ([.received c chunk, .dispatched c] ++ after) := rfl
  rw [hsplit, dispatches_append, dispatches_append, hbefore, hafter]
  rfl

namespace Server

variable {n : Nat} {m : RawMessage}

/-- While only a beginning of the message has come, it waits in the buffer;
once all of it has, it is dispatched. -/
structure Segmented (m : RawMessage) (s : Server n) (c : ConnId) : Prop where
  chunk : s.event.ChunkNonempty
  part : received (history c s.shared.log) <+: m.toBytes →
    received (history c s.shared.log) ≠ m.toBytes → dispatches (history c s.shared.log) = 0 ∧
      (s.shared.heap c).buffer = received (history c s.shared.log) ∧
      (s.shared.heap c).processingRequest = false
  whole : received (history c s.shared.log) = m.toBytes →
    DispatchedAt c m.toBytes (history c s.shared.log)

theorem Segmented.quiet {s s' : Server n} {c} (h : s.Segmented m c) (hc : s'.event.ChunkNonempty)
    {l : List Event} (hist : history c s'.shared.log = history c s.shared.log ++ l)
    (hr : received l = []) (hd : dispatches l = 0)
    (same : (s.shared.heap c).processingRequest = false →
      (s'.shared.heap c).buffer = (s.shared.heap c).buffer ∧
        (s'.shared.heap c).processingRequest = (s.shared.heap c).processingRequest) :
    s'.Segmented m c := by
  have hreceived : received (history c s'.shared.log) = received (history c s.shared.log) := by
    rw [hist, received_append, hr, List.append_nil]
  refine ⟨hc, fun hp hne => ?_, fun he => ?_⟩
  · rw [hreceived] at hp hne ⊢
    obtain ⟨hnone, hbuffer, hflag⟩ := h.part hp hne
    obtain ⟨hbuffer', hflag'⟩ := same hflag
    exact ⟨by rw [hist, dispatches_append, hnone, hd], hbuffer'.trans hbuffer, hflag'.trans hflag⟩
  · rw [hreceived] at he
    rw [hist]
    exact (h.whole he).append hd

/-- The section that appends a chunk of the message: it fits, and makes a
task exactly if it is the last. -/
theorem Segmented.appendStep {s : Server n} {c fd chunk k} (h : s.Segmented m c) (hm : m.WellFormed)
    (hsize : m.toBytes.length ≤ maxRequestSize) (hpc : s.event = .dataAppend fd c chunk k)
    (hp : received (history c s.shared.log) ++ chunk <+: m.toBytes) :
    (received (history c s.shared.log) ++ chunk = m.toBytes ∧
      EventPc.appendStep s.shared fd c chunk k =
        (((s.shared.emit (.received c chunk)).setConn c
            { s.shared.heap c with
              buffer := m.toBytes, lastActivity := s.shared.clock,
              processingRequest := true }).emit (.dispatched c), .dataUnlock c true k)) ∨
    (received (history c s.shared.log) ++ chunk ≠ m.toBytes ∧
      EventPc.appendStep s.shared fd c chunk k =
        ((s.shared.emit (.received c chunk)).setConn c
            { s.shared.heap c with
              buffer := received (history c s.shared.log) ++ chunk,
              lastActivity := s.shared.clock }, .dataUnlock c false k)) := by
  have hchunk : chunk ≠ [] := by
    have := h.chunk
    rw [hpc] at this
    exact this
  have hne : received (history c s.shared.log) ≠ m.toBytes := by
    intro he
    have := hp.length_le
    rw [he, List.length_append] at this
    exact hchunk (List.length_eq_zero_iff.mp (by omega))
  obtain ⟨-, hbuffer, hflag⟩ := h.part ((List.prefix_append _ _).trans hp) hne
  have hfits : EventPc.overflows s.shared c chunk = false := by
    have := hp.length_le
    rw [List.length_append] at this
    rw [EventPc.overflows, hbuffer, decide_eq_false_iff_not]
    omega
  have hcomplete := hm.complete_iff (Nat.lt_of_le_of_lt hsize (by decide)) hp
  rw [EventPc.appendStep, if_neg (by simp [hfits])]
  simp only [hflag, Bool.not_false, Bool.true_and, hbuffer]
  by_cases he : received (history c s.shared.log) ++ chunk = m.toBytes
  · refine .inl ⟨he, ?_⟩
    rw [if_pos (hcomplete.mpr he), he]
  · refine .inr ⟨he, ?_⟩
    rw [if_neg fun hc => he (hcomplete.mp hc)]

theorem segmented {ok} (hm : m.WellFormed) (hsize : m.toBytes.length ≤ maxRequestSize) {s : Server n}
    (h : (system n).ReachableBy ok s) (c : ConnId) : s.Segmented m c := by
  have hne : m.toBytes ≠ [] := by
    intro hnil
    have := m.length_toBytes
    rw [hnil, List.length_nil] at this
    omega
  refine h.invariant (I := fun s => s.Segmented m c) ?_ ?_
  · intro s hinit
    obtain ⟨_, _, _, _, rfl⟩ := hinit
    exact ⟨trivial, fun _ _ => ⟨rfl, rfl, rfl⟩, fun he => absurd he.symm hne⟩
  intro s a s' hr hi _ hs
  cases step_cases hs with
  | event i sh pc he =>
    have hchunk : pc.ChunkNonempty := EventPc.exec_chunkNonempty hi.chunk he
    cases EventPc.exec_touch c he with
    | away heap hist =>
      exact hi.quiet hchunk (l := []) (by simpa using hist) rfl rfl fun _ => by rw [heap]; exact ⟨rfl, rfl⟩
    | noted e note heap hist =>
      obtain ⟨hr, hd, -⟩ := keepsInput_adds (l := [e]) fun e' he' =>
        List.mem_singleton.mp he' ▸ Event.keepsInput_of_isNote note
      exact hi.quiet hchunk hist hr hd fun _ => by rw [heap]; exact ⟨rfl, rfl⟩
    | created fd hc heap hist =>
      have hnil : history c sh.log = [] := by rw [hist, hc, (bounded hr).shared.history_created]
      refine ⟨hchunk, fun _ _ => ?_, fun he => ?_⟩ <;> simp only [hnil] at *
      · exact ⟨rfl, by rw [heap]; rfl, by rw [heap]⟩
      · exact absurd he.symm hne
    | send ret r ctl next hpc hpc' hsend =>
      obtain ⟨l, hl, hk⟩ := SubPc.sendStep_history hsend
      obtain ⟨hr, hd, -⟩ := keepsInput_adds fun e he => Event.keepsInput_of_isOutput (hk e he)
      have same := (SubPc.sendStep_frame hsend).conn
      exact hi.quiet hchunk hl hr hd fun _ => ⟨same.buffer, same.processing⟩
    | append fd chunk k hpc fits happ =>
      have hreceived : received (history c sh.log) = received (history c s.shared.log) ++ chunk := by
        cases EventPc.appendStep_cases fits happ with
        | completes _ _ _ hist | waits _ _ hist => simp [hist, received]
      by_cases hp : received (history c s.shared.log) ++ chunk <+: m.toBytes
      · have hpart : received (history c s.shared.log) ≠ m.toBytes := by
          intro heq
          have hlen := hp.length_le
          rw [heq, List.length_append] at hlen
          have hnil := hi.chunk
          rw [hpc] at hnil
          exact hnil (List.length_eq_zero_iff.mp (by omega))
        obtain ⟨hnone, -, hflag⟩ := hi.part ((List.prefix_append _ _).trans hp) hpart
        rcases hi.appendStep hm hsize hpc hp with ⟨heq, hstep⟩ | ⟨hneq, hstep⟩ <;>
          obtain ⟨rfl, rfl⟩ := Prod.mk.inj (hstep.symm.trans happ)
        · refine ⟨trivial, fun _ hne' => absurd (hreceived.trans heq) hne', fun _ => ?_⟩
          refine ⟨history c s.shared.log, chunk, [], ?_, heq, hnone, rfl⟩
          simp [Shared.emit, Shared.setConn, history, Event.about]
        · refine ⟨trivial, fun _ _ => ⟨?_, ?_, ?_⟩, fun heq => absurd (hreceived.symm.trans heq) hneq⟩
          · simp [Shared.emit, Shared.setConn, history_append, hnone]
            simp [history, Event.about, dispatches]
          · rw [hreceived]
            simp [Shared.emit, Shared.setConn]
          · simp [Shared.emit, Shared.setConn, hflag]
      · refine ⟨hchunk, fun hp' => absurd (hreceived ▸ hp') hp, fun heq => absurd ?_ hp⟩
        rw [← hreceived]
        exact heq ▸ List.prefix_refl _
  | worker w i sh pc he =>
    have htouch := WorkerPc.exec_touch c he
    obtain ⟨l, hist, hr', hd, -⟩ := htouch.started
    refine hi.quiet hi.chunk hist hr' hd fun hflag => htouch.undisturbed ?_
    -- a worker with a task of `c` has its flag set
    by_contra hst
    obtain ⟨st, hst⟩ := Option.ne_none_iff_exists'.mp hst
    rw [((tasked hr c).alone hst).1] at hflag
    cases hflag
  | stop wl el sh pc he =>
    obtain ⟨heap, -, -, hist, -⟩ := StopPc.exec_frame he
    exact hi.quiet hi.chunk (l := []) (by simp [hist]) rfl rfl fun _ => by rw [heap]; exact ⟨rfl, rfl⟩
  | tick => exact ⟨hi.chunk, hi.part, hi.whole⟩

/-- **Segmentation does not matter**: of the beginnings of a message only the
whole is complete; on a connection that has received no more than it, a task
is made where its last byte is appended, and only there; and each section that
appends a chunk of it leaves the bytes so far in the buffer. -/
theorem dispatched_at_end (hm : m.WellFormed) (hsize : m.toBytes.length ≤ maxRequestSize) {s : Server n}
    (h : (system n).Reachable s) (c : ConnId) :
    (∀ b, b <+: m.toBytes → (isHttpRequestComplete b = true ↔ b = m.toBytes)) ∧
    (received (history c s.shared.log) <+: m.toBytes → received (history c s.shared.log) ≠ m.toBytes →
      dispatches (history c s.shared.log) = 0 ∧ s.unparsed c = 0 ∧
        (s.shared.heap c).buffer = received (history c s.shared.log)) ∧
    (received (history c s.shared.log) = m.toBytes →
      DispatchedAt c m.toBytes (history c s.shared.log) ∧ dispatches (history c s.shared.log) = 1 ∧
        (s.shared.poolShutdown = false →
          (parses (history c s.shared.log)).length + s.unparsed c = 1)) ∧
    (∀ fd chunk k, s.event = .dataAppend fd c chunk k →
      received (history c s.shared.log) ++ chunk <+: m.toBytes →
      ∃ s', (system n).step s (.event .go) = some s' ∧
        (s'.shared.heap c).buffer = received (history c s.shared.log) ++ chunk ∧
        s'.event = .dataUnlock c (received (history c s.shared.log) ++ chunk = m.toBytes) k ∧
        history c s'.shared.log = history c s.shared.log ++ .received c chunk ::
          if received (history c s.shared.log) ++ chunk = m.toBytes then [.dispatched c] else []) := by
  have hseg := segmented hm hsize h c
  have hdisp := dispatched h c
  refine ⟨fun b hb => hm.complete_iff (Nat.lt_of_le_of_lt hsize (by decide)) hb, fun hp hne => ?_,
    fun he => ?_, fun fd chunk k hpc hp => ?_⟩
  · obtain ⟨hnone, hbuffer, -⟩ := hseg.part hp hne
    have hle := hdisp.le
    exact ⟨hnone, by omega, hbuffer⟩
  · have hat := hseg.whole he
    exact ⟨hat, hat.dispatches, fun hpool => (hdisp.eq hpool).trans hat.dispatches⟩
  · have hstep : ∀ sh pc, EventPc.appendStep s.shared fd c chunk k = (sh, pc) →
        (system n).step s (.event .go) = some { s with shared := sh, event := pc } := by
      intro sh pc happ
      have hexec : s.event.exec s.shared .go = some (sh, pc) := by
        rw [hpc]
        exact congrArg some happ
      have hlock : (s.lockOp .event).apply .event s.owner = some s.owner := by
        rw [lockOp, hpc]
        rfl
      simp [system, step, hlock, hexec]
    rcases hseg.appendStep hm hsize hpc hp with ⟨heq, happ⟩ | ⟨hneq, happ⟩
    · refine ⟨_, hstep _ _ happ, ?_, by simp [heq], ?_⟩
      · simp [Shared.emit, Shared.setConn, heq]
      · rw [if_pos heq]
        simp [Shared.emit, Shared.setConn, history, Event.about]
    · refine ⟨_, hstep _ _ happ, ?_, by simp [hneq], ?_⟩
      · simp [Shared.emit, Shared.setConn]
      · rw [if_neg hneq]
        simp [Shared.emit, Shared.setConn, history, Event.about]

/-- The message of `getRequest`. -/
def getMessage : RawMessage := { requestLine := bytes "GET / HTTP/1.1", headers := [], body := [] }

theorem getMessage_wellFormed : getMessage.WellFormed := by
  refine ⟨⟨by decide, by decide +kernel⟩, ?_, .inl ⟨rfl, rfl⟩⟩
  intro line hline
  cases hline

/-- It comes in two pieces, cut within the blank line. -/
theorem dispatched_at_end_cut : ∃ s : Server 1,
    (system 1).Reachable s ∧ (history 0 s.shared.log).length = 4 ∧
      DispatchedAt 0 getMessage.toBytes (history 0 s.shared.log) := by
  obtain ⟨s, hr, hs⟩ := System.exists_reachable init_fresh
    (acceptClient 7 1 ++ receiveMore 7 (bytes "GET / HTTP/1.1\r\n\r") 1 ++
      receiveRequest 7 (bytes "\n") 1)
    (fun s => decide ((history 0 s.shared.log).length = 4 ∧
      received (history 0 s.shared.log) = getMessage.toBytes)) (by decide +kernel)
  obtain ⟨hlen, he⟩ := of_decide_eq_true hs
  exact ⟨s, hr, hlen, ((dispatched_at_end getMessage_wellFormed (by decide +kernel) hr 0).2.2.1 he).1⟩

end Server

end Webserver
