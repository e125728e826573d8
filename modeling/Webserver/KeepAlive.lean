/-
What one request leaves for the next on a connection. A request that is valid
sets `keep_alive`; one that is not leaves it as it was, so that the answer to
it, and what becomes of the connection, depend on whether it was the first.
-/
import Webserver.Causes
import Webserver.Resumption
import Webserver.Sessions

namespace Webserver

open Cxx Locks Systems

/-! ## Sequential requests -/

/-- The connection was not given up: no response was its last, no send failed. -/
structure Open (c : ConnId) (hist : List Event) : Prop where
  unfinished : .finished c ∉ hist
  unfailed : ∀ r, .sendFailed c r ∉ hist

/-- Each request parsed has its response, the last one was taken completely by
the kernel, and the connection is still open. -/
structure Done (c : ConnId) (hist : List Event) : Prop where
  answered : (responses hist).length = (parses hist).length
  whole : parses hist ≠ [] →
    ∃ l₁ out l₂, hist = l₁ ++ .stored c out :: l₂ ∧ responses l₂ = [] ∧ output l₂ = out
  opened : Open c hist

def Event.isParsed : Event → Bool
  | .parsed _ _ => true
  | _ => false

/-- No request is parsed before all earlier ones are done. -/
def Sequential (c : ConnId) (hist : List Event) : Prop := Whenever (fun e => e.isParsed) (Done c) hist

/-- Whether a connection is kept after a request that comes after these. -/
def decided (earlier : List Bytes) (b : Bytes) : Bool :=
  if (HttpRequest.parse b).valid then (HttpRequest.parse b).isKeepAlive else decide (earlier ≠ [])

/-- The value of the header `Connection`. -/
def HttpResponse.connection (r : HttpResponse) : Option Bytes := r.headers.lookup (bytes "Connection")

theorem HttpResponse.connection_setKeepAlive (r : HttpResponse) (keepAlive : Bool) :
    (r.setKeepAlive keepAlive).connection =
      some (if keepAlive then bytes "keep-alive" else bytes "close") := by
  have hne : bytes "Connection" ≠ bytes "Keep-Alive" := by decide +kernel
  cases keepAlive with
  | true =>
    simp only [connection, setKeepAlive, setHeader, if_true]
    rw [AList.lookup_insert_ne hne, AList.lookup_insert]
  | false =>
    simp only [connection, setKeepAlive, setHeader, Bool.false_eq_true, if_false]
    exact AList.lookup_insert _

theorem Open.of_append {c : ConnId} {hist l : List Event} (h : Open c (hist ++ l)) : Open c hist :=
  ⟨fun hm => h.unfinished (List.mem_append_left l hm), fun r hm => h.unfailed r (List.mem_append_left l hm)⟩

theorem Sequential.of_append {c : ConnId} {hist l : List Event} (h : Sequential c (hist ++ l)) :
    Sequential c hist := by
  intro l₁ e l₂ heq hp
  exact h l₁ e (l₂ ++ l) (by simp [heq]) hp

theorem talk_of_silent {l : List Event} (hl : ∀ e ∈ l, e.isTalk = false) : talk l = [] :=
  List.filter_eq_nil_iff.mpr fun e he => Bool.eq_false_iff.mp (hl e he)

theorem parses_of_silent {l : List Event} (hl : ∀ e ∈ l, e.isTalk = false) : parses l = [] := by
  rw [← parses_talk, talk_of_silent hl]
  rfl

theorem responses_of_silent {l : List Event} (hl : ∀ e ∈ l, e.isTalk = false) : responses l = [] := by
  rw [← responses_talk, talk_of_silent hl]
  rfl

/-! ## The end of a response -/

namespace SubPc

/-- How a call of `send_response_async` that does not fail leaves the
connection: with the rest of the response, kept, or to be closed. -/
structure Ends (s : Shared) (c : ConnId) (s' : Shared) (next : Option SubPc) : Prop where
  keep : (s'.heap c).keepAlive = (s.heap c).keepAlive
  ended : (s'.heap c).hasPendingWrite = false → (s.heap c).hasPendingWrite = false ∨
    (s.heap c).keepAlive = true ∧ next = none ∨
    (s.heap c).keepAlive = false ∧ next ≠ none ∧ .finished c ∈ s'.log

theorem sendDone_ends {s s₀ : Shared} {c} (ctl : Bool) (hk : (s.heap c).keepAlive = (s₀.heap c).keepAlive) :
    Ends s₀ c (sendDone s c ctl).1 (sendDone s c ctl).2 := by
  simp only [sendDone]
  split
  · next hka =>
    exact ⟨by simp [Shared.setConn, hk], fun _ => .inr (.inl ⟨hk ▸ hka, rfl⟩)⟩
  · next hka =>
    refine ⟨by simp [Shared.setConn, Shared.emit, hk],
      fun _ => .inr (.inr ⟨?_, Option.some_ne_none _, by simp⟩)⟩
    rw [← hk]
    simpa using hka

theorem sendStep_ends {s : Shared} {c r ctl s' next} (hs : sendStep s c r ctl = some (s', next))
    (hopen : ∀ r, .sendFailed c r ∉ s'.log) : Ends s c s' next := by
  generalize hout : (s', next) = out at hs
  obtain ⟨rfl, rfl⟩ := Prod.mk.inj hout
  cases sendStep_cases hs with
  | nothing hp => exact ⟨rfl, fun _ => .inl hp⟩
  | empty ctl => exact sendDone_ends ctl rfl
  | blocked ctl hp => exact ⟨by simp, fun hnot => .inl (by simpa using hnot)⟩
  | failed => exact absurd (by simp [sendFailed]) (hopen r)
  | whole k ctl => exact sendDone_ends ctl (by simp [handed, Shared.emit, Shared.setConn])
  | part k m ctl =>
    refine ⟨by simp [handed, Shared.emit, Shared.setConn], fun hnot => .inl ?_⟩
    simpa [handed, Shared.emit, Shared.setConn] using hnot

end SubPc

/-! ## What the workers know -/

namespace WorkerPc

/-- The request from which a worker is about to set `keep_alive`. -/
def updates : WorkerPc → Option (ConnId × HttpRequest)
  | keepLock c request | keep c request => some (c, request)
  | _ => none

theorem stageOf_of_updates {pc : WorkerPc} {c request} (h : pc.updates = some (c, request)) :
    pc.stageOf c = some .answering := by
  refine stageOf_of_stage ?_
  cases pc <;> cases h <;> rfl

/-- A worker comes to set `keep_alive` by parsing and leaves by setting it. -/
theorem exec_updates {s : Shared} {pc : WorkerPc} {i s' pc' c} (h : pc.exec s i = some (s', pc'))
    (hparse : pc ≠ parse c) (hkeep : ∀ request, pc ≠ keep c request) (request : HttpRequest) :
    pc'.updates = some (c, request) ↔ pc.updates = some (c, request) := by
  cases exec_steps h with
  | parse c' | parseInvalid c' =>
    have hne : c' ≠ c := fun heq => hparse (by rw [heq])
    simp [updates, hne]
  | keep c' request' =>
    have hne : c' ≠ c := fun heq => hkeep request' (by rw [heq])
    simp [updates, hne]
  | sub p c' next => cases next <;> simp [resume, updates]
  | _ => exact Iff.rfl

end WorkerPc

namespace Server

variable {n : Nat}

/-- What `keep_alive` of a connection says at every moment. -/
structure Decides (s : Server n) (c : ConnId) : Prop where
  answered : (responses (history c s.shared.log)).length ≤ (parses (history c s.shared.log)).length
  answering : ∀ w, (s.worker w).stageOf c = some .answering →
    (responses (history c s.shared.log)).length < (parses (history c s.shared.log)).length
  kept : Open c (history c s.shared.log) → (s.shared.heap c).hasPendingWrite = false →
    (responses (history c s.shared.log)).length = (parses (history c s.shared.log)).length →
    parses (history c s.shared.log) ≠ [] → (s.shared.heap c).keepAlive = true
  first : Open c (history c s.shared.log) → parses (history c s.shared.log) = [] →
    (s.shared.heap c).keepAlive = false
  request : ∀ w request, (s.worker w).updates = some (c, request) → request.valid = true ∧
    ∃ earlier b, parses (history c s.shared.log) = earlier ++ [b] ∧ request = HttpRequest.parse b
  flag : Open c (history c s.shared.log) → Sequential c (history c s.shared.log) →
    (∀ w request, (s.worker w).updates ≠ some (c, request)) →
    ∀ earlier b, parses (history c s.shared.log) = earlier ++ [b] →
      (s.shared.heap c).keepAlive = decided earlier b
  header : Open c (history c s.shared.log) → Sequential c (history c s.shared.log) →
    ∀ w r, (s.worker w).response = some (c, r) →
      ∀ earlier b, parses (history c s.shared.log) = earlier ++ [b] →
        r.connection = some (if decided earlier b then bytes "keep-alive" else bytes "close")

/-- A step that neither parses nor stores. -/
theorem Decides.quiet {s s' : Server n} {c} (h : s.Decides c) {l : List Event}
    (hl : ∀ e ∈ l, e.isTalk = false) (hist : history c s'.shared.log = history c s.shared.log ++ l)
    (hkeep : Open c (history c s'.shared.log) →
      (s'.shared.heap c).keepAlive = (s.shared.heap c).keepAlive)
    (hpending : Open c (history c s'.shared.log) → (s'.shared.heap c).hasPendingWrite = false →
      (s.shared.heap c).hasPendingWrite = false ∨ (s.shared.heap c).keepAlive = true)
    (hstage : ∀ w, (s'.worker w).stageOf c = some .answering → (s.worker w).stageOf c = some .answering)
    (hupdates : ∀ w request, (s'.worker w).updates = some (c, request) ↔
      (s.worker w).updates = some (c, request))
    (hresponse : ∀ w r, (s'.worker w).response = some (c, r) → (s.worker w).response = some (c, r) ∨
      (∀ w request, (s.worker w).updates ≠ some (c, request)) ∧
        ∃ r₀ : HttpResponse, r = r₀.setKeepAlive (s.shared.heap c).keepAlive) : s'.Decides c := by
  have hparses : parses (history c s'.shared.log) = parses (history c s.shared.log) := by
    rw [hist, parses_append, parses_of_silent hl, List.append_nil]
  have hresponses : responses (history c s'.shared.log) = responses (history c s.shared.log) := by
    rw [hist, responses_append, responses_of_silent hl, List.append_nil]
  have hopen : Open c (history c s'.shared.log) → Open c (history c s.shared.log) :=
    fun ho => (hist ▸ ho).of_append
  have hseq : Sequential c (history c s'.shared.log) → Sequential c (history c s.shared.log) :=
    fun hs => Sequential.of_append (hist ▸ hs)
  refine ⟨?_, fun w hw => ?_, fun ho hp => ?_, fun ho => ?_, fun w request hw => ?_, fun ho hs hu => ?_,
    fun ho hs w r hr => ?_⟩ <;> rw [hparses]
  · rw [hresponses]
    exact h.answered
  · rw [hresponses]
    exact h.answering w (hstage w hw)
  · rw [hresponses, hkeep ho]
    rcases hpending ho hp with hp | hk
    · exact h.kept (hopen ho) hp
    · exact fun _ _ => hk
  · rw [hkeep ho]
    exact h.first (hopen ho)
  · exact h.request w request ((hupdates w request).mp hw)
  · rw [hkeep ho]
    exact h.flag (hopen ho) (hseq hs) fun w request hw => hu w request ((hupdates w request).mpr hw)
  · intro earlier b hb
    rcases hresponse w r hr with hr | ⟨hu, r₀, rfl⟩
    · exact h.header (hopen ho) (hseq hs) w r hr earlier b hb
    · rw [HttpResponse.connection_setKeepAlive, h.flag (hopen ho) (hseq hs) hu earlier b hb]

theorem Decides.send {s s' : Server n} {c r ctl next} (h : s.Decides c)
    (hs : SubPc.sendStep s.shared c r ctl = some (s'.shared, next))
    (hstage : ∀ w, (s'.worker w).stageOf c = some .answering → (s.worker w).stageOf c = some .answering)
    (hupdates : ∀ w request, (s'.worker w).updates = some (c, request) ↔
      (s.worker w).updates = some (c, request))
    (hresponse : ∀ w r, (s'.worker w).response = some (c, r) → (s.worker w).response = some (c, r)) :
    s'.Decides c := by
  obtain ⟨l, hl, hk⟩ := SubPc.sendStep_history hs
  have hends : Open c (history c s'.shared.log) → SubPc.Ends s.shared c s'.shared next := fun ho =>
    SubPc.sendStep_ends hs fun r hm => ho.unfailed r ((mem_history rfl).mpr hm)
  refine h.quiet (fun e he => ?_) hl (fun ho => (hends ho).keep) (fun ho hp => ?_) hstage hupdates
    fun w r hr => .inl (hresponse w r hr)
  · have := hk e he
    cases e <;> first | rfl | cases this
  · rcases (hends ho).ended hp with hp | ⟨hka, -⟩ | ⟨-, -, hm⟩
    · exact .inl hp
    · exact .inr hka
    · exact absurd ((mem_history rfl).mpr hm) ho.unfinished

/-- A connection that has just been constructed. -/
theorem Decides.of_created {s : Server n} {c} (hist : history c s.shared.log = [])
    (hk : (s.shared.heap c).keepAlive = false) (hw : ∀ w, (s.worker w).stageOf c = none) : s.Decides c := by
  have hparses : parses (history c s.shared.log) = [] := by rw [hist]; rfl
  have idle : ∀ w st, (s.worker w).stageOf c ≠ some st := fun w st hst => by
    rw [hw w] at hst
    cases hst
  refine ⟨by simp [hist, responses], fun w hst => absurd hst (idle w _), fun _ _ _ hne => absurd hparses hne,
    fun _ _ => hk, fun w request hu => absurd (WorkerPc.stageOf_of_updates hu) (idle w _),
    fun _ _ _ earlier b hb => ?_,
    fun _ _ w r hr => absurd (WorkerPc.stageOf_of_response hr) (idle w _)⟩
  rw [hparses] at hb
  simp at hb

theorem Decides.stepEvent {s : Server n} {i sh pc own c} (h : s.Decides c) (hb : s.Bounded)
    (he : s.event.exec s.shared i = some (sh, pc)) :
    Decides { s with shared := sh, event := pc, owner := own } c := by
  have same : ∀ {l : List Event}, (∀ e ∈ l, e.isTalk = false) →
      history c sh.log = history c s.shared.log ++ l →
      (sh.heap c).keepAlive = (s.shared.heap c).keepAlive →
      (sh.heap c).hasPendingWrite = (s.shared.heap c).hasPendingWrite →
      Decides { s with shared := sh, event := pc, owner := own } c := by
    intro l hl hist hk hp
    exact h.quiet hl hist (fun _ => hk) (fun _ hnot => .inl (hp ▸ hnot)) (fun _ => id)
      (fun _ _ => Iff.rfl) fun _ _ hr => .inl hr
  cases EventPc.exec_touch c he with
  | away heap hist => exact same (l := []) nofun (by simpa using hist) (by rw [heap]) (by rw [heap])
  | noted e note heap hist =>
    refine same (l := [e]) (fun e' he' => ?_) hist (by rw [heap]) (by rw [heap])
    rw [List.mem_singleton.mp he']
    cases e <;> first | rfl | cases note
  | created fd hc heap hist =>
    refine .of_created (hist.trans (by rw [hc, hb.shared.history_created])) (by rw [heap]) fun w => ?_
    -- no worker knows a connection that is just constructed
    refine WorkerPc.stageOf_of_ne fun hcarries => ?_
    exact absurd (hb.worker w c (WorkerPc.refs_of_carries hcarries)) (by simp [hc])
  | send ret r ctl next _ _ hsend =>
    exact h.send hsend (fun _ => id) (fun _ _ => Iff.rfl) fun _ _ => id
  | append fd chunk k _ fits happ =>
    cases EventPc.appendStep_cases fits happ with
    | completes _ _ heap hist =>
      exact same (l := [.received c chunk, .dispatched c]) (by simp [Event.isTalk]) hist (by rw [heap])
        (by rw [heap])
    | waits _ heap hist =>
      exact same (l := [.received c chunk]) (by simp [Event.isTalk]) hist (by rw [heap]) (by rw [heap])

/-- A worker parses: a request that is not valid leaves `keep_alive`, which
says by now whether there was an earlier one. -/
theorem Decides.parse {s s' : Server n} {w c st b} (h : s.Decides c) (ht : s.Tasked c)
    (hr : s.shared.Resumes c) (hst : (s.worker w).stageOf c = some st)
    (hist : history c s'.shared.log = history c s.shared.log ++ [.parsed c b])
    (heap : s'.shared.heap c = s.shared.heap c)
    (hworker : s'.worker = Function.update s.worker w
      (if (HttpRequest.parse b).valid then .keepLock c (HttpRequest.parse b)
        else .respond c (HttpRequest.parse b))) : s'.Decides c := by
  have only : ∀ w', (s'.worker w').stageOf c = some .answering → w' = w := fun w' hw' =>
    ht.only_update hst (hworker ▸ hw')
  have hparses : parses (history c s'.shared.log) = parses (history c s.shared.log) ++ [b] := by
    rw [hist, parses_append]
    rfl
  have hresponses : responses (history c s'.shared.log) = responses (history c s.shared.log) := by
    rw [hist, responses_append]
    exact List.append_nil _
  have hanswered := h.answered
  refine ⟨?_, fun _ _ => ?_, fun _ _ heq => ?_, fun _ hnil => ?_, fun w' request hu => ?_,
    fun ho hs hu earlier b' heq => ?_, fun _ _ w' r hresponse => ?_⟩
  · rw [hparses, hresponses, List.length_append, List.length_singleton]
    omega
  · rw [hparses, hresponses, List.length_append, List.length_singleton]
    omega
  · rw [hparses, hresponses, List.length_append, List.length_singleton] at heq
    omega
  · rw [hparses] at hnil
    simp at hnil
  · obtain rfl := only w' (WorkerPc.stageOf_of_updates hu)
    rw [hworker, Function.update_self] at hu
    split at hu
    · next hvalid =>
      obtain rfl : HttpRequest.parse b = request := (Prod.mk.inj (Option.some.inj hu)).2
      exact ⟨hvalid, parses (history c s.shared.log), b, hparses, rfl⟩
    · cases hu
  · have hinvalid : (HttpRequest.parse b).valid = false := by
      by_contra hvalid
      refine hu w (HttpRequest.parse b) ?_
      rw [hworker, Function.update_self, if_pos (by simpa using hvalid)]
      rfl
    obtain ⟨rfl, hb⟩ := List.append_inj' (hparses.symm.trans heq) rfl
    obtain rfl : b = b' := by simpa using hb
    rw [heap, decided, hinvalid]
    have hopen : Open c (history c s.shared.log) := (hist ▸ ho).of_append
    by_cases hnil : parses (history c s.shared.log) = []
    · simpa [hnil] using h.first hopen hnil
    · -- the earlier responses are sent, and the connection is still open
      obtain ⟨hanswered, hwhole, -⟩ := hs _ _ [] hist rfl
      obtain ⟨l₁, out, l₂, hsplit, hlast, hout⟩ := hwhole hnil
      have hempty := ((hr l₁ out l₂ hsplit hlast).ended_iff.mpr hout).1
      simpa [hnil] using h.kept hopen hempty hanswered hnil
  · obtain rfl := only w' (WorkerPc.stageOf_of_response hresponse)
    rw [hworker, Function.update_self] at hresponse
    split at hresponse <;> cases hresponse

/-- A worker sets `keep_alive` as the request asks. -/
theorem Decides.keep {s s' : Server n} {w c request} (h : s.Decides c) (ht : s.Tasked c)
    (hw : s.worker w = .keep c request) (hlog : s'.shared.log = s.shared.log)
    (hkeep : (s'.shared.heap c).keepAlive = request.isKeepAlive)
    (hworker : s'.worker = Function.update s.worker w (.respond c request)) : s'.Decides c := by
  have hst : (s.worker w).stageOf c = some .answering := hw ▸ WorkerPc.stageOf_of_stage rfl
  have hanswering := h.answering w hst
  have only : ∀ w', (s'.worker w').stageOf c = some .answering → w' = w := fun w' hw' =>
    ht.only_update hst (hworker ▸ hw')
  obtain ⟨hvalid, earlier, b, hb, rfl⟩ := h.request w request (by rw [hw]; rfl)
  refine ⟨?_, fun _ _ => ?_, fun _ _ heq => ?_, fun _ hnil => ?_, fun w' request hu => ?_,
    fun _ _ _ earlier' b' heq => ?_, fun _ _ w' r hresponse => ?_⟩
  · rw [hlog]
    exact h.answered
  · rw [hlog]
    exact hanswering
  · rw [hlog] at heq
    omega
  · rw [hlog, hb] at hnil
    simp at hnil
  · obtain rfl := only w' (WorkerPc.stageOf_of_updates hu)
    rw [hworker, Function.update_self] at hu
    cases hu
  · rw [hlog, hb] at heq
    obtain ⟨-, hb'⟩ := List.append_inj' heq rfl
    obtain rfl : b = b' := by simpa using hb'
    rw [hkeep, decided, if_pos hvalid]
  · obtain rfl := only w' (WorkerPc.stageOf_of_response hresponse)
    rw [hworker, Function.update_self] at hresponse
    cases hresponse

/-- A worker stores the response it owes. -/
theorem Decides.store {s s' : Server n} {w c response out} (h : s.Decides c) (ht : s.Tasked c)
    (hw : s.worker w = .store c response)
    (hist : history c s'.shared.log = history c s.shared.log ++ [.stored c out])
    (hkeep : (s'.shared.heap c).keepAlive = (s.shared.heap c).keepAlive)
    (hpending : (s'.shared.heap c).hasPendingWrite = true)
    (hworker : s'.worker = Function.update s.worker w (.sub (.sendLock c) c)) : s'.Decides c := by
  have hst : (s.worker w).stageOf c = some .answering := hw ▸ WorkerPc.stageOf_of_stage rfl
  have hanswering := h.answering w hst
  have none : ∀ w', (s'.worker w').stageOf c ≠ some .answering := fun w' hw' => by
    rw [hworker] at hw'
    obtain rfl := ht.only_update hst hw'
    rw [Function.update_self, WorkerPc.stageOf_of_stage rfl] at hw'
    cases hw'
  have quiet : ∀ w' request, (s.worker w').updates ≠ some (c, request) := fun w' request hu => by
    obtain rfl := ht.only hst (WorkerPc.stageOf_of_updates hu)
    rw [hw] at hu
    cases hu
  have hparses : parses (history c s'.shared.log) = parses (history c s.shared.log) := by
    rw [hist, parses_append]
    exact List.append_nil _
  refine ⟨?_, fun w' hw' => absurd hw' (none w'), fun _ hp => ?_, fun _ hnil => ?_,
    fun w' request hu => absurd (WorkerPc.stageOf_of_updates hu) (none w'), fun ho hs _ => ?_,
    fun _ _ w' r hr => absurd (WorkerPc.stageOf_of_response hr) (none w')⟩
  · rw [hparses, hist, responses_append, List.length_append]
    exact hanswering
  · rw [hpending] at hp
    cases hp
  · rw [hparses] at hnil
    rw [hnil] at hanswering
    cases hanswering
  · rw [hparses, hkeep]
    exact h.flag (hist ▸ ho).of_append (Sequential.of_append (hist ▸ hs)) quiet

theorem Decides.stepWorker {s : Server n} {w i sh pc own c} (h : s.Decides c) (ht : s.Tasked c)
    (hr : s.shared.Resumes c) (he : (s.worker w).exec s.shared i = some (sh, pc)) :
    Decides { s with shared := sh, worker := Function.update s.worker w pc, owner := own } c := by
  by_cases hparse : s.worker w = .parse c
  · have hst : (s.worker w).stageOf c = some .waiting := by
      rw [hparse]
      exact WorkerPc.stageOf_of_stage rfl
    rw [hparse] at he
    cases WorkerPc.exec_steps he with
    | parse _ hv | parseInvalid _ hv => exact h.parse ht hr hst (history_emit rfl) rfl (by simp [hv])
  by_cases hkeep : ∃ request, s.worker w = .keep c request
  · obtain ⟨request, hpc⟩ := hkeep
    rw [hpc] at he
    cases WorkerPc.exec_steps he
    exact h.keep ht hpc rfl (by simp [Shared.setConn]) rfl
  have hupdates : ∀ w' request, (Function.update s.worker w pc w').updates = some (c, request) ↔
      (s.worker w').updates = some (c, request) := by
    intro w' request
    by_cases hne : w' = w
    · rw [hne, Function.update_self]
      exact WorkerPc.exec_updates he hparse (fun request hpc => hkeep ⟨request, hpc⟩) request
    · rw [Function.update_of_ne hne]
  have stages : (pc.stageOf c = some .answering → (s.worker w).stageOf c = some .answering) →
      ∀ w', (Function.update s.worker w pc w').stageOf c = some .answering →
        (s.worker w').stageOf c = some .answering := by
    intro hstage w' hw'
    by_cases hne : w' = w
    · rw [hne, Function.update_self] at hw'
      exact hne ▸ hstage hw'
    · rwa [Function.update_of_ne hne] at hw'
  have hresponse : (pc.stageOf c = some .answering → (s.worker w).stageOf c = some .answering) →
      ∀ w' r, (Function.update s.worker w pc w').response = some (c, r) →
        (s.worker w').response = some (c, r) ∨
        (∀ w request, (s.worker w).updates ≠ some (c, request)) ∧
          ∃ r₀ : HttpResponse, r = r₀.setKeepAlive (s.shared.heap c).keepAlive := by
    intro hstage w' r hr'
    by_cases hne : w' = w
    · subst hne
      rw [Function.update_self] at hr'
      rcases WorkerPc.exec_response he hr' with hbefore | ⟨-, r₀, hr₀⟩
      · exact .inl hbefore
      · refine .inr ⟨fun w'' request hu => ?_, r₀, hr₀⟩
        -- the only worker with the task has its response already
        have hst := hstage (WorkerPc.stageOf_of_response hr')
        obtain rfl := ht.only hst (WorkerPc.stageOf_of_updates hu)
        have hu' := (hupdates w'' request).mpr hu
        rw [Function.update_self] at hu'
        cases pc <;> cases hr' <;> cases hu'
    · rw [Function.update_of_ne hne] at hr'
      exact .inl hr'
  have quiet : ∀ {l : List Event}, (∀ e ∈ l, e.isTalk = false) →
      history c sh.log = history c s.shared.log ++ l →
      (sh.heap c).keepAlive = (s.shared.heap c).keepAlive →
      (sh.heap c).hasPendingWrite = (s.shared.heap c).hasPendingWrite →
      (pc.stageOf c = some .answering → (s.worker w).stageOf c = some .answering) →
      Decides { s with shared := sh, worker := Function.update s.worker w pc, owner := own } c := by
    intro l hl hist hk hp hstage
    exact h.quiet hl hist (fun _ => hk) (fun _ hnot => .inl (hp ▸ hnot)) (stages hstage) hupdates
      (hresponse hstage)
  cases WorkerPc.exec_touch c he with
  | away heap hist _ stage =>
    exact quiet (l := []) (List.forall_mem_nil _) (by simpa using hist) (by rw [heap]) (by rw [heap])
      fun hst => stage ▸ hst
  | unregistered heap hist _ stage =>
    exact quiet (l := [.unregistered c]) (by simp [Event.isTalk]) hist (by rw [heap]) (by rw [heap])
      fun hst => stage ▸ hst
  | taken _ _ hpc' heap log =>
    refine quiet (l := []) (List.forall_mem_nil _) (by simp [log]) (by rw [heap]) (by rw [heap]) fun hst => ?_
    rw [hpc', WorkerPc.stageOf_of_stage rfl] at hst
    cases hst
  | parse request hpc => exact absurd hpc hparse
  | keep request hpc => exact absurd ⟨request, hpc⟩ hkeep
  | missing response _ _ hs hpc' =>
    refine quiet (l := []) (List.forall_mem_nil _) (by simp [hs]) (by rw [hs]) (by rw [hs]) fun hst => ?_
    rw [hpc', WorkerPc.stageOf_of_stage rfl] at hst
    cases hst
  | unreg _ hs hpc' =>
    refine quiet (l := []) (List.forall_mem_nil _) (by simp [hs, Shared.setConn]) (by simp [hs, Shared.setConn])
      (by simp [hs, Shared.setConn]) fun hst => ?_
    rw [hpc'] at hst
    cases hst
  | finish _ hs hpc' =>
    refine quiet (l := [.cleared c]) (by simp [Event.isTalk]) ?_ (by simp [hs, Shared.setConn, Shared.emit])
      (by simp [hs, Shared.setConn, Shared.emit]) fun hst => ?_
    · exact history_of_eq_emit hs rfl rfl
    · rw [hpc'] at hst
      cases hst
  | store response hpc hs hpc' =>
    have hist : history c sh.log =
        history c s.shared.log ++ [.stored c (response.toString s.shared.order)] :=
      history_of_eq_emit hs rfl rfl
    refine h.store ht hpc hist ?_ ?_ (by rw [hpc'])
    · simp [hs, Shared.setConn, Shared.emit]
    · simp [hs, Shared.setConn, Shared.emit]
  | send c' r ctl next hpc hpc' hsend =>
    have stage : (WorkerPc.resume c' next).stageOf c = (WorkerPc.sub (.send c) c').stageOf c :=
      WorkerPc.stageOf_congr (WorkerPc.stage_resume c' next)
    refine h.send hsend (stages fun hst => ?_) hupdates
      fun w' r (hr' : (Function.update s.worker w pc w').response = some (c, r)) => ?_
    · rwa [hpc', stage, ← hpc] at hst
    by_cases hne : w' = w
    · rw [hne, Function.update_self, hpc'] at hr'
      cases next <;> cases hr'
    · rwa [Function.update_of_ne hne] at hr'

theorem decides {ok} {s : Server n} (h : (system n).ReachableBy ok s) (c : ConnId) : s.Decides c := by
  refine h.invariant (I := fun s => s.Decides c) ?_ ?_
  · intro s hinit
    obtain ⟨_, _, _, _, rfl⟩ := hinit
    exact .of_created rfl rfl fun _ => rfl
  intro s a s' hr hi _ hs
  cases step_cases hs with
  | event i sh pc he => exact hi.stepEvent (bounded hr) he
  | worker w i sh pc he => exact hi.stepWorker (tasked hr c) (resumes hr c) he
  | stop wl el sh pc he =>
    obtain ⟨heap, -, -, hist, -⟩ := StopPc.exec_frame he
    exact hi.quiet (l := []) (List.forall_mem_nil _) (by simp [hist]) (fun _ => by rw [heap])
      (fun _ hp => .inl (by rwa [heap] at hp)) (fun _ => id) (fun _ _ => Iff.rfl) fun _ _ hr => .inl hr
  | tick =>
    exact hi.quiet (l := []) (List.forall_mem_nil _) (by simp) (fun _ => rfl) (fun _ hp => .inl hp)
      (fun _ => id) (fun _ _ => Iff.rfl) fun _ _ hr => .inl hr

/-! ## Two histories -/

/-- The last request parsed on an open connection, after sequential ones. -/
structure LastRequest (s : Server n) (c : ConnId) (earlier : List Bytes) (b : Bytes) : Prop where
  sequential : Sequential c (history c s.shared.log)
  opened : Open c (history c s.shared.log)
  parsed : parses (history c s.shared.log) = earlier ++ [b]

/-- A call of `send_response_async` sends the last byte of the response to the
last request; `next` is where it goes on to close. -/
structure Completes (s : Server n) (c : ConnId) (next : Option SubPc) : Prop where
  answered : (responses (history c s.shared.log)).length = (parses (history c s.shared.log)).length
  pending : (s.shared.heap c).hasPendingWrite = true
  sent : ∃ r ctl s', (SubPc.send c).exec s.shared (.sends r ctl) = some (s', next) ∧
    (s'.heap c).hasPendingWrite = false ∧ ∀ r, .sendFailed c r ∉ s'.log

theorem decided_eq_iff (earlier₁ earlier₂ : List Bytes) (b : Bytes) :
    decided earlier₁ b = decided earlier₂ b ↔
      (HttpRequest.parse b).valid = true ∨ (earlier₁ = [] ↔ earlier₂ = []) := by
  unfold decided
  split
  · next hvalid => exact iff_of_true rfl (.inl hvalid)
  · next hinvalid =>
    rw [or_iff_right hinvalid, decide_eq_decide, ne_eq, ne_eq, not_iff_not]

variable {s : Server n} {c : ConnId} {earlier : List Bytes} {b : Bytes}

theorem LastRequest.connection (hl : s.LastRequest c earlier b) (h : (system n).Reachable s) {w : Fin n}
    {r : HttpResponse} (hw : s.worker w = .store c r) :
    r.connection = some (if decided earlier b then bytes "keep-alive" else bytes "close") :=
  (decides h c).header hl.opened hl.sequential w r (by rw [hw]; rfl) earlier b hl.parsed

theorem LastRequest.kept_iff (hl : s.LastRequest c earlier b) (h : (system n).Reachable s)
    {next : Option SubPc} (hc : s.Completes c next) : next = none ↔ decided earlier b = true := by
  have hd := decides h c
  have hkeep : (s.shared.heap c).keepAlive = decided earlier b := by
    refine hd.flag hl.opened hl.sequential (fun w request hu => ?_) earlier b hl.parsed
    have := hd.answering w (WorkerPc.stageOf_of_updates hu)
    have := hc.answered
    omega
  obtain ⟨r, ctl, s', hs, hsent, hopen⟩ := hc.sent
  rcases (SubPc.sendStep_ends hs hopen).ended hsent with hp | ⟨hka, hnext⟩ | ⟨hka, hnext, -⟩
  · rw [hc.pending] at hp
    cases hp
  · exact iff_of_true hnext (hkeep ▸ hka)
  · exact iff_of_false hnext (by simp [← hkeep, hka])

/-- **Requests leave something to the next one** where it is not valid: of two
histories of sequential requests with the same last one, its response
announces the same, and the same becomes of the connection, exactly if that
request is valid or both or none of the histories begin with it. -/
theorem last_response_iff {n₁ n₂ : Nat} {s₁ : Server n₁} {s₂ : Server n₂}
    (h₁ : (system n₁).Reachable s₁) (h₂ : (system n₂).Reachable s₂) {c₁ c₂ : ConnId}
    {earlier₁ earlier₂ : List Bytes} {b : Bytes} (hl₁ : s₁.LastRequest c₁ earlier₁ b)
    (hl₂ : s₂.LastRequest c₂ earlier₂ b) :
    (∀ w₁ w₂ r₁ r₂, s₁.worker w₁ = .store c₁ r₁ → s₂.worker w₂ = .store c₂ r₂ →
      (r₁.connection = r₂.connection ↔
        (HttpRequest.parse b).valid = true ∨ (earlier₁ = [] ↔ earlier₂ = []))) ∧
    (∀ next₁ next₂, s₁.Completes c₁ next₁ → s₂.Completes c₂ next₂ →
      ((next₁ = none ↔ next₂ = none) ↔
        (HttpRequest.parse b).valid = true ∨ (earlier₁ = [] ↔ earlier₂ = []))) := by
  have hne : bytes "keep-alive" ≠ bytes "close" := by decide +kernel
  refine ⟨fun w₁ w₂ r₁ r₂ hw₁ hw₂ => ?_, fun next₁ next₂ hc₁ hc₂ => ?_⟩ <;> rw [← decided_eq_iff]
  · rw [hl₁.connection h₁ hw₁, hl₂.connection h₂ hw₂]
    cases decided earlier₁ b <;> cases decided earlier₂ b <;> simp [hne, hne.symm]
  · rw [hl₁.kept_iff h₁ hc₁, hl₂.kept_iff h₂ hc₂]
    exact Bool.eq_iff_iff.symm

/-- What has happened on a connection whose first request is parsed. -/
def firstParsed (b : Bytes) : List Event :=
  [.registered 0, .received 0 b, .dispatched 0] ++ [.parsed 0 b]

/-- What has happened where the request comes after one that was answered. -/
def laterParsed (b : Bytes) : List Event :=
  firstParsed getRequest ++
    [.stored 0 pageBytes, .sent 0 0 pageBytes, .cleared 0, .received 0 b, .dispatched 0] ++ [.parsed 0 b]

theorem firstParsed_sequential (b : Bytes) : Sequential 0 (firstParsed b) := by
  refine Whenever.concat (Whenever.append Whenever.nil (by simp [Event.isParsed])) fun _ => ?_
  exact ⟨rfl, fun hne => absurd rfl hne, ⟨by simp, by simp⟩⟩

theorem laterParsed_sequential (b : Bytes) : Sequential 0 (laterParsed b) := by
  refine Whenever.concat (Whenever.append (firstParsed_sequential getRequest) (by simp [Event.isParsed]))
    fun _ => ⟨rfl, fun _ => ?_, ⟨by simp [firstParsed], by simp [firstParsed]⟩⟩
  exact ⟨firstParsed getRequest, pageBytes, _, rfl, rfl, rfl⟩

theorem lastRequest_first {s : Server 1} {b : Bytes} (hist : history 0 s.shared.log = firstParsed b) :
    s.LastRequest 0 [] b := by
  refine ⟨hist ▸ firstParsed_sequential b, ?_, ?_⟩ <;> rw [hist]
  · exact ⟨by simp [firstParsed], by simp [firstParsed]⟩
  · rfl

theorem lastRequest_later {s : Server 1} {b : Bytes} (hist : history 0 s.shared.log = laterParsed b) :
    s.LastRequest 0 [getRequest] b := by
  refine ⟨hist ▸ laterParsed_sequential b, ?_, ?_⟩ <;> rw [hist]
  · exact ⟨by simp [laterParsed, firstParsed], by simp [laterParsed, firstParsed]⟩
  · rfl

/-- The worker is about to store a response for connection 0 that announces this. -/
def announces (value : Bytes) (s : Server 1) : Bool :=
  match s.worker (Fin.last 0) with
  | .store c r => c = 0 && r.connection = some value
  | _ => false

theorem exists_of_announces {value : Bytes} {s : Server 1} (h : announces value s = true) :
    ∃ r, s.worker 0 = .store 0 r ∧ r.connection = some value := by
  unfold announces at h
  split at h
  · next c r hw =>
    simp only [Bool.and_eq_true, decide_eq_true_eq] at h
    exact ⟨r, h.1 ▸ hw, h.2⟩
  · cases h

/-- A worker comes to store the response to a request that is not valid. -/
def refuseInputs : List Input := [.go, .go, .go, .serves page [], .go, .go, .go, .go]

def invalidRequest : Bytes := bytes "BAD\r\n\r\n"

/-- The same invalid request comes first, and after one that was answered. -/
theorem invalid_first_and_later :
    (∃ s : Server 1, (system 1).Reachable s ∧ history 0 s.shared.log = firstParsed invalidRequest ∧
      ∃ r, s.worker 0 = .store 0 r ∧ r.connection = some (bytes "close")) ∧
    ∃ s : Server 1, (system 1).Reachable s ∧ history 0 s.shared.log = laterParsed invalidRequest ∧
      ∃ r, s.worker 0 = .store 0 r ∧ r.connection = some (bytes "keep-alive") := by
  obtain ⟨s₁, hr₁, hs₁⟩ := System.exists_reachable init_fresh
    (acceptClient 7 1 ++ receiveRequest 7 invalidRequest 1 ++ workerSteps refuseInputs)
    (fun s => decide (history 0 s.shared.log = firstParsed invalidRequest) && announces (bytes "close") s)
    (by decide +kernel)
  obtain ⟨s₂, hr₂, hs₂⟩ := System.exists_reachable init_fresh
    (answered ++ receiveRequest 7 invalidRequest 1 ++ workerSteps refuseInputs)
    (fun s => decide (history 0 s.shared.log = laterParsed invalidRequest) &&
      announces (bytes "keep-alive") s) (by decide +kernel)
  simp only [Bool.and_eq_true, decide_eq_true_eq] at hs₁ hs₂
  exact ⟨⟨s₁, hr₁, hs₁.1, exists_of_announces hs₁.2⟩, s₂, hr₂, hs₂.1, exists_of_announces hs₂.2⟩

theorem last_response_iff_invalid : ∃ (s₁ s₂ : Server 1) (r₁ r₂ : HttpResponse),
    s₁.LastRequest 0 [] invalidRequest ∧ s₂.LastRequest 0 [getRequest] invalidRequest ∧
    s₁.worker 0 = .store 0 r₁ ∧ s₂.worker 0 = .store 0 r₂ ∧ r₁.connection ≠ r₂.connection := by
  obtain ⟨⟨s₁, h₁, hist₁, r₁, hw₁, -⟩, s₂, h₂, hist₂, r₂, hw₂, -⟩ := invalid_first_and_later
  have hl₁ := lastRequest_first hist₁
  have hl₂ := lastRequest_later hist₂
  refine ⟨s₁, s₂, r₁, r₂, hl₁, hl₂, hw₁, hw₂, fun heq => ?_⟩
  have hcond := ((last_response_iff h₁ h₂ hl₁ hl₂).1 0 0 r₁ r₂ hw₁ hw₂).mp heq
  revert hcond
  decide +kernel

theorem not_last_response : ¬ ∀ (n₁ n₂ : Nat) (s₁ : Server n₁) (s₂ : Server n₂),
    (system n₁).Reachable s₁ → (system n₂).Reachable s₂ → ∀ c₁ c₂ earlier₁ earlier₂ b,
      s₁.LastRequest c₁ earlier₁ b → s₂.LastRequest c₂ earlier₂ b → ∀ w₁ w₂ r₁ r₂,
        s₁.worker w₁ = .store c₁ r₁ → s₂.worker w₂ = .store c₂ r₂ → r₁.connection = r₂.connection := by
  intro h
  obtain ⟨⟨s₁, h₁, hist₁, r₁, hw₁, hr₁⟩, s₂, h₂, hist₂, r₂, hw₂, hr₂⟩ := invalid_first_and_later
  have heq := h 1 1 s₁ s₂ h₁ h₂ 0 0 [] [getRequest] invalidRequest (lastRequest_first hist₁)
    (lastRequest_later hist₂) 0 0 r₁ r₂ hw₁ hw₂
  rw [hr₁, hr₂] at heq
  revert heq
  decide +kernel

end Server

end Webserver
