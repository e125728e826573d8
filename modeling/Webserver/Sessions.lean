/-
A connection that stays: request after request. There is one way to split
what arrives into requests. Where each piece ends no later than the request
it belongs to, and comes while no request of the connection is processed, the
requests are parsed and answered one by one; otherwise bytes of the next one
go with the buffer of the last.
-/
import Webserver.Segments

namespace Webserver

open Cxx HttpRequest

/-! ## Where a request ends -/

/-- No shorter beginning is a complete request. -/
def endsFirst (b : Bytes) : Bool := b.inits.all fun p => p = b || !isHttpRequestComplete p

theorem endsFirst_iff {b : Bytes} :
    endsFirst b = true ↔ ∀ p, p <+: b → p ≠ b → isHttpRequestComplete p = false := by
  simp only [endsFirst, List.all_eq_true, List.mem_inits, Bool.or_eq_true, decide_eq_true_eq,
    Bool.not_eq_true', ← or_iff_not_imp_left, ne_eq]

/-- A complete request and nothing after it. -/
structure Single (b : Bytes) : Prop where
  complete : isHttpRequestComplete b = true
  first : ∀ p, p <+: b → p ≠ b → isHttpRequestComplete p = false

theorem Single.eq_of_begins {a b : Bytes} (ha : Single a) (hb : Single b) (h : a <+: b) : a = b := by
  by_contra hne
  have := hb.first a h hne
  rw [ha.complete] at this
  cases this

/-- Requests one after the other that begin a sequence of requests are its
first ones. -/
theorem split_beginning {inputs messages : List Bytes} {rest : Bytes} (hi : ∀ b ∈ inputs, Single b)
    (hm : ∀ b ∈ messages, Single b) (h : inputs.flatten ++ rest <+: messages.flatten) :
    ∃ later, messages = inputs ++ later ∧ rest <+: later.flatten := by
  induction inputs generalizing messages with
  | nil => exact ⟨messages, rfl, h⟩
  | cons a inputs ih =>
    have ha := hi a List.mem_cons_self
    rw [List.flatten_cons, List.append_assoc] at h
    cases messages with
    | nil =>
      have hcomplete := ha.complete
      rw [(List.append_eq_nil_iff.mp (List.prefix_nil.mp h)).1] at hcomplete
      cases hcomplete
    | cons b messages =>
      have hb := hm b List.mem_cons_self
      rw [List.flatten_cons] at h
      obtain rfl : a = b := by
        rcases List.prefix_or_prefix_of_prefix ((List.prefix_append a _).trans h)
          (List.prefix_append b messages.flatten) with hab | hba
        · exact ha.eq_of_begins hb hab
        · exact (hb.eq_of_begins ha hba).symm
      obtain ⟨later, rfl, hrest⟩ := ih (fun x hx => hi x (List.mem_cons_of_mem _ hx))
        (fun x hx => hm x (List.mem_cons_of_mem _ hx)) ((List.prefix_append_right_inj a).mp h)
      exact ⟨later, rfl, hrest⟩

/-- **One way to split**: requests one after the other, then a rest that
begins with none, are the same requests only with no rest. -/
theorem split_unique {inputs messages : List Bytes} {rest : Bytes} (hi : ∀ b ∈ inputs, Single b)
    (hm : ∀ b ∈ messages, Single b) (hrest : ∀ p, p <+: rest → isHttpRequestComplete p = false)
    (h : inputs.flatten ++ rest = messages.flatten) : inputs = messages := by
  have hprefix : inputs.flatten ++ rest <+: messages.flatten := by rw [h]
  obtain ⟨later, rfl, -⟩ := split_beginning hi hm hprefix
  rw [List.flatten_append] at h
  cases later with
  | nil => rw [List.append_nil]
  | cons b later =>
    have hb := hm b (by simp)
    have := hrest b ⟨later.flatten, (List.append_cancel_left h).symm⟩
    rw [hb.complete] at this
    cases this

/-- A beginning of such a sequence that ends first is one of its first request. -/
theorem prefix_of_endsFirst {b : Bytes} {messages : List Bytes} (hm : ∀ x ∈ messages, Single x)
    (hb : endsFirst b = true) (h : b <+: messages.flatten) :
    b = [] ∨ ∃ m ∈ messages, b <+: m := by
  cases messages with
  | nil => exact .inl (List.prefix_nil.mp h)
  | cons m messages =>
    refine .inr ⟨m, List.mem_cons_self, ?_⟩
    rcases List.prefix_or_prefix_of_prefix h (List.prefix_append m messages.flatten) with hbm | hmb
    · exact hbm
    · by_contra hne
      have := endsFirst_iff.mp hb m hmb fun he => hne (he ▸ List.prefix_refl _)
      rw [(hm m List.mem_cons_self).complete] at this
      cases this

theorem RawMessage.WellFormed.single {m : RawMessage} (h : m.WellFormed)
    (hsize : m.toBytes.length ≤ maxRequestSize) : Single m.toBytes := by
  have hiff := fun b hb => h.complete_iff (b := b) (Nat.lt_of_le_of_lt hsize (by decide)) hb
  refine ⟨(hiff _ (List.prefix_refl _)).mpr rfl, fun p hp hne => ?_⟩
  exact Bool.eq_false_iff.mpr fun hc => hne ((hiff p hp).mp hc)

/-! ## Requests and responses -/

/-- A response to the request in a buffer, whatever the handlers serve. -/
def RespondsTo (input out : Bytes) : Prop :=
  ∃ (order : MapOrder) (served : HttpResponse) (date : Bytes) (keepAlive : Bool),
    out = ((buildResponse (parse input) served date).setKeepAlive keepAlive).toString order

/-- An event that parses a request or stores a response. -/
def Event.isTalk : Event → Bool
  | .parsed _ _ | .stored _ _ => true
  | _ => false

def talk (hist : List Event) : List Event := hist.filter (·.isTalk)

/-- One request and its response. -/
def exchange (c : ConnId) (r : Bytes × Bytes) : List Event := [.parsed c r.1, .stored c r.2]

theorem talk_append (hist l : List Event) : talk (hist ++ l) = talk hist ++ talk l :=
  List.filter_append ..

theorem talk_eq_nil {l : List Event} (hl : ∀ e ∈ l, e.isNote ∨ e.isOutput) : talk l = [] := by
  refine List.filter_eq_nil_iff.mpr fun e he htalk => ?_
  cases e with
  | parsed | stored => rcases hl _ he with h | h <;> cases h
  | _ => cases htalk

theorem parses_talk (hist : List Event) : parses (talk hist) = parses hist := by
  rw [parses, talk, List.filterMap_filter]
  refine List.filterMap_congr fun e _ => ?_
  cases e <;> rfl

theorem responses_talk (hist : List Event) : responses (talk hist) = responses hist := by
  rw [responses, talk, List.filterMap_filter]
  refine List.filterMap_congr fun e _ => ?_
  cases e <;> rfl

theorem parses_exchanges (c : ConnId) (rounds : List (Bytes × Bytes)) :
    parses (rounds.flatMap (exchange c)) = rounds.map (·.1) := by
  induction rounds with
  | nil => rfl
  | cons r rounds ih =>
    rw [List.flatMap_cons, parses_append, ih]
    rfl

theorem responses_exchanges (c : ConnId) (rounds : List (Bytes × Bytes)) :
    responses (rounds.flatMap (exchange c)) = rounds.map (·.2) := by
  induction rounds with
  | nil => rfl
  | cons r rounds ih =>
    rw [List.flatMap_cons, responses_append, ih]
    rfl

/-! ## The steps of a session -/

open Locks Systems

namespace WorkerPc

/-- The worker is on its way to a response to this request. -/
def answers (input : Bytes) : WorkerPc → Prop
  | keepLock _ request | keep _ request | respond _ request => request = HttpRequest.parse input
  | checkLock _ response | check _ response | checkUnlock _ response | storeLock _ response
  | store _ response => ∀ order : MapOrder, RespondsTo input (response.toString order)
  | _ => True

theorem exec_answers {s : Shared} {pc : WorkerPc} {i s' pc' input} (h : pc.exec s i = some (s', pc'))
    (ha : pc.answers input) (hparse : ∀ c, pc = parse c → (s.heap c).buffer = input) :
    pc'.answers input := by
  cases exec_steps h with
  | parse c | parseInvalid c => exact congrArg HttpRequest.parse (hparse c rfl)
  | respond c request served date =>
    intro order
    exact ⟨order, served, date, _, by rw [← show request = HttpRequest.parse input from ha]⟩
  | sub p c next => cases next <;> trivial
  | _ => first | exact ha | trivial

end WorkerPc

namespace EventPc

/-- Only a chunk that fits and, after `shutdown`, `enqueue` change how many
tasks of a connection wait. -/
theorem exec_queued {s : Shared} {pc : EventPc} {i s' pc'} (c : ConnId)
    (h : pc.exec s i = some (s', pc'))
    (happ : ∀ fd chunk k, pc = dataAppend fd c chunk k → overflows s c chunk = true)
    (henq : ∀ k, pc = enqueue c k → s.poolShutdown = false) : queued s' pc' c = queued s pc c := by
  have same : s'.tasks = s.tasks → pc'.carries = pc.carries → queued s' pc' c = queued s pc c := by
    intro ht hp
    rw [queued, queued, ht, hp]
  cases exec_steps h with
  | acceptFull | acceptReject | dataErase | dataCloseFd => exact same (by simp) rfl
  | completes fd c' chunk k fits =>
    have hc : c' ≠ c := fun hc => fits (hc ▸ happ fd chunk k (by rw [hc]))
    simp [queued, carries, Shared.emit, Shared.setConn, hc]
  | throws c' k hpool =>
    have hc : c' ≠ c := fun hc => by simp [henq k (by rw [hc])] at hpool
    simp [queued, carries, hc]
  | push c' k => simp [queued, carries, List.count_append, List.count_singleton]
  | sub p ret next h₁ => exact same (SubPc.exec_tasks h₁).1 (carries_resume ret next)
  | _ => exact same rfl rfl

end EventPc

namespace Server

variable {n : Nat}

/-- The step leaves the requests of `c` apart: a chunk is appended to its
buffer only while none of them is processed and it ends no later than the
first of them, the pool takes its tasks, and a worker that has a response for
it finds it registered. -/
def apart (c : ConnId) (s : Server n) : Action n → Bool
  | .event _ =>
    match s.event with
    | .dataAppend _ c' chunk _ => c' ≠ c ||
      !(s.shared.heap c).processingRequest && endsFirst ((s.shared.heap c).buffer ++ chunk)
    | .enqueue c' _ => c' ≠ c || !s.shared.poolShutdown
    | _ => true
  | .worker w _ =>
    match s.worker w with
    | .check c' _ => c' ≠ c || s.shared.connections.lookup (s.shared.heap c).fd ≠ none
    | _ => true
  | _ => true

/-- Where the pool takes the tasks of a connection, it has one exactly if its
flag is set. -/
theorem flagged_eq {c : ConnId} {s : Server n}
    (h : (system n).ReachableBy (fun s a => apart c s a) s) : s.tasksOf c = s.shared.flagged c := by
  refine h.invariant (I := fun s => s.tasksOf c = s.shared.flagged c) ?_ ?_
  · intro s hinit
    have hr : (system n).Reachable s := .init hinit
    obtain ⟨_, _, _, _, rfl⟩ := hinit
    exact (tasked hr c).eq rfl
  intro s a s' hr hi hok hs
  cases step_cases hs with
  | event i sh pc he own =>
    have henq : ∀ k, s.event = .enqueue c k → s.shared.poolShutdown = false := by
      intro k hk
      simpa [apart, hk] using hok
    have keeps : (∀ fd chunk k, s.event = .dataAppend fd c chunk k →
          EventPc.overflows s.shared c chunk = true) →
        (sh.heap c).processingRequest = (s.shared.heap c).processingRequest →
        tasksOf { s with shared := sh, event := pc, owner := own } c = sh.flagged c := by
      intro happ hflag
      have hq := EventPc.exec_queued c he happ henq
      simpa only [tasksOf, Shared.flagged, hq, hflag] using hi
    by_cases happ : ∀ fd chunk k, s.event = .dataAppend fd c chunk k →
        EventPc.overflows s.shared c chunk = true
    · cases EventPc.exec_touch c he with
      | away heap | noted _ _ heap => exact keeps happ (by rw [heap])
      | send ret r ctl next hpc hpc' hsend =>
        exact keeps happ (SubPc.sendStep_frame hsend).conn.processing
      | created fd hc heap =>
        have hq := EventPc.exec_queued c he happ henq
        have hnone := (bounded hr).tasksOf
        rw [← hc] at hnone
        simpa only [tasksOf, Shared.flagged, hq, heap, Bool.false_eq_true, if_false] using hnone
      | append fd chunk k hpc fits =>
        rw [happ fd chunk k hpc] at fits
        cases fits
    · simp only [not_forall, Bool.not_eq_true] at happ
      obtain ⟨fd, chunk, k, hpc, fits⟩ := happ
      have hflag : (s.shared.heap c).processingRequest = false := by
        simp only [apart, hpc, ne_eq, not_true_eq_false, decide_false, Bool.false_or,
          Bool.and_eq_true, Bool.not_eq_true'] at hok
        exact hok.1
      have happ : EventPc.appendStep s.shared fd c chunk k = (sh, pc) := by
        rw [hpc] at he
        cases EventPc.exec_steps he <;> exact Option.some.inj he
      simp only [tasksOf, EventPc.queued, hpc, EventPc.carries, Shared.flagged, hflag] at hi
      cases EventPc.appendStep_cases fits happ with
      | completes _ _ heap _ tasks hpc' =>
        simp only [tasksOf, EventPc.queued, EventPc.carries, Shared.flagged, heap, tasks, hpc', if_true]
        simp only [reduceCtorEq, if_false, Bool.false_eq_true] at hi
        omega
      | waits _ heap _ tasks hpc' =>
        simpa [tasksOf, EventPc.queued, EventPc.carries, Shared.flagged, heap, tasks, hpc', hflag] using hi
  | worker w i sh pc he =>
    have hsum := sum_update s.worker w pc (·.load c)
    have hload := le_sum (fun w' => (s.worker w').load c) w
    simp only [tasksOf, EventPc.queued] at hi
    obtain ⟨-, heq⟩ := (WorkerPc.exec_touch c he).tasks
      ((if s.event.carries = some c then 1 else 0) +
        (∑ w', (s.worker w').load c - (s.worker w).load c)) (by omega)
    have := heq (by omega)
    simp only [tasksOf, EventPc.queued]
    omega
  | stop wl el sh pc he =>
    obtain ⟨heap, -, htasks, -, -⟩ := StopPc.exec_frame he
    simp only [tasksOf, EventPc.queued, Shared.flagged, htasks, heap] at hi ⊢
    exact hi
  | tick => exact hi

/-- How much has been said of the request in the buffer. -/
inductive Said (s : Server n) (c : ConnId) : List Event → Prop
  | nothing (h : ∀ w st, (s.worker w).stageOf c = some st → st = .waiting) : Said s c []
  | parsed (w) (hw : (s.worker w).stageOf c = some .answering)
      (ha : (s.worker w).answers (s.shared.heap c).buffer) :
      Said s c [.parsed c (s.shared.heap c).buffer]
  | stored (w out) (hw : (s.worker w).stageOf c = some .sending)
      (ho : RespondsTo (s.shared.heap c).buffer out) :
      Said s c [.parsed c (s.shared.heap c).buffer, .stored c out]

theorem Said.congr {s s' : Server n} {c l} (h : s.Said c l) (hworker : s'.worker = s.worker)
    (hbuffer : (s'.shared.heap c).buffer = (s.shared.heap c).buffer) : s'.Said c l := by
  cases h with
  | nothing h => exact .nothing (hworker ▸ h)
  | parsed w hw ha => exact hbuffer ▸ .parsed w (hworker ▸ hw) (by rw [hbuffer, hworker]; exact ha)
  | stored w out hw ho => exact hbuffer ▸ .stored w out (hworker ▸ hw) (hbuffer ▸ ho)

theorem Said.worker {s : Server n} {c l w sh pc own} (h : s.Said c l)
    (hbuffer : (sh.heap c).buffer = (s.shared.heap c).buffer)
    (hstage : pc.stageOf c = (s.worker w).stageOf c)
    (hanswers : (s.worker w).stageOf c = some .answering →
      (s.worker w).answers (s.shared.heap c).buffer → pc.answers (s.shared.heap c).buffer) :
    Said { s with shared := sh, worker := Function.update s.worker w pc, owner := own } c l := by
  have stage : ∀ w', (Function.update s.worker w pc w').stageOf c = (s.worker w').stageOf c := by
    intro w'
    by_cases hw : w' = w
    · rw [hw, Function.update_self, hstage]
    · rw [Function.update_of_ne hw]
  cases h with
  | nothing h => exact .nothing fun w' st hst => h w' st ((stage w').symm.trans hst)
  | parsed w' hw ha =>
    refine hbuffer ▸ .parsed w' ((stage w').trans hw) ?_
    by_cases hne : w' = w
    · subst hne
      simpa [hbuffer] using hanswers hw ha
    · simpa [Function.update_of_ne hne, hbuffer] using ha
  | stored w' out hw ho => exact hbuffer ▸ .stored w' out ((stage w').trans hw) (hbuffer ▸ ho)

/-- What has been said where a worker with the task is at a given stage. -/
theorem Said.at_stage {s : Server n} {c l w st} (h : s.Said c l) (ht : s.Tasked c)
    (hw : (s.worker w).stageOf c = some st) :
    (st = .waiting ∧ l = []) ∨
    (st = .answering ∧ (s.worker w).answers (s.shared.heap c).buffer ∧
      l = [.parsed c (s.shared.heap c).buffer]) ∨
    (st = .sending ∧ ∃ out, RespondsTo (s.shared.heap c).buffer out ∧
      l = [.parsed c (s.shared.heap c).buffer, .stored c out]) := by
  have only : ∀ {w' st'}, (s.worker w').stageOf c = some st' → w' = w ∧ st' = st := by
    intro w' st' hw'
    obtain rfl := ht.only hw hw'
    exact ⟨rfl, Option.some.inj (hw'.symm.trans hw)⟩
  cases h with
  | nothing h => exact .inl ⟨h w st hw, rfl⟩
  | parsed w' hw' ha =>
    obtain ⟨rfl, rfl⟩ := only hw'
    exact .inr (.inl ⟨rfl, ha, rfl⟩)
  | stored w' out hw' ho =>
    obtain ⟨rfl, rfl⟩ := only hw'
    exact .inr (.inr ⟨rfl, out, ho, rfl⟩)

/-- Where the flag is not set, no worker has a task. -/
theorem Tasked.no_stage {s : Server n} {c} (h : s.Tasked c)
    (hflag : (s.shared.heap c).processingRequest = false) (w : Fin n) :
    (s.worker w).stageOf c = none := by
  by_contra hst
  obtain ⟨st, hst⟩ := Option.ne_none_iff_exists'.mp hst
  rw [(h.alone hst).1] at hflag
  cases hflag

theorem Said.eq_nil {s : Server n} {c l} (h : s.Said c l) (ht : s.Tasked c)
    (hflag : (s.shared.heap c).processingRequest = false) : l = [] := by
  cases h with
  | nothing => rfl
  | parsed w hw | stored w out hw =>
    rw [ht.no_stage hflag w] at hw
    cases hw

/-- The rounds of a connection so far, each a request and its response, and
what it has in its buffer: one request, while the flag is set, or the
beginning of one. -/
structure Session (s : Server n) (c : ConnId) (rounds : List (Bytes × Bytes)) : Prop where
  past : ∀ r ∈ rounds, Single r.1 ∧ RespondsTo r.1 r.2
  received : received (history c s.shared.log) =
    (rounds.map (·.1)).flatten ++ (s.shared.heap c).buffer
  waiting : (s.shared.heap c).processingRequest = false →
    ∀ p, p <+: (s.shared.heap c).buffer → isHttpRequestComplete p = false
  busy : (s.shared.heap c).processingRequest = true → Single (s.shared.heap c).buffer
  talk : ∃ l, s.Said c l ∧ talk (history c s.shared.log) = rounds.flatMap (exchange c) ++ l

theorem Session.quiet {s s' : Server n} {c rounds} (h : s.Session c rounds) {l : List Event}
    (hist : history c s'.shared.log = history c s.shared.log ++ l)
    (hreceived : Webserver.received l = []) (htalk : Webserver.talk l = [])
    (hbuffer : (s'.shared.heap c).buffer = (s.shared.heap c).buffer)
    (hflag : (s'.shared.heap c).processingRequest = (s.shared.heap c).processingRequest)
    (said : ∀ l, s.Said c l → s'.Said c l) : s'.Session c rounds := by
  refine ⟨h.past, ?_, ?_, ?_, ?_⟩
  · rw [hist, received_append, hreceived, List.append_nil, h.received, hbuffer]
  · rw [hflag, hbuffer]
    exact h.waiting
  · rw [hflag, hbuffer]
    exact h.busy
  · obtain ⟨l', hl', heq⟩ := h.talk
    exact ⟨l', said l' hl', by rw [hist, talk_append, htalk, List.append_nil, heq]⟩

theorem Session.stepEvent {s : Server n} {c rounds i sh pc own} (h : s.Session c rounds)
    (hb : s.Bounded) (ht : s.Tasked c) (hok : apart c s (.event i))
    (he : s.event.exec s.shared i = some (sh, pc)) :
    ∃ rounds, Session { s with shared := sh, event := pc, owner := own } c rounds := by
  cases EventPc.exec_touch c he with
  | away heap hist =>
    exact ⟨rounds, h.quiet (l := []) (by simpa using hist) rfl rfl (by rw [heap]) (by rw [heap])
      fun _ hl => hl.congr rfl (by rw [heap])⟩
  | noted e note heap hist =>
    have hnote : ∀ e' ∈ [e], e'.isNote := fun e' he' => List.mem_singleton.mp he' ▸ note
    exact ⟨rounds, h.quiet hist
      (keepsInput_adds fun e' he' => Event.keepsInput_of_isNote (hnote e' he')).1
      (talk_eq_nil fun e' he' => .inl (hnote e' he')) (by rw [heap]) (by rw [heap])
      fun _ hl => hl.congr rfl (by rw [heap])⟩
  | created fd hc heap hist =>
    have hnil : history c sh.log = [] := by rw [hist, hc, hb.shared.history_created]
    refine ⟨[], nofun, ?_, fun _ p hp => ?_, fun hflag => ?_, [], .nothing fun w st hw => ?_, ?_⟩
    · simp only [hnil, heap]
      rfl
    · simp only [heap] at hp
      rw [List.prefix_nil.mp hp]
      decide
    · simp [heap] at hflag
    · have hcar : (s.worker w).carries = some c := by
        simp [WorkerPc.carries, WorkerPc.stage_of_stageOf hw]
      exact absurd (hb.worker w c (WorkerPc.refs_of_carries hcar)) (by simp [hc])
    · simp only [hnil]
      rfl
  | send ret r ctl next hpc hpc' hsend =>
    obtain ⟨l, hl, hk⟩ := SubPc.sendStep_history hsend
    have same := (SubPc.sendStep_frame hsend).conn
    exact ⟨rounds, h.quiet hl (keepsInput_adds fun e he => Event.keepsInput_of_isOutput (hk e he)).1
      (talk_eq_nil fun e he => .inr (hk e he)) same.buffer same.processing
      fun _ hl => hl.congr rfl same.buffer⟩
  | append fd chunk k hpc fits happ =>
    simp only [apart, hpc, ne_eq, not_true_eq_false, decide_false, Bool.false_or,
      Bool.and_eq_true, Bool.not_eq_true'] at hok
    obtain ⟨hflag, hends⟩ := hok
    -- nothing of the request has been said, as no worker has a task
    obtain ⟨l, hsaid, htalk⟩ := h.talk
    have hnone := ht.no_stage hflag
    obtain rfl : l = [] := hsaid.eq_nil ht hflag
    have hreceived := h.received
    cases EventPc.appendStep_cases fits happ with
    | completes _ complete heap hist =>
      refine ⟨rounds, h.past, ?_, fun hflag' => ?_, fun _ => ?_, [], .nothing fun w st hw => ?_, ?_⟩
      · simp only [hist, heap, received_append, hreceived]
        simp [Webserver.received]
      · simp [heap] at hflag'
      · simpa [heap] using
          (⟨complete, endsFirst_iff.mp hends⟩ : Single ((s.shared.heap c).buffer ++ chunk))
      · rw [hnone w] at hw
        cases hw
      · simp only [hist, talk_append, htalk]
        simp [Webserver.talk, Event.isTalk]
    | waits incomplete heap hist =>
      refine ⟨rounds, h.past, ?_, fun _ p hpre => ?_, fun hflag' => ?_, [],
        .nothing fun w st hw => ?_, ?_⟩
      · simp only [hist, heap, received_append, hreceived]
        simp [Webserver.received]
      · simp only [heap] at hpre
        by_cases hne : p = (s.shared.heap c).buffer ++ chunk
        · rw [hne, incomplete hflag]
        · exact endsFirst_iff.mp hends p hpre hne
      · simp [heap, hflag] at hflag'
      · rw [hnone w] at hw
        cases hw
      · simp only [hist, talk_append, htalk]
        simp [Webserver.talk, Event.isTalk]

theorem Session.stepWorker {s : Server n} {c rounds w i sh pc own} (h : s.Session c rounds)
    (ht : s.Tasked c) (hok : apart c s (.worker w i))
    (he : (s.worker w).exec s.shared i = some (sh, pc)) :
    ∃ rounds, Session { s with shared := sh, worker := Function.update s.worker w pc, owner := own } c
      rounds := by
  have hanswers : ∀ {input}, (s.worker w).stageOf c = some .answering →
      (s.worker w).answers input → pc.answers input := by
    intro input hst ha
    refine WorkerPc.exec_answers he ha fun c' hpc => ?_
    rw [hpc] at hst
    have := WorkerPc.stage_of_stageOf hst
    cases this
  cases WorkerPc.exec_touch c he with
  | away heap hist _ stage =>
    exact ⟨rounds, h.quiet (l := []) (by simpa using hist) rfl rfl (by rw [heap]) (by rw [heap])
      fun _ hl => hl.worker (by rw [heap]) stage hanswers⟩
  | unregistered heap hist _ stage =>
    exact ⟨rounds, h.quiet (l := [.unregistered c]) hist rfl rfl (by rw [heap]) (by rw [heap])
      fun _ hl => hl.worker (by rw [heap]) stage hanswers⟩
  | send c' r ctl next hpc hpc' hsend =>
    obtain ⟨l, hl, hk⟩ := SubPc.sendStep_history hsend
    have same := (SubPc.sendStep_frame hsend).conn
    have stage : (WorkerPc.resume c' next).stageOf c = (WorkerPc.sub (.send c) c').stageOf c :=
      WorkerPc.stageOf_congr (WorkerPc.stage_resume c' next)
    exact ⟨rounds, h.quiet hl (keepsInput_adds fun e he => Event.keepsInput_of_isOutput (hk e he)).1
      (talk_eq_nil fun e he => .inr (hk e he)) same.buffer same.processing
      fun _ hl => hl.worker same.buffer (by rw [hpc, hpc', stage]) hanswers⟩
  | keep request hpc hs hpc' =>
    have stage : pc.stageOf c = (s.worker w).stageOf c := by
      rw [hpc, hpc', WorkerPc.stageOf_of_stage rfl, WorkerPc.stageOf_of_stage rfl]
    subst hs
    exact ⟨rounds, h.quiet (l := []) (by simp [Shared.setConn]) rfl rfl (by simp [Shared.setConn])
      (by simp [Shared.setConn]) fun _ hl => hl.worker (by simp [Shared.setConn]) stage hanswers⟩
  | taken hpc hs hpc' heap log =>
    refine ⟨rounds, h.quiet (l := []) (by simp [log]) rfl rfl (by rw [heap]) (by rw [heap])
      fun l hl => ?_⟩
    have idle : ∀ {w' st}, (s.worker w').stageOf c = some st → w' ≠ w := by
      rintro w' st hw' rfl
      rw [hpc] at hw'
      cases hw'
    cases hl with
    | nothing hl =>
      refine .nothing fun w' st (hw' : (Function.update s.worker w pc w').stageOf c = some st) => ?_
      by_cases hne : w' = w
      · subst hne
        rw [Function.update_self, hpc', WorkerPc.stageOf_of_stage rfl] at hw'
        exact (Option.some.inj hw').symm
      · rw [Function.update_of_ne hne] at hw'
        exact hl w' st hw'
    | parsed w' hw' ha =>
      rw [← heap] at ha ⊢
      exact .parsed w' (by simpa [idle hw'] using hw') (by simpa [idle hw'] using ha)
    | stored w' out hw' ho =>
      rw [← heap] at ho ⊢
      exact .stored w' out (by simpa [idle hw'] using hw') ho
  | parse request hpc hr hs hpc' hstage =>
    have hst : (s.worker w).stageOf c = some .waiting := hpc ▸ WorkerPc.stageOf_of_stage rfl
    obtain ⟨l, hsaid, htalk⟩ := h.talk
    rcases hsaid.at_stage ht hst with ⟨-, rfl⟩ | ⟨hne, -⟩ | ⟨hne, -⟩
    · have hist : history c sh.log = history c s.shared.log ++ [.parsed c (s.shared.heap c).buffer] :=
        history_of_eq_emit hs rfl rfl
      have heap : sh.heap = s.shared.heap := by rw [hs]; rfl
      refine ⟨rounds, h.past, ?_, ?_, ?_, [.parsed c (s.shared.heap c).buffer], ?_, ?_⟩
      · rw [hist, received_append, h.received, heap]
        exact List.append_nil _
      · exact heap ▸ h.waiting
      · exact heap ▸ h.busy
      · refine heap ▸ .parsed w (by simpa using WorkerPc.stageOf_of_stage hstage) ?_
        rw [heap]
        simp only [Function.update_self]
        refine WorkerPc.exec_answers he (by rw [hpc]; trivial) fun c' hc' => ?_
        rw [hpc] at hc'
        cases hc'
        rfl
      · rw [hist, talk_append, htalk, List.append_nil]
        rfl
    · cases hne
    · cases hne
  | missing response hpc hl hs hpc' =>
    simp [apart, hpc, hl] at hok
  | unreg hpc hs hpc' =>
    have hst : (s.worker w).stageOf c = some .leaving := hpc ▸ WorkerPc.stageOf_of_stage rfl
    obtain ⟨l, hsaid, -⟩ := h.talk
    rcases hsaid.at_stage ht hst with ⟨hne, -⟩ | ⟨hne, -⟩ | ⟨hne, -⟩ <;> cases hne
  | store response hpc hs hpc' =>
    have hst : (s.worker w).stageOf c = some .answering := hpc ▸ WorkerPc.stageOf_of_stage rfl
    obtain ⟨l, hsaid, htalk⟩ := h.talk
    rcases hsaid.at_stage ht hst with ⟨hne, -⟩ | ⟨-, ha, rfl⟩ | ⟨hne, -⟩
    · cases hne
    · rw [hpc] at ha
      have hist : history c sh.log =
          history c s.shared.log ++ [.stored c (response.toString s.shared.order)] :=
        history_of_eq_emit hs rfl rfl
      have hbuffer : (sh.heap c).buffer = (s.shared.heap c).buffer := by
        simp [hs, Shared.setConn, Shared.emit]
      have hflag : (sh.heap c).processingRequest = (s.shared.heap c).processingRequest := by
        simp [hs, Shared.setConn, Shared.emit]
      refine ⟨rounds, h.past, ?_, ?_, ?_, _, .stored w _ ?_ (hbuffer.symm ▸ ha s.shared.order), ?_⟩
      · rw [hist, received_append, h.received, hbuffer]
        exact List.append_nil _
      · rw [hflag, hbuffer]
        exact h.waiting
      · rw [hflag, hbuffer]
        exact h.busy
      · simpa [hpc'] using (WorkerPc.stageOf_of_stage rfl : WorkerPc.stageOf (.sub (.sendLock c) c) c = _)
      · rw [hist, talk_append, htalk, hbuffer, List.append_assoc]
        rfl
    · cases hne
  | finish hpc hs hpc' =>
    have hst : (s.worker w).stageOf c = some .sending := hpc ▸ WorkerPc.stageOf_of_stage rfl
    obtain ⟨l, hsaid, htalk⟩ := h.talk
    rcases hsaid.at_stage ht hst with ⟨hne, -⟩ | ⟨hne, -⟩ | ⟨-, out, ho, rfl⟩
    · cases hne
    · cases hne
    · obtain ⟨hbusy, -, hnone⟩ := ht.alone hst
      have hist : history c sh.log = history c s.shared.log ++ [.cleared c] :=
        history_of_eq_emit hs rfl rfl
      have hbuffer : (sh.heap c).buffer = [] := by simp [hs, Shared.setConn, Shared.emit]
      have hflag : (sh.heap c).processingRequest = false := by simp [hs, Shared.setConn, Shared.emit]
      refine ⟨rounds ++ [((s.shared.heap c).buffer, out)], ?_, ?_, fun _ p hp => ?_, fun hf => ?_, [],
        .nothing fun w' st (hw' : (Function.update s.worker w pc w').stageOf c = some st) => ?_, ?_⟩
      · intro r hr
        rcases List.mem_append.mp hr with hr | hr
        · exact h.past r hr
        · rw [List.mem_singleton.mp hr]
          exact ⟨h.busy hbusy, ho⟩
      · rw [hist, received_append, h.received, hbuffer]
        simp [Webserver.received]
      · rw [hbuffer] at hp
        rw [List.prefix_nil.mp hp]
        decide
      · rw [hflag] at hf
        cases hf
      · by_cases hne : w' = w
        · subst hne
          rw [Function.update_self, hpc'] at hw'
          cases hw'
        · rw [Function.update_of_ne hne, hnone w' hne] at hw'
          cases hw'
      · rw [hist, talk_append, htalk]
        simp [exchange, Webserver.talk, Event.isTalk]

theorem session {c : ConnId} {s : Server n} (h : (system n).ReachableBy (fun s a => apart c s a) s) :
    ∃ rounds, s.Session c rounds := by
  refine h.invariant (I := fun s => ∃ rounds, s.Session c rounds) ?_ ?_
  · intro s hinit
    obtain ⟨_, _, _, _, rfl⟩ := hinit
    refine ⟨[], nofun, rfl, fun _ p hp => ?_, nofun, [], .nothing nofun, rfl⟩
    rw [List.prefix_nil.mp hp]
    decide
  rintro s a s' hr ⟨rounds, hi⟩ hok hs
  cases step_cases hs with
  | event i sh pc he => exact hi.stepEvent (bounded hr) (tasked hr c) hok he
  | worker w i sh pc he => exact hi.stepWorker (tasked hr c) hok he
  | stop wl el sh pc he =>
    obtain ⟨heap, -, -, hist, -⟩ := StopPc.exec_frame he
    exact ⟨rounds, hi.quiet (l := []) (by simp [hist]) rfl rfl (by rw [heap]) (by rw [heap])
      fun l hl => hl.congr rfl (by rw [heap])⟩
  | tick =>
    exact ⟨rounds, hi.quiet (l := []) (by simp) rfl rfl rfl rfl
      fun l hl => hl.congr rfl rfl⟩

/-! ## Every request is answered -/

/-- **Every request of a kept connection is answered**, where its steps leave
the requests apart: each chunk of them fits; and once all their bytes have been
received and no task is left, each has been parsed from its own bytes and then
had its response stored, one after the other. -/
theorem requests_answered {ms : List RawMessage} (hm : ∀ m ∈ ms, m.WellFormed)
    (hsize : ∀ m ∈ ms, m.toBytes.length ≤ maxRequestSize) {c : ConnId} {s : Server n}
    (h : (system n).ReachableBy (fun s a => apart c s a) s) :
    (∀ fd chunk k, s.event = .dataAppend fd c chunk k → apart c s (.event .go) →
      received (history c s.shared.log) ++ chunk <+: (ms.map (·.toBytes)).flatten →
      EventPc.overflows s.shared c chunk = false) ∧
    (received (history c s.shared.log) = (ms.map (·.toBytes)).flatten → s.tasksOf c = 0 →
      ∃ outs, List.Forall₂ (fun m out => RespondsTo m.toBytes out) ms outs ∧
        talk (history c s.shared.log) = ((ms.map (·.toBytes)).zip outs).flatMap (exchange c) ∧
        parses (history c s.shared.log) = ms.map (·.toBytes) ∧
        responses (history c s.shared.log) = outs) := by
  obtain ⟨rounds, hs⟩ := session h
  have hinputs : ∀ b ∈ rounds.map (·.1), Single b := by
    intro b hb
    obtain ⟨r, hr, rfl⟩ := List.mem_map.mp hb
    exact (hs.past r hr).1
  have hmessages : ∀ b ∈ ms.map (·.toBytes), Single b := by
    intro b hb
    obtain ⟨m, hmem, rfl⟩ := List.mem_map.mp hb
    exact (hm m hmem).single (hsize m hmem)
  refine ⟨fun fd chunk k hpc hok hp => ?_, fun he hnone => ?_⟩
  · have hends : endsFirst ((s.shared.heap c).buffer ++ chunk) = true := by
      simp only [apart, hpc, ne_eq, not_true_eq_false, decide_false, Bool.false_or,
        Bool.and_eq_true] at hok
      exact hok.2
    rw [hs.received, List.append_assoc] at hp
    obtain ⟨later, hlater, hrest⟩ := split_beginning hinputs hmessages hp
    have hlater' : ∀ b ∈ later, Single b := fun b hb => hmessages b (hlater ▸ List.mem_append_right _ hb)
    have hlen : ((s.shared.heap c).buffer ++ chunk).length ≤ maxRequestSize := by
      rcases prefix_of_endsFirst hlater' hends hrest with hnil | ⟨b, hb, hpre⟩
      · simp [hnil]
      · have hmap : b ∈ ms.map (·.toBytes) := hlater ▸ List.mem_append_right _ hb
        obtain ⟨m, hmem, rfl⟩ := List.mem_map.mp hmap
        exact hpre.length_le.trans (hsize m hmem)
    rw [List.length_append] at hlen
    rw [EventPc.overflows, decide_eq_false_iff_not]
    omega
  · have hflag : (s.shared.heap c).processingRequest = false := by
      have := (flagged_eq h).symm.trans hnone
      by_contra hbusy
      simp [Shared.flagged, hbusy] at this
    obtain ⟨l, hsaid, htalk⟩ := hs.talk
    obtain rfl : l = [] := hsaid.eq_nil (tasked h c) hflag
    rw [List.append_nil] at htalk
    rw [hs.received] at he
    have hrounds := split_unique hinputs hmessages (hs.waiting hflag) he
    refine ⟨rounds.map (·.2), ?_, ?_, ?_, ?_⟩
    · have hall : List.Forall₂ (fun b out => RespondsTo b out) (rounds.map (·.1)) (rounds.map (·.2)) := by
        rw [List.forall₂_map_left_iff, List.forall₂_map_right_iff, List.forall₂_same]
        exact fun r hr => (hs.past r hr).2
      rw [hrounds, List.forall₂_map_left_iff] at hall
      exact hall
    · rw [← hrounds, List.zip_map', htalk]
      simp
    · rw [← parses_talk, htalk, parses_exchanges, hrounds]
    · rw [← responses_talk, htalk, responses_exchanges]

/-- Two requests, the second after the first has been answered. -/
theorem requests_answered_two : ∃ s : Server 1, (system 1).ReachableBy (fun s a => apart 0 s a) s ∧
    parses (history 0 s.shared.log) = [getMessage, getMessage].map (·.toBytes) := by
  obtain ⟨s, hr, hs⟩ := System.exists_reachableBy init_fresh (fun s a => apart 0 s a)
    (answered ++ receiveRequest 7 getRequest 1 ++
      workerSteps (answerInputs ++ respondInputs (.accepts pageBytes.length) ++ finishInputs))
    (fun s => decide (received (history 0 s.shared.log) =
      ([getMessage, getMessage].map (·.toBytes)).flatten ∧ s.tasksOf 0 = 0)) (by decide +kernel)
  obtain ⟨he, hnone⟩ := of_decide_eq_true hs
  have hm : ∀ m ∈ [getMessage, getMessage], m = getMessage := by simp
  obtain ⟨outs, -, -, hparses, -⟩ := (requests_answered
    (fun m hmem => hm m hmem ▸ getMessage_wellFormed)
    (fun m hmem => hm m hmem ▸ by decide +kernel) hr).2 he hnone
  exact ⟨s, hr, hparses⟩

/-- The same two in one chunk: the second is cleared with the first. -/
theorem not_requests_answered : ¬ ∀ (n : Nat) (s : Server n), (system n).Reachable s →
    ∀ (c : ConnId) (ms : List RawMessage), (∀ m ∈ ms, m.WellFormed) →
      (∀ m ∈ ms, m.toBytes.length ≤ maxRequestSize) →
      received (history c s.shared.log) = (ms.map (·.toBytes)).flatten → s.tasksOf c = 0 →
      parses (history c s.shared.log) = ms.map (·.toBytes) ∧
        (responses (history c s.shared.log)).length = ms.length := by
  intro h
  obtain ⟨s, hr, hs⟩ := System.exists_reachable init_fresh
    (acceptClient 7 1 ++ receiveRequest 7 (getRequest ++ getRequest) 1 ++
      workerSteps (answerInputs ++ respondInputs (.accepts pageBytes.length) ++ finishInputs))
    (fun s => decide (received (history 0 s.shared.log) =
      ([getMessage, getMessage].map (·.toBytes)).flatten ∧ s.tasksOf 0 = 0 ∧
        (responses (history 0 s.shared.log)).length = 1)) (by decide +kernel)
  obtain ⟨he, hnone, hone⟩ := of_decide_eq_true hs
  have hm : ∀ m ∈ [getMessage, getMessage], m = getMessage := by simp
  have := (h 1 s hr 0 [getMessage, getMessage] (fun m hmem => hm m hmem ▸ getMessage_wellFormed)
    (fun m hmem => hm m hmem ▸ by decide +kernel) he hnone).2
  rw [hone] at this
  cases this

end Server

end Webserver
