/-
Requests and replies. For each connection the server takes turns: it parses
the request in the buffer, builds a response for it and stores the response's
bytes. The client reads the replies of the turns, in their order.
-/
import Webserver.Replies
import Webserver.Sessions
import Webserver.Stream

namespace Webserver

open Cxx HttpResponse Locks Systems

/-! ## Turns -/

/-- What `handle_client_request` makes of a response that ends itself ends itself. -/
theorem delimited_buildResponse {served : HttpResponse} {date : Bytes} (hserved : served.Delimited)
    (hdate : Unbroken date) (request : HttpRequest) : (buildResponse request served date).Delimited := by
  unfold buildResponse
  split_ifs
  · exact delimited_createErrorResponse hdate _ _
  · exact hserved
  · exact hserved.writable.delimited_setBody []
  · exact delimited_createErrorResponse hdate _ _

/-- A response to the request in `input`, from one of those the handlers may
serve it. -/
def BuiltFrom (May : HttpRequest → HttpResponse → Prop) (input : Bytes) (r : HttpResponse) : Prop :=
  ∃ (served : HttpResponse) (date : Bytes) (keepAlive : Bool), May (HttpRequest.parse input) served ∧
    Unbroken date ∧ r = (buildResponse (HttpRequest.parse input) served date).setKeepAlive keepAlive

theorem BuiltFrom.delimited {May : HttpRequest → HttpResponse → Prop} {input : Bytes} {r : HttpResponse}
    (h : BuiltFrom May input r) (hmay : ∀ request served, May request served → served.Delimited) :
    r.Delimited := by
  obtain ⟨served, date, keepAlive, hserved, hdate, rfl⟩ := h
  exact (delimited_buildResponse (hmay _ _ hserved) hdate _).setKeepAlive keepAlive

/-- A request as it was parsed, the response built for it, and the order its
headers were written in. -/
structure Turn where
  input : Bytes
  response : HttpResponse
  order : MapOrder

namespace Turn

def out (t : Turn) : Bytes := t.response.toString t.order

def reply (t : Turn) : Reply := t.response.reply t.order

/-- The responses of turns are built for the requests the turns were taken for. -/
theorem forall₂_responses {May : HttpRequest → HttpResponse → Prop} {ms : List RawMessage} {turns : List Turn}
    (hinputs : turns.map (·.input) = ms.map (·.toBytes))
    (hproper : ∀ t ∈ turns, BuiltFrom May t.input t.response) :
    List.Forall₂ (fun m (r : HttpResponse × MapOrder) => BuiltFrom May m.toBytes r.1) ms
      (turns.map fun t => (t.response, t.order)) := by
  have hbuilt : List.Forall₂ (fun b (t : Turn) => BuiltFrom May b t.response) (turns.map (·.input)) turns := by
    rw [List.forall₂_map_left_iff, List.forall₂_same]
    exact hproper
  rw [hinputs, List.forall₂_map_left_iff] at hbuilt
  rw [List.forall₂_map_right_iff]
  exact hbuilt

theorem delimits {May : HttpRequest → HttpResponse → Prop}
    (hmay : ∀ request served, May request served → served.Delimited) :
    Messages.Delimits takeReply out reply fun t => BuiltFrom May t.input t.response where
  whole t h := (HttpResponse.delimits t.order).whole t.response (h.delimited hmay)
  part t h := (HttpResponse.delimits t.order).part t.response (h.delimited hmay)
  nothing := rfl

end Turn

/-! ## The steps of a turn -/

namespace WorkerPc

/-- The worker has parsed `input` and is on its way to a response to it. -/
def builds (May : HttpRequest → HttpResponse → Prop) (input : Bytes) : WorkerPc → Prop
  | keepLock _ request | keep _ request | respond _ request => request = HttpRequest.parse input
  | checkLock _ response | check _ response | checkUnlock _ response | storeLock _ response
  | store _ response => BuiltFrom May input response
  | _ => True

/-- What the handlers serve at this point is what they may. -/
def servedAt (May : HttpRequest → HttpResponse → Prop) : WorkerPc → Input → Prop
  | respond _ request, .serves served date => May request served ∧ Unbroken date
  | _, _ => True

instance {May : HttpRequest → HttpResponse → Prop} [∀ request served, Decidable (May request served)]
    (pc : WorkerPc) (i : Input) : Decidable (pc.servedAt May i) := by
  unfold servedAt
  split <;> infer_instance

theorem exec_builds {May : HttpRequest → HttpResponse → Prop} {s : Shared} {pc : WorkerPc} {i s' pc' input}
    (h : pc.exec s i = some (s', pc')) (hi : pc.servedAt May i) (hb : pc.builds May input)
    (hparse : ∀ c, pc = parse c → (s.heap c).buffer = input) : pc'.builds May input := by
  cases exec_steps h with
  | parse c | parseInvalid c => exact congrArg HttpRequest.parse (hparse c rfl)
  | respond c request served date =>
    obtain rfl : request = HttpRequest.parse input := hb
    exact ⟨served, date, _, hi.1, hi.2, rfl⟩
  | sub p c next => cases next <;> trivial
  | _ => first | exact hb | trivial

end WorkerPc

namespace Server

variable {n : Nat}

/-- What the handlers serve in this step is what they may. -/
def servesOnly (May : HttpRequest → HttpResponse → Prop) (s : Server n) : Action n → Prop
  | .worker w i => (s.worker w).servedAt May i
  | _ => True

instance {May : HttpRequest → HttpResponse → Prop} [∀ request served, Decidable (May request served)]
    (s : Server n) (a : Action n) : Decidable (s.servesOnly May a) := by
  unfold servesOnly
  split <;> infer_instance

variable {May : HttpRequest → HttpResponse → Prop}

/-- The request parsed for `c` to which no response is stored yet: a worker is
on its way to one, or has given up as the connection is no longer registered. -/
inductive Owing (May : HttpRequest → HttpResponse → Prop) (s : Server n) (c : ConnId) : List Bytes → Prop
  | nothing (h : ∀ w st, (s.worker w).stageOf c = some st → st = .waiting ∨ st = .sending) : Owing May s c []
  | answering (w input) (hw : (s.worker w).stageOf c = some .answering) (hb : (s.worker w).builds May input) :
      Owing May s c [input]
  | leaving (w input) (hw : (s.worker w).stageOf c = some .leaving) : Owing May s c [input]
  | gone (input) (hflag : (s.shared.heap c).processingRequest = false) (hgone : s.shared.Gone c)
      (hreg : .registered c ∈ s.shared.log) : Owing May s c [input]

theorem Owing.length_le {s : Server n} {c rest} (h : Owing May s c rest) : rest.length ≤ 1 := by
  cases h <;> simp

/-- What is owed where a worker with the task is at a given stage. -/
theorem Owing.at_stage {s : Server n} {c rest w st} (h : Owing May s c rest) (ht : s.Tasked c)
    (hw : (s.worker w).stageOf c = some st) :
    ((st = .waiting ∨ st = .sending) ∧ rest = []) ∨
    (st = .answering ∧ ∃ input, (s.worker w).builds May input ∧ rest = [input]) ∨
    (st = .leaving ∧ ∃ input, rest = [input]) := by
  have only : ∀ {w' st'}, (s.worker w').stageOf c = some st' → w' = w ∧ st' = st := by
    intro w' st' hw'
    obtain rfl := ht.only hw hw'
    exact ⟨rfl, Option.some.inj (hw'.symm.trans hw)⟩
  cases h with
  | nothing h => exact .inl ⟨h w st hw, rfl⟩
  | answering w' input hw' hb =>
    obtain ⟨rfl, rfl⟩ := only hw'
    exact .inr (.inl ⟨rfl, input, hb, rfl⟩)
  | leaving w' input hw' =>
    obtain ⟨rfl, rfl⟩ := only hw'
    exact .inr (.inr ⟨rfl, input, rfl⟩)
  | gone input hflag =>
    rw [(ht.alone hw).1] at hflag
    cases hflag

/-- Nothing is owed before the request is parsed, and once the response is stored. -/
theorem Owing.eq_nil {s : Server n} {c rest w st} (h : Owing May s c rest) (ht : s.Tasked c)
    (hw : (s.worker w).stageOf c = some st) (hst : st = .waiting ∨ st = .sending) : rest = [] := by
  rcases h.at_stage ht hw with ⟨-, hnil⟩ | ⟨rfl, -⟩ | ⟨rfl, -⟩
  · exact hnil
  · rcases hst with hst | hst <;> cases hst
  · rcases hst with hst | hst <;> cases hst

theorem Owing.of_answering {s : Server n} {c rest w} (h : Owing May s c rest) (ht : s.Tasked c)
    (hw : (s.worker w).stageOf c = some .answering) :
    ∃ input, (s.worker w).builds May input ∧ rest = [input] := by
  rcases h.at_stage ht hw with ⟨hne, -⟩ | ⟨-, howes⟩ | ⟨hne, -⟩
  · rcases hne with hne | hne <;> cases hne
  · exact howes
  · cases hne

theorem Owing.of_leaving {s : Server n} {c rest w} (h : Owing May s c rest) (ht : s.Tasked c)
    (hw : (s.worker w).stageOf c = some .leaving) : ∃ input, rest = [input] := by
  rcases h.at_stage ht hw with ⟨hne, -⟩ | ⟨hne, -⟩ | ⟨-, howes⟩
  · rcases hne with hne | hne <;> cases hne
  · cases hne
  · exact howes

theorem Owing.keeps {s s' : Server n} {c rest} (h : Owing May s c rest)
    (stage : ∀ w, (s'.worker w).stageOf c = (s.worker w).stageOf c)
    (builds : ∀ w input, (s.worker w).stageOf c = some .answering → (s.worker w).builds May input →
      (s'.worker w).builds May input)
    (hflag : (s'.shared.heap c).processingRequest = (s.shared.heap c).processingRequest)
    (gone : s.shared.Gone c → .registered c ∈ s.shared.log → s'.shared.Gone c)
    (mono : .registered c ∈ s.shared.log → .registered c ∈ s'.shared.log) : Owing May s' c rest := by
  cases h with
  | nothing h => exact .nothing fun w st hw => h w st ((stage w).symm.trans hw)
  | answering w input hw hb => exact .answering w input ((stage w).trans hw) (builds w input hw hb)
  | leaving w input hw => exact .leaving w input ((stage w).trans hw)
  | gone input hflag' hgone hreg => exact .gone input (hflag.trans hflag') (gone hgone hreg) (mono hreg)

/-- The turns of a connection so far, and the request that is owed a response. -/
structure Takes (May : HttpRequest → HttpResponse → Prop) (s : Server n) (c : ConnId) (turns : List Turn)
    (rest : List Bytes) : Prop where
  proper : ∀ t ∈ turns, BuiltFrom May t.input t.response
  responses : responses (history c s.shared.log) = turns.map Turn.out
  parses : parses (history c s.shared.log) = turns.map (·.input) ++ rest
  short : rest.length ≤ 1
  owing : s.stop.eventJoined = false → Owing May s c rest

theorem mem_log_of_history {s s' : Shared} {c : ConnId} {l} (hist : history c s'.log = history c s.log ++ l)
    {e : Event} (he : e.about = some c) (hm : e ∈ s.log) : e ∈ s'.log := by
  rw [← mem_history he, hist]
  exact List.mem_append_left _ ((mem_history he).mpr hm)

theorem Takes.quiet {s s' : Server n} {c turns rest} (h : Takes May s c turns rest) {l : List Event}
    (hist : history c s'.shared.log = history c s.shared.log ++ l) (htalk : talk l = [])
    (owing : s'.stop.eventJoined = false → Owing May s' c rest) : Takes May s' c turns rest := by
  refine ⟨h.proper, ?_, ?_, h.short, owing⟩
  · rw [hist, responses_append, ← responses_talk l, htalk, h.responses]
    exact List.append_nil _
  · rw [hist, parses_append, ← parses_talk l, htalk, h.parses]
    exact List.append_nil _

theorem Takes.stepEvent {s : Server n} {c turns rest i sh pc own} (h : Takes May s c turns rest)
    (hstop : s.stop.eventJoined = false) (ht : s.Tidy) (htask : s.Tasked c) (hb : s.Bounded)
    (he : s.event.exec s.shared i = some (sh, pc)) :
    ∃ turns rest, Takes May { s with shared := sh, event := pc, owner := own } c turns rest := by
  have gone : s.shared.Gone c → .registered c ∈ s.shared.log → sh.Gone c := by
    intro hg hm
    refine (hg.handles (EventPc.exec_handles ht.event he)).resolve_right fun hreg => ?_
    -- only a connection never registered before is about to be
    obtain ⟨fd, k, hev⟩ := hreg
    have hk := ht.event
    rw [(Prod.mk.inj (Option.some.inj hev)).1] at hk
    exact hk.2.unregistered hm
  have quiet : ∀ {l : List Event}, history c sh.log = history c s.shared.log ++ l → talk l = [] →
      (sh.heap c).processingRequest = (s.shared.heap c).processingRequest →
      ∃ turns rest, Takes May { s with shared := sh, event := pc, owner := own } c turns rest :=
    fun hist htalk hflag => ⟨turns, rest, h.quiet hist htalk fun _ =>
      (h.owing hstop).keeps (fun _ => rfl) (fun _ _ _ hb => hb) hflag gone (mem_log_of_history hist rfl)⟩
  cases EventPc.exec_touch c he with
  | away heap hist => exact quiet (l := []) (by simpa using hist) rfl (by rw [heap])
  | noted e note heap hist =>
    exact quiet hist (talk_eq_nil fun e' he' => .inl (List.mem_singleton.mp he' ▸ note)) (by rw [heap])
  | created fd hc heap hist =>
    have hnil : history c sh.log = [] := by rw [hist, hc, hb.shared.history_created]
    refine ⟨[], [], nofun, ?_, ?_, Nat.zero_le 1, fun _ => .nothing fun w st hw => ?_⟩
    · simp only [hnil]
      rfl
    · simp only [hnil]
      rfl
    · have hcar : (s.worker w).carries = some c := by
        simp [WorkerPc.carries, WorkerPc.stage_of_stageOf hw]
      exact absurd (hb.worker w c (WorkerPc.refs_of_carries hcar)) (by simp [hc])
  | send ret r ctl next hpc hpc' hsend =>
    obtain ⟨l, hl, hk⟩ := SubPc.sendStep_history hsend
    exact quiet hl (talk_eq_nil fun e he => .inr (hk e he)) (SubPc.sendStep_frame hsend).conn.processing
  | append fd chunk k hpc fits happ =>
    cases EventPc.appendStep_cases fits happ with
    | completes idle _ heap hist =>
      have hl : s.shared.connections.lookup fd = some c := by
        have hk := ht.event
        rw [hpc] at hk
        exact hk
      refine ⟨turns, rest, h.quiet hist (by simp [talk, Event.isTalk]) fun _ => ?_⟩
      have hnone := htask.no_stage idle
      cases h.owing hstop with
      | nothing hstages => exact .nothing hstages
      | answering w input hw | leaving w input hw =>
        rw [hnone w] at hw
        cases hw
      | gone input hflag hgone => exact absurd hl (hgone fd)
    | waits incomplete heap hist =>
      exact quiet (l := [.received c chunk]) hist (by simp [talk, Event.isTalk]) (by rw [heap])

theorem Takes.stepWorker {s : Server n} {c turns rest w i sh pc own} (h : Takes May s c turns rest)
    (hstop : s.stop.eventJoined = false) (ht : s.Tidy) (htask : s.Tasked c) (ha : s.Attends c)
    (hr : s.Rounds c) (hi : (s.worker w).servedAt May i)
    (he : (s.worker w).exec s.shared i = some (sh, pc)) :
    ∃ turns rest, Takes May { s with shared := sh, worker := Function.update s.worker w pc, owner := own } c
      turns rest := by
  have howing := h.owing hstop
  have gone : s.shared.Gone c → .registered c ∈ s.shared.log → sh.Gone c := fun hg _ =>
    (hg.handles (WorkerPc.exec_handles (ht.worker w) he)).resolve_right (by simp)
  -- a step after which the worker's task is as far as before
  have quiet : ∀ {l : List Event}, history c sh.log = history c s.shared.log ++ l → talk l = [] →
      (sh.heap c).processingRequest = (s.shared.heap c).processingRequest →
      pc.stageOf c = (s.worker w).stageOf c →
      ∃ turns rest, Takes May { s with shared := sh, worker := Function.update s.worker w pc, owner := own } c
        turns rest := by
    intro l hist htalk hflag hstage
    refine ⟨turns, rest, h.quiet hist htalk fun _ => howing.keeps (fun w' => ?_) (fun w' input hw' hb => ?_)
      hflag gone (mem_log_of_history hist rfl)⟩
    · by_cases hne : w' = w
      · subst hne
        simpa using hstage
      · simp [Function.update_of_ne hne]
    · by_cases hne : w' = w
      · subst hne
        simp only [Function.update_self]
        refine WorkerPc.exec_builds he hi hb fun c' hc' => ?_
        rw [hc'] at hw'
        cases WorkerPc.stage_of_stageOf hw'
      · simpa [Function.update_of_ne hne] using hb
  -- a step of the only worker with a task of the connection
  have nothing : ∀ {st}, (s.worker w).stageOf c = some st →
      (∀ st', pc.stageOf c = some st' → st' = .waiting ∨ st' = .sending) →
      Owing May { s with shared := sh, worker := Function.update s.worker w pc, owner := own } c [] := by
    refine fun hst hpc => .nothing fun w' st'
      (hw' : (Function.update s.worker w pc w').stageOf c = some st') => ?_
    obtain rfl := htask.only_update hst hw'
    exact hpc st' (by simpa using hw')
  cases WorkerPc.exec_touch c he with
  | away heap hist _ stage => exact quiet (l := []) (by simpa using hist) rfl (by rw [heap]) stage
  | unregistered heap hist _ stage => exact quiet (l := [.unregistered c]) hist rfl (by rw [heap]) stage
  | send c' r ctl next hpc hpc' hsend =>
    obtain ⟨l, hl, hk⟩ := SubPc.sendStep_history hsend
    refine quiet hl (talk_eq_nil fun e he => .inr (hk e he)) (SubPc.sendStep_frame hsend).conn.processing ?_
    rw [hpc, hpc']
    exact WorkerPc.stageOf_congr (WorkerPc.stage_resume c' next)
  | keep request hpc hs hpc' =>
    refine quiet (l := []) (by simp [hs, Shared.setConn]) rfl (by simp [hs, Shared.setConn]) ?_
    rw [hpc, hpc', WorkerPc.stageOf_of_stage rfl, WorkerPc.stageOf_of_stage rfl]
  | taken hpc hs hpc' heap log =>
    have hist : history c sh.log = history c s.shared.log ++ [] := by simp [log]
    have idle : ∀ {w' st}, (s.worker w').stageOf c = some st → w' ≠ w := by
      rintro w' st hw' rfl
      rw [hpc] at hw'
      cases hw'
    refine ⟨turns, rest, h.quiet hist rfl fun _ => ?_⟩
    cases howing with
    | nothing hstages =>
      refine .nothing fun w' st (hw' : (Function.update s.worker w pc w').stageOf c = some st) => ?_
      by_cases hne : w' = w
      · subst hne
        rw [Function.update_self, hpc', WorkerPc.stageOf_of_stage rfl] at hw'
        exact .inl (Option.some.inj hw').symm
      · rw [Function.update_of_ne hne] at hw'
        exact hstages w' st hw'
    | answering w' input hw' hb =>
      exact .answering w' input (by simpa [idle hw'] using hw') (by simpa [idle hw'] using hb)
    | leaving w' input hw' => exact .leaving w' input (by simpa [idle hw'] using hw')
    | gone input hflag hgone hreg =>
      exact .gone input (by simpa [heap] using hflag) (gone hgone hreg) (mem_log_of_history hist rfl hreg)
  | parse request hpc hr' hs hpc' hstage =>
    have hst : (s.worker w).stageOf c = some .waiting := hpc ▸ WorkerPc.stageOf_of_stage rfl
    obtain rfl := howing.eq_nil htask hst (.inl rfl)
    have hist : history c sh.log = history c s.shared.log ++ [.parsed c (s.shared.heap c).buffer] :=
      history_of_eq_emit hs rfl rfl
    refine ⟨turns, [(s.shared.heap c).buffer], h.proper, ?_, ?_, Nat.le_refl 1, fun _ =>
      .answering w _ (by simpa using WorkerPc.stageOf_of_stage hstage) ?_⟩
    · rw [hist, responses_append, h.responses]
      exact List.append_nil _
    · rw [hist, parses_append, h.parses, List.append_nil]
      rfl
    · simp only [Function.update_self]
      refine WorkerPc.exec_builds he hi (by rw [hpc]; trivial) fun c' hc' => ?_
      rw [hpc] at hc'
      cases hc'
      rfl
  | missing response hpc hl hs hpc' =>
    have hst : (s.worker w).stageOf c = some .answering := hpc ▸ WorkerPc.stageOf_of_stage rfl
    obtain ⟨input, -, rfl⟩ := howing.of_answering htask hst
    refine ⟨turns, [input], h.quiet (l := []) (by simp [hs]) rfl fun _ => .leaving w input ?_⟩
    simpa [hpc'] using (WorkerPc.stageOf_of_stage rfl : (WorkerPc.unregLock c).stageOf c = _)
  | unreg hpc hs hpc' =>
    have hst : (s.worker w).stageOf c = some .leaving := hpc ▸ WorkerPc.stageOf_of_stage rfl
    obtain ⟨input, rfl⟩ := howing.of_leaving htask hst
    have hreg := hr.registered (htask.alone hst).1
    have hist : history c sh.log = history c s.shared.log ++ [] := by simp [hs, Shared.setConn]
    exact ⟨turns, [input], h.quiet hist rfl fun _ => .gone input (by simp [hs, Shared.setConn])
      (gone (ha.gone w hst) hreg) (mem_log_of_history hist rfl hreg)⟩
  | store response hpc hs hpc' =>
    have hst : (s.worker w).stageOf c = some .answering := hpc ▸ WorkerPc.stageOf_of_stage rfl
    obtain ⟨input, hb, rfl⟩ := howing.of_answering htask hst
    rw [hpc] at hb
    have hist : history c sh.log = history c s.shared.log ++ [.stored c (response.toString s.shared.order)] :=
      history_of_eq_emit hs rfl rfl
    refine ⟨turns ++ [⟨input, response, s.shared.order⟩], [], ?_, ?_, ?_, Nat.zero_le 1, fun _ =>
      nothing hst fun st' hst' => .inr ?_⟩
    · intro t htm
      rcases List.mem_append.mp htm with htm | htm
      · exact h.proper t htm
      · exact List.mem_singleton.mp htm ▸ hb
    · rw [hist, responses_append, h.responses, List.map_append]
      rfl
    · rw [hist, parses_append, h.parses, List.map_append, List.append_nil]
      exact List.append_nil _
    · rw [hpc', WorkerPc.stageOf_of_stage rfl] at hst'
      exact (Option.some.inj hst').symm
  | finish hpc hs hpc' =>
    have hst : (s.worker w).stageOf c = some .sending := hpc ▸ WorkerPc.stageOf_of_stage rfl
    obtain rfl := howing.eq_nil htask hst (.inr rfl)
    refine ⟨turns, [], h.quiet (l := [.cleared c]) (history_of_eq_emit hs rfl rfl) rfl fun _ =>
      nothing hst fun st' hst' => ?_⟩
    rw [hpc'] at hst'
    cases hst'

theorem takes {c : ConnId} {s : Server n} (h : (system n).ReachableBy (fun s a => s.servesOnly May a) s) :
    ∃ turns rest, Takes May s c turns rest := by
  refine h.invariant (I := fun s => ∃ turns rest, Takes May s c turns rest) ?_ ?_
  · intro s hinit
    obtain ⟨_, _, _, _, rfl⟩ := hinit
    exact ⟨[], [], nofun, rfl, rfl, Nat.zero_le 1, fun _ => .nothing nofun⟩
  rintro s a s' hr ⟨turns, rest, hi⟩ hok hs
  cases step_cases hs with
  | event i sh pc he =>
    have hstop := (joined hr).not_joined_of_event he
    exact hi.stepEvent hstop (tidy hr hstop) (tasked hr c) (bounded hr) he
  | worker w i sh pc he =>
    have hstop := (joined hr).not_joined_of_worker he
    exact hi.stepWorker hstop (tidy hr hstop) (tasked hr c) (attends hr hstop) (rounds hr hstop) hok he
  | stop wl el sh pc he =>
    obtain ⟨heap, -, -, hist, hframe⟩ := StopPc.exec_frame he
    refine ⟨turns, rest, hi.quiet (l := []) (by simp [hist]) rfl fun hstop' => ?_⟩
    have hstop := StopPc.not_joined_before he hstop'
    refine (hi.owing hstop).keeps (fun _ => rfl) (fun _ _ _ hb => hb) (by rw [heap]) (fun hg _ => ?_)
      (mem_log_of_history (l := []) (by simp [hist]) rfl)
    simpa only [Shared.Gone, (hframe hstop).1] using hg
  | tick =>
    exact ⟨turns, rest, hi.quiet (l := []) (by simp) rfl fun hstop =>
      (hi.owing hstop).keeps (fun _ => rfl) (fun _ _ _ hb => hb) rfl (fun hg _ => hg) fun hm => hm⟩

/-! ## What the client reads -/

/-- Where a response goes to no other client, the bytes handed to a connection's
socket are those handed over for the connection. -/
theorem sentOn_eq {c : ConnId} {s : Server n} (h : (system n).ReachableBy (fun s a => s.keepsNumbers a) s)
    {k : Sock} (hc : c < s.shared.created) (hk : (s.shared.heap c).sock = some k) :
    sentOn k s.shared.log = output (history c s.shared.log) := by
  have hd : s.Delivers := delivers h
  refine sentOn_eq_output (fun k' part hm => Option.some.inj ((hd.sent c k' part hm).symm.trans hk)) ?_
  intro c' part hne hm
  have hlt : c' < s.shared.created := (bounded h).shared.log _ hm c' rfl
  exact hne ((sockets h).distinct c' hlt c hc k (hd.sent c' k part hm) hk)

/-- **The client reads the replies to its own requests**, whole and in order,
and a part of the next at most, as long as no send has failed: the responses
stored for its connection are built for the requests parsed from it, the `j`-th
of what the handlers may serve the `j`-th request, and the `j`-th reply it reads
is that response's. Nothing in a request, a path or a file can begin a reply of
its own. -/
theorem client_reads (hmay : ∀ request served, May request served → served.Delimited) {c : ConnId}
    {s : Server n}
    (h : (system n).ReachableBy
      (fun s a => (!storesOverPending c s a && s.keepsNumbers a) ∧ s.servesOnly May a) s)
    {k : Sock} (hc : c < s.shared.created) (hk : (s.shared.heap c).sock = some k)
    (hopen : ∀ r, .sendFailed c r ∉ s.shared.log) :
    ∃ (turns : List Turn) (owed : List Bytes) (j : Nat) (part : Bytes),
      (∀ t ∈ turns, BuiltFrom May t.input t.response) ∧
      parses (history c s.shared.log) = turns.map (·.input) ++ owed ∧ owed.length ≤ 1 ∧
      responses (history c s.shared.log) = turns.map Turn.out ∧
      readReplies (sentOn k s.shared.log) = ((turns.take j).map Turn.reply, part) ∧
      (part = [] ∨ ∃ t, turns[j]? = some t ∧ part <+: t.out ∧ part ≠ t.out) := by
  obtain ⟨turns, owed, ht⟩ := takes (c := c) (h.mono fun _ _ hok => hok.2)
  have hs : s.Streams c := streams (h.mono fun s a hok => (Bool.and_eq_true_iff.mp hok.1).1)
  have hsent := sentOn_eq (h.mono fun s a hok => (Bool.and_eq_true_iff.mp hok.1).2) hc hk
  have hprefix := (hs.slot hopen).output_isPrefixOf
  rw [← hsent, ht.responses] at hprefix
  obtain ⟨j, part, hread, -, hpart⟩ := (Turn.delimits hmay).readAll_part ht.proper hprefix le_rfl
  exact ⟨turns, owed, j, part, ht.proper, ht.parses, ht.short, ht.responses, hread, hpart⟩

/-- A page that shows the path it is at. -/
def pageAt (path : Bytes) : HttpResponse := .createFileResponse (bytes ".html") path []

/-- The handlers serve each request what shows its path. -/
def ownPage (request : HttpRequest) (served : HttpResponse) : Prop :=
  served.Delimited ∧ served.body = request.path

instance (request : HttpRequest) (served : HttpResponse) : Decidable (ownPage request served) :=
  inferInstanceAs (Decidable (_ ∧ _))

def pageAtBytes (path : Bytes) : Bytes := ((pageAt path).setKeepAlive true).toString .newestFirst

def asksPage (path : Bytes) : RawMessage :=
  { requestLine := bytes "GET " ++ path ++ bytes " HTTP/1.1", headers := [], body := [] }

/-- The client asks for the page at `path`, and the kernel takes `k` bytes of it. -/
def answerPage (path : Bytes) (k : Nat) : List (Action 1) :=
  receiveRequest 7 (asksPage path).toBytes 1 ++
    workerSteps ([.go, .go, .go, .go, .go, .serves (pageAt path) [], .go, .go, .go] ++
      respondInputs (.accepts k) ++ finishInputs)

/-- The client asks for one page and then for another. The kernel takes five
bytes of the first, then the rest, and at last five bytes of the second. -/
def readsTwo : List (Action 1) :=
  acceptClient 7 1 ++ answerPage (bytes "/a") 5 ++
    sendMore 7 (.accepts ((pageAtBytes (bytes "/a")).length - 5)) 1 ++ answerPage (bytes "/b") 5

theorem client_reads_answered : ∃ s : Server 1,
    sentOn 0 s.shared.log = pageAtBytes (bytes "/a") ++ (pageAtBytes (bytes "/b")).take 5 ∧
    ∃ (turns : List Turn) (owed : List Bytes) (j : Nat) (part : Bytes),
      (∀ t ∈ turns, BuiltFrom ownPage t.input t.response) ∧
      parses (history 0 s.shared.log) = turns.map (·.input) ++ owed ∧ owed.length ≤ 1 ∧
      responses (history 0 s.shared.log) = turns.map Turn.out ∧
      readReplies (sentOn 0 s.shared.log) = ((turns.take j).map Turn.reply, part) ∧
      (part = [] ∨ ∃ t, turns[j]? = some t ∧ part <+: t.out ∧ part ≠ t.out) := by
  obtain ⟨s, hr, hs⟩ := System.exists_reachableBy init_fresh
    (fun s a => (!storesOverPending 0 s a && s.keepsNumbers a) && s.servesOnly ownPage a) readsTwo
    (fun s => s.shared.created = 1 && (s.shared.heap 0).sock = some 0 &&
      sentOn 0 s.shared.log = pageAtBytes (bytes "/a") ++ (pageAtBytes (bytes "/b")).take 5 &&
      s.shared.log.all fun | .sendFailed _ _ => false | _ => true) (by decide +kernel)
  simp only [Bool.and_eq_true, decide_eq_true_eq, List.all_eq_true] at hs
  obtain ⟨⟨⟨hc, hk⟩, hsent⟩, hopen⟩ := hs
  have hr := hr.mono fun s a hok => (Bool.and_eq_true_iff.mp hok).imp_right of_decide_eq_true
  exact ⟨s, hsent, client_reads (fun _ _ hserved => hserved.1) hr (by simp [hc]) hk
    fun r hm => Bool.noConfusion (hopen _ hm)⟩

/-- The turns of a client that has sent requests, once all their bytes have been
received, no task is left and the slot is empty: one for each request, and what
the client has been sent reads as their replies. -/
theorem turns_read (hmay : ∀ request served, May request served → served.Delimited)
    {ms : List RawMessage} (hm : ∀ m ∈ ms, m.WellFormed) (hsize : ∀ m ∈ ms, m.toBytes.length ≤ maxRequestSize)
    {c : ConnId} {s : Server n}
    (h : (system n).ReachableBy (fun s a => apart c s a ∧
      (!storesOverPending c s a && s.keepsNumbers a) ∧ s.servesOnly May a) s)
    {k : Sock} (hc : c < s.shared.created) (hk : (s.shared.heap c).sock = some k)
    (hopen : ∀ r, .sendFailed c r ∉ s.shared.log)
    (hreceived : received (history c s.shared.log) = (ms.map (·.toBytes)).flatten)
    (hdone : s.tasksOf c = 0) (hempty : (s.shared.heap c).hasPendingWrite = false) :
    ∃ turns : List Turn, turns.map (·.input) = ms.map (·.toBytes) ∧
      (∀ t ∈ turns, BuiltFrom May t.input t.response) ∧
      responses (history c s.shared.log) = turns.map Turn.out ∧
      readReplies (sentOn k s.shared.log) = (turns.map Turn.reply, []) := by
  have happart : (system n).ReachableBy (fun s a => apart c s a) s := h.mono fun _ _ hok => hok.1
  obtain ⟨outs, houts, -, hparses, hresponses⟩ := (requests_answered hm hsize happart).2 hreceived hdone
  obtain ⟨turns, owed, ht⟩ := takes (c := c) (h.mono fun _ _ hok => hok.2.2)
  have hs : s.Streams c := streams (h.mono fun s a hok => (Bool.and_eq_true_iff.mp hok.2.1).1)
  have hsent := sentOn_eq (h.mono fun s a hok => (Bool.and_eq_true_iff.mp hok.2.1).2) hc hk
  rw [(hs.slot hopen).empty hempty, ht.responses] at hsent
  refine ⟨turns, ?_, ht.proper, ht.responses, ?_⟩
  · -- as many turns as requests, so none is owed a response
    have hturns := ht.parses
    have hlength := congrArg List.length (ht.responses.symm.trans hresponses)
    rw [hparses, ← List.append_nil (ms.map _)] at hturns
    rw [List.length_map, ← houts.length_eq] at hlength
    exact (List.append_inj hturns (by simp [hlength])).1.symm
  · rw [hsent, readReplies, (Turn.delimits hmay).readAll_flatten ht.proper le_rfl]

/-- **A client that sends requests reads as many replies**: once all their bytes
have been received, no task is left and the slot is empty, what it has been sent
is one reply after the other, the `i`-th that of the `i`-th response stored, which
is built of what the handlers may serve the `i`-th request, and no byte more. -/
theorem client_reads_all (hmay : ∀ request served, May request served → served.Delimited)
    {ms : List RawMessage} (hm : ∀ m ∈ ms, m.WellFormed) (hsize : ∀ m ∈ ms, m.toBytes.length ≤ maxRequestSize)
    {c : ConnId} {s : Server n}
    (h : (system n).ReachableBy (fun s a => apart c s a ∧
      (!storesOverPending c s a && s.keepsNumbers a) ∧ s.servesOnly May a) s)
    {k : Sock} (hc : c < s.shared.created) (hk : (s.shared.heap c).sock = some k)
    (hopen : ∀ r, .sendFailed c r ∉ s.shared.log)
    (hreceived : received (history c s.shared.log) = (ms.map (·.toBytes)).flatten)
    (hdone : s.tasksOf c = 0) (hempty : (s.shared.heap c).hasPendingWrite = false) :
    ∃ rs : List (HttpResponse × MapOrder), List.Forall₂ (fun m r => BuiltFrom May m.toBytes r.1) ms rs ∧
      responses (history c s.shared.log) = rs.map (fun r => r.1.toString r.2) ∧
      readReplies (sentOn k s.shared.log) = (rs.map fun r => r.1.reply r.2, []) := by
  obtain ⟨turns, hinputs, hproper, hout, hread⟩ :=
    turns_read hmay hm hsize h hc hk hopen hreceived hdone hempty
  refine ⟨turns.map fun t => (t.response, t.order), ?_, ?_, ?_⟩
  · exact Turn.forall₂_responses hinputs hproper
  · rw [hout, List.map_map]
    rfl
  · rw [hread, List.map_map]
    rfl

/-- The kernel takes each of the two pages in two parts. -/
theorem client_reads_all_two : ∃ s : Server 1,
    sentOn 0 s.shared.log = pageAtBytes (bytes "/a") ++ pageAtBytes (bytes "/b") ∧
    ∃ rs : List (HttpResponse × MapOrder),
      List.Forall₂ (fun m r => BuiltFrom ownPage m.toBytes r.1) [asksPage (bytes "/a"), asksPage (bytes "/b")] rs ∧
      responses (history 0 s.shared.log) = rs.map (fun r => r.1.toString r.2) ∧
      readReplies (sentOn 0 s.shared.log) = (rs.map fun r => r.1.reply r.2, []) := by
  obtain ⟨s, hr, hs⟩ := System.exists_reachableBy init_fresh
    (fun s a => apart 0 s a && ((!storesOverPending 0 s a && s.keepsNumbers a) && s.servesOnly ownPage a))
    (readsTwo ++ sendMore 7 (.accepts ((pageAtBytes (bytes "/b")).length - 5)) 1)
    (fun s => (s.shared.created = 1 && (s.shared.heap 0).sock = some 0 &&
      s.shared.log.all fun | .sendFailed _ _ => false | _ => true) &&
      decide (sentOn 0 s.shared.log = pageAtBytes (bytes "/a") ++ pageAtBytes (bytes "/b") ∧
        received (history 0 s.shared.log) =
          ([asksPage (bytes "/a"), asksPage (bytes "/b")].map (·.toBytes)).flatten ∧
        s.tasksOf 0 = 0 ∧ (s.shared.heap 0).hasPendingWrite = false)) (by decide +kernel)
  simp only [Bool.and_eq_true, decide_eq_true_eq, List.all_eq_true] at hs
  obtain ⟨⟨⟨hc, hk⟩, hopen⟩, hsent, hreceived, hdone, hempty⟩ := hs
  have hr := hr.mono fun s a hok =>
    (Bool.and_eq_true_iff.mp hok).imp_right fun h => (Bool.and_eq_true_iff.mp h).imp_right of_decide_eq_true
  have hm : ∀ m ∈ [asksPage (bytes "/a"), asksPage (bytes "/b")], m.WellFormed ∧
      m.toBytes.length ≤ maxRequestSize := by
    simp only [List.mem_cons, List.not_mem_nil, or_false]
    rintro m (rfl | rfl)
    · exact ⟨⟨⟨by decide, by decide +kernel⟩, nofun, .inl ⟨rfl, rfl⟩⟩, by decide +kernel⟩
    · exact ⟨⟨⟨by decide, by decide +kernel⟩, nofun, .inl ⟨rfl, rfl⟩⟩, by decide +kernel⟩
  exact ⟨s, hsent, client_reads_all (fun _ _ hserved => hserved.1) (fun m hmem => (hm m hmem).1)
    (fun m hmem => (hm m hmem).2) hr (by simp [hc]) hk (fun r hm => Bool.noConfusion (hopen _ hm)) hreceived hdone
    hempty⟩

end Server

end Webserver
