/-
Requests and responses in step: a task stores one response, and the next
request of the connection is dispatched only after it, so that the `i`-th
response stored is the one of the `i`-th request dispatched.
-/
import Webserver.Unread

namespace Webserver

open Cxx Locks Systems

/-! ## Dispatched and answered -/

/-- The responses stored for a connection, in order. -/
def responses (hist : List Event) : List Bytes :=
  hist.filterMap fun | .stored _ out => some out | _ => none

/-- How many requests were dispatched. -/
def dispatches (hist : List Event) : Nat := hist.countP fun | .dispatched _ => true | _ => false

def Event.isStored : Event → Bool
  | .stored _ _ => true
  | _ => false

/-- An event that neither dispatches a request nor stores a response. -/
def Event.keepsRound : Event → Bool
  | .dispatched _ | .stored _ _ => false
  | _ => true

theorem Event.keepsRound_of_isNote {e : Event} (h : e.isNote) : e.keepsRound := by
  cases e <;> first | rfl | cases h

theorem Event.keepsRound_of_isOutput {e : Event} (h : e.isOutput) : e.keepsRound := by
  cases e <;> first | rfl | cases h

@[simp] theorem responses_append (hist l : List Event) :
    responses (hist ++ l) = responses hist ++ responses l := List.filterMap_append ..

@[simp] theorem dispatches_append (hist l : List Event) :
    dispatches (hist ++ l) = dispatches hist + dispatches l := List.countP_append ..

theorem Event.not_isStored_of_keepsRound {e : Event} (h : e.keepsRound) : ¬ e.isStored := by
  cases e <;> first | exact Bool.false_ne_true | cases h

theorem responses_eq_nil {l : List Event} (hl : ∀ e ∈ l, ¬ e.isStored) : responses l = [] := by
  refine List.filterMap_eq_nil_iff.mpr fun e he => ?_
  have := hl e he
  cases e <;> first | rfl | exact absurd rfl this

theorem responses_of_keepsRound {l : List Event} (hl : ∀ e ∈ l, e.keepsRound) : responses l = [] :=
  responses_eq_nil fun e he => Event.not_isStored_of_keepsRound (hl e he)

theorem dispatches_of_keepsRound {l : List Event} (hl : ∀ e ∈ l, e.keepsRound) : dispatches l = 0 := by
  refine List.countP_eq_zero.mpr fun e he => ?_
  have := hl e he
  cases e <;> first | exact Bool.false_ne_true | cases this

/-- Whenever a response is stored, one request more has been dispatched than
responses were stored before. -/
def InStep (hist : List Event) : Prop :=
  Whenever (fun e => e.isStored) (fun l => dispatches l = (responses l).length + 1) hist

namespace Server

variable {n : Nat}

/-- A worker has stored the response of a task of `c` and not yet ended it. -/
def sending (s : Server n) (c : ConnId) : Prop := ∃ w, (s.worker w).stageOf c = some .sending

theorem sending_update {s : Server n} {c w pc sh own}
    (h : pc.stageOf c = some .sending ↔ (s.worker w).stageOf c = some .sending) :
    sending { s with shared := sh, worker := Function.update s.worker w pc, owner := own } c ↔
      s.sending c := by
  refine exists_congr fun w' => ?_
  by_cases hw : w' = w
  · subst hw
    simpa using h
  · simp [hw]

theorem Tasked.sending_iff {s : Server n} {c w st} (h : s.Tasked c)
    (hw : (s.worker w).stageOf c = some st) : s.sending c ↔ st = .sending := by
  constructor
  · intro hs
    obtain ⟨w', hw'⟩ := hs
    obtain rfl := h.only hw hw'
    exact Option.some.inj (hw.symm.trans hw')
  · intro hst
    exact ⟨w, hst ▸ hw⟩

/-- The tasks of `c` and its responses: a task owes one response until it has
stored it. A task is given up, and its response with it, only for a
connection that is registered no more and never will be. -/
structure Rounds (s : Server n) (c : ConnId) : Prop where
  registered : (s.shared.heap c).processingRequest = true → .registered c ∈ s.shared.log
  sending : s.sending c →
    dispatches (history c s.shared.log) = (responses (history c s.shared.log)).length
  owing : (s.shared.heap c).processingRequest = true → ¬ s.sending c →
    dispatches (history c s.shared.log) = (responses (history c s.shared.log)).length + 1
  rest : (s.shared.heap c).processingRequest = false →
    dispatches (history c s.shared.log) = (responses (history c s.shared.log)).length ∨
      (s.shared.Gone c ∧ .registered c ∈ s.shared.log)

theorem Rounds.quiet {s s' : Server n} {c} (h : s.Rounds c) {l : List Event}
    (hl : ∀ e ∈ l, e.keepsRound)
    (hist : history c s'.shared.log = history c s.shared.log ++ l)
    (hp : (s'.shared.heap c).processingRequest = (s.shared.heap c).processingRequest)
    (hs : s'.sending c ↔ s.sending c)
    (hg : s.shared.Gone c → .registered c ∈ s.shared.log → s'.shared.Gone c) : s'.Rounds c := by
  have mono : .registered c ∈ s.shared.log → .registered c ∈ s'.shared.log := by
    intro hm
    rw [← mem_history (e := .registered c) rfl, hist]
    exact List.mem_append_left _ ((mem_history rfl).mpr hm)
  have hr : responses (history c s'.shared.log) = responses (history c s.shared.log) := by
    rw [hist, responses_append, responses_of_keepsRound hl, List.append_nil]
  have hd : dispatches (history c s'.shared.log) = dispatches (history c s.shared.log) := by
    rw [hist, dispatches_append, dispatches_of_keepsRound hl, Nat.add_zero]
  refine ⟨fun hp' => mono (h.registered (hp ▸ hp')), fun hs' => ?_, fun hp' hs' => ?_, fun hp' => ?_⟩ <;>
    rw [hd, hr]
  · exact h.sending (hs.mp hs')
  · exact h.owing (hp ▸ hp') fun hs'' => hs' (hs.mpr hs'')
  · exact (h.rest (hp ▸ hp')).imp_right fun hgr => ⟨hg hgr.1 hgr.2, mono hgr.2⟩

theorem Rounds.stepEvent {s : Server n} {i sh pc own c} (h : s.Rounds c) (ht : s.Tidy)
    (htask : s.Tasked c) (hb : s.Bounded) (he : s.event.exec s.shared i = some (sh, pc)) :
    Rounds { s with shared := sh, event := pc, owner := own } c := by
  have gone : s.shared.Gone c → .registered c ∈ s.shared.log → sh.Gone c := by
    intro hg hm
    refine (hg.handles (EventPc.exec_handles ht.event he)).resolve_right fun hreg => ?_
    -- only a connection never registered before is about to be
    obtain ⟨fd, k, hev⟩ := hreg
    have hk := ht.event
    rw [(Prod.mk.inj (Option.some.inj hev)).1] at hk
    exact hk.2.unregistered hm
  cases EventPc.exec_touch c he with
  | away heap hist =>
    exact h.quiet (l := []) nofun (by simpa using hist) (by rw [heap]) Iff.rfl gone
  | noted e note heap hist =>
    refine h.quiet (l := [e]) (fun e' he' => ?_) hist (by rw [heap]) Iff.rfl gone
    exact List.mem_singleton.mp he' ▸ Event.keepsRound_of_isNote note
  | created fd hc heap hist =>
    have hnil : history c sh.log = [] := by rw [hist, hc, hb.shared.history_created]
    have hnot : ¬ s.sending c := by
      intro hs
      obtain ⟨w, hw⟩ := hs
      have hcar : (s.worker w).carries = some c := by
        simp [WorkerPc.carries, WorkerPc.stage_of_stageOf hw]
      exact absurd (hb.worker w c (WorkerPc.refs_of_carries hcar)) (by simp [hc])
    refine ⟨fun hp => ?_, fun hs => absurd hs hnot, fun hp => ?_, fun _ => .inl ?_⟩
    · simp [heap] at hp
    · simp [heap] at hp
    · simp [hnil, dispatches, responses]
  | send ret r ctl next hpc hpc' hsend =>
    obtain ⟨l, hl, hk⟩ := SubPc.sendStep_history hsend
    exact h.quiet (fun e he => Event.keepsRound_of_isOutput (hk e he)) hl
      (SubPc.sendStep_frame hsend).conn.processing Iff.rfl gone
  | append fd chunk k hpc fits happ =>
    cases EventPc.appendStep_cases fits happ with
    | completes idle _ heap hist =>
      -- the connection is registered, so no earlier task was given up
      have hl : s.shared.connections.lookup fd = some c := by
        have hk := ht.event
        rw [hpc] at hk
        exact hk
      have heq := (h.rest idle).resolve_right fun hgr => hgr.1 fd hl
      have hnot : ¬ s.sending c := by
        intro hs
        obtain ⟨w, hw⟩ := hs
        rw [(htask.alone hw).1] at idle
        cases idle
      have hm : .registered c ∈ history c s.shared.log := (mem_history rfl).mpr (ht.logged fd c hl)
      refine ⟨fun _ => (mem_history rfl).mp ?_, fun hs => absurd hs hnot, fun _ _ => ?_, fun hf => ?_⟩
      · show .registered c ∈ history c sh.log
        rw [hist]
        exact List.mem_append_left _ hm
      · show dispatches (history c sh.log) = (responses (history c sh.log)).length + 1
        rw [hist, dispatches_append, responses_append, heq]
        simp [dispatches, responses]
      · simp [heap] at hf
    | waits _ heap hist =>
      exact h.quiet (l := [.received c chunk]) (by simp [Event.keepsRound]) hist (by rw [heap]) Iff.rfl gone

theorem Rounds.stepWorker {s : Server n} {w i sh pc own c} (h : s.Rounds c) (ht : s.Tidy)
    (htask : s.Tasked c) (ha : s.Attends c) (he : (s.worker w).exec s.shared i = some (sh, pc)) :
    Rounds { s with shared := sh, worker := Function.update s.worker w pc, owner := own } c := by
  have gone : s.shared.Gone c → .registered c ∈ s.shared.log → sh.Gone c := fun hg _ =>
    (hg.handles (WorkerPc.exec_handles (ht.worker w) he)).resolve_right (by simp)
  have busy : ∀ {st}, (s.worker w).stageOf c = some st →
      (s.shared.heap c).processingRequest = true := fun hst => (htask.alone hst).1
  cases WorkerPc.exec_touch c he with
  | away heap hist _ stage =>
    exact h.quiet (l := []) nofun (by simpa using hist) (by rw [heap])
      (sending_update (by rw [stage])) gone
  | unregistered heap hist _ stage =>
    exact h.quiet (l := [.unregistered c]) (by simp [Event.keepsRound]) hist (by rw [heap])
      (sending_update (by rw [stage])) gone
  | taken hpc hs hpc' heap log =>
    refine h.quiet (l := []) nofun (by simp [log]) (by rw [heap]) (sending_update ?_) gone
    rw [hpc, hpc', WorkerPc.stageOf_of_stage rfl]
    simp [WorkerPc.stageOf, WorkerPc.stage]
  | parse request hpc hr hs hpc' hstage =>
    refine h.quiet (l := [.parsed c (s.shared.heap c).buffer]) (by simp [Event.keepsRound]) ?_
      (by rw [hs]; rfl) (sending_update ?_) gone
    · exact history_of_eq_emit hs rfl rfl
    · rw [hpc, WorkerPc.stageOf_of_stage hstage, WorkerPc.stageOf_of_stage rfl]
      simp
  | keep request hpc hs hpc' =>
    subst hs hpc'
    refine h.quiet (l := []) nofun (by simp [Shared.setConn]) (by simp [Shared.setConn])
      (sending_update ?_) gone
    rw [hpc, WorkerPc.stageOf_of_stage rfl, WorkerPc.stageOf_of_stage rfl]
  | missing response hpc hl hs hpc' =>
    subst hs hpc'
    refine h.quiet (l := []) nofun (by simp) rfl (sending_update ?_) gone
    rw [hpc, WorkerPc.stageOf_of_stage rfl, WorkerPc.stageOf_of_stage rfl]
    simp
  | unreg hpc hs hpc' =>
    have hst : (s.worker w).stageOf c = some .leaving := hpc ▸ WorkerPc.stageOf_of_stage rfl
    have hnot : ¬ Server.sending
        { s with shared := sh, worker := Function.update s.worker w pc, owner := own } c := by
      rw [sending_update]
      · rw [htask.sending_iff hst]
        simp
      · rw [hst, hpc']
        simp [WorkerPc.stageOf, WorkerPc.stage]
    refine ⟨fun hp => ?_, fun hs' => absurd hs' hnot, fun hp => ?_, fun _ => .inr ?_⟩
    · simp [hs, Shared.setConn] at hp
    · simp [hs, Shared.setConn] at hp
    · exact ⟨gone (ha.gone w hst) (h.registered (busy hst)), hs ▸ h.registered (busy hst)⟩
  | store response hpc hs hpc' =>
    have hst : (s.worker w).stageOf c = some .answering := hpc ▸ WorkerPc.stageOf_of_stage rfl
    have hnot : ¬ s.sending c := by
      rw [htask.sending_iff hst]
      simp
    have heq := h.owing (busy hst) hnot
    have hist : history c sh.log =
        history c s.shared.log ++ [.stored c (response.toString s.shared.order)] :=
      history_of_eq_emit hs rfl rfl
    have hsending : (WorkerPc.sub (.sendLock c) c).stageOf c = some .sending :=
      WorkerPc.stageOf_of_stage rfl
    have hnow : Server.sending
        { s with shared := sh, worker := Function.update s.worker w pc, owner := own } c :=
      ⟨w, by simp [hpc', hsending]⟩
    refine ⟨fun _ => ?_, fun _ => ?_, fun _ hs' => absurd hnow hs', fun hp => ?_⟩
    · simpa [hs, Shared.emit, Shared.setConn] using h.registered (busy hst)
    · show dispatches (history c sh.log) = (responses (history c sh.log)).length
      rw [hist, dispatches_append, responses_append, heq]
      simp [dispatches, responses]
    · simp [hs, Shared.emit, Shared.setConn, busy hst] at hp
  | send c' r ctl next hpc hpc' hsend =>
    obtain ⟨l, hl, hk⟩ := SubPc.sendStep_history hsend
    refine h.quiet (fun e he => Event.keepsRound_of_isOutput (hk e he)) hl
      (SubPc.sendStep_frame hsend).conn.processing (sending_update ?_) gone
    have stage : (WorkerPc.resume c' next).stageOf c = (WorkerPc.sub (.send c) c').stageOf c :=
      WorkerPc.stageOf_congr (WorkerPc.stage_resume c' next)
    rw [hpc, hpc', stage]
  | finish hpc hs hpc' =>
    have hst : (s.worker w).stageOf c = some .sending := hpc ▸ WorkerPc.stageOf_of_stage rfl
    have heq := h.sending ⟨w, hst⟩
    have hist : history c sh.log = history c s.shared.log ++ [.cleared c] :=
      history_of_eq_emit hs rfl rfl
    have hnot : ¬ Server.sending
        { s with shared := sh, worker := Function.update s.worker w pc, owner := own } c := by
      intro hs'
      obtain ⟨w', hw'⟩ := hs'
      obtain rfl := htask.only_update hst hw'
      simp [hpc', WorkerPc.stageOf, WorkerPc.stage] at hw'
    refine ⟨fun hp => ?_, fun hs' => absurd hs' hnot, fun hp => ?_, fun _ => .inl ?_⟩
    · simp [hs, Shared.emit, Shared.setConn] at hp
    · simp [hs, Shared.emit, Shared.setConn] at hp
    · show dispatches (history c sh.log) = (responses (history c sh.log)).length
      rw [hist, dispatches_append, responses_append, heq]
      simp [dispatches, responses]

theorem rounds {ok} {c : ConnId} {s : Server n} (h : (system n).ReachableBy ok s)
    (hstop : s.stop.eventJoined = false) : s.Rounds c := by
  refine h.invariant (I := fun s => s.stop.eventJoined = false → s.Rounds c) ?_ ?_ hstop
  · intro s hinit _
    obtain ⟨_, _, _, _, rfl⟩ := hinit
    refine ⟨nofun, fun hs => ?_, nofun, fun _ => .inl rfl⟩
    obtain ⟨w, hw⟩ := hs
    cases hw
  intro s a s' hr hi _ hs hstop'
  cases step_cases hs with
  | event i sh pc he => exact (hi hstop').stepEvent (tidy hr hstop') (tasked hr c) (bounded hr) he
  | worker w i sh pc he =>
    exact (hi hstop').stepWorker (tidy hr hstop') (tasked hr c) (attends hr hstop') he
  | stop wl el sh pc he =>
    have hstop := StopPc.not_joined_before he hstop'
    obtain ⟨heap, -, -, hist, hframe⟩ := StopPc.exec_frame he
    refine (hi hstop).quiet (l := []) nofun (by simp [hist]) (by rw [heap]) Iff.rfl fun hg _ => ?_
    simpa only [Shared.Gone, (hframe hstop).1] using hg
  | tick =>
    obtain ⟨h₁, h₂, h₃, h₄⟩ := hi hstop'
    exact ⟨h₁, h₂, h₃, h₄⟩

end Server

end Webserver
