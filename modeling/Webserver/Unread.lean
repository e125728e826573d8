/-
What becomes of the bytes a connection receives. The worker parses the whole
buffer and, once the response has been handed to `send`, clears the whole
buffer: a chunk appended in between is erased unread. Where none is, every
byte erased has been parsed, and no registered connection without a task
holds a complete request.
-/
import Webserver.Descriptors
import Webserver.Tasks

namespace Webserver

open Cxx Locks Systems

/-! ## Received, parsed, erased -/

/-- One event of a connection's history, for its buffer. -/
def buffers (acc : Bytes) : Event → Bytes
  | .received _ chunk => acc ++ chunk
  | .cleared _ => []
  | _ => acc

/-- The bytes received since the buffer was last erased. -/
def buffered (hist : List Event) : Bytes := hist.foldl buffers []

/-- All bytes now in the buffer have been the input of one `parse`. -/
def ReadAll (c : ConnId) (hist : List Event) : Prop :=
  ∃ l₁ l₂, hist = l₁ ++ .parsed c (buffered hist) :: l₂ ∧ .cleared c ∉ l₂

/-- Whenever the buffer is erased, all bytes in it have been parsed. -/
def ReadBeforeErased (c : ConnId) (hist : List Event) : Prop :=
  Whenever (· = .cleared c) (ReadAll c) hist

/-- An event that neither grows, reads nor erases a buffer. -/
def Event.keepsBuffer : Event → Bool
  | .received _ _ | .parsed _ _ | .cleared _ => false
  | _ => true

theorem Event.keepsBuffer_of_isNote {e : Event} (h : e.isNote) : e.keepsBuffer := by
  cases e <;> first | rfl | cases h

theorem Event.keepsBuffer_of_isOutput {e : Event} (h : e.isOutput) : e.keepsBuffer := by
  cases e <;> first | rfl | cases h

theorem buffered_concat (hist : List Event) (e : Event) :
    buffered (hist ++ [e]) = buffers (buffered hist) e := by simp [buffered]

theorem buffered_append {hist l : List Event} (hl : ∀ e ∈ l, e.keepsBuffer) :
    buffered (hist ++ l) = buffered hist := by
  induction l using List.reverseRecOn with
  | nil => rw [List.append_nil]
  | append_singleton l e ih =>
    have he : e.keepsBuffer := hl e (by simp)
    rw [← List.append_assoc, buffered_concat, ih fun e' he' => hl e' (by simp [he'])]
    cases e <;> first | rfl | cases he

theorem ReadAll.append {c : ConnId} {hist l : List Event} (h : ReadAll c hist)
    (hl : ∀ e ∈ l, e.keepsBuffer) : ReadAll c (hist ++ l) := by
  obtain ⟨l₁, l₂, he, hc⟩ := h
  refine ⟨l₁, l₂ ++ l, ?_, ?_⟩
  · rw [buffered_append hl]
    conv_lhs => rw [he]
    simp
  · rw [List.mem_append, not_or]
    exact ⟨hc, fun hm => by cases hl _ hm⟩

/-! ## One step -/

/-- Between its `parse` and its `clear` a worker has read the buffer. -/
def WorkerPc.hasRead (pc : WorkerPc) (c : ConnId) : Bool :=
  pc.stageOf c = some .answering || pc.stageOf c = some .sending

theorem WorkerPc.hasRead_of_stage {pc : WorkerPc} {c st} (h : pc.stage = some (c, st)) :
    pc.hasRead c = (st == .answering || st == .sending) := by
  rw [hasRead, stageOf_of_stage h]
  cases st <;> rfl

theorem WorkerPc.hasRead_of_none {pc : WorkerPc} {c} (h : pc.stage = none) :
    pc.hasRead c = false := by simp [hasRead, stageOf, h]

theorem WorkerPc.carries_of_hasRead {pc : WorkerPc} {c} (h : pc.hasRead c) : pc.carries = some c := by
  simp only [hasRead, Bool.or_eq_true, decide_eq_true_eq] at h
  rcases h with h | h <;> simp [carries, stage_of_stageOf h]

namespace Server

variable {n : Nat}

/-- The event thread appends a chunk to the buffer of `c` that a worker has
parsed and is going to erase. -/
def appendsUnread (c : ConnId) (s : Server n) : Action n → Bool
  | .event .go =>
    match s.event with
    | .dataAppend _ c' chunk _ => c' = c && !EventPc.overflows s.shared c chunk &&
      (List.finRange n).any fun w => (s.worker w).hasRead c
    | _ => false
  | _ => false

/-- The buffer holds what was received since it was erased, and where a
worker is going to erase it, it has been parsed. -/
structure Reads (s : Server n) (c : ConnId) : Prop where
  buffer : (s.shared.heap c).buffer = buffered (history c s.shared.log)
  erased : ReadBeforeErased c (history c s.shared.log)
  read : ∀ w, (s.worker w).hasRead c → ReadAll c (history c s.shared.log)

theorem Reads.quiet {s s' : Server n} {c} (h : s.Reads c) {l : List Event}
    (hl : ∀ e ∈ l, e.keepsBuffer)
    (hist : history c s'.shared.log = history c s.shared.log ++ l)
    (buffer : (s'.shared.heap c).buffer = (s.shared.heap c).buffer)
    (worker : ∀ w, (s'.worker w).hasRead c → (s.worker w).hasRead c) : s'.Reads c := by
  refine ⟨?_, ?_, fun w hw => ?_⟩
  · rw [buffer, hist, buffered_append hl]
    exact h.buffer
  · rw [hist]
    exact Whenever.append h.erased fun e he hc => by cases hc ▸ hl e he
  · rw [hist]
    exact (h.read w (worker w hw)).append hl

theorem Reads.stepEvent {s : Server n} {i sh pc own c} (h : s.Reads c) (hb : s.Bounded)
    (hok : appendsUnread c s (.event i) = false) (he : s.event.exec s.shared i = some (sh, pc)) :
    Reads { s with shared := sh, event := pc, owner := own } c := by
  cases EventPc.exec_touch c he with
  | away heap hist => exact h.quiet (l := []) nofun (by simpa using hist) (by rw [heap]) fun _ => id
  | noted e note heap hist =>
    refine h.quiet (l := [e]) (fun e' he' => ?_) hist (by rw [heap]) fun _ => id
    exact List.mem_singleton.mp he' ▸ Event.keepsBuffer_of_isNote note
  | created fd hc heap hist =>
    have hnil : history c sh.log = [] := by rw [hist, hc, hb.shared.history_created]
    refine ⟨by simp [heap, hnil, buffered], hnil ▸ Whenever.nil, fun w hw => ?_⟩
    have := WorkerPc.carries_of_hasRead hw
    exact absurd (hb.worker w c (WorkerPc.refs_of_carries this)) (by simp [hc])
  | send ret r ctl next hpc hpc' hsend =>
    obtain ⟨l, hl, hk⟩ := SubPc.sendStep_history hsend
    exact h.quiet (fun e he => Event.keepsBuffer_of_isOutput (hk e he)) hl
      (SubPc.sendStep_frame hsend).conn.buffer fun _ => id
  | append fd chunk k hpc fits happ =>
    have hi : i = .go := by
      rw [hpc] at he
      cases EventPc.exec_steps he <;> rfl
    have alone : ∀ w, (s.worker w).hasRead c = false := by
      intro w
      simp only [appendsUnread, hi, hpc, fits, decide_true, Bool.not_false, Bool.true_and,
        List.any_eq_false, List.mem_finRange, true_implies] at hok
      simpa using hok w
    have received : ∀ {l}, (∀ e ∈ l, e.keepsBuffer) → history c sh.log =
        history c s.shared.log ++ [.received c chunk] ++ l →
        (sh.heap c).buffer = (s.shared.heap c).buffer ++ chunk →
        Reads { s with shared := sh, event := pc, owner := own } c := by
      intro l hl hist buffer
      refine ⟨?_, ?_, fun w hw => ?_⟩
      · rw [hist, buffered_append hl, buffered_concat, buffer, h.buffer]
        rfl
      · rw [hist]
        refine Whenever.append (Whenever.concat h.erased nofun) fun e he hc => ?_
        cases hc ▸ hl e he
      · rw [alone w] at hw
        cases hw
    cases EventPc.appendStep_cases fits happ with
    | completes _ _ heap hist =>
      exact received (l := [.dispatched c]) (by simp [Event.keepsBuffer]) (by simp [hist]) (by rw [heap])
    | waits _ heap hist => exact received (l := []) (List.forall_mem_nil _) (by simp [hist]) (by rw [heap])

theorem Reads.stepWorker {s : Server n} {w i sh pc own c} (h : s.Reads c) (ht : s.Tasked c)
    (he : (s.worker w).exec s.shared i = some (sh, pc)) :
    Reads { s with shared := sh, worker := Function.update s.worker w pc, owner := own } c := by
  have others : (pc.hasRead c → (s.worker w).hasRead c) → ∀ w',
      (Function.update s.worker w pc w').hasRead c → (s.worker w').hasRead c := by
    intro hpc w' hw'
    by_cases hw : w' = w
    · subst hw
      exact hpc (by simpa using hw')
    · simpa [hw] using hw'
  cases WorkerPc.exec_touch c he with
  | away heap hist _ stage =>
    exact h.quiet (l := []) (by simp) (by simpa using hist) (by rw [heap])
      (others fun hr => by simpa [WorkerPc.hasRead, stage] using hr)
  | unregistered heap hist _ stage =>
    exact h.quiet (l := [.unregistered c]) (by simp [Event.keepsBuffer]) hist (by rw [heap])
      (others fun hr => by simpa [WorkerPc.hasRead, stage] using hr)
  | taken hpc hs hpc' heap log =>
    refine h.quiet (l := []) (by simp) (by simp [log]) (by rw [heap]) (others ?_)
    rw [hpc', WorkerPc.hasRead_of_stage rfl]
    simp
  | parse request hpc hr hs hpc' =>
    have hist : history c sh.log =
        history c s.shared.log ++ [.parsed c (s.shared.heap c).buffer] := history_of_eq_emit hs rfl rfl
    have hbuf : buffered (history c sh.log) = (s.shared.heap c).buffer := by
      rw [hist, buffered_concat, h.buffer]
      rfl
    refine ⟨by rw [hbuf, hs]; rfl, by rw [hist]; exact Whenever.concat h.erased (by simp), fun w' _ => ?_⟩
    exact ⟨history c s.shared.log, [], by rw [hbuf, hist], by simp⟩
  | keep request hpc hs hpc' =>
    subst hs hpc'
    refine h.quiet (l := []) (by simp) (by simp [Shared.setConn]) (by simp [Shared.setConn]) (others ?_)
    rw [hpc, WorkerPc.hasRead_of_stage rfl, WorkerPc.hasRead_of_stage rfl]
    exact id
  | missing response hpc hl hs hpc' =>
    subst hs hpc'
    refine h.quiet (l := []) (by simp) (by simp) rfl (others ?_)
    rw [WorkerPc.hasRead_of_stage rfl]
    simp
  | unreg hpc hs hpc' =>
    subst hs hpc'
    refine h.quiet (l := []) (by simp) (by simp [Shared.setConn]) (by simp [Shared.setConn]) (others ?_)
    rw [WorkerPc.hasRead_of_none rfl]
    simp
  | store response hpc hs hpc' =>
    subst hs hpc'
    refine h.quiet (l := [.stored c (response.toString s.shared.order)]) (by simp [Event.keepsBuffer])
      (history_emit rfl) (by simp [Shared.setConn, Shared.emit]) (others ?_)
    rw [hpc, WorkerPc.hasRead_of_stage rfl, WorkerPc.hasRead_of_stage rfl]
    exact fun _ => rfl
  | send c' r ctl next hpc hpc' hsend =>
    subst hpc'
    obtain ⟨l, hl, hk⟩ := SubPc.sendStep_history hsend
    refine h.quiet (fun e he => Event.keepsBuffer_of_isOutput (hk e he)) hl
      (SubPc.sendStep_frame hsend).conn.buffer (others ?_)
    have stage : (WorkerPc.resume c' next).stageOf c = (WorkerPc.sub (.send c) c').stageOf c :=
      WorkerPc.stageOf_congr (WorkerPc.stage_resume c' next)
    simp [hpc, WorkerPc.hasRead, stage]
  | finish hpc hs hpc' =>
    have hread : (s.worker w).hasRead c = true := by rw [hpc, WorkerPc.hasRead_of_stage rfl]; rfl
    have hist : history c sh.log = history c s.shared.log ++ [.cleared c] :=
      history_of_eq_emit hs rfl rfl
    refine ⟨?_, ?_, fun w' hw' => ?_⟩
    · rw [hist, buffered_concat, hs]
      simp [buffers, Shared.emit, Shared.setConn]
    · rw [hist]
      exact Whenever.concat h.erased fun _ => h.read w hread
    · -- no other worker has a task of `c`
      have stage : (s.worker w).stageOf c = some .sending := by
        rw [hpc]
        exact WorkerPc.stageOf_of_stage rfl
      have hw : w' ≠ w := by
        rintro rfl
        have idle : Function.update s.worker w' pc w' = .idle := by simp [hpc']
        simp only [idle] at hw'
        cases hw'
      have := (ht.alone stage).2.2 w' hw
      simp [hw, WorkerPc.hasRead, this] at hw'

theorem reads {c : ConnId} {s : Server n}
    (h : (system n).ReachableBy (fun s a => !appendsUnread c s a) s) : s.Reads c := by
  refine h.invariant (I := fun s => s.Reads c) ?_ ?_
  · intro s hinit
    obtain ⟨_, _, _, _, rfl⟩ := hinit
    refine ⟨rfl, Whenever.nil, fun w hw => ?_⟩
    cases (WorkerPc.hasRead_of_none rfl : WorkerPc.idle.hasRead c = false) ▸ hw
  intro s a s' hr hi hok hs
  cases step_cases hs with
  | event i sh pc he => exact hi.stepEvent (bounded hr) (by simpa using hok) he
  | worker w i sh pc he => exact hi.stepWorker (tasked hr c) he
  | stop wl el sh pc he =>
    obtain ⟨heap, -, -, hist, -⟩ := StopPc.exec_frame he
    exact hi.quiet (l := []) nofun (by simp [hist]) (by rw [heap]) fun _ => id
  | tick => exact ⟨hi.buffer, hi.erased, hi.read⟩

end Server

/-! ## Requests that wait -/

/-- No descriptor is registered for a connection. -/
def Shared.Gone (s : Shared) (c : ConnId) : Prop := ∀ fd, s.connections.lookup fd ≠ some c

theorem Shared.Gone.handles {s s' : Shared} {c} {event held erases l l'} (h : s.Gone c)
    (hh : Handles event held erases s s' l l') :
    s'.Gone c ∨ ∃ fd k, event = some (.acceptInsert fd c k, .go) := by
  cases hh with
  | same conns | accept _ _ _ _ conns | close _ conns =>
    exact .inl fun fd => by rw [conns]; exact h fd
  | register fd c' k he _ _ _ conns =>
    rcases eq_or_ne c' c with rfl | hne
    · exact .inr ⟨fd, k, he⟩
    · refine .inl fun fd' hl => ?_
      rw [conns] at hl
      by_cases hfd : fd' = fd
      · rw [hfd, AList.lookup_insert] at hl
        exact hne (Option.some.inj hl)
      · rw [AList.lookup_insert_ne hfd] at hl
        exact h fd' hl
  | erase fd _ _ _ hs =>
    refine .inl fun fd' hl => ?_
    rw [hs, Shared.lookup_unregister] at hl
    split at hl
    · cases hl
    · exact h fd' hl

namespace WorkerPc

/-- A worker gives a task up where it has found the number unregistered. -/
theorem Touch.leaving {s s' : Shared} {pc pc' : WorkerPc} {c} (h : Touch s pc c s' pc')
    (hl : pc'.stageOf c = some .leaving) : pc.stageOf c = some .leaving ∨
      (s.connections.lookup (s.heap c).fd = none ∧ pc.stageOf c = some .answering) := by
  cases h with
  | away _ _ _ stage | unregistered _ _ _ stage => exact .inl (stage ▸ hl)
  | missing response hpc hnone => exact .inr ⟨hnone, hpc ▸ stageOf_of_stage rfl⟩
  | taken _ _ hpc' | keep _ _ _ hpc' | store _ _ _ hpc' =>
    rw [hpc', stageOf_of_stage rfl] at hl
    cases hl
  | parse _ _ _ _ _ hstage =>
    rw [stageOf_of_stage hstage] at hl
    cases hl
  | unreg _ _ hpc' | finish _ _ hpc' => cases hpc' ▸ hl
  | send c' _ _ _ hpc hpc' =>
    have hst := stage_of_stageOf hl
    rw [hpc', stage_resume] at hst
    cases hst

/-- What a worker's step does to what a connection has received. -/
theorem Touch.input {s s' : Shared} {pc pc' : WorkerPc} {c} (h : Touch s pc c s' pc') :
    ((s'.heap c).buffer = (s.heap c).buffer ∧
      (s'.heap c).processingRequest = (s.heap c).processingRequest) ∨
    (pc.stageOf c = some .leaving ∧ (s'.heap c).buffer = (s.heap c).buffer ∧
      (s'.heap c).processingRequest = false) ∨ (s'.heap c).Idle := by
  cases h with
  | away heap | unregistered heap => exact .inl (by simp [heap])
  | taken _ _ _ heap => exact .inl (by simp [heap])
  | parse _ _ _ hs => exact .inl (by simp [hs, Shared.emit])
  | missing _ _ _ hs => exact .inl (by simp [hs])
  | keep _ _ hs | store _ _ hs => exact .inl (by simp [hs, Shared.setConn, Shared.emit])
  | unreg hpc hs =>
    exact .inr (.inl ⟨hpc ▸ stageOf_of_stage rfl, by simp [hs, Shared.setConn],
      by simp [hs, Shared.setConn]⟩)
  | send _ _ _ _ _ _ h =>
    have same := (SubPc.sendStep_frame h).conn
    exact .inl ⟨same.buffer, same.processing⟩
  | finish _ hs => exact .inr (.inr (by simp [hs, Connection.Idle, Shared.setConn, Shared.emit]))

end WorkerPc

/-- The buffer does not hold a complete request. -/
def Connection.Incomplete (conn : Connection) : Prop := isHttpRequestComplete conn.buffer = false

theorem Connection.Idle.incomplete {conn : Connection} (h : conn.Idle) : conn.Incomplete := by
  rw [Incomplete, h.1]
  rfl

namespace Server

variable {n : Nat}

/-- A connection without a task that is still registered holds no complete
request. A task is given up only for a connection that is not. -/
structure Attends (s : Server n) (c : ConnId) : Prop where
  gone : ∀ w, (s.worker w).stageOf c = some .leaving → s.shared.Gone c
  attended : (s.shared.heap c).processingRequest = false →
    (s.shared.heap c).Incomplete ∨ s.shared.Gone c

theorem Attends.stepEvent {s : Server n} {i sh pc own c} (h : s.Attends c) (ht : s.Tidy)
    (htask : s.Tasked c) (he : s.event.exec s.shared i = some (sh, pc)) :
    Attends { s with shared := sh, event := pc, owner := own } c := by
  have hh := EventPc.exec_handles ht.event he
  have registers : (∃ fd k, some (s.event, i) = some (.acceptInsert fd c k, .go)) →
      (s.shared.heap c).Idle := by
    rintro ⟨fd, k, hev⟩
    have hk := ht.event
    rw [(Prod.mk.inj (Option.some.inj hev)).1] at hk
    exact hk.2.idle
  have gone : s.shared.Gone c → sh.Gone c ∨ (s.shared.heap c).Idle :=
    fun hg => (hg.handles hh).imp_right registers
  have keeps : (sh.heap c).buffer = (s.shared.heap c).buffer →
      (sh.heap c).processingRequest = (s.shared.heap c).processingRequest →
      (sh.heap c).processingRequest = false → (sh.heap c).Incomplete ∨ sh.Gone c := by
    intro hb hp hf
    rw [Connection.Incomplete, hb]
    rcases h.attended (hp ▸ hf) with hi | hg
    · exact .inl hi
    · exact (gone hg).symm.imp_left Connection.Idle.incomplete
  refine ⟨fun w hw => ?_, ?_⟩
  · refine (gone (h.gone w hw)).resolve_right fun hi => ?_
    cases (htask.alone hw).1.symm.trans hi.2
  · cases EventPc.exec_touch c he with
    | away heap | noted _ _ heap => exact keeps (by rw [heap]) (by rw [heap])
    | created fd hc heap => exact fun _ => .inl (by rw [heap]; rfl)
    | send ret r ctl next _ _ hsend =>
      have same := (SubPc.sendStep_frame hsend).conn
      exact keeps same.buffer same.processing
    | append fd chunk k hpc fits happ =>
      cases EventPc.appendStep_cases fits happ with
      | completes _ _ heap => exact fun hf => by simp [heap] at hf
      | waits incomplete heap =>
        intro hf
        rw [heap] at hf ⊢
        exact .inl (incomplete hf)

theorem Attends.stepWorker {s : Server n} {w i sh pc own c} (h : s.Attends c) (ht : s.Tidy)
    (he : (s.worker w).exec s.shared i = some (sh, pc)) :
    Attends { s with shared := sh, worker := Function.update s.worker w pc, owner := own } c := by
  have hh := WorkerPc.exec_handles (ht.worker w) he
  have htouch := WorkerPc.exec_touch c he
  have gone : s.shared.Gone c → sh.Gone c := fun hg => (hg.handles hh).resolve_right (by simp)
  refine ⟨fun w' hw' => gone ?_, fun hf => ?_⟩
  · by_cases hw : w' = w
    · subst hw
      rcases htouch.leaving (by simpa using hw') with hl | ⟨hl, -⟩
      · exact h.gone w' hl
      · -- the worker has just found the number unregistered
        intro fd hc
        rw [(ht.named fd c hc).1, hc] at hl
        cases hl
    · exact h.gone w' (by simpa [hw] using hw')
  · rcases htouch.input with ⟨hb, hp⟩ | ⟨hl, -, -⟩ | hi
    · rw [Connection.Incomplete, hb]
      exact (h.attended (hp ▸ hf)).imp_right gone
    · exact .inr (gone (h.gone w hl))
    · exact .inl (Connection.Idle.incomplete hi)

theorem attends {ok} {c : ConnId} {s : Server n} (h : (system n).ReachableBy ok s)
    (hstop : s.stop.eventJoined = false) : s.Attends c := by
  refine h.invariant (I := fun s => s.stop.eventJoined = false → s.Attends c) ?_ ?_ hstop
  · intro s hinit _
    obtain ⟨_, _, _, _, rfl⟩ := hinit
    exact ⟨nofun, fun _ => .inl rfl⟩
  intro s a s' hr hi _ hs hstop'
  cases step_cases hs with
  | event i sh pc he => exact (hi hstop').stepEvent (tidy hr hstop') (tasked hr c) he
  | worker w i sh pc he => exact (hi hstop').stepWorker (tidy hr hstop') he
  | stop wl el sh pc he =>
    have hstop := StopPc.not_joined_before he hstop'
    obtain ⟨heap, -, -, -, hframe⟩ := StopPc.exec_frame he
    obtain ⟨h₁, h₂⟩ := hi hstop
    refine ⟨?_, ?_⟩ <;> simp only [Shared.Gone, heap, (hframe hstop).1] at h₁ h₂ ⊢
    · exact h₁
    · exact h₂
  | tick => exact ⟨(hi hstop').gone, (hi hstop').attended⟩

theorem not_joined_of_poolRuns {ok} {s : Server n} (h : (system n).ReachableBy ok s)
    (hpool : s.shared.poolShutdown = false) : s.stop.eventJoined = false := by
  rw [poolShutdown_eq h] at hpool
  cases hpc : s.stop <;> simp [hpc, StopPc.poolDown] at hpool <;> rfl

/-- While the pool runs, a registered connection without a task holds no
complete request. -/
theorem incomplete_of_no_task {ok} {s : Server n} (h : (system n).ReachableBy ok s) {fd c}
    (hpool : s.shared.poolShutdown = false) (hl : s.shared.connections.lookup fd = some c)
    (hnone : s.tasksOf c = 0) : (s.shared.heap c).Incomplete := by
  have hflag : s.shared.flagged c = 0 := ((tasked h c).eq hpool).symm.trans hnone
  have hproc : (s.shared.heap c).processingRequest = false := by
    simpa [Shared.flagged] using hflag
  have ha := attends h (c := c) (not_joined_of_poolRuns h hpool)
  exact (ha.attended hproc).resolve_right fun hg => hg fd hl

/-- **Each connection has at most one task**, and one that is registered and
has none holds no complete request: whatever arrives while a worker is busy
with it, no request is left behind when the worker goes. -/
theorem dispatched_once {s : Server n} (h : (system n).Reachable s)
    (hpool : s.shared.poolShutdown = false) (c : ConnId) :
    s.tasksOf c ≤ 1 ∧ ∀ fd, s.shared.connections.lookup fd = some c → s.tasksOf c = 0 →
      (s.shared.heap c).Incomplete := by
  refine ⟨?_, fun fd hl hnone => incomplete_of_no_task h hpool hl hnone⟩
  have hle := (tasked h c).le
  have hflag : s.shared.flagged c ≤ 1 := by unfold Shared.flagged; split <;> omega
  omega

theorem dispatched_once_answered : ∃ s : Server 1, (system 1).Reachable s ∧
    s.shared.connections.lookup 7 = some 0 ∧ s.tasksOf 0 = 0 ∧ (s.shared.heap 0).Incomplete := by
  obtain ⟨s, hr, hs⟩ := System.exists_reachable init_fresh answered
    (fun s => decide (s.shared.poolShutdown = false ∧ s.shared.connections.lookup 7 = some 0 ∧
      s.tasksOf 0 = 0)) (by decide +kernel)
  obtain ⟨hpool, hl, hnone⟩ := of_decide_eq_true hs
  exact ⟨s, hr, hl, hnone, (dispatched_once hr hpool 0).2 7 hl hnone⟩

/-- **No received byte is erased unread**, in every run in which no chunk is
appended to the connection's buffer while a worker is between its `parse` and
its `clear` for it; and while the connection is registered and has no task,
no complete request waits in its buffer. -/
theorem read_before_erased {c : ConnId} {s : Server n}
    (h : (system n).ReachableBy (fun s a => !appendsUnread c s a) s) :
    ReadBeforeErased c (history c s.shared.log) ∧
      (s.stop = .notCalled → s.shared.connections.lookup (s.shared.heap c).fd = some c →
        s.tasksOf c = 0 → (s.shared.heap c).Incomplete) := by
  exact ⟨(reads h).erased, fun hstop hl hnone =>
    incomplete_of_no_task h (poolRuns h hstop) hl hnone⟩

theorem read_before_erased_answered : ∃ s : Server 1,
    (system 1).ReachableBy (fun s a => !appendsUnread 0 s a) s ∧
      .cleared 0 ∈ history 0 s.shared.log ∧ ReadBeforeErased 0 (history 0 s.shared.log) := by
  obtain ⟨s, hr, hs⟩ := System.exists_reachableBy init_fresh (fun s a => !appendsUnread 0 s a) answered
    (fun s => decide (.cleared 0 ∈ history 0 s.shared.log)) (by decide +kernel)
  exact ⟨s, hr, of_decide_eq_true hs, (read_before_erased hr).1⟩

/-- The client has the whole response and sends its next request while the
worker is on its way to clear the buffer. -/
def erasedUnread : List (Action 1) :=
  acceptClient 7 1 ++ receiveRequest 7 getRequest 1 ++
    workerSteps (answerInputs ++ respondInputs (.accepts pageBytes.length)) ++
    receiveMore 7 getRequest 1 ++ workerSteps finishInputs

theorem not_read_before_erased : ¬ ∀ (n : Nat) (s : Server n), (system n).Reachable s →
    ∀ c, ReadBeforeErased c (history c s.shared.log) := by
  intro h
  obtain ⟨s, hr, hs⟩ := System.exists_reachable init_fresh erasedUnread
    (fun s => (history 0 s.shared.log).getLast? = some (.cleared 0) ∧
      .parsed 0 (buffered (history 0 s.shared.log).dropLast) ∉ history 0 s.shared.log)
    (by decide +kernel)
  simp only [decide_eq_true_eq] at hs
  obtain ⟨hlast, hnot⟩ := hs
  obtain ⟨l, hl⟩ := List.getLast?_eq_some_iff.mp hlast
  obtain ⟨l₁, l₂, he, -⟩ := h 1 s hr 0 l _ [] hl rfl
  have hmem : .parsed 0 (buffered l) ∈ l :=
    (congrArg (.parsed 0 (buffered l) ∈ ·) he).mpr (by simp)
  rw [hl, List.dropLast_concat] at hnot
  exact hnot (List.mem_append_left _ hmem)

end Server

end Webserver
