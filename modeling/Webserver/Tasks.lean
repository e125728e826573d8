/-
Tasks and `processing_request`: a connection has at most one task, in the
event thread's hands, in the pool's queue or with a worker, and the flag is
set exactly as long as it has one. Only where `enqueue` throws, after
`shutdown`, is a task dropped with the flag left set.
-/
import Webserver.References

namespace Webserver

open Cxx Locks Systems

/-- The number of tasks of `c` a worker runs. -/
def WorkerPc.load (pc : WorkerPc) (c : ConnId) : Nat := if (pc.stageOf c).isSome then 1 else 0

theorem WorkerPc.load_of_stage {pc : WorkerPc} {c st} (h : pc.stageOf c = some st) : pc.load c = 1 := by
  simp [load, h]

theorem WorkerPc.load_of_none {pc : WorkerPc} {c} (h : pc.stageOf c = none) : pc.load c = 0 := by
  simp [load, h]

theorem WorkerPc.stageOf_of_stage {pc : WorkerPc} {c st} (h : pc.stage = some (c, st)) :
    pc.stageOf c = some st := by simp [stageOf, h, Option.filter]

theorem WorkerPc.stage_of_stageOf {pc : WorkerPc} {c st} (h : pc.stageOf c = some st) :
    pc.stage = some (c, st) := by
  cases hs : pc.stage with
  | none => simp [stageOf, hs] at h
  | some q =>
    by_cases hq : q.1 = c
    · simp only [stageOf, hs, Option.filter, hq, decide_true, if_true, Option.map_some,
        Option.some.injEq] at h
      rw [← hq, ← h]
    · simp [stageOf, hs, Option.filter, hq] at h

/-- The number of tasks the flag of a connection stands for. -/
def Shared.flagged (s : Shared) (c : ConnId) : Nat := if (s.heap c).processingRequest then 1 else 0

/-- A step of the event thread makes a task of `c` where it sets the flag. -/
theorem EventPc.Touch.tasks {s s' : Shared} {pc pc' : EventPc} {c} (h : Touch s pc c s' pc')
    (others : Nat) (hnew : c = s.created → queued s pc c + others = 0)
    (hle : queued s pc c + others ≤ s.flagged c) :
    queued s' pc' c + others ≤ s'.flagged c ∧
      (s.poolShutdown = false → queued s pc c + others = s.flagged c →
        queued s' pc' c + others = s'.flagged c) := by
  have keeps : KeepsTasks s pc c s' pc' → (s'.heap c).processingRequest = (s.heap c).processingRequest →
      queued s' pc' c + others ≤ s'.flagged c ∧
        (s.poolShutdown = false → queued s pc c + others = s.flagged c →
          queued s' pc' c + others = s'.flagged c) := by
    rintro ⟨h₁, h₂⟩ hp
    have : s'.flagged c = s.flagged c := by simp [Shared.flagged, hp]
    exact ⟨by omega, fun hs he => by rw [h₂ hs, this, he]⟩
  cases h with
  | away heap _ tasks | noted _ _ heap _ tasks => exact keeps tasks (by rw [heap])
  | created fd hn heap _ tasks =>
    have h₀ := hnew hn
    have h₁ := tasks.1
    have h₂ : s'.flagged c = 0 := by simp [Shared.flagged, heap]
    omega
  | send ret r ctl next _ _ h tasks => exact keeps tasks (SubPc.sendStep_frame h).conn.processing
  | append fd chunk k hpc fits h =>
    subst hpc
    cases appendStep_cases fits h with
    | completes idle _ heap _ tasks hpc' =>
      subst hpc'
      simp only [Shared.flagged, idle, Bool.false_eq_true, if_false, Nat.le_zero,
        Nat.add_eq_zero_iff] at hle
      simp_all [queued, carries, Shared.flagged]
    | waits _ heap _ tasks hpc' => exact keeps (.of_same tasks (hpc' ▸ rfl)) (by rw [heap])

/-- A step of a worker ends a task of `c` where it clears the flag. -/
theorem WorkerPc.Touch.tasks {s s' : Shared} {pc pc' : WorkerPc} {c} (h : Touch s pc c s' pc')
    (others : Nat) (hle : s.tasks.count c + pc.load c + others ≤ s.flagged c) :
    s'.tasks.count c + pc'.load c + others ≤ s'.flagged c ∧
      (s.tasks.count c + pc.load c + others = s.flagged c →
        s'.tasks.count c + pc'.load c + others = s'.flagged c) := by
  have keeps : s'.tasks.count c + pc'.load c = s.tasks.count c + pc.load c →
      (s'.heap c).processingRequest = (s.heap c).processingRequest →
      s'.tasks.count c + pc'.load c + others ≤ s'.flagged c ∧
        (s.tasks.count c + pc.load c + others = s.flagged c →
          s'.tasks.count c + pc'.load c + others = s'.flagged c) := by
    intro h₁ hp
    have : s'.flagged c = s.flagged c := by simp [Shared.flagged, hp]
    omega
  have ends : pc.load c = 1 → pc'.load c = 0 → s'.tasks = s.tasks →
      (s'.heap c).processingRequest = false →
      s'.tasks.count c + pc'.load c + others ≤ s'.flagged c ∧
        (s.tasks.count c + pc.load c + others = s.flagged c →
          s'.tasks.count c + pc'.load c + others = s'.flagged c) := by
    intro h₁ h₂ ht hp
    have h₃ : s'.flagged c = 0 := by simp [Shared.flagged, hp]
    have h₄ : s.flagged c ≤ 1 := by unfold Shared.flagged; split <;> omega
    rw [ht]
    omega
  cases h with
  | away heap _ tasks stage => exact keeps (by rw [tasks, load, load, stage]) (by rw [heap])
  | unregistered heap _ tasks stage => exact keeps (by rw [tasks, load, load, stage]) (by rw [heap])
  | taken hpc hs hpc' heap =>
    refine keeps ?_ (by rw [heap])
    subst hpc hpc'
    rw [hs, load_of_stage (stageOf_of_stage rfl), (load_of_none rfl : WorkerPc.load .idle c = 0)]
    simp
  | parse request hpc hr hs hpc' hstage =>
    subst hpc hs
    refine keeps ?_ rfl
    rw [load_of_stage (stageOf_of_stage hstage), load_of_stage (stageOf_of_stage rfl)]
    rfl
  | keep request hpc hs hpc' =>
    subst hpc hs hpc'
    refine keeps ?_ (by simp [Shared.setConn])
    rw [load_of_stage (stageOf_of_stage rfl), load_of_stage (stageOf_of_stage rfl)]
    rfl
  | missing response hpc _ hs hpc' =>
    subst hpc hs hpc'
    refine keeps ?_ rfl
    rw [load_of_stage (stageOf_of_stage rfl), load_of_stage (stageOf_of_stage rfl)]
  | unreg hpc hs hpc' =>
    subst hpc hs hpc'
    exact ends (load_of_stage (stageOf_of_stage rfl)) (load_of_none rfl) rfl (by simp [Shared.setConn])
  | store response hpc hs hpc' =>
    subst hpc hs hpc'
    refine keeps ?_ (by simp [Shared.setConn, Shared.emit])
    rw [load_of_stage (stageOf_of_stage rfl), load_of_stage (stageOf_of_stage rfl)]
    rfl
  | send c' r ctl next hpc hpc' h =>
    have frame := SubPc.sendStep_frame h
    refine keeps ?_ frame.conn.processing
    have stage : (resume c' next).stageOf c = (sub (.send c) c').stageOf c :=
      stageOf_congr (stage_resume c' next)
    rw [frame.tasks, hpc, hpc', load, load, stage]
  | finish hpc hs hpc' =>
    subst hpc hs hpc'
    exact ends (load_of_stage (stageOf_of_stage rfl)) (load_of_none rfl) rfl
      (by simp [Shared.setConn, Shared.emit])

/-! ## The invariant -/

theorem EventPc.exec_poolShutdown {s : Shared} {pc : EventPc} {i s' pc'}
    (h : pc.exec s i = some (s', pc')) : s'.poolShutdown = s.poolShutdown := by
  cases exec_steps h with
  | acceptFull | acceptReject | dataErase | dataCloseFd => simp
  | sub p ret next h₁ => exact (SubPc.exec_tasks h₁).2
  | _ => rfl

theorem WorkerPc.exec_poolShutdown {s : Shared} {pc : WorkerPc} {i s' pc'}
    (h : pc.exec s i = some (s', pc')) : s'.poolShutdown = s.poolShutdown := by
  cases exec_steps h with
  | sub p c next h₁ => exact (SubPc.exec_tasks h₁).2
  | _ => rfl

/-- `stop()` has shut the pool down. -/
def StopPc.poolDown : StopPc → Bool
  | notCalled | shutdownPool => false
  | _ => true

theorem StopPc.exec_poolShutdown {s : Shared} {pc : StopPc} {a b s' pc'}
    (h : pc.exec s a b = some (s', pc')) :
    (s'.poolShutdown = false → s.poolShutdown = false) ∧
      (s.poolShutdown = pc.poolDown → s'.poolShutdown = pc'.poolDown) := by
  cases exec_steps h with
  | shutdownPool => exact ⟨nofun, fun _ => rfl⟩
  | close fd rest => simp [Shared.removeFd, poolDown]
  | _ => exact ⟨id, id⟩

theorem EventPc.refs_of_carries {pc : EventPc} {c} (h : pc.carries = some c) : c ∈ pc.refs := by
  unfold carries at h
  split at h <;> cases h <;> exact List.mem_singleton_self c

theorem WorkerPc.refs_of_carries {pc : WorkerPc} {c} (h : pc.carries = some c) : c ∈ pc.refs := by
  cases pc with
  | sub p c' => exact Option.some.inj h ▸ List.mem_cons_self
  | _ => simpa [refs] using h

namespace Server

variable {n : Nat}

/-- The tasks of `c`, wherever they are. -/
def tasksOf (s : Server n) (c : ConnId) : Nat :=
  s.event.queued s.shared c + ∑ w, (s.worker w).load c

/-- A connection has a task exactly if its flag is set, and only one. -/
structure Tasked (s : Server n) (c : ConnId) : Prop where
  le : s.tasksOf c ≤ s.shared.flagged c
  eq : s.shared.poolShutdown = false → s.tasksOf c = s.shared.flagged c

/-- A connection not yet constructed has no task. -/
theorem Bounded.tasksOf {s : Server n} (h : s.Bounded) : s.tasksOf s.shared.created = 0 := by
  have htasks : s.shared.tasks.count s.shared.created = 0 :=
    List.count_eq_zero.mpr fun hm => Nat.lt_irrefl _ (h.shared.tasks _ hm)
  have hevent : s.event.carries ≠ some s.shared.created := by
    intro hc
    exact Nat.lt_irrefl _ (h.event _ (EventPc.refs_of_carries hc))
  have hload : ∀ w, (s.worker w).load s.shared.created = 0 := by
    intro w
    refine WorkerPc.load_of_none (WorkerPc.stageOf_of_ne fun hc => ?_)
    exact Nat.lt_irrefl _ (h.worker w _ (WorkerPc.refs_of_carries hc))
  simp [Server.tasksOf, EventPc.queued, htasks, hevent, hload]

/-- Only `stop()` shuts the pool down. -/
theorem poolShutdown_eq {ok} {s : Server n} (h : (system n).ReachableBy ok s) :
    s.shared.poolShutdown = s.stop.poolDown := by
  refine h.invariant (I := fun s => s.shared.poolShutdown = s.stop.poolDown) ?_ ?_
  · intro s hinit
    obtain ⟨_, _, _, _, rfl⟩ := hinit
    rfl
  intro s a s' _ hi _ hs
  cases step_cases hs with
  | event i sh pc he => exact (EventPc.exec_poolShutdown he).trans hi
  | worker w i sh pc he => exact (WorkerPc.exec_poolShutdown he).trans hi
  | stop wl el sh pc he => exact (StopPc.exec_poolShutdown he).2 hi
  | tick => exact hi

theorem poolRuns {ok} {s : Server n} (h : (system n).ReachableBy ok s) (hstop : s.stop = .notCalled) :
    s.shared.poolShutdown = false := by
  rw [poolShutdown_eq h, hstop]
  rfl

theorem tasked {ok} {s : Server n} (h : (system n).ReachableBy ok s) (c : ConnId) : s.Tasked c := by
  refine h.invariant (I := fun s => s.Tasked c) ?_ ?_
  · intro s hinit
    obtain ⟨serverFd, maxConnections, order, clock, rfl⟩ := hinit
    have : tasksOf (initial n serverFd maxConnections order clock) c = 0 := by
      simp [Server.tasksOf, initial, EventPc.queued, EventPc.carries, WorkerPc.load,
        WorkerPc.stageOf, WorkerPc.stage]
    exact ⟨by rw [this]; exact Nat.zero_le _, fun _ => this⟩
  intro s a s' hr hi _ hs
  have hb := bounded hr
  cases step_cases hs with
  | event i sh pc he =>
    obtain ⟨h₁, h₂⟩ := (EventPc.exec_touch c he).tasks (∑ w, (s.worker w).load c)
      (fun hn => hn ▸ hb.tasksOf) hi.le
    have hp := EventPc.exec_poolShutdown he
    exact ⟨h₁, fun hsd => h₂ (hp ▸ hsd) (hi.eq (hp ▸ hsd))⟩
  | worker w i sh pc he =>
    have hsum := sum_update s.worker w pc (·.load c)
    have hload := le_sum (fun w' => (s.worker w').load c) w
    obtain ⟨hle, heq⟩ := hi
    simp only [tasksOf, EventPc.queued] at hle heq
    obtain ⟨h₁, h₂⟩ := (WorkerPc.exec_touch c he).tasks
      ((if s.event.carries = some c then 1 else 0) +
        (∑ w', (s.worker w').load c - (s.worker w).load c)) (by omega)
    have hp := WorkerPc.exec_poolShutdown he
    refine ⟨?_, fun hsd => ?_⟩ <;> simp only [tasksOf, EventPc.queued]
    · omega
    · have := heq (hp ▸ hsd)
      have := h₂ (by omega)
      omega
  | stop wl el sh pc he _ _ own =>
    obtain ⟨heap, -, htasks, -, -⟩ := StopPc.exec_frame he
    have hflag : sh.flagged c = s.shared.flagged c := by simp [Shared.flagged, heap]
    have hcount : tasksOf { s with shared := sh, stop := pc, owner := own } c = s.tasksOf c := by
      simp [tasksOf, EventPc.queued, htasks]
    refine ⟨?_, fun hsd => ?_⟩ <;> rw [hcount, hflag]
    · exact hi.le
    · exact hi.eq ((StopPc.exec_poolShutdown he).1 hsd)
  | tick => exact ⟨hi.le, hi.eq⟩

/-- A worker that runs a task of `c` is the only one, and no other task waits. -/
theorem Tasked.alone {s : Server n} {c w st} (h : s.Tasked c) (hw : (s.worker w).stageOf c = some st) :
    (s.shared.heap c).processingRequest = true ∧ s.event.queued s.shared c = 0 ∧
      ∀ w', w' ≠ w → (s.worker w').stageOf c = none := by
  have hload := WorkerPc.load_of_stage hw
  have hle := h.le
  have hflag : s.shared.flagged c ≤ 1 := by unfold Shared.flagged; split <;> omega
  have hsum := le_sum (fun w' => (s.worker w').load c) w
  simp only [tasksOf] at hle
  refine ⟨?_, by omega, fun w' hne => ?_⟩
  · by_contra hp
    have : s.shared.flagged c = 0 := by simp [Shared.flagged, hp]
    omega
  · by_contra hst
    obtain ⟨st', hst'⟩ := Option.ne_none_iff_exists'.mp hst
    have htwo : (s.worker w').load c + (s.worker w).load c ≤ ∑ w', (s.worker w').load c :=
      Finset.add_le_sum (f := fun w' => (s.worker w').load c) (fun _ _ => Nat.zero_le _)
        (Finset.mem_univ w') (Finset.mem_univ w) hne
    have := WorkerPc.load_of_stage hst'
    omega

/-- Only one worker has a task of a connection. -/
theorem Tasked.only {s : Server n} {c w w' st st'} (h : s.Tasked c)
    (hw : (s.worker w).stageOf c = some st) (hw' : (s.worker w').stageOf c = some st') : w' = w := by
  by_contra hne
  rw [(h.alone hw).2.2 w' hne] at hw'
  cases hw'

/-- The step of a worker with a task of a connection gives no other one a task of it. -/
theorem Tasked.only_update {s : Server n} {c w w' pc st st'} (h : s.Tasked c)
    (hw : (s.worker w).stageOf c = some st)
    (hw' : (Function.update s.worker w pc w').stageOf c = some st') : w' = w := by
  by_contra hne
  rw [Function.update_of_ne hne] at hw'
  exact hne (h.only hw hw')

end Server

end Webserver
