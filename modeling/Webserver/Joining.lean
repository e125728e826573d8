/-
Several threads call `shutdown`. The flag stops a second call at its test, be
the workers joined or not; and two calls that find it unset both go on to loop
over the workers, where one that comes to join what the other has joined or
waits for is thrown out of its loop. In a run without these steps a call that
has returned has left no worker running, and each worker is joined once.
-/
import Webserver.Wakeup

namespace Webserver.ThreadPool

open Locks Systems

/-- `shutdown` is in its loop over the workers. -/
def Shutdown.loops {n : Nat} : Shutdown n → Bool
  | .joinTest _ | .join _ _ | .waits _ _ => true
  | _ => false

/-- A call of `shutdown` has not passed its test, or is over. -/
def Shutdown.outside {n : Nat} : Shutdown n → Bool
  | .idle | .test | .returned | .thrown => true
  | _ => false

/-- The workers a call of `shutdown` between its store and its return is still
to wait for, where `workers` are those of the pool. -/
def Shutdown.ahead {n : Nat} (workers : List (Fin n)) : Shutdown n → List (Fin n)
  | .notifyAll => workers
  | .joinTest rest => rest
  | .join w rest | .waits w rest => w :: rest
  | _ => []

namespace State

variable {n : Nat} {ι κ : Type} [DecidableEq ι]

/-- How often a worker has been joined. -/
def joins (s : State n ι κ) (w : Fin n) : Nat := s.shared.log.count (.joined w)

/-- Calls of `shutdown` do not meet: one that finds the flag set finds no call
between its store and its return that has to wait for a worker, and one that
starts its loop finds no other in it. -/
def Apart (s : State n ι κ) : Action n ι κ → Prop
  | .shutdown c =>
    match s.stopper c with
    | .test => s.shared.shutdown = true →
        ∀ c', ∀ w ∈ (s.stopper c').ahead s.shared.workers, s.worker w = .exited
    | .notifyAll => ∀ c', (s.stopper c').loops = false
    | _ => True
  | _ => True

instance [Fintype κ] (s : State n ι κ) : DecidablePred s.Apart
  | .shutdown c =>
    match h : s.stopper c with
    | .test => decidable_of_iff (s.shared.shutdown = true →
        ∀ c', ∀ w ∈ (s.stopper c').ahead s.shared.workers, s.worker w = .exited) (by simp [Apart, h])
    | .notifyAll => decidable_of_iff (∀ c', (s.stopper c').loops = false) (by simp [Apart, h])
    | .idle | .lock | .store | .joinTest _ | .join _ _ | .waits _ _ | .returned | .thrown =>
      isTrue (by simp [Apart, h])
  | .worker _ _ | .spurious _ | .enqueue _ _ => isTrue trivial

/-- What a call of `shutdown` knows at a point of its code. -/
def Knows (s : State n ι κ) : Shutdown n → Prop
  | .joinTest rest => ∀ w, w ∉ rest → s.shared.joinable w = false
  | .join w rest | .waits w rest =>
    s.shared.joinable w = true ∧ ∀ w', w' ∉ w :: rest → s.shared.joinable w' = false
  | .returned => s.shared.shutdown = true ∧ ∀ w, s.worker w = .exited
  | .thrown => False
  | _ => True

/-- What the calls of `shutdown` have done. -/
structure Joining (s : State n ι κ) : Prop where
  count : ∀ w, s.joins w = if s.shared.joinable w then 0 else 1
  exited : ∀ w, s.shared.joinable w = false → s.worker w = .exited
  cleared : ∀ w, w ∉ s.shared.workers → s.shared.joinable w = false
  joining : ∀ w, s.shared.joining w = true → ∃ c rest, s.stopper c = .waits w rest
  knows : ∀ c, s.Knows (s.stopper c)
  alone : ∀ c c', (s.stopper c).loops = true → (s.stopper c').loops = true → c = c'
  ended : s.shared.shutdown = true →
    (∃ c, (s.stopper c).hasStored = true) ∨ ∀ w, s.shared.joinable w = false

omit [DecidableEq ι] in
/-- What another thread does leaves a call what it knows. -/
theorem Knows.stable {s s' : State n ι κ} {pc : Shutdown n} (h : s.Knows pc)
    (hj : s'.shared.joinable = s.shared.joinable ∨ pc.loops = false)
    (hf : s.shared.shutdown = true → s'.shared.shutdown = true)
    (hw : ∀ w, s.worker w = .exited → s'.worker w = .exited) : s'.Knows pc := by
  cases pc with
  | joinTest rest | join w rest | waits w rest =>
    rcases hj with hj | hj
    · simpa only [Knows, hj] using h
    · cases hj
  | thrown => exact h
  | returned => exact ⟨hf h.1, fun w => hw w (h.2 w)⟩
  | idle | test | lock | store | notifyAll => trivial

theorem Joining.congr {s s' : State n ι κ} (h : s.Joining) (hf : s'.shared.shutdown = s.shared.shutdown)
    (hv : s'.shared.workers = s.shared.workers) (hj : s'.shared.joinable = s.shared.joinable)
    (hjoining : s'.shared.joining = s.shared.joining) (hl : ∀ w, s'.joins w = s.joins w)
    (hpc : s'.stopper = s.stopper) (hw : ∀ w, s.worker w = .exited → s'.worker w = .exited) :
    s'.Joining where
  count w := by rw [hl, hj]; exact h.count w
  exited w hjw := hw w (h.exited w (hj ▸ hjw))
  cleared w hnot := by rw [hj]; exact h.cleared w (hv ▸ hnot)
  joining := by rw [hjoining, hpc]; exact h.joining
  knows c := by
    rw [hpc]
    exact (h.knows c).stable (.inl hj) (fun hs => hf ▸ hs) hw
  alone := by rw [hpc]; exact h.alone
  ended := by rw [hf, hpc, hj]; exact h.ended

variable [DecidableEq κ]

/-- The callers stay alone in the loop if the one that steps was in it before
or nobody was. -/
theorem alone_update {stopper : κ → Shutdown n} {c : κ} {pc : Shutdown n}
    (h : ∀ c c', (stopper c).loops = true → (stopper c').loops = true → c = c')
    (hpc : pc.loops = true → (stopper c).loops = true ∨ ∀ c', (stopper c').loops = false) (c₁ c₂ : κ)
    (h₁ : (Function.update stopper c pc c₁).loops = true)
    (h₂ : (Function.update stopper c pc c₂).loops = true) : c₁ = c₂ := by
  by_cases e₁ : c₁ = c <;> by_cases e₂ : c₂ = c
  · rw [e₁, e₂]
  · subst e₁
    rw [Function.update_self] at h₁
    rw [Function.update_of_ne e₂] at h₂
    rcases hpc h₁ with hc | hnone
    · exact h _ _ hc h₂
    · exact absurd h₂ (by simp [hnone c₂])
  · subst e₂
    rw [Function.update_of_ne e₁] at h₁
    rw [Function.update_self] at h₂
    rcases hpc h₂ with hc | hnone
    · exact h _ _ h₁ hc
    · exact absurd h₁ (by simp [hnone c₁])
  · rw [Function.update_of_ne e₁] at h₁
    rw [Function.update_of_ne e₂] at h₂
    exact h _ _ h₁ h₂

/-- A call goes on without joining a worker, and does not wait for one now if
it was not about to. -/
theorem Joining.goto {s s₁ : State n ι κ} (h : s.Joining) {c : κ} {pc : Shutdown n}
    (hpc : s₁.stopper = Function.update s.stopper c pc) (hold : ∀ w rest, s.stopper c ≠ .waits w rest)
    (hf : s.shared.shutdown = true → s₁.shared.shutdown = true)
    (hj : s₁.shared.joinable = s.shared.joinable)
    (hjoining : ∀ w, s₁.shared.joining w = true →
      s.shared.joining w = true ∨ ∃ rest, pc = .waits w rest)
    (hl : s₁.shared.log = s.shared.log)
    (hw : ∀ w, s.worker w = .exited → s₁.worker w = .exited)
    (hv : ∀ w, w ∉ s₁.shared.workers → s.shared.joinable w = false) (hk : s₁.Knows pc)
    (hloop : pc.loops = true → (s.stopper c).loops = true ∨ ∀ c', (s.stopper c').loops = false)
    (hended : s₁.shared.shutdown = true → pc.hasStored = true ∨ (s.stopper c).hasStored = false ∧
      s.shared.shutdown = true ∨ ∀ w, s.shared.joinable w = false) : s₁.Joining where
  count w := by
    rw [joins, hl, hj]
    exact h.count w
  exited w hjw := hw w (h.exited w (hj ▸ hjw))
  cleared w hnot := by rw [hj]; exact hv w hnot
  joining w hw := by
    rw [hpc]
    rcases hjoining w hw with hw | ⟨rest, rfl⟩
    · obtain ⟨c', rest, hc'⟩ := h.joining w hw
      have hne : c' ≠ c := fun heq => hold w rest (heq ▸ hc')
      exact ⟨c', rest, by rwa [Function.update_of_ne hne]⟩
    · exact ⟨c, rest, Function.update_self ..⟩
  knows c' := by
    rw [hpc]
    by_cases hc : c' = c
    · rwa [hc, Function.update_self]
    · rw [Function.update_of_ne hc]
      exact (h.knows c').stable (.inl hj) hf hw
  alone := by
    rw [hpc]
    exact alone_update h.alone hloop
  ended hs := by
    rw [hpc, hj]
    rcases hended hs with hstored | ⟨hnot, hs⟩ | hall
    · exact .inl ⟨c, by rwa [Function.update_self]⟩
    · refine (h.ended hs).imp_left fun ⟨c', hc'⟩ => ⟨c', ?_⟩
      have hne : c' ≠ c := by
        rintro rfl
        exact absurd hc' (by simp [hnot])
      rwa [Function.update_of_ne hne]
    · exact .inr hall

/-- A worker that has left is joined. -/
theorem Joining.join {s : State n ι κ} (h : s.Joining) {c : κ} {w : Fin n} {rest : List (Fin n)}
    (hpc : s.stopper c = .waits w rest) (hw : s.worker w = .exited) :
    Joining { s with shared := { s.shared with joinable := Function.update s.shared.joinable w false,
                                               joining := Function.update s.shared.joining w false }.emit
                      (.joined w),
                     stopper := Function.update s.stopper c (.joinTest rest) } := by
  have hloops : (s.stopper c).loops = true := by rw [hpc]; rfl
  obtain ⟨hjoinable, hothers⟩ : s.Knows (.waits w rest) := hpc ▸ h.knows c
  refine ⟨fun w' => ?_, fun w' hjw => ?_, fun w' hnot => ?_, fun w' hjw => ?_, fun c' => ?_, ?_,
    fun _ => ?_⟩
  · have hcount := h.count w'
    simp only [joins, Shared.emit, List.count_append, List.count_singleton] at hcount ⊢
    by_cases hww : w' = w
    · subst hww
      simp [hcount, hjoinable]
    · have hne : w ≠ w' := fun heq => hww heq.symm
      simp [hcount, hww, hne]
  · by_cases hww : w' = w
    · exact hww ▸ hw
    · exact h.exited w' (by simpa [Shared.emit, hww] using hjw)
  · by_cases hww : w' = w
    · simp [Shared.emit, hww]
    · simpa [Shared.emit, hww] using h.cleared w' hnot
  · by_cases hww : w' = w
    · simp [Shared.emit, hww] at hjw
    · obtain ⟨c', rest', hc'⟩ := h.joining w' (by simpa [Shared.emit, hww] using hjw)
      have hne : c' ≠ c := by
        rintro rfl
        exact hww (Shutdown.waits.inj (hc'.symm.trans hpc)).1
      exact ⟨c', rest', by simpa [hne] using hc'⟩
  · by_cases hc : c' = c
    · subst hc
      simp only [Function.update_self]
      intro w' hnot
      by_cases hww : w' = w
      · simp [Shared.emit, hww]
      · simpa [Shared.emit, hww] using hothers w' (by simp [hww, hnot])
    · simp only [Function.update_of_ne hc]
      have hout : (s.stopper c').loops = false :=
        Bool.eq_false_iff.mpr fun hin => hc (h.alone c' c hin hloops)
      exact (h.knows c').stable (.inr hout) id fun _ => id
  · exact alone_update h.alone fun _ => .inl hloops
  · exact .inl ⟨c, by simp [Shutdown.hasStored]⟩

omit [DecidableEq κ] in
/-- A call that has stored the flag and has no worker to wait for: all have left. -/
theorem Joining.exited_of_ahead {s : State n ι κ} (h : s.Joining) {c : κ}
    (hc : (s.stopper c).hasStored = true)
    (hahead : ∀ w ∈ (s.stopper c).ahead s.shared.workers, s.worker w = .exited) (w : Fin n) :
    s.worker w = .exited := by
  by_cases hw : w ∈ (s.stopper c).ahead s.shared.workers
  · exact hahead w hw
  · have hknows := h.knows c
    refine h.exited w ?_
    cases hpc : s.stopper c <;> rw [hpc] at hc hw hknows <;> cases hc
    · exact h.cleared w hw
    · exact hknows w hw
    · exact hknows.2 w hw
    · exact hknows.2 w hw

theorem Joining.stepShutdown {s s' : State n ι κ} {c : κ} (h : s.Joining) (hraised : s.Raised)
    (hok : s.Apart (.shutdown c)) (hs : s.Shutdowns c s') : s'.Joining := by
  have hknows := h.knows c
  simp only [Apart] at hok
  cases hs with
  | begin hpc | first hpc | lock hpc =>
    exact h.goto rfl (by simp [hpc]) id rfl (fun _ => .inl) rfl (fun _ => id) h.cleared trivial
      (absurd · Bool.false_ne_true) fun hs => .inr (.inl ⟨by rw [hpc]; rfl, hs⟩)
  | again hpc hflag =>
    rw [hpc] at hok
    refine h.goto rfl (by simp [hpc]) id rfl (fun _ => .inl) rfl (fun _ => id) h.cleared ?_
      (absurd · Bool.false_ne_true) fun hs => .inr (.inl ⟨by rw [hpc]; rfl, hs⟩)
    refine ⟨hflag, fun w => ?_⟩
    rcases h.ended hflag with ⟨c', hstored⟩ | hall
    · exact h.exited_of_ahead hstored (hok hflag c') w
    · exact h.exited w (hall w)
  | store hpc =>
    exact h.goto rfl (by simp [hpc]) (fun _ => rfl) rfl (fun _ => .inl) rfl (fun _ => id) h.cleared trivial
      (absurd · Bool.false_ne_true) fun _ => .inl rfl
  | notifyAll hpc =>
    rw [hpc] at hok
    refine h.goto rfl (by simp [hpc]) id rfl (fun _ => .inl) rfl (fun w hw => ?_) h.cleared h.cleared
      (fun _ => .inr hok) fun _ => .inl rfl
    simp [hw, Worker.wake]
  | joinTest w rest hpc hj =>
    rw [hpc] at hknows
    have hloops : (s.stopper c).loops = true := by rw [hpc]; rfl
    exact h.goto rfl (by simp [hpc]) id rfl (fun _ => .inl) rfl (fun _ => id) h.cleared ⟨hj, hknows⟩
      (fun _ => .inl hloops) fun _ => .inl rfl
  | skip w rest hpc hj =>
    rw [hpc] at hknows
    have hloops : (s.stopper c).loops = true := by rw [hpc]; rfl
    refine h.goto rfl (by simp [hpc]) id rfl (fun _ => .inl) rfl (fun _ => id) h.cleared
      (fun w' hnot => ?_) (fun _ => .inl hloops) fun _ => .inl rfl
    by_cases hww : w' = w
    · exact hww ▸ hj
    · exact hknows w' (by simp [hww, hnot])
  | join w rest hpc hj =>
    rw [hpc] at hknows
    have hloops : (s.stopper c).loops = true := by rw [hpc]; rfl
    refine h.goto rfl (by simp [hpc]) id rfl (fun w' hw' => ?_) rfl (fun _ => id) h.cleared hknows
      (fun _ => .inl hloops) fun _ => .inl rfl
    by_cases hww : w' = w
    · exact .inr ⟨rest, by rw [hww]⟩
    · exact .inl (by simpa [hww] using hw')
  | throws w rest hpc hj =>
    -- nobody else is in the loop to have joined the worker, or to wait for it
    rw [hpc] at hknows
    have hloops : (s.stopper c).loops = true := by rw [hpc]; rfl
    rcases hj with hj | hj
    · cases hj.symm.trans hknows.1
    · obtain ⟨c', rest', hc'⟩ := h.joining w hj
      obtain rfl : c' = c := h.alone c' c (by rw [hc']; rfl) hloops
      cases hc'.symm.trans hpc
  | joined w rest hpc hw => exact h.join hpc hw
  | clear hpc =>
    rw [hpc] at hknows
    have hall : ∀ w, s.shared.joinable w = false := fun w => hknows w List.not_mem_nil
    have hflag := hraised c (by rw [hpc]; rfl)
    exact h.goto rfl (by simp [hpc]) id rfl (fun _ => .inl) rfl (fun _ => id) (fun w _ => hall w)
      ⟨hflag, fun w => h.exited w (hall w)⟩ (absurd · Bool.false_ne_true) fun _ => .inr (.inr hall)

omit [DecidableEq κ] in
/-- What is logged but a join leaves the count. -/
theorem joins_emit {s s' : State n ι κ} {e : Event n ι} (hl : s'.shared.log = s.shared.log ++ [e])
    (he : ∀ w, e ≠ .joined w) (w : Fin n) : s'.joins w = s.joins w := by
  rw [joins, hl, List.count_append, List.count_singleton]
  simp [joins, he w]

omit [DecidableEq κ] in
theorem Joining.stepEnqueue {s s' : State n ι κ} {e} (h : s.Joining)
    (hs : s.Enqueues e s') : s'.Joining := by
  have same : ∀ w, s.joins w = s.joins w := fun _ => rfl
  cases hs with
  | refuse | push | notifyNobody => exact h.congr rfl rfl rfl rfl (joins_emit rfl nofun) rfl fun _ => id
  | notify w _ hw => exact h.congr rfl rfl rfl rfl (joins_emit rfl nofun) rfl (exited_wakeOne hw)
  | _ => exact h.congr rfl rfl rfl rfl same rfl fun _ => id

theorem joining {s : State n ι κ} (h : (system n ι κ).ReachableBy Apart s) : s.Joining := by
  refine h.invariant (I := Joining) ?_ ?_
  · intro s hinit
    cases hinit
    exact ⟨fun _ => rfl, nofun, fun w hnot => absurd (List.mem_finRange w) hnot, nofun, fun _ => trivial,
      nofun, nofun⟩
  intro s a s' hr hi hok hs
  cases step_cases hs with
  | worker w threw sh pc hw =>
    have hframe : sh.shutdown = s.shared.shutdown ∧ sh.workers = s.shared.workers ∧
        sh.joinable = s.shared.joinable ∧ sh.joining = s.shared.joining ∧ s.worker w ≠ .exited ∧
        (sh.log = s.shared.log ∨ ∃ e, sh.log = s.shared.log ++ [e] ∧ ∀ w, e ≠ .joined w) := by
      generalize s.worker w = pc₀ at hw
      cases hw with
      | take t => exact ⟨rfl, rfl, rfl, rfl, nofun, .inr ⟨.taken w t, rfl, nofun⟩⟩
      | execute t threw => exact ⟨rfl, rfl, rfl, rfl, nofun, .inr ⟨.executed w t threw, rfl, nofun⟩⟩
      | _ => exact ⟨rfl, rfl, rfl, rfl, nofun, .inl rfl⟩
    obtain ⟨hf, hv, hj, hjoining, hne, hlog⟩ := hframe
    refine hi.congr hf hv hj hjoining (fun w' => ?_) rfl fun w' hw' => ?_
    · rcases hlog with hlog | ⟨e, hlog, hnot⟩
      · simp only [joins, hlog]
      · exact joins_emit hlog hnot w'
    · have hne : w' ≠ w := by
        rintro rfl
        exact hne hw'
      simpa [hne] using hw'
  | spurious w hw => exact hi.congr rfl rfl rfl rfl (fun _ => rfl) rfl (exited_wakeOne hw)
  | enqueue e woken s₁ he =>
    exact (hi.stepEnqueue he).congr rfl rfl rfl rfl (fun _ => rfl) rfl fun _ => id
  | shutdown c s₁ he =>
    exact (hi.stepShutdown (raised hr) hok he).congr rfl rfl rfl rfl (fun _ => rfl) rfl fun _ => id

/-- **Shutdown means stopped**, in every run in which calls of `shutdown` do
not meet: when a call has returned the workers have left; none is joined
twice; and when the last call has returned each has been joined. -/
theorem shutdown_joins {s : State n ι κ} (h : (system n ι κ).ReachableBy Apart s) :
    ((∃ c, s.stopper c = .returned) → ∀ w, s.worker w = .exited) ∧ (∀ w, s.joins w ≤ 1) ∧
    ((∃ c, s.stopper c = .returned) → (∀ c, (s.stopper c).outside = true) → ∀ w, s.joins w = 1) := by
  have hi := joining h
  have hreturned : (∃ c, s.stopper c = .returned) →
      s.shared.shutdown = true ∧ ∀ w, s.worker w = .exited := by
    rintro ⟨c, hc⟩
    have hknows := hi.knows c
    rwa [hc] at hknows
  refine ⟨fun hc => (hreturned hc).2, fun w => ?_, fun hc hout w => ?_⟩
  · rw [hi.count]
    split <;> omega
  · have hjoined : s.shared.joinable w = false := by
      rcases hi.ended (hreturned hc).1 with ⟨c', hstored⟩ | hall
      · have hnot := hout c'
        cases hpc : s.stopper c' <;> rw [hpc] at hstored hnot <;> cases hstored <;> cases hnot
      · exact hall w
    rw [hi.count, hjoined]
    rfl

/-- The one call joins the worker and returns before the other tests the flag. -/
def oneByOne : List (Action 1 Unit Bool) :=
  List.replicate 5 (.shutdown true) ++ [.worker (Fin.last 0) false] ++
    List.replicate 4 (.shutdown true) ++ List.replicate 2 (.shutdown false)

theorem shutdown_joins_oneByOne : ∃ s : State 1 Unit Bool, s.stopper false = .returned ∧
    (∀ w, s.worker w = .exited) ∧ ∀ w, s.joins w = 1 := by
  obtain ⟨s, hr, hs⟩ := System.exists_reachableBy (S := system 1 Unit Bool) (s := {}) rfl
    (fun s a => decide (s.Apart a)) oneByOne
    (fun s => s.stopper false = .returned && decide (∀ c, (s.stopper c).outside = true)) (by decide +kernel)
  simp only [Bool.and_eq_true, decide_eq_true_eq] at hs
  obtain ⟨hexited, -, hjoined⟩ := shutdown_joins (hr.mono fun _ _ => of_decide_eq_true)
  exact ⟨s, hs.1, hexited ⟨false, hs.1⟩, hjoined ⟨false, hs.1⟩ hs.2⟩

/-- A worker runs a task while the one call waits for it and the other comes. -/
def meeting : List (Action 1 Unit Bool) :=
  List.replicate 5 (.enqueue () none) ++ List.replicate 3 (.worker (Fin.last 0) false) ++
    List.replicate 7 (.shutdown true) ++ List.replicate 2 (.shutdown false)

/-- The second call returns while the worker runs its task. -/
theorem not_shutdown_joins : ¬ ∀ (n : Nat) (ι κ : Type) (_ : DecidableEq ι) (_ : DecidableEq κ)
    (s : State n ι κ), (system n ι κ).Reachable s → ∀ c, s.stopper c = .returned →
      ∀ w, s.worker w = .exited := by
  intro h
  obtain ⟨s, hr, hs⟩ := System.exists_reachable (S := system 1 Unit Bool) (s := {}) rfl meeting
    (fun s => s.stopper false = .returned && decide (s.worker (Fin.last 0) = .run ((), 0))) (by decide +kernel)
  simp only [Bool.and_eq_true, decide_eq_true_eq] at hs
  cases (h 1 Unit Bool inferInstance inferInstance s hr false hs.1 (Fin.last 0)).symm.trans hs.2

end State

end Webserver.ThreadPool
