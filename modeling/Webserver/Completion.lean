/-
How far the whole program gets by itself: between two things that come from
outside it takes a bounded number of steps, those of the file handler included,
and where it can take none the server has settled.
-/
import Webserver.Overshoot
import Webserver.Progress
import Webserver.Sequential
import Webserver.Site

namespace Webserver

open Cxx Locks Systems

namespace FilePc

/-- The steps a call of `handle_file_request` may still take. -/
def work : FilePc → Nat
  | idle | returned _ _ | thrown _ => 0
  | listing _ | put _ _ _ => 1
  | read _ _ => 2
  | get _ _ => 3
  | fileSize _ _ => 4
  | isRegular _ _ => 5
  | defaultRegular _ => 6
  | defaultExists _ => 7
  | isDirectory _ => 8
  | exists_ _ => 9
  | safe _ pc => pc.left + 9

variable {h h' : FileHandler} {fs : FileSystem} {now : Int} {texts : EntryTexts} {date : Bytes}

theorem work_onAnswer {α : Type} {call : FileCall} {answer : Except Failure α} {next : α → FilePc} {m : Nat}
    (hm : 0 < m) (hn : ∀ a, (next a).work < m) : (onAnswer call date answer next).work < m := by
  cases answer with
  | ok a => exact hn a
  | error e => exact hm

theorem exec_work {pc pc' : FilePc} (he : pc.exec h fs now texts date = some (h', pc')) : pc'.work < pc.work := by
  cases pc with
  | idle | returned | thrown => cases he
  | safe call pc =>
    obtain ⟨-, rfl⟩ := Prod.mk.inj (Option.some.inj he)
    split
    · next pc' hpc => exact Nat.add_lt_add_right (SafePc.exec_left hpc) 9
    · exact Nat.lt_add_of_pos_left pc.left_pos
    · exact Nat.succ_pos _
    · exact Nat.succ_pos _
  | exists_ call =>
    obtain ⟨-, rfl⟩ := Prod.mk.inj (Option.some.inj he)
    split <;> simp [work, refused]
  | isDirectory call | defaultExists call | defaultRegular call | isRegular call path | fileSize call path =>
    obtain ⟨-, rfl⟩ := Prod.mk.inj (Option.some.inj he)
    refine work_onAnswer (by simp [work]) fun a => ?_
    split <;> simp [work, refused]
  | listing call =>
    obtain ⟨-, rfl⟩ := Prod.mk.inj (Option.some.inj he)
    simp [work]
  | get call path =>
    simp only [exec] at he
    split at he <;> obtain ⟨-, rfl⟩ := Prod.mk.inj (Option.some.inj he) <;> simp [work]
  | read call path =>
    obtain ⟨-, rfl⟩ := Prod.mk.inj (Option.some.inj he)
    split <;> simp [work, refused]
  | put call path content =>
    obtain ⟨_, -, heq⟩ := Option.map_eq_some_iff.mp he
    obtain ⟨-, rfl⟩ := Prod.mk.inj heq
    simp [work]

end FilePc

namespace Site

variable {n : Nat}

/-- The steps a worker may take in the file handler for the request it answers. -/
def handling (s : Site n) (w : Fin n) : Nat := (s.files.worker w).work + if s.called w then 0 else 16

/-- The steps the program may take by itself. -/
def work (s : Site n) : Nat := 17 * s.server.work + ∑ w, s.handling w

/-- The step does what comes from outside. -/
def stimulus (s : Site n) : SiteAction n → Bool
  | .server a => s.server.stimulus a
  | .change _ | .tick _ => true
  | _ => false

/-- The program takes a step of its own. -/
def Stirs (s : Site n) : Prop := ∃ a s', s.stimulus a = false ∧ s.step a = some s'

/-- A step in which one worker goes on. -/
theorem sum_handling (s s' : Site n) (w : Fin n) (h : ∀ w', w' ≠ w → s'.handling w' = s.handling w') :
    ∑ w, s'.handling w + s.handling w = ∑ w, s.handling w + s'.handling w := by
  have hupdate : Function.update s.handling w (s'.handling w) = s'.handling := by
    funext w'
    by_cases hww : w' = w
    · subst hww
      simp
    · simp [hww, h w' hww]
  have hsum := sum_update s.handling w (s'.handling w) id
  rw [hupdate] at hsum
  simp only [id] at hsum
  omega

theorem step_work {s s' : Site n} {a : SiteAction n} (ha : s.stimulus a = false) (hstep : s.step a = some s') :
    s'.work < s.work := by
  cases step_cases hstep with
  | server a server hasks hs =>
    have hfalls := Server.step_work ha hs
    simp only [work, handling]
    omega
  | call w c request files hw hasks hcalled hs =>
    have hsum := sum_handling s
      { s with files, called := Function.update s.called w true } w fun w' hww => by
        cases FileWorkers.step_cases hs
        simp [handling, hww]
    have hlt : Site.handling { s with files, called := Function.update s.called w true } w < s.handling w := by
      cases FileWorkers.step_cases hs
      simp only [handling, hcalled, Function.update_self, FilePc.work, SafePc.left, if_true, Bool.false_eq_true,
        if_false]
      omega
    simp only [work]
    omega
  | files w texts date files hs =>
    cases FileWorkers.step_cases hs with
    | worker _ _ _ h' pc' he =>
      have hsum := sum_handling s
        { s with files := { s.files with handler := h', worker := Function.update s.files.worker w pc' } }
        w fun w' hww => by simp [handling, hww]
      have hlt := FilePc.exec_work he
      simp only [handling, Function.update_self] at hsum
      simp only [work, handling]
      omega
  | answer w e t c request response server hw hserved hs =>
    have hfalls : server.work < s.server.work := Server.step_work rfl hs
    have hsum := sum_handling s
      { s with server, called := Function.update s.called w false } w fun w' hww => by
        simp [handling, hww]
    have hle : Site.handling { s with server, called := Function.update s.called w false } w ≤ s.handling w + 16 := by
      simp only [handling, Function.update_self, Bool.false_eq_true, if_false]
      omega
    simp only [work] at *
    omega
  | escape w c request call hw hthrown hcalled =>
    -- the worker leaves what it still had to do
    have hserver := sum_update s.server.worker w .idle WorkerPc.work
    have hsum := sum_handling s
      { s with
        server := { s.server with worker := Function.update s.server.worker w .idle }
        called := Function.update s.called w false } w fun w' hww => by simp [handling, hww]
    have hle : Site.handling
        { s with
          server := { s.server with worker := Function.update s.server.worker w .idle }
          called := Function.update s.called w false } w ≤ s.handling w + 16 := by
      simp only [handling, Function.update_self, Bool.false_eq_true, if_false]
      omega
    have hrespond : (WorkerPc.respond c request).work = 18 := rfl
    have hidle : WorkerPc.idle.work = 1 := rfl
    rw [hw, hrespond, hidle] at hserver
    simp only [work, Server.work] at *
    omega
  | change | tick => cases ha

/-! ## Where the program can take no step -/

variable {documentRoot defaultFile : Bytes} {enableCache : Bool} {cacheSizeMb : Nat}

/-- An exception ends a task. -/
def escapes : SiteAction n → Bool
  | .escape _ => true
  | _ => false

/-- The step crosses two threads of the server on their mutexes. -/
def crosses (s : Site n) (a : SiteAction n) : Bool := (s.serverAction a).any s.server.crosses

/-- The file handler works for no worker that has not called it. -/
theorem rests {ok} {s : Site n} (h : (system n documentRoot defaultFile enableCache cacheSizeMb).ReachableBy ok s)
    (w : Fin n) (hcalled : s.called w = false) : (s.files.worker w).work = 0 := by
  refine h.invariant (I := fun s => ∀ w, s.called w = false → (s.files.worker w).work = 0) ?_ ?_ w hcalled
  · intro s hinit w _
    rw [hinit.2.1.2.1 w]
    rfl
  intro s a s' hr hi _ hstep w hcalled
  cases step_cases hstep with
  | server => exact hi w hcalled
  | call w' c request files hw' _ _ hs =>
    have hww : w ≠ w' := by
      rintro rfl
      simp at hcalled
    cases FileWorkers.step_cases hs
    simpa [hww] using hi w (by simpa [hww] using hcalled)
  | files w' texts date files hs =>
    cases FileWorkers.step_cases hs with
    | worker _ _ _ h' pc' he =>
      by_cases hww : w = w'
      · subst hww
        have hlt := FilePc.exec_work he
        rw [hi w hcalled] at hlt
        cases hlt
      · simpa [hww] using hi w hcalled
  | answer w' e t c request response server hw' hserved =>
    by_cases hww : w = w'
    · subst hww
      unfold served at hserved
      by_cases hc : s.called w = true
      · obtain ⟨request', call, ⟨c', hw''⟩, hasks, -, -⟩ := calls hr w hc
        obtain ⟨-, rfl⟩ := WorkerPc.respond.inj (hw'.symm.trans hw'')
        have hapi : request.asksApi = false := by
          have hpath := (HttpRequest.asksFile_iff.mp hasks).2
          simp [HttpRequest.asksApi, hpath]
        simp only [hapi, hasks, Bool.false_eq_true, if_false, if_true] at hserved
        split at hserved
        · next hreturned =>
          rw [hreturned]
          rfl
        · cases hserved
      · exact hi w (by simpa using hc)
    · exact hi w (by simpa [hww] using hcalled)
  | escape w' c request call hw' hthrown =>
    by_cases hww : w = w'
    · subst hww
      rw [hthrown]
      rfl
    · exact hi w (by simpa [hww] using hcalled)
  | change fs files hs =>
    cases FileWorkers.step_cases hs
    exact hi w hcalled
  | tick ns files server hf =>
    cases FileWorkers.step_cases hf
    exact hi w hcalled

/-- Where no exception ends a task, the server reaches what the program reaches. -/
theorem server_uncrossed {s : Site n} (h : (system n documentRoot defaultFile enableCache cacheSizeMb).ReachableBy
    (fun s a => escapes a = false ∧ s.crosses a = false) s) :
    (Server.system n).ReachableBy (fun s a => !s.crosses a) s.server := by
  refine System.ReachableBy.projects (S := system n documentRoot defaultFile enableCache cacheSizeMb)
    (fun s => s.server) (fun s hinit => hinit.1) ?_ h
  rintro s a s' _ ⟨hescape, hcross⟩ hstep
  have uncrossed : ∀ b, s.serverAction a = some b → (!s.server.crosses b) = true := fun b hb => by
    simpa [crosses, hb] using hcross
  cases step_cases hstep with
  | call | files | change => exact .inl rfl
  | server a server hasks hs => exact .inr ⟨a, uncrossed a rfl, hs⟩
  | answer w e t c request response server hw hserved hs =>
    have hb : s.serverAction (.answer w e t) = some (.worker w (.serves response t.date)) := by
      simp [serverAction, hw, hserved]
    exact .inr ⟨_, uncrossed _ hb, hs⟩
  | escape => cases hescape
  | tick ns files server hf hs => exact .inr ⟨_, uncrossed _ rfl, hs⟩

/-- A worker goes on with what it is served. -/
theorem stirs_of_served {s : Site n} {w : Fin n} {c : ConnId} {request : HttpRequest}
    (hw : s.server.worker w = .respond c request) {e : Surroundings} {t : TimeTexts} {response : HttpResponse}
    (hserved : s.served w request e t = some response) : s.Stirs := by
  have hserver : (s.server.step (.worker w (.serves response t.date))).isSome := by
    simp [Server.step, Server.lockOp, hw, WorkerPc.lockOp, LockOp.apply, WorkerPc.exec]
  obtain ⟨server, hs⟩ := Option.isSome_iff_exists.mp hserver
  exact ⟨.answer w e t, { s with server, called := Function.update s.called w false }, rfl,
    by simp [step, hw, hserved, hs]⟩

/-- A worker that waits for a handler has a step, or the file handler has one for it. -/
theorem stirs_of_respond {ok} (hwrap : LRUCache.megabytes cacheSizeMb + LRUCache.largest * n < 2 ^ 64) {s : Site n}
    (h : (system n documentRoot defaultFile enableCache cacheSizeMb).ReachableBy ok s) {w : Fin n} {c : ConnId}
    {request : HttpRequest} (hw : s.server.worker w = .respond c request) : s.Stirs := by
  have hfiles : (FileWorkers.system n documentRoot defaultFile enableCache cacheSizeMb).Reachable s.files :=
    files_reachable (fun _ _ _ _ _ => trivial) h
  let e : Surroundings := ⟨s.files.fs, ⟨fun _ => [], fun _ => []⟩, n, 0, 0, fun _ _ => [], 0⟩
  have free : request.asksFile = false ∨ request.asksApi = true → s.Stirs := by
    intro hfree
    have hserved : (s.served w request e ⟨[], []⟩).isSome := by
      unfold served
      split
      · rfl
      · next hapi =>
        have hfile := hfree.resolve_right hapi
        simp [hfile]
    obtain ⟨response, hr⟩ := Option.isSome_iff_exists.mp hserved
    exact stirs_of_served hw hr
  by_cases hfile : request.asksFile = true
  swap
  · exact free (.inl (by simpa using hfile))
  cases hcalled : s.called w with
  | false =>
    have htakes : (s.files.step (.call w request.path)).isSome := by
      have hrest := rests h w hcalled
      cases hpc : s.files.worker w with
      | idle | returned | thrown => simp [FileWorkers.step, hpc]
      | _ => simp [hpc, FilePc.work] at hrest
    obtain ⟨files, hs⟩ := Option.isSome_iff_exists.mp htakes
    exact ⟨.call w, { s with files, called := Function.update s.called w true }, rfl,
      by simp [step, hw, hfile, hcalled, hs]⟩
  | true =>
    obtain ⟨request', call, -, -, hcall, -⟩ := calls h w hcalled
    rcases FileWorkers.goes_or_takes hwrap hfiles w ⟨fun _ => [], fun _ => []⟩ [] with hgo | htake
    · obtain ⟨files, hs⟩ := Option.isSome_iff_exists.mp hgo
      exact ⟨.files w ⟨fun _ => [], fun _ => []⟩ [], { s with files }, rfl, by simp [step, hs]⟩
    · -- the call has ended
      have htake := htake []
      cases hpc : s.files.worker w with
      | idle => simp [hpc, FilePc.call] at hcall
      | returned call r =>
        by_cases hapi : request.asksApi = true
        · exact free (.inr hapi)
        · have hserved : s.served w request e ⟨[], []⟩ = some r := by simp [served, hapi, hfile, hpc, hcalled]
          exact stirs_of_served hw hserved
      | thrown call =>
        exact ⟨.escape w, _, rfl, by simp only [step, hw, hpc, hcalled, if_true]; rfl⟩
      | _ => simp [FileWorkers.step, hpc] at htake

/-- Where the server has settled, no worker waits for a handler. -/
theorem respond_ne_of_settled {s : Site n} (hsettled : s.server.Settled) (w : Fin n) (c : ConnId)
    (request : HttpRequest) : s.server.worker w ≠ .respond c request := by
  intro hw
  rcases hsettled.worker w with ⟨hpc, -⟩ | hpc <;> cases hw.symm.trans hpc

/-- Then no request is left in the file handler. -/
theorem not_called_of_settled {ok} {s : Site n}
    (h : (system n documentRoot defaultFile enableCache cacheSizeMb).ReachableBy ok s) (hsettled : s.server.Settled)
    (w : Fin n) : s.called w = false := by
  by_contra hcalled
  obtain ⟨request, call, ⟨c, hw⟩, -⟩ := calls h w (by simpa using hcalled)
  exact respond_ne_of_settled hsettled w c request hw

/-- Where the server has settled, the program has no step of its own. -/
theorem not_stirs_of_settled {ok} {s : Site n}
    (h : (system n documentRoot defaultFile enableCache cacheSizeMb).ReachableBy ok s) (hsettled : s.server.Settled) :
    ¬ s.Stirs := by
  rintro ⟨a, s', ha, hstep⟩
  cases step_cases hstep with
  | server a server hasks hs => exact hsettled.not_stirs ⟨a, server, ha, hs⟩
  | call w c request files hw => exact respond_ne_of_settled hsettled w c request hw
  | files w texts date files hs =>
    cases FileWorkers.step_cases hs with
    | worker _ _ _ h' pc' he =>
      have hlt := FilePc.exec_work he
      rw [rests h w (not_called_of_settled h hsettled w)] at hlt
      cases hlt
  | answer w e t c request response server hw => exact respond_ne_of_settled hsettled w c request hw
  | escape w c request call hw => exact respond_ne_of_settled hsettled w c request hw
  | change | tick => cases ha

/-- A step of the server that needs a handler's answer is one of a worker that
waits for it. -/
theorem respond_of_asks {s s' : Server n} {a : Action n} (ha : s.stimulus a = false) (hs : s.step a = some s')
    (hasks : ¬ asksNone a = true) : ∃ w c request, s.worker w = .respond c request := by
  cases Server.step_cases hs with
  | event | stop => exact absurd rfl hasks
  | tick => cases ha
  | worker w i sh pc he =>
    cases i with
    | serves =>
      refine ⟨w, ?_⟩
      cases hw : s.worker w with
      | respond c request => exact ⟨c, request, rfl⟩
      | sub p c =>
        rw [hw] at he
        cases WorkerPc.exec_steps he with
        | sub _ _ _ h₁ => cases SubPc.exec_steps h₁
      | _ =>
        rw [hw] at he
        cases WorkerPc.exec_steps he
    | _ => exact absurd rfl hasks

/-- **The program comes to rest**, the file handler and its cache included. From
any state it takes no more steps than there is work before something comes from
outside; and as long as no step has crossed two threads, no exception has ended a
task and the cache's counter cannot wrap, it can take none exactly where the
server has settled. Then no request is left in the file handler. -/
theorem settles :
    (∀ (s s' : Site n) as, (system n documentRoot defaultFile enableCache cacheSizeMb).runBy
      (fun s a => !s.stimulus a) s as = some s' → as.length + s'.work ≤ s.work) ∧
    (LRUCache.megabytes cacheSizeMb + LRUCache.largest * n < 2 ^ 64 → ∀ s : Site n,
      (system n documentRoot defaultFile enableCache cacheSizeMb).ReachableBy
        (fun s a => escapes a = false ∧ s.crosses a = false) s →
      (s.Stirs ↔ ¬ s.server.Settled) ∧ (s.server.Settled → ∀ w, s.called w = false)) := by
  refine ⟨fun s s' as hrun => ?_, fun hwrap s h => ?_⟩
  · exact System.length_le_of_runBy work (fun _ _ _ ha hs => step_work (by simpa using ha) hs) hrun
  refine ⟨⟨fun hstirs hsettled => not_stirs_of_settled h hsettled hstirs, fun hnot => ?_⟩, not_called_of_settled h⟩
  obtain ⟨a, server, ha, hs⟩ := Server.stirs_of_not_settled (server_uncrossed h) hnot
  by_cases hasks : asksNone a = true
  · exact ⟨.server a, { s with server }, ha, by simp [step, hasks, hs]⟩
  · obtain ⟨w, c, request, hw⟩ := respond_of_asks ha hs hasks
    exact stirs_of_respond hwrap h hw

/-- The worker is in the file handler, and the event thread holds the map's
mutex to register a second client. -/
def handled : List (SiteAction 1) :=
  (Server.acceptClient 7 1 ++ Server.receiveRequest 7 (Server.asksPage (bytes "/a.txt")).toBytes 1 ++
    Server.workerSteps [.go, .go, .go, .go, .go]).map .server ++
  ((List.finRange 1).flatMap fun w => .call w :: List.replicate 9 (.files w ⟨fun _ => [], fun _ => []⟩ [])) ++
  (Server.eventSteps (pollInputs [(3, true, false)] ++ (acceptInputs 8).take 7)).map .server

/-- From there both go on to the end. -/
def rested : List (SiteAction 1) :=
  let e : Surroundings := ⟨Serving.someFiles [], ⟨fun _ => [], fun _ => []⟩, 1, 0, 1, fun _ _ => [], 0⟩
  (Server.eventSteps ((acceptInputs 8).drop 7 ++ sweepInputs 2 ++ [.go])).map .server ++
  ((List.finRange 1).flatMap fun w =>
    List.replicate 2 (.files w ⟨fun _ => [], fun _ => []⟩ []) ++ [.answer w e ⟨[], []⟩]) ++
  (Server.workerSteps ([.go, .go, .go] ++ respondInputs (.accepts 200) ++ finishInputs)).map .server

theorem settles_handled : ∃ s s' : Site 1, s.called 0 = true ∧ (s.files.worker 0).work = 2 ∧
    s.server.owner .connections = some .event ∧ s.Stirs ∧ rested.length + s'.work ≤ s.work ∧
    s'.server.Settled ∧ ¬ s'.Stirs ∧ ∀ w, s'.called w = false := by
  obtain ⟨s, hr, hs⟩ := System.exists_reachableBy init_started (fun s a => !escapes a && !s.crosses a) handled
    (fun s => decide (s.called 0 = true ∧ (s.files.worker 0).work = 2 ∧ s.server.owner .connections = some .event) &&
      ((system 1 (bytes "./public") (bytes "index.html") true 100).runBy
        (fun s a => !s.stimulus a && (!escapes a && !s.crosses a)) s rested).any fun s => s.server.quiet)
    (by decide +kernel)
  simp only [Bool.and_eq_true, decide_eq_true_eq, Option.any_eq_true] at hs
  obtain ⟨⟨hcalled, hwork, howner⟩, s', hrun, hquiet⟩ := hs
  have hsettled := Server.settled_of_quiet hquiet
  have hr' := hr.of_runBy (fun _ _ hok => (Bool.and_eq_true_iff.mp hok).2) hrun
  have uncrossed : ∀ (s : Site 1) a, (!escapes a && !s.crosses a) = true → escapes a = false ∧ s.crosses a = false :=
    fun s a hok => by simpa using hok
  have hbound := settles.1 s s' rested (System.runBy_mono (fun _ _ hok => (Bool.and_eq_true_iff.mp hok).1) hrun)
  have hbegun := (settles.2 (by decide) s (hr.mono uncrossed)).1
  have hended := settles.2 (by decide) s' (hr'.mono uncrossed)
  refine ⟨s, s', hcalled, hwork, howner, hbegun.mpr fun h => ?_, hbound, hsettled,
    fun hstirs => hended.1.mp hstirs hsettled, hended.2 hsettled⟩
  cases hcalled.symm.trans (not_called_of_settled hr h 0)

end Site

end Webserver
