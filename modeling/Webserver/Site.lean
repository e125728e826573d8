/-
The whole program: the threads of the server and, behind its workers, the file
handler they share. A worker with a request for a file calls the file handler,
and goes on with what the call returns; files change meanwhile, and one clock
is read by all.
-/
import Webserver.Answer
import Webserver.Heads
import Webserver.Transparency
import Webserver.Turns

namespace Webserver

open Cxx HttpResponse Systems

structure Site (n : Nat) where
  server : Server n
  files : FileWorkers n
  /-- Not in the source: whether a worker has called the file handler for the
  request it answers. -/
  called : Fin n → Bool

inductive SiteAction (n : Nat)
  /-- A step of a thread of the server that asks no handler. -/
  | server (a : Action n)
  | call (w : Fin n)
  | files (w : Fin n) (texts : EntryTexts) (date : Bytes)
  /-- The worker goes on with its response; `e` and `t` are what the status
  endpoint and an error page print. -/
  | answer (w : Fin n) (e : Surroundings) (t : TimeTexts)
  /-- An exception ends the worker's task. -/
  | escape (w : Fin n)
  | change (fs : FileSystem)
  | tick (ns : Nat)

/-- A GET or HEAD for a path that is not the API's. -/
def HttpRequest.asksFile (request : HttpRequest) : Bool :=
  request.valid && (request.method = .get || request.method = .head) && !isApiPath request.path

/-- A GET or HEAD for a path of the API. -/
def HttpRequest.asksApi (request : HttpRequest) : Bool :=
  request.valid && (request.method = .get || request.method = .head) && isApiPath request.path

theorem HttpRequest.asksFile_iff {request : HttpRequest} : request.asksFile = true ↔
    (request.valid = true ∧ (request.method = .get ∨ request.method = .head)) ∧
      isApiPath request.path = false := by simp [asksFile]

theorem HttpRequest.asksApi_iff {request : HttpRequest} : request.asksApi = true ↔
    (request.valid = true ∧ (request.method = .get ∨ request.method = .head)) ∧
      isApiPath request.path = true := by simp [asksApi]

theorem FilePc.exec_call {h h' : FileHandler} {fs : FileSystem} {now : Int} {texts : EntryTexts} {date : Bytes}
    {pc pc' : FilePc} (he : pc.exec h fs now texts date = some (h', pc')) : pc'.call = pc.call := by
  cases exec_steps he with
  | query call hq => exact hq.stays.trans hq.inside.symm
  | hit | miss | read | store => rfl

namespace Site

variable {n : Nat}

/-- What the handlers serve a worker for its request; no handler is asked for
a request that is invalid or has another method. -/
def served (s : Site n) (w : Fin n) (request : HttpRequest) (e : Surroundings) (t : TimeTexts) :
    Option HttpResponse :=
  if request.asksApi then some (handleApiRequest e s.files.handler request.path t)
  else if request.asksFile then
    match s.files.worker w with
    | .returned _ response => if s.called w then some response else none
    | _ => none
  else some (buildResponse request (.new .ok t.date) t.date)

/-- A step of a thread that asks no handler. -/
def asksNone : Action n → Bool
  | .worker _ (.serves _ _) | .tick _ => false
  | _ => true

def step (s : Site n) : SiteAction n → Option (Site n)
  | .server a => if asksNone a then (s.server.step a).map fun server => { s with server } else none
  | .call w =>
    match s.server.worker w with
    | .respond _ request =>
      if request.asksFile && !s.called w then
        (s.files.step (.call w request.path)).map fun files =>
          { s with files, called := Function.update s.called w true }
      else none
    | _ => none
  | .files w texts date => (s.files.step (.worker w texts date)).map fun files => { s with files }
  | .answer w e t =>
    match s.server.worker w with
    | .respond _ request =>
      (s.served w request e t).bind fun response =>
        (s.server.step (.worker w (.serves response t.date))).map fun server =>
          { s with server, called := Function.update s.called w false }
    | _ => none
  | .escape w =>
    match s.server.worker w, s.files.worker w with
    | .respond _ _, .thrown _ =>
      -- the exception is kept by the task's `std::future`, which nobody asks
      if s.called w then
        some { s with server := { s.server with worker := Function.update s.server.worker w .idle }
                      called := Function.update s.called w false }
      else none
    | _, _ => none
  | .change fs => (s.files.step (.change fs)).map fun files => { s with files }
  | .tick ns =>
    (s.files.step (.advance ns)).bind fun files =>
      (s.server.step (.tick ns)).map fun server => { s with server, files }

/-- The program from `start()` on, over any files. -/
def system (n : Nat) (documentRoot defaultFile : Bytes) (enableCache : Bool) (cacheSizeMb : Nat) :
    System (Site n) (SiteAction n) where
  init s := (Server.system n).init s.server ∧
    (FileWorkers.system n documentRoot defaultFile enableCache cacheSizeMb).init s.files ∧
    s.files.clock = s.server.shared.clock ∧ ∀ w, s.called w = false
  step := step

/-! ## The two parts -/

/-- The step of the server that a step of the program is. -/
def serverAction (s : Site n) : SiteAction n → Option (Action n)
  | .server a => some a
  | .answer w e t =>
    match s.server.worker w with
    | .respond _ request => (s.served w request e t).map fun response => .worker w (.serves response t.date)
    | _ => none
  | .tick ns => some (.tick ns)
  | _ => none

/-- The step of the file handler that a step of the program is. -/
def fileAction (s : Site n) : SiteAction n → Option (FileAction n)
  | .call w =>
    match s.server.worker w with
    | .respond _ request => some (.call w request.path)
    | _ => none
  | .files w texts date => some (.worker w texts date)
  | .change fs => some (.change fs)
  | .tick ns => some (.advance ns)
  | _ => none

/-- What a step does: a thread of the server goes on, a worker calls the file
handler, goes on in it, answers with what it returned or loses its task to an
exception, files change, or time passes. -/
inductive Steps (s : Site n) : SiteAction n → Site n → Prop
  | server (a server) (hasks : asksNone a = true) (hs : s.server.step a = some server) :
      Steps s (.server a) { s with server }
  | call (w c request files) (hw : s.server.worker w = .respond c request) (hasks : request.asksFile = true)
      (hcalled : s.called w = false) (hs : s.files.step (.call w request.path) = some files) :
      Steps s (.call w) { s with files, called := Function.update s.called w true }
  | files (w texts date files) (hs : s.files.step (.worker w texts date) = some files) :
      Steps s (.files w texts date) { s with files }
  | answer (w e t c request response server) (hw : s.server.worker w = .respond c request)
      (hserved : s.served w request e t = some response)
      (hs : s.server.step (.worker w (.serves response t.date)) = some server) :
      Steps s (.answer w e t) { s with server, called := Function.update s.called w false }
  | escape (w c request call) (hw : s.server.worker w = .respond c request)
      (hthrown : s.files.worker w = .thrown call) (hcalled : s.called w = true) :
      Steps s (.escape w)
        { s with server := { s.server with worker := Function.update s.server.worker w .idle }
                 called := Function.update s.called w false }
  | change (fs files) (hs : s.files.step (.change fs) = some files) : Steps s (.change fs) { s with files }
  | tick (ns files server) (hf : s.files.step (.advance ns) = some files)
      (hs : s.server.step (.tick ns) = some server) : Steps s (.tick ns) { s with server, files }

theorem step_cases {s s' : Site n} {a} (h : s.step a = some s') : s.Steps a s' := by
  cases a with
  | server a =>
    simp only [step] at h
    split at h
    · next hasks =>
      obtain ⟨server, hs, rfl⟩ := Option.map_eq_some_iff.mp h
      exact .server a server hasks hs
    · cases h
  | call w =>
    simp only [step] at h
    split at h
    · next c request hw =>
      split at h
      · next hcond =>
        obtain ⟨hasks, hcalled⟩ := Bool.and_eq_true_iff.mp hcond
        obtain ⟨files, hs, rfl⟩ := Option.map_eq_some_iff.mp h
        exact .call w c request files hw hasks (by simpa using hcalled) hs
      · cases h
    · cases h
  | files w texts date =>
    obtain ⟨files, hs, rfl⟩ := Option.map_eq_some_iff.mp h
    exact .files w texts date files hs
  | answer w e t =>
    simp only [step] at h
    split at h
    · next c request hw =>
      obtain ⟨response, hserved, h⟩ := Option.bind_eq_some_iff.mp h
      obtain ⟨server, hs, rfl⟩ := Option.map_eq_some_iff.mp h
      exact .answer w e t c request response server hw hserved hs
    · cases h
  | escape w =>
    simp only [step] at h
    split at h
    · next c request call hw hthrown =>
      split at h
      · next hcalled => exact Option.some.inj h ▸ .escape w c request call hw hthrown hcalled
      · cases h
    · cases h
  | change fs =>
    simp only [step] at h
    obtain ⟨files, hs, rfl⟩ := Option.map_eq_some_iff.mp h
    exact .change fs files hs
  | tick ns =>
    simp only [step] at h
    obtain ⟨files, hf, h⟩ := Option.bind_eq_some_iff.mp h
    obtain ⟨server, hs, rfl⟩ := Option.map_eq_some_iff.mp h
    exact .tick ns files server hf hs

variable {documentRoot defaultFile : Bytes} {enableCache : Bool} {cacheSizeMb : Nat}

/-- What the program reaches of the file handler, the file handler reaches. -/
theorem files_reachable {ok : Site n → SiteAction n → Prop} {okF : FileWorkers n → FileAction n → Prop}
    {s : Site n} (hok : ∀ s a b, ok s a → fileAction s a = some b → okF s.files b)
    (h : (system n documentRoot defaultFile enableCache cacheSizeMb).ReachableBy ok s) :
    (FileWorkers.system n documentRoot defaultFile enableCache cacheSizeMb).ReachableBy okF s.files := by
  refine System.ReachableBy.projects (S := system n documentRoot defaultFile enableCache cacheSizeMb)
    (fun s => s.files) (fun s hinit => hinit.2.1) ?_ h
  intro s a s' _ ha hstep
  cases step_cases hstep with
  | server | answer | escape => exact .inl rfl
  | call w c request files hw _ _ hs =>
    have hb : fileAction s (.call w) = some (.call w request.path) := by simp [fileAction, hw]
    exact .inr ⟨_, hok s _ _ ha hb, hs⟩
  | files w texts date files hs => exact .inr ⟨_, hok s _ _ ha rfl, hs⟩
  | change fs files hs => exact .inr ⟨_, hok s _ _ ha rfl, hs⟩
  | tick ns files server hf => exact .inr ⟨_, hok s _ _ ha rfl, hf⟩

/-- A worker that waits for a handler takes no other step. -/
theorem respond_stays {s s' : Server n} {a : Action n} (hasks : asksNone a = true) (hs : s.step a = some s')
    {w : Fin n} {c : ConnId} {request : HttpRequest} (hw : s.worker w = .respond c request) :
    s'.worker w = .respond c request := by
  cases Server.step_cases hs with
  | event | stop | tick => exact hw
  | worker w' i sh pc he =>
    by_cases hww : w = w'
    · subst hww
      rw [hw] at he
      cases WorkerPc.exec_steps he
      cases hasks
    · simpa [Function.update_of_ne hww] using hw

/-- What a worker has called the file handler for: the request it answers. -/
structure Calls (s : Site n) (w : Fin n) (request : HttpRequest) (call : FileCall) : Prop where
  respond : ∃ c, s.server.worker w = .respond c request
  asks : request.asksFile = true
  inside : (s.files.worker w).call = some call
  path : call.requestPath = request.path

theorem calls {ok} {s : Site n}
    (h : (system n documentRoot defaultFile enableCache cacheSizeMb).ReachableBy ok s) (w : Fin n)
    (hcalled : s.called w = true) : ∃ request call, s.Calls w request call := by
  refine h.invariant (I := fun s => ∀ w, s.called w = true → ∃ request call, s.Calls w request call) ?_ ?_ w
    hcalled
  · intro s hinit w hcalled
    rw [hinit.2.2.2 w] at hcalled
    cases hcalled
  intro s a s' _ hi _ hstep w hcalled
  cases step_cases hstep with
  | server a server hasks hs =>
    obtain ⟨request, call, ⟨c, hw⟩, hask, hcall, hpath⟩ := hi w hcalled
    exact ⟨request, call, ⟨c, respond_stays hasks hs hw⟩, hask, hcall, hpath⟩
  | call w' c request files hw' hasks _ hs =>
    by_cases hww : w = w'
    · subst hww
      cases FileWorkers.step_cases hs
      exact ⟨request, ⟨request.path, s.files.clock⟩, ⟨c, hw'⟩, hasks, by simp [FilePc.call], rfl⟩
    · obtain ⟨request', call, hrespond, hask, hcall, hpath⟩ := hi w (by simpa [hww] using hcalled)
      cases FileWorkers.step_cases hs
      exact ⟨request', call, hrespond, hask, by simpa [hww] using hcall, hpath⟩
  | files w' texts date files hs =>
    obtain ⟨request, call, hrespond, hask, hcall, hpath⟩ := hi w hcalled
    cases FileWorkers.step_cases hs with
    | worker _ _ _ h' pc' he =>
      refine ⟨request, call, hrespond, hask, ?_, hpath⟩
      by_cases hww : w = w'
      · subst hww
        simpa [FilePc.exec_call he] using hcall
      · simpa [hww] using hcall
  | answer w' e t c request response server hw' hserved hs =>
    have hww : w ≠ w' := by
      rintro rfl
      simp at hcalled
    obtain ⟨request', call, ⟨c', hw⟩, hask, hcall, hpath⟩ := hi w (by simpa [hww] using hcalled)
    refine ⟨request', call, ⟨c', ?_⟩, hask, hcall, hpath⟩
    cases Server.step_cases hs with
    | worker _ i sh pc he => simpa [hww] using hw
  | escape w' c' request' call' hw' =>
    have hww : w ≠ w' := by
      rintro rfl
      simp at hcalled
    obtain ⟨request, call, ⟨c, hw⟩, hask, hcall, hpath⟩ := hi w (by simpa [hww] using hcalled)
    exact ⟨request, call, ⟨c, by simpa [hww] using hw⟩, hask, hcall, hpath⟩
  | change fs files hs =>
    obtain ⟨request, call, hrespond, hask, hcall, hpath⟩ := hi w hcalled
    cases FileWorkers.step_cases hs
    exact ⟨request, call, hrespond, hask, hcall, hpath⟩
  | tick ns files server hf hs =>
    obtain ⟨request, call, ⟨c, hw⟩, hask, hcall, hpath⟩ := hi w hcalled
    cases FileWorkers.step_cases hf
    cases Server.step_cases hs
    exact ⟨request, call, ⟨c, hw⟩, hask, hcall, hpath⟩

/-! ## What the workers are served -/

/-- The step leaves the files as they are. -/
def keepsFiles : SiteAction n → Bool
  | .change _ => false
  | _ => true

/-- A date that is printed is one line. -/
def dated : SiteAction n → Prop
  | .files _ _ date => Unbroken date
  | .answer _ _ t => Unbroken t.date
  | _ => True

instance : DecidablePred (dated (n := n))
  | .files _ _ date => inferInstanceAs (Decidable (Unbroken date))
  | .answer _ _ t => inferInstanceAs (Decidable (Unbroken t.date))
  | .server _ | .call _ | .escape _ | .change _ | .tick _ => inferInstanceAs (Decidable True)

/-- What `handle_file_request` returns without a cache, when it is called alone. -/
def OnDisk (documentRoot defaultFile : Bytes) (fs : FileSystem) (path : Bytes) (r : HttpResponse) : Prop :=
  ∃ cacheSizeMb texts now date h', (FileHandler.make documentRoot defaultFile false cacheSizeMb).handleFileRequest
    texts fs path now date = .ok (some (h', r))

/-- What the handlers may serve a request while the files are these. -/
structure May (documentRoot defaultFile : Bytes) (fs : FileSystem) (request : HttpRequest) (r : HttpResponse) :
    Prop where
  delimited : r.Delimited
  file : request.asksFile = true → ∃ r', OnDisk documentRoot defaultFile fs request.path r' ∧
    Serving.SameAnswer r r'
  api : request.asksApi = true → ∃ e h t, r = handleApiRequest e h request.path t

theorem returned_delimited {ok : Site n → SiteAction n → Prop} (hok : ∀ s a, ok s a → dated a) {s : Site n}
    (h : (system n documentRoot defaultFile enableCache cacheSizeMb).ReachableBy ok s) (w : Fin n)
    {call : FileCall} {r : HttpResponse} (hr : s.files.worker w = .returned call r) : r.Delimited := by
  refine h.invariant (I := fun s => ∀ w call r, s.files.worker w = .returned call r → r.Delimited) ?_ ?_ w call r hr
  · intro s hinit w call r hr
    rw [hinit.2.1.2.1 w] at hr
    cases hr
  intro s a s' hreach hi ha hstep w call r hr
  have hfiles : (FileWorkers.system n documentRoot defaultFile enableCache cacheSizeMb).Reachable s.files :=
    files_reachable (fun _ _ _ _ _ => trivial) hreach
  cases step_cases hstep with
  | server | answer | escape => exact hi w call r hr
  | call w' c request files hw' _ _ hs =>
    cases FileWorkers.step_cases hs
    by_cases hww : w = w'
    · subst hww
      simp at hr
    · exact hi w call r (by simpa [hww] using hr)
  | files w' texts date files hs =>
    by_cases hww : w = w'
    · subst hww
      exact (FileWorkers.returned_plain hfiles hs hr).delimited (hok s _ ha)
    · cases FileWorkers.step_cases hs
      exact hi w call r (by simpa [hww] using hr)
  | change fs files hs =>
    cases FileWorkers.step_cases hs
    exact hi w call r hr
  | tick ns files server hf =>
    cases FileWorkers.step_cases hf
    exact hi w call r hr

theorem keepsFiles_fileAction {s : Site n} {a : SiteAction n} {b : FileAction n} (ha : keepsFiles a = true)
    (hb : fileAction s a = some b) : FileWorkers.keepsFiles b = true := by
  cases a with
  | server | answer | escape => cases hb
  | change fs => cases ha
  | call w =>
    simp only [fileAction] at hb
    split at hb
    · exact Option.some.inj hb ▸ rfl
    · cases hb
  | files w texts date => exact Option.some.inj hb ▸ rfl
  | tick ns => exact Option.some.inj hb ▸ rfl

theorem served_may {ok : Site n → SiteAction n → Prop} (hok : ∀ s a, ok s a → dated a ∧ keepsFiles a = true)
    {s : Site n} (h : (system n documentRoot defaultFile enableCache cacheSizeMb).ReachableBy ok s)
    {w : Fin n} {c : ConnId} {request : HttpRequest} (hw : s.server.worker w = .respond c request)
    {e : Surroundings} {t : TimeTexts} (hdate : Unbroken t.date) {r : HttpResponse}
    (hserved : s.served w request e t = some r) : May documentRoot defaultFile s.files.fs request r := by
  unfold served at hserved
  split at hserved
  · next hapi =>
    obtain rfl := Option.some.inj hserved
    have hpath := (HttpRequest.asksApi_iff.mp hapi).2
    refine ⟨(PlainHead.handleApiRequest e s.files.handler request.path t).delimited hdate, fun hfile => ?_,
      fun _ => ⟨e, _, t, rfl⟩⟩
    rw [(HttpRequest.asksFile_iff.mp hfile).2] at hpath
    cases hpath
  next hapi =>
  split at hserved
  · split at hserved
    · next call response hreturned =>
      split at hserved
      · next hcalled =>
        obtain rfl := Option.some.inj hserved
        obtain ⟨request', call', ⟨c', hw'⟩, -, hcall, hpath⟩ := calls h w hcalled
        obtain ⟨-, rfl⟩ := WorkerPc.respond.inj (hw.symm.trans hw')
        rw [hreturned] at hcall
        obtain rfl : call = call' := Option.some.inj hcall
        have hfiles : (FileWorkers.system n documentRoot defaultFile enableCache cacheSizeMb).ReachableBy
            (fun _ a => FileWorkers.keepsFiles a = true) s.files :=
          files_reachable (fun s a b ha hb => keepsFiles_fileAction (hok s a ha).2 hb) h
        obtain ⟨texts, date, h', r', hdisk, hsame⟩ :=
          FileWorkers.disk_answer (FileWorkers.follows hfiles w) hreturned s.files.clock
        refine ⟨returned_delimited (fun s a ha => (hok s a ha).1) h w hreturned, fun _ => ?_,
          fun ha => absurd ha hapi⟩
        rw [hpath] at hdisk
        exact ⟨r', ⟨cacheSizeMb, texts, s.files.clock, date, h', hdisk⟩, hsame⟩
      · cases hserved
    · cases hserved
  · next hfile =>
    obtain rfl := Option.some.inj hserved
    refine ⟨?_, fun hf => absurd hf hfile, fun ha => absurd ha hapi⟩
    have hnone : ¬ (request.valid = true ∧ (request.method = .get ∨ request.method = .head)) := fun hask => by
      cases hp : isApiPath request.path with
      | false => exact hfile (HttpRequest.asksFile_iff.mpr ⟨hask, hp⟩)
      | true => exact hapi (HttpRequest.asksApi_iff.mpr ⟨hask, hp⟩)
    unfold buildResponse
    split_ifs with hvalid hget hhead
    · exact delimited_createErrorResponse hdate _ _
    · exact absurd ⟨by simpa using hvalid, .inl hget⟩ hnone
    · exact absurd ⟨by simpa using hvalid, .inr hhead⟩ hnone
    · exact delimited_createErrorResponse hdate _ _

theorem servesOnly_of_asksNone {s : Server n} {a : Action n} (h : asksNone a = true)
    (P : HttpRequest → HttpResponse → Prop) : s.servesOnly P a := by
  cases a with
  | worker w i =>
    show (s.worker w).servedAt P i
    cases i with
    | serves => cases h
    | _ => cases s.worker w <;> trivial
  | _ => trivial

/-- While the files stay as they are, the server reaches what the program
reaches, and is served what is on the disk. -/
theorem server_reachable {ok : Site n → SiteAction n → Prop} (okS : Server n → Action n → Prop)
    (hok : ∀ s a, ok s a → dated a ∧ keepsFiles a = true)
    (hokS : ∀ s a b, ok s a → serverAction s a = some b → okS s.server b) {s : Site n}
    (h : (system n documentRoot defaultFile enableCache cacheSizeMb).ReachableBy ok s) :
    (Server.system n).ReachableBy
      (fun t b => okS t b ∧ t.servesOnly (May documentRoot defaultFile s.files.fs) b) s.server := by
  refine h.invariant (I := fun s => (Server.system n).ReachableBy
    (fun t b => okS t b ∧ t.servesOnly (May documentRoot defaultFile s.files.fs) b) s.server)
    ?_ ?_
  · intro s hinit
    exact .init hinit.1
  intro s a s' hr ih ha hstep
  cases step_cases hstep with
  | server a server hasks hs => exact .step ih ⟨hokS s _ a ha rfl, servesOnly_of_asksNone hasks _⟩ hs
  | call w c request files hw _ _ hs =>
    cases FileWorkers.step_cases hs
    exact ih
  | files w texts date files hs =>
    cases FileWorkers.step_cases hs
    exact ih
  | answer w e t c request response server hw hserved hs =>
    have hb : serverAction s (.answer w e t) = some (.worker w (.serves response t.date)) := by
      simp [serverAction, hw, hserved]
    refine .step ih ⟨hokS s _ _ ha hb, ?_⟩ hs
    have hdate : Unbroken t.date := (hok s _ ha).1
    have hmay := served_may hok hr hw hdate hserved
    show (s.server.worker w).servedAt _ _
    rw [hw]
    exact ⟨hmay, hdate⟩
  | escape w c request call hw hthrown =>
    -- no exception leaves the file handler
    have hfiles : (FileWorkers.system n documentRoot defaultFile enableCache cacheSizeMb).ReachableBy
        (fun _ a => FileWorkers.keepsFiles a = true) s.files :=
      files_reachable (fun s a b ha hb => keepsFiles_fileAction (hok s a ha).2 hb) hr
    exact absurd hthrown ((FileWorkers.follows hfiles w).notThrown call)
  | change fs => cases (hok s _ ha).2
  | tick ns files server hf hs =>
    cases FileWorkers.step_cases hf
    exact .step ih ⟨hokS s _ _ ha rfl, trivial⟩ hs

/-! ## What a client reads -/

/-- The response answers the request in `input` as a program without threads
and without a cache would. -/
structure Answers (documentRoot defaultFile : Bytes) (fs : FileSystem) (input : Bytes) (r : HttpResponse) :
    Prop where
  invalid : (HttpRequest.parse input).valid = false → r.status = .badRequest
  method : (HttpRequest.parse input).valid = true → (HttpRequest.parse input).method ≠ .get →
    (HttpRequest.parse input).method ≠ .head → r.status = .methodNotAllowed
  api : (HttpRequest.parse input).asksApi = true → r.status =
    if (HttpRequest.parse input).path = bytes "/api/info" ∨ (HttpRequest.parse input).path = bytes "/api/status"
    then .ok else .notFound
  file : (HttpRequest.parse input).asksFile = true →
    ∃ r', OnDisk documentRoot defaultFile fs (HttpRequest.parse input).path r' ∧ r.status = r'.status ∧
      r.body = (if (HttpRequest.parse input).method = .head then [] else r'.body) ∧
      r.headers.lookup (bytes "Content-Type") = r'.headers.lookup (bytes "Content-Type")

theorem setKeepAlive_same (r : HttpResponse) (keepAlive : Bool) :
    Serving.SameAnswer (r.setKeepAlive keepAlive) r := by
  have hconnection : bytes "Content-Type" ≠ bytes "Connection" := by decide
  have hkeep : bytes "Content-Type" ≠ bytes "Keep-Alive" := by decide
  unfold setKeepAlive
  split
  · exact ⟨rfl, rfl, by simp only [setHeader, AList.lookup_insert_ne hkeep, AList.lookup_insert_ne hconnection]⟩
  · exact ⟨rfl, rfl, by simp only [setHeader, AList.lookup_insert_ne hconnection]⟩

/-- What is built of what the handlers served: the body of a HEAD's response is left out. -/
theorem build_asked {request : HttpRequest} (hvalid : request.valid = true)
    (hmethod : request.method = .get ∨ request.method = .head) (served : HttpResponse) (date : Bytes) :
    (buildResponse request served date).status = served.status ∧
      (buildResponse request served date).body = (if request.method = .head then [] else served.body) ∧
      (buildResponse request served date).headers.lookup (bytes "Content-Type") =
        served.headers.lookup (bytes "Content-Type") := by
  have hlength : bytes "Content-Type" ≠ bytes "Content-Length" := by decide
  unfold buildResponse
  rcases hmethod with hget | hhead
  · simp [hvalid, hget]
  · simp [hvalid, hhead, setBody, setContentLength, setHeader, AList.lookup_insert_ne hlength]

theorem answers_of_builtFrom {fs : FileSystem} {input : Bytes} {r : HttpResponse}
    (h : BuiltFrom (May documentRoot defaultFile fs) input r) :
    Answers documentRoot defaultFile fs input r := by
  obtain ⟨served, date, keepAlive, hmay, -, rfl⟩ := h
  obtain ⟨hstatus, hbody, htype⟩ := setKeepAlive_same
    (buildResponse (HttpRequest.parse input) served date) keepAlive
  refine ⟨fun hvalid => ?_, fun hvalid hget hhead => ?_, fun hasks => ?_, fun hasks => ?_⟩
  · rw [hstatus, buildResponse, if_pos (by simp [hvalid])]
    rfl
  · rw [hstatus, buildResponse, if_neg (by simp [hvalid]), if_neg hget, if_neg hhead]
    rfl
  · obtain ⟨e, h, t, rfl⟩ := hmay.api hasks
    obtain ⟨⟨hvalid, hmethod⟩, -⟩ := HttpRequest.asksApi_iff.mp hasks
    have hsame : (buildResponse (HttpRequest.parse input)
        (handleApiRequest e h (HttpRequest.parse input).path t) date).status =
        (handleApiRequest e h (HttpRequest.parse input).path t).status :=
      (build_asked hvalid hmethod _ date).1
    rw [hstatus, hsame, handleApiRequest]
    split <;> rfl
  · obtain ⟨r', hdisk, hsame⟩ := hmay.file hasks
    obtain ⟨⟨hvalid, hmethod⟩, -⟩ := HttpRequest.asksFile_iff.mp hasks
    obtain ⟨hs, hb, ht⟩ := build_asked hvalid hmethod served date
    refine ⟨r', hdisk, hstatus.trans (hs.trans hsame.1), ?_, htype.trans (ht.trans hsame.2.2)⟩
    rw [hbody, hb, hsame.2.1]

/-- **A client reads what is on the disk**, from the socket to the file system:
while no file changes, a client that sends requests reads as many replies, the
`i`-th that of the `i`-th response stored, which answers the `i`-th request as a
program without threads and without a cache would: the status, the body and the content type that
`handle_file_request` answers for the path, called alone, the body left out for
a HEAD, and an error page where no handler is asked. -/
theorem client_reads_disk {ms : List RawMessage} (hm : ∀ m ∈ ms, m.WellFormed)
    (hsize : ∀ m ∈ ms, m.toBytes.length ≤ maxRequestSize) {c : ConnId} {s : Site n}
    (h : (system n documentRoot defaultFile enableCache cacheSizeMb).ReachableBy
      (fun s a => (dated a ∧ keepsFiles a = true) ∧ ∀ b, serverAction s a = some b →
        Server.apart c s.server b ∧ (!Server.storesOverPending c s.server b && s.server.keepsNumbers b)) s)
    {k : Sock} (hc : c < s.server.shared.created) (hk : (s.server.shared.heap c).sock = some k)
    (hopen : ∀ r, .sendFailed c r ∉ s.server.shared.log)
    (hreceived : received (history c s.server.shared.log) = (ms.map (·.toBytes)).flatten)
    (hdone : s.server.tasksOf c = 0) (hempty : (s.server.shared.heap c).hasPendingWrite = false) :
    ∃ rs : List (HttpResponse × MapOrder),
      List.Forall₂ (fun m r => Answers documentRoot defaultFile s.files.fs m.toBytes r.1) ms rs ∧
      responses (history c s.server.shared.log) = rs.map (fun r => r.1.toString r.2) ∧
      readReplies (sentOn k s.server.shared.log) = (rs.map fun r => r.1.reply r.2, []) := by
  have hserver := server_reachable (fun s b => Server.apart c s b ∧ (!Server.storesOverPending c s b && s.keepsNumbers b))
    (fun s a ha => ha.1) (fun s a b ha => ha.2 b) h
  obtain ⟨turns, hinputs, hproper, hout, hread⟩ := Server.turns_read (fun _ _ hmay => hmay.delimited) hm hsize
    (hserver.mono fun _ _ hb => ⟨hb.1.1, hb.1.2, hb.2⟩) hc hk hopen hreceived hdone hempty
  refine ⟨turns.map fun t => (t.response, t.order), ?_, ?_, ?_⟩
  · exact (Turn.forall₂_responses hinputs hproper).imp fun _ _ => answers_of_builtFrom
  · rw [hout, List.map_map]
    rfl
  · rw [hread, List.map_map]
    rfl

/-- A program with one worker, over a few files. -/
def started : Site 1 where
  server := Server.fresh
  files :=
    { handler := .make (bytes "./public") (bytes "index.html") true 100, fs := Serving.someFiles (bytes "hello"),
      clock := 0, worker := fun _ => .idle, history := [(0, Serving.someFiles (bytes "hello"))] }
  called _ := false

theorem init_started : (system 1 (bytes "./public") (bytes "index.html") true 100).init started :=
  ⟨Server.init_fresh, ⟨rfl, fun _ => rfl, rfl⟩, rfl, fun _ => rfl⟩

/-- The client asks for a path, the worker takes `m` steps in the file handler,
and the kernel takes `k` bytes of the response. -/
def fetch (path : Bytes) (m k : Nat) : List (SiteAction 1) :=
  let e : Surroundings := ⟨Serving.someFiles [], ⟨fun _ => [], fun _ => []⟩, 1, 0, 1, fun _ _ => [], 0⟩
  (Server.receiveRequest 7 (Server.asksPage path).toBytes 1 ++
    Server.workerSteps [.go, .go, .go, .go, .go]).map .server ++
    ((List.finRange 1).flatMap fun w =>
      .call w :: List.replicate m (.files w ⟨fun _ => [], fun _ => []⟩ []) ++ [.answer w e ⟨[], []⟩]) ++
    (Server.workerSteps ([.go, .go, .go] ++ respondInputs (.accepts k) ++ finishInputs)).map .server

/-- What the client is sent for the two files, the first of them twice. -/
def fetchedBytes : Bytes :=
  let send (r : HttpResponse) := (r.setKeepAlive true).toString .newestFirst
  let file := FileHandler.missResponse (bytes "./public/a.txt") (bytes "hello") []
  send file ++ send (FileHandler.missResponse (bytes "./public/docs/index.html") (bytes "key") []) ++
    send (file.setHeader (bytes "X-Cache") (bytes "HIT"))

/-- A client asks for a file, for a directory and for the first file again, which
is answered from the cache. The kernel takes the second response in two parts. -/
def fetched : List (SiteAction 1) :=
  (Server.acceptClient 7 1).map .server ++ fetch (bytes "/a.txt") 11 200 ++ fetch (bytes "/docs") 13 5 ++
    (Server.sendMore 7 (.accepts 192) 1).map .server ++ fetch (bytes "/a.txt") 9 199

theorem client_reads_disk_fetched : ∃ s : Site 1, sentOn 0 s.server.shared.log = fetchedBytes ∧
    ∃ rs : List (HttpResponse × MapOrder),
      List.Forall₂ (fun m r => Answers (bytes "./public") (bytes "index.html") s.files.fs m.toBytes r.1)
        ([bytes "/a.txt", bytes "/docs", bytes "/a.txt"].map Server.asksPage) rs ∧
      responses (history 0 s.server.shared.log) = rs.map (fun r => r.1.toString r.2) ∧
      readReplies (sentOn 0 s.server.shared.log) = (rs.map fun r => r.1.reply r.2, []) := by
  obtain ⟨s, hr, hs⟩ := System.exists_reachableBy init_started
    (fun s a => (dated a && keepsFiles a) && (serverAction s a).all fun b =>
      Server.apart 0 s.server b && (!Server.storesOverPending 0 s.server b && s.server.keepsNumbers b)) fetched
    (fun s => (s.server.shared.created = 1 && (s.server.shared.heap 0).sock = some 0 &&
      s.server.shared.log.all fun | .sendFailed _ _ => false | _ => true) &&
      decide (sentOn 0 s.server.shared.log = fetchedBytes ∧
        received (history 0 s.server.shared.log) =
          (([bytes "/a.txt", bytes "/docs", bytes "/a.txt"].map Server.asksPage).map (·.toBytes)).flatten ∧
        s.server.tasksOf 0 = 0 ∧ (s.server.shared.heap 0).hasPendingWrite = false)) (by decide +kernel)
  simp only [Bool.and_eq_true, decide_eq_true_eq, List.all_eq_true] at hs
  obtain ⟨⟨⟨hc, hk⟩, hopen⟩, hsent, hreceived, hdone, hempty⟩ := hs
  have hr : (system 1 (bytes "./public") (bytes "index.html") true 100).ReachableBy
      (fun s a => (dated a ∧ keepsFiles a = true) ∧ ∀ b, serverAction s a = some b →
        Server.apart 0 s.server b ∧ (!Server.storesOverPending 0 s.server b && s.server.keepsNumbers b)) s := by
    refine hr.mono fun s a hok => ?_
    obtain ⟨hfiles, hserver⟩ := Bool.and_eq_true_iff.mp hok
    refine ⟨(Bool.and_eq_true_iff.mp hfiles).imp_left of_decide_eq_true, fun b hb => ?_⟩
    rw [hb, Option.all_some] at hserver
    exact Bool.and_eq_true_iff.mp hserver
  have hm : ∀ m ∈ [bytes "/a.txt", bytes "/docs", bytes "/a.txt"].map Server.asksPage, m.WellFormed ∧
      m.toBytes.length ≤ maxRequestSize := by
    simp only [List.map_cons, List.map_nil, List.mem_cons, List.not_mem_nil, or_false]
    rintro m (rfl | rfl | rfl)
    all_goals exact ⟨⟨⟨by decide, by decide +kernel⟩, nofun, .inl ⟨rfl, rfl⟩⟩, by decide +kernel⟩
  exact ⟨s, hsent, client_reads_disk (fun m hmem => (hm m hmem).1) (fun m hmem => (hm m hmem).2) hr (by simp [hc]) hk
    (fun r hmem => Bool.noConfusion (hopen _ hmem)) hreceived hdone hempty⟩

end Site

end Webserver
