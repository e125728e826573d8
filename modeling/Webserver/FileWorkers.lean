/-
The file handler as the worker threads share it. A step of a request is one
query of the file system, one call of the cache or one read of a file; between
two steps of one request other requests go on, files change and time passes.
A directory listing is one step.
-/
import Webserver.Staleness

namespace Webserver

open Cxx Systems

/-- Where a thread is in `is_safe_path`: the query it makes next. -/
inductive SafePc
  | canonicalRoot
  | exists_ (root : Bytes)
  | canonical (root : Bytes)
  | parentExists (root : Bytes)
  | parentCanonical (root : Bytes)
  | absolute (root : Bytes)
  | relative (root path : Bytes)

/-- A call of `handle_file_request`. -/
structure FileCall where
  requestPath : Bytes
  /-- Not in the source: when the call began. -/
  began : Int

/-- Where a thread is in `handle_file_request`. -/
inductive FilePc
  | idle
  | safe (call : FileCall) (pc : SafePc)
  | exists_ (call : FileCall)
  | isDirectory (call : FileCall)
  | defaultExists (call : FileCall)
  | defaultRegular (call : FileCall)
  | listing (call : FileCall)
  | isRegular (call : FileCall) (path : Bytes)
  | fileSize (call : FileCall) (path : Bytes)
  | get (call : FileCall) (path : Bytes)
  | read (call : FileCall) (path : Bytes)
  | put (call : FileCall) (path content : Bytes)
  | returned (call : FileCall) (response : HttpResponse)
  /-- An exception has left the function. -/
  | thrown (call : FileCall)

/-- The next query, or what the `try` block of `is_safe_path` returns. -/
def SafePc.exec (fs : FileSystem) (documentRoot resolvedPath : Bytes) :
    SafePc → Except Failure (SafePc ⊕ Bool)
  | canonicalRoot => do return .inl (exists_ (← fs.canonical documentRoot))
  | exists_ root => do
    return .inl (if ← fs.exists_ resolvedPath then canonical root else parentExists root)
  | canonical root => do return .inl (relative root (← fs.canonical resolvedPath))
  | parentExists root => do
    return .inl (if ← fs.exists_ (Paths.parentPath resolvedPath) then parentCanonical root else absolute root)
  | parentCanonical root => do
    let parent ← fs.canonical (Paths.parentPath resolvedPath)
    return .inl (relative root (Paths.append parent (Paths.filename resolvedPath)))
  | absolute root => do
    return .inl (relative root (Paths.lexicallyNormal (← fs.absolute resolvedPath)))
  | relative root path => do
    let relative ← fs.relative path root
    return .inr (relative ≠ [] && relative.head? ≠ some 46 && (find (bytes "..") relative).isNone)

namespace FilePc

/-- The `catch` clause. -/
def failed (call : FileCall) (date : Bytes) : FilePc :=
  returned call (.createErrorResponse .internalServerError (bytes "Internal server error") date)

def refused (call : FileCall) (status : HttpStatus) (message date : Bytes) : FilePc :=
  returned call (.createErrorResponse status message date)

/-- Goes on with the answer to a query in the `try` block. -/
def onAnswer {α : Type} (call : FileCall) (date : Bytes) (answer : Except Failure α) (next : α → FilePc) :
    FilePc :=
  match answer with
  | .ok a => next a
  | .error _ => failed call date

def exec (h : FileHandler) (fs : FileSystem) (now : Int) (texts : EntryTexts) (date : Bytes) :
    FilePc → Option (FileHandler × FilePc)
  | idle | returned _ _ | thrown _ => none
  | safe call pc => some (h,
    match pc.exec fs h.documentRoot (h.resolvePath call.requestPath) with
    | .ok (.inl pc) => safe call pc
    | .ok (.inr true) => exists_ call
    | .ok (.inr false) | .error _ => refused call .forbidden (bytes "Access denied") date)
  | exists_ call => some (h,
    match fs.exists_ (h.resolvePath call.requestPath) with
    | .ok true => isDirectory call
    | .ok false => refused call .notFound (bytes "File not found") date
    | .error _ => thrown call)
  | isDirectory call =>
    let resolvedPath := h.resolvePath call.requestPath
    some (h, onAnswer call date (fs.isDirectory resolvedPath) fun directory =>
      if directory then defaultExists call else isRegular call resolvedPath)
  | defaultExists call =>
    let defaultPath := h.defaultPath (h.resolvePath call.requestPath)
    some (h, onAnswer call date (fs.exists_ defaultPath) fun found =>
      if found then defaultRegular call else listing call)
  | defaultRegular call =>
    let defaultPath := h.defaultPath (h.resolvePath call.requestPath)
    some (h, onAnswer call date (fs.isRegularFile defaultPath) fun regular =>
      if regular then isRegular call defaultPath else listing call)
  | listing call => some (h, returned call (FileHandler.createDirectoryListing texts fs
      (h.resolvePath call.requestPath) call.requestPath date))
  | isRegular call path => some (h, onAnswer call date (fs.isRegularFile path) fun regular =>
      if regular then fileSize call path else refused call .forbidden (bytes "Not a regular file") date)
  | fileSize call path => some (h, onAnswer call date (fs.fileSize path) fun size =>
      if h.maxFileSize < size then refused call .forbidden (bytes "File too large") date
      else get call path)
  | get call path =>
    match h.getCached path now with
    | (h, some entry) => some (h, returned call (FileHandler.hitResponse entry date))
    | (h, none) => some (h, read call path)
  | read call path => some (h,
    match fs.read path with
    | none => refused call .internalServerError (bytes "Could not read file") date
    | some content => put call path content)
  | put call path content =>
    let mimeType := HttpResponse.getMimeType (Paths.extension path)
    (h.putCached path content mimeType now).map fun h =>
      (h, returned call (FileHandler.missResponse path content date))

end FilePc

/-- `n` threads that answer requests, with the handler they share. -/
structure FileWorkers (n : Nat) where
  handler : FileHandler
  fs : FileSystem
  /-- `steady_clock::now()`, in nanoseconds. -/
  clock : Int
  worker : Fin n → FilePc
  /-- Not in the source: the files at every instant so far. -/
  history : List (Int × FileSystem)

inductive FileAction (n : Nat)
  | call (w : Fin n) (requestPath : Bytes)
  | worker (w : Fin n) (texts : EntryTexts) (date : Bytes)
  | change (fs : FileSystem)
  | advance (ns : Nat)

namespace FileWorkers

variable {n : Nat}

/-- A thread takes up its next request when it has done with the last. -/
def step (s : FileWorkers n) : FileAction n → Option (FileWorkers n)
  | .call w requestPath =>
    match s.worker w with
    | .idle | .returned _ _ | .thrown _ =>
      some { s with worker := Function.update s.worker w (.safe ⟨requestPath, s.clock⟩ .canonicalRoot) }
    | _ => none
  | .worker w texts date => do
    let (handler, pc) ← (s.worker w).exec s.handler s.fs s.clock texts date
    return { s with handler, worker := Function.update s.worker w pc }
  | .change fs => some { s with fs, history := (s.clock, fs) :: s.history }
  | .advance ns => some { s with clock := s.clock + ns, history := (s.clock + ns, s.fs) :: s.history }

/-- A handler from its constructor on, over any files. -/
def system (n : Nat) (documentRoot defaultFile : Bytes) (enableCache : Bool) (cacheSizeMb : Nat) :
    System (FileWorkers n) (FileAction n) where
  init s := s.handler = .make documentRoot defaultFile enableCache cacheSizeMb ∧
    (∀ w, s.worker w = .idle) ∧ s.history = [(s.clock, s.fs)]
  step := step

end FileWorkers

/-! ## What a step does -/

namespace FilePc

/-- The call a thread is in, or has returned from last. -/
def call : FilePc → Option FileCall
  | idle => none
  | safe call _ | exists_ call | isDirectory call | defaultExists call | defaultRegular call
  | listing call | isRegular call _ | fileSize call _ | get call _ | read call _ | put call _ _
  | returned call _ | thrown call => some call

/-- The path a thread is about to open. -/
def opens : FilePc → Option Bytes
  | isRegular _ path | fileSize _ path | get _ path | read _ path | put _ path _ => some path
  | _ => none

/-- The path a thread has not found in the cache, and will enter there. -/
def pending : FilePc → Option Bytes
  | read _ path | put _ path _ => some path
  | _ => none

/-- The answer's `X-Cache`. -/
def xCache : FilePc → Option Bytes
  | returned _ response => FileHandler.xCache response
  | _ => none

/-- A step that neither uses the cache nor reads a file: it stays in its call,
and opens the path it is about to open or one of the two its request names. -/
structure Queries (h : FileHandler) (pc pc' : FilePc) (call : FileCall) : Prop where
  inside : pc.call = some call
  stays : pc'.call = some call
  opens : ∀ path, pc'.opens = some path → pc.opens = some path ∨
    path = h.resolvePath call.requestPath ∨ path = h.defaultPath (h.resolvePath call.requestPath)
  notPending : pc'.pending = none
  unmarked : ∀ x, pc'.xCache = some x → x = bytes "NONE"

/-- What a step of a request does. -/
inductive Steps (h : FileHandler) (fs : FileSystem) (now : Int) (date : Bytes) :
    FilePc → FileHandler → FilePc → Prop
  | query {pc pc'} (call) (hq : Queries h pc pc' call) : Steps h fs now date pc h pc'
  | hit (call path entry) {h'} (hget : h.getCached path now = (h', some entry)) :
      Steps h fs now date (get call path) h' (returned call (FileHandler.hitResponse entry date))
  | miss (call path) {h'} (hget : h.getCached path now = (h', none)) :
      Steps h fs now date (get call path) h' (read call path)
  | read (call path content) (hread : fs.read path = some content) :
      Steps h fs now date (read call path) h (put call path content)
  | store (call path content) {h'}
      (hput : h.putCached path content (HttpResponse.getMimeType (Paths.extension path)) now = some h') :
      Steps h fs now date (put call path content) h'
        (returned call (FileHandler.missResponse path content date))

variable {h : FileHandler} {fs : FileSystem} {now : Int} {texts : EntryTexts} {date : Bytes}

theorem Queries.refused {pc : FilePc} {call : FileCall} (hc : pc.call = some call) (status : HttpStatus)
    (message : Bytes) : Queries h pc (refused call status message date) call :=
  ⟨hc, rfl, nofun, rfl, fun x hx => by
    cases (FileHandler.xCache_createErrorResponse status message date).symm.trans hx⟩

theorem Queries.onAnswer {α : Type} {pc : FilePc} {call : FileCall} {answer : Except Failure α}
    {next : α → FilePc} (hc : pc.call = some call) (hn : ∀ a, Queries h pc (next a) call) :
    Queries h pc (onAnswer call date answer next) call := by
  cases answer with
  | ok a => exact hn a
  | error e => exact .refused hc .internalServerError (bytes "Internal server error")

theorem exec_steps {pc : FilePc} {h' pc'} (he : pc.exec h fs now texts date = some (h', pc')) :
    Steps h fs now date pc h' pc' := by
  cases pc with
  | idle | returned | thrown => cases he
  | safe call pc =>
    obtain ⟨rfl, rfl⟩ := Prod.mk.inj (Option.some.inj he)
    refine .query call ?_
    split
    · exact ⟨rfl, rfl, nofun, rfl, nofun⟩
    · exact ⟨rfl, rfl, nofun, rfl, nofun⟩
    · exact .refused rfl ..
    · exact .refused rfl ..
  | exists_ call =>
    obtain ⟨rfl, rfl⟩ := Prod.mk.inj (Option.some.inj he)
    refine .query call ?_
    split
    · exact ⟨rfl, rfl, nofun, rfl, nofun⟩
    · exact .refused rfl ..
    · exact ⟨rfl, rfl, nofun, rfl, nofun⟩
  | isDirectory call =>
    obtain ⟨rfl, rfl⟩ := Prod.mk.inj (Option.some.inj he)
    refine .query call (.onAnswer rfl fun directory => ?_)
    cases directory with
    | false => exact ⟨rfl, rfl, fun path hp => .inr (.inl (Option.some.inj hp).symm), rfl, nofun⟩
    | true => exact ⟨rfl, rfl, nofun, rfl, nofun⟩
  | defaultExists call =>
    obtain ⟨rfl, rfl⟩ := Prod.mk.inj (Option.some.inj he)
    refine .query call (.onAnswer rfl fun found => ?_)
    cases found <;> exact ⟨rfl, rfl, nofun, rfl, nofun⟩
  | defaultRegular call =>
    obtain ⟨rfl, rfl⟩ := Prod.mk.inj (Option.some.inj he)
    refine .query call (.onAnswer rfl fun regular => ?_)
    cases regular with
    | false => exact ⟨rfl, rfl, nofun, rfl, nofun⟩
    | true => exact ⟨rfl, rfl, fun path hp => .inr (.inr (Option.some.inj hp).symm), rfl, nofun⟩
  | listing call =>
    obtain ⟨rfl, rfl⟩ := Prod.mk.inj (Option.some.inj he)
    exact .query call ⟨rfl, rfl, nofun, rfl, fun x hx =>
      FileHandler.xCache_createDirectoryListing texts _ _ date hx⟩
  | isRegular call path =>
    obtain ⟨rfl, rfl⟩ := Prod.mk.inj (Option.some.inj he)
    refine .query call (.onAnswer rfl fun regular => ?_)
    cases regular with
    | false => exact .refused rfl ..
    | true => exact ⟨rfl, rfl, fun path hp => .inl hp, rfl, nofun⟩
  | fileSize call path =>
    obtain ⟨rfl, rfl⟩ := Prod.mk.inj (Option.some.inj he)
    refine .query call (.onAnswer rfl fun size => ?_)
    split
    · exact .refused rfl ..
    · exact ⟨rfl, rfl, fun path hp => .inl hp, rfl, nofun⟩
  | get call path =>
    simp only [exec] at he
    split at he
    · next hget =>
      obtain ⟨rfl, rfl⟩ := Prod.mk.inj (Option.some.inj he)
      exact .hit call path _ hget
    · next hget =>
      obtain ⟨rfl, rfl⟩ := Prod.mk.inj (Option.some.inj he)
      exact .miss call path hget
  | read call path =>
    obtain ⟨rfl, rfl⟩ := Prod.mk.inj (Option.some.inj he)
    split
    · exact .query call (.refused rfl ..)
    · next content hread => exact .read call path content hread
  | put call path content =>
    obtain ⟨h₁, hput, heq⟩ := Option.map_eq_some_iff.mp he
    obtain ⟨rfl, rfl⟩ := Prod.mk.inj heq
    exact .store call path content hput

end FilePc

namespace FileWorkers

variable {n : Nat}

/-- What a step does: a thread takes up a request or goes on with one, files
change, or time passes. -/
inductive Steps (s : FileWorkers n) : FileAction n → FileWorkers n → Prop
  | call (w requestPath) : Steps s (.call w requestPath)
      { s with worker := Function.update s.worker w (.safe ⟨requestPath, s.clock⟩ .canonicalRoot) }
  | worker (w texts date h' pc') (he : (s.worker w).exec s.handler s.fs s.clock texts date = some (h', pc')) :
      Steps s (.worker w texts date) { s with handler := h', worker := Function.update s.worker w pc' }
  | change (fs) : Steps s (.change fs) { s with fs, history := (s.clock, fs) :: s.history }
  | advance (ns : Nat) : Steps s (.advance ns)
      { s with clock := s.clock + ns, history := (s.clock + ns, s.fs) :: s.history }

theorem step_cases {s s' : FileWorkers n} {a} (h : s.step a = some s') : s.Steps a s' := by
  cases a with
  | call w requestPath =>
    simp only [step] at h
    split at h
    · exact Option.some.inj h ▸ .call w requestPath
    · exact Option.some.inj h ▸ .call w requestPath
    · exact Option.some.inj h ▸ .call w requestPath
    · cases h
  | worker w texts date =>
    simp only [step, Option.bind_eq_bind, Option.bind_eq_some_iff, Option.pure_def, Option.some.injEq,
      Prod.exists] at h
    obtain ⟨h', pc', he, rfl⟩ := h
    exact .worker w texts date h' pc' he
  | change fs => exact Option.some.inj h ▸ .change fs
  | advance ns => exact Option.some.inj h ▸ .advance ns

end FileWorkers

end Webserver
