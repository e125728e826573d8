/-
Threads and cache that nobody notices: as long as no file changes, each
request is answered as if it were alone and read the disk.
-/
import Webserver.Provenance

namespace Webserver

open Cxx Systems

/-! ## What is left of a call -/

/-- What `is_safe_path` makes of the two paths. -/
def SafePc.verdict (fs : FileSystem) (root path : Bytes) : Except Failure Bool := do
  let relative ← fs.relative path root
  return relative ≠ [] && relative.head? ≠ some 46 && (find (bytes "..") relative).isNone

/-- The rest of the `try` block of `is_safe_path`, over files that do not change. -/
def SafePc.rest (fs : FileSystem) (documentRoot resolvedPath : Bytes) : SafePc → Except Failure Bool
  | canonicalRoot => do
    let root ← fs.canonical documentRoot
    verdict fs root (← FileHandler.pathToCheck fs resolvedPath)
  | exists_ root => do verdict fs root (← FileHandler.pathToCheck fs resolvedPath)
  | canonical root => do verdict fs root (← fs.canonical resolvedPath)
  | parentExists root => do
    if ← fs.exists_ (Paths.parentPath resolvedPath) then
      let parent ← fs.canonical (Paths.parentPath resolvedPath)
      verdict fs root (Paths.append parent (Paths.filename resolvedPath))
    else verdict fs root (Paths.lexicallyNormal (← fs.absolute resolvedPath))
  | parentCanonical root => do
    let parent ← fs.canonical (Paths.parentPath resolvedPath)
    verdict fs root (Paths.append parent (Paths.filename resolvedPath))
  | absolute root => do verdict fs root (Paths.lexicallyNormal (← fs.absolute resolvedPath))
  | relative root path => verdict fs root path

/-- A step does what it takes off the rest. -/
theorem SafePc.rest_eq (fs : FileSystem) (documentRoot resolvedPath : Bytes) (pc : SafePc) :
    pc.rest fs documentRoot resolvedPath = match pc.exec fs documentRoot resolvedPath with
      | .ok (.inl pc') => pc'.rest fs documentRoot resolvedPath
      | .ok (.inr safe) => .ok safe
      | .error e => .error e := by
  cases pc with
  | canonicalRoot =>
    simp only [rest, exec]
    cases fs.canonical documentRoot <;> rfl
  | exists_ root =>
    simp only [rest, exec, FileHandler.pathToCheck]
    cases hfound : fs.exists_ resolvedPath with
    | error e => rfl
    | ok found =>
      cases found with
      | true => rfl
      | false =>
        simp only [bind, Except.bind, pure, Except.pure, Bool.false_eq_true, if_false]
        cases hparent : fs.exists_ (Paths.parentPath resolvedPath) with
        | error e => rfl
        | ok parent =>
          cases parent with
          | true => cases fs.canonical (Paths.parentPath resolvedPath) <;> rfl
          | false => cases fs.absolute resolvedPath <;> rfl
  | canonical root =>
    simp only [rest, exec]
    cases fs.canonical resolvedPath <;> rfl
  | parentExists root =>
    simp only [rest, exec]
    cases hparent : fs.exists_ (Paths.parentPath resolvedPath) with
    | error e => rfl
    | ok parent => cases parent <;> rfl
  | parentCanonical root =>
    simp only [rest, exec]
    cases fs.canonical (Paths.parentPath resolvedPath) <;> rfl
  | absolute root =>
    simp only [rest, exec]
    cases fs.absolute resolvedPath <;> rfl
  | relative root path =>
    simp only [rest, exec, verdict]
    cases fs.relative path root <;> rfl

theorem SafePc.rest_canonicalRoot (h : FileHandler) (fs : FileSystem) (resolvedPath : Bytes) :
    canonicalRoot.rest fs h.documentRoot resolvedPath = h.checkPath fs resolvedPath := by
  simp only [rest, FileHandler.checkPath, verdict]

namespace FilePc

/-- The `catch` clause of `handle_file_request`. -/
def caught : Except Failure Located → Located
  | .ok located => located
  | .error _ => .refused .internalServerError (bytes "Internal server error")

/-- Where the rest of a call leads, over files that do not change, up to the
use of the cache; `none` once it is past that. -/
def rest (h : FileHandler) (fs : FileSystem) : FilePc → Option (Except Failure Located)
  | idle | returned _ _ | thrown _ => none
  | safe call pc => some <|
    let resolvedPath := h.resolvePath call.requestPath
    match pc.rest fs h.documentRoot resolvedPath with
    | .ok true => do
      if !(← fs.exists_ resolvedPath) then return .refused .notFound (bytes "File not found")
      else return caught (h.select fs resolvedPath)
    | .ok false | .error _ => .ok (.refused .forbidden (bytes "Access denied"))
  | exists_ call => some do
    let resolvedPath := h.resolvePath call.requestPath
    if !(← fs.exists_ resolvedPath) then return .refused .notFound (bytes "File not found")
    else return caught (h.select fs resolvedPath)
  | isDirectory call => some (.ok (caught (h.select fs (h.resolvePath call.requestPath))))
  | defaultExists call => some (.ok (caught do
    let path := h.defaultPath (h.resolvePath call.requestPath)
    if ← fs.exists_ path then
      if ← fs.isRegularFile path then h.checkFile fs path
      else return .listing (h.resolvePath call.requestPath)
    else return .listing (h.resolvePath call.requestPath)))
  | defaultRegular call => some (.ok (caught do
    let path := h.defaultPath (h.resolvePath call.requestPath)
    if ← fs.isRegularFile path then h.checkFile fs path
    else return .listing (h.resolvePath call.requestPath)))
  | listing call => some (.ok (.listing (h.resolvePath call.requestPath)))
  | isRegular _ path => some (.ok (caught (h.checkFile fs path)))
  | fileSize _ path => some (.ok (caught do
    if h.maxFileSize < (← fs.fileSize path) then return .refused .forbidden (bytes "File too large")
    else return .file path))
  | get _ path | read _ path | put _ path _ => some (.ok (.file path))

/-- The answer of a handler without a cache, once it is clear where the request leads. -/
def answer (texts : EntryTexts) (fs : FileSystem) (requestPath date : Bytes) : Located → HttpResponse
  | .refused status message => .createErrorResponse status message date
  | .listing dirPath => FileHandler.createDirectoryListing texts fs dirPath requestPath date
  | .file path => FileHandler.diskResponse fs path date

/-- A call goes on to where its request leads, or has returned what a handler
without a cache answers. -/
structure Follows (h : FileHandler) (fs : FileSystem) (pc : FilePc) : Prop where
  rest : ∀ call located, pc.call = some call → pc.rest h fs = some located →
    located = h.locate fs call.requestPath
  answers : ∀ call r, pc = returned call r → ∃ texts date located,
    h.locate fs call.requestPath = .ok located ∧
      Serving.SameAnswer r (answer texts fs call.requestPath date located)
  notThrown : ∀ call, pc ≠ thrown call

variable {h : FileHandler} {fs : FileSystem} {pc : FilePc} {call : FileCall}

/-- The call returns what its rest leads to. -/
theorem Follows.returned (hf : Follows h fs pc) (hc : pc.call = some call) {located : Located}
    (hrest : pc.rest h fs = some (.ok located)) (texts : EntryTexts) (date : Bytes) {r : HttpResponse}
    (hr : Serving.SameAnswer r (answer texts fs call.requestPath date located)) :
    Follows h fs (.returned call r) := by
  refine ⟨nofun, ?_, nofun⟩
  rintro _ _ ⟨⟩
  exact ⟨texts, date, located, (hf.rest call _ hc hrest).symm, hr⟩

theorem Follows.refused (hf : Follows h fs pc) (hc : pc.call = some call) {status : HttpStatus}
    {message : Bytes} (hrest : pc.rest h fs = some (.ok (.refused status message))) (date : Bytes) :
    Follows h fs (refused call status message date) :=
  hf.returned hc hrest ⟨fun _ => [], fun _ => []⟩ date ⟨rfl, rfl, rfl⟩

/-- The call goes on with the same rest. -/
theorem Follows.goes (hf : Follows h fs pc) {pc' : FilePc} (hc : pc.call = some call)
    (hc' : pc'.call = some call) {located : Except Failure Located} (hrest : pc'.rest h fs = some located)
    (hsame : pc.rest h fs = some located) : Follows h fs pc' := by
  refine ⟨fun call' located' hc'' hl => ?_, ?_, ?_⟩
  · obtain rfl := Option.some.inj (hc'.symm.trans hc'')
    obtain rfl := Option.some.inj (hrest.symm.trans hl)
    exact hf.rest call located hc hsame
  · rintro call' r rfl
    cases hrest
  · rintro call' rfl
    cases hrest

/-- An answer of the file system takes the call on; an error is caught. -/
theorem Follows.onAnswer {α : Type} (hf : Follows h fs pc) (hc : pc.call = some call) (date : Bytes)
    {query : Except Failure α} {next : α → FilePc} {cont : α → Except Failure Located}
    (hrest : pc.rest h fs = some (.ok (caught (query >>= cont))))
    (hn : ∀ a, pc.rest h fs = some (.ok (caught (cont a))) → Follows h fs (next a)) :
    Follows h fs (onAnswer call date query next) := by
  cases query with
  | ok a => exact hn a hrest
  | error e => exact hf.refused hc hrest date

theorem exec_follows {now : Int} {texts : EntryTexts} {date : Bytes} {h' : FileHandler} {pc' : FilePc}
    (hf : Follows h fs pc) (he : pc.exec h fs now texts date = some (h', pc'))
    (hget : ∀ path entry, (h.getCached path now).2 = some entry → fs.read path = some entry.data ∧
      entry.contentType = HttpResponse.getMimeType (Paths.extension path))
    (hput : ∀ call path content, pc = put call path content → fs.read path = some content) :
    Follows h fs pc' := by
  cases pc with
  | idle | returned | thrown => cases he
  | safe call pc =>
    obtain ⟨rfl, rfl⟩ := Prod.mk.inj (Option.some.inj he)
    have hrest := pc.rest_eq fs h.documentRoot (h.resolvePath call.requestPath)
    split
    · next pc₁ hpc =>
      rw [hpc] at hrest
      exact hf.goes rfl rfl rfl (by simp only [FilePc.rest, hrest])
    · next hpc =>
      rw [hpc] at hrest
      exact hf.goes rfl rfl rfl (by simp only [FilePc.rest, hrest])
    · next hpc =>
      rw [hpc] at hrest
      exact hf.refused rfl (by simp only [FilePc.rest, hrest]) date
    · next hpc =>
      rw [hpc] at hrest
      exact hf.refused rfl (by simp only [FilePc.rest, hrest]) date
  | exists_ call =>
    obtain ⟨rfl, rfl⟩ := Prod.mk.inj (Option.some.inj he)
    split
    · next hfound => exact hf.goes rfl rfl rfl (by simp [FilePc.rest, hfound, bind, Except.bind, pure, Except.pure])
    · next hfound =>
      exact hf.refused rfl (by simp [FilePc.rest, hfound, bind, Except.bind, pure, Except.pure]) date
    · next e hfound =>
      -- the check has found the path already
      obtain ⟨l, hl⟩ := FileHandler.locate_isOk h fs call.requestPath
      have := hf.rest call (.error e) rfl (by simp [FilePc.rest, hfound, bind, Except.bind])
      cases this.trans hl
  | isDirectory call =>
    obtain ⟨rfl, rfl⟩ := Prod.mk.inj (Option.some.inj he)
    refine hf.onAnswer rfl date rfl fun directory hrest => ?_
    cases directory <;> exact hf.goes rfl rfl rfl hrest
  | defaultExists call =>
    obtain ⟨rfl, rfl⟩ := Prod.mk.inj (Option.some.inj he)
    refine hf.onAnswer rfl date rfl fun found hrest => ?_
    cases found <;> exact hf.goes rfl rfl rfl hrest
  | defaultRegular call =>
    obtain ⟨rfl, rfl⟩ := Prod.mk.inj (Option.some.inj he)
    refine hf.onAnswer rfl date rfl fun regular hrest => ?_
    cases regular <;> exact hf.goes rfl rfl rfl hrest
  | listing call =>
    obtain ⟨rfl, rfl⟩ := Prod.mk.inj (Option.some.inj he)
    exact hf.returned rfl rfl texts date ⟨rfl, rfl, rfl⟩
  | isRegular call path =>
    obtain ⟨rfl, rfl⟩ := Prod.mk.inj (Option.some.inj he)
    refine hf.onAnswer rfl date rfl fun regular hrest => ?_
    cases regular with
    | false => exact hf.refused rfl hrest date
    | true => exact hf.goes rfl rfl rfl hrest
  | fileSize call path =>
    obtain ⟨rfl, rfl⟩ := Prod.mk.inj (Option.some.inj he)
    refine hf.onAnswer rfl date rfl fun size hrest => ?_
    by_cases hsize : h.maxFileSize < size
    · rw [if_pos hsize] at hrest ⊢
      exact hf.refused rfl hrest date
    · rw [if_neg hsize] at hrest ⊢
      exact hf.goes rfl rfl rfl hrest
  | get call path =>
    simp only [exec] at he
    split at he
    · next entry hgot =>
      obtain ⟨rfl, rfl⟩ := Prod.mk.inj (Option.some.inj he)
      obtain ⟨hread, htype⟩ := hget path entry (by rw [hgot])
      refine hf.returned rfl rfl texts date ?_
      rw [answer, FileHandler.diskResponse, hread]
      exact Serving.sameAnswer_of_carries (htype ▸ FileHandler.carries_hitResponse entry date)
        (FileHandler.carries_missResponse ..)
    · obtain ⟨rfl, rfl⟩ := Prod.mk.inj (Option.some.inj he)
      exact hf.goes rfl rfl rfl rfl
  | read call path =>
    obtain ⟨rfl, rfl⟩ := Prod.mk.inj (Option.some.inj he)
    split
    · next hread =>
      refine hf.returned rfl rfl texts date ?_
      rw [answer, FileHandler.diskResponse, hread]
      exact ⟨rfl, rfl, rfl⟩
    · exact hf.goes rfl rfl rfl rfl
  | put call path content =>
    obtain ⟨h₁, -, heq⟩ := Option.map_eq_some_iff.mp he
    obtain ⟨rfl, rfl⟩ := Prod.mk.inj heq
    refine hf.returned rfl rfl texts date ?_
    rw [answer, FileHandler.diskResponse, hput call path content rfl]
    exact ⟨rfl, rfl, rfl⟩

/-- A call begins with all of `handle_file_request` before it. -/
theorem Follows.begins (h : FileHandler) (fs : FileSystem) (call : FileCall) :
    Follows h fs (.safe call .canonicalRoot) := by
  refine ⟨fun call' located hc hl => ?_, nofun, nofun⟩
  obtain rfl := Option.some.inj hc
  obtain rfl := Option.some.inj hl
  obtain ⟨safe, hcheck⟩ : ∃ safe, h.checkPath fs (h.resolvePath call.requestPath) = safe := ⟨_, rfl⟩
  simp only [SafePc.rest_canonicalRoot, FileHandler.locate, FileHandler.isSafePath, hcheck]
  rcases safe with e | safe
  · rfl
  cases safe with
  | false => rfl
  | true =>
    cases fs.exists_ (h.resolvePath call.requestPath) with
    | error e => rfl
    | ok found =>
      cases found with
      | false => rfl
      | true => cases h.select fs (h.resolvePath call.requestPath) <;> rfl

theorem Follows.configured {h₀ : FileHandler} (hf : Follows h₀ fs pc) (hc : h₀.Configured h) :
    Follows h fs pc := by
  rw [hc]
  exact ⟨fun call located hcall hl => hf.rest call located hcall (by rw [← hl]; cases pc <;> rfl),
    hf.answers, hf.notThrown⟩

end FilePc

namespace FileWorkers

variable {n : Nat} {s : FileWorkers n} {documentRoot defaultFile : Bytes} {enableCache : Bool}
  {cacheSizeMb : Nat}

/-- The step leaves the files as they are. -/
def keepsFiles : FileAction n → Bool
  | .change _ => false
  | _ => true

/-- Without changes the files were always the same. -/
theorem history_eq (h : (system n documentRoot defaultFile enableCache cacheSizeMb).ReachableBy
    (fun _ a => keepsFiles a = true) s) : ∀ e ∈ s.history, e.2 = s.fs := by
  refine h.invariant (I := fun s => ∀ e ∈ s.history, e.2 = s.fs) ?_ ?_
  · intro s hinit
    simp [hinit.2.2]
  intro s a s' _ hi hkeeps hs
  cases step_cases hs with
  | call | worker => exact hi
  | change fs => cases hkeeps
  | advance ns => exact List.forall_mem_cons.mpr ⟨rfl, hi⟩

theorem follows (h : (system n documentRoot defaultFile enableCache cacheSizeMb).ReachableBy
    (fun _ a => keepsFiles a = true) s) (w : Fin n) :
    FilePc.Follows (.make documentRoot defaultFile enableCache cacheSizeMb) s.fs (s.worker w) := by
  refine h.invariant (I := fun s => ∀ w, FilePc.Follows
    (.make documentRoot defaultFile enableCache cacheSizeMb) s.fs (s.worker w)) ?_ ?_ w
  · intro s hinit w
    rw [hinit.2.1 w]
    exact ⟨nofun, nofun, nofun⟩
  intro s a s' hr hf hkeeps hs w'
  have hi := inv hr
  have hfiles := history_eq hr
  cases step_cases hs with
  | call w requestPath =>
    by_cases hww : w' = w
    · subst hww
      simpa using FilePc.Follows.begins _ s.fs ⟨requestPath, s.clock⟩
    · simpa [hww] using hf w'
  | change fs => cases hkeeps
  | advance ns => exact hf w'
  | worker w texts date h' pc' he =>
    by_cases hww : w' = w
    · subst hww
      -- what was read at some time would be read now
      have current : ∀ {instant fs path content}, (instant, fs) ∈ s.history →
          fs.read path = some content → s.fs.read path = some content := by
        intro instant fs path content hmem hread
        obtain rfl : fs = s.fs := hfiles _ hmem
        exact hread
      have hnext : FilePc.Follows s.handler s.fs pc' := by
        refine FilePc.exec_follows ((hf w').configured hi.configured) he (fun path entry hget => ?_)
          fun call path content hpc => ?_
        · obtain ⟨-, -, hfound⟩ := s.handler.getCached_eq path s.clock
          rw [hget] at hfound
          obtain ⟨c, hc, hgot⟩ := Option.bind_eq_some_iff.mp hfound.symm
          obtain ⟨entry₀, it, hk, ⟨hdata, htype, -⟩, -⟩ := LRUCache.get_eq_some hgot
          have hcached := (hi.cache c hc).2 path entry₀ it hk
          obtain ⟨instant, fs, hmem, -, hread⟩ := hcached.read
          exact ⟨hdata ▸ current hmem hread, htype.trans hcached.contentType⟩
        · obtain ⟨instant, fs, hmem, -, hread⟩ := (hi.worker w').content call path content hpc
          exact current hmem hread
      have hback : s.handler.Configured (.make documentRoot defaultFile enableCache cacheSizeMb) := by
        rw [FileHandler.Configured, hi.configured]
      simpa using hnext.configured hback
    · simpa [hww] using hf w'

/-- What a call returns that follows the files is what is on the disk. -/
theorem disk_answer {fs : FileSystem} {pc : FilePc} {call : FileCall} {r : HttpResponse}
    (hf : FilePc.Follows (.make documentRoot defaultFile enableCache cacheSizeMb) fs pc)
    (hr : pc = .returned call r) (now : Int) : ∃ texts date h' r',
      (FileHandler.make documentRoot defaultFile false cacheSizeMb).handleFileRequest texts fs
        call.requestPath now date = .ok (some (h', r')) ∧ Serving.SameAnswer r r' := by
  obtain ⟨texts, date, l, hl, hsame⟩ := hf.answers call r hr
  have hl' : (FileHandler.make documentRoot defaultFile false cacheSizeMb).locate fs call.requestPath =
      .ok l := hl
  refine ⟨texts, date, .make documentRoot defaultFile false cacheSizeMb,
    FilePc.answer texts fs call.requestPath date l, ?_, hsame⟩
  rw [FileHandler.handleFileRequest, hl']
  cases l with
  | refused status message => rfl
  | listing dirPath => rfl
  | file path => exact congrArg Except.ok (FileHandler.serveFile_disabled rfl path now date)

/-- **Nobody notices the threads or the cache** in a run in which no file
changes: whatever the order of their steps, no exception leaves a call, and
each call returns what `handle_file_request` without a cache returns when it
is the only one. -/
theorem unnoticed (h : (system n documentRoot defaultFile enableCache cacheSizeMb).ReachableBy
    (fun _ a => keepsFiles a = true) s) (w : Fin n) (call : FileCall) :
    s.worker w ≠ .thrown call ∧ ∀ r, s.worker w = .returned call r → ∃ texts date h' r',
      (FileHandler.make documentRoot defaultFile false cacheSizeMb).handleFileRequest texts s.fs
        call.requestPath s.clock date = .ok (some (h', r')) ∧ Serving.SameAnswer r r' := by
  have hf := follows h w
  exact ⟨hf.notThrown call, fun r hr => disk_answer hf hr s.clock⟩

/-- Two threads look for a file in the cache before either has read it. -/
def meeting : List (FileAction 2) :=
  let both := List.finRange 2
  both.map (.call · (bytes "/a.txt")) ++ both.flatMap (goes · 9) ++ both.flatMap (goes · 2)

theorem unnoticed_meeting : ∃ s : FileWorkers 2, ∃ call r,
    (system 2 (bytes "./public") (bytes "index.html") true 100).ReachableBy (fun _ a => keepsFiles a = true) s ∧
      s.worker 1 = .returned call r ∧ FileHandler.xCache r = some (bytes "MISS") ∧
      ∃ texts date h' r', (FileHandler.make (bytes "./public") (bytes "index.html") false 100).handleFileRequest
        texts s.fs call.requestPath s.clock date = .ok (some (h', r')) ∧ Serving.SameAnswer r r' := by
  obtain ⟨s, hreach, hs⟩ := System.exists_reachableBy
    (S := system 2 (bytes "./public") (bytes "index.html") true 100) (s := started)
    ⟨rfl, fun _ => rfl, rfl⟩ (fun _ a => keepsFiles a) meeting
    (fun s => decide ((s.worker 1).xCache = some (bytes "MISS"))) (by decide +kernel)
  have hx := of_decide_eq_true hs
  cases hpc : s.worker 1 with
  | returned call r =>
    rw [hpc] at hx
    exact ⟨s, call, r, hreach, hpc, hx, (unnoticed hreach 1 call).2 r hpc⟩
  | _ =>
    rw [hpc] at hx
    cases hx

end FileWorkers

end Webserver
