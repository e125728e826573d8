/-
The file handler (`file_handler.h`, `file_handler.cpp`) over a tree of files
that does not change within one call. All clock readings of a call are one
instant, and the dates it prints are an argument.
-/
import Webserver.CacheContents
import Webserver.FileSystem
import Webserver.HttpResponse

namespace Webserver

open Cxx

structure FileHandler where
  documentRoot : Bytes
  defaultFile : Bytes
  maxFileSize : Nat
  cacheEnabled : Bool
  cache : Option LRUCache

/-- What a listing prints about an entry, from its path: `get_file_size_string`
of its size and `get_last_modified_string` of its time, or `-` without one. -/
structure EntryTexts where
  fileSizeString : Nat → Bytes
  lastModified : Bytes → Bytes

/-- Where the path of a request leads. -/
inductive Located
  | refused (status : HttpStatus) (message : Bytes)
  | listing (dirPath : Bytes)
  | file (path : Bytes)
  deriving DecidableEq

namespace FileHandler

def defaultMaxFileSize : Nat := 50 * 1024 * 1024

/-- The constructor, but for the directories it creates. -/
def make (documentRoot defaultFile : Bytes) (enableCache : Bool) (cacheSizeMb : Nat) : FileHandler where
  documentRoot :=
    if documentRoot ≠ [] ∧ documentRoot.getLast? ≠ some 47 then documentRoot ++ bytes "/" else documentRoot
  defaultFile := defaultFile
  maxFileSize := defaultMaxFileSize
  cacheEnabled := enableCache
  cache := if enableCache then some (LRUCache.make cacheSizeMb 300) else none

def resolvePath (h : FileHandler) (requestPath : Bytes) : Bytes :=
  let path := if requestPath.head? = some 47 then requestPath.tail else requestPath
  h.documentRoot ++ if path = [] then h.defaultFile else path

/-- The path `is_safe_path` compares with the canonical root. -/
def pathToCheck (fs : FileSystem) (resolvedPath : Bytes) : Except Failure Bytes := do
  if ← fs.exists_ resolvedPath then fs.canonical resolvedPath
  else
    let parentPath := Paths.parentPath resolvedPath
    if ← fs.exists_ parentPath then
      return Paths.append (← fs.canonical parentPath) (Paths.filename resolvedPath)
    else return Paths.lexicallyNormal (← fs.absolute resolvedPath)

/-- What `is_safe_path` does in its `try` block. -/
def checkPath (h : FileHandler) (fs : FileSystem) (resolvedPath : Bytes) : Except Failure Bool := do
  let canonicalRoot ← fs.canonical h.documentRoot
  let relative ← fs.relative (← pathToCheck fs resolvedPath) canonicalRoot
  return relative ≠ [] && relative.head? ≠ some 46 && (find (bytes "..") relative).isNone

def isSafePath (h : FileHandler) (fs : FileSystem) (resolvedPath : Bytes) : Bool :=
  match h.checkPath fs resolvedPath with
  | .ok safe => safe
  | .error _ => false

/-- The default file of a directory. -/
def defaultPath (h : FileHandler) (resolvedPath : Bytes) : Bytes :=
  (if resolvedPath.getLast? ≠ some 47 then resolvedPath ++ bytes "/" else resolvedPath) ++ h.defaultFile

/-- The checks on the path that will be opened. -/
def checkFile (h : FileHandler) (fs : FileSystem) (path : Bytes) : Except Failure Located := do
  if !(← fs.isRegularFile path) then return .refused .forbidden (bytes "Not a regular file")
  else if h.maxFileSize < (← fs.fileSize path) then return .refused .forbidden (bytes "File too large")
  else return .file path

/-- The `try` block up to these checks. -/
def select (h : FileHandler) (fs : FileSystem) (resolvedPath : Bytes) : Except Failure Located := do
  if ← fs.isDirectory resolvedPath then
    let path := h.defaultPath resolvedPath
    if ← fs.exists_ path then
      if ← fs.isRegularFile path then h.checkFile fs path else return .listing resolvedPath
    else return .listing resolvedPath
  else h.checkFile fs resolvedPath

/-- `handle_file_request` up to the use of the cache. -/
def locate (h : FileHandler) (fs : FileSystem) (requestPath : Bytes) : Except Failure Located := do
  let resolvedPath := h.resolvePath requestPath
  if !h.isSafePath fs resolvedPath then return .refused .forbidden (bytes "Access denied")
  else if !(← fs.exists_ resolvedPath) then return .refused .notFound (bytes "File not found")
  else match h.select fs resolvedPath with
    | .ok located => return located
    | .error _ => return .refused .internalServerError (bytes "Internal server error")

/-- `cache_`, where it is used. -/
def activeCache (h : FileHandler) : Option LRUCache := if h.cacheEnabled then h.cache else none

/-- `cache_->get(path)` -/
def getCached (h : FileHandler) (path : Bytes) (now : Int) : FileHandler × Option CacheEntry :=
  match h.activeCache with
  | none => (h, none)
  | some cache =>
    let (cache, entry) := cache.get path now now
    ({ h with cache := some cache }, entry)

/-- `cache_->put(path, content, mime_type)`, for files below one megabyte. -/
def putCached (h : FileHandler) (path content mimeType : Bytes) (now : Int) : Option FileHandler :=
  match h.activeCache with
  | none => some h
  | some cache =>
    if content.length < 1024 * 1024 then
      (cache.put path content mimeType now).map fun cache => { h with cache := some cache }
    else some h

/-- The answer from the cache. -/
def hitResponse (entry : CacheEntry) (date : Bytes) : HttpResponse :=
  (((HttpResponse.new .ok date).setBody entry.data).setContentType entry.contentType).setHeader
    (bytes "X-Cache") (bytes "HIT")

/-- The answer from the disk. -/
def missResponse (path content date : Bytes) : HttpResponse :=
  (HttpResponse.createFileResponse (Paths.extension path) content date).setHeader (bytes "X-Cache")
    (bytes "MISS")

/-- `handle_file_request` for the path it opens; `none` where it does not return. -/
def serveFile (h : FileHandler) (fs : FileSystem) (path : Bytes) (now : Int) (date : Bytes) :
    Option (FileHandler × HttpResponse) :=
  match h.getCached path now with
  | (h, some entry) => some (h, hitResponse entry date)
  | (h, none) =>
    match fs.read path with
    | none => some (h, .createErrorResponse .internalServerError (bytes "Could not read file") date)
    | some content =>
      let mimeType := HttpResponse.getMimeType (Paths.extension path)
      (h.putCached path content mimeType now).map fun h => (h, missResponse path content date)

/-! ## Directory listings -/

/-- The page up to its entries. -/
def listingHead (requestPath : Bytes) : Bytes :=
  bytes "<!DOCTYPE html>\n" ++ bytes "<html><head><title>Directory listing for " ++ requestPath ++
    bytes "</title>" ++ bytes "<style>\n" ++
    bytes "body \x7b font-family: Arial, sans-serif; margin: 40px; \x7d\n" ++
    bytes "table \x7b border-collapse: collapse; width: 100%; \x7d\n" ++
    bytes "th, td \x7b border: 1px solid #ddd; padding: 8px; text-align: left; \x7d\n" ++
    bytes "th \x7b background-color: #f2f2f2; \x7d\n" ++
    bytes "a \x7b text-decoration: none; color: #0066cc; \x7d\n" ++
    bytes "a:hover \x7b text-decoration: underline; \x7d\n" ++ bytes "</style></head>\n" ++
    bytes "<body>\n" ++ bytes "<h1>Directory listing for " ++ requestPath ++ bytes "</h1>\n" ++
    bytes "<table>\n" ++ bytes "<tr><th>Name</th><th>Size</th><th>Last Modified</th></tr>\n"

/-- Where the link to the parent directory leads. -/
def parentLink (requestPath : Bytes) : Bytes :=
  let path := if requestPath.getLast? = some 47 then requestPath.dropLast else requestPath
  if path.contains 47 then path.rdropWhile (· ≠ 47) else bytes "/"

def parentRow (requestPath : Bytes) : Bytes :=
  if requestPath ≠ bytes "/" ∧ requestPath ≠ [] then
    bytes "<tr><td><a href=\"" ++ parentLink requestPath ++ bytes "\">..</a></td><td>-</td><td>-</td></tr>\n"
  else []

/-- The path a link to an entry leads to, but for the slash after a directory. -/
def linkPath (requestPath filename : Bytes) : Bytes :=
  (if requestPath.getLast? ≠ some 47 then requestPath ++ bytes "/" else requestPath) ++ filename

/-- The row of an entry, given whether it is a directory. -/
def entryRow (texts : EntryTexts) (fs : FileSystem) (dirPath requestPath filename : Bytes)
    (isDirectory : Bool) : Bytes :=
  let path := Paths.append dirPath filename
  let mark := if isDirectory then bytes "/" else []
  let size :=
    if isDirectory then bytes "-"
    else match fs.fileSize path with
      | .ok size => texts.fileSizeString size
      | .error _ => bytes "-"
  bytes "<tr>" ++ bytes "<td><a href=\"" ++ (linkPath requestPath filename ++ mark) ++ bytes "\">" ++
    (filename ++ mark) ++ bytes "</a></td>" ++ bytes "<td>" ++ size ++ bytes "</td>" ++
    bytes "<td>" ++ texts.lastModified path ++ bytes "</td>" ++ bytes "</tr>\n"

/-- The order of the rows: directories first, then by name. -/
def rowLE (a b : Bytes × Bool) : Prop := if a.2 ≠ b.2 then a.2 = true else a.1 ≤ b.1

instance : DecidableRel rowLE := fun _ _ => inferInstanceAs (Decidable (ite _ _ _))

/-- The entries with `is_directory()`, sorted. -/
def listedEntries (fs : FileSystem) (dirPath : Bytes) : Except Failure (List (Bytes × Bool)) := do
  let names ← fs.directoryEntries dirPath
  let entries ← names.mapM fun filename => do
    return (filename, ← fs.isDirectory (Paths.append dirPath filename))
  return entries.insertionSort rowLE

def listingPage (texts : EntryTexts) (fs : FileSystem) (dirPath requestPath : Bytes) :
    Except Failure Bytes := do
  let entries ← listedEntries fs dirPath
  return listingHead requestPath ++ parentRow requestPath ++
    entries.flatMap (fun e => entryRow texts fs dirPath requestPath e.1 e.2) ++ bytes "</table>\n" ++
    bytes "<hr>\n" ++ bytes "<p><em>MultithreadedWebServer/1.0</em></p>\n" ++ bytes "</body></html>\n"

def createDirectoryListing (texts : EntryTexts) (fs : FileSystem) (dirPath requestPath date : Bytes) :
    HttpResponse :=
  match listingPage texts fs dirPath requestPath with
  | .ok body =>
    (((HttpResponse.new .ok date).setBody body).setContentType
      (bytes "text/html; charset=utf-8")).setHeader (bytes "X-Cache") (bytes "NONE")
  | .error _ => .createErrorResponse .internalServerError (bytes "Could not list directory") date

/-! ## Requests -/

/-- An error is an exception that leaves `handle_file_request`; `none` is a
call that does not return. -/
def handleFileRequest (h : FileHandler) (texts : EntryTexts) (fs : FileSystem) (requestPath : Bytes)
    (now : Int) (date : Bytes) : Except Failure (Option (FileHandler × HttpResponse)) := do
  match ← h.locate fs requestPath with
  | .refused status message => return some (h, .createErrorResponse status message date)
  | .listing dirPath => return some (h, createDirectoryListing texts fs dirPath requestPath date)
  | .file path => return h.serveFile fs path now date

/-! ## Where a request leads -/

variable {h : FileHandler} {fs : FileSystem}

theorem bind_eq_ok {α β} {x : Except Failure α} {f : α → Except Failure β} {b : β} :
    (x >>= f) = .ok b ↔ ∃ a, x = .ok a ∧ f a = .ok b := by
  cases x <;> simp [bind, Except.bind]

/-- Of a path that exists the check looks at the names that lead there from the root. -/
theorem isSafePath_of_resolve {path : Bytes} {base p : Place} (hbase : fs.resolve h.documentRoot = .ok base)
    (hp : fs.resolve path = .ok p) : h.isSafePath fs path = true ↔
      let relative := Paths.lexicallyRelative (Paths.ofNames true p) (Paths.ofNames true base)
      relative ≠ [] ∧ relative.head? ≠ some 46 ∧ find (bytes "..") relative = none := by
  have hexists : fs.exists_ path = .ok true := FileSystem.exists_eq_true.mpr ⟨p, hp⟩
  have hcanonical : pathToCheck fs path = .ok (Paths.ofNames true p) := by
    simp [pathToCheck, hexists, FileSystem.canonical, hp, bind, Except.bind, Except.map]
  have hrelative := (FileSystem.resolve_settled hp).relative (FileSystem.resolve_settled hbase)
  simp only [isSafePath, checkPath, hcanonical, FileSystem.canonical, hbase, hrelative, bind, Except.bind,
    Except.map, pure, Except.pure, Bool.and_eq_true, decide_eq_true_eq, Option.isNone_iff_eq_none, and_assoc]

/-- A path is safe beneath a root only. -/
theorem resolve_of_isSafePath {path : Bytes} (hsafe : h.isSafePath fs path = true) :
    ∃ base, fs.resolve h.documentRoot = .ok base := by
  cases hbase : fs.resolve h.documentRoot with
  | ok base => exact ⟨base, rfl⟩
  | error e => simp [isSafePath, checkPath, FileSystem.canonical, hbase, bind, Except.bind, Except.map] at hsafe

/-- The check confines what exists to the root. -/
theorem beneath_of_isSafePath {path : Bytes} {p : Place} (hsafe : h.isSafePath fs path = true)
    (hp : fs.resolve path = .ok p) : fs.Beneath h.documentRoot path := by
  obtain ⟨base, hbase⟩ := resolve_of_isSafePath hsafe
  obtain ⟨-, hhead, -⟩ := (isSafePath_of_resolve hbase hp).mp hsafe
  obtain ⟨hpre, hne⟩ := Paths.prefix_of_lexicallyRelative (FileSystem.resolve_settled hp).plain
    (FileSystem.resolve_settled hbase).plain hhead
  exact ⟨base, p, hbase, hp, hpre, hne⟩

/-- A file that is opened passed its checks. -/
theorem checkFile_eq_ok {path : Bytes} {l : Located} (hl : h.checkFile fs path = .ok l) :
    fs.isRegularFile path = .ok true ∧ l = .file path ∨ ∃ message, l = .refused .forbidden message := by
  simp only [checkFile, bind_eq_ok] at hl
  obtain ⟨regular, hregular, hl⟩ := hl
  cases regular with
  | false => exact .inr ⟨_, (Except.ok.inj hl).symm⟩
  | true =>
    obtain ⟨size, -, hl⟩ := bind_eq_ok.mp hl
    split at hl
    · exact .inr ⟨_, (Except.ok.inj hl).symm⟩
    · exact .inl ⟨hregular, (Except.ok.inj hl).symm⟩

/-- What the `try` block selects, up to the checks on it. -/
theorem select_eq_ok {path : Bytes} {l : Located} (hl : h.select fs path = .ok l) :
    (fs.isDirectory path = .ok true ∧
      (h.checkFile fs (h.defaultPath path) = .ok l ∨ l = .listing path)) ∨
    (fs.isDirectory path = .ok false ∧ h.checkFile fs path = .ok l) := by
  obtain ⟨directory, hdir, hl⟩ := bind_eq_ok.mp hl
  cases directory with
  | false => exact .inr ⟨hdir, hl⟩
  | true =>
    refine .inl ⟨hdir, ?_⟩
    obtain ⟨found, -, hl⟩ := bind_eq_ok.mp hl
    cases found with
    | false => exact .inr (Except.ok.inj hl).symm
    | true =>
      obtain ⟨regular, -, hl⟩ := bind_eq_ok.mp hl
      cases regular with
      | false => exact .inr (Except.ok.inj hl).symm
      | true => exact .inl hl

/-- A path that is not refused passed the check, exists and was selected. -/
theorem select_of_locate {requestPath : Bytes} {l : Located} (hl : h.locate fs requestPath = .ok l)
    (hrefused : ∀ status message, l ≠ .refused status message) :
    h.isSafePath fs (h.resolvePath requestPath) = true ∧
    fs.exists_ (h.resolvePath requestPath) = .ok true ∧
    h.select fs (h.resolvePath requestPath) = .ok l := by
  simp only [locate] at hl
  split at hl
  · exact absurd (Except.ok.inj hl).symm (hrefused _ _)
  next hsafe =>
  obtain ⟨found, hfound, hl⟩ := bind_eq_ok.mp hl
  cases found with
  | false => exact absurd (Except.ok.inj hl).symm (hrefused _ _)
  | true =>
    refine ⟨by simpa using hsafe, hfound, ?_⟩
    simp only [Bool.not_true, Bool.false_eq_true, if_false] at hl
    split at hl
    · next l' hs => rw [hs, Except.ok.inj hl]
    · exact absurd (Except.ok.inj hl).symm (hrefused _ _)

/-- **The file a request leads to**: it is the resolved path, which passed
the check, or the default file of the directory that did. -/
theorem locate_eq_file {requestPath path : Bytes} (hl : h.locate fs requestPath = .ok (.file path)) :
    h.isSafePath fs (h.resolvePath requestPath) = true ∧
    fs.exists_ (h.resolvePath requestPath) = .ok true ∧ fs.isRegularFile path = .ok true ∧
    (fs.isDirectory (h.resolvePath requestPath) = .ok true ∧ path = h.defaultPath (h.resolvePath requestPath) ∨
      fs.isDirectory (h.resolvePath requestPath) = .ok false ∧ path = h.resolvePath requestPath) := by
  obtain ⟨hsafe, hfound, hselect⟩ := select_of_locate hl (by simp)
  have checked : ∀ {path'}, h.checkFile fs path' = .ok (.file path) →
      fs.isRegularFile path = .ok true ∧ path = path' := by
    intro path' hcheck
    rcases checkFile_eq_ok hcheck with ⟨hregular, hpath⟩ | ⟨message, hpath⟩
    · obtain rfl := Located.file.inj hpath
      exact ⟨hregular, rfl⟩
    · cases hpath
  refine ⟨hsafe, hfound, ?_⟩
  rcases select_eq_ok hselect with ⟨hdir, hcheck | hlisting⟩ | ⟨hdir, hcheck⟩
  · obtain ⟨hregular, hpath⟩ := checked hcheck
    exact ⟨hregular, .inl ⟨hdir, hpath⟩⟩
  · cases hlisting
  · obtain ⟨hregular, hpath⟩ := checked hcheck
    exact ⟨hregular, .inr ⟨hdir, hpath⟩⟩

/-- A listing is that of the path a request resolves to, which passed the check. -/
theorem locate_eq_listing {requestPath dirPath : Bytes}
    (hl : h.locate fs requestPath = .ok (.listing dirPath)) :
    h.isSafePath fs (h.resolvePath requestPath) = true ∧ dirPath = h.resolvePath requestPath := by
  obtain ⟨hsafe, -, hselect⟩ := select_of_locate hl (by simp)
  have hfile : ∀ path, h.checkFile fs path ≠ .ok (.listing dirPath) := by
    intro path hcheck
    rcases checkFile_eq_ok hcheck with ⟨-, hpath⟩ | ⟨message, hpath⟩ <;> cases hpath
  rcases select_eq_ok hselect with ⟨-, hcheck | hlisting⟩ | ⟨-, hcheck⟩
  · exact absurd hcheck (hfile _)
  · exact ⟨hsafe, Located.listing.inj hlisting⟩
  · exact absurd hcheck (hfile _)

/-- No exception leaves `handle_file_request`: the query outside the `try`
block is one the check has made already. -/
theorem locate_isOk (h : FileHandler) (fs : FileSystem) (requestPath : Bytes) :
    ∃ l, h.locate fs requestPath = .ok l := by
  simp only [locate]
  split
  · exact ⟨_, rfl⟩
  next hsafe =>
  have hexists : ∃ found, fs.exists_ (h.resolvePath requestPath) = .ok found := by
    cases hfound : fs.exists_ (h.resolvePath requestPath) with
    | ok found => exact ⟨found, rfl⟩
    | error e =>
      refine absurd ?_ hsafe
      simp only [isSafePath, checkPath, pathToCheck, hfound]
      cases fs.canonical h.documentRoot <;> rfl
  obtain ⟨found, hfound⟩ := hexists
  rw [hfound]
  cases found with
  | false => exact ⟨_, rfl⟩
  | true => cases hs : h.select fs (h.resolvePath requestPath) <;> exact ⟨_, rfl⟩

/-! ## What a file is answered with -/

theorem handleFileRequest_file {texts : EntryTexts} {requestPath path date : Bytes} {now : Int}
    (hl : h.locate fs requestPath = .ok (.file path)) :
    h.handleFileRequest texts fs requestPath now date = .ok (h.serveFile fs path now date) := by
  rw [handleFileRequest, hl]
  rfl

/-- The value `handle_file_request` gives the header `X-Cache`. -/
def xCache (r : HttpResponse) : Option Bytes := r.headers.lookup (bytes "X-Cache")

theorem xCache_createErrorResponse (status : HttpStatus) (message date : Bytes) :
    xCache (.createErrorResponse status message date) = none := by
  simp only [xCache, HttpResponse.createErrorResponse, HttpResponse.new, HttpResponse.setContentType,
    HttpResponse.setBody, HttpResponse.setContentLength, HttpResponse.setServerHeader,
    HttpResponse.setHeader]
  have hne : bytes "X-Cache" ≠ bytes "Content-Type" ∧ bytes "X-Cache" ≠ bytes "Content-Length" ∧
      bytes "X-Cache" ≠ bytes "Connection" ∧ bytes "X-Cache" ≠ bytes "Server" ∧
      bytes "X-Cache" ≠ bytes "Date" := by decide +kernel
  obtain ⟨htype, hlength, hconnection, hserver, hdate⟩ := hne
  rw [AList.lookup_insert_ne htype, AList.lookup_insert_ne hlength, AList.lookup_insert_ne hconnection,
    AList.lookup_insert_ne hserver, AList.lookup_insert_ne hdate]
  rfl

theorem xCache_setHeader (r : HttpResponse) (value : Bytes) :
    xCache (r.setHeader (bytes "X-Cache") value) = some value := AList.lookup_insert _

theorem xCache_createDirectoryListing (texts : EntryTexts) (dirPath requestPath date : Bytes) {x : Bytes}
    (hx : xCache (createDirectoryListing texts fs dirPath requestPath date) = some x) : x = bytes "NONE" := by
  unfold createDirectoryListing at hx
  split at hx
  · rw [xCache_setHeader] at hx
    exact (Option.some.inj hx).symm
  · rw [xCache_createErrorResponse] at hx
    cases hx

/-- Only the bytes of a file are answered with a hit or a miss. -/
theorem exists_file_of_xCache {texts : EntryTexts} {requestPath date x : Bytes} {now : Int}
    {h' : FileHandler} {r : HttpResponse}
    (hr : h.handleFileRequest texts fs requestPath now date = .ok (some (h', r)))
    (hx : xCache r = some x) (hne : x ≠ bytes "NONE") : ∃ path,
      h.locate fs requestPath = .ok (.file path) ∧ h.serveFile fs path now date = some (h', r) := by
  obtain ⟨l, hl⟩ := locate_isOk h fs requestPath
  rw [handleFileRequest, hl] at hr
  cases l with
  | refused status message =>
    obtain ⟨-, rfl⟩ := Prod.mk.inj (Option.some.inj (Except.ok.inj hr))
    rw [xCache_createErrorResponse] at hx
    cases hx
  | listing dirPath =>
    obtain ⟨-, rfl⟩ := Prod.mk.inj (Option.some.inj (Except.ok.inj hr))
    exact absurd (xCache_createDirectoryListing texts dirPath requestPath date hx) hne
  | file path => exact ⟨path, hl, Except.ok.inj hr⟩

/-- The response has this status, body and content type. -/
structure Carries (r : HttpResponse) (status : HttpStatus) (body contentType : Bytes) : Prop where
  status : r.status = status
  body : r.body = body
  contentType : r.headers.lookup (bytes "Content-Type") = some contentType

/-- A file's bytes under a content type, with whatever `X-Cache`. -/
theorem carries_setBody (r : HttpResponse) (body contentType value : Bytes) :
    Carries (((r.setBody body).setContentType contentType).setHeader (bytes "X-Cache") value) r.status body
      contentType := by
  refine ⟨rfl, rfl, ?_⟩
  have hne : bytes "Content-Type" ≠ bytes "X-Cache" := by decide +kernel
  simp only [HttpResponse.setContentType, HttpResponse.setHeader]
  rw [AList.lookup_insert_ne hne, AList.lookup_insert]

theorem carries_hitResponse (entry : CacheEntry) (date : Bytes) :
    Carries (hitResponse entry date) .ok entry.data entry.contentType := carries_setBody ..

theorem carries_missResponse (path content date : Bytes) :
    Carries (missResponse path content date) .ok content (HttpResponse.getMimeType (Paths.extension path)) :=
  carries_setBody ..

/-- **What serving a file does**: it answers from the cache, or from the disk
and stores what it read if it may, or it cannot read the file. -/
theorem serveFile_cases {path date : Bytes} {now : Int} {h' : FileHandler} {r : HttpResponse}
    (hs : h.serveFile fs path now date = some (h', r)) :
    (∃ entry, h.getCached path now = (h', some entry) ∧ r = hitResponse entry date) ∨
    (∃ h₁ content, h.getCached path now = (h₁, none) ∧ fs.read path = some content ∧
      h₁.putCached path content (HttpResponse.getMimeType (Paths.extension path)) now = some h' ∧
      r = missResponse path content date) ∨
    (h.getCached path now = (h', none) ∧ fs.read path = none ∧
      r = .createErrorResponse .internalServerError (bytes "Could not read file") date) := by
  unfold serveFile at hs
  split at hs
  · next h₁ entry hget =>
    obtain ⟨rfl, rfl⟩ := Prod.mk.inj (Option.some.inj hs)
    exact .inl ⟨entry, hget, rfl⟩
  · next h₁ hget =>
    split at hs
    · next hread =>
      obtain ⟨rfl, rfl⟩ := Prod.mk.inj (Option.some.inj hs)
      exact .inr (.inr ⟨hget, hread, rfl⟩)
    · next content hread =>
      obtain ⟨h₂, hput, heq⟩ := Option.map_eq_some_iff.mp hs
      obtain ⟨rfl, rfl⟩ := Prod.mk.inj heq
      exact .inr (.inl ⟨h₁, content, hget, hread, hput, rfl⟩)

/-- The settings of a handler are what its cache is not. -/
def Configured (h₀ h : FileHandler) : Prop := h = { h₀ with cache := h.cache }

theorem Configured.trans {h₀ h₁ h₂ : FileHandler} (h : Configured h₀ h₁) (h' : Configured h₁ h₂) :
    Configured h₀ h₂ := by
  rw [Configured, h', h]

theorem Configured.locate {h₀ : FileHandler} (hc : Configured h₀ h) (requestPath : Bytes) :
    h.locate fs requestPath = h₀.locate fs requestPath := by
  rw [hc]
  rfl

theorem activeCache_set {c : LRUCache} (hc : h.activeCache = some c) (c' : LRUCache) :
    { h with cache := some c' }.activeCache = some c' := by
  unfold activeCache at hc ⊢
  split at hc
  · next henabled => exact if_pos henabled
  · cases hc

theorem getCached_eq (h : FileHandler) (path : Bytes) (now : Int) : Configured h (h.getCached path now).1 ∧
    (h.getCached path now).1.activeCache = h.activeCache.map (fun c => (c.get path now now).1) ∧
    (h.getCached path now).2 = h.activeCache.bind fun c => (c.get path now now).2 := by
  cases hc : h.activeCache with
  | none =>
    have hget : h.getCached path now = (h, none) := by rw [getCached, hc]
    rw [hget]
    exact ⟨rfl, hc, rfl⟩
  | some c =>
    have hget : h.getCached path now = ({ h with cache := some (c.get path now now).1 }, (c.get path now now).2) := by
      rw [getCached, hc]
    rw [hget]
    exact ⟨rfl, activeCache_set hc _, rfl⟩

theorem putCached_eq_some {path content mimeType : Bytes} {now : Int} {h' : FileHandler}
    (hp : h.putCached path content mimeType now = some h') : Configured h h' ∧
      (h'.activeCache = h.activeCache ∨ ∃ c c', h.activeCache = some c ∧ content.length < 1024 * 1024 ∧
        c.put path content mimeType now = some c' ∧ h'.activeCache = some c') := by
  cases hc : h.activeCache with
  | none =>
    rw [putCached, hc] at hp
    obtain rfl := Option.some.inj hp
    exact ⟨rfl, .inl hc⟩
  | some c =>
    simp only [putCached, hc] at hp
    split at hp
    · next hsize =>
      obtain ⟨c', hput, rfl⟩ := Option.map_eq_some_iff.mp hp
      exact ⟨rfl, .inr ⟨c, c', rfl, hsize, hput, activeCache_set hc c'⟩⟩
    · obtain rfl := Option.some.inj hp
      exact ⟨rfl, .inl hc⟩

end FileHandler

end Webserver
