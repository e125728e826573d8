/-
The file handler over time: requests, each in one step, between which files
may change in any way and time passes. The setters are not called.
-/
import Webserver.FileHandler

namespace Webserver

open Cxx Systems

/-- The reading of a file that a request led to. -/
structure Reading where
  requestPath : Bytes
  instant : Int
  fs : FileSystem

structure Serving where
  handler : FileHandler
  fs : FileSystem
  /-- `steady_clock::now()`, in nanoseconds. -/
  clock : Int
  /-- Not in the source: the files at every instant so far. -/
  history : List (Int × FileSystem)
  /-- Not in the source: what was read from the disk, by path, latest first. -/
  readings : List (Bytes × Reading)

inductive ServingAction
  | request (texts : EntryTexts) (requestPath date : Bytes)
  | change (fs : FileSystem)
  | advance (ns : Nat)

namespace Serving

/-- The readings once a request is answered, which may have read a file. -/
def noted (s : Serving) (requestPath : Bytes) : List (Bytes × Reading) :=
  match s.handler.locate s.fs requestPath with
  | .ok (.file path) =>
    if (s.handler.getCached path s.clock).2.isNone ∧ (s.fs.read path).isSome then
      (path, ⟨requestPath, s.clock, s.fs⟩) :: s.readings
    else s.readings
  | _ => s.readings

def step (s : Serving) : ServingAction → Option Serving
  | .request texts requestPath date =>
    match s.handler.handleFileRequest texts s.fs requestPath s.clock date with
    | .ok (some (handler, _)) => some { s with handler, readings := s.noted requestPath }
    | _ => none
  | .change fs => some { s with fs, history := (s.clock, fs) :: s.history }
  | .advance ns => some { s with clock := s.clock + ns, history := (s.clock + ns, s.fs) :: s.history }

/-- A handler from its constructor on, over any files. -/
def system (documentRoot defaultFile : Bytes) (enableCache : Bool) (cacheSizeMb : Nat) :
    System Serving ServingAction where
  init s := s.handler = .make documentRoot defaultFile enableCache cacheSizeMb ∧
    s.history = [(s.clock, s.fs)] ∧ s.readings = []
  step := step

/-- The reading that the bytes of an answer come from, given its `X-Cache`. -/
def origin (s : Serving) (requestPath path xCache : Bytes) : Option Reading :=
  if xCache = bytes "HIT" then s.readings.lookup path else some ⟨requestPath, s.clock, s.fs⟩

/-! ## What is cached -/

/-- A reading of this file by a request that led to it. -/
structure Sound (h₀ : FileHandler) (s : Serving) (path : Bytes) (reading : Reading) : Prop where
  past : reading.instant ≤ s.clock
  recorded : (reading.instant, reading.fs) ∈ s.history
  located : h₀.locate reading.fs reading.requestPath = .ok (.file path)

/-- An entry is the copy a reading made. -/
structure CopyOf (path : Bytes) (reading : Reading) (entry : CacheEntry) : Prop where
  created : entry.created = reading.instant
  data : reading.fs.read path = some entry.data
  contentType : entry.contentType = HttpResponse.getMimeType (Paths.extension path)

/-- The cache keeps its limits, and each of its entries is a copy from the
latest reading of its file. -/
structure Traced (cacheSizeMb : Nat) (readings : List (Bytes × Reading)) (c : LRUCache) : Prop where
  inv : c.Inv
  fits : c.storedSize ≤ c.maxSizeBytes
  maxSize : c.maxSizeBytes = LRUCache.megabytes cacheSizeMb
  ttl : c.ttlSeconds = 300
  entries : ∀ path entry it, c.cache.lookup path = some (entry, it) →
    ∃ reading, readings.lookup path = some reading ∧ CopyOf path reading entry

structure Inv (h₀ : FileHandler) (cacheSizeMb : Nat) (s : Serving) : Prop where
  configured : h₀.Configured s.handler
  now : (s.clock, s.fs) ∈ s.history
  readings : ∀ path reading, s.readings.lookup path = some reading → Sound h₀ s path reading
  cache : ∀ c, s.handler.activeCache = some c → Traced cacheSizeMb s.readings c

variable {h₀ : FileHandler} {cacheSizeMb : Nat} {s : Serving}

theorem Traced.make (cacheSizeMb : Nat) : Traced cacheSizeMb [] (LRUCache.make cacheSizeMb 300) where
  inv := ⟨Recency.Indexed.empty _, rfl, rfl, Nat.two_pow_pos 64⟩
  fits := Nat.zero_le _
  maxSize := rfl
  ttl := rfl
  entries _ _ _ h := by cases h

theorem Traced.get {readings : List (Bytes × Reading)} {c : LRUCache} (h : Traced cacheSizeMb readings c)
    (path : Bytes) (now : Int) : Traced cacheSizeMb readings (c.get path now now).1 := by
  obtain ⟨hmax, httl⟩ := LRUCache.get_sameLimits c path now now
  refine ⟨h.inv.get path now now, ?_, hmax.trans h.maxSize, httl.trans h.ttl, fun k entry it hk => ?_⟩
  · rw [hmax]
    exact (LRUCache.get_storedSize path now now).trans h.fits
  · obtain ⟨entry₀, it₀, hk₀, hdata, htype, hcreated⟩ := LRUCache.get_keptFrom c path now now k entry it hk
    obtain ⟨reading, hreading, hcopy⟩ := h.entries k entry₀ it₀ hk₀
    exact ⟨reading, hreading, hcreated.trans hcopy.created, by rw [hdata, hcopy.data],
      htype.trans hcopy.contentType⟩

/-- A new reading of a file that is not in the cache. -/
theorem Traced.read {readings : List (Bytes × Reading)} {c : LRUCache} (h : Traced cacheSizeMb readings c)
    {path : Bytes} (hk : path ∉ c.cache) (reading : Reading) :
    Traced cacheSizeMb ((path, reading) :: readings) c := by
  refine ⟨h.inv, h.fits, h.maxSize, h.ttl, fun k entry it hlookup => ?_⟩
  have hne : k ≠ path := fun heq => hk (AList.lookup_isSome.mp (by rw [← heq, hlookup]; rfl))
  obtain ⟨reading₀, hreading, hcopy⟩ := h.entries k entry it hlookup
  exact ⟨reading₀, by rwa [List.lookup_cons, beq_false_of_ne hne], hcopy⟩

theorem Traced.put {readings : List (Bytes × Reading)} {c c' : LRUCache} {path content : Bytes}
    {reading : Reading} (h : Traced cacheSizeMb readings c) (hk : path ∉ c.cache)
    (hreading : readings.lookup path = some reading) (hsize : content.length < 1024 * 1024)
    (hread : reading.fs.read path = some content)
    (hput : c.put path content (HttpResponse.getMimeType (Paths.extension path)) reading.instant = some c') :
    Traced cacheSizeMb readings c' := by
  obtain ⟨⟨hmax, httl⟩, hentries⟩ := LRUCache.put_contents hput
  have hlimit := LRUCache.megabytes_le cacheSizeMb
  have hwrap : c.maxSizeBytes + content.length < 2 ^ 64 := by
    rw [h.maxSize]
    omega
  obtain ⟨hinv, hfits⟩ := h.inv.put_le h.fits hwrap hk hput
  refine ⟨hinv, hfits, hmax.trans h.maxSize, httl.trans h.ttl, fun k entry it hlookup => ?_⟩
  rcases hentries k entry it hlookup with ⟨rfl, hdata, htype, hcreated⟩ |
    ⟨entry₀, it₀, hk₀, hdata, htype, hcreated⟩
  · exact ⟨reading, hreading, hcreated, by rw [hdata, hread], htype⟩
  · obtain ⟨reading₀, hreading₀, hcopy⟩ := h.entries k entry₀ it₀ hk₀
    exact ⟨reading₀, hreading₀, hcreated.trans hcopy.created, by rw [hdata, hcopy.data],
      htype.trans hcopy.contentType⟩

/-- Serving a file keeps the cache traced, and notes what it reads. -/
theorem Traced.serveFile {readings : List (Bytes × Reading)} {h h' : FileHandler} {path date : Bytes}
    {now : Int} {fs : FileSystem} {r : HttpResponse} (requestPath : Bytes)
    (hc : ∀ c, h.activeCache = some c → Traced cacheSizeMb readings c)
    (hs : h.serveFile fs path now date = some (h', r)) : h.Configured h' ∧
      ∀ c, h'.activeCache = some c → Traced cacheSizeMb
        (if (h.getCached path now).2.isNone ∧ (fs.read path).isSome then
          (path, ⟨requestPath, now, fs⟩) :: readings else readings) c := by
  obtain ⟨hconf, hcache, hfound⟩ := h.getCached_eq path now
  have hgot : ∀ c, (h.getCached path now).1.activeCache = some c → Traced cacheSizeMb readings c ∧
      ((h.getCached path now).2 = none → path ∉ c.cache) := by
    intro c hactive
    rw [hcache] at hactive
    obtain ⟨c₀, hc₀, rfl⟩ := Option.map_eq_some_iff.mp hactive
    refine ⟨(hc c₀ hc₀).get path now, fun hnone => LRUCache.not_mem_of_get ?_⟩
    rwa [hfound, hc₀] at hnone
  rcases FileHandler.serveFile_cases hs with ⟨entry, hget, -⟩ | ⟨h₁, content, hget, hread, hput, -⟩ |
    ⟨hget, hread, -⟩
  · rw [hget] at hconf hgot ⊢
    exact ⟨hconf, fun c hactive => (hgot c hactive).1⟩
  · rw [hget] at hconf hgot ⊢
    obtain ⟨hconf', hactive'⟩ := FileHandler.putCached_eq_some hput
    refine ⟨hconf.trans hconf', fun c' hactive => ?_⟩
    rw [if_pos ⟨rfl, by rw [hread]; rfl⟩]
    have hnew : ∀ c, h₁.activeCache = some c →
        Traced cacheSizeMb ((path, ⟨requestPath, now, fs⟩) :: readings) c ∧ path ∉ c.cache := fun c hc₁ =>
      ⟨(hgot c hc₁).1.read ((hgot c hc₁).2 rfl) _, (hgot c hc₁).2 rfl⟩
    rcases hactive' with hsame | ⟨c, c'', hc₁, hsize, hput, hc'⟩
    · exact (hnew c' (hsame ▸ hactive)).1
    · obtain rfl := Option.some.inj (hc'.symm.trans hactive)
      exact (hnew c hc₁).1.put (hnew c hc₁).2 (List.lookup_cons_self ..) hsize hread hput
  · rw [hget] at hconf hgot ⊢
    refine ⟨hconf, fun c hactive => ?_⟩
    rw [if_neg (by simp [hread])]
    exact (hgot c hactive).1

theorem Sound.mono {s' : Serving} {path : Bytes} {reading : Reading} (h : Sound h₀ s path reading)
    (hclock : s.clock ≤ s'.clock) (hhistory : ∀ e ∈ s.history, e ∈ s'.history) :
    Sound h₀ s' path reading :=
  ⟨h.past.trans hclock, hhistory _ h.recorded, h.located⟩

theorem Inv.request {texts : EntryTexts} {requestPath date : Bytes} {s' : Serving}
    (hi : Inv h₀ cacheSizeMb s) (hs : s.step (.request texts requestPath date) = some s') :
    Inv h₀ cacheSizeMb s' := by
  obtain ⟨l, hl⟩ := FileHandler.locate_isOk s.handler s.fs requestPath
  simp only [step] at hs
  split at hs
  case h_2 => cases hs
  next h' r hr =>
  obtain rfl := Option.some.inj hs
  have same : s.noted requestPath = s.readings → h' = s.handler →
      Inv h₀ cacheSizeMb { s with handler := h', readings := s.noted requestPath } := by
    rintro hnoted rfl
    exact ⟨hi.configured, hi.now, fun path reading hk =>
      (hi.readings path reading (hnoted ▸ hk)).mono le_rfl fun _ => id, fun c hc => hnoted ▸ hi.cache c hc⟩
  rw [FileHandler.handleFileRequest, hl] at hr
  cases l with
  | refused status message =>
    exact same (by rw [noted, hl]) (Prod.mk.inj (Option.some.inj (Except.ok.inj hr))).1.symm
  | listing dirPath =>
    exact same (by rw [noted, hl]) (Prod.mk.inj (Option.some.inj (Except.ok.inj hr))).1.symm
  | file path =>
    obtain ⟨hconf, hcache⟩ := Traced.serveFile requestPath hi.cache (Except.ok.inj hr)
    refine ⟨hi.configured.trans hconf, hi.now, fun k reading hk => ?_, fun c hc => ?_⟩
    · simp only [noted, hl] at hk
      split at hk
      · rw [List.lookup_cons] at hk
        split at hk
        · next heq =>
          obtain rfl := Option.some.inj hk
          rw [beq_iff_eq] at heq
          exact ⟨le_rfl, hi.now, by rw [heq, ← hl, hi.configured.locate]⟩
        · exact (hi.readings k reading hk).mono le_rfl fun _ => id
      · exact (hi.readings k reading hk).mono le_rfl fun _ => id
    · simp only [noted, hl]
      exact hcache c hc

theorem inv {documentRoot defaultFile : Bytes} {enableCache : Bool} {s : Serving}
    (h : (system documentRoot defaultFile enableCache cacheSizeMb).Reachable s) :
    Inv (.make documentRoot defaultFile enableCache cacheSizeMb) cacheSizeMb s := by
  refine h.invariant (I := Inv _ cacheSizeMb) ?_ ?_
  · intro s hinit
    obtain ⟨hhandler, hhistory, hreadings⟩ := hinit
    refine ⟨by rw [hhandler]; rfl, by simp [hhistory], fun _ _ hr => ?_, fun c hc => ?_⟩
    · rw [hreadings] at hr
      cases hr
    · rw [hhandler] at hc
      rw [hreadings]
      cases enableCache with
      | false => cases hc
      | true => exact (Option.some.inj hc) ▸ .make cacheSizeMb
  intro s a s' _ hi _ hs
  have hs : s.step a = some s' := hs
  cases a with
  | request texts requestPath date => exact hi.request hs
  | change fs =>
    obtain rfl := Option.some.inj hs
    exact ⟨hi.configured, List.mem_cons_self .., fun k reading hk =>
      (hi.readings k reading hk).mono le_rfl fun e he => List.mem_cons_of_mem _ he, hi.cache⟩
  | advance ns =>
    obtain rfl := Option.some.inj hs
    have hle : s.clock ≤ s.clock + ns := by omega
    exact ⟨hi.configured, List.mem_cons_self .., fun k reading hk =>
      (hi.readings k reading hk).mono hle fun e he => List.mem_cons_of_mem _ he, hi.cache⟩

/-! ## What a file is answered with -/

/-- An answer from the cache or from the disk: the bytes are those a reading
of the file found, less than the cache's lifetime ago. -/
structure Served (h₀ : FileHandler) (s : Serving) (path : Bytes) (reading : Reading) (r : HttpResponse) :
    Prop where
  sound : Sound h₀ s path reading
  fresh : s.clock - 300 * 1000000000 < reading.instant
  read : reading.fs.read path = some r.body
  carries : FileHandler.Carries r .ok r.body (HttpResponse.getMimeType (Paths.extension path))

/-- What is not expired is less than 300 seconds old, to the nanosecond. -/
theorem fresh_of_isExpired {c : LRUCache} {entry : CacheEntry} {now : Int} (httl : c.ttlSeconds = 300)
    (hpast : entry.created ≤ now) (h : c.isExpired entry now = false) :
    now - 300 * 1000000000 < entry.created := by
  simp only [LRUCache.isExpired, httl, Bool.and_eq_false_iff, decide_eq_false_iff_not] at h
  rw [Int.tdiv_eq_ediv_of_nonneg (by omega)] at h
  omega

theorem Inv.served {texts : EntryTexts} {requestPath date x : Bytes} {h' : FileHandler} {r : HttpResponse}
    (hi : Inv h₀ cacheSizeMb s)
    (hr : s.handler.handleFileRequest texts s.fs requestPath s.clock date = .ok (some (h', r)))
    (hx : FileHandler.xCache r = some x) (hmark : x = bytes "HIT" ∨ x = bytes "MISS") :
    ∃ path reading, s.handler.locate s.fs requestPath = .ok (.file path) ∧
      s.origin requestPath path x = some reading ∧ Served h₀ s path reading r := by
  have hnone : x ≠ bytes "NONE" := by
    rcases hmark with rfl | rfl <;> decide
  obtain ⟨path, hl, hserve⟩ := FileHandler.exists_file_of_xCache hr hx hnone
  rcases FileHandler.serveFile_cases hserve with ⟨entry, hget, rfl⟩ |
    ⟨h₁, content, hget, hread, hput, rfl⟩ | ⟨-, -, rfl⟩
  · -- a copy in the cache
    obtain ⟨-, -, hfound⟩ := s.handler.getCached_eq path s.clock
    rw [hget] at hfound
    obtain ⟨c, hc, hgot⟩ := Option.bind_eq_some_iff.mp hfound.symm
    obtain ⟨entry₀, it, hk, ⟨hdata, htype, hcreated⟩, hexpired⟩ := LRUCache.get_eq_some hgot
    have htraced := hi.cache c hc
    obtain ⟨reading, hreading, hcopy⟩ := htraced.entries path entry₀ it hk
    have hsound := hi.readings path reading hreading
    have hfresh := fresh_of_isExpired htraced.ttl (hcopy.created ▸ hsound.past) hexpired
    obtain rfl : bytes "HIT" = x := Option.some.inj ((FileHandler.xCache_setHeader ..).symm.trans hx)
    refine ⟨path, reading, hl, by rw [origin, if_pos rfl, hreading], hsound, hcopy.created ▸ hfresh, ?_, ?_⟩
    · rw [hcopy.data, ← hdata]
      rfl
    · rw [← hcopy.contentType, ← htype]
      exact FileHandler.carries_hitResponse entry date
  · -- the file is read now
    obtain rfl : bytes "MISS" = x := Option.some.inj ((FileHandler.xCache_setHeader ..).symm.trans hx)
    have hne : bytes "MISS" ≠ bytes "HIT" := by decide
    refine ⟨path, ⟨requestPath, s.clock, s.fs⟩, hl, by rw [origin, if_neg hne],
      ⟨le_rfl, hi.now, by rw [← hl, hi.configured.locate]⟩, ?_, hread, FileHandler.carries_missResponse ..⟩
    show s.clock - 300 * 1000000000 < s.clock
    omega
  · rw [FileHandler.xCache_createErrorResponse] at hx
    cases hx

/-! ## A server's files -/

theorem srv_plain : ∀ name ∈ [bytes "srv"], Paths.Plain name :=
  List.forall_mem_singleton.mpr ⟨by decide, by decide, by decide, by decide, by decide⟩

/-- The files `public/a.txt`, `public/docs/index.html`, a link, and `/etc/secret`. -/
def someFiles (text : Bytes) : FileSystem where
  root := .directory true
    [(bytes "srv", .directory true [(bytes "public", .directory true
      [(bytes "a.txt", .regular text true),
       (bytes "docs", .directory true [(bytes "index.html", .symlink (bytes "/etc/secret"))])])]),
     (bytes "etc", .directory true [(bytes "secret", .regular (bytes "key") true)])]
  cwd := [bytes "srv"]
  linkMax := 40
  root_directory := rfl
  cwd_directory := by simp [Node.lookup, Node.isDirectory]
  cwd_plain := srv_plain

/-- The server's handler over these files. -/
def started : Serving where
  handler := .make (bytes "./public") (bytes "index.html") true 100
  fs := someFiles (bytes "hello")
  clock := 0
  history := [(0, someFiles (bytes "hello"))]
  readings := []

theorem reachable_started : (system (bytes "./public") (bytes "index.html") true 100).Reachable started :=
  .init ⟨rfl, rfl, rfl⟩

/-- The request is answered, and the response meets `p`. -/
def answers (requestPath : Bytes) (p : HttpResponse → Bool) (s : Serving) : Bool :=
  match s.handler.handleFileRequest ⟨fun _ => [], fun _ => []⟩ s.fs requestPath s.clock [] with
  | .ok (some (_, r)) => p r
  | _ => false

theorem exists_answer {requestPath : Bytes} {p : HttpResponse → Bool} (h : answers requestPath p s = true) :
    ∃ h' r, s.handler.handleFileRequest ⟨fun _ => [], fun _ => []⟩ s.fs requestPath s.clock [] =
      .ok (some (h', r)) ∧ p r = true := by
  unfold answers at h
  split at h
  · next h' r hr => exact ⟨h', r, hr, h⟩
  · cases h

end Serving

end Webserver
