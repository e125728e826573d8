/-
The response `handle_client_request` computes (`server.cpp`), with what the
status endpoint prints. The numbers it prints are read in one instant.
-/
import Webserver.Server
import Webserver.FileHandler

namespace Webserver

open Cxx

/-- The numbers `get_stats` fills in; they start at zero where it is asked. -/
structure CacheStats where
  hits : Nat := 0
  misses : Nat := 0
  entries : Nat := 0
  memoryUsage : Nat := 0

def LRUCache.getStats (c : LRUCache) : CacheStats where
  hits := c.cacheHits
  misses := c.cacheMisses
  entries := c.cache.entries.length
  memoryUsage := c.currentSize

def FileHandler.getCacheStats (h : FileHandler) : CacheStats :=
  match h.cache with
  | none => {}
  | some cache => cache.getStats

/-- What a response depends on besides the request and the file handler. -/
structure Surroundings where
  fs : FileSystem
  texts : EntryTexts
  threadCount : Nat
  queueSize : Nat
  /-- `connections_.size()` -/
  activeConnections : Nat
  /-- Hits over all accesses in percent, with one decimal. -/
  hitRatio : Nat → Nat → Bytes
  /-- `steady_clock::now()`, in nanoseconds. -/
  now : Int

/-- The time of day as `format_date` and `std::ctime` print it. -/
structure TimeTexts where
  date : Bytes
  ctime : Bytes

/-- The body of `/api/info` and `/api/status`. -/
def statusPage (e : Surroundings) (h : FileHandler) (ctime : Bytes) : Bytes :=
  let stats := h.getCacheStats
  let accesses := addSize stats.hits stats.misses
  bytes "\x7b\n" ++ bytes "  \"server\": \"MultithreadedWebServer/1.0\",\n" ++
    bytes "  \"timestamp\": \"" ++ ctime ++ bytes "\",\n" ++
    bytes "  \"thread_pool_size\": " ++ decimal e.threadCount ++ bytes ",\n" ++
    bytes "  \"queue_size\": " ++ decimal e.queueSize ++ bytes ",\n" ++
    bytes "  \"active_connections\": " ++ decimal e.activeConnections ++ bytes ",\n" ++
    bytes "  \"document_root\": \"" ++ h.documentRoot ++ bytes "\",\n" ++
    bytes "  \"architecture\": \"epoll + thread_pool + lru_cache\",\n" ++
    bytes "  \"http_version\": \"HTTP/1.1\",\n" ++
    bytes "  \"cache\": \x7b\n" ++
    bytes "    \"hits\": " ++ decimal stats.hits ++ bytes ",\n" ++
    bytes "    \"misses\": " ++ decimal stats.misses ++ bytes ",\n" ++
    bytes "    \"entries\": " ++ decimal stats.entries ++ bytes ",\n" ++
    bytes "    \"memory_usage_bytes\": " ++ decimal stats.memoryUsage ++
    (if 0 < accesses then bytes ",\n    \"hit_ratio_percent\": " ++ e.hitRatio stats.hits accesses else []) ++
    bytes "\n  \x7d\n" ++ bytes "\x7d\n"

def handleApiRequest (e : Surroundings) (h : FileHandler) (path : Bytes) (t : TimeTexts) : HttpResponse :=
  if path = bytes "/api/info" ∨ path = bytes "/api/status" then
    ((HttpResponse.new .ok t.date).setBody (statusPage e h t.ctime)).setContentType
      (bytes "application/json")
  else .createErrorResponse .notFound (bytes "API endpoint not found") t.date

/-- `path.find("/api/") == 0` -/
def isApiPath (path : Bytes) : Bool := find (bytes "/api/") path == some 0

/-- What answers a GET or HEAD of this path. -/
def served (e : Surroundings) (h : FileHandler) (path : Bytes) (t : TimeTexts) :
    Except Failure (Option (FileHandler × HttpResponse)) :=
  if isApiPath path then .ok (some (h, handleApiRequest e h path t))
  else h.handleFileRequest e.texts e.fs path e.now t.date

/-- The response to what a connection received, given its `keep_alive`. An
error is an exception that leaves the call, `none` a call that does not return. -/
def answer (e : Surroundings) (h : FileHandler) (keepAlive : Bool) (buffer : Bytes) (t : TimeTexts) :
    Except Failure (Option (FileHandler × HttpResponse)) := do
  let request := HttpRequest.parse buffer
  let keepAlive := if request.valid then request.isKeepAlive else keepAlive
  if request.valid ∧ (request.method = .get ∨ request.method = .head) then
    let answered ← served e h request.path t
    return answered.map fun (h, response) =>
      (h, (buildResponse request response t.date).setKeepAlive keepAlive)
  else return some (h, (buildResponse request (.new .ok t.date) t.date).setKeepAlive keepAlive)

/-- A worker that has parsed a GET or HEAD goes on with this response. -/
theorem exec_respond {e : Surroundings} {h h' : FileHandler} {s : Shared} {c : ConnId} {t : TimeTexts}
    {response : HttpResponse} (hvalid : (HttpRequest.parse (s.heap c).buffer).valid = true)
    (hmethod : (HttpRequest.parse (s.heap c).buffer).method = .get ∨
      (HttpRequest.parse (s.heap c).buffer).method = .head)
    (hkeep : (s.heap c).keepAlive = (HttpRequest.parse (s.heap c).buffer).isKeepAlive)
    (hanswer : answer e h false (s.heap c).buffer t = .ok (some (h', response))) :
    ∃ r, served e h (HttpRequest.parse (s.heap c).buffer).path t = .ok (some (h', r)) ∧
      WorkerPc.exec s (.respond c (HttpRequest.parse (s.heap c).buffer)) (.serves r t.date) =
        some (s, .checkLock c response) := by
  rw [answer, if_pos ⟨hvalid, hmethod⟩] at hanswer
  cases hserved : served e h (HttpRequest.parse (s.heap c).buffer).path t with
  | error f =>
    rw [hserved] at hanswer
    cases hanswer
  | ok answered =>
    rw [hserved] at hanswer
    obtain ⟨⟨h₁, r⟩, rfl, heq⟩ := Option.map_eq_some_iff.mp (Except.ok.inj hanswer)
    obtain ⟨rfl, rfl⟩ := Prod.mk.inj heq
    refine ⟨r, rfl, ?_⟩
    simp only [WorkerPc.exec, hkeep, if_pos hvalid]

end Webserver
