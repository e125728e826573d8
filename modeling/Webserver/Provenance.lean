/-
Where the answers of several threads come from. Between the reading of a file
and its entry into the cache any time may pass, and the file may change: the
300 seconds count from the entry. And as long as no file changes, nobody can
tell the threads and the cache from one request after the other on the disk.
-/
import Webserver.FileWorkers

namespace Webserver

open Cxx Systems

/-- What a thread has returned. -/
def FilePc.response : FilePc → Option HttpResponse
  | returned _ response => some response
  | _ => none

theorem FilePc.eq_returned {pc : FilePc} {r : HttpResponse} (h : pc.response = some r) :
    ∃ call, pc = .returned call r := by
  cases pc with
  | returned call r' => exact ⟨call, by rw [Option.some.inj h]⟩
  | _ => cases h

namespace FileWorkers

variable {n : Nat}

/-- The file had this content at an instant since `t`. -/
def ReadSince (s : FileWorkers n) (t : Int) (path content : Bytes) : Prop :=
  ∃ instant fs, (instant, fs) ∈ s.history ∧ t ≤ instant ∧ fs.read path = some content

/-- What is known of a thread's request. -/
structure Traces (h₀ : FileHandler) (s : FileWorkers n) (pc : FilePc) : Prop where
  began : ∀ call, pc.call = some call → call.began ≤ s.clock
  led : ∀ call path, pc.call = some call → pc.opens = some path →
    path = h₀.resolvePath call.requestPath ∨ path = h₀.defaultPath (h₀.resolvePath call.requestPath)
  content : ∀ call path content, pc = .put call path content → s.ReadSince call.began path content

/-- An entry is a copy of the file as it was read before the entry was made. -/
structure Cached (s : FileWorkers n) (path : Bytes) (entry : CacheEntry) : Prop where
  read : ∃ instant fs, (instant, fs) ∈ s.history ∧ instant ≤ entry.created ∧ fs.read path = some entry.data
  created : entry.created ≤ s.clock
  contentType : entry.contentType = HttpResponse.getMimeType (Paths.extension path)

structure Inv (h₀ : FileHandler) (s : FileWorkers n) : Prop where
  configured : h₀.Configured s.handler
  now : (s.clock, s.fs) ∈ s.history
  past : ∀ e ∈ s.history, e.1 ≤ s.clock
  worker : ∀ w, Traces h₀ s (s.worker w)
  cache : ∀ c, s.handler.activeCache = some c → c.ttlSeconds = 300 ∧
    ∀ path entry it, c.cache.lookup path = some (entry, it) → Cached s path entry

variable {h₀ : FileHandler} {s s' : FileWorkers n}

theorem ReadSince.mono {t : Int} {path content : Bytes} (h : s.ReadSince t path content)
    (hhistory : ∀ e ∈ s.history, e ∈ s'.history) : s'.ReadSince t path content := by
  obtain ⟨instant, fs, hmem, hle, hread⟩ := h
  exact ⟨instant, fs, hhistory _ hmem, hle, hread⟩

theorem Traces.mono {pc : FilePc} (h : Traces h₀ s pc) (hclock : s.clock ≤ s'.clock)
    (hhistory : ∀ e ∈ s.history, e ∈ s'.history) : Traces h₀ s' pc :=
  ⟨fun call hc => (h.began call hc).trans hclock, h.led,
    fun call path content hpc => (h.content call path content hpc).mono hhistory⟩

theorem Cached.mono {path : Bytes} {entry : CacheEntry} (h : Cached s path entry)
    (hclock : s.clock ≤ s'.clock) (hhistory : ∀ e ∈ s.history, e ∈ s'.history) : Cached s' path entry := by
  obtain ⟨instant, fs, hmem, hle, hread⟩ := h.read
  exact ⟨⟨instant, fs, hhistory _ hmem, hle, hread⟩, h.created.trans hclock, h.contentType⟩

/-- Files change, or time passes. -/
theorem Inv.mono (h : Inv h₀ s) (hhandler : s'.handler = s.handler) (hworker : s'.worker = s.worker)
    (hclock : s.clock ≤ s'.clock) (hhistory : s'.history = (s'.clock, s'.fs) :: s.history) : Inv h₀ s' := by
  have hmem : ∀ e ∈ s.history, e ∈ s'.history := fun e he => hhistory ▸ List.mem_cons_of_mem _ he
  refine ⟨hhandler ▸ h.configured, hhistory ▸ List.mem_cons_self .., fun e he => ?_, fun w => ?_,
    fun c hc => ?_⟩
  · rw [hhistory] at he
    rcases List.mem_cons.mp he with rfl | he
    · exact le_rfl
    · exact (h.past e he).trans hclock
  · rw [hworker]
    exact (h.worker w).mono hclock hmem
  · obtain ⟨httl, hentries⟩ := h.cache c (hhandler ▸ hc)
    exact ⟨httl, fun path entry it hk => (hentries path entry it hk).mono hclock hmem⟩

/-- A thread goes on, and what the cache holds is still traced. -/
theorem Inv.goes (h : Inv h₀ s) {w : Fin n} {h' : FileHandler} {pc : FilePc}
    (hconf : h₀.Configured h') (hpc : Traces h₀ s pc)
    (hcache : ∀ c, h'.activeCache = some c → c.ttlSeconds = 300 ∧
      ∀ path entry it, c.cache.lookup path = some (entry, it) → Cached s path entry) :
    Inv h₀ { s with handler := h', worker := Function.update s.worker w pc } := by
  have keeps : ∀ {pc₀}, Traces h₀ s pc₀ →
      Traces h₀ { s with handler := h', worker := Function.update s.worker w pc } pc₀ :=
    fun hpc₀ => hpc₀.mono le_rfl fun _ => id
  refine ⟨hconf, h.now, h.past, fun w' => ?_, fun c hc => ?_⟩
  · by_cases hww : w' = w
    · subst hww
      simpa using keeps hpc
    · simpa [hww] using keeps (h.worker w')
  · obtain ⟨httl, hentries⟩ := hcache c hc
    exact ⟨httl, fun path entry it hk => (hentries path entry it hk).mono le_rfl fun _ => id⟩

theorem Inv.got (h : Inv h₀ s) {path : Bytes} {c : LRUCache} (now : Int)
    (hc : (s.handler.getCached path now).1.activeCache = some c) : c.ttlSeconds = 300 ∧
      ∀ k entry it, c.cache.lookup k = some (entry, it) → Cached s k entry := by
  obtain ⟨-, hactive, -⟩ := s.handler.getCached_eq path now
  rw [hactive] at hc
  obtain ⟨c₀, hc₀, rfl⟩ := Option.map_eq_some_iff.mp hc
  obtain ⟨httl, hentries⟩ := h.cache c₀ hc₀
  refine ⟨(LRUCache.get_sameLimits c₀ path now now).2.trans httl, fun k entry it hk => ?_⟩
  obtain ⟨entry₀, it₀, hk₀, hdata, htype, hcreated⟩ := LRUCache.get_keptFrom c₀ path now now k entry it hk
  have hcached := hentries k entry₀ it₀ hk₀
  exact ⟨by rw [hdata, hcreated]; exact hcached.read, hcreated ▸ hcached.created,
    htype.trans hcached.contentType⟩

theorem Inv.step (h : Inv h₀ s) {a} (hs : s.step a = some s') : Inv h₀ s' := by
  cases step_cases hs with
  | call w requestPath =>
    refine h.goes h.configured ⟨fun call hc => ?_, nofun, nofun⟩ h.cache
    obtain rfl := Option.some.inj hc
    exact le_rfl
  | change fs => exact h.mono rfl rfl le_rfl rfl
  | advance ns => exact h.mono rfl rfl (show s.clock ≤ s.clock + ns by omega) rfl
  | worker w texts date h' pc' he =>
    have hw := h.worker w
    have hresolve : ∀ requestPath, s.handler.resolvePath requestPath = h₀.resolvePath requestPath ∧
        ∀ path, s.handler.defaultPath path = h₀.defaultPath path := by
      intro requestPath
      rw [h.configured]
      exact ⟨rfl, fun _ => rfl⟩
    generalize s.worker w = pc at he hw
    cases FilePc.exec_steps he with
    | query call hq =>
      refine h.goes h.configured ⟨fun call' hc' => ?_, fun call' path hc' hp => ?_, ?_⟩ h.cache
      · exact hw.began call' (hq.inside.trans (hq.stays.symm.trans hc'))
      · obtain rfl := Option.some.inj (hq.stays.symm.trans hc')
        rcases hq.opens path hp with hold | hpath | hpath
        · exact hw.led call path hq.inside hold
        · exact .inl (hpath.trans (hresolve _).1)
        · exact .inr (by rw [hpath, (hresolve call.requestPath).1, (hresolve call.requestPath).2])
      · rintro call' path content rfl
        cases hq.notPending
    | hit call path entry hget =>
      have hconf := (s.handler.getCached_eq path s.clock).1
      rw [hget] at hconf
      exact h.goes (h.configured.trans hconf) ⟨fun call' hc' => hw.began call' hc', nofun, nofun⟩
        fun c hc => h.got s.clock (by rw [hget]; exact hc)
    | miss call path hget =>
      have hconf := (s.handler.getCached_eq path s.clock).1
      rw [hget] at hconf
      exact h.goes (h.configured.trans hconf) ⟨fun call' hc' => hw.began call' hc',
        fun call' path' hc' hp => hw.led call' path' hc' hp, nofun⟩
        fun c hc => h.got s.clock (by rw [hget]; exact hc)
    | read call path content hread =>
      refine h.goes h.configured ⟨fun call' hc' => hw.began call' hc',
        fun call' path' hc' hp => hw.led call' path' hc' hp, ?_⟩ h.cache
      rintro _ _ _ ⟨⟩
      exact ⟨s.clock, s.fs, h.now, hw.began call rfl, hread⟩
    | store call path content hput =>
      obtain ⟨hconf, hactive⟩ := FileHandler.putCached_eq_some hput
      refine h.goes (h.configured.trans hconf) ⟨fun call' hc' => hw.began call' hc', nofun, nofun⟩
        fun c hc => ?_
      rcases hactive with hsame | ⟨c₀, c₁, hc₀, -, hput, hc₁⟩
      · exact h.cache c (hsame ▸ hc)
      · obtain rfl := Option.some.inj (hc₁.symm.trans hc)
        obtain ⟨httl, hentries⟩ := h.cache c₀ hc₀
        obtain ⟨⟨-, hsettl⟩, hcontents⟩ := LRUCache.put_contents hput
        refine ⟨hsettl.trans httl, fun k entry it hk => ?_⟩
        rcases hcontents k entry it hk with ⟨rfl, hdata, htype, hcreated⟩ |
          ⟨entry₀, it₀, hk₀, hdata, htype, hcreated⟩
        · obtain ⟨instant, fs, hmem, -, hread⟩ := hw.content call k content rfl
          exact ⟨⟨instant, fs, hmem, hcreated ▸ h.past _ hmem, hdata ▸ hread⟩, hcreated.le, htype⟩
        · have hcached := hentries k entry₀ it₀ hk₀
          exact ⟨by rw [hdata, hcreated]; exact hcached.read, hcreated ▸ hcached.created,
            htype.trans hcached.contentType⟩

variable {documentRoot defaultFile : Bytes} {enableCache : Bool} {cacheSizeMb : Nat}

theorem inv {ok} (h : (system n documentRoot defaultFile enableCache cacheSizeMb).ReachableBy ok s) :
    Inv (.make documentRoot defaultFile enableCache cacheSizeMb) s := by
  refine h.invariant (I := Inv _) ?_ fun _ _ _ _ hi _ hs => hi.step hs
  intro s hinit
  obtain ⟨hhandler, hidle, hhistory⟩ := hinit
  refine ⟨by rw [hhandler]; rfl, by simp [hhistory], by simp [hhistory], fun w => ?_, fun c hc => ?_⟩
  · rw [hidle w]
    exact ⟨nofun, nofun, nofun⟩
  · rw [hhandler] at hc
    cases enableCache with
    | false => cases hc
    | true =>
      obtain rfl := Option.some.inj hc
      exact ⟨rfl, fun _ _ _ hk => by cases hk⟩

/-- **What several threads answer with**: whatever the order of their steps
and the changes of the files between them, a hit or a miss carries the whole
content the file of the request had at one instant. For a miss this instant
is within the call; for a hit the answer is the copy the cache holds, the instant
precedes the time the copy was entered, and that is less than 300 seconds ago. -/
theorem answered_from_disk (h : (system n documentRoot defaultFile enableCache cacheSizeMb).Reachable s)
    {w : Fin n} {texts : EntryTexts} {date x : Bytes} {call : FileCall} {r : HttpResponse}
    (hs : s.step (.worker w texts date) = some s') (hr : s'.worker w = .returned call r)
    (hx : FileHandler.xCache r = some x) (hmark : x = bytes "HIT" ∨ x = bytes "MISS") :
    ∃ path instant fs,
      (path = s.handler.resolvePath call.requestPath ∨
        path = s.handler.defaultPath (s.handler.resolvePath call.requestPath)) ∧
      (instant, fs) ∈ s.history ∧ instant ≤ s.clock ∧ fs.read path = some r.body ∧
      FileHandler.Carries r .ok r.body (HttpResponse.getMimeType (Paths.extension path)) ∧
      (x = bytes "MISS" → call.began ≤ instant) ∧
      (x = bytes "HIT" → ∃ c entry it, s.handler.activeCache = some c ∧ c.cache.lookup path = some (entry, it) ∧
        entry.data = r.body ∧ instant ≤ entry.created ∧ entry.created ≤ s.clock ∧
        s.clock - 300 * 1000000000 < entry.created) := by
  have hi := inv h
  have hled : ∀ call path, (s.worker w).call = some call → (s.worker w).opens = some path →
      path = s.handler.resolvePath call.requestPath ∨
        path = s.handler.defaultPath (s.handler.resolvePath call.requestPath) := by
    intro call path hc hp
    rw [hi.configured]
    exact (hi.worker w).led call path hc hp
  have hne : bytes "HIT" ≠ bytes "MISS" := by decide
  cases step_cases hs with
  | worker w texts date h' pc' he =>
    have hpc : pc' = .returned call r := by simpa using hr
    have hcontent := (hi.worker w).content
    generalize s.worker w = pc at he hled hcontent
    cases FilePc.exec_steps he with
    | query call' hq =>
      -- neither a hit nor a miss
      have hnone := hq.unmarked x (by rw [hpc]; exact hx)
      rcases hmark with rfl | rfl <;> exact absurd hnone (by decide)
    | hit call' path entry hget =>
      obtain ⟨rfl, rfl⟩ := FilePc.returned.inj hpc
      obtain rfl : bytes "HIT" = x := Option.some.inj ((FileHandler.xCache_setHeader ..).symm.trans hx)
      obtain ⟨-, -, hfound⟩ := s.handler.getCached_eq path s.clock
      rw [hget] at hfound
      obtain ⟨c, hc, hgot⟩ := Option.bind_eq_some_iff.mp hfound.symm
      obtain ⟨entry₀, it, hk, ⟨hdata, htype, hcreated⟩, hexpired⟩ := LRUCache.get_eq_some hgot
      obtain ⟨httl, hentries⟩ := hi.cache c hc
      have hcached := hentries path entry₀ it hk
      obtain ⟨instant, fs, hmem, hle, hread⟩ := hcached.read
      refine ⟨path, instant, fs, hled call' path rfl rfl, hmem, hi.past _ hmem, ?_, ?_,
        fun hmiss => absurd hmiss hne, fun _ => ⟨c, entry₀, it, hc, hk, hdata.symm, hle, hcached.created,
          Serving.fresh_of_isExpired httl hcached.created hexpired⟩⟩
      · rw [hread, ← hdata]
        rfl
      · rw [← hcached.contentType, ← htype]
        exact FileHandler.carries_hitResponse entry date
    | store call' path content hput =>
      obtain ⟨rfl, rfl⟩ := FilePc.returned.inj hpc
      obtain rfl : bytes "MISS" = x := Option.some.inj ((FileHandler.xCache_setHeader ..).symm.trans hx)
      obtain ⟨instant, fs, hmem, hle, hread⟩ := hcontent call' path content rfl
      exact ⟨path, instant, fs, hled call' path rfl rfl, hmem, hi.past _ hmem, hread,
        FileHandler.carries_missResponse .., fun _ => hle, fun hhit => absurd hhit.symm hne⟩
    | miss | read => cases hpc

/-- The server's handler over some files, and two threads. -/
def started : FileWorkers 2 where
  handler := .make (bytes "./public") (bytes "index.html") true 100
  fs := Serving.someFiles (bytes "hello")
  clock := 0
  worker _ := .idle
  history := [(0, Serving.someFiles (bytes "hello"))]

/-- So many steps of a thread. -/
def goes (w : Fin 2) (steps : Nat) : List (FileAction 2) :=
  List.replicate steps (.worker w ⟨fun _ => [], fun _ => []⟩ [])

/-- A file is read and changes, its copy enters the cache 200 seconds later, and
200 seconds after that it is asked for again. -/
def delayed : List (FileAction 2) :=
  [.call 0 (bytes "/a.txt")] ++ goes 0 10 ++
    [.change (Serving.someFiles (bytes "changed")), .advance 200000000000] ++ goes 0 1 ++
    [.advance 200000000000, .call 1 (bytes "/a.txt")] ++ goes 1 8

theorem answered_from_disk_delayed : ∃ s s' : FileWorkers 2, ∃ call r,
    (system 2 (bytes "./public") (bytes "index.html") true 100).Reachable s ∧
      s'.worker 1 = .returned call r ∧ s.clock = 400000000000 ∧
      s.fs.read (bytes "./public/a.txt") = some (bytes "changed") ∧ r.body = bytes "hello" ∧
      ∃ path instant fs, (instant, fs) ∈ s.history ∧ fs.read path = some r.body ∧ r.status = .ok ∧
        ∃ c entry it, s.handler.activeCache = some c ∧ c.cache.lookup path = some (entry, it) ∧
          instant ≤ entry.created ∧ 100000000000 < entry.created := by
  obtain ⟨s, hreach, hs⟩ := System.exists_reachable
    (S := system 2 (bytes "./public") (bytes "index.html") true 100) (s := started)
    ⟨rfl, fun _ => rfl, rfl⟩ delayed
    (fun s => decide (s.clock = 400000000000 ∧ s.fs.read (bytes "./public/a.txt") = some (bytes "changed")) &&
      (s.step (.worker 1 ⟨fun _ => [], fun _ => []⟩ [])).any fun (s' : FileWorkers 2) =>
        (s'.worker 1).response.any fun r =>
          decide (FileHandler.xCache r = some (bytes "HIT") ∧ r.body = bytes "hello"))
    (by decide +kernel)
  simp only [Bool.and_eq_true, decide_eq_true_eq, Option.any_eq_true] at hs
  obtain ⟨⟨hclock, hchanged⟩, s', hs', r, hr, hx, hbody⟩ := hs
  obtain ⟨call, hpc⟩ := FilePc.eq_returned hr
  obtain ⟨path, instant, fs, -, hmem, -, hread, hcarries, -, hhit⟩ :=
    answered_from_disk hreach hs' hpc hx (.inl rfl)
  obtain ⟨c, entry, it, hc, hk, -, hle, -, hfresh⟩ := hhit rfl
  rw [hclock] at hfresh
  exact ⟨s, s', call, r, hreach, hpc, hclock, hchanged, hbody, path, instant, fs, hmem, hread,
    hcarries.status, c, entry, it, hc, hk, hle, by simpa using hfresh⟩

end FileWorkers

end Webserver
