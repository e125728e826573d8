/-
HEAD against GET. The two requests are read alike but for their method and
answered alike but for the date, up to the end: `set_body("")` also sets
`Content-Length`, so that a HEAD tells the length of nothing but an empty file.
-/
import Webserver.Answer
import Webserver.Arrivals
import Webserver.CacheInvariant
import Webserver.Message
import Webserver.Serving
import Webserver.WireFormat

namespace Webserver

open Cxx

namespace HttpRequest

/-! ## The request, but for its method -/

theorem getlines_append_first {d : UInt8} {s : Bytes} (hs : d ∉ s) (hne : s ≠ []) (t : Bytes) :
    getlines d (s ++ t) = (s ++ (getlines d t).headD []) :: (getlines d t).tail := by
  induction s with
  | nil => exact absurd rfl hne
  | cons b s ih =>
    rw [List.mem_cons, not_or] at hs
    cases s with
    | nil =>
      rw [List.cons_append, getlines, if_neg (Ne.symm hs.1), List.nil_append]
      cases getlines d t with
      | nil => rfl
      | cons l ls => rfl
    | cons b' s =>
      rw [List.cons_append, getlines, if_neg (Ne.symm hs.1), ih hs.2 (List.cons_ne_nil _ _)]
      rfl

theorem stripCr_append_space (w l : Bytes) : stripCr (w ++ 32 :: l) = w ++ 32 :: stripCr l := by
  rcases List.eq_nil_or_concat' l with rfl | ⟨l, b, rfl⟩
  · exact stripCr_of_ne (by rw [List.getLast?_concat]; decide)
  · have hlist : w ++ 32 :: (l ++ [b]) = (w ++ 32 :: l) ++ [b] := by simp
    rw [hlist]
    by_cases hb : b = cr
    · rw [hb, stripCr_concat, stripCr_concat]
    · have hne : ∀ s : Bytes, (s ++ [b]).getLast? ≠ some cr := fun s => by simpa using hb
      rw [stripCr_of_ne (hne _), stripCr_of_ne (hne _), hlist]

/-- The state with another method. -/
def ParseState.setMethod (p : ParseState) (method : HttpMethod) : ParseState :=
  { p with request := { p.request with method } }

theorem parseLine_setMethod {p : ParseState} (hf : p.firstLine = false) (method : HttpMethod)
    (line : Bytes) : parseLine (p.setMethod method) line = (parseLine p line).setMethod method := by
  unfold parseLine ParseState.setMethod parseHeaderLine
  simp only [hf, Bool.false_eq_true, if_false]
  by_cases hd : p.headersDone = true
  · simp only [hd, Bool.not_true, Bool.false_eq_true, if_false]
  · simp only [hd, Bool.not_false, if_true]
    split
    · rfl
    · split <;> rfl

theorem foldl_parseLine_setMethod {p : ParseState} (hf : p.firstLine = false) (method : HttpMethod)
    (lines : List Bytes) :
    lines.foldl parseLine (p.setMethod method) = (lines.foldl parseLine p).setMethod method := by
  induction lines generalizing p with
  | nil => rfl
  | cons line lines ih =>
    rw [List.foldl_cons, parseLine_setMethod hf, ih (parseLine_firstLine p line), List.foldl_cons]

/-- The first word of a line that is read names the method and nothing else. -/
theorem exists_parseLine (l : Bytes) : ∃ (p : ParseState) (method : Bytes → HttpMethod),
    p.firstLine = false ∧ (method = (fun _ => .unknown) ∨ method = stringToMethod) ∧
    ∀ w : Bytes, w ≠ [] → (∀ b ∈ w, isSpace b = false) →
      parseLine {} (w ++ 32 :: l) = p.setMethod (method w) := by
  cases hwords : (word (stripCr l)).bind fun first => word first.2 with
  | none =>
    refine ⟨{ firstLine := false }, _, rfl, .inl rfl, fun w hne hw => ?_⟩
    rw [parseLine, stripCr_append_space, if_pos rfl, parseRequestLine, requestWords_append hne hw]
    cases hl : word (stripCr l) with
    | none => rfl
    | some first =>
      rw [hl] at hwords
      cases hs : word first.2 with
      | none => simp [hs, ParseState.setMethod]
      | some second => simp [hs] at hwords
  | some words =>
    refine ⟨parseLine {} (bytes "GET" ++ 32 :: l), _, parseLine_firstLine _ _, .inr rfl,
      fun w hne hw => ?_⟩
    have hget : bytes "GET" ≠ [] ∧ ∀ b ∈ bytes "GET", isSpace b = false := by decide +kernel
    rw [parseLine, parseLine, stripCr_append_space, stripCr_append_space, if_pos rfl, if_pos rfl,
      parseRequestLine, parseRequestLine, requestWords_append hne hw, requestWords_append hget.1 hget.2]
    cases hl : word (stripCr l) with
    | none => simp [hl] at hwords
    | some first =>
      rw [hl] at hwords
      cases hs : word first.2 with
      | none => simp [hs] at hwords
      | some second => simp [hs, ParseState.setMethod]

/-- What `parse` makes of the state its loop ends in. -/
def ParseState.finish (p : ParseState) : HttpRequest :=
  let request := parseQueryString { p.request with body := p.body }
  { request with valid := request.isRequestValid }

theorem ParseState.valid_finish_unknown (p : ParseState) : (p.setMethod .unknown).finish.valid = false := rfl

/-- Validity has the same checks for a HEAD as for a GET. -/
theorem ParseState.finish_head (p : ParseState) :
    (p.setMethod .head).finish = { (p.setMethod .get).finish with method := .head } := rfl

/-- A HEAD is read as the GET with the same bytes after the method. -/
theorem parse_head {rest : Bytes} (hvalid : (parse (bytes "GET " ++ rest)).valid = true) :
    (parse (bytes "GET " ++ rest)).method = .get ∧
      parse (bytes "HEAD " ++ rest) = { parse (bytes "GET " ++ rest) with method := .head } := by
  obtain ⟨p, method, hf, hmethod, hfirst⟩ := exists_parseLine ((getlines lf rest).headD [])
  have hparse : ∀ w : Bytes, w ≠ [] → (∀ b ∈ w, isSpace b = false) → parse (w ++ [32] ++ rest) =
      (((getlines lf rest).tail.foldl parseLine p).setMethod (method w)).finish := by
    intro w hne hw
    have hlf : lf ∉ w ++ [32] := by
      intro hmem
      rcases List.mem_append.mp hmem with hmem | hmem
      · exact absurd (hw lf hmem) (by decide)
      · exact absurd hmem (by decide)
    rw [← foldl_parseLine_setMethod hf, ← hfirst w hne hw, parse, if_neg (by simp),
      getlines_append_first hlf (by simp), List.foldl_cons, List.append_assoc w [32]]
    rfl
  have hget := hparse (bytes "GET") (by decide +kernel) (by decide +kernel)
  have hhead := hparse (bytes "HEAD") (by decide +kernel) (by decide +kernel)
  have hwords : bytes "GET" ++ [32] = bytes "GET " ∧ bytes "HEAD" ++ [32] = bytes "HEAD " := by
    decide
  rw [hwords.1] at hget
  rw [hwords.2] at hhead
  rcases hmethod with rfl | rfl
  · rw [hget, ParseState.valid_finish_unknown] at hvalid
    cases hvalid
  · have hmethods : stringToMethod (bytes "GET") = .get ∧ stringToMethod (bytes "HEAD") = .head := by
      decide
    rw [hmethods.1] at hget
    rw [hmethods.2, ParseState.finish_head] at hhead
    rw [hget, hhead]
    exact ⟨rfl, rfl⟩

end HttpRequest

namespace HttpResponse

/-! ## Two responses -/

/-- A response to HEAD says what the GET's does, but for the body and the date. -/
structure Mirrors (head get : HttpResponse) : Prop where
  status : head.status = get.status
  headers : ∀ name, name ≠ bytes "Date" → head.headers.lookup name = get.headers.lookup name
  body : head.body = []

/-- The same but for the date and the body. -/
structure Alike (r r' : HttpResponse) : Prop where
  status : r.status = r'.status
  headers : ∀ name, name ≠ bytes "Date" → name ≠ bytes "Content-Length" →
    r.headers.lookup name = r'.headers.lookup name

theorem Alike.setHeader {r r' : HttpResponse} (h : Alike r r') (name value : Bytes) :
    Alike (r.setHeader name value) (r'.setHeader name value) := by
  refine ⟨h.status, fun n hdate hlength => ?_⟩
  simp only [HttpResponse.setHeader]
  by_cases hn : n = name
  · rw [hn, AList.lookup_insert, AList.lookup_insert]
  · rw [AList.lookup_insert_ne hn, AList.lookup_insert_ne hn, h.headers n hdate hlength]

theorem Alike.symm {r r' : HttpResponse} (h : Alike r r') : Alike r' r :=
  ⟨h.status.symm, fun n hdate hlength => (h.headers n hdate hlength).symm⟩

theorem Alike.trans {r r' r'' : HttpResponse} (h : Alike r r') (h' : Alike r' r'') : Alike r r'' :=
  ⟨h.status.trans h'.status, fun n hdate hlength =>
    (h.headers n hdate hlength).trans (h'.headers n hdate hlength)⟩

theorem alike_setBody (r : HttpResponse) (body : Bytes) : Alike (r.setBody body) r :=
  ⟨rfl, fun _ _ hlength => AList.lookup_insert_ne hlength⟩

theorem Alike.setBody {r r' : HttpResponse} (h : Alike r r') (body body' : Bytes) :
    Alike (r.setBody body) (r'.setBody body') :=
  (alike_setBody r body).trans (h.trans (alike_setBody r' body').symm)

theorem alike_new (status : HttpStatus) (date date' : Bytes) : Alike (new status date) (new status date') := by
  have hdate : Alike (({ status : HttpResponse }).setHeader (bytes "Date") date)
      (({ status : HttpResponse }).setHeader (bytes "Date") date') := by
    refine ⟨rfl, fun n hn _ => ?_⟩
    simp only [HttpResponse.setHeader]
    rw [AList.lookup_insert_ne hn, AList.lookup_insert_ne hn]
  exact (hdate.setHeader _ _).setHeader _ _

theorem Alike.setKeepAlive {r r' : HttpResponse} (h : Alike r r') (keepAlive : Bool) :
    Alike (r.setKeepAlive keepAlive) (r'.setKeepAlive keepAlive) := by
  cases keepAlive with
  | false => exact h.setHeader _ _
  | true => exact (h.setHeader _ _).setHeader _ _

theorem Measured.setKeepAlive {r : HttpResponse} (h : r.Measured) (keepAlive : Bool) :
    (r.setKeepAlive keepAlive).Measured := by
  cases keepAlive with
  | false => exact h.setHeader _ (by decide)
  | true => exact (h.setHeader _ (by decide)).setHeader _ (by decide)

/-- Whatever body it is for, an empty one is told alike only of an empty one. -/
theorem Alike.mirrors_iff {head get : HttpResponse} (h : Alike head get) (hhead : head.Measured)
    (hget : get.Measured) (hbody : head.body = []) : Mirrors head get ↔ get.body = [] := by
  constructor
  · intro hm
    have hlength := hm.headers (bytes "Content-Length") (by decide)
    rw [hhead, hget, hbody] at hlength
    exact List.eq_nil_of_length_eq_zero (decimal_injective (Option.some.inj hlength)).symm
  · intro hnil
    refine ⟨h.status, fun name hdate => ?_, hbody⟩
    by_cases hlength : name = bytes "Content-Length"
    · rw [hlength, hhead, hget, hbody, hnil]
    · exact h.headers name hdate hlength

/-- A response of any time: its header lengths are right, and only the date
and the body depend on when it is given. -/
structure Dated (reply : TimeTexts → HttpResponse) : Prop where
  alike : ∀ t t', Alike (reply t) (reply t')
  measured : ∀ t, (reply t).Measured

theorem dated_page (status : HttpStatus) (contentType : Bytes) (body : TimeTexts → Bytes) :
    Dated fun t => ((new status t.date).setBody (body t)).setContentType contentType where
  alike t t' := ((alike_new status t.date t'.date).setBody _ _).setHeader _ _
  measured _ := (measured_setBody _ _).setHeader _ (by decide)

theorem body_page (status : HttpStatus) (contentType date body : Bytes) :
    (((new status date).setBody body).setContentType contentType).body = body := rfl

theorem dated_errorResponse (status : HttpStatus) (message : Bytes) :
    Dated fun t => createErrorResponse status message t.date := dated_page _ _ _

theorem Dated.marked {reply : TimeTexts → HttpResponse} (h : Dated reply) (value : Bytes) :
    Dated fun t => (reply t).setHeader (bytes "X-Cache") value where
  alike t t' := (h.alike t t').setHeader _ _
  measured t := (h.measured t).setHeader _ (by decide)

theorem errorPage_ne_nil (status : HttpStatus) (message : Bytes) : errorPage status message ≠ [] := by
  have hhead : bytes "<!DOCTYPE html>\n" ≠ [] := by decide
  simp [errorPage, hhead]

end HttpResponse

open HttpResponse (Mirrors Alike Dated)

/-! ## What answers a path -/

/-- The bytes of a copy in the cache that is not expired. -/
def LRUCache.copy (c : LRUCache) (path : Bytes) (now : Int) : Option Bytes :=
  (c.cache.lookup path).bind fun (entry, _) => if c.isExpired entry now then none else some entry.data

/-- The bytes there are for a file: a copy in the cache, or else on the disk. -/
def FileHandler.content (h : FileHandler) (fs : FileSystem) (path : Bytes) (now : Int) : Option Bytes :=
  (h.activeCache.bind fun c => c.copy path now).or (fs.read path)

/-- The path leads to a file, and the file is empty. -/
def LeadsToEmptyFile (e : Surroundings) (h : FileHandler) (path : Bytes) : Prop :=
  isApiPath path = false ∧
    ∃ file, h.locate e.fs path = .ok (.file file) ∧ h.content e.fs file e.now = some []

variable {e : Surroundings} {h : FileHandler}

theorem LRUCache.get_copy (c : LRUCache) (path : Bytes) (now : Int) :
    (c.get path now now).2.map (·.data) = c.copy path now := by
  unfold LRUCache.get LRUCache.copy
  split
  · next hk => rw [hk]; rfl
  · next entry it hk =>
    rw [hk, Option.bind_some]
    by_cases hexp : c.isExpired entry now = true
    · simp only [hexp, if_true]
      rfl
    · simp only [hexp]
      rfl

/-- A cache that a run of its operations leads to always takes a new copy. -/
theorem FileHandler.putCached_isSome
    (hc : ∀ c, h.cache = some c → LRUCache.system.Reachable c) (path content mimeType : Bytes)
    (now : Int) :
    ∃ h', (h.getCached path now).1.putCached path content mimeType now = some h' := by
  obtain ⟨-, hactive, -⟩ := h.getCached_eq path now
  unfold putCached
  rw [hactive]
  cases hcache : h.activeCache with
  | none => exact ⟨_, rfl⟩
  | some c =>
    have hsome : h.cache = some c := by
      unfold activeCache at hcache
      split at hcache
      · exact hcache
      · cases hcache
    obtain ⟨c', hput, -⟩ := ((LRUCache.linked (hc c hsome)).get path now now).put path content mimeType now
    simp only [Option.map_some]
    split
    · rw [hput]
      exact ⟨_, rfl⟩
    · exact ⟨_, rfl⟩

/-- A file is answered with its content, or with a page that says why not. -/
theorem FileHandler.serveFile_dated (hc : ∀ c, h.cache = some c → LRUCache.system.Reachable c)
    (fs : FileSystem) (path : Bytes) (now : Int) :
    ∃ (h' : FileHandler) (reply : TimeTexts → HttpResponse),
      (∀ t, h.serveFile fs path now t.date = some (h', reply t)) ∧ Dated reply ∧
      ∀ t, (reply t).body = [] ↔ h.content fs path now = some [] := by
  have hcopy : (h.getCached path now).2.map (·.data) = h.activeCache.bind fun c => c.copy path now := by
    rw [(h.getCached_eq path now).2.2, Option.map_bind]
    exact congrArg _ (funext fun c => c.get_copy path now)
  unfold content
  rw [← hcopy]
  cases hget : h.getCached path now with
  | mk h₁ found =>
  cases found with
  | some entry =>
    refine ⟨h₁, fun t => hitResponse entry t.date, fun t => by rw [serveFile, hget],
      (HttpResponse.dated_page _ _ _).marked _, fun t => ?_⟩
    simp only [Option.map_some, Option.some_or, Option.some.injEq]
    rfl
  | none =>
    cases hread : fs.read path with
    | none =>
      refine ⟨h₁, fun t => .createErrorResponse .internalServerError (bytes "Could not read file") t.date,
        fun t => by simp only [serveFile, hget, hread], HttpResponse.dated_errorResponse _ _, fun t => ?_⟩
      simp only [Option.map_none, Option.none_or, reduceCtorEq, iff_false]
      exact HttpResponse.errorPage_ne_nil _ _
    | some content =>
      obtain ⟨h', hput⟩ := h.putCached_isSome hc path content
        (HttpResponse.getMimeType (Paths.extension path)) now
      rw [hget] at hput
      refine ⟨h', fun t => missResponse path content t.date,
        fun t => by simp only [serveFile, hget, hread, hput, Option.map_some],
        (HttpResponse.dated_page _ _ _).marked _, fun t => ?_⟩
      simp only [Option.map_none, Option.none_or, Option.some.injEq]
      rfl

theorem statusPage_ne_nil (e : Surroundings) (h : FileHandler) (ctime : Bytes) :
    statusPage e h ctime ≠ [] := by
  unfold statusPage
  dsimp only
  repeat refine List.append_ne_nil_of_left_ne_nil ?_ _
  decide

theorem handleApiRequest_dated (e : Surroundings) (h : FileHandler) (path : Bytes) :
    Dated (handleApiRequest e h path) ∧ ∀ t, (handleApiRequest e h path t).body ≠ [] := by
  unfold handleApiRequest
  split
  · refine ⟨HttpResponse.dated_page _ _ _, fun t => ?_⟩
    rw [HttpResponse.body_page]
    exact statusPage_ne_nil e h t.ctime
  · exact ⟨HttpResponse.dated_errorResponse _ _, fun _ => HttpResponse.errorPage_ne_nil _ _⟩

theorem FileHandler.listingPage_ne_nil {texts : EntryTexts} {fs : FileSystem}
    {dirPath requestPath body : Bytes} (hbody : listingPage texts fs dirPath requestPath = .ok body) :
    body ≠ [] := by
  obtain ⟨entries, -, heq⟩ := bind_eq_ok.mp hbody
  obtain rfl := Except.ok.inj heq
  unfold listingHead
  repeat refine List.append_ne_nil_of_left_ne_nil ?_ _
  decide

theorem FileHandler.createDirectoryListing_dated (texts : EntryTexts) (fs : FileSystem)
    (dirPath requestPath : Bytes) :
    Dated (fun t => createDirectoryListing texts fs dirPath requestPath t.date) ∧
      ∀ date, (createDirectoryListing texts fs dirPath requestPath date).body ≠ [] := by
  unfold createDirectoryListing
  split
  · next body hbody =>
    exact ⟨(HttpResponse.dated_page _ _ _).marked _, fun _ => listingPage_ne_nil hbody⟩
  · exact ⟨HttpResponse.dated_errorResponse _ _, fun _ => HttpResponse.errorPage_ne_nil _ _⟩

/-- Every path is answered, alike but for the date, and with an empty body
only if it leads to an empty file. -/
theorem served_dated (hc : ∀ c, h.cache = some c → LRUCache.system.Reachable c) (path : Bytes) :
    ∃ (h' : FileHandler) (reply : TimeTexts → HttpResponse),
      (∀ t, served e h path t = .ok (some (h', reply t))) ∧ Dated reply ∧
      ∀ t, (reply t).body = [] ↔ LeadsToEmptyFile e h path := by
  cases hapi : isApiPath path with
  | true =>
    obtain ⟨hdated, hbody⟩ := handleApiRequest_dated e h path
    refine ⟨h, handleApiRequest e h path, fun t => by rw [served, if_pos hapi], hdated, fun t => ?_⟩
    simp only [LeadsToEmptyFile, hapi, Bool.true_eq_false, false_and, iff_false]
    exact hbody t
  | false =>
    have hfile : ∀ t, served e h path t = h.handleFileRequest e.texts e.fs path e.now t.date := fun t => by
      rw [served, if_neg (by simp [hapi])]
    simp only [hfile, LeadsToEmptyFile, hapi, true_and]
    obtain ⟨l, hl⟩ := h.locate_isOk e.fs path
    simp only [hl, Except.ok.injEq]
    cases l with
    | refused status message =>
      refine ⟨h, fun t => .createErrorResponse status message t.date, fun t => ?_,
        HttpResponse.dated_errorResponse _ _, fun t => ?_⟩
      · rw [FileHandler.handleFileRequest, hl]
        rfl
      · simp only [reduceCtorEq, false_and, exists_false, iff_false]
        exact HttpResponse.errorPage_ne_nil _ _
    | listing dirPath =>
      obtain ⟨hdated, hbody⟩ := FileHandler.createDirectoryListing_dated e.texts e.fs dirPath path
      refine ⟨h, fun t => FileHandler.createDirectoryListing e.texts e.fs dirPath path t.date, fun t => ?_,
        hdated, fun t => ?_⟩
      · rw [FileHandler.handleFileRequest, hl]
        rfl
      · simp only [reduceCtorEq, false_and, exists_false, iff_false]
        exact hbody t.date
    | file file =>
      obtain ⟨h', reply, hserve, hdated, hbody⟩ := h.serveFile_dated hc e.fs file e.now
      refine ⟨h', reply, fun t => ?_, hdated, fun t => (hbody t).trans ?_⟩
      · rw [FileHandler.handleFileRequest_file hl, hserve]
      · simp only [Located.file.injEq, exists_eq_left']

/-! ## HEAD and GET -/

/-- The responses to a GET and to the HEAD of the same bytes. -/
theorem answer_pair (hc : ∀ c, h.cache = some c → LRUCache.system.Reachable c) {rest : Bytes}
    (hvalid : (HttpRequest.parse (bytes "GET " ++ rest)).valid = true) (keepAlive : Bool) (t t' : TimeTexts) :
    ∃ h' get head, answer e h keepAlive (bytes "GET " ++ rest) t = .ok (some (h', get)) ∧
      answer e h keepAlive (bytes "HEAD " ++ rest) t' = .ok (some (h', head)) ∧
      Alike head get ∧ head.body = [] ∧ head.Measured ∧ get.Measured ∧
      (get.body = [] ↔ LeadsToEmptyFile e h (HttpRequest.parse (bytes "GET " ++ rest)).path) := by
  obtain ⟨hmethod, hhead⟩ := HttpRequest.parse_head hvalid
  obtain ⟨h', reply, hserved, hdated, hbody⟩ :=
    served_dated (e := e) hc (HttpRequest.parse (bytes "GET " ++ rest)).path
  have hget : answer e h keepAlive (bytes "GET " ++ rest) t = .ok (some (h',
      (reply t).setKeepAlive (HttpRequest.parse (bytes "GET " ++ rest)).isKeepAlive)) := by
    rw [answer, if_pos ⟨hvalid, .inl hmethod⟩, hserved, if_pos hvalid]
    simp only [buildResponse, hvalid, hmethod]
    rfl
  have hhead' : answer e h keepAlive (bytes "HEAD " ++ rest) t' = .ok (some (h',
      ((reply t').setBody []).setKeepAlive (HttpRequest.parse (bytes "GET " ++ rest)).isKeepAlive)) := by
    rw [answer, hhead, if_pos ⟨hvalid, .inr rfl⟩, hserved, if_pos hvalid]
    simp only [buildResponse, hvalid]
    rfl
  have hbodies : ∀ (r : HttpResponse) (k : Bool), (r.setKeepAlive k).body = r.body := fun r k => by
    cases k <;> rfl
  refine ⟨h', _, _, hget, hhead', ?_, ?_, ?_, ?_, ?_⟩
  · exact ((HttpResponse.alike_setBody _ _).trans (hdated.alike t' t)).setKeepAlive _
  · rw [hbodies]
    rfl
  · exact (HttpResponse.measured_setBody _ _).setKeepAlive _
  · exact (hdated.measured t).setKeepAlive _
  · rw [hbodies]
    exact hbody t

/-- **HEAD mirrors GET only for an empty file.** Whatever follows the method,
the two are answered with the same status and headers, the date and the length
of the body aside, and the HEAD with no body; the lengths are the same if and
only if the path leads to an empty file. -/
theorem head_mirrors_iff (hc : ∀ c, h.cache = some c → LRUCache.system.Reachable c) {rest : Bytes}
    (hvalid : (HttpRequest.parse (bytes "GET " ++ rest)).valid = true) (keepAlive : Bool) (t t' : TimeTexts) :
    ∃ h' get head, answer e h keepAlive (bytes "GET " ++ rest) t = .ok (some (h', get)) ∧
      answer e h keepAlive (bytes "HEAD " ++ rest) t' = .ok (some (h', head)) ∧
      Alike head get ∧ head.body = [] ∧
      (Mirrors head get ↔ LeadsToEmptyFile e h (HttpRequest.parse (bytes "GET " ++ rest)).path) := by
  obtain ⟨h', get, head, hget, hhead, halike, hbody, hlength, hlength', hempty⟩ :=
    answer_pair (e := e) hc hvalid keepAlive t t'
  exact ⟨h', get, head, hget, hhead, halike, hbody, (halike.mirrors_iff hlength hlength' hbody).trans hempty⟩

/-- Over `public/a.txt`, with a given text. -/
def quiet (text : Bytes) : Surroundings where
  fs := Serving.someFiles text
  texts := ⟨fun _ => [], fun _ => []⟩
  threadCount := 4
  queueSize := 0
  activeConnections := 1
  hitRatio := fun _ _ => []
  now := 0

def midnight : TimeTexts := ⟨bytes "Thu, 01 Jan 1970 00:00:00 GMT", bytes "Thu Jan  1 00:00:00 1970\n"⟩

def aTxt : Bytes := bytes "/a.txt HTTP/1.1\r\nHost: a\r\n\r\n"

theorem cache_started (c : LRUCache) (hc : Serving.started.handler.cache = some c) :
    LRUCache.system.Reachable c :=
  .init ⟨100, 300, (Option.some.inj hc).symm⟩

theorem head_mirrors_iff_aTxt : ∃ h' get head,
    answer (quiet []) Serving.started.handler false (bytes "GET " ++ aTxt) midnight = .ok (some (h', get)) ∧
    answer (quiet []) Serving.started.handler false (bytes "HEAD " ++ aTxt) midnight = .ok (some (h', head)) ∧
    Alike head get ∧ head.body = [] ∧
    (Mirrors head get ↔ LeadsToEmptyFile (quiet []) Serving.started.handler
      (HttpRequest.parse (bytes "GET " ++ aTxt)).path) :=
  head_mirrors_iff cache_started (by decide) false midnight midnight

/-- A file of five bytes: the HEAD says that it has none. -/
theorem not_mirrors_aTxt : ∃ h' get head,
    answer (quiet (bytes "hello")) Serving.started.handler false (bytes "GET " ++ aTxt) midnight =
      .ok (some (h', get)) ∧
    answer (quiet (bytes "hello")) Serving.started.handler false (bytes "HEAD " ++ aTxt) midnight =
      .ok (some (h', head)) ∧ ¬ Mirrors head get := by
  have hvalid : (HttpRequest.parse (bytes "GET " ++ aTxt)).valid = true := by decide
  obtain ⟨h', get, head, hget, hhead, halike, hbody, hlength, hlength', hempty⟩ :=
    answer_pair (e := quiet (bytes "hello")) cache_started hvalid false midnight midnight
  refine ⟨h', get, head, hget, hhead, fun hm => ?_⟩
  obtain ⟨-, file, hl, hcontent⟩ := hempty.mp ((halike.mirrors_iff hlength hlength' hbody).mp hm)
  have hpath : (HttpRequest.parse (bytes "GET " ++ aTxt)).path = bytes "/a.txt" := by decide
  have hfile : Serving.started.handler.locate (quiet (bytes "hello")).fs (bytes "/a.txt") =
      .ok (.file (bytes "./public/a.txt")) := by decide
  rw [hpath, hfile] at hl
  cases hl
  revert hcontent
  decide

end Webserver
