/-
What stands in the head of a response: the fields the server names itself, with
values it makes itself. No byte of a request, of a path or of a file gets there,
so no client can begin a response of its own in another's.
-/
import Webserver.Answer
import Webserver.Provenance
import Webserver.Replies

namespace Webserver

open Cxx HttpResponse Systems

/-- The content types the server gives. -/
def contentTypes : List Bytes := mimeTypes.map (·.2) ++ [bytes "application/octet-stream"]

theorem getMimeType_mem (extension : Bytes) : getMimeType extension ∈ contentTypes := by
  have hlookup : ∀ {l : List (Bytes × Bytes)} {k v}, l.lookup k = some v → v ∈ l.map (·.2) := by
    intro l k v hv
    obtain ⟨l₁, l₂, rfl, -⟩ := List.lookup_eq_some_iff.mp hv
    simp
  rw [getMimeType, contentTypes]
  cases hl : mimeTypes.lookup (lower extension) with
  | none => simp
  | some v => exact List.mem_append_left _ (hlookup hl)

/-- A field of a response dated `date` whose body has this length. -/
inductive PlainField (date : Bytes) (length : Nat) : Bytes → Bytes → Prop
  | date : PlainField date length (bytes "Date") date
  | server : PlainField date length (bytes "Server") (bytes "MultithreadedWebServer/1.0")
  | connection (keepAlive : Bool) : PlainField date length (bytes "Connection")
      (if keepAlive then bytes "keep-alive" else bytes "close")
  | keepAlive : PlainField date length (bytes "Keep-Alive") (bytes "timeout=30, max=100")
  | contentLength : PlainField date length (bytes "Content-Length") (decimal length)
  | contentType (t : Bytes) (ht : t ∈ contentTypes) : PlainField date length (bytes "Content-Type") t
  | xCache (x : Bytes) (hx : x ∈ [bytes "HIT", bytes "MISS", bytes "NONE"]) :
      PlainField date length (bytes "X-Cache") x

theorem PlainField.of_ne {date n v : Bytes} {length length' : Nat} (h : PlainField date length n v)
    (hn : n ≠ bytes "Content-Length") : PlainField date length' n v := by
  cases h with
  | date => exact .date
  | server => exact .server
  | connection keepAlive => exact .connection keepAlive
  | keepAlive => exact .keepAlive
  | contentLength => exact absurd rfl hn
  | contentType _ ht => exact .contentType _ ht
  | xCache _ hx => exact .xCache _ hx

theorem PlainField.writable {date n v : Bytes} {length : Nat} (h : PlainField date length n v)
    (hdate : Unbroken date) : WritableField n v := by
  have htypes : ∀ t ∈ contentTypes, Unbroken t := by decide +kernel
  have hmarks : ∀ x ∈ [bytes "HIT", bytes "MISS", bytes "NONE"], Unbroken x := by decide
  cases h with
  | date => exact ⟨by decide, by decide, hdate⟩
  | server | keepAlive => exact ⟨by decide, by decide, by decide⟩
  | connection keepAlive => exact ⟨by decide, by decide, by cases keepAlive <;> decide⟩
  | contentLength => exact ⟨by decide, by decide, unbroken_decimal length⟩
  | contentType _ ht => exact ⟨by decide, by decide, htypes v ht⟩
  | xCache _ hx => exact ⟨by decide, by decide, hmarks v hx⟩

/-- The server's own fields, for a body of this length. -/
def PlainFields (date : Bytes) (length : Nat) (r : HttpResponse) : Prop :=
  ∀ name value, r.headers.lookup name = some value → PlainField date length name value

theorem PlainFields.setHeader {date name value : Bytes} {length : Nat} {r : HttpResponse}
    (h : PlainFields date length r) (hf : PlainField date length name value) :
    PlainFields date length (r.setHeader name value) := by
  intro n v hv
  by_cases hname : n = name
  · subst hname
    rw [HttpResponse.setHeader, AList.lookup_insert] at hv
    exact Option.some.inj hv ▸ hf
  · rw [HttpResponse.setHeader, AList.lookup_insert_ne hname] at hv
    exact h n v hv

theorem plainFields_new (status : HttpStatus) (date : Bytes) : PlainFields date 0 (new status date) := by
  have hnone : PlainFields date 0 { status } := fun _ _ h => nomatch h
  exact ((hnone.setHeader .date).setHeader .server).setHeader (.connection false)

/-- A response whose head holds nothing but the server's own fields. -/
structure PlainHead (date : Bytes) (r : HttpResponse) : Prop where
  fields : PlainFields date r.body.length r
  measured : r.Measured

namespace PlainHead

variable {date : Bytes} {r : HttpResponse}

theorem delimited (h : PlainHead date r) (hdate : Unbroken date) : r.Delimited :=
  ⟨fun name value hv => (h.fields name value hv).writable hdate, h.measured⟩

theorem setHeader (h : PlainHead date r) {name value : Bytes}
    (hf : PlainField date r.body.length name value) (hn : name ≠ bytes "Content-Length") :
    PlainHead date (r.setHeader name value) :=
  ⟨h.fields.setHeader hf, h.measured.setHeader value hn⟩

/-- A body on a response whose other fields are the server's. -/
theorem of_setBody {length : Nat} (h : PlainFields date length r) (body : Bytes) :
    PlainHead date (r.setBody body) := by
  refine ⟨fun n v hv => ?_, measured_setBody r body⟩
  by_cases hname : n = bytes "Content-Length"
  · subst hname
    obtain rfl := Option.some.inj ((measured_setBody r body).symm.trans hv)
    exact .contentLength
  · rw [HttpResponse.setBody, setContentLength, HttpResponse.setHeader, AList.lookup_insert_ne hname] at hv
    exact (h n v hv).of_ne hname

theorem setBody (h : PlainHead date r) (body : Bytes) : PlainHead date (r.setBody body) :=
  of_setBody h.fields body

theorem setKeepAlive (h : PlainHead date r) (keepAlive : Bool) : PlainHead date (r.setKeepAlive keepAlive) := by
  cases keepAlive with
  | true => exact (h.setHeader (.connection true) (by decide)).setHeader .keepAlive (by decide)
  | false => exact h.setHeader (.connection false) (by decide)

/-- A body and a content type on a new response. -/
theorem page (status : HttpStatus) (date body : Bytes) {contentType : Bytes}
    (htype : contentType ∈ contentTypes) :
    PlainHead date (((new status date).setBody body).setContentType contentType) :=
  (of_setBody (plainFields_new status date) body).setHeader (.contentType contentType htype) (by decide)

theorem createErrorResponse (status : HttpStatus) (message date : Bytes) :
    PlainHead date (.createErrorResponse status message date) := page status date _ (by decide +kernel)

theorem handleApiRequest (e : Surroundings) (h : FileHandler) (path : Bytes) (t : TimeTexts) :
    PlainHead t.date (handleApiRequest e h path t) := by
  unfold Webserver.handleApiRequest
  split_ifs
  · exact page .ok t.date _ (by decide +kernel)
  · exact createErrorResponse _ _ _

theorem createDirectoryListing (texts : EntryTexts) (fs : FileSystem) (dirPath requestPath date : Bytes) :
    PlainHead date (FileHandler.createDirectoryListing texts fs dirPath requestPath date) := by
  unfold FileHandler.createDirectoryListing
  split
  · exact (page .ok date _ (by decide +kernel)).setHeader (.xCache _ (by simp)) (by decide)
  · exact createErrorResponse _ _ _

theorem hitResponse {entry : CacheEntry} (htype : entry.contentType ∈ contentTypes) (date : Bytes) :
    PlainHead date (FileHandler.hitResponse entry date) :=
  (page .ok date entry.data htype).setHeader (.xCache _ (by simp)) (by decide)

theorem missResponse (path content date : Bytes) : PlainHead date (FileHandler.missResponse path content date) :=
  (page .ok date content (getMimeType_mem _)).setHeader (.xCache _ (by simp)) (by decide)

/-- What `handle_client_request` makes of it for a request. -/
theorem buildResponse (h : PlainHead date r) (request : HttpRequest) (keepAlive : Bool) :
    PlainHead date ((buildResponse request r date).setKeepAlive keepAlive) := by
  refine PlainHead.setKeepAlive ?_ keepAlive
  unfold Webserver.buildResponse
  split_ifs
  · exact createErrorResponse _ _ _
  · exact h
  · exact h.setBody []
  · exact createErrorResponse _ _ _

end PlainHead

/-! ## Every answer -/

namespace FilePc

variable {h h' : FileHandler} {fs : FileSystem} {now : Int} {texts : EntryTexts} {date : Bytes}
  {call : FileCall} {r : HttpResponse}

theorem plain_refused {call' : FileCall} {status : HttpStatus} {message : Bytes}
    (hr : refused call' status message date = returned call r) : PlainHead date r :=
  (returned.inj hr).2 ▸ .createErrorResponse _ _ _

/-- A query that fails is answered with an error page. -/
theorem plain_onAnswer {α : Type} {call' : FileCall} {answer : Except Failure α} {next : α → FilePc}
    (hr : onAnswer call' date answer next = returned call r)
    (hnext : ∀ a, next a = returned call r → PlainHead date r) : PlainHead date r := by
  cases answer with
  | ok a => exact hnext a hr
  | error e => exact plain_refused hr

theorem exec_plain {pc : FilePc} (he : pc.exec h fs now texts date = some (h', returned call r))
    (hhit : ∀ path entry, h.getCached path now = (h', some entry) → entry.contentType ∈ contentTypes) :
    PlainHead date r := by
  cases pc with
  | idle | returned | thrown => cases he
  | safe call' pc =>
    have hr := (Prod.mk.inj (Option.some.inj he)).2
    split at hr
    · cases hr
    · cases hr
    · exact plain_refused hr
    · exact plain_refused hr
  | exists_ call' =>
    have hr := (Prod.mk.inj (Option.some.inj he)).2
    split at hr
    · cases hr
    · exact plain_refused hr
    · cases hr
  | isDirectory call' | defaultExists call' | defaultRegular call' =>
    refine plain_onAnswer (Prod.mk.inj (Option.some.inj he)).2 fun a ha => ?_
    split at ha <;> cases ha
  | listing call' =>
    obtain ⟨-, rfl⟩ := returned.inj (Prod.mk.inj (Option.some.inj he)).2
    exact .createDirectoryListing _ _ _ _ _
  | isRegular call' path =>
    refine plain_onAnswer (Prod.mk.inj (Option.some.inj he)).2 fun a ha => ?_
    split at ha
    · cases ha
    · exact plain_refused ha
  | fileSize call' path =>
    refine plain_onAnswer (Prod.mk.inj (Option.some.inj he)).2 fun a ha => ?_
    split at ha
    · exact plain_refused ha
    · cases ha
  | get call' path =>
    simp only [exec] at he
    split at he
    · next entry hget =>
      obtain ⟨rfl, hr⟩ := Prod.mk.inj (Option.some.inj he)
      obtain ⟨-, rfl⟩ := returned.inj hr
      exact .hitResponse (hhit path _ hget) date
    · cases (Prod.mk.inj (Option.some.inj he)).2
  | read call' path =>
    have hr := (Prod.mk.inj (Option.some.inj he)).2
    split at hr
    · exact plain_refused hr
    · cases hr
  | put call' path content =>
    obtain ⟨h₁, -, heq⟩ := Option.map_eq_some_iff.mp he
    obtain ⟨-, rfl⟩ := returned.inj (Prod.mk.inj heq).2
    exact .missResponse path content date

end FilePc

namespace FileWorkers

variable {n : Nat} {documentRoot defaultFile : Bytes} {enableCache : Bool} {cacheSizeMb : Nat}
  {s s' : FileWorkers n}

/-- What a handler answers next: a thread returns from `handle_file_request`, or
`handle_api_request` reads the counters as they are. -/
inductive Serves (s : FileWorkers n) (date : Bytes) : HttpResponse → Prop
  | file (w texts call) {r s'} (hs : s.step (.worker w texts date) = some s') (hr : s'.worker w = .returned call r) :
      Serves s date r
  | api (e : Surroundings) (path ctime : Bytes) :
      Serves s date (handleApiRequest e s.handler path ⟨date, ctime⟩)

/-- What a thread returns holds the server's own fields only. -/
theorem returned_plain (h : (system n documentRoot defaultFile enableCache cacheSizeMb).Reachable s) {w : Fin n}
    {texts : EntryTexts} {date : Bytes} {call : FileCall} {r : HttpResponse}
    (hs : s.step (.worker w texts date) = some s') (hr : s'.worker w = .returned call r) : PlainHead date r := by
  have hi := inv h
  cases step_cases hs with
  | worker w texts date h' pc' he =>
    obtain rfl : pc' = .returned call r := by simpa using hr
    refine FilePc.exec_plain he fun path entry hget => ?_
    -- an entry was made from a file, and has the content type of its path
    obtain ⟨-, -, hfound⟩ := s.handler.getCached_eq path s.clock
    rw [hget] at hfound
    obtain ⟨c, hc, hgot⟩ := Option.bind_eq_some_iff.mp hfound.symm
    obtain ⟨entry₀, it, hk, ⟨-, htype, -⟩, -⟩ := LRUCache.get_eq_some hgot
    rw [htype, ((hi.cache c hc).2 path entry₀ it hk).contentType]
    exact getMimeType_mem _

/-- **Nothing of a client's gets into a head**: whatever requests the threads
answer, in whatever order of their steps and over whatever files, and whatever
request the answer is then sent for, the head of the response holds the server's
own fields only, its date, a content type of the table, the length of its body.
So the response ends itself. -/
theorem plain_head (h : (system n documentRoot defaultFile enableCache cacheSizeMb).Reachable s) {date : Bytes}
    {r : HttpResponse} (hr : s.Serves date r) (request : HttpRequest) (keepAlive : Bool) :
    PlainHead date ((buildResponse request r date).setKeepAlive keepAlive) ∧
      (Unbroken date → ((buildResponse request r date).setKeepAlive keepAlive).Delimited) := by
  have hplain : PlainHead date r := by
    cases hr with
    | api e path ctime => exact .handleApiRequest e s.handler path ⟨date, ctime⟩
    | file w texts call hs hr => exact returned_plain h hs hr
  have hbuilt := hplain.buildResponse request keepAlive
  exact ⟨hbuilt, hbuilt.delimited⟩

/-- The hit of `delayed`, sent for a GET. -/
theorem plain_head_delayed : ∃ s : FileWorkers 2, ∃ r, s.Serves [] r ∧
    FileHandler.xCache r = some (bytes "HIT") ∧ r.body = bytes "hello" ∧
    let request := HttpRequest.parse (bytes "GET /a.txt HTTP/1.1\r\n\r\n")
    buildResponse request r [] = r ∧ PlainHead [] ((buildResponse request r []).setKeepAlive true) ∧
      ((buildResponse request r []).setKeepAlive true).Delimited := by
  obtain ⟨s, hreach, hs⟩ := System.exists_reachable
    (S := system 2 (bytes "./public") (bytes "index.html") true 100) (s := started)
    ⟨rfl, fun _ => rfl, rfl⟩ delayed
    (fun s => (s.step (.worker 1 ⟨fun _ => [], fun _ => []⟩ [])).any fun (s' : FileWorkers 2) =>
      (s'.worker 1).response.any fun r =>
        decide (FileHandler.xCache r = some (bytes "HIT") ∧ r.body = bytes "hello")) (by decide +kernel)
  simp only [decide_eq_true_eq, Option.any_eq_true] at hs
  obtain ⟨s', hs', r, hr, hx, hbody⟩ := hs
  obtain ⟨call, hpc⟩ := FilePc.eq_returned hr
  have hserves : s.Serves [] r := .file 1 _ call hs' hpc
  have hhead := plain_head hreach hserves (HttpRequest.parse (bytes "GET /a.txt HTTP/1.1\r\n\r\n")) true
  refine ⟨s, r, hserves, hx, hbody, ?_, hhead.1, hhead.2 (by decide)⟩
  rw [buildResponse, if_neg (by decide +kernel), if_pos (by decide +kernel)]

end FileWorkers

end Webserver
