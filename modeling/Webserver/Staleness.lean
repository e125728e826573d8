/-
How old the bytes are that the file handler answers with, and that without
changes of the files the cache cannot be told from the disk.
-/
import Webserver.Serving

namespace Webserver

open Cxx Systems

namespace FileHandler

variable {h : FileHandler} {fs : FileSystem}

/-- The answer from the disk, or that there is none. -/
def diskResponse (fs : FileSystem) (path date : Bytes) : HttpResponse :=
  match fs.read path with
  | none => .createErrorResponse .internalServerError (bytes "Could not read file") date
  | some content => missResponse path content date

theorem serveFile_disabled (hnone : h.activeCache = none) (path : Bytes) (now : Int) (date : Bytes) :
    h.serveFile fs path now date = some (h, diskResponse fs path date) := by
  have hget : h.getCached path now = (h, none) := by rw [getCached, hnone]
  rw [serveFile, hget, diskResponse]
  cases fs.read path with
  | none => rfl
  | some content =>
    have hput : ∀ mimeType, h.putCached path content mimeType now = some h := fun _ => by
      rw [putCached, hnone]
    simp only [hput, Option.map_some]

/-- Serving a file returns. -/
theorem serveFile_isSome (hc : ∀ c, h.activeCache = some c → c.Inv) (path : Bytes) (now : Int) (date : Bytes) :
    ∃ h' r, h.serveFile fs path now date = some (h', r) := by
  obtain ⟨-, hcache, -⟩ := h.getCached_eq path now
  unfold serveFile
  split
  · exact ⟨_, _, rfl⟩
  next h₁ hget =>
  rw [hget] at hcache
  split
  · exact ⟨_, _, rfl⟩
  next content hread =>
  have hput : ∃ h₂, h₁.putCached path content (HttpResponse.getMimeType (Paths.extension path)) now = some h₂ := by
    unfold putCached
    split
    · exact ⟨h₁, rfl⟩
    next c₁ hc₁ =>
    obtain ⟨c, hc₀, rfl⟩ := Option.map_eq_some_iff.mp (hcache.symm.trans hc₁)
    split
    · have hreturns : ∃ c₂, (c.get path now now).1.put path content
          (HttpResponse.getMimeType (Paths.extension path)) now = some c₂ ∧ (c₂.storedSize < 2 ^ 64 → c₂.Inv) :=
        ((hc c hc₀).get path now now).put
      obtain ⟨c₂, hc₂, -⟩ := hreturns
      exact ⟨_, by rw [hc₂]; rfl⟩
    · exact ⟨h₁, rfl⟩
  obtain ⟨h₂, hput⟩ := hput
  simp only [hput, Option.map_some]
  exact ⟨_, _, rfl⟩

end FileHandler

namespace Serving

open FileHandler

variable {documentRoot defaultFile : Bytes} {cacheSizeMb : Nat} {s : Serving}

/-- The step leaves the files as they are. -/
def keepsFiles : ServingAction → Bool
  | .change _ => false
  | _ => true

/-- Without changes the files were always the same. -/
theorem history_eq {enableCache : Bool} (h : (system documentRoot defaultFile enableCache cacheSizeMb).ReachableBy
    (fun _ a => keepsFiles a = true) s) : ∀ e ∈ s.history, e.2 = s.fs := by
  refine h.invariant (I := fun s => ∀ e ∈ s.history, e.2 = s.fs) ?_ ?_
  · intro s hinit
    obtain ⟨-, hhistory, -⟩ := hinit
    simp [hhistory]
  intro s a s' _ hi hkeeps hs
  have hs : s.step a = some s' := hs
  cases a with
  | request texts requestPath date =>
    simp only [step] at hs
    split at hs
    · exact (Option.some.inj hs) ▸ hi
    · cases hs
  | change fs => cases hkeeps
  | advance ns =>
    obtain rfl := Option.some.inj hs
    exact List.forall_mem_cons.mpr ⟨rfl, hi⟩

/-- Two responses a client cannot tell apart but for the headers about the transfer. -/
def SameAnswer (r r' : HttpResponse) : Prop :=
  r.status = r'.status ∧ r.body = r'.body ∧
    r.headers.lookup (bytes "Content-Type") = r'.headers.lookup (bytes "Content-Type")

theorem sameAnswer_of_carries {r r' : HttpResponse} {status : HttpStatus} {body contentType : Bytes}
    (h : Carries r status body contentType) (h' : Carries r' status body contentType) : SameAnswer r r' :=
  ⟨h.status.trans h'.status.symm, h.body.trans h'.body.symm, h.contentType.trans h'.contentType.symm⟩

/-- With the files as they always were, a file is answered with what is on
the disk. -/
theorem Inv.sameAnswer {h₀ : FileHandler} (hi : Inv h₀ cacheSizeMb s) (hfiles : ∀ e ∈ s.history, e.2 = s.fs)
    {requestPath path date : Bytes} {h' : FileHandler} {r : HttpResponse}
    (hl : s.handler.locate s.fs requestPath = .ok (.file path))
    (hserve : s.handler.serveFile s.fs path s.clock date = some (h', r)) (texts : EntryTexts) :
    SameAnswer r (diskResponse s.fs path date) := by
  have hr : s.handler.handleFileRequest texts s.fs requestPath s.clock date = .ok (some (h', r)) := by
    rw [handleFileRequest_file hl, hserve]
  -- what was read at some time would be read now
  have current : ∀ x, xCache r = some x → x = bytes "HIT" ∨ x = bytes "MISS" →
      SameAnswer r (diskResponse s.fs path date) := by
    intro x hx hmark
    obtain ⟨path', reading, hl', -, hserved⟩ := hi.served hr hx hmark
    obtain rfl := Located.file.inj (Except.ok.inj (hl.symm.trans hl'))
    have hfs : reading.fs = s.fs := hfiles _ hserved.sound.recorded
    rw [diskResponse, ← hfs, hserved.read]
    exact sameAnswer_of_carries hserved.carries (carries_missResponse ..)
  rcases serveFile_cases hserve with ⟨entry, -, rfl⟩ | ⟨h₁, content, -, -, -, rfl⟩ | ⟨-, hread, rfl⟩
  · exact current _ (xCache_setHeader ..) (.inl rfl)
  · exact current _ (xCache_setHeader ..) (.inr rfl)
  · rw [diskResponse, hread]
    exact ⟨rfl, rfl, rfl⟩

/-- **Bounded staleness**: what is answered as a hit or a miss are the bytes
the file had at an instant less than 300 seconds ago, under the content type
of its extension; and as long as no file changes, every request is answered
as without a cache. -/
theorem bounded_staleness (texts : EntryTexts) (requestPath date : Bytes) :
    ((system documentRoot defaultFile true cacheSizeMb).Reachable s → ∀ h' r x,
      s.handler.handleFileRequest texts s.fs requestPath s.clock date = .ok (some (h', r)) →
      r.status = .ok → xCache r = some x → x = bytes "HIT" ∨ x = bytes "MISS" →
      ∃ path instant fs, s.handler.locate s.fs requestPath = .ok (.file path) ∧
        (instant, fs) ∈ s.history ∧ s.clock - 300 * 1000000000 < instant ∧ instant ≤ s.clock ∧
        fs.read path = some r.body ∧ r.headers.lookup (bytes "Content-Type") =
          some (HttpResponse.getMimeType (Paths.extension path))) ∧
    ((system documentRoot defaultFile true cacheSizeMb).ReachableBy (fun _ a => keepsFiles a = true) s →
      ∃ h' r h'' r', s.handler.handleFileRequest texts s.fs requestPath s.clock date = .ok (some (h', r)) ∧
        (FileHandler.make documentRoot defaultFile false cacheSizeMb).handleFileRequest texts s.fs requestPath
          s.clock date = .ok (some (h'', r')) ∧ SameAnswer r r') := by
  constructor
  · intro h h' r x hr _ hx hmark
    obtain ⟨path, reading, hl, -, hserved⟩ := (inv h).served hr hx hmark
    exact ⟨path, reading.instant, reading.fs, hl, hserved.sound.recorded, hserved.fresh, hserved.sound.past,
      hserved.read, hserved.carries.contentType⟩
  intro h
  have hi := inv h.reachable
  obtain ⟨l, hl⟩ := locate_isOk s.handler s.fs requestPath
  have hl' : (FileHandler.make documentRoot defaultFile false cacheSizeMb).locate s.fs requestPath = .ok l := by
    rw [← hl, hi.configured.locate]
    rfl
  rw [handleFileRequest, hl, handleFileRequest, hl']
  cases l with
  | refused status message => exact ⟨_, _, _, _, rfl, rfl, rfl, rfl, rfl⟩
  | listing dirPath => exact ⟨_, _, _, _, rfl, rfl, rfl, rfl, rfl⟩
  | file path =>
    obtain ⟨h', r, hserve⟩ := serveFile_isSome (fun c hc => (hi.cache c hc).inv) path s.clock date
    have hdisk : (FileHandler.make documentRoot defaultFile false cacheSizeMb).serveFile s.fs path s.clock date =
        some (_, diskResponse s.fs path date) := serveFile_disabled rfl path s.clock date
    exact ⟨h', r, _, _, congrArg Except.ok hserve, congrArg Except.ok hdisk,
      hi.sameAnswer (history_eq h) hl hserve texts⟩

/-- A copy is answered 299 seconds after it was made, though the file has changed. -/
def copied : List ServingAction :=
  [.request ⟨fun _ => [], fun _ => []⟩ (bytes "/a.txt") [], .change (someFiles (bytes "changed")),
    .advance 299000000000]

theorem bounded_staleness_copied : ∃ s, (system (bytes "./public") (bytes "index.html") true 100).Reachable s ∧
    s.fs.read (bytes "./public/a.txt") = some (bytes "changed") ∧
    ∃ h' r path instant fs, s.handler.handleFileRequest ⟨fun _ => [], fun _ => []⟩ s.fs (bytes "/a.txt") s.clock [] =
        .ok (some (h', r)) ∧ r.body = bytes "hello" ∧
      s.handler.locate s.fs (bytes "/a.txt") = .ok (.file path) ∧ (instant, fs) ∈ s.history ∧
      s.clock - 300 * 1000000000 < instant ∧ instant ≤ s.clock ∧ fs.read path = some r.body := by
  have hinit : (system (bytes "./public") (bytes "index.html") true 100).init started := ⟨rfl, rfl, rfl⟩
  obtain ⟨s, hs, hp⟩ := System.exists_reachable hinit copied
    (fun s => decide (s.fs.read (bytes "./public/a.txt") = some (bytes "changed")) &&
      answers (bytes "/a.txt") (fun r => r.status = .ok ∧ xCache r = some (bytes "HIT") ∧
        r.body = bytes "hello") s) (by decide +kernel)
  rw [Bool.and_eq_true] at hp
  obtain ⟨h', r, hr, hanswer⟩ := exists_answer hp.2
  obtain ⟨hstatus, hx, hbody⟩ := of_decide_eq_true hanswer
  obtain ⟨path, instant, fs, hl, hmem, hfresh, hpast, hread, -⟩ :=
    (bounded_staleness _ _ _).1 hs h' r _ hr hstatus hx (.inl rfl)
  exact ⟨s, hs, of_decide_eq_true hp.1, h', r, path, instant, fs, hr, hbody, hl, hmem, hfresh, hpast, hread⟩

end Serving

end Webserver
