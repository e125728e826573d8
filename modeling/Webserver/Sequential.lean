/-
One request after the other is one of the orders in which threads take their
steps: a thread that goes on alone does what `handle_file_request` does in one
step. What holds of all runs of the threads so holds of those runs too.
-/
import Webserver.Transparency

namespace Webserver

open Cxx Systems

namespace SafePc

/-- How many queries `is_safe_path` still makes at most. -/
def left : SafePc → Nat
  | canonicalRoot => 6
  | exists_ _ => 5
  | parentExists _ => 4
  | canonical _ | parentCanonical _ | absolute _ => 3
  | relative _ _ => 2

theorem exec_left {fs : FileSystem} {documentRoot resolvedPath : Bytes} {pc pc' : SafePc}
    (h : pc.exec fs documentRoot resolvedPath = .ok (.inl pc')) : pc'.left < pc.left := by
  cases pc with
  | exists_ root | parentExists root =>
    obtain ⟨found, -, h⟩ := FileHandler.bind_eq_ok.mp h
    cases found <;> exact Sum.inl.inj (Except.ok.inj h) ▸ by simp [left]
  | canonicalRoot | canonical root | parentCanonical root | absolute root =>
    obtain ⟨path, -, h⟩ := FileHandler.bind_eq_ok.mp h
    exact Sum.inl.inj (Except.ok.inj h) ▸ by simp [left]
  | relative root path =>
    obtain ⟨path, -, h⟩ := FileHandler.bind_eq_ok.mp h
    cases h

theorem left_pos (pc : SafePc) : 0 < pc.left := by cases pc <;> exact Nat.succ_pos _

end SafePc

namespace FilePc

/-- A thread's own step. -/
def Goes (fs : FileSystem) (now : Int) (texts : EntryTexts) (date : Bytes) (a b : FileHandler × FilePc) : Prop :=
  a.2.exec a.1 fs now texts date = some b

/-- What a thread comes to by its own steps. -/
abbrev Leads (fs : FileSystem) (now : Int) (texts : EntryTexts) (date : Bytes) :
    FileHandler × FilePc → FileHandler × FilePc → Prop := Relation.ReflTransGen (Goes fs now texts date)

/-- The point of the code where it is clear where a request leads. -/
def arrives (call : FileCall) (date : Bytes) : Located → FilePc
  | .refused status message => refused call status message date
  | .listing _ => listing call
  | .file path => get call path

/-- How many steps there are up to that point at most. -/
def left : FilePc → Nat
  | safe _ pc => pc.left + 6
  | exists_ _ => 6
  | isDirectory _ => 5
  | defaultExists _ => 4
  | defaultRegular _ => 3
  | isRegular _ _ => 2
  | fileSize _ _ => 1
  | _ => 0

variable {h h' : FileHandler} {fs : FileSystem} {now : Int} {texts : EntryTexts} {date : Bytes} {call : FileCall}

/-- A step towards that point keeps the rest of the call. -/
structure Nears (h : FileHandler) (fs : FileSystem) (call : FileCall) (located : Located) (pc pc' : FilePc) :
    Prop where
  call : pc'.call = some call
  rest : pc'.rest h fs = some (.ok located)
  pos : 0 < pc'.left
  left : pc'.left < pc.left

theorem nears_onAnswer {α : Type} {pc : FilePc} {located : Located} {query : Except Failure α} {next : α → FilePc}
    {cont : α → Except Failure Located} (hrest : caught (query >>= cont) = located)
    (hn : ∀ a, caught (cont a) = located →
      next a = arrives call date located ∨ Nears h fs call located pc (next a)) :
    onAnswer call date query next = arrives call date located ∨
      Nears h fs call located pc (onAnswer call date query next) := by
  cases query with
  | ok a => exact hn a hrest
  | error e => exact .inl (hrest ▸ rfl)

/-- **A query takes a thread nearer** to where its request leads, or there. -/
theorem exec_nears {pc : FilePc} {located : Located} (hc : pc.call = some call)
    (hrest : pc.rest h fs = some (.ok located)) (hleft : 0 < pc.left) :
    ∃ pc', pc.exec h fs now texts date = some (h, pc') ∧
      (pc' = arrives call date located ∨ Nears h fs call located pc pc') := by
  cases pc with
  | idle | returned | thrown | listing | get | read | put => cases hleft
  | safe call pc =>
    obtain rfl := Option.some.inj hc
    refine ⟨_, rfl, ?_⟩
    have hpc := pc.rest_eq fs h.documentRoot (h.resolvePath call.requestPath)
    simp only [rest, hpc, Option.some.injEq] at hrest
    split
    · next pc' he =>
      rw [he] at hrest
      exact .inr ⟨rfl, congrArg some hrest, Nat.succ_pos _, Nat.add_lt_add_right (SafePc.exec_left he) 6⟩
    · next he =>
      rw [he] at hrest
      exact .inr ⟨rfl, congrArg some hrest, Nat.succ_pos _, Nat.lt_add_of_pos_left pc.left_pos⟩
    · next he =>
      rw [he] at hrest
      obtain rfl := Except.ok.inj hrest
      exact .inl rfl
    · next he =>
      rw [he] at hrest
      obtain rfl := Except.ok.inj hrest
      exact .inl rfl
  | exists_ call =>
    obtain rfl := Option.some.inj hc
    refine ⟨_, rfl, ?_⟩
    simp only [rest, Option.some.injEq] at hrest
    split
    · next he =>
      rw [he] at hrest
      exact .inr ⟨rfl, congrArg some hrest, Nat.succ_pos _, Nat.lt_add_one 5⟩
    · next he =>
      rw [he] at hrest
      obtain rfl := Except.ok.inj hrest
      exact .inl rfl
    · next he =>
      rw [he] at hrest
      cases hrest
  | isDirectory call =>
    obtain rfl := Option.some.inj hc
    refine ⟨_, rfl, nears_onAnswer (Except.ok.inj (Option.some.inj hrest)) fun directory hr => .inr ?_⟩
    cases directory <;> exact ⟨rfl, hr ▸ rfl, Nat.succ_pos _, by simp [left]⟩
  | defaultExists call =>
    obtain rfl := Option.some.inj hc
    refine ⟨_, rfl, nears_onAnswer (Except.ok.inj (Option.some.inj hrest)) fun found hr => ?_⟩
    cases found with
    | false => exact .inl (hr ▸ rfl)
    | true => exact .inr ⟨rfl, hr ▸ rfl, Nat.succ_pos _, Nat.lt_add_one 3⟩
  | defaultRegular call =>
    obtain rfl := Option.some.inj hc
    refine ⟨_, rfl, nears_onAnswer (Except.ok.inj (Option.some.inj hrest)) fun regular hr => ?_⟩
    cases regular with
    | false => exact .inl (hr ▸ rfl)
    | true => exact .inr ⟨rfl, hr ▸ rfl, Nat.succ_pos _, Nat.lt_add_one 2⟩
  | isRegular call path =>
    obtain rfl := Option.some.inj hc
    refine ⟨_, rfl, nears_onAnswer (Except.ok.inj (Option.some.inj hrest)) fun regular hr => ?_⟩
    cases regular with
    | false => exact .inl (hr ▸ rfl)
    | true => exact .inr ⟨rfl, hr ▸ rfl, Nat.succ_pos _, Nat.lt_add_one 1⟩
  | fileSize call path =>
    obtain rfl := Option.some.inj hc
    refine ⟨_, rfl, nears_onAnswer (Except.ok.inj (Option.some.inj hrest)) fun size hr => .inl ?_⟩
    by_cases hsize : h.maxFileSize < size
    · rw [if_pos hsize] at hr ⊢
      exact hr ▸ rfl
    · rw [if_neg hsize] at hr ⊢
      exact hr ▸ rfl

/-- A thread that goes on alone comes to where its request leads. -/
theorem leads_arrives {pc : FilePc} {located : Located} (hc : pc.call = some call)
    (hrest : pc.rest h fs = some (.ok located)) (hleft : 0 < pc.left) :
    Leads fs now texts date (h, pc) (h, arrives call date located) := by
  obtain ⟨m, hm⟩ : ∃ m, pc.left = m := ⟨_, rfl⟩
  induction m using Nat.strong_induction_on generalizing pc with
  | _ m ih =>
    have hnears : ∃ pc', pc.exec h fs now texts date = some (h, pc') ∧
        (pc' = arrives call date located ∨ Nears h fs call located pc pc') := exec_nears hc hrest hleft
    obtain ⟨pc', he, rfl | hn⟩ := hnears
    · exact .single he
    · exact .head he (ih pc'.left (hm ▸ hn.left) hn.call hn.rest hn.pos rfl)

/-- And from there, to what it answers. -/
theorem leads_returned {located : Located} {r : HttpResponse}
    (hl : h.locate fs call.requestPath = .ok located)
    (hr : h.handleFileRequest texts fs call.requestPath now date = .ok (some (h', r))) :
    Leads fs now texts date (h, arrives call date located) (h', returned call r) := by
  rw [FileHandler.handleFileRequest, hl] at hr
  cases located with
  | refused status message =>
    obtain ⟨rfl, rfl⟩ := Prod.mk.inj (Option.some.inj (Except.ok.inj hr))
    exact .refl
  | listing dirPath =>
    obtain ⟨rfl, rfl⟩ := Prod.mk.inj (Option.some.inj (Except.ok.inj hr))
    obtain rfl := (FileHandler.locate_eq_listing hl).2
    exact .single rfl
  | file path =>
    replace hr : h.serveFile fs path now date = some (h', r) := Except.ok.inj hr
    simp only [FileHandler.serveFile] at hr
    split at hr
    · next entry hget =>
      obtain ⟨rfl, rfl⟩ := Prod.mk.inj (Option.some.inj hr)
      refine .single ?_
      simp [Goes, exec, arrives, hget]
    · next h₁ hget =>
      have hmiss : Goes fs now texts date (h, get call path) (h₁, read call path) := by
        simp [Goes, exec, hget]
      refine .head hmiss ?_
      split at hr
      · next hread =>
        obtain ⟨rfl, rfl⟩ := Prod.mk.inj (Option.some.inj hr)
        refine .single ?_
        simp [Goes, exec, hread, refused]
      · next content hread =>
        obtain ⟨h₂, hput, heq⟩ := Option.map_eq_some_iff.mp hr
        obtain ⟨rfl, rfl⟩ := Prod.mk.inj heq
        have hgo : Goes fs now texts date (h₁, read call path) (h₁, put call path content) := by
          simp [Goes, exec, hread]
        refine .head hgo (.single ?_)
        simp [Goes, exec, hput]

/-- **A call that is alone** does what `handle_file_request` does. -/
theorem leads_handleFileRequest {r : HttpResponse}
    (hr : h.handleFileRequest texts fs call.requestPath now date = .ok (some (h', r))) :
    Leads fs now texts date (h, safe call .canonicalRoot) (h', returned call r) := by
  obtain ⟨located, hl⟩ := FileHandler.locate_isOk h fs call.requestPath
  obtain ⟨l, hrest⟩ : ∃ l, (safe call .canonicalRoot).rest h fs = some l := ⟨_, rfl⟩
  obtain rfl := ((Follows.begins h fs call).rest call l rfl hrest).trans hl
  exact (leads_arrives rfl hrest (Nat.succ_pos _)).trans (leads_returned hl hr)

end FilePc

namespace FileWorkers

variable {n : Nat} {documentRoot defaultFile : Bytes} {enableCache : Bool} {cacheSizeMb : Nat}

/-- A thread takes its own steps in every state. -/
theorem reachable_of_leads {s : FileWorkers n}
    (h : (system n documentRoot defaultFile enableCache cacheSizeMb).Reachable s) {w : Fin n} {texts : EntryTexts}
    {date : Bytes} {b : FileHandler × FilePc}
    (hl : FilePc.Leads s.fs s.clock texts date (s.handler, s.worker w) b) :
    (system n documentRoot defaultFile enableCache cacheSizeMb).Reachable
      { s with handler := b.1, worker := Function.update s.worker w b.2 } := by
  induction hl with
  | refl => simpa using h
  | tail _ hgoes ih =>
    refine .step (a := .worker w texts date) ih trivial ?_
    rw [FilePc.Goes] at hgoes
    simp [system, step, hgoes]

theorem call_reached {s : FileWorkers n}
    (h : (system n documentRoot defaultFile enableCache cacheSizeMb).Reachable s) {w : Fin n}
    (hw : s.worker w = .idle ∨ ∃ call r, s.worker w = .returned call r) {texts : EntryTexts}
    {requestPath date : Bytes} {h' : FileHandler} {r : HttpResponse}
    (hr : s.handler.handleFileRequest texts s.fs requestPath s.clock date = .ok (some (h', r))) :
    (system n documentRoot defaultFile enableCache cacheSizeMb).Reachable
      { s with handler := h', worker := Function.update s.worker w (.returned ⟨requestPath, s.clock⟩ r) } := by
  have hcalled : (system n documentRoot defaultFile enableCache cacheSizeMb).Reachable
      { s with worker := Function.update s.worker w (.safe ⟨requestPath, s.clock⟩ .canonicalRoot) } := by
    refine .step (a := .call w requestPath) h trivial ?_
    rcases hw with hw | ⟨call, r, hw⟩ <;> simp [system, step, hw]
  have hleads : FilePc.Leads s.fs s.clock texts date
      (s.handler, Function.update s.worker w (.safe ⟨requestPath, s.clock⟩ .canonicalRoot) w)
      (h', .returned ⟨requestPath, s.clock⟩ r) := by
    rw [Function.update_self]
    exact FilePc.leads_handleFileRequest hr
  simpa only [Function.update_idem] using reachable_of_leads hcalled hleads

/-- The threads stand where the requests in one step each have led, and one of
them is free for the next. -/
structure Matches (w : Fin n) (s : Serving) (t : FileWorkers n) : Prop where
  handler : t.handler = s.handler
  fs : t.fs = s.fs
  clock : t.clock = s.clock
  history : t.history = s.history
  free : t.worker w = .idle ∨ ∃ call r, t.worker w = .returned call r

/-- **One request after the other** is one of the orders in which the threads
take their steps: a state that requests answered in one step each lead to, the
files changing and time passing between them, the threads reach as well; and
the thread that is given the next request comes to return the same answer. -/
theorem sequential_reached {s : Serving}
    (h : (Serving.system documentRoot defaultFile enableCache cacheSizeMb).Reachable s) (w : Fin n) :
    ∃ t : FileWorkers n, (system n documentRoot defaultFile enableCache cacheSizeMb).Reachable t ∧
      Matches w s t ∧ ∀ texts requestPath date h' r,
        s.handler.handleFileRequest texts s.fs requestPath s.clock date = .ok (some (h', r)) →
        (system n documentRoot defaultFile enableCache cacheSizeMb).Reachable
          { t with handler := h', worker := Function.update t.worker w (.returned ⟨requestPath, s.clock⟩ r) } := by
  suffices hmatch : ∃ t : FileWorkers n,
      (system n documentRoot defaultFile enableCache cacheSizeMb).Reachable t ∧ Matches w s t by
    obtain ⟨t, ht, hm⟩ := hmatch
    refine ⟨t, ht, hm, fun texts requestPath date h' r hr => ?_⟩
    rw [← hm.clock]
    rw [← hm.handler, ← hm.fs, ← hm.clock] at hr
    exact call_reached ht hm.free hr
  refine h.invariant (I := fun s => ∃ t : FileWorkers n,
    (system n documentRoot defaultFile enableCache cacheSizeMb).Reachable t ∧ Matches w s t) ?_ ?_
  · rintro s ⟨hhandler, hhistory, -⟩
    exact ⟨⟨s.handler, s.fs, s.clock, fun _ => .idle, s.history⟩, .init ⟨hhandler, fun _ => rfl, hhistory⟩,
      rfl, rfl, rfl, rfl, .inl rfl⟩
  rintro s a s' - ⟨t, ht, hm⟩ - hs
  cases a with
  | request texts requestPath date =>
    simp only [Serving.system, Serving.step] at hs
    split at hs
    · next h' r hr =>
      obtain rfl := Option.some.inj hs
      rw [← hm.handler, ← hm.fs, ← hm.clock] at hr
      refine ⟨_, call_reached ht hm.free hr, rfl, hm.fs, hm.clock, hm.history, .inr ⟨?_, r, ?_⟩⟩
      · exact ⟨requestPath, t.clock⟩
      · simp
    · cases hs
  | change fs =>
    obtain rfl := Option.some.inj hs
    refine ⟨{ t with fs, history := (t.clock, fs) :: t.history }, .step (a := .change fs) ht trivial rfl,
      hm.handler, rfl, hm.clock, ?_, hm.free⟩
    simp only [hm.clock, hm.history]
  | advance ns =>
    obtain rfl := Option.some.inj hs
    refine ⟨{ t with clock := t.clock + ns, history := (t.clock + ns, t.fs) :: t.history },
      .step (a := .advance ns) ht trivial rfl, hm.handler, hm.fs, ?_, ?_, hm.free⟩
    · simp only [hm.clock]
    · simp only [hm.clock, hm.fs, hm.history]

/-- After `copied` the next request is answered with the copy. -/
theorem sequential_reached_aTxt : ∃ t : FileWorkers 2, ∃ call r,
    (system 2 (bytes "./public") (bytes "index.html") true 100).Reachable t ∧ t.worker 1 = .returned call r ∧
      t.clock = 299000000000 ∧ t.fs.read (bytes "./public/a.txt") = some (bytes "changed") ∧
      r.body = bytes "hello" := by
  obtain ⟨s, hs, hp⟩ := System.exists_reachable (S := Serving.system (bytes "./public") (bytes "index.html") true 100)
    (s := Serving.started) ⟨rfl, rfl, rfl⟩ Serving.copied
    (fun s => decide (s.clock = 299000000000 ∧ s.fs.read (bytes "./public/a.txt") = some (bytes "changed")) &&
      Serving.answers (bytes "/a.txt") (fun r => r.body = bytes "hello") s) (by decide +kernel)
  rw [Bool.and_eq_true, decide_eq_true_eq] at hp
  obtain ⟨⟨hclock, hchanged⟩, hanswers⟩ := hp
  obtain ⟨h', r, hr, hbody⟩ := Serving.exists_answer hanswers
  obtain ⟨t, -, hmatch, hcall⟩ := sequential_reached hs (1 : Fin 2)
  exact ⟨_, ⟨bytes "/a.txt", s.clock⟩, r, hcall _ _ _ h' r hr, by simp, hmatch.clock.trans hclock,
    by rw [hmatch.fs]; exact hchanged, of_decide_eq_true hbody⟩

end FileWorkers

end Webserver
