/-
Which files the handler's answers come from: the check confines the path of a
request to the document root, but the default file of a directory is opened
without it.
-/
import Webserver.Serving

namespace Webserver

open Cxx Systems

/-- The request names a directory whose default file leads out of the root. -/
def FileHandler.Strays (h : FileHandler) (fs : FileSystem) (requestPath : Bytes) : Prop :=
  fs.isDirectory (h.resolvePath requestPath) = .ok true ∧
    ¬fs.Beneath h.documentRoot (h.defaultPath (h.resolvePath requestPath))

/-- A request leads beneath the root exactly if it does not stray. -/
theorem FileHandler.beneath_iff {h : FileHandler} {fs : FileSystem} {requestPath path : Bytes}
    (hl : h.locate fs requestPath = .ok (.file path)) :
    fs.Beneath h.documentRoot path ↔ ¬h.Strays fs requestPath := by
  obtain ⟨hsafe, hexists, -, hpath⟩ := locate_eq_file hl
  rcases hpath with ⟨hdir, rfl⟩ | ⟨hdir, rfl⟩
  · -- the default file of a directory
    simp [Strays, hdir]
  · obtain ⟨p, hp⟩ := FileSystem.exists_eq_true.mp hexists
    have hnot : ¬h.Strays fs requestPath := fun hstrays => by
      have := hdir.symm.trans hstrays.1
      simp at this
    exact iff_of_true (beneath_of_isSafePath hsafe hp) hnot

/-- Where the default file is an ordinary name, a request strays by a link
that stands under this name in the directory. -/
theorem FileHandler.Strays.symlink {h : FileHandler} {fs : FileSystem} {requestPath path : Bytes}
    (hdefault : Paths.Plain h.defaultFile) (hl : h.locate fs requestPath = .ok (.file path))
    (hs : h.Strays fs requestPath) : ∃ d target, fs.resolve (h.resolvePath requestPath) = .ok d ∧
      fs.root.lookup (d ++ [h.defaultFile]) = some (.symlink target) := by
  obtain ⟨hdir, hout⟩ := hs
  obtain ⟨hsafe, -, hregular, hpath⟩ := locate_eq_file hl
  obtain rfl : path = h.defaultPath (h.resolvePath requestPath) := by
    rcases hpath with ⟨-, hpath⟩ | ⟨hnot, -⟩
    · exact hpath
    · cases hdir.symm.trans hnot
  generalize h.resolvePath requestPath = resolved at *
  obtain ⟨d, hd, hnode⟩ := FileSystem.isDirectory_eq_true.mp hdir
  obtain ⟨p, hp, hfile⟩ := FileSystem.isRegularFile_eq_true.mp hregular
  have hnul : 0 ∉ resolved := fun hmem => by
    -- otherwise the default file would be the directory itself
    have hsame : fs.resolve (h.defaultPath resolved) = fs.resolve resolved := by
      rw [defaultPath]
      split
      · rw [List.append_assoc, FileSystem.resolve_append hmem]
      · rw [FileSystem.resolve_append hmem]
    obtain rfl := Except.ok.inj (hp.symm.trans (hsame.trans hd))
    obtain ⟨node, hlookup, hisdir⟩ := (Option.any_eq_true _ _).mp hnode
    have hfile : node.isRegular = true := by simpa [hlookup] using hfile
    cases node <;> simp [Node.isDirectory, Node.isRegular] at hisdir hfile
  obtain ⟨m, hm⟩ := FileSystem.resolve_child hd hnul hdefault
  have hwalk : fs.walk m d [h.defaultFile] = .ok p := by
    rw [← hm, ← hp]
    rfl
  by_contra hnone
  push Not at hnone
  have hplace : p = d ++ [h.defaultFile] := FileSystem.walk_child hdefault hwalk fun target => hnone d target hd
  obtain ⟨base, d', hbase, hd', hpre, -⟩ := beneath_of_isSafePath hsafe hd
  obtain rfl := Except.ok.inj (hd.symm.trans hd')
  refine hout ⟨base, p, hbase, hp, ?_, ?_⟩
  · rw [hplace]
    exact hpre.trans (List.prefix_append d _)
  · intro heq
    have hlen := hpre.length_le
    rw [heq, hplace, List.length_append, List.length_singleton] at hlen
    omega

namespace Serving

open FileHandler

/-- **Confinement**: the file whose bytes are answered lay strictly beneath
the document root when it was read exactly if the request that read it named
no directory whose default file leads out of the root. -/
theorem confined {documentRoot defaultFile : Bytes} {enableCache : Bool} {cacheSizeMb : Nat} {s : Serving}
    (h : (system documentRoot defaultFile enableCache cacheSizeMb).Reachable s) {texts : EntryTexts}
    {requestPath date x : Bytes} {h' : FileHandler} {r : HttpResponse}
    (hr : s.handler.handleFileRequest texts s.fs requestPath s.clock date = .ok (some (h', r)))
    (hx : xCache r = some x) (hmark : x = bytes "HIT" ∨ x = bytes "MISS") :
    ∃ path reading, s.handler.locate s.fs requestPath = .ok (.file path) ∧
      s.origin requestPath path x = some reading ∧ reading.fs.read path = some r.body ∧
      (reading.fs.Beneath s.handler.documentRoot path ↔ ¬s.handler.Strays reading.fs reading.requestPath) := by
  have hi := inv h
  obtain ⟨path, reading, hl, horigin, hserved⟩ := hi.served hr hx hmark
  exact ⟨path, reading, hl, horigin, hserved.read,
    beneath_iff (hi.configured.locate reading.requestPath ▸ hserved.sound.located)⟩

theorem confined_text : ∃ h' r path reading,
    started.handler.handleFileRequest ⟨fun _ => [], fun _ => []⟩ started.fs (bytes "/a.txt") started.clock [] =
      .ok (some (h', r)) ∧ started.origin (bytes "/a.txt") path (bytes "MISS") = some reading ∧
      reading.fs.read path = some r.body ∧
      (reading.fs.Beneath started.handler.documentRoot path ↔
        ¬started.handler.Strays reading.fs reading.requestPath) := by
  have hmiss : answers (bytes "/a.txt") (fun r => xCache r = some (bytes "MISS")) started = true := by
    decide
  obtain ⟨h', r, hr, hx⟩ := exists_answer hmiss
  obtain ⟨path, reading, -, horigin, hread, hiff⟩ :=
    confined reachable_started hr (of_decide_eq_true hx) (.inr rfl)
  exact ⟨h', r, path, reading, hr, horigin, hread, hiff⟩

/-- **The check misses the default file**: a link in its place is followed
out of the root. -/
theorem not_confined : ∃ s : Serving, (system (bytes "./public") (bytes "index.html") true 100).Reachable s ∧
    ∃ texts requestPath date h' r path, s.handler.handleFileRequest texts s.fs requestPath s.clock date =
      .ok (some (h', r)) ∧ r.status = .ok ∧ xCache r = some (bytes "MISS") ∧
      s.handler.locate s.fs requestPath = .ok (.file path) ∧ s.fs.read path = some r.body ∧
      ¬s.fs.Beneath s.handler.documentRoot path := by
  have hkey : answers (bytes "/docs") (fun r => r.status = .ok ∧ xCache r = some (bytes "MISS") ∧
      r.body = bytes "key") started = true := by decide
  obtain ⟨h', r, hr, hanswer⟩ := exists_answer hkey
  obtain ⟨hstatus, hx, hbody⟩ := of_decide_eq_true hanswer
  refine ⟨started, reachable_started, _, _, _, h', r, bytes "./public/docs/index.html", hr, hstatus, hx,
    by decide, by rw [hbody]; decide, ?_⟩
  rintro ⟨base, p, hbase, hp, hpre, -⟩
  have hroot : started.fs.resolve started.handler.documentRoot = .ok [bytes "srv", bytes "public"] := by
    decide
  have hsecret : started.fs.resolve (bytes "./public/docs/index.html") = .ok [bytes "etc", bytes "secret"] := by
    decide
  obtain rfl := Except.ok.inj (hroot.symm.trans hbase)
  obtain rfl := Except.ok.inj (hsecret.symm.trans hp)
  exact absurd hpre (by decide)

end Serving

end Webserver
