/-
A tree of files with symbolic links, how the system finds what a path names
in it, and the operations of `std::filesystem` that ask it. A place is the
list of the names from the root down to it.
-/
import Webserver.Paths

namespace Cxx

open Paths

abbrev Place := List Bytes

inductive Node
  | regular (content : Bytes) (readable : Bool)
  | directory (readable : Bool) (entries : List (Bytes × Node))
  | symlink (target : Bytes)
  /-- A device, a socket or a pipe. -/
  | other
  /-- To look it up fails, and not because it does not exist. -/
  | inaccessible

namespace Node

def isDirectory : Node → Bool
  | directory .. => true
  | _ => false

def isRegular : Node → Bool
  | regular .. => true
  | _ => false

/-- A node that the lookup of a path ends at. -/
def isFinal : Node → Bool
  | symlink _ | inaccessible => false
  | _ => true

/-- The node at a place beneath a node. -/
def lookup : Node → Place → Option Node
  | node, [] => some node
  | directory _ entries, name :: rest => (entries.lookup name).bind fun node => node.lookup rest
  | _, _ :: _ => none

theorem lookup_append (node : Node) (p q : Place) : node.lookup (p ++ q) = (node.lookup p).bind (·.lookup q) := by
  induction p generalizing node with
  | nil => rfl
  | cons name p ih =>
    cases node with
    | directory readable entries =>
      simp only [List.cons_append, lookup]
      cases entries.lookup name with
      | none => rfl
      | some child => exact ih child
    | _ => rfl

/-- Only a directory has something beneath it. -/
theorem isDirectory_of_lookup {node : Node} {name : Bytes} {rest : Place}
    (h : (node.lookup (name :: rest)).isSome = true) : node.isDirectory = true := by
  cases node with
  | directory readable entries => rfl
  | _ => cases h

end Node

/-- Why a lookup fails: there is no such file (`ENOENT`, `ENOTDIR`), or
another error, which makes `std::filesystem` throw. -/
inductive Failure
  | notFound
  | failed
  deriving DecidableEq

structure FileSystem where
  root : Node
  /-- The current directory. -/
  cwd : Place
  /-- How many links one lookup may follow. -/
  linkMax : Nat
  root_directory : root.isDirectory = true
  cwd_directory : (root.lookup cwd).any Node.isDirectory = true
  cwd_plain : ∀ name ∈ cwd, Plain name

namespace FileSystem

/-- Where one name leads: to a place, or by a link to further names. -/
inductive Leads
  | to (place : Place)
  | link (here : Place) (names : List Bytes)

def next (fs : FileSystem) (here : Place) (name : Bytes) : Except Failure Leads :=
  if !(fs.root.lookup here).any Node.isDirectory then .error .notFound
  else if name = [] ∨ name = dot then .ok (.to here)
  else if name = dotDot then .ok (.to here.dropLast)
  else match fs.root.lookup (here ++ [name]) with
    | none => .error .notFound
    | some .inaccessible => .error .failed
    | some (.symlink target) =>
      let target := cStr target
      if target = [] then .error .notFound
      else .ok (.link (if isAbsolute target then [] else here) (target.splitOn 47))
    | some _ => .ok (.to (here ++ [name]))

/-- The names of a path one after the other; `follow` goes on where a link leads. -/
def steps (fs : FileSystem) (follow : Place → List Bytes → Except Failure Place) (here : Place) :
    List Bytes → Except Failure Place
  | [] => .ok here
  | name :: rest =>
    match fs.next here name with
    | .error e => .error e
    | .ok (.to place) => fs.steps follow place rest
    | .ok (.link here names) => follow here (names ++ rest)

/-- The same, with so many links to follow at most. -/
def walk (fs : FileSystem) : Nat → Place → List Bytes → Except Failure Place
  | 0 => fs.steps fun _ _ => .error .failed
  | links + 1 => fs.steps (fs.walk links)

/-- What a path names, all links followed. -/
def resolve (fs : FileSystem) (path : Bytes) : Except Failure Place :=
  let path := cStr path
  if path = [] then .error .notFound
  else fs.walk fs.linkMax (if isAbsolute path then [] else fs.cwd) (path.splitOn 47)

/-- `status(path)`; `none` is the type `not_found`. -/
def status (fs : FileSystem) (path : Bytes) : Except Failure (Option Node) :=
  match fs.resolve path with
  | .ok place => .ok (fs.root.lookup place)
  | .error .notFound => .ok none
  | .error .failed => .error .failed

/-- `exists(path)` -/
def exists_ (fs : FileSystem) (path : Bytes) : Except Failure Bool := (fs.status path).map (·.isSome)

/-- `is_directory(path)` -/
def isDirectory (fs : FileSystem) (path : Bytes) : Except Failure Bool :=
  (fs.status path).map (·.any Node.isDirectory)

/-- `is_regular_file(path)` -/
def isRegularFile (fs : FileSystem) (path : Bytes) : Except Failure Bool :=
  (fs.status path).map (·.any Node.isRegular)

/-- `file_size(path)` -/
def fileSize (fs : FileSystem) (path : Bytes) : Except Failure Nat := do
  match ← fs.status path with
  | some (.regular content _) => return content.length
  | some _ => throw .failed
  | none => throw .notFound

/-- `canonical(path)` -/
def canonical (fs : FileSystem) (path : Bytes) : Except Failure Bytes :=
  (fs.resolve path).map (ofNames true)

/-- `absolute(path)` -/
def absolute (fs : FileSystem) (path : Bytes) : Except Failure Bytes :=
  if path = [] then .error .failed else .ok (append (ofNames true fs.cwd) path)

/-- The longest front of a list of elements that exists, and the rest. -/
def existing (fs : FileSystem) (found : Bytes) : List Bytes → Except Failure (Bytes × List Bytes)
  | [] => .ok (found, [])
  | e :: es => do
    if ← fs.exists_ (append found e) then fs.existing (append found e) es
    else return (found, e :: es)

/-- `weakly_canonical(path)` -/
def weaklyCanonical (fs : FileSystem) (path : Bytes) : Except Failure Bytes := do
  if ← fs.exists_ path then fs.canonical path
  else
    let (found, rest) ← fs.existing [] (elements path)
    let front ← if found = [] then pure [] else fs.canonical found
    return lexicallyNormal (rest.foldl append front)

/-- `relative(path, base)` -/
def relative (fs : FileSystem) (path base : Bytes) : Except Failure Bytes := do
  return lexicallyRelative (← fs.weaklyCanonical path) (← fs.weaklyCanonical base)

/-- All bytes of the regular file a path names, read through a stream. -/
def read (fs : FileSystem) (path : Bytes) : Option Bytes :=
  match fs.resolve path with
  | .ok place =>
    match fs.root.lookup place with
    | some (.regular content true) => some content
    | _ => none
  | .error _ => none

/-- What a `directory_iterator` yields. -/
def directoryEntries (fs : FileSystem) (path : Bytes) : Except Failure (List Bytes) := do
  match ← fs.status path with
  | some (.directory true entries) => return entries.map (·.1)
  | some _ => throw .failed
  | none => throw .notFound

/-- The canonical location of `path` is strictly beneath that of `base`. -/
def Beneath (fs : FileSystem) (base path : Bytes) : Prop :=
  ∃ b p, fs.resolve base = .ok b ∧ fs.resolve path = .ok p ∧ b <+: p ∧ b ≠ p

/-! ## Where a lookup ends -/

/-- A place of its own: no link is on the way to it. -/
structure Settled (fs : FileSystem) (p : Place) : Prop where
  plain : ∀ name ∈ p, Plain name
  final : (fs.root.lookup p).any Node.isFinal = true

variable {fs : FileSystem}

theorem isFinal_of_isDirectory {node : Node} (h : node.isDirectory = true) : node.isFinal = true := by
  cases node <;> first | rfl | cases h

theorem Settled.root (fs : FileSystem) : fs.Settled [] :=
  ⟨List.forall_mem_nil _, isFinal_of_isDirectory fs.root_directory⟩

theorem Settled.of_directory {p : Place} (hp : ∀ name ∈ p, Plain name)
    (h : (fs.root.lookup p).any Node.isDirectory = true) : fs.Settled p := by
  obtain ⟨node, hnode, hdir⟩ := (Option.any_eq_true _ _).mp h
  exact ⟨hp, by rw [hnode]; exact isFinal_of_isDirectory hdir⟩

theorem Settled.cwd (fs : FileSystem) : fs.Settled fs.cwd := .of_directory fs.cwd_plain fs.cwd_directory

/-- On the way to a place there are directories. -/
theorem Settled.directory {p : Place} {name : Bytes} {rest : Place}
    (h : fs.Settled (p ++ name :: rest)) : (fs.root.lookup p).any Node.isDirectory = true := by
  obtain ⟨node, hnode, -⟩ := (Option.any_eq_true _ _).mp h.final
  rw [Node.lookup_append] at hnode
  obtain ⟨dir, hdir, hbelow⟩ := Option.bind_eq_some_iff.mp hnode
  rw [hdir]
  exact Node.isDirectory_of_lookup (Option.isSome_iff_exists.mpr ⟨node, hbelow⟩)

theorem Settled.front {p q : Place} (h : fs.Settled (p ++ q)) : fs.Settled p := by
  cases q with
  | nil => rwa [List.append_nil] at h
  | cons name rest =>
    exact .of_directory (fun n hn => h.plain n (List.mem_append_left _ hn)) h.directory

theorem Settled.dropLast {p : Place} (h : fs.Settled p) : fs.Settled p.dropLast := by
  rcases List.eq_nil_or_concat p with rfl | ⟨front, last, rfl⟩
  · exact h
  · rw [List.concat_eq_append] at h ⊢
    rw [List.dropLast_concat]
    exact h.front

/-- What follows a NUL is not seen. -/
theorem cStr_append {s : Bytes} (h : 0 ∈ s) (t : Bytes) : cStr (s ++ t) = cStr s := by
  rw [cStr, cStr, List.takeWhile_append, if_neg]
  intro hlen
  have hall := List.takeWhile_eq_self_iff.mp (List.IsPrefix.eq_of_length (List.takeWhile_prefix _) hlen) 0 h
  simp at hall

/-- The names a lookup works with come from C strings, cut at slashes. -/
def Pieces (names : List Bytes) : Prop := ∀ name ∈ names, 47 ∉ name ∧ 0 ∉ name

theorem mem_cStr {s : Bytes} {b : UInt8} (h : b ∈ cStr s) : b ≠ 0 := by
  simpa using List.mem_takeWhile_imp h

theorem cStr_eq_self {s : Bytes} (h : 0 ∉ s) : cStr s = s :=
  List.takeWhile_eq_self_iff.mpr fun b hb => by
    have : b ≠ 0 := fun h0 => h (h0 ▸ hb)
    simpa using this

theorem pieces_splitOn (s : Bytes) : Pieces ((cStr s).splitOn 47) := fun _ hn =>
  ⟨fun hb => (mem_splitOn hn hb).2 rfl, fun hb => mem_cStr (mem_splitOn hn hb).1 rfl⟩

/-- **What one name can lead to**: from a place of its own to another, or to
the names of a link. -/
theorem next_settled {here : Place} {name : Bytes} (hh : fs.Settled here) (hn : 47 ∉ name ∧ 0 ∉ name)
    {leads : Leads} (h : fs.next here name = .ok leads) :
    (∃ p, leads = .to p ∧ fs.Settled p) ∨
      ∃ dir names, leads = .link dir names ∧ fs.Settled dir ∧ Pieces names := by
  unfold next at h
  split at h
  · cases h
  split at h
  · exact .inl ⟨here, (Except.ok.inj h).symm, hh⟩
  next hname =>
  split at h
  · exact .inl ⟨_, (Except.ok.inj h).symm, hh.dropLast⟩
  next hdots =>
  split at h
  · cases h
  · cases h
  · next target hlookup =>
    dsimp only at h
    split at h
    · cases h
    refine .inr ⟨_, _, (Except.ok.inj h).symm, ?_, pieces_splitOn target⟩
    split
    · exact .root fs
    · exact hh
  · next node hbad hlink hlookup =>
    refine .inl ⟨_, (Except.ok.inj h).symm, List.forall_mem_append.mpr ⟨hh.plain, ?_⟩, ?_⟩
    · rw [not_or] at hname
      exact List.forall_mem_singleton.mpr ⟨hname.1, hname.2, hdots, hn.1, hn.2⟩
    · rw [hlookup]
      cases node <;> first | rfl | exact absurd rfl hbad | exact absurd rfl (hlink _)

theorem steps_settled {follow : Place → List Bytes → Except Failure Place}
    (hfollow : ∀ here names p, fs.Settled here → Pieces names → follow here names = .ok p → fs.Settled p)
    {here p : Place} {names : List Bytes} (hh : fs.Settled here) (hn : Pieces names)
    (h : fs.steps follow here names = .ok p) : fs.Settled p := by
  induction names generalizing here with
  | nil => exact Except.ok.inj h ▸ hh
  | cons name rest ih =>
    obtain ⟨hname, hrest⟩ := List.forall_mem_cons.mp hn
    rw [steps] at h
    split at h
    · cases h
    · next place hnext =>
      rcases next_settled hh hname hnext with ⟨p, heq, hp⟩ | ⟨_, _, heq, -⟩
      · obtain rfl := Leads.to.inj heq
        exact ih hp hrest h
      · cases heq
    · next dir names hnext =>
      rcases next_settled hh hname hnext with ⟨_, heq, -⟩ | ⟨_, _, heq, hdir, hnames⟩
      · cases heq
      · obtain ⟨rfl, rfl⟩ := Leads.link.inj heq
        exact hfollow _ _ p hdir (List.forall_mem_append.mpr ⟨hnames, hrest⟩) h

/-- A walk ends at a place of its own. -/
theorem resolve_append {path : Bytes} (h : 0 ∈ path) (t : Bytes) :
    fs.resolve (path ++ t) = fs.resolve path := by rw [resolve, resolve, cStr_append h]

theorem walk_settled {links : Nat} {here p : Place} {names : List Bytes} (hh : fs.Settled here)
    (hn : Pieces names) (h : fs.walk links here names = .ok p) : fs.Settled p := by
  induction links generalizing here names p with
  | zero => exact steps_settled (fun _ _ _ _ _ h => by cases h) hh hn h
  | succ links ih => exact steps_settled (fun _ _ _ => ih) hh hn h

theorem resolve_settled {path : Bytes} {p : Place} (h : fs.resolve path = .ok p) : fs.Settled p := by
  simp only [resolve] at h
  split at h
  · cases h
  · refine walk_settled ?_ (pieces_splitOn path) h
    split
    · exact .root fs
    · exact .cwd fs

/-- An ordinary name, where there is no link. -/
theorem next_plain {here : Place} {name : Bytes} (hdir : (fs.root.lookup here).any Node.isDirectory = true)
    (hname : Plain name) {node : Node} (hlookup : fs.root.lookup (here ++ [name]) = some node)
    (hfinal : node.isFinal = true) : fs.next here name = .ok (.to (here ++ [name])) := by
  rw [next, hdir, hlookup, if_neg (by simp), if_neg (by simp [hname.ne_nil, hname.ne_dot]),
    if_neg hname.ne_dotDot]
  cases node <;> first | rfl | cases hfinal

/-- A place of its own is found under its names. -/
theorem Settled.steps {follow : Place → List Bytes → Except Failure Place} {here rest : Place}
    (h : fs.Settled (here ++ rest)) : fs.steps follow here rest = .ok (here ++ rest) := by
  induction rest generalizing here with
  | nil => rw [FileSystem.steps, List.append_nil]
  | cons name rest ih =>
    have hplain := h.plain name (by simp)
    have hsplit : here ++ name :: rest = here ++ [name] ++ rest := by simp
    have hnext : fs.Settled (here ++ [name]) := (hsplit ▸ h).front
    obtain ⟨node, hnode, hfinal⟩ := (Option.any_eq_true _ _).mp hnext.final
    rw [FileSystem.steps, next_plain h.directory hplain hnode hfinal, hsplit]
    exact ih (hsplit ▸ h)

theorem Settled.walk {links : Nat} {here rest : Place} (h : fs.Settled (here ++ rest)) :
    fs.walk links here rest = .ok (here ++ rest) := by
  cases links <;> exact h.steps

theorem next_empty {here : Place} (hdir : (fs.root.lookup here).any Node.isDirectory = true) :
    fs.next here [] = .ok (.to here) := by
  rw [next, hdir, if_neg (by simp), if_pos (.inl rfl)]

/-- An empty name stays at the root. -/
theorem walk_root (links : Nat) (names : List Bytes) :
    fs.walk links [] ([] :: names) = fs.walk links [] names := by
  have hdir : (fs.root.lookup []).any Node.isDirectory = true := fs.root_directory
  cases links <;> simp only [FileSystem.walk] <;> rw [FileSystem.steps, next_empty hdir]

/-- **A canonical path names the place it was made from.** -/
theorem Settled.resolve {p : Place} (h : fs.Settled p) : fs.resolve (ofNames true p) = .ok p := by
  have hstring : cStr (ofNames true p) = ofNames true p := cStr_eq_self (not_mem_ofNames h.plain)
  have hnames : fs.walk fs.linkMax [] ((ofNames true p).splitOn 47) = fs.walk fs.linkMax [] p := by
    cases p with
    | nil => exact (walk_root _ _).trans (walk_root _ _)
    | cons name rest => rw [splitOn_ofNames h.plain (List.cons_ne_nil name rest), walk_root]
  rw [FileSystem.resolve, hstring, if_neg (by simp [ofNames]), isAbsolute_ofNames, if_pos rfl, hnames]
  exact Settled.walk (by rwa [List.nil_append])

/-! ## What the queries answer -/

/-- A query that asks something of the node at the end of a path. -/
theorem map_status_eq_true {path : Bytes} {f : Option Node → Bool} (hf : f none = false) :
    (fs.status path).map f = .ok true ↔
      ∃ p, fs.resolve path = .ok p ∧ f (fs.root.lookup p) = true := by
  rw [status]
  split
  · next p h => simp [h, Except.map]
  · next h => simp [h, Except.map, hf]
  · next h => simp [h, Except.map]

theorem exists_eq_true {path : Bytes} : fs.exists_ path = .ok true ↔ ∃ p, fs.resolve path = .ok p := by
  rw [exists_, map_status_eq_true rfl]
  refine exists_congr fun p => and_iff_left_of_imp fun h => ?_
  obtain ⟨node, hnode, -⟩ := (Option.any_eq_true _ _).mp (resolve_settled h).final
  rw [hnode]
  rfl

theorem Settled.weaklyCanonical {p : Place} (h : fs.Settled p) :
    fs.weaklyCanonical (ofNames true p) = .ok (ofNames true p) := by
  have hexists : fs.exists_ (ofNames true p) = .ok true := exists_eq_true.mpr ⟨p, h.resolve⟩
  simp [FileSystem.weaklyCanonical, hexists, canonical, h.resolve, bind, Except.bind, Except.map]

theorem Settled.relative {p base : Place} (h : fs.Settled p) (hbase : fs.Settled base) :
    fs.relative (ofNames true p) (ofNames true base) =
      .ok (lexicallyRelative (ofNames true p) (ofNames true base)) := by
  simp [FileSystem.relative, h.weaklyCanonical, hbase.weaklyCanonical, bind, Except.bind, pure, Except.pure]

theorem isRegularFile_eq_true {path : Bytes} : fs.isRegularFile path = .ok true ↔
    ∃ p, fs.resolve path = .ok p ∧ (fs.root.lookup p).any Node.isRegular = true :=
  map_status_eq_true rfl

theorem isDirectory_eq_true {path : Bytes} : fs.isDirectory path = .ok true ↔
    ∃ p, fs.resolve path = .ok p ∧ (fs.root.lookup p).any Node.isDirectory = true :=
  map_status_eq_true rfl

/-! ## Entries of a directory -/

theorem steps_append {follow : Place → List Bytes → Except Failure Place} (links : Nat)
    (hwalk : fs.walk links = fs.steps follow)
    (hfollow : ∀ here xs d, follow here xs = .ok d → ∃ m, ∀ ys, follow here (xs ++ ys) = fs.walk m d ys)
    {here d : Place} {xs : List Bytes} (h : fs.steps follow here xs = .ok d) :
    ∃ m, ∀ ys, fs.steps follow here (xs ++ ys) = fs.walk m d ys := by
  induction xs generalizing here with
  | nil =>
    obtain rfl := Except.ok.inj h
    exact ⟨links, fun ys => by rw [hwalk, List.nil_append]⟩
  | cons name rest ih =>
    simp only [List.cons_append, FileSystem.steps] at h ⊢
    split at h
    · cases h
    · exact ih h
    · obtain ⟨m, hm⟩ := hfollow _ _ _ h
      exact ⟨m, fun ys => by rw [← hm ys, List.append_assoc]⟩

/-- Once some names are found, the lookup goes on from there. -/
theorem walk_append {links : Nat} {here d : Place} {xs : List Bytes} (h : fs.walk links here xs = .ok d) :
    ∃ m, ∀ ys, fs.walk links here (xs ++ ys) = fs.walk m d ys := by
  induction links generalizing here xs d with
  | zero => exact steps_append 0 rfl (fun _ _ _ h => by cases h) h
  | succ links ih => exact steps_append (links + 1) rfl (fun _ _ _ => ih) h

theorem steps_slashes {follow : Place → List Bytes → Except Failure Place} {y : Bytes} {ys : List Bytes}
    (hfollow : ∀ here xs, follow here (xs ++ [] :: y :: ys) = follow here (xs ++ y :: ys))
    (here : Place) (xs : List Bytes) :
    fs.steps follow here (xs ++ [] :: y :: ys) = fs.steps follow here (xs ++ y :: ys) := by
  induction xs generalizing here with
  | nil =>
    by_cases hdir : (fs.root.lookup here).any Node.isDirectory = true
    · rw [List.nil_append, List.nil_append, FileSystem.steps, next_empty hdir]
    · have hnext : ∀ name, fs.next here name = .error .notFound := fun name => by
        rw [next, if_pos (by simpa using hdir)]
      simp only [List.nil_append, FileSystem.steps, hnext]
  | cons name rest ih =>
    simp only [List.cons_append, FileSystem.steps, ih]
    split
    · rfl
    · rfl
    · rw [← List.append_assoc, ← List.append_assoc, hfollow]

/-- An empty name between others changes nothing. -/
theorem walk_slashes {y : Bytes} {ys : List Bytes} (links : Nat) (here : Place) (xs : List Bytes) :
    fs.walk links here (xs ++ [] :: y :: ys) = fs.walk links here (xs ++ y :: ys) := by
  induction links generalizing here xs with
  | zero => exact steps_slashes (fun _ _ => rfl) here xs
  | succ links ih => exact steps_slashes ih here xs

/-- The path of an entry of a directory is looked up in that directory. -/
theorem resolve_child {path name : Bytes} {d : Place} (h : fs.resolve path = .ok d) (hnul : 0 ∉ path)
    (hname : Plain name) : ∃ m,
      fs.resolve ((if path.getLast? ≠ some 47 then path ++ [47] else path) ++ name) = fs.walk m d [name] := by
  rw [resolve, cStr_eq_self hnul] at h
  split at h
  · cases h
  next hne =>
  obtain ⟨m, hm⟩ := walk_append h
  have hresolve : ∀ slash : Bytes, 0 ∉ slash → fs.resolve (path ++ slash ++ name) =
      fs.walk fs.linkMax (if isAbsolute path then [] else fs.cwd) ((path ++ slash ++ name).splitOn 47) := by
    intro slash hslash
    have habsolute : isAbsolute (path ++ slash ++ name) = isAbsolute path := by
      rw [isAbsolute, isAbsolute, List.append_assoc, List.head?_append_of_ne_nil _ hne]
    rw [resolve, cStr_eq_self (by simp [hnul, hslash, hname.no_nul]), if_neg (by simp [hne]), habsolute]
  refine ⟨m, ?_⟩
  rw [← hm [name]]
  split
  · have hsplit : (path ++ [47] ++ name).splitOn 47 = path.splitOn 47 ++ [name] := by
      rw [List.append_assoc, List.singleton_append, List.splitOn_append_cons_self,
        List.splitOn_eq_singleton hname.no_slash]
    rw [hresolve [47] (by decide), hsplit]
  · -- the slash at the end is the one between
    next hlast =>
    obtain ⟨front, rfl⟩ := List.getLast?_eq_some_iff.mp (not_not.mp hlast)
    have hsplit : (front ++ [47] ++ [] ++ name).splitOn 47 = front.splitOn 47 ++ [name] := by
      rw [List.append_nil, List.append_assoc, List.singleton_append, List.splitOn_append_cons_self,
        List.splitOn_eq_singleton hname.no_slash]
    have hpath : (front ++ [47]).splitOn 47 = front.splitOn 47 ++ [[]] := List.splitOn_append_cons_self front []
    have hchild := hresolve [] List.not_mem_nil
    rw [hsplit, List.append_nil] at hchild
    rw [hchild, hpath, List.append_assoc]
    exact (walk_slashes ..).symm

/-- An ordinary name that is no link leads to its own place. -/
theorem next_eq_ok {here : Place} {name : Bytes} {leads : Leads} (hname : Plain name)
    (hlink : ∀ target, fs.root.lookup (here ++ [name]) ≠ some (.symlink target))
    (h : fs.next here name = .ok leads) : leads = .to (here ++ [name]) := by
  unfold next at h
  split at h
  · cases h
  rw [if_neg (by simp [hname.ne_nil, hname.ne_dot]), if_neg hname.ne_dotDot] at h
  split at h
  · cases h
  · cases h
  · next target hlookup => exact absurd hlookup (hlink target)
  · exact (Except.ok.inj h).symm

/-- Unless it is a link, an entry is found in its directory. -/
theorem walk_child {m : Nat} {d p : Place} {name : Bytes} (hname : Plain name)
    (h : fs.walk m d [name] = .ok p) (hlink : ∀ target, fs.root.lookup (d ++ [name]) ≠ some (.symlink target)) :
    p = d ++ [name] := by
  have hsteps : ∃ follow, fs.walk m = fs.steps follow := by cases m <;> exact ⟨_, rfl⟩
  obtain ⟨follow, hfollow⟩ := hsteps
  rw [hfollow, steps] at h
  split at h
  · cases h
  · next place hnext =>
    obtain rfl := Except.ok.inj h
    exact Leads.to.inj (next_eq_ok hname hlink hnext)
  · next dir names hnext => cases next_eq_ok hname hlink hnext

end FileSystem

end Cxx
