/-
`std::filesystem::path` on a POSIX system, as the string it holds: the names
in it and the operations of the standard library that look at nothing else.
-/
import Webserver.Strings

namespace Cxx.Paths

def dot : Bytes := [46]

def dotDot : Bytes := [46, 46]

def isAbsolute (p : Bytes) : Bool := p.head? = some 47

/-- The file names in a path; a slash after the last one yields an empty one. -/
def names (p : Bytes) : List Bytes :=
  let found := (p.splitOn 47).filter (· ≠ [])
  if found ≠ [] ∧ p.getLast? = some 47 then found ++ [[]] else found

/-- What iteration over a path yields: the root directory comes first. -/
def elements (p : Bytes) : List Bytes := if isAbsolute p then [47] :: names p else names p

/-- The path with these names. -/
def ofNames (absolute : Bool) (l : List Bytes) : Bytes :=
  (if absolute then [47] else []) ++ ([47]).intercalate l

/-- `p / q` -/
def append (p q : Bytes) : Bytes :=
  if isAbsolute q then q
  else if p = [] ∨ p.getLast? = some 47 then p ++ q
  else p ++ [47] ++ q

/-- `parent_path()` -/
def parentPath (p : Bytes) : Bytes :=
  if names p = [] then p else ofNames (isAbsolute p) (names p).dropLast

/-- `filename()` -/
def filename (p : Bytes) : Bytes := (names p).getLast?.getD []

/-- `extension()`: from the last period of the file name on, unless that is
its first character. -/
def extension (p : Bytes) : Bytes :=
  let name := filename p
  let stem := name.rdropWhile (· ≠ 46)
  if name = dotDot ∨ stem.length ≤ 1 then [] else 46 :: name.rtakeWhile (· ≠ 46)

/-- One name in `lexically_normal()`; the flag says that what is kept so far
names a directory. -/
def normalStep (absolute : Bool) (state : List Bytes × Bool) (name : Bytes) : List Bytes × Bool :=
  let kept := state.1
  if name = [] ∨ name = dot then (kept, true)
  else if name = dotDot then
    match kept.getLast? with
    | none => if absolute then (kept, true) else ([dotDot], false)
    | some last => if last = dotDot then (kept ++ [dotDot], false) else (kept.dropLast, true)
  else (kept ++ [name], false)

/-- `lexically_normal()` -/
def lexicallyNormal (p : Bytes) : Bytes :=
  if p = [] then []
  else
    let (kept, directory) := (names p).foldl (normalStep (isAbsolute p)) ([], false)
    if kept = [] then if isAbsolute p then [47] else dot
    else if directory ∧ kept.getLast? ≠ some dotDot then ofNames (isAbsolute p) (kept ++ [[]])
    else ofNames (isAbsolute p) kept

/-- `std::mismatch` -/
def mismatch : List Bytes → List Bytes → List Bytes × List Bytes
  | a :: as, b :: bs => if a = b then mismatch as bs else (a :: as, b :: bs)
  | as, bs => (as, bs)

/-- How many levels a list of names leads down. -/
def depth (l : List Bytes) : Int :=
  (l.map fun name => if name = dotDot then (-1 : Int) else if name = [] ∨ name = dot then 0 else 1).sum

/-- `p.lexically_relative(base)` -/
def lexicallyRelative (p base : Bytes) : Bytes :=
  if isAbsolute p ≠ isAbsolute base then []
  else
    let (as, bs) := mismatch (names p) (names base)
    if as = [] ∧ bs = [] then dot
    else if depth bs = 0 ∧ as.head?.getD [] = [] then dot
    else if depth bs < 0 then []
    else ofNames false (List.replicate (depth bs).toNat dotDot ++ as)

/-! ## Absolute paths with ordinary names -/

/-- A name that a directory entry can have. -/
structure Plain (name : Bytes) : Prop where
  ne_nil : name ≠ []
  ne_dot : name ≠ dot
  ne_dotDot : name ≠ dotDot
  no_slash : 47 ∉ name
  no_nul : 0 ∉ name

variable {l : List Bytes}

theorem isAbsolute_ofNames (l : List Bytes) : isAbsolute (ofNames true l) = true := rfl

theorem not_mem_ofNames (h : ∀ name ∈ l, Plain name) : 0 ∉ ofNames true l := by
  have hinter : 0 ∉ [47].intercalate l := by
    induction l with
    | nil => simp
    | cons a l ih =>
      have ha := (h a (List.mem_cons_self ..)).no_nul
      have hl := ih fun name hn => h name (List.mem_cons_of_mem a hn)
      cases l with
      | nil => rwa [List.intercalate_singleton]
      | cons b l =>
        rw [List.intercalate_cons_cons]
        simp [ha, hl]
  simp [ofNames, hinter]

theorem splitOn_ofNames (h : ∀ name ∈ l, Plain name) (hne : l ≠ []) :
    (ofNames true l).splitOn 47 = [] :: l := by
  have hl : (ofNames true l).splitOn 47 = [] :: ([47].intercalate l).splitOn 47 :=
    List.splitOn_append_cons_self_of_not_mem List.not_mem_nil _
  rw [hl, List.splitOn_intercalate _ (fun name hn => (h name hn).no_slash) hne]

/-- A piece has bytes of the string, but not those it is cut at. -/
theorem mem_splitOn {d : UInt8} {s piece : Bytes} (h : piece ∈ s.splitOn d) {b : UInt8}
    (hb : b ∈ piece) : b ∈ s ∧ b ≠ d := by
  induction s generalizing piece with
  | nil =>
    rw [List.splitOn_nil, List.mem_singleton] at h
    exact absurd (h ▸ hb) List.not_mem_nil
  | cons c s ih =>
    rw [List.splitOn_cons_eq_if_modifyHead] at h
    split at h
    · rcases List.mem_cons.mp h with rfl | h
      · exact absurd hb List.not_mem_nil
      · exact ⟨List.mem_cons_of_mem c (ih h hb).1, (ih h hb).2⟩
    · next hc =>
      cases hs : s.splitOn d with
      | nil => exact absurd hs (List.splitOn_ne_nil d s)
      | cons first pieces =>
        rw [hs, List.modifyHead_cons] at h
        rcases List.mem_cons.mp h with rfl | h
        · rcases List.mem_cons.mp hb with rfl | hb
          · exact ⟨List.mem_cons_self .., by simpa using hc⟩
          · have := ih (hs ▸ List.mem_cons_self ..) hb
            exact ⟨List.mem_cons_of_mem c this.1, this.2⟩
        · have := ih (hs ▸ List.mem_cons_of_mem first h) hb
          exact ⟨List.mem_cons_of_mem c this.1, this.2⟩

/-- A string whose pieces are not empty does not end with a slash. -/
theorem getLast?_of_splitOn {s : Bytes} (h : [] ∉ s.splitOn 47) : s.getLast? ≠ some 47 := by
  intro hs
  obtain ⟨front, rfl⟩ : ∃ front, s = front ++ [47] := List.getLast?_eq_some_iff.mp hs
  rw [List.splitOn_append_cons_self] at h
  exact h (List.mem_append_right _ (by simp))

theorem names_ofNames (h : ∀ name ∈ l, Plain name) : names (ofNames true l) = l := by
  cases l with
  | nil => rfl
  | cons a l =>
    have hfilter : (a :: l).filter (· ≠ []) = a :: l :=
      List.filter_eq_self.mpr fun name hn => by simpa using (h name hn).ne_nil
    have hpieces : ([47].intercalate (a :: l)).splitOn 47 = a :: l :=
      List.splitOn_intercalate _ (fun name hn => (h name hn).no_slash) (List.cons_ne_nil a l)
    have hlast : (ofNames true (a :: l)).getLast? ≠ some 47 := by
      have hne : [47].intercalate (a :: l) ≠ [] := fun h0 => by
        rw [h0, List.splitOn_nil] at hpieces
        exact (h a (List.mem_cons_self ..)).ne_nil (List.cons_eq_cons.mp hpieces).1.symm
      rw [ofNames, if_pos rfl, List.getLast?_append_of_ne_nil _ hne]
      refine getLast?_of_splitOn fun hmem => ?_
      rw [hpieces] at hmem
      exact (h [] hmem).ne_nil rfl
    simp only [names, splitOn_ofNames h (List.cons_ne_nil a l)]
    rw [List.filter_cons_of_neg (by simp), hfilter, if_neg fun hand => hlast hand.2]

/-- What two lists of names do not share at the front. -/
theorem mismatch_eq (as bs : List Bytes) : ∃ front, as = front ++ (mismatch as bs).1 ∧
    bs = front ++ (mismatch as bs).2 := by
  induction as generalizing bs with
  | nil => exact ⟨[], by cases bs <;> rfl, by cases bs <;> rfl⟩
  | cons a as ih =>
    cases bs with
    | nil => exact ⟨[], rfl, rfl⟩
    | cons b bs =>
      simp only [mismatch]
      split
      · next h =>
        obtain ⟨front, h₁, h₂⟩ := ih bs
        exact ⟨a :: front, by rw [List.cons_append, ← h₁], by rw [List.cons_append, ← h₂, h]⟩
      · exact ⟨[], rfl, rfl⟩

theorem depth_plain (h : ∀ name ∈ l, Plain name) : depth l = l.length := by
  induction l with
  | nil => rfl
  | cons a l ih =>
    have ha := h a (List.mem_cons_self ..)
    have hrest := ih fun name hn => h name (List.mem_cons_of_mem a hn)
    simp only [depth, List.map_cons, List.sum_cons, ha.ne_dotDot, ha.ne_nil, ha.ne_dot, if_false,
      or_self] at hrest ⊢
    rw [hrest, List.length_cons]
    omega

/-- **What `lexically_relative` says of canonical paths**: unless its answer
starts with a period, the one path leads strictly beneath the other. -/
theorem prefix_of_lexicallyRelative {place base : List Bytes} (hplace : ∀ name ∈ place, Plain name)
    (hbase : ∀ name ∈ base, Plain name)
    (h : (lexicallyRelative (ofNames true place) (ofNames true base)).head? ≠ some 46) :
    base <+: place ∧ base ≠ place := by
  obtain ⟨front, has, hbs⟩ := mismatch_eq place base
  rw [lexicallyRelative, isAbsolute_ofNames, isAbsolute_ofNames, if_neg (by simp),
    names_ofNames hplace, names_ofNames hbase] at h
  rcases hrest : mismatch place base with ⟨as, bs⟩
  rw [hrest] at has hbs h
  have hdepth : depth bs = bs.length :=
    depth_plain fun name hn => hbase name (hbs ▸ List.mem_append_right front hn)
  simp only at has hbs h
  cases bs with
  | nil =>
    -- the base is used up
    have hfront : base = front := hbs.trans (List.append_nil front)
    refine ⟨⟨as, by rw [hfront, ← has]⟩, fun heq => ?_⟩
    have hnil : as = [] := by
      have hlen := congrArg List.length has
      rw [← heq, hfront, List.length_append] at hlen
      exact List.length_eq_zero_iff.mp (by omega)
    rw [hnil] at h
    exact h rfl
  | cons b bs =>
    -- a name of the base is left, and so the answer starts with ".."
    have hcount : (depth (b :: bs)).toNat = bs.length + 1 := by
      rw [hdepth]
      rfl
    have hsplit : List.replicate (bs.length + 1) dotDot ++ as =
        dotDot :: (List.replicate bs.length dotDot ++ as) := by
      rw [List.replicate_succ, List.cons_append]
    have hne : ¬(as = [] ∧ b :: bs = []) := fun hand => List.cons_ne_nil b bs hand.2
    have hzero : ¬(depth (b :: bs) = 0 ∧ as.head?.getD [] = []) := fun hand => by
      have := hand.1
      omega
    rw [if_neg hne, if_neg hzero, if_neg (by omega), hcount, hsplit] at h
    refine absurd ?_ h
    cases List.replicate bs.length dotDot ++ as <;> rfl

end Cxx.Paths
