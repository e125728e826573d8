/-
What the path check rejects: the test for ".." is one for a substring, and so
it takes a name with two periods in it for the parent directory.
-/
import Webserver.Serving

namespace Cxx

theorem find_eq_none {pat s : Bytes} : find pat s = none ↔ ¬pat <:+: s := by
  induction s with
  | nil => cases pat <;> simp [find]
  | cons b s ih =>
    rw [find, List.infix_cons_iff]
    by_cases hpre : pat <+: b :: s
    · simp [hpre]
    · simp [hpre, ih]

/-- What starts before a separator it does not contain also ends before it. -/
theorem prefix_of_prefix_separated {sep : UInt8} {pat s t : Bytes} (hpat : sep ∉ pat)
    (h : pat <+: s ++ sep :: t) : pat <+: s := by
  rcases Nat.lt_or_ge s.length pat.length with hlt | hle
  · have hsep : s ++ [sep] <+: s ++ sep :: t := ⟨t, by simp⟩
    have hmem := (List.prefix_of_prefix_length_le hsep h (by simpa using hlt)).subset
      (List.mem_append_right s List.mem_cons_self)
    exact absurd hmem hpat
  · exact List.prefix_of_prefix_length_le h (List.prefix_append ..) hle

theorem infix_separated {sep : UInt8} {pat s t : Bytes} (hpat : sep ∉ pat) :
    pat <:+: s ++ sep :: t ↔ pat <:+: s ∨ pat <:+: t := by
  induction s with
  | nil =>
    rw [List.nil_append, List.infix_cons_iff, List.infix_nil]
    refine or_congr_left ⟨fun h => ?_, fun h => h ▸ List.nil_prefix⟩
    exact List.prefix_nil.mp (prefix_of_prefix_separated hpat h)
  | cons b s ih =>
    rw [List.cons_append, List.infix_cons_iff, ih, List.infix_cons_iff, or_assoc]
    refine or_congr_left ⟨fun h => ?_, fun h => h.trans (List.prefix_append (b :: s) _)⟩
    exact prefix_of_prefix_separated hpat h

/-- A string without the separator is found in joined ones exactly if it is
found in one of them. -/
theorem infix_intercalate {sep : UInt8} {pat : Bytes} (hpat : sep ∉ pat) (hne : pat ≠ []) (l : List Bytes) :
    pat <:+: [sep].intercalate l ↔ ∃ s ∈ l, pat <:+: s := by
  induction l with
  | nil => simp [hne]
  | cons a l ih =>
    cases l with
    | nil => simp
    | cons b l =>
      have hjoin : [sep].intercalate (a :: b :: l) = a ++ sep :: [sep].intercalate (b :: l) := by
        rw [List.intercalate_cons_cons, List.append_assoc, List.singleton_append]
      rw [hjoin, infix_separated hpat, ih]
      simp

namespace Paths

theorem mismatch_append (base rest : List Bytes) : mismatch (base ++ rest) base = (rest, []) := by
  induction base with
  | nil => cases rest <;> rfl
  | cons a base ih => rw [List.cons_append, mismatch, if_pos rfl, ih]

/-- The relative path to a place strictly beneath. -/
theorem lexicallyRelative_append {base rest : List Bytes} (h : ∀ name ∈ base ++ rest, Plain name)
    (hne : rest ≠ []) :
    lexicallyRelative (ofNames true (base ++ rest)) (ofNames true base) = ofNames false rest := by
  have hbase : ∀ name ∈ base, Plain name := fun name hn => h name (List.mem_append_left rest hn)
  have hfirst : rest.head?.getD [] ≠ [] := by
    cases rest with
    | nil => exact absurd rfl hne
    | cons a rest => exact (h a (List.mem_append_right base List.mem_cons_self)).ne_nil
  rw [lexicallyRelative, isAbsolute_ofNames, isAbsolute_ofNames, if_neg (by simp), names_ofNames h,
    names_ofNames hbase, mismatch_append]
  simp [hne, hfirst, depth]

theorem head?_ofNames {a : Bytes} (ha : a ≠ []) (rest : List Bytes) :
    (ofNames false (a :: rest)).head? = a.head? := by
  cases rest with
  | nil => simp [ofNames]
  | cons b rest =>
    rw [ofNames, List.intercalate_cons_cons]
    cases a with
    | nil => exact absurd rfl ha
    | cons c a => rfl

end Paths

end Cxx

namespace Webserver

open Cxx

namespace FileHandler

/-- The names lead from the root to the path, and the first does not start
with a period. -/
structure Legitimate (h : FileHandler) (fs : FileSystem) (path first : Bytes) (names : List Bytes) : Prop where
  beneath : ∃ base, fs.resolve h.documentRoot = .ok base ∧ fs.resolve path = .ok (base ++ first :: names)
  visible : first.head? ≠ some 46

variable {h : FileHandler} {fs : FileSystem} {path first : Bytes} {names : List Bytes}

/-- **What is safe beneath the root**: the names without two periods in a row. -/
theorem Legitimate.isSafePath_iff (hl : h.Legitimate fs path first names) :
    h.isSafePath fs path = true ↔ ∀ name ∈ first :: names, ¬bytes ".." <:+: name := by
  obtain ⟨⟨base, hbase, hp⟩, hvisible⟩ := hl
  have hplain := (FileSystem.resolve_settled hp).plain
  have hfirst := (hplain first (List.mem_append_right base List.mem_cons_self)).ne_nil
  have hrelative := Paths.lexicallyRelative_append hplain (List.cons_ne_nil first names)
  have hhead := Paths.head?_ofNames hfirst names
  have hne : Paths.ofNames false (first :: names) ≠ [] := fun hnil => by
    rw [hnil] at hhead
    exact hfirst (List.head?_eq_none_iff.mp hhead.symm)
  have hfind : find (bytes "..") (Paths.ofNames false (first :: names)) = none ↔
      ∀ name ∈ first :: names, ¬bytes ".." <:+: name := by
    rw [find_eq_none, Paths.ofNames, if_neg (by simp), List.nil_append,
      infix_intercalate (by decide) (by decide)]
    simp only [not_exists, not_and]
  rw [isSafePath_of_resolve hbase hp]
  simp only [hrelative, hhead, hfind]
  exact ⟨fun hand => hand.2.2, fun hnames => ⟨hne, hvisible, hnames⟩⟩

/-- The check accepts what is legitimate, and nothing else that exists, exactly
if no name on the legitimate way has two periods in a row. -/
theorem checks_iff (h : FileHandler) (fs : FileSystem) (path : Bytes) :
    ((∀ first names, h.Legitimate fs path first names → h.isSafePath fs path = true) ∧
      ((∃ p, fs.resolve path = .ok p) → ¬fs.Beneath h.documentRoot path → h.isSafePath fs path = false)) ↔
    ∀ first names, h.Legitimate fs path first names → ∀ name ∈ first :: names, ¬bytes ".." <:+: name := by
  have hout : (∃ p, fs.resolve path = .ok p) → ¬fs.Beneath h.documentRoot path →
      h.isSafePath fs path = false := by
    rintro ⟨p, hp⟩ hnot
    exact Bool.eq_false_iff.mpr fun hsafe => hnot (beneath_of_isSafePath hsafe hp)
  constructor
  · intro hand first names hl
    exact hl.isSafePath_iff.mp (hand.1 first names hl)
  · intro hnames
    exact ⟨fun first names hl => hl.isSafePath_iff.mpr (hnames first names hl), hout⟩

/-- The directory `public` with the file `a..b`. -/
def twoPeriods : FileSystem where
  root := .directory true
    [(bytes "srv", .directory true [(bytes "public", .directory true [(bytes "a..b", .regular [] true)])])]
  cwd := [bytes "srv"]
  linkMax := 40
  root_directory := rfl
  cwd_directory := by simp [Node.lookup, Node.isDirectory]
  cwd_plain := Serving.srv_plain

/-- The file `a..b` beneath the root is refused. -/
theorem not_checks_twoPeriods :
    (FileHandler.make (bytes "./public") (bytes "index.html") true 100).Legitimate twoPeriods
      (bytes "./public/a..b") (bytes "a..b") [] ∧
    (FileHandler.make (bytes "./public") (bytes "index.html") true 100).isSafePath twoPeriods
      (bytes "./public/a..b") = false := by
  refine ⟨⟨⟨[bytes "srv", bytes "public"], ?_, ?_⟩, by decide⟩, ?_⟩ <;> decide +kernel

end FileHandler

end Webserver
