/-
The head of a message: lines that end in `\r\n`, and a blank line after the
last. The first `\r\n\r\n` of a message is the one that ends its head, and the
head is taken apart into its lines again.
-/
import Webserver.RequestFacts

namespace Cxx

/-- A pattern is not found where its first byte is missing. -/
theorem find_skip {a : UInt8} {pat s : Bytes} (hs : a ∉ s) (t : Bytes) :
    find (a :: pat) (s ++ t) = (find (a :: pat) t).map (· + s.length) := by
  induction s with
  | nil => simp
  | cons b s ih =>
    have hb : a ≠ b := fun h => hs (h ▸ List.mem_cons_self)
    have hnot : ¬ (a :: pat).isPrefixOf (b :: (s ++ t)) = true := by
      rw [List.isPrefixOf_iff_prefix, List.cons_prefix_cons]
      exact fun h => hb h.1
    rw [List.cons_append, find, if_neg hnot, ih fun h => hs (List.mem_cons_of_mem _ h), Option.map_map]
    congr 1

theorem find_prefix (pat s : Bytes) : find pat (pat ++ s) = some 0 := by
  cases pat with
  | nil => cases s <;> rfl
  | cons a pat =>
    have hp : (a :: pat).isPrefixOf (a :: (pat ++ s)) = true :=
      List.isPrefixOf_iff_prefix.mpr (List.prefix_append (a :: pat) s)
    rw [List.cons_append, find, if_pos hp]

end Cxx

namespace Webserver

open Cxx HttpRequest

def crlf : Bytes := [cr, lf]

/-- A line that is not blank, without its line break. -/
structure IsLine (line : Bytes) : Prop where
  ne : line ≠ []
  unbroken : cr ∉ line ∧ lf ∉ line

/-- The lines of a head, without the line break of the last. -/
def headText (first : Bytes) (rest : List Bytes) : Bytes := first ++ rest.flatMap (crlf ++ ·)

theorem find_line {line : Bytes} (h : IsLine line) (t : Bytes) :
    find (bytes "\r\n\r\n") (crlf ++ line ++ t) =
      (find (bytes "\r\n\r\n") t).map (· + (crlf ++ line).length) := by
  have hpat : bytes "\r\n\r\n" = [cr, lf, cr, lf] := by decide
  obtain ⟨c, rest, rfl⟩ := List.exists_cons_of_ne_nil h.ne
  have hc : cr ≠ c := fun hc => h.unbroken.1 (hc ▸ List.mem_cons_self)
  -- the line break before the line is not the first half of a blank line
  have hnot : ¬ [cr, lf, cr, lf].isPrefixOf (cr :: lf :: (c :: rest ++ t)) = true := by
    rw [List.isPrefixOf_iff_prefix]
    simp only [List.cons_append, List.cons_prefix_cons]
    exact fun h => hc h.2.2.1
  have hnot' : ¬ [cr, lf, cr, lf].isPrefixOf (lf :: (c :: rest ++ t)) = true := by
    rw [List.isPrefixOf_iff_prefix, List.cons_prefix_cons]
    exact fun h => absurd h.1 (by decide)
  have hsplit : crlf ++ c :: rest ++ t = cr :: lf :: (c :: rest ++ t) := rfl
  rw [hpat, hsplit, find, if_neg hnot, find, if_neg hnot', find_skip h.unbroken.1, Option.map_map,
    Option.map_map]
  congr 1

theorem find_lines {rest : List Bytes} (h : ∀ line ∈ rest, IsLine line) (t : Bytes) :
    find (bytes "\r\n\r\n") (rest.flatMap (crlf ++ ·) ++ (bytes "\r\n\r\n" ++ t)) =
      some (rest.flatMap (crlf ++ ·)).length := by
  induction rest with
  | nil => exact find_prefix _ t
  | cons line rest ih =>
    rw [List.flatMap_cons, List.append_assoc, find_line (h line List.mem_cons_self),
      ih fun l hl => h l (List.mem_cons_of_mem _ hl), @List.length_append _ (crlf ++ line)]
    exact congrArg some (Nat.add_comm _ _)

theorem find_headText {first : Bytes} {rest : List Bytes} (hf : IsLine first)
    (h : ∀ line ∈ rest, IsLine line) (t : Bytes) :
    find (bytes "\r\n\r\n") (headText first rest ++ bytes "\r\n\r\n" ++ t) =
      some (headText first rest).length := by
  have hpat : bytes "\r\n\r\n" = [cr, lf, cr, lf] := by decide
  have hskip : find (cr :: [lf, cr, lf]) (first ++ (rest.flatMap (crlf ++ ·) ++ (bytes "\r\n\r\n" ++ t))) = _ :=
    find_skip hf.unbroken.1 _
  rw [← hpat, find_lines h] at hskip
  rw [headText, List.append_assoc, List.append_assoc, hskip, List.length_append]
  exact congrArg some (Nat.add_comm _ _)

/-- The lines of a head, with their carriage returns stripped. -/
theorem stripCr_getlines {first : Bytes} {rest : List Bytes} (hf : IsLine first)
    (h : ∀ line ∈ rest, IsLine line) : (getlines lf (headText first rest)).map stripCr = first :: rest := by
  have hlast : ∀ line : Bytes, cr ∉ line → stripCr line = line := fun line hcr =>
    stripCr_of_ne fun he => hcr (List.mem_of_getLast? he)
  induction rest generalizing first with
  | nil =>
    have hsingle : getlines lf first = [first] := by
      have hsplit := splitOn_eq_getlines lf first
      rw [List.splitOn_eq_singleton hf.unbroken.2, if_neg] at hsplit
      · rw [List.append_nil] at hsplit
        exact hsplit.symm
      · rintro (hnil | he)
        · exact hf.ne hnil
        · exact hf.unbroken.2 (List.mem_of_getLast? he)
    rw [headText, List.flatMap_nil, List.append_nil, hsingle, List.map_singleton,
      hlast first hf.unbroken.1]
  | cons next rest ih =>
    have hlf : lf ∉ first ++ [cr] := by
      simp only [List.mem_append, List.mem_singleton, not_or]
      exact ⟨hf.unbroken.2, by decide⟩
    have hsplit : headText first (next :: rest) = (first ++ [cr]) ++ lf :: headText next rest := by
      simp [headText, crlf]
    rw [hsplit, getlines_line hlf, List.map_cons, stripCr_concat,
      ih (h next List.mem_cons_self) fun l hl => h l (List.mem_cons_of_mem _ hl)]

end Webserver
