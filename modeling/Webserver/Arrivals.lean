/-
Bytes that arrive after a request is complete. The worker parses the buffer
later than the event thread has tested it, and may find more bytes in it; they
come after the blank line, so that they can only make the body longer.
-/
import Webserver.Body
import Webserver.ContentLength

namespace Cxx

theorem find_append {pat s : Bytes} {n : Nat} (h : find pat s = some n) (t : Bytes) :
    find pat (s ++ t) = some n := by
  induction s generalizing n with
  | nil =>
    simp only [find] at h
    split at h
    · next hp =>
      cases h
      rw [List.isEmpty_iff.mp hp]
      cases t <;> simp [find]
    · cases h
  | cons b s ih =>
    simp only [find, List.cons_append, List.isPrefixOf_iff_prefix] at h ⊢
    split at h
    · next hp =>
      have hp' : pat <+: b :: (s ++ t) := hp.trans (List.prefix_append (b :: s) t)
      rw [if_pos hp', h]
    · next hp =>
      obtain ⟨m, hm, rfl⟩ := Option.map_eq_some_iff.mp h
      -- the pattern lies within `s`, so that the bytes behind do not bring it forward
      have hlength : pat.length ≤ (b :: s).length := by
        obtain ⟨rest, hrest⟩ := find_spec hm
        have := congrArg List.length hrest
        simp only [List.length_append, List.length_cons] at this ⊢
        omega
      have hp' : ¬ pat <+: b :: (s ++ t) := fun hp' =>
        hp (List.prefix_of_prefix_length_le hp' (List.prefix_append (b :: s) t) hlength)
      rw [if_neg hp', ih hm]
      rfl

/-- One more byte: it starts a line, ends one, or is the last of the last. -/
theorem getlines_concat (d : UInt8) (s : Bytes) (b : UInt8) :
    (∃ line, getlines d (s ++ [b]) = getlines d s ++ [line]) ∨ getlines d (s ++ [b]) = getlines d s ∨
      ∃ lines line, getlines d s = lines ++ [line] ∧ getlines d (s ++ [b]) = lines ++ [line ++ [b]] := by
  induction s with
  | nil => exact .inl ⟨_, getlines_singleton d b⟩
  | cons a s ih =>
    by_cases ha : a = d
    · simp only [List.cons_append, getlines, ha, if_true]
      rcases ih with ⟨line, h⟩ | h | ⟨lines, line, h, h'⟩
      · exact .inl ⟨line, by rw [h]⟩
      · exact .inr (.inl (by rw [h]))
      · exact .inr (.inr ⟨[] :: lines, line, by rw [h]; rfl, by rw [h']; rfl⟩)
    cases hs : getlines d s with
    | nil =>
      rw [getlines_eq_nil.mp hs, List.cons_append, List.nil_append, getlines_singleton,
        getlines_cons (getlines_singleton d b), if_neg ha, if_neg ha]
      by_cases hb : b = d
      · exact .inr (.inl (by rw [if_pos hb]))
      · exact .inr (.inr ⟨[], [a], rfl, by rw [if_neg hb]; rfl⟩)
    | cons l ls =>
      rw [List.cons_append, getlines_cons hs, if_neg ha]
      rw [hs] at ih
      rcases ih with ⟨line, h⟩ | h | ⟨lines, line, h, h'⟩
      · exact .inl ⟨line, by rw [getlines_cons h, if_neg ha]; rfl⟩
      · exact .inr (.inl (by rw [getlines_cons h, if_neg ha]))
      · cases lines with
        | nil =>
          obtain ⟨rfl, rfl⟩ := List.cons.inj h
          exact .inr (.inr ⟨[], a :: l, rfl, by rw [getlines_cons h', if_neg ha]; rfl⟩)
        | cons l' lines =>
          obtain ⟨rfl, rfl⟩ := List.cons.inj h
          exact .inr (.inr ⟨(a :: l) :: lines, line, rfl, by rw [getlines_cons h', if_neg ha]; rfl⟩)

end Cxx

namespace Webserver

open Cxx

namespace HttpRequest

theorem parseLine_firstLine (p : ParseState) (line : Bytes) : (parseLine p line).firstLine = false := by
  unfold parseLine
  dsimp only
  split
  · rfl
  · next hf =>
    rw [Bool.not_eq_true] at hf
    repeat' split
    all_goals exact hf

theorem foldl_parseLine_firstLine {p : ParseState} {lines : List Bytes} (hne : lines ≠ []) :
    (lines.foldl parseLine p).firstLine = false := by
  rw [← List.dropLast_append_getLast hne, List.foldl_append]
  exact parseLine_firstLine _ _

theorem parseLine_blank {p : ParseState} (hf : p.firstLine = false) {line : Bytes}
    (hb : stripCr line = []) : (parseLine p line).headersDone = true := by
  unfold parseLine
  rw [hf, hb]
  cases hd : p.headersDone <;> simp

/-- What `parse` has read when it comes to the bytes after the `\r\n\r\n`:
all but the rest of the body. -/
theorem foldl_getlines_head (headers : Bytes) : ∃ p : ParseState, ∀ rest,
    (getlines lf (headers ++ bytes "\r\n\r\n" ++ rest)).foldl parseLine {} =
      { p with body := ((getlines lf rest).map stripCr).foldl addLine p.body } := by
  obtain ⟨pieces, last, -, hlines⟩ := getlines_head headers
  have hf : ((pieces ++ [last ++ [cr]]).foldl parseLine {}).firstLine = false :=
    foldl_parseLine_firstLine (by simp)
  refine ⟨parseLine ((pieces ++ [last ++ [cr]]).foldl parseLine {}) [cr], fun rest => ?_⟩
  rw [hlines, List.append_cons, List.foldl_append, List.foldl_cons]
  exact foldl_bodyLines _ (parseLine_firstLine _ _) (parseLine_blank hf rfl)

theorem length_stripCr_le_concat (line : Bytes) (b : UInt8) :
    (stripCr line).length ≤ (stripCr (line ++ [b])).length := by
  have hle := Message.length_stripCr_le line
  by_cases hb : b = cr
  · rw [hb, stripCr_concat]
    exact hle
  · have hne : (line ++ [b]).getLast? ≠ some cr := by simpa using hb
    rw [stripCr_of_ne hne, List.length_append]
    omega

theorem length_addLine_le (body : Bytes) {line line' : Bytes} (h : line.length ≤ line'.length) :
    (addLine body line).length ≤ (addLine body line').length := by
  unfold addLine
  rw [List.length_append, List.length_append]
  omega

/-- The body does not get shorter. -/
theorem length_body_le_append (acc rest more : Bytes) :
    (((getlines lf rest).map stripCr).foldl addLine acc).length ≤
      (((getlines lf (rest ++ more)).map stripCr).foldl addLine acc).length := by
  induction more generalizing rest with
  | nil => rw [List.append_nil]
  | cons b more ih =>
    rw [← List.singleton_append, ← List.append_assoc]
    refine Nat.le_trans ?_ (ih (rest ++ [b]))
    rcases getlines_concat lf rest b with ⟨line, h⟩ | h | ⟨lines, line, h, h'⟩
    · rw [h, List.map_append, List.foldl_append, List.map_singleton, List.foldl_cons, List.foldl_nil]
      unfold addLine
      split <;> simp only [List.length_append] <;> omega
    · rw [h]
    · rw [h, h', List.map_append, List.map_append, List.foldl_append, List.foldl_append]
      exact length_addLine_le _ (length_stripCr_le_concat line b)

theorem bodyLengthOk_iff (r : HttpRequest) : r.bodyLengthOk = true ↔
    r.getHeader (bytes "content-length") = [] ∨
      ∃ n, stoull (r.getHeader (bytes "content-length")) = some n ∧ n ≤ r.body.length := by
  unfold bodyLengthOk
  dsimp only
  split
  · next hnil => exact ⟨fun _ => .inl hnil, fun _ => rfl⟩
  · next hne =>
    cases hnum : stoull (r.getHeader (bytes "content-length")) with
    | none => simp [hne]
    | some n =>
      simp only [hne, false_or, Option.some.injEq, exists_eq_left']
      split
      · rw [decide_eq_true_eq]
      · exact ⟨fun _ => by omega, fun _ => rfl⟩

/-- A longer body fails no check. -/
theorem isRequestValid_of_length_le {r : HttpRequest} {body : Bytes} (h : r.isRequestValid = true)
    (hle : r.body.length ≤ body.length) : { r with body := body }.isRequestValid = true := by
  have hbody : r.bodyLengthOk = true → { r with body := body }.bodyLengthOk = true := by
    rw [bodyLengthOk_iff, bodyLengthOk_iff]
    rintro (hnil | ⟨n, hn, hlen⟩)
    · exact .inl hnil
    · exact .inr ⟨n, hn, hlen.trans hle⟩
  unfold isRequestValid at h ⊢
  split at h
  · cases h
  next hmethod =>
  split at h
  · cases h
  next hpath =>
  split at h
  · cases h
  next hversion =>
  split at h
  · cases h
  next hcontrol =>
  rw [if_neg hmethod, if_neg hpath, if_neg hversion, if_neg hcontrol]
  split at h
  · next hpost =>
    rw [if_pos hpost]
    exact hbody h
  · next hpost => rw [if_neg hpost]

/-- What was parsed of a request stays as it was when bytes arrive after it. -/
structure Kept (r r' : HttpRequest) : Prop where
  method : r'.method = r.method
  path : r'.path = r.path
  queryString : r'.queryString = r.queryString
  queryParams : r'.queryParams = r.queryParams
  version : r'.version = r.version
  headers : r'.headers = r.headers
  keepAlive : r'.isKeepAlive = r.isKeepAlive
  valid : r.valid = true → r'.valid = true

theorem parse_kept {b : Bytes} {n : Nat} (h : find (bytes "\r\n\r\n") b = some n) (x : Bytes) :
    (parse b).Kept (parse (b ++ x)) := by
  obtain ⟨rest, hb⟩ := find_spec h
  obtain ⟨p, hp⟩ := foldl_getlines_head (b.take n)
  have hne : ∀ rest, b.take n ++ bytes "\r\n\r\n" ++ rest ≠ [] := by
    intro rest hnil
    have := congrArg List.length hnil
    simp [bytes] at this
  have hparse : ∀ rest, parse (b.take n ++ bytes "\r\n\r\n" ++ rest) =
      let r := parseQueryString
        { p.request with body := ((getlines lf rest).map stripCr).foldl addLine p.body }
      { r with valid := r.isRequestValid } := by
    intro rest
    rw [parse, if_neg (hne rest), hp]
  have hvalid : (parse b).valid = true → (parse (b ++ x)).valid = true := by
    rw [hb, List.append_assoc _ rest x, hparse, hparse]
    intro hv
    exact isRequestValid_of_length_le
      (r := parseQueryString
        { p.request with body := ((getlines lf rest).map stripCr).foldl addLine p.body })
      hv (length_body_le_append p.body rest x)
  rw [hb] at hvalid ⊢
  rw [List.append_assoc _ rest x, hparse, hparse] at hvalid ⊢
  exact ⟨rfl, rfl, rfl, rfl, rfl, rfl, rfl, hvalid⟩

end HttpRequest

open HttpRequest

/-- **Later arrivals change nothing**: a complete buffer is complete with more
bytes after it, and is parsed to the same request, but for a longer body. -/
theorem parse_append {b : Bytes} (h : isHttpRequestComplete b = true) (x : Bytes) :
    isHttpRequestComplete (b ++ x) = true ∧ (parse b).Kept (parse (b ++ x)) := by
  cases hf : find (bytes "\r\n\r\n") b with
  | none => simp [isHttpRequestComplete, hf] at h
  | some n =>
    refine ⟨?_, parse_kept hf x⟩
    have hn : n ≤ b.length := by
      obtain ⟨rest, hrest⟩ := find_spec hf
      have := congrArg List.length hrest
      simp only [List.length_append, List.length_take] at this
      have h₄ : (bytes "\r\n\r\n").length = 4 := by decide
      omega
    rw [isHttpRequestComplete, find_append hf x]
    simp only [isHttpRequestComplete, hf, decide_eq_true_eq] at h ⊢
    rw [List.take_append_of_le_length hn, List.length_append]
    omega

/-- The start of the next request comes with the last bytes of this one. -/
theorem parse_append_oneLength : isHttpRequestComplete (oneLength ++ bytes "GET /") = true ∧
    (parse oneLength).Kept (parse (oneLength ++ bytes "GET /")) :=
  parse_append (by decide) (bytes "GET /")

end Webserver
