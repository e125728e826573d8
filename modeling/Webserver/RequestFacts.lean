/-
What `HttpRequest::parse` makes of its lines: the request line, the header
lines up to the first blank one, and the body put together from the rest.
-/
import Webserver.HttpRequest

namespace Cxx

/-! ## Lines -/

theorem getlines_append_cons (d : UInt8) (s t : Bytes) :
    getlines d (s ++ d :: t) = s.splitOn d ++ getlines d t := by
  induction s with
  | nil => simp [getlines]
  | cons b s ih =>
    rw [List.cons_append, getlines, List.splitOn_cons_eq_if_modifyHead]
    by_cases hb : b = d
    · simp [hb, ih]
    · simp only [hb, beq_iff_eq, if_false, ih]
      cases hs : s.splitOn d with
      | nil => exact absurd hs (List.splitOn_ne_nil d s)
      | cons l ls => rfl

/-- A line with its end. -/
theorem getlines_line {d : UInt8} {s : Bytes} (h : d ∉ s) (t : Bytes) :
    getlines d (s ++ d :: t) = s :: getlines d t := by
  rw [getlines_append_cons, List.splitOn_eq_singleton h]
  rfl

theorem getlines_eq_nil {d : UInt8} {s : Bytes} : getlines d s = [] ↔ s = [] := by
  constructor
  · intro h
    cases s with
    | nil => rfl
    | cons b s =>
      rw [getlines] at h
      split at h
      · cases h
      · split at h <;> cases h
  · intro h
    rw [h, getlines]

/-- `getline` yields all pieces but an empty last one. -/
theorem splitOn_eq_getlines (d : UInt8) (s : Bytes) :
    s.splitOn d = getlines d s ++ if s = [] ∨ s.getLast? = some d then [[]] else [] := by
  induction s with
  | nil => rfl
  | cons b s ih =>
    rw [getlines, List.splitOn_cons_eq_if_modifyHead, ih]
    by_cases hs : s = []
    · subst hs
      by_cases hb : b = d <;> simp [getlines, hb]
    · have hlast : (b :: s).getLast? = s.getLast? := List.getLast?_cons_of_ne_nil hs
      have hne : b :: s ≠ [] := List.cons_ne_nil b s
      simp only [hlast, hne, hs, false_or, beq_iff_eq]
      by_cases hb : b = d
      · simp [hb]
      · simp only [hb, if_false]
        cases hl : getlines d s with
        | nil => exact absurd (getlines_eq_nil.mp hl) hs
        | cons l ls => rfl

theorem cut_cons {c : UInt8} {s : Bytes} (h : c ∉ s) (t : Bytes) : cut c (s ++ c :: t) = some (s, t) := by
  induction s with
  | nil => simp [cut]
  | cons b s ih =>
    have hb : b ≠ c := fun hb => h (by simp [hb])
    simp only [List.cons_append, cut, hb, if_false, ih fun hm => h (List.mem_cons_of_mem _ hm)]
    rfl

end Cxx

namespace Webserver.HttpRequest

open Cxx

@[simp] theorem stripCr_nil : stripCr [] = [] := rfl

@[simp] theorem stripCr_concat (line : Bytes) : stripCr (line ++ [cr]) = line := by simp [stripCr]

theorem stripCr_of_ne {line : Bytes} (h : line.getLast? ≠ some cr) : stripCr line = line := by
  simp [stripCr, h]

/-- A blank line is empty or one `\r`. -/
theorem stripCr_eq_nil {line : Bytes} : stripCr line = [] ↔ line = [] ∨ line = [cr] := by
  constructor
  · intro h
    unfold stripCr at h
    split at h
    · next hlast =>
      obtain ⟨l, rfl⟩ := List.getLast?_eq_some_iff.mp hlast
      rw [List.dropLast_concat] at h
      exact .inr (by simp [h])
    · exact .inl h
  · intro h
    rcases h with rfl | rfl <;> rfl

/-! ## The loop over the lines -/

/-- A body line is added, after a newline if it is not the first. -/
def addLine (body line : Bytes) : Bytes := (if body ≠ [] then body ++ [lf] else body) ++ line

theorem foldl_headerLines {p : ParseState} {lines : List Bytes} (hf : p.firstLine = false)
    (hd : p.headersDone = false) (hl : ∀ line ∈ lines, stripCr line ≠ []) :
    lines.foldl parseLine p =
      { p with request := (lines.map stripCr).foldl parseHeaderLine p.request } := by
  induction lines generalizing p with
  | nil => rfl
  | cons line lines ih =>
    have hline : parseLine p line = { p with request := p.request.parseHeaderLine (stripCr line) } := by
      simp [parseLine, hf, hd, hl line (by simp)]
    rw [List.foldl_cons, hline]
    exact ih (p := { p with request := p.request.parseHeaderLine (stripCr line) }) hf hd
      fun l h => hl l (List.mem_cons_of_mem _ h)

theorem foldl_bodyLines {p : ParseState} (lines : List Bytes) (hf : p.firstLine = false)
    (hd : p.headersDone = true) :
    lines.foldl parseLine p = { p with body := (lines.map stripCr).foldl addLine p.body } := by
  induction lines generalizing p with
  | nil => rfl
  | cons line lines ih =>
    have hline : parseLine p line = { p with body := addLine p.body (stripCr line) } := by
      simp [parseLine, hf, hd, addLine]
    rw [List.foldl_cons, hline]
    exact ih (p := { p with body := addLine p.body (stripCr line) }) hf hd

/-- The request line, the header lines before the first blank line, and the
lines after it. -/
theorem foldl_parseLine (first : Bytes) (headers rest : List Bytes) {blank : Bytes}
    (hl : ∀ line ∈ headers, stripCr line ≠ []) (hb : stripCr blank = []) :
    (first :: (headers ++ blank :: rest)).foldl parseLine {} =
      { request := (headers.map stripCr).foldl parseHeaderLine
          (parseRequestLine {} (stripCr first)),
        firstLine := false, headersDone := true, body := (rest.map stripCr).foldl addLine [] } := by
  have hfirst : parseLine {} first =
      { request := parseRequestLine {} (stripCr first), firstLine := false } := rfl
  rw [List.foldl_cons, hfirst, List.foldl_append, foldl_headerLines rfl rfl hl, List.foldl_cons]
  have hblank : ∀ r : HttpRequest, parseLine { request := r, firstLine := false } blank =
      { request := r, firstLine := false, headersDone := true } := by
    intro r
    simp [parseLine, hb]
  rw [hblank, foldl_bodyLines rest rfl rfl]

/-- The header lines of a request: those before the first blank line. -/
def headerLines (raw : Bytes) : List Bytes :=
  (((getlines lf raw).drop 1).map stripCr).takeWhile (· ≠ [])

theorem foldl_parseLine_headers (first : Bytes) (lines : List Bytes) :
    ((first :: lines).foldl parseLine {}).request =
      ((lines.map stripCr).takeWhile (· ≠ [])).foldl parseHeaderLine
        (parseRequestLine {} (stripCr first)) := by
  have hsplit := List.takeWhile_append_dropWhile (p := fun l => stripCr l ≠ []) (l := lines)
  have htake : (lines.map stripCr).takeWhile (· ≠ []) =
      (lines.takeWhile fun l => stripCr l ≠ []).map stripCr := by
    rw [List.takeWhile_map]
    rfl
  have hall : ∀ line ∈ lines.takeWhile fun l => stripCr l ≠ [], stripCr line ≠ [] := by
    intro line hline
    simpa using List.mem_takeWhile_imp hline
  rw [htake]
  cases hdrop : lines.dropWhile fun l => stripCr l ≠ [] with
  | nil =>
    rw [hdrop, List.append_nil] at hsplit
    rw [← hsplit] at hall ⊢
    simp only [hsplit] at hall ⊢
    rw [List.foldl_cons, foldl_headerLines rfl rfl hall]
    rfl
  | cons blank rest =>
    have hblank : stripCr blank = [] := by
      have := List.head?_dropWhile_not (fun l => decide (stripCr l ≠ [])) lines
      rw [hdrop] at this
      simpa using this
    rw [← hsplit, hdrop]
    conv_lhs => rw [foldl_parseLine first _ rest hall hblank]
    rw [← hdrop, hsplit]

/-! ## Header values -/

/-- The value of a header line with the given name. -/
def headerValue (name line : Bytes) : Option Bytes :=
  (splitHeader line).bind fun (n, value) => if n = name then some value else none

/-- A later header of the same name replaces an earlier one. -/
theorem lookup_foldl_parseHeaderLine (r : HttpRequest) (lines : List Bytes) (name : Bytes) :
    (lines.foldl parseHeaderLine r).headers.lookup name =
      ((lines.filterMap (headerValue name)).getLast?).or (r.headers.lookup name) := by
  induction lines generalizing r with
  | nil => rfl
  | cons line lines ih =>
    rw [List.foldl_cons, ih, List.filterMap_cons]
    cases hs : splitHeader line with
    | none => simp [parseHeaderLine, headerValue, hs]
    | some p =>
      obtain ⟨n, value⟩ := p
      by_cases hn : n = name
      · have hv : headerValue name line = some value := by simp [headerValue, hs, hn]
        simp only [parseHeaderLine, hs, hv, hn, AList.lookup_insert]
        cases hl : lines.filterMap (headerValue name) with
        | nil => rfl
        | cons v vs =>
          rw [List.getLast?_cons_cons]
          cases hg : (v :: vs).getLast? with
          | none => simp at hg
          | some u => rfl
      · have hv : headerValue name line = none := by simp [headerValue, hs, hn]
        simp only [parseHeaderLine, hs, hv]
        rw [AList.lookup_insert_ne (Ne.symm hn)]

/-- The header lines change nothing but the headers. -/
theorem foldl_parseHeaderLine (r : HttpRequest) (lines : List Bytes) :
    lines.foldl parseHeaderLine r =
      { r with headers := (lines.foldl parseHeaderLine r).headers } := by
  induction lines generalizing r with
  | nil => rfl
  | cons line lines ih =>
    rw [List.foldl_cons, ih]
    unfold parseHeaderLine
    split <;> rfl

@[simp] theorem parseRequestLine_headers (r : HttpRequest) (line : Bytes) :
    (r.parseRequestLine line).headers = r.headers := by
  unfold parseRequestLine
  split <;> rfl

/-- `get_header` after `parse`: the value of the last header line of that
name before the first blank line. -/
theorem getHeader_parse (raw name : Bytes) :
    (parse raw).getHeader name =
      (((headerLines raw).filterMap (headerValue (lower name))).getLast?).getD [] := by
  by_cases hraw : raw = []
  · subst hraw
    rfl
  · have hheaders : (parse raw).headers = ((getlines lf raw).foldl parseLine {}).request.headers := by
      simp [parse, hraw, parseQueryString]
    rw [getHeader, hheaders, headerLines]
    cases hlines : getlines lf raw with
    | nil => rfl
    | cons first lines =>
      rw [foldl_parseLine_headers, lookup_foldl_parseHeaderLine, parseRequestLine_headers]
      simp

/-! ## The first line -/

theorem cut_fst (c : UInt8) (s query : Bytes) :
    ((cut c s).getD (s, query)).1 = s.takeWhile (· ≠ c) := by
  induction s with
  | nil => rfl
  | cons b s ih =>
    by_cases hb : b = c
    · simp [cut, hb]
    · cases hcut : cut c s with
      | none =>
        rw [hcut] at ih
        simpa [cut, hb, hcut] using ih
      | some p =>
        rw [hcut] at ih
        simpa [cut, hb, hcut] using ih

/-- What is read of the first line stays as it is. -/
theorem parse_firstLine {raw first : Bytes} {lines : List Bytes} (h : getlines lf raw = first :: lines) :
    (parse raw).method = (parseRequestLine {} (stripCr first)).method ∧
    (parse raw).path = (parseRequestLine {} (stripCr first)).path ∧
    (parse raw).version = (parseRequestLine {} (stripCr first)).version := by
  have hne : raw ≠ [] := by
    rintro rfl
    cases h
  have hloop : ((getlines lf raw).foldl parseLine {}).request =
      { parseRequestLine {} (stripCr first) with
        headers := ((getlines lf raw).foldl parseLine {}).request.headers } := by
    rw [h, foldl_parseLine_headers]
    exact foldl_parseHeaderLine _ _
  rw [parse, if_neg hne]
  simp only [parseQueryString]
  rw [hloop]
  exact ⟨rfl, rfl, rfl⟩

/-- The path of a request is that of its first line. -/
theorem path_parse {raw first : Bytes} {lines : List Bytes} (h : getlines lf raw = first :: lines) :
    (parse raw).path = (parseRequestLine {} (stripCr first)).path := (parse_firstLine h).2.1

end Webserver.HttpRequest
