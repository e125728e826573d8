/-
The two readers of `Content-Length`. The framing scan takes the first header
line of that name and stops at an empty line; the parser takes the last one
and stops at a blank line, be it empty or one `\r`. Of one line both read the
same number.
-/
import Webserver.Framing
import Webserver.RequestFacts

namespace Cxx

theorem find_spec {pat s : Bytes} {n : Nat} (h : find pat s = some n) :
    ∃ rest, s = s.take n ++ pat ++ rest := by
  induction s generalizing n with
  | nil =>
    simp only [find] at h
    split at h
    · next hp =>
      cases h
      exact ⟨[], by simp [List.isEmpty_iff.mp hp]⟩
    · cases h
  | cons b s ih =>
    simp only [find] at h
    split at h
    · next hp =>
      cases h
      obtain ⟨rest, hrest⟩ := List.isPrefixOf_iff_prefix.mp hp
      exact ⟨rest, by simp [hrest]⟩
    · obtain ⟨m, hm, rfl⟩ := Option.map_eq_some_iff.mp h
      obtain ⟨rest, hrest⟩ := ih hm
      exact ⟨rest, by rw [List.take_succ_cons, List.cons_append, List.cons_append, ← hrest]⟩

/-- White space after a number changes nothing. -/
theorem stoull_concat_space {b : UInt8} (hb : isSpace b = true) (s : Bytes) :
    stoull (s ++ [b]) = stoull s := by
  have hdigit : isDigit b = false := by
    simp only [isSpace, isDigit, Bool.or_eq_true, Bool.and_eq_true, beq_iff_eq, decide_eq_true_eq,
      Bool.and_eq_false_iff, decide_eq_false_iff_not] at hb ⊢
    rcases hb with rfl | ⟨-, h⟩
    · exact .inl (by decide)
    · exact .inl fun h' => absurd (UInt8.le_trans h' h) (by decide)
  have htake : ∀ t : Bytes, (t ++ [b]).takeWhile isDigit = t.takeWhile isDigit := by
    intro t
    induction t with
    | nil => simp [hdigit]
    | cons a t ih =>
      simp only [List.cons_append, List.takeWhile_cons, ih]
  by_cases hall : ∀ a ∈ s, isSpace a = true
  · have h₁ : s.dropWhile isSpace = [] := List.dropWhile_eq_nil_iff.mpr hall
    have h₂ : (s ++ [b]).dropWhile isSpace = [] := by
      refine List.dropWhile_eq_nil_iff.mpr fun a ha => ?_
      rcases List.mem_append.mp ha with ha | ha
      · exact hall a ha
      · exact List.mem_singleton.mp ha ▸ hb
    simp only [stoull, h₁, h₂]
  · have hne : s.dropWhile isSpace ≠ [] := by
      rw [Ne, List.dropWhile_eq_nil_iff]
      exact hall
    have hdrop : (s ++ [b]).dropWhile isSpace = s.dropWhile isSpace ++ [b] := by
      rw [List.dropWhile_append, if_neg (by simpa using hne)]
    obtain ⟨a, t, hs⟩ := List.exists_cons_of_ne_nil hne
    have hhead : (a :: t ++ [b]).head? = (a :: t).head? := rfl
    have hsign : ∀ c : Bool, (if c then (a :: t ++ [b]).tail else a :: t ++ [b]) =
        (if c then (a :: t).tail else a :: t) ++ [b] := by
      intro c
      cases c <;> rfl
    simp only [stoull, hdrop, hs]
    rw [hhead, hsign, htake]

theorem stoull_append_space {s t : Bytes} (ht : ∀ b ∈ t, isSpace b = true) :
    stoull (s ++ t) = stoull s := by
  induction t generalizing s with
  | nil => rw [List.append_nil]
  | cons b t ih =>
    rw [← List.append_cons s b t |>.symm, ih fun b' hb' => ht b' (List.mem_cons_of_mem _ hb'),
      stoull_concat_space (ht b List.mem_cons_self)]

theorem isSpace_of_isBlank {b : UInt8} (h : isBlank b = true) : isSpace b = true := by
  simp only [isBlank, Bool.or_eq_true, beq_iff_eq] at h
  rcases h with rfl | rfl <;> decide

theorem stoull_trimRight (s : Bytes) : stoull (trimRight s) = stoull s := by
  have hs := List.rdropWhile_append_rtakeWhile (p := isBlank) (l := s)
  conv_rhs => rw [← hs]
  refine (stoull_append_space fun b hb => ?_).symm
  exact isSpace_of_isBlank (List.mem_rtakeWhile_imp hb)

/-- More bytes in the last piece. -/
theorem splitOn_append {d : UInt8} {s t last : Bytes} {pieces : List Bytes}
    (h : s.splitOn d = pieces ++ [last]) (ht : d ∉ t) :
    (s ++ t).splitOn d = pieces ++ [last ++ t] := by
  induction s generalizing pieces last with
  | nil =>
    obtain ⟨hp, hl⟩ := List.append_inj' (h.symm.trans (List.nil_append [[]]).symm) rfl
    obtain rfl : last = [] := (List.cons.inj hl).1
    rw [hp, List.nil_append, List.splitOn_eq_singleton ht]
    rfl
  | cons b s ih =>
    obtain ⟨pieces', last', hs⟩ : ∃ pieces' last', s.splitOn d = pieces' ++ [last'] :=
      ⟨_, _, (List.dropLast_append_getLast (List.splitOn_ne_nil d s)).symm⟩
    rw [List.splitOn_cons_eq_if_modifyHead, hs] at h
    rw [List.cons_append, List.splitOn_cons_eq_if_modifyHead, ih hs]
    split
    · next hb =>
      rw [if_pos hb, ← List.cons_append] at h
      obtain ⟨hp, hl⟩ := List.append_inj' h rfl
      rw [← hp, ← (List.cons.inj hl).1, List.cons_append]
    · next hb =>
      rw [if_neg hb] at h
      cases pieces' with
      | nil =>
        obtain ⟨hp, hl⟩ := @List.append_inj' _ [] _ _ _ h rfl
        rw [← hp, ← (List.cons.inj hl).1]
        rfl
      | cons piece pieces' =>
        obtain ⟨hp, hl⟩ := @List.append_inj' _ ((b :: piece) :: pieces') _ _ _ h rfl
        rw [← hp, ← (List.cons.inj hl).1]
        rfl

/-- The splitting byte is searched from the front. -/
theorem cut_append {c : UInt8} {s : Bytes} (t : Bytes) (h : c ∉ t) :
    cut c (s ++ t) = (cut c s).map fun p => (p.1, p.2 ++ t) := by
  induction s with
  | nil =>
    induction t with
    | nil => rfl
    | cons b t ih =>
      have hb : b ≠ c := fun hb => h (by simp [hb])
      have := ih fun hm => h (List.mem_cons_of_mem _ hm)
      simp only [List.nil_append] at this ⊢
      simp [cut, hb, this]
  | cons b s ih =>
    by_cases hb : b = c
    · simp [cut, hb]
    · simp only [List.cons_append, cut, hb, if_false, ih, Option.map_map]
      rfl

end Cxx

namespace Webserver

open Cxx HttpRequest

/-! ## One line -/

def contentLengthName : Bytes := bytes "content-length"

/-- A `\r` more at the end of a header line changes no number. -/
theorem headerValue_concat_cr (name line : Bytes) :
    (headerValue name (line ++ [cr])).map stoull = (headerValue name line).map stoull := by
  have hcut : cut 58 (line ++ [cr]) = (cut 58 line).map fun p => (p.1, p.2 ++ [cr]) :=
    cut_append [cr] (by decide)
  simp only [headerValue, splitHeader, hcut]
  cases hline : cut 58 line with
  | none => rfl
  | some p =>
    obtain ⟨n, value⟩ := p
    simp only [Option.map_some, Option.bind_some]
    split
    · -- the trimmed value is followed by the carriage return, after blanks perhaps
      have htrim : trimRight (trimLeft (value ++ [cr])) = trimLeft value ++ [cr] := by
        have hleft : trimLeft (value ++ [cr]) = trimLeft value ++ [cr] := by
          simp only [trimLeft, List.dropWhile_append]
          split
          · next hnil =>
            rw [List.isEmpty_iff] at hnil
            rw [hnil]
            rfl
          · rfl
        rw [hleft, trimRight, List.rdropWhile_concat_neg _ _ _ (by decide)]
      simp only [Option.map_some, htrim]
      rw [stoull_concat_space (by decide), stoull_trimRight]
    · rfl

theorem headerValue_nil (name : Bytes) : headerValue name [] = none := rfl

/-- Whether the last line still ends in `\r` or not. -/
theorem headerValue_stripCr (name line : Bytes) :
    (headerValue name (stripCr line)).map stoull = (headerValue name line).map stoull := by
  unfold stripCr
  split
  · next hlast =>
    obtain ⟨l, rfl⟩ := List.getLast?_eq_some_iff.mp hlast
    rw [List.dropLast_concat]
    exact (headerValue_concat_cr name l).symm
  · rfl

/-! ## The lines -/

/-- The header lines the framing scan reads, `headers` being the bytes before
the first `\r\n\r\n`. -/
def scannedLines (headers : Bytes) : List Bytes :=
  ((getlines lf headers).drop 1).takeWhile (· ≠ [])

/-- The `Content-Length` values in some lines. -/
def lengths (lines : List Bytes) : List Bytes :=
  (lines.map stripCr).filterMap (headerValue contentLengthName)

/-- The scan's lines before the first that is one `\r`, which ends the
headers for the parser. -/
def linesBefore (headers : Bytes) : List Bytes := (scannedLines headers).takeWhile (· ≠ [cr])

def linesAfter (headers : Bytes) : List Bytes := (scannedLines headers).dropWhile (· ≠ [cr])

theorem scanContentLength_eq (lines : List Bytes) :
    scanContentLength lines = (lengths (lines.takeWhile (· ≠ []))).head?.bind stoull := by
  induction lines with
  | nil => rfl
  | cons line lines ih =>
    rw [scanContentLength]
    by_cases hline : line = []
    · simp [hline, lengths]
    · simp only [hline, if_false, ne_eq, decide_not, List.takeWhile_cons, decide_false,
        Bool.not_false, if_true, lengths, List.map_cons, List.filterMap_cons]
      cases hs : splitHeader (stripCr line) with
      | none =>
        have hv : headerValue contentLengthName (stripCr line) = none := by simp [headerValue, hs]
        simp only [hv, ih, lengths, ne_eq, decide_not]
      | some p =>
        obtain ⟨name, value⟩ := p
        by_cases hn : name = contentLengthName
        · have hv : headerValue contentLengthName (stripCr line) = some value := by
            simp [headerValue, hs, hn]
          have hn' : name = bytes "content-length" := hn
          simp [hv, hn']
        · have hv : headerValue contentLengthName (stripCr line) = none := by
            simp [headerValue, hs, hn]
          have hn' : name ≠ bytes "content-length" := hn
          simp only [hv, hn', if_false, ih, lengths, ne_eq, decide_not]

theorem framedLength_eq (headers : Bytes) :
    framedLength headers =
      (lengths (linesBefore headers) ++ lengths (linesAfter headers)).head?.bind stoull := by
  have happ : lengths (linesBefore headers) ++ lengths (linesAfter headers) =
      lengths (scannedLines headers) := by
    rw [lengths, lengths, ← List.filterMap_append, ← List.map_append, linesBefore, linesAfter,
      List.takeWhile_append_dropWhile]
    rfl
  rw [happ, framedLength, scanContentLength_eq]
  rfl

/-- Not blank: neither empty nor one `\r`. -/
theorem takeWhile_blank (lines : List Bytes) :
    (lines.takeWhile (· ≠ [])).takeWhile (· ≠ [cr]) = lines.takeWhile fun l => stripCr l ≠ [] := by
  rw [List.takeWhile_takeWhile]
  congr 1
  funext line
  have : stripCr line = [] ↔ line = [] ∨ line = [cr] := stripCr_eq_nil
  by_cases h : line = [] <;> by_cases h' : line = [cr] <;> simp_all

/-- The numbers in some header lines. -/
def numbers (lines : List Bytes) : List (Option Nat) :=
  (lines.filterMap (headerValue contentLengthName)).map stoull

theorem numbers_append (lines lines' : List Bytes) :
    numbers (lines ++ lines') = numbers lines ++ numbers lines' := by simp [numbers]

theorem numbers_singleton (line : Bytes) :
    numbers [line] = ((headerValue contentLengthName line).map stoull).toList := by
  cases h : headerValue contentLengthName line <;> simp [numbers, h]

/-- What the end of the head is for the two readers: the parser reads the
last piece with the `\r` before the blank line, the scan without it, or not
at all where it is empty. -/
theorem numbers_last {last : Bytes} {tail : List Bytes} (h : tail = [] ∧ last = [] ∨ tail = [last])
    (more : List Bytes) :
    numbers ((last :: [] :: more).takeWhile (· ≠ [])) =
      numbers ((tail.takeWhile fun l => stripCr l ≠ []).map stripCr) := by
  have hparser : numbers ((last :: [] :: more).takeWhile (· ≠ [])) = numbers [last] := by
    by_cases hl : last = [] <;> simp [hl, numbers, headerValue_nil]
  rw [hparser, numbers_singleton, ← headerValue_stripCr]
  rcases h with ⟨rfl, rfl⟩ | rfl
  · rfl
  · by_cases hl : stripCr last = []
    · simp [hl, numbers, headerValue_nil]
    · simp only [ne_eq, hl, not_false_eq_true, decide_true, List.takeWhile_cons_of_pos,
        List.takeWhile_nil, List.map_cons, List.map_nil]
      rw [numbers_singleton]

/-- The lines of a buffer whose first `\r\n\r\n` comes after `headers`. -/
theorem getlines_head (headers : Bytes) : ∃ pieces last, headers.splitOn lf = pieces ++ [last] ∧
    ∀ rest, getlines lf (headers ++ bytes "\r\n\r\n" ++ rest) =
      pieces ++ (last ++ [cr]) :: [cr] :: getlines lf rest := by
  obtain ⟨pieces, last, hpieces⟩ : ∃ pieces last, headers.splitOn lf = pieces ++ [last] :=
    ⟨_, _, (List.dropLast_append_getLast (List.splitOn_ne_nil lf headers)).symm⟩
  refine ⟨pieces, last, hpieces, fun rest => ?_⟩
  have hbytes : headers ++ bytes "\r\n\r\n" ++ rest =
      (headers ++ [cr]) ++ lf :: ([cr] ++ lf :: rest) := by
    have : bytes "\r\n\r\n" = [cr, lf, cr, lf] := by decide
    simp [this]
  rw [hbytes, getlines_append_cons, splitOn_append hpieces (by decide), getlines_line (by decide)]
  simp

/-- The numbers the parser reads are those of the scan's lines before the
first blank one. -/
theorem numbers_headerLines (headers rest : Bytes) :
    numbers (headerLines (headers ++ bytes "\r\n\r\n" ++ rest)) =
      numbers ((linesBefore headers).map stripCr) := by
  -- the pieces of the head: all but the last are lines of both readers
  obtain ⟨pieces, last, hpieces, hraw⟩ := getlines_head headers
  obtain ⟨tail, htail, hscan⟩ : ∃ tail, (tail = [] ∧ last = [] ∨ tail = [last]) ∧
      getlines lf headers = pieces ++ tail := by
    have hsplit := splitOn_eq_getlines lf headers
    rw [hpieces] at hsplit
    split at hsplit
    · obtain ⟨hp, hlast⟩ := List.append_inj' hsplit rfl
      exact ⟨[], .inl ⟨rfl, (List.cons.inj hlast).1⟩, by rw [List.append_nil]; exact hp.symm⟩
    · exact ⟨[last], .inr rfl, by rw [hsplit, List.append_nil]⟩
  rw [headerLines, hraw rest, linesBefore, scannedLines, takeWhile_blank, hscan]
  cases pieces with
  | nil =>
    -- the head is the request line
    rcases htail with ⟨rfl, -⟩ | rfl <;> simp [stripCr_eq_nil]
  | cons first pieces =>
    simp only [List.cons_append, List.drop_succ_cons, List.drop_zero, List.map_append,
      List.map_cons, stripCr_concat]
    have hblank : stripCr [cr] = [] := rfl
    rw [hblank, List.takeWhile_append, List.takeWhile_append, List.takeWhile_map, List.length_map]
    have hcomp : (fun l : Bytes => decide (l ≠ [])) ∘ stripCr = fun l => decide (stripCr l ≠ []) := rfl
    rw [hcomp, List.length_map]
    by_cases hall : (pieces.takeWhile fun l => stripCr l ≠ []).length = pieces.length
    · rw [if_pos hall, if_pos hall, numbers_append, numbers_last htail, List.map_append,
        numbers_append]
    · rw [if_neg hall, if_neg hall]

/-! ## Agreement -/

/-- The `Content-Length` by which the framing scan measures a message. -/
def framingLength (b : Bytes) : Option Nat :=
  (find (bytes "\r\n\r\n") b).bind fun headerEnd => framedLength (b.take headerEnd)

/-- The one `get_header("content-length")` denotes after `parse`. -/
def parserLength (b : Bytes) : Option Nat :=
  stoull ((parse b).getHeader contentLengthName)

/-- The bytes before the first `\r\n\r\n`. -/
def head (b : Bytes) : Bytes := b.take ((find (bytes "\r\n\r\n") b).getD 0)

/-- The first and the last `Content-Length` line that the parser reads denote
the same number, or both none; where it reads none, the first of those the
scan finds further on denotes none. -/
def LengthsAgree (before after : List Bytes) : Prop :=
  before.head?.bind stoull = before.getLast?.bind stoull ∧
    (before = [] → after.head?.bind stoull = none)

instance (before after : List Bytes) : Decidable (LengthsAgree before after) :=
  inferInstanceAs (Decidable (_ ∧ _))

theorem parserLength_eq {b : Bytes} {n : Nat} (h : find (bytes "\r\n\r\n") b = some n) :
    parserLength b = (lengths (linesBefore (b.take n))).getLast?.bind stoull := by
  obtain ⟨rest, hb⟩ := find_spec h
  have hnum := numbers_headerLines (b.take n) rest
  rw [← hb] at hnum
  have hname : lower contentLengthName = contentLengthName := by decide
  have hlast : ∀ values : List Bytes,
      stoull (values.getLast?.getD []) = (values.map stoull).getLast?.join := by
    intro values
    rw [List.getLast?_map]
    cases values.getLast? <;> rfl
  rw [parserLength, getHeader_parse, hname, hlast]
  show (numbers (headerLines b)).getLast?.join = _
  rw [hnum]
  show (((lengths (linesBefore (b.take n))).map stoull).getLast?).join = _
  rw [List.getLast?_map]
  cases (lengths (linesBefore (b.take n))).getLast? <;> rfl

/-- **Framing and parser agree on the length** of a complete message exactly
if, in its header lines before the first blank one, the first and the last
`Content-Length` denote the same number, and where there is none, the first
in the lines after it is not numeric. -/
theorem framingLength_eq_parserLength_iff {b : Bytes} (h : isHttpRequestComplete b = true) :
    framingLength b = parserLength b ↔
      LengthsAgree (lengths (linesBefore (head b))) (lengths (linesAfter (head b))) := by
  obtain ⟨n, hn⟩ : ∃ n, find (bytes "\r\n\r\n") b = some n := by
    cases hf : find (bytes "\r\n\r\n") b with
    | none => simp [isHttpRequestComplete, hf] at h
    | some n => exact ⟨n, rfl⟩
  have hhead : head b = b.take n := by simp [head, hn]
  have hframing : framingLength b = framedLength (b.take n) := by simp [framingLength, hn]
  rw [hframing, framedLength_eq, parserLength_eq hn, hhead, LengthsAgree]
  cases hbefore : lengths (linesBefore (b.take n)) with
  | nil => simp
  | cons value values => simp

/-- A request with one `Content-Length`. -/
def oneLength : Bytes := bytes "POST / HTTP/1.1\r\nContent-Length: 2\r\n\r\nhi"

theorem framingLength_oneLength : isHttpRequestComplete oneLength = true ∧
    framingLength oneLength = parserLength oneLength :=
  ⟨by decide, (framingLength_eq_parserLength_iff (by decide)).mpr (by decide)⟩

/-- A request with two. -/
def twoLengths : Bytes :=
  bytes "POST / HTTP/1.1\r\nContent-Length: 2\r\nContent-Length: 0\r\n\r\nhi"

theorem not_framingLength_eq_parserLength :
    ¬ ∀ b, isHttpRequestComplete b = true → framingLength b = parserLength b := by
  intro h
  have := h twoLengths (by decide)
  revert this
  decide

/-! ## The size of a whole message -/

/-- What the first `Content-Length` of the header lines declares; nothing
where there is none or it is no number. -/
def declaredLength (headers : Bytes) : Nat :=
  ((lengths (scannedLines headers)).head?.bind stoull).getD 0

/-- The head has come, and after it as many bytes as it declares. -/
def Arrived (b : Bytes) : Prop :=
  ∃ headerEnd, find (bytes "\r\n\r\n") b = some headerEnd ∧
    headerEnd + 4 + declaredLength (b.take headerEnd) ≤ b.length

/-- What the code adds up for the message in `b` is no size. -/
def Overflows (b : Bytes) : Prop :=
  ∃ headerEnd, find (bytes "\r\n\r\n") b = some headerEnd ∧
    2 ^ 64 ≤ headerEnd + 4 + declaredLength (b.take headerEnd)

theorem stoull_lt {s : Bytes} {n : Nat} (h : stoull s = some n) : n < 2 ^ 64 := by
  have bound : ∀ (digits : Bytes) (negative : Bool),
      (if digits = [] then none
        else if 2 ^ 64 ≤ digitsVal digits then none
        else if negative then some ((2 ^ 64 - digitsVal digits) % 2 ^ 64)
        else some (digitsVal digits)) = some n → n < 2 ^ 64 := by
    intro digits negative h
    split at h
    · cases h
    split at h
    · cases h
    · next hlt =>
      split at h
      · rw [← Option.some.inj h]
        exact Nat.mod_lt _ (by decide)
      · rw [← Option.some.inj h]
        exact Nat.not_le.mp hlt
  exact bound _ _ h

theorem declaredLength_eq (headers : Bytes) : declaredLength headers = (framedLength headers).getD 0 := by
  rw [declaredLength, framedLength, scanContentLength_eq]
  rfl

/-- The test on a buffer that has the whole head. -/
theorem isHttpRequestComplete_head {b : Bytes} {headerEnd : Nat}
    (h : find (bytes "\r\n\r\n") b = some headerEnd) (hsize : b.length < 2 ^ 64) :
    headerEnd + 4 ≤ b.length ∧ (isHttpRequestComplete b = true ↔
      (headerEnd + 4 + declaredLength (b.take headerEnd)) % 2 ^ 64 ≤ b.length) := by
  have hfits : headerEnd + 4 ≤ b.length := by
    obtain ⟨rest, hrest⟩ := find_spec h
    have hlen := congrArg List.length hrest
    have h₄ : (bytes "\r\n\r\n").length = 4 := by decide
    simp only [List.length_append, List.length_take, h₄] at hlen
    omega
  refine ⟨hfits, ?_⟩
  have hadd : addSize headerEnd 4 = headerEnd + 4 := Nat.mod_eq_of_lt (by omega)
  rw [isHttpRequestComplete, h, declaredLength_eq]
  simp only [hadd, decide_eq_true_eq]
  cases framedLength (b.take headerEnd) with
  | none =>
    simp only [Option.getD_none, Nat.add_zero]
    rw [Nat.mod_eq_of_lt (by omega)]
  | some n => rfl

/-- **A message is complete when it has arrived** exactly where the size the
code adds up does not wrap around. -/
theorem complete_iff_arrived_iff {b : Bytes} (hsize : b.length < 2 ^ 64) :
    (isHttpRequestComplete b = true ↔ Arrived b) ↔ ¬ Overflows b := by
  cases hfind : find (bytes "\r\n\r\n") b with
  | none => simp [isHttpRequestComplete, Arrived, Overflows, hfind]
  | some headerEnd =>
    obtain ⟨hfits, hcode⟩ := isHttpRequestComplete_head hfind hsize
    have hlt : declaredLength (b.take headerEnd) < 2 ^ 64 := by
      rw [declaredLength]
      cases hvalue : (lengths (scannedLines (b.take headerEnd))).head?.bind stoull with
      | none => decide
      | some n =>
        obtain ⟨value, -, hn⟩ := Option.bind_eq_some_iff.mp hvalue
        exact stoull_lt hn
    simp only [hcode, Arrived, Overflows, hfind, Option.some.injEq, exists_eq_left']
    generalize declaredLength (b.take headerEnd) = n at hlt
    constructor
    · -- a sum that wraps is below the end of the head
      intro h hover
      have hmod : (headerEnd + 4 + n) % 2 ^ 64 = headerEnd + 4 + n - 2 ^ 64 := by
        rw [Nat.mod_eq_sub_mod hover, Nat.mod_eq_of_lt (by omega)]
      have := h.mp (by omega)
      omega
    · intro hover
      rw [Nat.mod_eq_of_lt (by omega)]

theorem complete_iff_arrived_iff_oneLength :
    (isHttpRequestComplete oneLength = true ↔ Arrived oneLength) ↔ ¬ Overflows oneLength :=
  complete_iff_arrived_iff (by decide)

/-- A body of `2 ^ 64 - 1` bytes of which none has come. -/
theorem not_complete_iff_arrived : ¬ ∀ b : Bytes, b.length < 2 ^ 64 →
    (isHttpRequestComplete b = true ↔ Arrived b) := by
  intro h
  have hcomplete := (h (bytes "POST / HTTP/1.1\r\nContent-Length: 18446744073709551615\r\n\r\n")
    (by decide)).mp (by decide)
  obtain ⟨headerEnd, hfind, hle⟩ := hcomplete
  have hend : find (bytes "\r\n\r\n")
      (bytes "POST / HTTP/1.1\r\nContent-Length: 18446744073709551615\r\n\r\n") = some 53 := by
    decide
  obtain rfl : 53 = headerEnd := Option.some.inj (hend.symm.trans hfind)
  revert hle
  decide

end Webserver
