/-
HTTP/1.x requests as a client writes them, and what `HttpRequest::parse`
reads from one: the request line's words, the fields, and the body as it is
put together again from its lines.
-/
import Webserver.RequestFacts

namespace Webserver

open Cxx

/-- A header field; the white space around its value is part of `value`. -/
structure Field where
  name : Bytes
  value : Bytes

namespace Field

def line (f : Field) : Bytes := f.name ++ 58 :: f.value

/-- The name is a word without a colon, the value goes to the end of a line. -/
structure WellFormed (f : Field) : Prop where
  name_ne : f.name ≠ []
  name : ∀ b ∈ f.name, isSpace b = false ∧ b ≠ 58
  value : ∀ b ∈ f.value, b ≠ cr ∧ b ≠ lf

/-- The value without the white space around it. -/
def trimmed (f : Field) : Bytes := trimRight (trimLeft f.value)

def isContentLength (f : Field) : Bool := lower f.name = bytes "content-length"

/-- The value is a decimal number that denotes `n`. -/
structure Denotes (f : Field) (n : Nat) : Prop where
  ne : f.trimmed ≠ []
  digits : ∀ b ∈ f.trimmed, isDigit b = true
  val : digitsVal f.trimmed = n

end Field

structure Message where
  method : Bytes
  target : Bytes
  version : Bytes
  fields : List Field
  body : Bytes

namespace Message

def requestLine (m : Message) : Bytes := m.method ++ 32 :: (m.target ++ 32 :: m.version)

/-- The message up to the end of its last header line. -/
def head (m : Message) : Bytes :=
  m.requestLine ++ [cr, lf] ++ m.fields.flatMap fun f => f.line ++ [cr, lf]

def toBytes (m : Message) : Bytes := m.head ++ [cr, lf] ++ m.body

/-- The path of the target, before the query string. -/
def path (m : Message) : Bytes := ((cut 63 m.target).map (·.1)).getD m.target

/-- A request line and fields the way a client has to write them: words
without white space, a method and a version the server knows, a path that is
absolute and has no control characters once decoded. -/
structure WellFormed (m : Message) : Prop where
  method : HttpRequest.stringToMethod m.method ≠ .unknown
  target_ne : m.target ≠ []
  target : ∀ b ∈ m.target, isSpace b = false
  version : m.version = bytes "HTTP/1.0" ∨ m.version = bytes "HTTP/1.1"
  path : (HttpRequest.urlDecode m.path).head? = some 47
  control : (HttpRequest.urlDecode m.path).any HttpRequest.isControl = false
  fields : ∀ f ∈ m.fields, f.WellFormed

/-- What `parse` needs to take a message apart, whether it finds it valid or
not. -/
structure Readable (m : Message) : Prop where
  method : HttpRequest.stringToMethod m.method ≠ .unknown
  target_ne : m.target ≠ []
  target : ∀ b ∈ m.target, isSpace b = false
  version : m.version = bytes "HTTP/1.0" ∨ m.version = bytes "HTTP/1.1"
  fields : ∀ f ∈ m.fields, f.WellFormed

theorem WellFormed.readable {m : Message} (h : m.WellFormed) : m.Readable :=
  ⟨h.method, h.target_ne, h.target, h.version, h.fields⟩

end Message

/-! ## Words -/

theorem word_append {w : Bytes} (hne : w ≠ []) (hw : ∀ b ∈ w, isSpace b = false) (s : Bytes) :
    word (w ++ 32 :: s) = some (w, 32 :: s) := by
  obtain ⟨b, w', rfl⟩ := List.exists_cons_of_ne_nil hne
  have hdrop : (b :: w' ++ 32 :: s).dropWhile isSpace = b :: w' ++ 32 :: s := by
    rw [List.cons_append, List.dropWhile_cons_of_neg (by simp [hw b List.mem_cons_self])]
  have hall : ∀ b' ∈ b :: w', (!isSpace b') = true := fun b' hb' => by simp [hw b' hb']
  simp only [word, hdrop]
  have htake : (32 :: s).takeWhile (fun b => !isSpace b) = [] :=
    List.takeWhile_cons_of_neg (by decide)
  have hrest : (32 :: s).dropWhile (fun b => !isSpace b) = 32 :: s :=
    List.dropWhile_cons_of_neg (by decide)
  rw [if_neg (by simp), List.takeWhile_append_of_pos hall, List.dropWhile_append_of_pos hall, htake,
    hrest, List.append_nil]

theorem word_space (s : Bytes) : word (32 :: s) = word s := rfl

theorem word_last {w : Bytes} (hne : w ≠ []) (hw : ∀ b ∈ w, isSpace b = false) :
    word w = some (w, []) := by
  obtain ⟨b, w', rfl⟩ := List.exists_cons_of_ne_nil hne
  have hdrop : (b :: w').dropWhile isSpace = b :: w' := by
    rw [List.dropWhile_cons_of_neg (by simp [hw b List.mem_cons_self])]
  have hall : ∀ b' ∈ b :: w', (!isSpace b') = true := fun b' hb' => by simp [hw b' hb']
  simp only [word, hdrop]
  rw [if_neg (by simp), List.takeWhile_eq_self_iff.mpr hall, List.dropWhile_eq_nil_iff.mpr hall]

theorem HttpRequest.requestWords_append {w : Bytes} (hne : w ≠ []) (hw : ∀ b ∈ w, isSpace b = false) (l : Bytes) :
    requestWords (w ++ 32 :: l) = (do
      let (pathWithQuery, s) ← word l
      let (version, _) ← word s
      return (w, pathWithQuery, version)) := by
  rw [requestWords, word_append hne hw]
  rfl

/-- The methods are words. -/
theorem HttpRequest.word_of_stringToMethod {s : Bytes} (h : stringToMethod s ≠ .unknown) :
    s ≠ [] ∧ ∀ b ∈ s, isSpace b = false := by
  unfold stringToMethod at h
  repeat' split at h
  case isFalse.isFalse.isFalse.isFalse.isFalse.isFalse => exact absurd rfl h
  all_goals
    subst_vars
    decide +kernel

namespace Field

theorem WellFormed.splitHeader {f : Field} (h : f.WellFormed) :
    HttpRequest.splitHeader f.line = some (lower f.name, f.trimmed) := by
  have hcolon : (58 : UInt8) ∉ f.name := fun hm => (h.name 58 hm).2 rfl
  have htrim : trimRight f.name = f.name := by
    refine List.rdropWhile_eq_self_iff.mpr fun hne => ?_
    have hspace := (h.name _ (List.getLast_mem hne)).1
    simp only [isSpace, Bool.or_eq_false_iff, Bool.and_eq_false_iff] at hspace
    simp only [isBlank, Bool.or_eq_true, not_or, Bool.not_eq_true]
    refine ⟨hspace.1, ?_⟩
    by_contra htab
    have : f.name.getLast hne = 9 := by simpa using htab
    rw [this] at hspace
    exact absurd hspace.2 (by decide)
  rw [HttpRequest.splitHeader, line, cut_cons hcolon]
  simp [htrim, trimmed]

theorem WellFormed.no_newline {f : Field} (h : f.WellFormed) : lf ∉ f.line := by
  intro hm
  rcases List.mem_append.mp hm with hm | hm
  · exact absurd (h.name _ hm).1 (by decide)
  · rcases List.mem_cons.mp hm with hm | hm
    · exact absurd hm (by decide)
    · exact (h.value _ hm).2 rfl

theorem line_ne_nil (f : Field) : f.line ≠ [] := by simp [line]

end Field

/-! ## `parse` of a message -/

namespace Message

open HttpRequest

theorem Readable.version_word {m : Message} (h : m.Readable) :
    m.version ≠ [] ∧ ∀ b ∈ m.version, isSpace b = false := by
  rcases h.version with hv | hv <;> rw [hv] <;> decide +kernel

theorem Readable.requestWords {m : Message} (h : m.Readable) :
    requestWords m.requestLine = some (m.method, m.target, m.version) := by
  obtain ⟨hm, hm'⟩ := word_of_stringToMethod h.method
  obtain ⟨hv, hv'⟩ := h.version_word
  simp only [HttpRequest.requestWords, requestLine, word_append hm hm', word_space,
    word_append h.target_ne h.target, word_last hv hv', Option.bind_eq_bind, Option.bind_some,
    Option.pure_def]

theorem Readable.no_newline {m : Message} (h : m.Readable) : lf ∉ m.requestLine := by
  intro hmem
  simp only [requestLine, List.mem_append, List.mem_cons] at hmem
  rcases hmem with hmem | hmem | hmem | hmem | hmem
  · exact absurd ((word_of_stringToMethod h.method).2 _ hmem) (by decide)
  · exact absurd hmem (by decide)
  · exact absurd (h.target _ hmem) (by decide)
  · exact absurd hmem (by decide)
  · exact absurd (h.version_word.2 _ hmem) (by decide)

theorem getlines_fields {fields : List Field} (h : ∀ f ∈ fields, f.WellFormed) (s : Bytes) :
    getlines lf ((fields.flatMap fun f => f.line ++ [cr, lf]) ++ s) =
      fields.map (fun f => f.line ++ [cr]) ++ getlines lf s := by
  induction fields with
  | nil => rfl
  | cons f fields ih =>
    have hline : lf ∉ f.line ++ [cr] := by
      intro hm
      rcases List.mem_append.mp hm with hm | hm
      · exact (h f List.mem_cons_self).no_newline hm
      · exact absurd hm (by decide)
    have hsplit : ((f :: fields).flatMap fun f => f.line ++ [cr, lf]) ++ s =
        (f.line ++ [cr]) ++ lf :: ((fields.flatMap fun f => f.line ++ [cr, lf]) ++ s) := by simp
    rw [hsplit, getlines_line hline, ih fun f' hf' => h f' (List.mem_cons_of_mem _ hf')]
    rfl

/-- The lines of a message. -/
theorem Readable.getlines {m : Message} (h : m.Readable) :
    getlines lf m.toBytes = (m.requestLine ++ [cr]) ::
      (m.fields.map (fun f => f.line ++ [cr]) ++ [cr] :: getlines lf m.body) := by
  have hline : lf ∉ m.requestLine ++ [cr] := by
    intro hm
    rcases List.mem_append.mp hm with hm | hm
    · exact h.no_newline hm
    · exact absurd hm (by decide)
  have hsplit : m.toBytes = (m.requestLine ++ [cr]) ++ lf ::
      ((m.fields.flatMap fun f => f.line ++ [cr, lf]) ++ ([cr] ++ lf :: m.body)) := by
    simp [toBytes, head]
  rw [hsplit, getlines_line hline, getlines_fields h.fields, getlines_line (by decide)]

/-- The body `parse` puts together from the lines after the blank one. -/
def reassembled (body : Bytes) : Bytes := ((Cxx.getlines lf body).map stripCr).foldl addLine []

theorem Readable.foldl {m : Message} (h : m.Readable) :
    (Cxx.getlines lf m.toBytes).foldl parseLine {} =
      { request := (m.fields.map Field.line).foldl parseHeaderLine (parseRequestLine {} m.requestLine),
        firstLine := false, headersDone := true, body := reassembled m.body } := by
  have hlines : ∀ line ∈ m.fields.map (fun f => f.line ++ [cr]), stripCr line ≠ [] := by
    intro line hline
    obtain ⟨f, -, rfl⟩ := List.mem_map.mp hline
    rw [stripCr_concat]
    exact f.line_ne_nil
  have hstrip : (m.fields.map (fun f => f.line ++ [cr])).map stripCr = m.fields.map Field.line := by
    simp
  rw [h.getlines, foldl_parseLine _ _ _ hlines rfl, stripCr_concat, hstrip]
  rfl

/-- The query string of the target. -/
def query (m : Message) : Bytes := ((cut 63 m.target).map (·.2)).getD []

/-- What `parse` reads from a message. -/
theorem Readable.parse {m : Message} (h : m.Readable) :
    (parse m.toBytes).method = stringToMethod m.method ∧
      (parse m.toBytes).path = urlDecode m.path ∧
      (parse m.toBytes).version = m.version ∧
      (parse m.toBytes).body = reassembled m.body ∧
      (parse m.toBytes).headers =
        ((m.fields.map Field.line).foldl parseHeaderLine (parseRequestLine {} m.requestLine)).headers ∧
      (parse m.toBytes).queryParams = (Cxx.getlines 38 m.query).foldl parsePair ∅ ∧
      (parse m.toBytes).valid = isRequestValid (parse m.toBytes) := by
  have hne : m.toBytes ≠ [] := by simp [toBytes]
  have hfirst : parseRequestLine {} m.requestLine =
      { method := stringToMethod m.method, version := m.version, path := urlDecode m.path,
        queryString := m.query } := by
    simp only [parseRequestLine, h.requestWords, Message.path, Message.query]
    cases cut 63 m.target <;> rfl
  have hall := foldl_parseHeaderLine (parseRequestLine {} m.requestLine) (m.fields.map Field.line)
  simp only [HttpRequest.parse, hne, if_false, h.foldl]
  rw [hall, hfirst]
  refine ⟨rfl, rfl, rfl, rfl, ?_, rfl, rfl⟩
  rw [← hfirst]
  rfl

/-- The value of a field of a message: the last of that name. -/
theorem Readable.getHeader {m : Message} (h : m.Readable) (name : Bytes) :
    (HttpRequest.parse m.toBytes).getHeader name =
      (((m.fields.filter fun f => lower f.name = lower name).getLast?).map Field.trimmed).getD [] := by
  have hvalues : ∀ fields : List Field, (∀ f ∈ fields, f.WellFormed) →
      (fields.map Field.line).filterMap (headerValue (lower name)) =
        (fields.filter fun f => lower f.name = lower name).map Field.trimmed := by
    intro fields hf
    induction fields with
    | nil => rfl
    | cons f fields ih =>
      have := ih fun f' hf' => hf f' (List.mem_cons_of_mem _ hf')
      rw [List.map_cons, List.filterMap_cons, headerValue, (hf f List.mem_cons_self).splitHeader,
        List.filter_cons]
      by_cases hn : lower f.name = lower name <;> simp [hn, this]
  obtain ⟨-, -, -, -, hheaders, -, -⟩ := h.parse
  rw [HttpRequest.getHeader, hheaders, lookup_foldl_parseHeaderLine, hvalues _ h.fields,
    parseRequestLine_headers, List.getLast?_map]
  cases ((m.fields.filter fun f => lower f.name = lower name).getLast?) <;> rfl

end Message

end Webserver
