/-
A response on the wire. Whatever calls build it, `to_string` writes a line for
the status, one for each header, a blank line and the body; who splits it at
the first blank line reads all of them back.
-/
import Webserver.HttpResponse
import Webserver.Lines

namespace Cxx

theorem toNat_of_mem_toDigits {n : Nat} {c : Char} (h : c ∈ Nat.toDigits 10 n) :
    48 ≤ c.toNat ∧ c.toNat ≤ 57 := by
  have hdigit : c.isDigit = true := Nat.isDigit_of_mem_toDigits (by decide) (by decide) h
  simp only [Char.isDigit, Bool.and_eq_true, decide_eq_true_eq, ge_iff_le,
    UInt32.le_iff_toNat_le] at hdigit
  exact hdigit

theorem toNat_byte {c : Char} (h : c.toNat ≤ 57) : c.toNat.toUInt8.toNat = c.toNat :=
  UInt8.toNat_ofNat_of_lt' (by omega : c.toNat < 256)

theorem isDigit_of_mem_decimal {n : Nat} {b : UInt8} (h : b ∈ decimal n) : isDigit b = true := by
  obtain ⟨c, hc, rfl⟩ := List.mem_map.mp h
  obtain ⟨hlow, hhigh⟩ := toNat_of_mem_toDigits hc
  have hbyte := toNat_byte hhigh
  have h₀ : (48 : UInt8).toNat = 48 ∧ (57 : UInt8).toNat = 57 := ⟨rfl, rfl⟩
  simp only [isDigit, Bool.and_eq_true, decide_eq_true_eq, UInt8.le_iff_toNat_le]
  omega

theorem digitsVal_decimal (n : Nat) : digitsVal (decimal n) = n := by
  calc digitsVal (decimal n)
      = Nat.ofDigitChars 10 (Nat.toDigits 10 n) 0 := by
        rw [digitsVal, decimal, List.foldl_map, Nat.ofDigitChars_eq_foldl]
        refine List.foldl_ext _ _ _ fun v c hc => ?_
        rw [toNat_byte (toNat_of_mem_toDigits hc).2]
        rfl
    _ = n := Nat.ofDigitChars_ten_toDigits

theorem decimal_injective : Function.Injective decimal :=
  Function.LeftInverse.injective digitsVal_decimal

end Cxx

namespace Webserver

open Cxx

open HttpRequest (stripCr)

/-- Bytes that do not end a line. -/
def Unbroken (s : Bytes) : Prop := cr ∉ s ∧ lf ∉ s

instance (s : Bytes) : Decidable (Unbroken s) := inferInstanceAs (Decidable (_ ∧ _))

/-! ## Builders -/

inductive BuilderCall
  | setStatus (status : HttpStatus)
  | setBody (body : Bytes)
  | appendBody (data : Bytes)
  | setContentType (contentType : Bytes)
  | setKeepAlive (keepAlive : Bool)
  | setServerHeader (serverName : Bytes)
  | setHeader (name value : Bytes)

namespace BuilderCall

def apply (r : HttpResponse) : BuilderCall → HttpResponse
  | setStatus status => r.setStatus status
  | setBody body => r.setBody body
  | appendBody data => r.appendBody data
  | setContentType contentType => r.setContentType contentType
  | setKeepAlive keepAlive => r.setKeepAlive keepAlive
  | setServerHeader serverName => r.setServerHeader serverName
  | setHeader name value => r.setHeader name value

def setsBody : BuilderCall → Bool
  | setBody _ | appendBody _ => true
  | _ => false

/-- What a caller must see to: no line ends in names and values, no colon in
names, and `Content-Length` is left to the body. -/
def Admissible : BuilderCall → Prop
  | setContentType value | setServerHeader value => Unbroken value
  | setHeader name value =>
    Unbroken name ∧ 58 ∉ name ∧ Unbroken value ∧ name ≠ bytes "Content-Length"
  | _ => True

instance : DecidablePred Admissible
  | setContentType value | setServerHeader value => inferInstanceAs (Decidable (Unbroken value))
  | setHeader _ _ => inferInstanceAs (Decidable (_ ∧ _ ∧ _ ∧ _))
  | setStatus _ | setBody _ | appendBody _ | setKeepAlive _ => inferInstanceAs (Decidable True)

end BuilderCall

/-- The response some calls build, from one constructed at `time`. -/
def build (status : HttpStatus) (time : Tm) (calls : List BuilderCall) : HttpResponse :=
  calls.foldl BuilderCall.apply (.new status (HttpResponse.formatDate time))

/-! ## The reader -/

/-- A header line, cut at its colon and the blank after it. -/
def readField (line : Bytes) : Option (Bytes × Bytes) :=
  (cut 58 line).map fun (name, value) => (name, value.drop 1)

/-- A response, split at its first blank line: the status line, the headers
and the body. -/
def readResponse (s : Bytes) : Option (Bytes × List (Bytes × Bytes) × Bytes) := do
  let headEnd ← find (bytes "\r\n\r\n") s
  let lines := (getlines lf (s.take headEnd)).map stripCr
  let statusLine ← lines.head?
  let fields ← (lines.drop 1).mapM readField
  return (statusLine, fields, s.drop (headEnd + 4))

/-! ## Lines that are written -/

theorem Unbroken.append {s t : Bytes} (hs : Unbroken s) (ht : Unbroken t) : Unbroken (s ++ t) := by
  simp only [Unbroken, List.mem_append, not_or]
  exact ⟨⟨hs.1, ht.1⟩, hs.2, ht.2⟩

theorem unbroken_decimal (n : Nat) : Unbroken (decimal n) :=
  ⟨fun h => absurd (isDigit_of_mem_decimal h) (by decide),
    fun h => absurd (isDigit_of_mem_decimal h) (by decide)⟩

/-- A header that is read back from its line. -/
structure WritableField (n v : Bytes) : Prop where
  name : Unbroken n
  colon : 58 ∉ n
  value : Unbroken v

namespace HttpResponse

theorem unbroken_twoDigits (n : Nat) : Unbroken (twoDigits n) := by
  unfold twoDigits
  split
  · exact .append (by decide) (unbroken_decimal n)
  · exact unbroken_decimal n

theorem unbroken_formatDate (time : Tm) : Unbroken (formatDate time) := by
  have hday : ∀ d, Unbroken (weekday d) := by decide
  have hmonth : ∀ m, Unbroken (monthName m) := by decide
  unfold formatDate
  repeat' apply Unbroken.append
  all_goals
    first
      | exact hday _
      | exact hmonth _
      | exact unbroken_twoDigits _
      | exact unbroken_decimal _
      | decide

/-- All headers are read back from their lines. -/
def Writable (r : HttpResponse) : Prop :=
  ∀ name value, r.headers.lookup name = some value → WritableField name value

/-- `Content-Length` says how long the body is. -/
def Measured (r : HttpResponse) : Prop :=
  r.headers.lookup (bytes "Content-Length") = some (decimal r.body.length)

theorem Writable.setHeader {r : HttpResponse} (h : r.Writable) {name value : Bytes}
    (hf : WritableField name value) : (r.setHeader name value).Writable := by
  intro n v hv
  by_cases hn : n = name
  · subst hn
    rw [HttpResponse.setHeader, AList.lookup_insert] at hv
    exact Option.some.inj hv ▸ hf
  · rw [HttpResponse.setHeader, AList.lookup_insert_ne hn] at hv
    exact h n v hv

theorem Measured.setHeader {r : HttpResponse} (h : r.Measured) {name : Bytes} (value : Bytes)
    (hn : name ≠ bytes "Content-Length") : (r.setHeader name value).Measured := by
  rw [Measured, HttpResponse.setHeader, AList.lookup_insert_ne (Ne.symm hn)]
  exact h

theorem measured_setBody (r : HttpResponse) (body : Bytes) : (r.setBody body).Measured :=
  AList.lookup_insert _

theorem Writable.setBody {r : HttpResponse} (h : r.Writable) (body : Bytes) : (r.setBody body).Writable :=
  Writable.setHeader (r := { r with body }) h ⟨by decide, by decide, unbroken_decimal _⟩

theorem writable_new (status : HttpStatus) (time : Tm) : (new status (formatDate time)).Writable := by
  have hnone : ({ status } : HttpResponse).Writable := fun _ _ h => nomatch h
  refine ((hnone.setHeader ?_).setHeader ?_).setHeader ?_
  · exact ⟨by decide, by decide, unbroken_formatDate time⟩
  · exact ⟨by decide, by decide, by decide⟩
  · exact ⟨by decide, by decide, by decide⟩

end HttpResponse

open HttpResponse

namespace BuilderCall

theorem apply_writable {r : HttpResponse} {call : BuilderCall} (h : r.Writable)
    (ha : call.Admissible) : (call.apply r).Writable := by
  cases call with
  | setStatus status => exact h
  | setBody body => exact h.setBody body
  | appendBody data => exact h.setBody (r.body ++ data)
  | setContentType value => exact h.setHeader ⟨by decide, by decide, ha⟩
  | setServerHeader value => exact h.setHeader ⟨by decide, by decide, ha⟩
  | setKeepAlive keepAlive =>
    cases keepAlive with
    | true =>
      exact (h.setHeader ⟨by decide, by decide, by decide⟩).setHeader ⟨by decide, by decide, by decide⟩
    | false => exact h.setHeader ⟨by decide, by decide, by decide⟩
  | setHeader name value => exact h.setHeader ⟨ha.1, ha.2.1, ha.2.2.1⟩

theorem apply_measured {r : HttpResponse} {call : BuilderCall} (ha : call.Admissible)
    (h : r.Measured ∨ call.setsBody = true) : (call.apply r).Measured := by
  cases call with
  | setBody body => exact measured_setBody r body
  | appendBody data => exact measured_setBody r (r.body ++ data)
  | setStatus status => exact h.resolve_right nofun
  | setContentType value => exact (h.resolve_right nofun).setHeader value (by decide)
  | setServerHeader value => exact (h.resolve_right nofun).setHeader value (by decide)
  | setKeepAlive keepAlive =>
    have hr : r.Measured := h.resolve_right nofun
    cases keepAlive with
    | true => exact (hr.setHeader _ (by decide)).setHeader _ (by decide)
    | false => exact hr.setHeader _ (by decide)
  | setHeader name value => exact (h.resolve_right nofun).setHeader value ha.2.2.2

end BuilderCall

theorem build_writable {r : HttpResponse} {calls : List BuilderCall} (h : r.Writable)
    (ha : ∀ call ∈ calls, call.Admissible) : (calls.foldl BuilderCall.apply r).Writable := by
  induction calls generalizing r with
  | nil => exact h
  | cons call calls ih =>
    exact ih (BuilderCall.apply_writable h (ha call List.mem_cons_self))
      fun c hc => ha c (List.mem_cons_of_mem _ hc)

theorem build_measured {r : HttpResponse} {calls : List BuilderCall}
    (ha : ∀ call ∈ calls, call.Admissible) (h : r.Measured ∨ ∃ call ∈ calls, call.setsBody = true) :
    (calls.foldl BuilderCall.apply r).Measured := by
  induction calls generalizing r with
  | nil => exact h.resolve_right (by simp)
  | cons call calls ih =>
    have hcall := ha call List.mem_cons_self
    refine ih (fun c hc => ha c (List.mem_cons_of_mem _ hc)) ?_
    rcases h with h | ⟨c, hc, hbody⟩
    · exact .inl (BuilderCall.apply_measured hcall (.inl h))
    · rcases List.mem_cons.mp hc with rfl | hc
      · exact .inl (BuilderCall.apply_measured hcall (.inr hbody))
      · exact .inr ⟨c, hc, hbody⟩

/-! ## Reading -/

/-- The line of a header, without its line break. -/
def fieldLine (f : Bytes × Bytes) : Bytes := f.1 ++ bytes ": " ++ f.2

def statusLine (status : HttpStatus) : Bytes :=
  HttpResponse.version ++ bytes " " ++ decimal status.code ++ bytes " " ++ status.text

theorem isLine_statusLine (status : HttpStatus) : IsLine (statusLine status) := by
  have htext : Unbroken status.text := by cases status <;> decide
  have hunbroken : Unbroken (statusLine status) :=
    .append (.append (.append (.append (by decide) (by decide)) (unbroken_decimal _)) (by decide)) htext
  have hversion : HttpResponse.version ≠ [] := by decide
  exact ⟨by simp [statusLine, hversion], hunbroken⟩

theorem WritableField.isLine {f : Bytes × Bytes} (h : WritableField f.1 f.2) :
    IsLine (fieldLine f) := by
  have hcolon : bytes ": " ≠ [] := by decide
  exact ⟨by simp [fieldLine, hcolon], (h.name.append (by decide)).append h.value⟩

theorem WritableField.readField {f : Bytes × Bytes} (h : WritableField f.1 f.2) :
    readField (fieldLine f) = some f := by
  have hsplit : fieldLine f = f.1 ++ 58 :: (32 :: f.2) := by
    have : bytes ": " = [58, 32] := by decide
    simp [fieldLine, this]
  rw [Webserver.readField, hsplit, cut_cons h.colon]
  rfl

theorem mapM_readField {fields : List (Bytes × Bytes)} (h : ∀ f ∈ fields, WritableField f.1 f.2) :
    (fields.map fieldLine).mapM readField = some fields := by
  induction fields with
  | nil => rfl
  | cons f fields ih =>
    rw [List.map_cons, List.mapM_cons, (h f List.mem_cons_self).readField,
      ih fun f' hf' => h f' (List.mem_cons_of_mem _ hf')]
    rfl

/-- What `to_string` writes: the head, a blank line, and the body. -/
theorem toString_eq (order : MapOrder) (r : HttpResponse) :
    r.toString order = headText (statusLine r.status)
      ((order.arrange (r.headers.entries.map fun e => (e.1, e.2))).map fieldLine) ++
        bytes "\r\n\r\n" ++ r.body := by
  have hcrlf : bytes "\r\n" = crlf := by decide
  have hblank : bytes "\r\n\r\n" = crlf ++ crlf := by decide
  have hlines : ∀ fields : List (Bytes × Bytes), crlf ++ fields.flatMap headerLine =
      (fields.map fieldLine).flatMap (crlf ++ ·) ++ crlf := by
    intro fields
    induction fields with
    | nil => rfl
    | cons f fields ih =>
      rw [List.flatMap_cons, List.map_cons, List.flatMap_cons, List.append_assoc, ← ih, headerLine, hcrlf]
      simp [fieldLine]
  rw [HttpResponse.toString, hcrlf, hblank, headText, statusLine]
  simp only [List.append_assoc]
  rw [← List.append_assoc crlf, hlines]
  simp only [List.append_assoc]

/-- **What is written is read back**: of a response with a body set, and with
names and values that do not break its lines, the status line, the headers in
some order, and the body, whose length `Content-Length` is. -/
theorem readResponse_toString (order : MapOrder) (status : HttpStatus) (time : Tm)
    {calls : List BuilderCall} (ha : ∀ call ∈ calls, call.Admissible)
    (hbody : ∃ call ∈ calls, call.setsBody = true) :
    ∃ fields, fields.Perm ((build status time calls).headers.entries.map fun e => (e.1, e.2)) ∧
      readResponse ((build status time calls).toString order) =
        some (statusLine (build status time calls).status, fields, (build status time calls).body) ∧
      (build status time calls).headers.lookup (bytes "Content-Length") =
        some (decimal (build status time calls).body.length) := by
  have hw : (build status time calls).Writable := build_writable (writable_new status time) ha
  generalize hr : build status time calls = r at hw ⊢
  refine ⟨order.arrange (r.headers.entries.map fun e => (e.1, e.2)), order.perm _, ?_,
    hr ▸ build_measured ha (.inr hbody)⟩
  generalize hfields : order.arrange (r.headers.entries.map fun e => (e.1, e.2)) = fields
  have hwritable : ∀ f ∈ fields, WritableField f.1 f.2 := by
    intro f hf
    have hmem : f ∈ r.headers.entries.map fun e => (e.1, e.2) :=
      (order.perm _).mem_iff.mp (hfields ▸ hf)
    obtain ⟨e, he, rfl⟩ := List.mem_map.mp hmem
    exact hw e.1 e.2 (AList.mem_lookup_iff.mpr he)
  have hline := isLine_statusLine r.status
  have hlines : ∀ line ∈ fields.map fieldLine, IsLine line := by
    intro line hmem
    obtain ⟨f, hf, rfl⟩ := List.mem_map.mp hmem
    exact (hwritable f hf).isLine
  have hread := mapM_readField hwritable
  have h₄ : (bytes "\r\n\r\n").length = 4 := by decide
  rw [readResponse, toString_eq, hfields, find_headText hline hlines]
  simp only [Option.bind_eq_bind, Option.bind_some]
  rw [List.append_assoc, List.take_left, stripCr_getlines hline hlines]
  simp only [List.head?_cons, Option.bind_some, List.drop_one, List.tail_cons, hread]
  rw [← List.append_assoc, ← h₄, ← List.length_append, List.drop_left]
  rfl

/-- A page whose body has a blank line in it. -/
def pageCalls : List BuilderCall :=
  [.appendBody (bytes "one\r\n\r\n"), .setStatus .notFound, .setHeader (bytes "X-Id") (bytes "7"),
    .appendBody (bytes "two"), .setKeepAlive true]

/-- The epoch, a Thursday. -/
def epoch : Tm := { sec := 0, min := 0, hour := 0, mday := 1, mon := 0, year := 70, wday := 4 }

theorem readResponse_toString_page : ∃ fields,
    readResponse ((build .ok epoch pageCalls).toString .newestFirst) =
      some (bytes "HTTP/1.1 404 Not Found", fields, bytes "one\r\n\r\ntwo") := by
  have ha : ∀ call ∈ pageCalls, call.Admissible := by decide
  obtain ⟨fields, -, hread, -⟩ :=
    readResponse_toString .newestFirst .ok epoch ha ⟨_, List.mem_cons_self, rfl⟩
  have hstatus : statusLine .notFound = bytes "HTTP/1.1 404 Not Found" := by decide
  have hbody : (build .ok epoch pageCalls).body = bytes "one\r\n\r\ntwo" := by
    show [] ++ bytes "one\r\n\r\n" ++ bytes "two" = _
    decide
  rw [← hstatus, ← hbody]
  exact ⟨fields, hread⟩

end Webserver
