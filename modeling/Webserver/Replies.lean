/-
What a client reads. Each response of the server ends itself: its head ends
at the first blank line, and its `Content-Length` says where its body ends, so
that nothing in a body, in a path or in a file can begin another response.
-/
import Webserver.Arrivals
import Webserver.Messages
import Webserver.WireFormat

namespace Webserver

open Cxx HttpRequest HttpResponse

/-- A response as a client sees it. -/
structure Reply where
  statusLine : Bytes
  fields : List (Bytes × Bytes)
  body : Bytes

/-- The response at the front of what a client has received, and what comes
after it; `none` where not all of it is there. -/
def takeReply (s : Bytes) : Option (Reply × Bytes) := do
  let headEnd ← find (bytes "\r\n\r\n") s
  let lines := (getlines lf (s.take headEnd)).map stripCr
  let statusLine ← lines.head?
  let fields ← (lines.drop 1).mapM readField
  let length := digitsVal (← fields.lookup (bytes "Content-Length"))
  let rest := s.drop (headEnd + 4)
  if rest.length < length then none
  else some (⟨statusLine, fields, rest.take length⟩, rest.drop length)

/-- The responses a client has received, and a part of the next. -/
def readReplies (s : Bytes) : List Reply × Bytes := Messages.readAll takeReply s.length s

namespace HttpResponse

/-- The response a client reads. -/
def reply (order : MapOrder) (r : HttpResponse) : Reply :=
  ⟨statusLine r.status, order.arrange (r.headers.entries.map fun e => (e.1, e.2)), r.body⟩

/-- The headers are written so that they can be read, and say how long the body is. -/
structure Delimited (r : HttpResponse) : Prop where
  writable : r.Writable
  measured : r.Measured

instance (n v : Bytes) : Decidable (WritableField n v) :=
  decidable_of_iff (Unbroken n ∧ 58 ∉ n ∧ Unbroken v) ⟨fun h => ⟨h.1, h.2.1, h.2.2⟩, fun h => ⟨h.1, h.2, h.3⟩⟩

instance (r : HttpResponse) : Decidable r.Delimited :=
  decidable_of_iff ((∀ e ∈ r.headers.entries, WritableField e.1 e.2) ∧
      r.headers.lookup (bytes "Content-Length") = some (decimal r.body.length))
    ⟨fun h => ⟨fun name value hv => h.1 ⟨name, value⟩ (AList.mem_lookup_iff.mp hv), h.2⟩,
      fun h => ⟨fun e he => h.writable e.1 e.2 (AList.mem_lookup_iff.mpr he), h.measured⟩⟩

/-! ## The responses the server builds -/

theorem Delimited.apply {r : HttpResponse} {call : BuilderCall} (h : r.Delimited) (ha : call.Admissible) :
    (call.apply r).Delimited :=
  ⟨BuilderCall.apply_writable h.writable ha, BuilderCall.apply_measured ha (.inl h.measured)⟩

theorem Delimited.setKeepAlive {r : HttpResponse} (h : r.Delimited) (keepAlive : Bool) :
    (r.setKeepAlive keepAlive).Delimited := by
  have hcall : (BuilderCall.setKeepAlive keepAlive).Admissible := trivial
  exact h.apply hcall

theorem Writable.delimited_setBody {r : HttpResponse} (h : r.Writable) (body : Bytes) :
    (r.setBody body).Delimited := ⟨h.setBody body, measured_setBody r body⟩

theorem writable_new_of_unbroken {date : Bytes} (hdate : Unbroken date) (status : HttpStatus) :
    (new status date).Writable := by
  have hnone : ({ status } : HttpResponse).Writable := fun _ _ h => nomatch h
  refine ((hnone.setHeader ?_).setHeader ?_).setHeader ?_
  · exact ⟨by decide, by decide, hdate⟩
  · exact ⟨by decide, by decide, by decide⟩
  · exact ⟨by decide, by decide, by decide⟩

/-- A body, and a content type that is one line, on a new response. -/
theorem delimited_page {date contentType : Bytes} (hdate : Unbroken date) (htype : Unbroken contentType)
    (status : HttpStatus) (body : Bytes) :
    (((new status date).setBody body).setContentType contentType).Delimited := by
  have hcall : (BuilderCall.setContentType contentType).Admissible := htype
  exact ((writable_new_of_unbroken hdate status).delimited_setBody body).apply hcall

theorem delimited_createErrorResponse {date : Bytes} (hdate : Unbroken date) (status : HttpStatus)
    (message : Bytes) : (createErrorResponse status message date).Delimited :=
  delimited_page hdate (by decide) status (errorPage status message)

/-! ## What a client makes of them -/

def headOf (order : MapOrder) (r : HttpResponse) : Bytes :=
  headText (statusLine r.status) ((order.arrange (r.headers.entries.map fun e => (e.1, e.2))).map fieldLine)

variable {order : MapOrder} {r : HttpResponse}

theorem Writable.fields (h : r.Writable) :
    ∀ f ∈ order.arrange (r.headers.entries.map fun e => (e.1, e.2)), WritableField f.1 f.2 := by
  intro f hf
  obtain ⟨e, he, rfl⟩ := List.mem_map.mp ((order.perm _).mem_iff.mp hf)
  exact h e.1 e.2 (AList.mem_lookup_iff.mpr he)

theorem Writable.lines (h : r.Writable) :
    ∀ line ∈ (order.arrange (r.headers.entries.map fun e => (e.1, e.2))).map fieldLine, IsLine line := by
  intro line hl
  obtain ⟨f, hf, rfl⟩ := List.mem_map.mp hl
  exact (h.fields f hf).isLine

/-- The head of a response, found in front of anything. -/
theorem Writable.find_head (h : r.Writable) (t : Bytes) :
    find (bytes "\r\n\r\n") (r.headOf order ++ bytes "\r\n\r\n" ++ t) = some (r.headOf order).length :=
  find_headText (isLine_statusLine r.status) h.lines t

theorem lookup_eq_dlookup (l : List (Bytes × Bytes)) (name : Bytes) :
    l.lookup name = (l.map fun f => (⟨f.1, f.2⟩ : Sigma fun _ : Bytes => Bytes)).dlookup name := by
  induction l with
  | nil => rfl
  | cons f l ih =>
    obtain ⟨n, v⟩ := f
    by_cases hn : name = n
    · subst hn
      simp
    · rw [List.map_cons, List.lookup_cons, List.dlookup_cons_ne _ _ hn, beq_false_of_ne hn]
      exact ih

/-- The order of the headers does not matter to who looks one up. -/
theorem lookup_arrange (order : MapOrder) (r : HttpResponse) (name : Bytes) :
    (order.arrange (r.headers.entries.map fun e => (e.1, e.2))).lookup name = r.headers.lookup name := by
  have hperm := (order.perm (r.headers.entries.map fun e => (e.1, e.2))).map
    fun f => (⟨f.1, f.2⟩ : Sigma fun _ : Bytes => Bytes)
  have hback : (r.headers.entries.map fun e => (e.1, e.2)).map
      (fun f => (⟨f.1, f.2⟩ : Sigma fun _ : Bytes => Bytes)) = r.headers.entries := by
    rw [List.map_map]
    exact List.map_id _
  rw [hback] at hperm
  rw [lookup_eq_dlookup]
  exact List.perm_dlookup name ((List.perm_nodupKeys hperm).mpr r.headers.nodupKeys) hperm

/-- What a client makes of bytes that begin with the head of a response. -/
theorem Delimited.takeReply_head (h : r.Delimited) (t : Bytes) :
    takeReply (r.headOf order ++ bytes "\r\n\r\n" ++ t) =
      if t.length < r.body.length then none
      else some (⟨statusLine r.status, order.arrange (r.headers.entries.map fun e => (e.1, e.2)),
        t.take r.body.length⟩, t.drop r.body.length) := by
  have h₄ : (bytes "\r\n\r\n").length = 4 := by decide
  have hdrop : (r.headOf order ++ bytes "\r\n\r\n" ++ t).drop ((r.headOf order).length + 4) = t := by
    rw [← h₄, ← List.length_append, List.drop_left]
  rw [takeReply, h.writable.find_head]
  simp only [Option.bind_eq_bind, Option.bind_some, hdrop]
  rw [List.append_assoc, List.take_left, headOf, stripCr_getlines (isLine_statusLine r.status) h.writable.lines]
  simp only [List.head?_cons, Option.bind_some, List.drop_one, List.tail_cons,
    mapM_readField h.writable.fields, lookup_arrange]
  rw [h.measured]
  simp only [Option.bind_some, digitsVal_decimal]

theorem toString_split (order : MapOrder) (r : HttpResponse) :
    r.toString order = r.headOf order ++ bytes "\r\n\r\n" ++ r.body := toString_eq order r

/-- **A response ends itself**: a client takes it off the front of what it has
received whatever comes after it, and takes nothing before all of it is there. -/
theorem delimits (order : MapOrder) :
    Messages.Delimits takeReply (fun r : HttpResponse => r.toString order) (reply order) Delimited := by
  refine ⟨fun r hr t => ?_, fun r hr p hp hne => ?_, rfl⟩
  · rw [toString_split, List.append_assoc, hr.takeReply_head, if_neg (by simp)]
    simp [reply]
  cases hfind : find (bytes "\r\n\r\n") p with
  | none => rw [takeReply, hfind]; rfl
  | some headEnd =>
    obtain ⟨later, hlater⟩ := hp
    rw [toString_split] at hlater hne
    -- the blank line that is there is that of the whole
    have hwhole := find_append hfind later
    rw [hlater, hr.writable.find_head] at hwhole
    obtain rfl := Option.some.inj hwhole
    obtain ⟨rest, hrest⟩ := find_spec hfind
    have hlength : (r.headOf order ++ bytes "\r\n\r\n").length ≤ p.length := by
      have h₄ : (bytes "\r\n\r\n").length = 4 := by decide
      have hp := congrArg List.length hrest
      simp only [List.length_append, List.length_take, h₄] at hp ⊢
      omega
    obtain ⟨t, rfl⟩ : r.headOf order ++ bytes "\r\n\r\n" <+: p :=
      List.prefix_of_prefix_length_le (List.prefix_append _ r.body) ⟨later, hlater⟩ hlength
    rw [List.append_assoc _ t, List.append_cancel_left_eq] at hlater
    have hshort : t.length < r.body.length := by
      have hle := congrArg List.length hlater
      rw [List.length_append] at hle
      have hpos : later ≠ [] := by
        rintro rfl
        exact hne (by rw [← hlater, List.append_nil])
      have := List.length_pos_iff.mpr hpos
      omega
    rw [hr.takeReply_head, if_pos hshort]

end HttpResponse

end Webserver
