/-
Whether a POST or PUT request keeps its body. `HttpRequest::parse` reads the
body line by line, drops a carriage return at the end of each line, and puts
a newline before every line but the first; what is lost then fails the length
check of `is_request_valid`.
-/
import Webserver.Message

namespace Cxx

theorem getlines_cons {d : UInt8} {s l : Bytes} {ls : List Bytes} (h : getlines d s = l :: ls)
    (b : UInt8) : getlines d (b :: s) = if b = d then [] :: l :: ls else (b :: l) :: ls := by
  rw [getlines, h]

theorem getlines_singleton (d b : UInt8) : getlines d [b] = [if b = d then [] else [b]] := by
  by_cases hb : b = d <;> simp [getlines, hb]

/-- Joined by the delimiter, the lines are the string but for a delimiter at
its end. -/
theorem getlines_join {d : UInt8} {s l : Bytes} {ls : List Bytes} (h : getlines d s = l :: ls) :
    l ++ ls.flatMap (d :: ·) ++ (if s.getLast? = some d then [d] else []) = s := by
  induction s generalizing l ls with
  | nil => cases h
  | cons b s ih =>
    cases hs : getlines d s with
    | nil =>
      rw [getlines_eq_nil.mp hs, getlines_singleton] at h
      obtain ⟨rfl, rfl⟩ := List.cons.inj h
      rw [getlines_eq_nil.mp hs]
      by_cases hb : b = d <;> simp [hb]
    | cons l' ls' =>
      have hne : s ≠ [] := fun hnil => by simp [hnil, getlines] at hs
      rw [List.getLast?_cons_of_ne_nil hne]
      rw [getlines_cons hs] at h
      have hjoin := ih hs
      by_cases hb : b = d
      · rw [if_pos hb] at h
        obtain ⟨rfl, rfl⟩ := List.cons.inj h
        rw [hb, List.nil_append, List.flatMap_cons]
        show d :: (l' ++ ls'.flatMap (d :: ·) ++ _) = d :: s
        rw [hjoin]
      · rw [if_neg hb] at h
        obtain ⟨rfl, rfl⟩ := List.cons.inj h
        show b :: (l' ++ ls'.flatMap (d :: ·) ++ _) = b :: s
        rw [hjoin]

/-- The first line is empty if the string starts with the delimiter. -/
theorem getlines_head_eq_nil {d : UInt8} {s l : Bytes} {ls : List Bytes}
    (h : getlines d s = l :: ls) : l = [] ↔ s.head? = some d := by
  cases s with
  | nil => cases h
  | cons b s =>
    have hl : (if b = d then [] else b :: (getlines d s).headD []) = l := by
      have := congrArg (·.headD []) h
      simp only [getlines, List.headD_cons] at this
      rw [← this]
      split
      · rfl
      · cases getlines d s <;> rfl
    by_cases hb : b = d <;> simp [← hl, hb]

/-- No line ends in `c`: the string does not, and no `c` stands before a
delimiter. -/
theorem getlines_getLast?_ne {c d : UInt8} (hc : c ≠ d) (s : Bytes) :
    (∀ l ∈ getlines d s, l.getLast? ≠ some c) ↔ s.getLast? ≠ some c ∧ ¬ [c, d] <:+: s := by
  induction s with
  | nil => simp [getlines]
  | cons b s ih =>
    cases hs : getlines d s with
    | nil =>
      have hinfix : ¬ [c, d] <:+: [b] := fun h => by simpa using h.length_le
      rw [getlines_eq_nil.mp hs, getlines_singleton, List.forall_mem_singleton]
      by_cases hb : b = d
      · rw [if_pos hb]
        exact ⟨fun _ => ⟨by simp [hb, hc.symm], hinfix⟩, fun _ => by simp⟩
      · rw [if_neg hb]
        exact ⟨fun h => ⟨h, hinfix⟩, fun h => h.1⟩
    | cons l ls =>
      have hne : s ≠ [] := fun hnil => by simp [hnil, getlines] at hs
      have hprefix : [c, d] <+: b :: s ↔ b = c ∧ s.head? = some d := by
        obtain ⟨b', s', rfl⟩ := List.exists_cons_of_ne_nil hne
        simp [List.cons_prefix_cons, eq_comm]
      have hhead := getlines_head_eq_nil hs
      rw [hs, List.forall_mem_cons] at ih
      rw [getlines_cons hs, List.getLast?_cons_of_ne_nil hne, List.infix_cons_iff, hprefix]
      by_cases hb : b = d
      · have hbc : b ≠ c := fun h => hc (h.symm.trans hb)
        rw [if_pos hb, List.forall_mem_cons, List.forall_mem_cons, ih]
        simp [hbc]
      · rw [if_neg hb, List.forall_mem_cons]
        by_cases hl : l = []
        · subst hl
          simp only [List.getLast?_singleton, hhead.mp rfl] at ih ⊢
          grind
        · rw [List.getLast?_cons_of_ne_nil hl, ih]
          have : s.head? ≠ some d := fun h => hl (hhead.mpr h)
          simp [this]

end Cxx

namespace Webserver.Message

open Cxx HttpRequest

/-- Every byte of the body is read back: no newline at its start or end, no
carriage return at its end or before a newline. -/
def Intact (body : Bytes) : Prop :=
  body = [] ∨ body.head? ≠ some lf ∧ body.getLast? ≠ some lf ∧ body.getLast? ≠ some cr ∧
    ¬ [cr, lf] <:+: body

instance (body : Bytes) : Decidable (Intact body) := by
  unfold Intact
  infer_instance

theorem foldl_addLine {acc : Bytes} (hacc : acc ≠ []) (lines : List Bytes) :
    lines.foldl addLine acc = acc ++ lines.flatMap (lf :: ·) := by
  induction lines generalizing acc with
  | nil => simp
  | cons line lines ih =>
    have hline : addLine acc line = acc ++ lf :: line := by simp [addLine, hacc]
    rw [List.foldl_cons, hline, ih (by simp), List.flatMap_cons, List.append_assoc]

theorem length_stripCr_le (line : Bytes) : (stripCr line).length ≤ line.length := by
  unfold stripCr
  split
  · simp
  · exact Nat.le_refl _

theorem length_foldl_addLine_le (acc : Bytes) (lines : List Bytes) :
    (lines.foldl addLine acc).length ≤ acc.length + (lines.flatMap (lf :: ·)).length := by
  induction lines generalizing acc with
  | nil => simp
  | cons line lines ih =>
    have hline : (addLine acc line).length ≤ acc.length + (line.length + 1) := by
      unfold addLine
      split <;> simp
    have := ih (addLine acc line)
    simp only [List.foldl_cons, List.flatMap_cons, List.length_append, List.length_cons]
    omega

theorem length_flatMap_stripCr_le (lines : List Bytes) :
    ((lines.map stripCr).flatMap (lf :: ·)).length ≤ (lines.flatMap (lf :: ·)).length := by
  induction lines with
  | nil => exact Nat.le_refl _
  | cons line lines ih =>
    have := length_stripCr_le line
    simp only [List.map_cons, List.flatMap_cons, List.length_append, List.length_cons]
    omega

theorem getLast?_ne_of_length_stripCr {line : Bytes} (h : line.length ≤ (stripCr line).length) :
    line.getLast? ≠ some cr := by
  intro hlast
  obtain ⟨l, rfl⟩ := List.getLast?_eq_some_iff.mp hlast
  rw [stripCr_concat, List.length_append] at h
  exact absurd h (Nat.not_succ_le_self _)

/-- If stripping loses no byte, no line ends in a carriage return. -/
theorem getLast?_ne_of_length_flatMap {lines : List Bytes}
    (h : (lines.flatMap (lf :: ·)).length ≤ ((lines.map stripCr).flatMap (lf :: ·)).length) :
    ∀ line ∈ lines, line.getLast? ≠ some cr := by
  induction lines with
  | nil => simp
  | cons line lines ih =>
    have hline := length_stripCr_le line
    have hlines := length_flatMap_stripCr_le lines
    simp only [List.map_cons, List.flatMap_cons, List.length_append, List.length_cons] at h
    rw [List.forall_mem_cons]
    exact ⟨getLast?_ne_of_length_stripCr (by omega), ih (by omega)⟩

/-- A body that does not start with a newline, from its lines. -/
theorem reassembled_eq {body line : Bytes} {lines : List Bytes}
    (h : getlines lf body = line :: lines) :
    reassembled body = (lines.map stripCr).foldl addLine (stripCr line) := by
  rw [reassembled, h, List.map_cons, List.foldl_cons]
  rfl

/-- The body is never longer than what was sent. -/
theorem length_reassembled_le (body : Bytes) : (reassembled body).length ≤ body.length := by
  cases h : getlines lf body with
  | nil => simp [reassembled, h]
  | cons line lines =>
    have hjoin := congrArg List.length (getlines_join h)
    have hline := length_stripCr_le line
    have hlines := length_flatMap_stripCr_le lines
    have hfold := length_foldl_addLine_le (stripCr line) (lines.map stripCr)
    rw [reassembled_eq h]
    rw [List.length_append, List.length_append] at hjoin
    omega

/-- A newline at the start of the body is lost. -/
theorem reassembled_newline (body : Bytes) : reassembled (lf :: body) = reassembled body := by
  rw [reassembled, getlines, if_pos rfl]
  rfl

theorem reassembled_eq_self_iff (body : Bytes) : reassembled body = body ↔ Intact body := by
  by_cases hbody : body = []
  · subst hbody
    exact ⟨fun _ => .inl rfl, fun _ => rfl⟩
  by_cases hhead : body.head? = some lf
  · -- a leading newline is lost
    obtain ⟨body, rfl⟩ := List.head?_eq_some_iff.mp hhead
    refine ⟨fun h => ?_, fun h => absurd hhead (h.resolve_left hbody).1⟩
    have := length_reassembled_le body
    rw [← reassembled_newline, h, List.length_cons] at this
    omega
  obtain ⟨line, lines, h⟩ :=
    List.exists_cons_of_ne_nil (fun h => hbody (getlines_eq_nil.mp h) : getlines lf body ≠ [])
  have hline : line ≠ [] := fun hl => hhead ((getlines_head_eq_nil h).mp hl)
  have hcr := getlines_getLast?_ne (c := cr) (d := lf) (by decide) body
  have hjoin := getlines_join h
  rw [reassembled_eq h]
  rw [h] at hcr
  constructor
  · intro heq
    -- no byte can be lost, so none was a newline at the end or a stripped `\r`
    have hstrip := length_stripCr_le line
    have hstrips := length_flatMap_stripCr_le lines
    have hfold := length_foldl_addLine_le (stripCr line) (lines.map stripCr)
    have hlen := congrArg List.length hjoin
    rw [List.length_append, List.length_append] at hlen
    rw [heq] at hfold
    have hlast : body.getLast? ≠ some lf := by
      intro hlast
      rw [if_pos hlast, List.length_singleton] at hlen
      omega
    have hkept : ∀ l ∈ line :: lines, l.getLast? ≠ some cr := by
      rw [List.forall_mem_cons]
      exact ⟨getLast?_ne_of_length_stripCr (by omega), getLast?_ne_of_length_flatMap (by omega)⟩
    exact .inr ⟨hhead, hlast, hcr.mp hkept⟩
  · intro hintact
    obtain ⟨-, hlast, hcrs⟩ := hintact.resolve_left hbody
    have hkept := hcr.mpr hcrs
    have hid : lines.map stripCr = lines.map id :=
      List.map_congr_left fun l hl => stripCr_of_ne (hkept l (List.mem_cons_of_mem _ hl))
    rw [if_neg hlast, List.append_nil] at hjoin
    rw [stripCr_of_ne (hkept line List.mem_cons_self), hid, List.map_id,
      foldl_addLine hline, hjoin]

/-- A request with a body: a POST or PUT whose only `Content-Length` denotes
the length of its body. -/
structure Posts (m : Message) : Prop where
  wellFormed : m.WellFormed
  method : m.method = bytes "POST" ∨ m.method = bytes "PUT"
  length : ∃ f, m.fields.filter Field.isContentLength = [f] ∧ f.Denotes m.body.length

/-- A digit is neither white space nor a sign. -/
theorem isDigit_spec {b : UInt8} (h : isDigit b = true) :
    isSpace b = false ∧ b ≠ 45 ∧ b ≠ 43 := by
  simp only [isDigit, Bool.and_eq_true, decide_eq_true_eq, UInt8.le_iff_toNat_le] at h
  simp only [isSpace, Bool.or_eq_false_iff, Bool.and_eq_false_iff, beq_eq_false_iff_ne,
    decide_eq_false_iff_not, UInt8.le_iff_toNat_le, ne_eq, ← UInt8.toNat_inj] at h ⊢
  have h₁ : (48 : UInt8).toNat = 48 := rfl
  have h₂ : (57 : UInt8).toNat = 57 := rfl
  have h₃ : (13 : UInt8).toNat = 13 := rfl
  have h₄ : (32 : UInt8).toNat = 32 := rfl
  have h₅ : (45 : UInt8).toNat = 45 := rfl
  have h₆ : (43 : UInt8).toNat = 43 := rfl
  omega

theorem stoull_digits {s : Bytes} (hne : s ≠ []) (hd : ∀ b ∈ s, isDigit b = true) :
    stoull s = if 2 ^ 64 ≤ digitsVal s then none else some (digitsVal s) := by
  obtain ⟨b, s, rfl⟩ := List.exists_cons_of_ne_nil hne
  obtain ⟨hb, hminus, hplus⟩ := isDigit_spec (hd b List.mem_cons_self)
  have hspace : (b :: s).dropWhile isSpace = b :: s := List.dropWhile_cons_of_neg (by simp [hb])
  have hhead : ((b :: s).head? == some 45) = false ∧ ((b :: s).head? == some 43) = false := by
    simp [hminus, hplus]
  simp only [stoull, hspace, hhead.1, hhead.2, Bool.or_self, Bool.false_eq_true, if_false,
    List.takeWhile_eq_self_iff.mpr hd, if_neg hne]

/-- A request whose body is kept is valid, as long as its length is a `size_t`. -/
theorem Posts.valid_iff {m : Message} (h : m.Posts) (hbody : (parse m.toBytes).body = m.body) :
    (parse m.toBytes).valid = true ↔ m.body.length < 2 ^ 64 := by
  obtain ⟨hmethod, hpath, hversion, -, -, -, hvalid⟩ := h.wellFormed.readable.parse
  obtain ⟨f, hf, hlength⟩ := h.length
  have hheader : (parse m.toBytes).getHeader (bytes "content-length") = f.trimmed := by
    have hname : lower (bytes "content-length") = bytes "content-length" := by decide
    have hfields : (m.fields.filter fun f => lower f.name = bytes "content-length") = [f] := hf
    rw [h.wellFormed.readable.getHeader, hname, hfields]
    rfl
  have hpost : (parse m.toBytes).method = .post ∨ (parse m.toBytes).method = .put := by
    rw [hmethod]
    rcases h.method with hm | hm <;> rw [hm] <;> decide
  have hknown : (parse m.toBytes).method ≠ .unknown := hmethod ▸ h.wellFormed.method
  have hversion' : ¬ ((parse m.toBytes).version ≠ bytes "HTTP/1.0" ∧
      (parse m.toBytes).version ≠ bytes "HTTP/1.1") := by
    rw [hversion]
    have := h.wellFormed.version
    tauto
  have hstoull : stoull f.trimmed =
      if 2 ^ 64 ≤ m.body.length then none else some m.body.length := by
    rw [stoull_digits hlength.ne hlength.digits, hlength.val]
  rw [hvalid, isRequestValid, if_neg hknown, if_neg (not_not.mpr (hpath ▸ h.wellFormed.path)),
    if_neg hversion', if_neg (by rw [hpath, h.wellFormed.control]; decide), if_pos hpost,
    bodyLengthOk, hheader, if_neg hlength.ne, hstoull, hbody]
  by_cases hlt : 2 ^ 64 ≤ m.body.length
  · rw [if_pos hlt]
    exact ⟨nofun, fun h => absurd h (Nat.not_lt.mpr hlt)⟩
  · rw [if_neg hlt]
    exact ⟨fun _ => Nat.not_le.mp hlt, fun _ => if_neg (not_not.mpr rfl)⟩

/-- Exactly the bodies with every byte read back are kept, and then the
request is valid. -/
theorem parse_body_iff {m : Message} (h : m.Posts) :
    (parse m.toBytes).body = m.body ∧ (parse m.toBytes).valid = true ↔
      Intact m.body ∧ m.body.length < 2 ^ 64 := by
  obtain ⟨-, -, -, hbody, -⟩ := h.wellFormed.readable.parse
  rw [← reassembled_eq_self_iff, ← hbody]
  exact and_congr_right fun hb => h.valid_iff hb

/-- A form as a browser posts it. -/
def form (length : String) (body : String) : Message :=
  { method := bytes "POST", target := bytes "/submit", version := bytes "HTTP/1.1",
    fields := [⟨bytes "Host", bytes " localhost"⟩, ⟨bytes "Content-Length", bytes length⟩],
    body := bytes body }

theorem form_posts {length body : String} (hv : ∀ b ∈ bytes length, b ≠ cr ∧ b ≠ lf)
    (hd : Field.Denotes ⟨bytes "Content-Length", bytes length⟩ (bytes body).length) :
    (form length body).Posts := by
  have hmethod : stringToMethod (bytes "POST") ≠ .unknown := by decide
  have hpath : urlDecode (form length body).path = bytes "/submit" := by
    show urlDecode ((cut 63 (bytes "/submit")).map (·.1) |>.getD (bytes "/submit")) = _
    decide
  have htarget : bytes "/submit" ≠ [] ∧ ∀ b ∈ bytes "/submit", isSpace b = false := by
    decide +kernel
  have hname : bytes "Content-Length" ≠ [] ∧
      ∀ b ∈ bytes "Content-Length", isSpace b = false ∧ b ≠ 58 := by decide +kernel
  refine ⟨⟨hmethod, htarget.1, htarget.2, .inr rfl, hpath ▸ by decide, hpath ▸ by decide, ?_⟩,
    .inl rfl, _, rfl, hd⟩
  intro f hf
  rcases List.mem_pair.mp hf with rfl | rfl
  · exact ⟨by decide, by decide +kernel, by decide +kernel⟩
  · exact ⟨hname.1, hname.2, hv⟩

theorem parse_body_form :
    (parse (form " 6" "a=1\n\nb").toBytes).body = bytes "a=1\n\nb" ∧
      (parse (form " 6" "a=1\n\nb").toBytes).valid = true := by
  have h : (form " 6" "a=1\n\nb").Posts :=
    form_posts (by decide +kernel) ⟨by decide, by decide +kernel, by decide⟩
  exact (parse_body_iff h).mpr (by decide)

/-- Of the body `a\r\nb` two bytes are lost, and the request is refused. -/
theorem not_parse_body : ∃ m : Message, m.Posts ∧
    (parse m.toBytes).body ≠ m.body ∧ (parse m.toBytes).valid = false :=
  ⟨form "4" "a\r\nb", form_posts (by decide +kernel) ⟨by decide, by decide +kernel, by decide⟩,
    by decide +kernel⟩

end Webserver.Message
