/-
JSON texts as bytes: the grammar of RFC 8259, with the characters of a string
in UTF-8 (RFC 3629). What stands between quotation marks is told from the rest
by a scan with three places; it refuses a control character in a string, and
every text of the grammar passes it.
-/
import Mathlib

namespace Json

/-- `ws` -/
def IsWs (s : List UInt8) : Prop := ∀ b ∈ s, b ∈ ([32, 9, 10, 13] : List UInt8)

/-- A structural character, with white space about it. -/
inductive Structural (c : UInt8) : List UInt8 → Prop
  | mk {a b} (ha : IsWs a) (hb : IsWs b) : Structural c (a ++ c :: b)

def IsDigit (b : UInt8) : Prop := 48 ≤ b ∧ b ≤ 57

def IsHexDigit (b : UInt8) : Prop := IsDigit b ∨ (65 ≤ b ∧ b ≤ 70) ∨ (97 ≤ b ∧ b ≤ 102)

/-- `1*DIGIT` -/
def IsDigits (s : List UInt8) : Prop := s ≠ [] ∧ ∀ b ∈ s, IsDigit b

/-- `int` -/
def IsInt (s : List UInt8) : Prop := IsDigits s ∧ (s.head? = some 48 → s = [48])

/-- `[ frac ]` -/
inductive Frac : List UInt8 → Prop
  | absent : Frac []
  | present {s} (h : IsDigits s) : Frac (46 :: s)

/-- `[ exp ]` -/
inductive Exp : List UInt8 → Prop
  | absent : Exp []
  | plain {e s} (he : e ∈ ([101, 69] : List UInt8)) (h : IsDigits s) : Exp (e :: s)
  | signed {e p s} (he : e ∈ ([101, 69] : List UInt8)) (hp : p ∈ ([43, 45] : List UInt8)) (h : IsDigits s) :
    Exp (e :: p :: s)

/-- `int [ frac ] [ exp ]`, with or without a minus. -/
inductive Number : List UInt8 → Prop
  | plain {i f e} (hi : IsInt i) (hf : Frac f) (he : Exp e) : Number (i ++ f ++ e)
  | minus {i f e} (hi : IsInt i) (hf : Frac f) (he : Exp e) : Number (45 :: (i ++ f ++ e))

/-- `UTF8-tail` -/
def IsTail (b : UInt8) : Prop := 128 ≤ b ∧ b ≤ 191

/-- `UTF8-2 / UTF8-3 / UTF8-4`: a character beyond the first 128. -/
inductive Wide : List UInt8 → Prop
  | two {a b} (ha : 194 ≤ a ∧ a ≤ 223) (hb : IsTail b) : Wide [a, b]
  | e0 {b c} (hb : 160 ≤ b ∧ b ≤ 191) (hc : IsTail c) : Wide [224, b, c]
  | three {a b c} (ha : (225 ≤ a ∧ a ≤ 236) ∨ (238 ≤ a ∧ a ≤ 239)) (hb : IsTail b) (hc : IsTail c) :
    Wide [a, b, c]
  | ed {b c} (hb : 128 ≤ b ∧ b ≤ 159) (hc : IsTail c) : Wide [237, b, c]
  | f0 {b c d} (hb : 144 ≤ b ∧ b ≤ 191) (hc : IsTail c) (hd : IsTail d) : Wide [240, b, c, d]
  | four {a b c d} (ha : 241 ≤ a ∧ a ≤ 243) (hb : IsTail b) (hc : IsTail c) (hd : IsTail d) : Wide [a, b, c, d]
  | f4 {b c d} (hb : 128 ≤ b ∧ b ≤ 143) (hc : IsTail c) (hd : IsTail d) : Wide [244, b, c, d]

/-- A character of the first 128 that stands for itself in a string. -/
def IsPlain (b : UInt8) : Prop := 32 ≤ b ∧ b < 128 ∧ b ≠ 34 ∧ b ≠ 92

/-- `*char` -/
inductive Chars : List UInt8 → Prop
  | nil : Chars []
  | plain {b s} (hb : IsPlain b) (hs : Chars s) : Chars (b :: s)
  | wide {c s} (hc : Wide c) (hs : Chars s) : Chars (c ++ s)
  | escaped {b s} (hb : b ∈ ([34, 92, 47, 98, 102, 110, 114, 116] : List UInt8)) (hs : Chars s) :
    Chars (92 :: b :: s)
  | unicode {x s} (hx : ∀ b ∈ x, IsHexDigit b) (hlen : x.length = 4) (hs : Chars s) :
    Chars (92 :: 117 :: (x ++ s))

/-- `string` -/
inductive Str : List UInt8 → Prop
  | mk {s} (h : Chars s) : Str (34 :: (s ++ [34]))

/-- What of the grammar refers to itself: a value, the members of an object, the
values of an array. -/
inductive Part
  | value | members | values

/-- The texts of a part. -/
inductive Derives : Part → List UInt8 → Prop
  | falseText : Derives .value [102, 97, 108, 115, 101]
  | nullText : Derives .value [110, 117, 108, 108]
  | trueText : Derives .value [116, 114, 117, 101]
  | number {s} (h : Number s) : Derives .value s
  | string {s} (h : Str s) : Derives .value s
  | emptyObject {a b} (ha : Structural 123 a) (hb : Structural 125 b) : Derives .value (a ++ b)
  | object {a m b} (ha : Structural 123 a) (hm : Derives .members m) (hb : Structural 125 b) :
    Derives .value (a ++ m ++ b)
  | emptyArray {a b} (ha : Structural 91 a) (hb : Structural 93 b) : Derives .value (a ++ b)
  | array {a m b} (ha : Structural 91 a) (hm : Derives .values m) (hb : Structural 93 b) :
    Derives .value (a ++ m ++ b)
  | member {k c v} (hk : Str k) (hc : Structural 58 c) (hv : Derives .value v) : Derives .members (k ++ c ++ v)
  | members {k c v d m} (hk : Str k) (hc : Structural 58 c) (hv : Derives .value v) (hd : Structural 44 d)
    (hm : Derives .members m) : Derives .members (k ++ c ++ v ++ d ++ m)
  | one {v} (hv : Derives .value v) : Derives .values v
  | values {v d m} (hv : Derives .value v) (hd : Structural 44 d) (hm : Derives .values m) :
    Derives .values (v ++ d ++ m)

/-- `JSON-text` -/
inductive IsText : List UInt8 → Prop
  | mk {a v b} (ha : IsWs a) (hv : Derives .value v) (hb : IsWs b) : IsText (a ++ v ++ b)

/-! ## Printed objects -/

instance : DecidablePred IsPlain := fun b => inferInstanceAs (Decidable (32 ≤ b ∧ b < 128 ∧ b ≠ 34 ∧ b ≠ 92))

theorem chars_of_plain : ∀ {s : List UInt8}, (∀ b ∈ s, IsPlain b) → Chars s
  | [], _ => .nil
  | _ :: _, h => .plain (List.forall_mem_cons.mp h).1 (chars_of_plain (List.forall_mem_cons.mp h).2)

/-- `"name": value` -/
def printMember (f : List UInt8 × List UInt8) : List UInt8 := 34 :: (f.1 ++ [34]) ++ [58, 32] ++ f.2

/-- An object with a member a line: `indent` before each of them, `outdent`
before the closing bracket. -/
def printObject (indent outdent : List UInt8) (fields : List (List UInt8 × List UInt8)) : List UInt8 :=
  123 :: 10 :: indent ++ (44 :: 10 :: indent).intercalate (fields.map printMember) ++ 10 :: outdent ++ [125]

/-- A name that is a string and a value. -/
def IsField (f : List UInt8 × List UInt8) : Prop := Chars f.1 ∧ Derives .value f.2

theorem isWs_nil : IsWs [] := List.forall_mem_nil _

theorem IsWs.blank {s : List UInt8} (h : IsWs s) : IsWs (32 :: s) :=
  List.forall_mem_cons.mpr ⟨by decide, h⟩

theorem IsWs.newline {s : List UInt8} (h : IsWs s) : IsWs (10 :: s) :=
  List.forall_mem_cons.mpr ⟨by decide, h⟩

theorem derives_printMembers {indent : List UInt8} (hi : IsWs indent) :
    ∀ {fields : List (List UInt8 × List UInt8)}, fields ≠ [] → (∀ f ∈ fields, IsField f) →
      Derives .members ((44 :: 10 :: indent).intercalate (fields.map printMember))
  | [], hne, _ => absurd rfl hne
  | [f], _, h => by
    obtain ⟨hname, hvalue⟩ := h f (List.mem_singleton_self f)
    rw [List.map_singleton, List.intercalate_singleton]
    exact .member (.mk hname) (.mk isWs_nil isWs_nil.blank) hvalue
  | f :: g :: fields, _, h => by
    obtain ⟨⟨hname, hvalue⟩, hrest⟩ := List.forall_mem_cons.mp h
    have ih := derives_printMembers hi (List.cons_ne_nil g fields) hrest
    rw [List.map_cons, List.map_cons, List.intercalate_cons_cons, ← List.map_cons]
    exact .members (.mk hname) (.mk isWs_nil isWs_nil.blank) hvalue
      (.mk isWs_nil hi.newline) ih

theorem derives_printObject {indent outdent : List UInt8} {fields : List (List UInt8 × List UInt8)}
    (hi : IsWs indent) (ho : IsWs outdent) (hne : fields ≠ []) (h : ∀ f ∈ fields, IsField f) :
    Derives .value (printObject indent outdent fields) := by
  have hopen : Structural 123 (123 :: 10 :: indent) := .mk isWs_nil hi.newline
  have hclose : Structural 125 (10 :: outdent ++ [125]) := .mk ho.newline isWs_nil
  have hobject := Derives.object hopen (derives_printMembers hi hne h) hclose
  rwa [printObject, List.append_assoc _ (10 :: outdent)]

/-! ## The scan -/

/-- Where a scan is: out of strings, in one, or behind a backslash in one. -/
inductive Place
  | outside | inside | escape
  deriving DecidableEq

/-- One byte further; `none` where a string holds a control character. -/
def Place.step : Place → UInt8 → Option Place
  | .outside, b => some (if b = 34 then .inside else .outside)
  | .inside, b =>
    if b < 32 then none
    else if b = 34 then some .outside
    else if b = 92 then some .escape
    else some .inside
  | .escape, b => if b < 32 then none else some .inside

def scan (p : Place) (s : List UInt8) : Option Place := s.foldlM Place.step p

theorem scan_cons (p : Place) (b : UInt8) (s : List UInt8) : scan p (b :: s) = (p.step b).bind (scan · s) := rfl

theorem scan_append (p : Place) (s t : List UInt8) : scan p (s ++ t) = (scan p s).bind (scan · t) :=
  List.foldlM_append

/-- Bytes that leave the scan where it is. -/
theorem scan_stay {p : Place} : ∀ {s : List UInt8}, (∀ b ∈ s, p.step b = some p) → scan p s = some p
  | [], _ => rfl
  | b :: s, h => by
    obtain ⟨hb, hs⟩ := List.forall_mem_cons.mp h
    rw [scan_cons, hb]
    exact scan_stay hs

theorem scan_of_then {p q r : Place} {s t : List UInt8} (hs : scan p s = some q) (ht : scan q t = some r) :
    scan p (s ++ t) = some r := by
  rw [scan_append, hs]
  exact ht

theorem step_outside {b : UInt8} (h : b ≠ 34) : Place.step .outside b = some .outside := by
  simp [Place.step, h]

theorem step_inside {b : UInt8} (h : ¬b < 32) (hq : b ≠ 34) (he : b ≠ 92) :
    Place.step .inside b = some .inside := by
  simp [Place.step, h, hq, he]

/-- Bytes that are no quotation marks. -/
theorem scan_outside {s : List UInt8} (h : ∀ b ∈ s, b ≠ 34) : scan .outside s = some .outside :=
  scan_stay fun b hb => step_outside (h b hb)

theorem IsWs.scanned {s : List UInt8} (h : IsWs s) : scan .outside s = some .outside := by
  refine scan_outside fun b hb => ?_
  rintro rfl
  exact absurd (h _ hb) (by decide)

theorem Structural.scanned {c : UInt8} {s : List UInt8} (h : Structural c s) (hc : c ≠ 34) :
    scan .outside s = some .outside := by
  obtain ⟨ha, hb⟩ := h
  refine scan_of_then ha.scanned ?_
  rw [scan_cons, step_outside hc]
  exact hb.scanned

theorem IsDigit.ne_quote {b : UInt8} (h : IsDigit b) : b ≠ 34 := by
  rintro rfl
  exact absurd h.1 (by decide)

theorem IsDigits.scanned {s : List UInt8} (h : IsDigits s) : scan .outside s = some .outside :=
  scan_outside fun b hb => (h.2 b hb).ne_quote

theorem Frac.scanned {s : List UInt8} : Frac s → scan .outside s = some .outside
  | .absent => rfl
  | .present h => by
    rw [scan_cons, step_outside (by decide)]
    exact h.scanned

theorem ne_quote_of_mem {b : UInt8} {s : List UInt8} (hb : b ∈ s) (hs : 34 ∉ s) : b ≠ 34 := by
  rintro rfl
  exact hs hb

theorem Exp.scanned {s : List UInt8} : Exp s → scan .outside s = some .outside
  | .absent => rfl
  | .plain he h => by
    rw [scan_cons, step_outside (ne_quote_of_mem he (by decide))]
    exact h.scanned
  | .signed he hp h => by
    rw [scan_cons, step_outside (ne_quote_of_mem he (by decide))]
    change scan .outside _ = _
    rw [scan_cons, step_outside (ne_quote_of_mem hp (by decide))]
    exact h.scanned

theorem Number.scanned {s : List UInt8} : Number s → scan .outside s = some .outside
  | .plain hi hf he => scan_of_then (scan_of_then hi.1.scanned hf.scanned) he.scanned
  | .minus hi hf he => by
    rw [scan_cons, step_outside (by decide)]
    exact scan_of_then (scan_of_then hi.1.scanned hf.scanned) he.scanned

/-- A byte beyond the first 128. -/
theorem step_of_le {b : UInt8} (h : 128 ≤ b) : Place.step .inside b = some .inside := by
  refine step_inside ?_ ?_ ?_
  · exact UInt8.not_lt.mpr (UInt8.le_trans (by decide : (32 : UInt8) ≤ 128) h)
  · rintro rfl
    exact absurd h (by decide)
  · rintro rfl
    exact absurd h (by decide)

theorem Wide.le {s : List UInt8} (h : Wide s) : ∀ b ∈ s, 128 ≤ b := by
  have hle : ∀ {a b : UInt8}, a ≤ b → 128 ≤ a → 128 ≤ b := fun hab ha => UInt8.le_trans ha hab
  cases h with
  | two ha hb => simp [hle ha.1, hb.1]
  | e0 hb hc => simp [hle hb.1, hc.1]
  | @three a _ _ ha hb hc =>
    have ha : (128 : UInt8) ≤ a := ha.elim (fun h => hle h.1 (by decide)) fun h => hle h.1 (by decide)
    simp [ha, hb.1, hc.1]
  | ed hb hc => simp [hb.1, hc.1]
  | f0 hb hc hd => simp [hle hb.1, hc.1, hd.1]
  | four ha hb hc hd => simp [hle ha.1, hb.1, hc.1, hd.1]
  | f4 hb hc hd => simp [hb.1, hc.1, hd.1]

theorem IsPlain.step {b : UInt8} (h : IsPlain b) : Place.step .inside b = some .inside :=
  step_inside (UInt8.not_lt.mpr h.1) h.2.2.1 h.2.2.2

/-- A byte in a range of those that stand for themselves. -/
theorem isPlain_of_le {a b c : UInt8} (h : a ≤ b ∧ b ≤ c) (ha : 92 < a ∨ (34 < a ∧ c < 92)) (hc : c < 128) :
    IsPlain b := by
  simp only [UInt8.le_iff_toNat_le, UInt8.lt_iff_toNat_lt] at h ha hc
  simp only [IsPlain, UInt8.le_iff_toNat_le, UInt8.lt_iff_toNat_lt, ne_eq, ← UInt8.toNat_inj]
  simp only [UInt8.reduceToNat] at ha hc ⊢
  omega

theorem IsDigit.isPlain {b : UInt8} (h : IsDigit b) : IsPlain b := isPlain_of_le h (by decide) (by decide)

theorem IsHexDigit.isPlain {b : UInt8} : IsHexDigit b → IsPlain b
  | .inl h => h.isPlain
  | .inr (.inl h) => isPlain_of_le h (by decide) (by decide)
  | .inr (.inr h) => isPlain_of_le h (by decide) (by decide)

theorem Chars.scanned {s : List UInt8} (h : Chars s) : scan .inside s = some .inside := by
  induction h with
  | nil => rfl
  | plain hb _ ih => exact scan_of_then (scan_stay (List.forall_mem_singleton.mpr hb.step)) ih
  | wide hc _ ih => exact scan_of_then (scan_stay fun b hb => step_of_le (hc.le b hb)) ih
  | @escaped b s hb _ ih =>
    have hscan : ∀ b ∈ ([34, 92, 47, 98, 102, 110, 114, 116] : List UInt8),
        scan .inside [92, b] = some .inside := by simp [scan, Place.step]
    exact scan_of_then (hscan b hb) ih
  | @unicode x s hx _ _ ih =>
    refine scan_of_then (s := [92, 117]) (q := .inside) (by decide) (scan_of_then ?_ ih)
    exact scan_stay fun b hb => (hx b hb).isPlain.step

theorem Str.scanned {s : List UInt8} : Str s → scan .outside s = some .outside
  | .mk h => scan_of_then (s := [34]) (q := .inside) (by decide) (scan_of_then h.scanned (by decide))

theorem Derives.scanned {p : Part} {s : List UInt8} (h : Derives p s) : scan .outside s = some .outside := by
  induction h with
  | falseText | nullText | trueText => decide
  | number h => exact h.scanned
  | string h => exact h.scanned
  | emptyObject ha hb | emptyArray ha hb => exact scan_of_then (ha.scanned (by decide)) (hb.scanned (by decide))
  | object ha _ hb ih | array ha _ hb ih =>
    exact scan_of_then (scan_of_then (ha.scanned (by decide)) ih) (hb.scanned (by decide))
  | member hk hc _ ih => exact scan_of_then (scan_of_then hk.scanned (hc.scanned (by decide))) ih
  | members hk hc _ hd _ ihv ihm =>
    have hkey := scan_of_then hk.scanned (hc.scanned (by decide))
    exact scan_of_then (scan_of_then (scan_of_then hkey ihv) (hd.scanned (by decide))) ihm
  | one _ ih => exact ih
  | values _ hd _ ihv ihm => exact scan_of_then (scan_of_then ihv (hd.scanned (by decide))) ihm

theorem IsText.scanned {s : List UInt8} : IsText s → scan .outside s = some .outside
  | .mk ha hv hb => scan_of_then (scan_of_then ha.scanned hv.scanned) hb.scanned

/-- A control character where a string is open: the text is not of the grammar,
whatever follows. -/
theorem not_isText_of_control {s t : List UInt8} {b : UInt8} (hs : scan .outside s = some .inside) (hb : b < 32) :
    ¬IsText (s ++ b :: t) := by
  intro h
  have hscan := h.scanned
  rw [scan_append, hs, Option.bind_some, scan_cons, Place.step, if_pos hb] at hscan
  exact Option.some_ne_none _ hscan.symm

end Json
