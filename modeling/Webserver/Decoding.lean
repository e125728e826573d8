/-
Percent-decoding. `url_decode` leaves the two bytes after a `%` to `sscanf`,
which reads more than two hexadecimal digits; where it does not, the function
is the decoding it stands for.
-/
import Webserver.RequestFacts

namespace Cxx

/-! ## What `sscanf("%x")` reads of two bytes -/

/-- Of two bytes that are not both digits, `sscanf` reads one digit that
comes first, or one that comes after white space or a sign. -/
def misread (b c : UInt8) : Bool :=
  ((hexVal b).isSome && (hexVal c).isNone) ||
    ((isSpace b || b = 43 || b = 45) && (hexVal c).isSome)

theorem scanHex_cons_space {b : UInt8} (hb : isSpace b = true) (s : Bytes) :
    scanHex (b :: s) = scanHex s := by
  have hne : b ≠ 0 := by
    rintro rfl
    cases hb
  have hcstr : (cStr (b :: s)).dropWhile isSpace = (cStr s).dropWhile isSpace := by
    simp [cStr, hne, hb]
  rw [scanHex, scanHex, hcstr]

/-- One byte alone, and one after a sign. -/
theorem scanHex_oneByte (n : Fin 256) :
    scanHex [UInt8.ofFin n] = hexVal (UInt8.ofFin n) ∧ scanHex [43, UInt8.ofFin n] = hexVal (UInt8.ofFin n) ∧
    scanHex [45, UInt8.ofFin n] = (hexVal (UInt8.ofFin n)).map fun v => (2 ^ 32 - v) % 2 ^ 32 := by
  revert n
  decide +kernel

theorem scanHex_singleton (c : UInt8) : scanHex [c] = hexVal c := (scanHex_oneByte c.toFin).1

theorem scanHex_plus (c : UInt8) : scanHex [43, c] = hexVal c := (scanHex_oneByte c.toFin).2.1

theorem scanHex_minus (c : UInt8) :
    scanHex [45, c] = (hexVal c).map fun v => (2 ^ 32 - v) % 2 ^ 32 := (scanHex_oneByte c.toFin).2.2

theorem hexVal_range {b : UInt8} {x : Nat} (h : hexVal b = some x) :
    x < 16 ∧ (48 ≤ b.toNat ∧ b.toNat ≤ 57 ∨ 65 ≤ b.toNat ∧ b.toNat ≤ 70 ∨
      97 ≤ b.toNat ∧ b.toNat ≤ 102) := by
  simp only [hexVal, Bool.and_eq_true, decide_eq_true_eq, UInt8.le_iff_toNat_le, UInt8.reduceToNat] at h
  split at h
  · cases h
    omega
  · split at h
    · cases h
      omega
    · split at h
      · cases h
        omega
      · cases h

/-- A digit is neither white space nor a sign, and does not end the string. -/
theorem hexVal_plain {b : UInt8} {x : Nat} (h : hexVal b = some x) :
    isSpace b = false ∧ b ≠ 43 ∧ b ≠ 45 ∧ b ≠ 0 := by
  have hrange := (hexVal_range h).2
  simp only [isSpace, ← UInt8.toNat_inj, ne_eq, UInt8.reduceToNat, Bool.or_eq_false_iff,
    Bool.and_eq_false_iff, decide_eq_false_iff_not, beq_eq_false_iff_ne, UInt8.le_iff_toNat_le]
  omega

theorem scanHex_digits {b c : UInt8} {x y : Nat} (hb : hexVal b = some x) (hc : hexVal c = some y) :
    scanHex [b, c] = some (16 * x + y) := by
  obtain ⟨hspace, hplus, hminus, hzero⟩ := hexVal_plain hb
  obtain ⟨-, -, -, hzero'⟩ := hexVal_plain hc
  have hx := (hexVal_range hb).1
  have hy := (hexVal_range hc).1
  have hcstr : (cStr [b, c]).dropWhile isSpace = [b, c] := by simp [cStr, hzero, hzero', hspace]
  rw [scanHex, hcstr]
  simp only [List.head?_cons, beq_iff_eq, Option.some.injEq, hplus, hminus, Bool.or_eq_true,
    or_self, if_false]
  split
  · next h =>
    obtain ⟨-, h⟩ := List.cons.inj h
    rw [(List.cons.inj h).1] at hc
    cases hc
  · next h =>
    obtain ⟨-, h⟩ := List.cons.inj h
    rw [(List.cons.inj h).1] at hc
    cases hc
  · simp [hb, hc]
    omega

theorem scanHex_digit {b c : UInt8} {x : Nat} (hb : hexVal b = some x) (hc : hexVal c = none) :
    scanHex [b, c] = some x := by
  obtain ⟨hspace, hplus, hminus, hzero⟩ := hexVal_plain hb
  have hx := (hexVal_range hb).1
  have hcstr : (cStr [b, c]).dropWhile isSpace = if c = 0 then [b] else [b, c] := by
    by_cases h : c = 0 <;> simp [cStr, hzero, hspace, h]
  by_cases h₀ : c = 0
  · subst h₀
    rw [scanHex, hcstr]
    simp [hplus, hminus, hb]
    omega
  rw [if_neg h₀] at hcstr
  rw [scanHex, hcstr]
  simp only [List.head?_cons, beq_iff_eq, Option.some.injEq, hplus, hminus, Bool.or_eq_true,
    or_self, if_false]
  -- the `0` of a bare prefix is the digit read
  split
  · next h =>
    obtain ⟨rfl, hrest⟩ := List.cons.inj h
    obtain ⟨rfl, rfl⟩ := List.cons.inj hrest
    cases hb
    rfl
  · next h =>
    obtain ⟨rfl, hrest⟩ := List.cons.inj h
    obtain ⟨rfl, rfl⟩ := List.cons.inj hrest
    cases hb
    rfl
  · simp [hb, hc]
    omega

example : scanHex (bytes "0x") = some 0 := by decide +kernel

/-- A first byte that no number begins with. -/
theorem scanHex_other {b : UInt8} (hb : hexVal b = none) (hspace : isSpace b = false) (hplus : b ≠ 43)
    (hminus : b ≠ 45) (s : Bytes) : scanHex (b :: s) = none := by
  by_cases h₀ : b = 0
  · subst h₀
    rfl
  have hcstr : (cStr (b :: s)).dropWhile isSpace = b :: cStr s := by simp [cStr, h₀, hspace]
  rw [scanHex, hcstr]
  simp only [List.head?_cons, beq_iff_eq, Option.some.injEq, hplus, hminus, Bool.or_eq_true,
    or_self, if_false]
  split
  · next h =>
    rw [(List.cons.inj h).1] at hb
    cases hb
  · next h =>
    rw [(List.cons.inj h).1] at hb
    cases hb
  · simp [hb]

theorem scanHex_of_not_misread {b c : UInt8} (h : misread b c = false)
    (hdigits : hexVal b = none ∨ hexVal c = none) : scanHex [b, c] = none := by
  simp only [misread, Bool.or_eq_false_iff, Bool.and_eq_false_iff, decide_eq_false_iff_not] at h
  obtain ⟨hfirst, hsecond⟩ := h
  cases hb : hexVal b with
  | some x =>
    have hc : hexVal c = none := hdigits.resolve_left (by simp [hb])
    simp [hb, hc] at hfirst
  | none =>
    by_cases hc : hexVal c = none
    · by_cases hspace : isSpace b = true
      · rw [scanHex_cons_space hspace, scanHex_singleton, hc]
      by_cases hplus : b = 43
      · rw [hplus, scanHex_plus, hc]
      by_cases hminus : b = 45
      · rw [hminus, scanHex_minus, hc]
        rfl
      exact scanHex_other hb (by simpa using hspace) hplus hminus _
    · obtain ⟨⟨hspace, hplus⟩, hminus⟩ := hsecond.resolve_right (by simpa using hc)
      exact scanHex_other hb hspace hplus hminus _

/-- A number misread is no `%`. -/
theorem scanHex_of_misread {b c : UInt8} (h : misread b c = true) :
    ∃ v, scanHex [b, c] = some v ∧ UInt8.ofNat v ≠ 37 := by
  have small : ∀ v : Fin 16, UInt8.ofNat v ≠ 37 ∧ UInt8.ofNat ((2 ^ 32 - v.val) % 2 ^ 32) ≠ 37 := by
    decide
  simp only [misread, Bool.or_eq_true, Bool.and_eq_true, decide_eq_true_eq] at h
  rcases h with ⟨hb, hc⟩ | ⟨hb, hc⟩
  · obtain ⟨x, hb⟩ := Option.isSome_iff_exists.mp hb
    exact ⟨x, scanHex_digit hb (Option.isNone_iff_eq_none.mp hc), (small ⟨x, (hexVal_range hb).1⟩).1⟩
  · obtain ⟨x, hc⟩ := Option.isSome_iff_exists.mp hc
    obtain ⟨hplain, hminus⟩ := small ⟨x, (hexVal_range hc).1⟩
    rcases hb with (hb | rfl) | rfl
    · exact ⟨x, by rw [scanHex_cons_space hb, scanHex_singleton, hc], hplain⟩
    · exact ⟨x, by rw [scanHex_plus, hc], hplain⟩
    · exact ⟨_, by rw [scanHex_minus, hc]; rfl, hminus⟩

end Cxx

namespace Webserver

open Cxx

namespace HttpRequest

/-! ## The decoding -/

/-- A byte as it is decoded outside an escape. -/
def plainByte (b : UInt8) : UInt8 := if b = 43 then 32 else b

/-- Percent-decoding: `%` and two hexadecimal digits stand for a byte, `+`
for a space, and every other byte for itself. -/
def percentDecode : Bytes → Bytes
  | [] => []
  | [a] => [plainByte a]
  | [a, b] => [plainByte a, plainByte b]
  | a :: b :: c :: s =>
    if a = 37 then
      match hexVal b, hexVal c with
      | some hi, some lo => UInt8.ofNat (16 * hi + lo) :: percentDecode s
      | _, _ => 37 :: percentDecode (b :: c :: s)
    else plainByte a :: percentDecode (b :: c :: s)

/-- No `%` that the scan comes to stands before two bytes that are misread. -/
def WellRead : Bytes → Prop
  | a :: b :: c :: s =>
    if a = 37 then
      if (hexVal b).isSome ∧ (hexVal c).isSome then WellRead s
      else misread b c = false ∧ WellRead (b :: c :: s)
    else WellRead (b :: c :: s)
  | _ => True

variable {b c : UInt8} {x y : Nat}

theorem percentDecode_escape (hb : hexVal b = some x) (hc : hexVal c = some y) (s : Bytes) :
    percentDecode (37 :: b :: c :: s) = UInt8.ofNat (16 * x + y) :: percentDecode s := by
  simp [percentDecode, hb, hc]

/-- A `%` that begins no escape is kept, and so is what follows it. -/
theorem percentDecode_percent (h : hexVal b = none ∨ hexVal c = none) (s : Bytes) :
    percentDecode (37 :: b :: c :: s) = 37 :: percentDecode (b :: c :: s) := by
  rw [percentDecode, if_pos rfl]
  split
  · next hb hc =>
    rcases h with h | h
    · rw [h] at hb
      cases hb
    · rw [h] at hc
      cases hc
  · rfl

/-- **`url_decode` is percent-decoding** exactly where `sscanf` misreads
nothing. -/
theorem urlDecode_eq_iff (s : Bytes) : urlDecode s = percentDecode s ↔ WellRead s := by
  induction s using urlDecode.induct with
  | case1 => simp [urlDecode, percentDecode, WellRead]
  | case2 a => simp [urlDecode, percentDecode, WellRead, plainByte]
  | case3 a b ih => simp [urlDecode, percentDecode, WellRead, plainByte]
  | case4 b c s v hv ih =>
    have hcode : urlDecode (37 :: b :: c :: s) = UInt8.ofNat v :: urlDecode s := by
      simp [urlDecode, hv]
    rw [hcode, WellRead, if_pos rfl]
    by_cases hdigits : (hexVal b).isSome ∧ (hexVal c).isSome
    · obtain ⟨x, hb⟩ := Option.isSome_iff_exists.mp hdigits.1
      obtain ⟨y, hc⟩ := Option.isSome_iff_exists.mp hdigits.2
      obtain rfl : v = 16 * x + y := Option.some.inj (hv.symm.trans (scanHex_digits hb hc))
      rw [if_pos hdigits, percentDecode_escape hb hc, ← ih]
      exact ⟨fun h => (List.cons.inj h).2, fun h => by rw [h]⟩
    · have hnot : hexVal b = none ∨ hexVal c = none := by
        simpa [← Option.isNone_iff_eq_none, imp_iff_not_or] using hdigits
      rw [if_neg hdigits, percentDecode_percent hnot]
      -- the number that is read takes the place of the `%`
      cases hm : misread b c with
      | false =>
        rw [scanHex_of_not_misread hm hnot] at hv
        cases hv
      | true =>
        obtain ⟨v', hv', hne⟩ := scanHex_of_misread hm
        obtain rfl : v = v' := Option.some.inj (hv.symm.trans hv')
        simp [hne]
  | case5 b c s hv ih =>
    have hnot : hexVal b = none ∨ hexVal c = none := by
      by_contra hdigits
      simp only [not_or, ← ne_eq, Option.ne_none_iff_exists'] at hdigits
      obtain ⟨⟨x, hb⟩, y, hc⟩ := hdigits
      rw [scanHex_digits hb hc] at hv
      cases hv
    have hm : misread b c = false := by
      by_contra hm
      obtain ⟨v, hv', -⟩ := scanHex_of_misread (by simpa using hm)
      rw [hv'] at hv
      cases hv
    have hcode : urlDecode (37 :: b :: c :: s) = 37 :: urlDecode (b :: c :: s) := by
      simp [urlDecode, hv]
    have hdigits : ¬((hexVal b).isSome ∧ (hexVal c).isSome) := by
      rcases hnot with h | h <;> simp [h]
    rw [hcode, percentDecode_percent hnot, WellRead, if_pos rfl, if_neg hdigits, ← ih]
    exact ⟨fun h => ⟨hm, (List.cons.inj h).2⟩, fun h => by rw [h.2]⟩
  | case6 a b c s ha ih =>
    have hcode : urlDecode (a :: b :: c :: s) = plainByte a :: urlDecode (b :: c :: s) := by
      simp [urlDecode, ha, plainByte]
    rw [hcode, percentDecode, if_neg ha, WellRead, if_neg ha, ← ih]
    exact ⟨fun h => (List.cons.inj h).2, fun h => by rw [h]⟩

/-- `%4G` is read as the byte 4, and the `G` is swallowed. -/
theorem not_urlDecode_eq : ¬ ∀ s, urlDecode s = percentDecode s := by
  intro h
  have := h (bytes "%4G")
  revert this
  decide

/-! ## The paths that are accepted -/

/-- An ASCII control character. -/
def isAsciiControl (b : UInt8) : Bool := b < 0x20 || b == 0x7F

/-- A path that begins with a slash and has no control character. -/
structure Acceptable (path : Bytes) : Prop where
  slash : path.head? = some 47
  plain : ∀ b ∈ path, isAsciiControl b = false

/-- The path of a target, decoded. -/
def decodedPath (target : Bytes) : Bytes := urlDecode (target.takeWhile (· ≠ 63))

/-- As a signed `char`, a byte from `0x80` on is below every ASCII character. -/
theorem isControl_eq (b : UInt8) : isControl b = (isAsciiControl b || 0x80 ≤ b) := by
  have hint : b.toInt8.toInt = if 2 * b.toNat < 256 then (b.toNat : Int) else b.toNat - 256 :=
    BitVec.toInt_eq_toNat_cond b.toBitVec
  have hlt : b.toInt8 < 0x20 ↔ b < 0x20 ∨ 0x80 ≤ b := by
    have hb := b.toNat_lt
    rw [Int8.lt_iff_toInt_lt, UInt8.lt_iff_toNat_lt, UInt8.le_iff_toNat_le, hint]
    simp only [Int8.reduceToInt, UInt8.reduceToNat]
    split <;> omega
  rw [isControl, isAsciiControl, decide_eq_decide.mpr hlt, Bool.decide_or, Bool.or_right_comm]

/-- The checks on a GET. -/
theorem isRequestValid_get {r : HttpRequest} (hmethod : r.method = .get)
    (hversion : r.version = bytes "HTTP/1.0" ∨ r.version = bytes "HTTP/1.1") :
    r.isRequestValid = true ↔ r.path.head? = some 47 ∧ ∀ b ∈ r.path, isControl b = false := by
  have hnot : ¬(r.version ≠ bytes "HTTP/1.0" ∧ r.version ≠ bytes "HTTP/1.1") := by
    rintro ⟨h₀, h₁⟩
    exact hversion.elim h₀ h₁
  simp only [isRequestValid, hmethod, if_neg hnot, reduceCtorEq, or_self, if_false]
  by_cases hslash : r.path.head? = some 47
  · simp [hslash]
  · simp [hslash]

/-- **A GET is accepted by the control-character rule** exactly where no byte
of an otherwise acceptable path is above the ASCII ones. -/
theorem valid_iff_acceptable_iff {raw first target version : Bytes} {lines : List Bytes}
    (hlines : getlines lf raw = first :: lines)
    (hwords : requestWords (stripCr first) = some (bytes "GET", target, version))
    (hversion : version = bytes "HTTP/1.0" ∨ version = bytes "HTTP/1.1") :
    ((parse raw).valid = true ↔ Acceptable (decodedPath target)) ↔
      (Acceptable (decodedPath target) → ∀ b ∈ decodedPath target, b < 0x80) := by
  obtain ⟨hmethod, hpath, hver⟩ := parse_firstLine hlines
  simp only [parseRequestLine, hwords, cut_fst] at hmethod hpath hver
  have hvalid : (parse raw).valid = (parse raw).isRequestValid := by
    have hraw : raw ≠ [] := by
      rintro rfl
      cases hlines
    rw [parse, if_neg hraw]
    rfl
  rw [hvalid, isRequestValid_get hmethod (hver ▸ hversion), hpath, ← decodedPath]
  have hplain : ∀ b : UInt8, isControl b = false ↔ isAsciiControl b = false ∧ b < 0x80 := by
    intro b
    rw [isControl_eq, Bool.or_eq_false_iff, decide_eq_false_iff_not, UInt8.not_le]
  simp only [hplain]
  constructor
  · intro h hok b hb
    exact ((h.mpr hok).2 b hb).2
  · intro h
    refine ⟨fun hc => ⟨hc.1, fun b hb => (hc.2 b hb).1⟩, fun hok => ⟨hok.slash, fun b hb => ?_⟩⟩
    exact ⟨hok.plain b hb, h hok b hb⟩

theorem valid_iff_acceptable_iff_get :
    ((parse (bytes "GET /a%20b HTTP/1.1\r\n\r\n")).valid = true ↔
        Acceptable (decodedPath (bytes "/a%20b"))) ↔
      (Acceptable (decodedPath (bytes "/a%20b")) → ∀ b ∈ decodedPath (bytes "/a%20b"), b < 0x80) :=
  @valid_iff_acceptable_iff _ (bytes "GET /a%20b HTTP/1.1\r") _ (bytes "HTTP/1.1") [[cr]]
    (by decide) (by decide) (.inr rfl)

/-- An encoded `é` is refused. -/
theorem not_valid_iff_acceptable : ¬ ∀ (raw first target version : Bytes) (lines : List Bytes),
    getlines lf raw = first :: lines →
    requestWords (stripCr first) = some (bytes "GET", target, version) →
    (version = bytes "HTTP/1.0" ∨ version = bytes "HTTP/1.1") →
    ((parse raw).valid = true ↔ Acceptable (decodedPath target)) := by
  intro h
  have hvalid := (h (bytes "GET /%C3%A9 HTTP/1.1\r\n\r\n") (bytes "GET /%C3%A9 HTTP/1.1\r")
    (bytes "/%C3%A9") (bytes "HTTP/1.1") [[cr]] (by decide) (by decide) (.inr rfl)).mpr
    ⟨by decide +kernel, by decide +kernel⟩
  have hnot : (parse (bytes "GET /%C3%A9 HTTP/1.1\r\n\r\n")).valid = false := by decide
  rw [hvalid] at hnot
  cases hnot

end HttpRequest

end Webserver
