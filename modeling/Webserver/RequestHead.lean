/-
Request heads as a client renders them, with the path and the query
parameters percent-encoded, and what `HttpRequest::parse` gives back: the
inverse in stages, from the bytes of a component to the parts of the target
and the fields.
-/
import Webserver.Message

namespace Cxx

/-! ## Percent-encoding -/

/-- A letter, a digit or one of `-._~`. -/
def isUnreserved (b : UInt8) : Bool :=
  (65 ≤ b && b ≤ 90) || (97 ≤ b && b ≤ 122) || isDigit b || b == 45 || b == 46 || b == 95 || b == 126

/-- A hexadecimal digit, in upper or lower case. -/
def hexDigit (upper : Bool) (n : Nat) : UInt8 :=
  if n < 10 then (48 + n).toUInt8 else if upper then (55 + n).toUInt8 else (87 + n).toUInt8

/-- A byte that is kept, or `%` and its two digits. -/
def percentEncodeByte (upper : Bool) (keep : UInt8 → Bool) (b : UInt8) : Bytes :=
  if keep b then [b] else [37, hexDigit upper (b.toNat / 16), hexDigit upper (b.toNat % 16)]

def percentEncode (upper : Bool) (keep : UInt8 → Bool) (s : Bytes) : Bytes :=
  s.flatMap (percentEncodeByte upper keep)

/-- The bytes of an encoded component. -/
def isEncoded (keep : UInt8 → Bool) (b : UInt8) : Bool := keep b || isUnreserved b || b == 37

theorem isUnreserved_hexDigit (upper : Bool) (n : Fin 16) : isUnreserved (hexDigit upper n) = true := by
  revert upper n
  decide

theorem scanHex_hexDigits (upper : Bool) (hi lo : Fin 16) :
    scanHex [hexDigit upper hi, hexDigit upper lo] = some (16 * hi.val + lo.val) := by
  revert upper hi lo
  decide

theorem scanHex_byte (upper : Bool) (b : UInt8) :
    scanHex [hexDigit upper (b.toNat / 16), hexDigit upper (b.toNat % 16)] = some b.toNat := by
  have hb : b.toNat < 256 := UInt8.toNat_lt b
  have h := scanHex_hexDigits upper ⟨b.toNat / 16, by omega⟩ ⟨b.toNat % 16, by omega⟩
  have hval : 16 * (b.toNat / 16) + b.toNat % 16 = b.toNat := by omega
  rw [h, hval]

theorem isEncoded_of_mem {upper : Bool} {keep : UInt8 → Bool} {s : Bytes} {b : UInt8}
    (h : b ∈ percentEncode upper keep s) : isEncoded keep b = true := by
  obtain ⟨a, -, ha⟩ := List.mem_flatMap.mp h
  have hlt : a.toNat < 256 := UInt8.toNat_lt a
  unfold percentEncodeByte at ha
  split at ha
  · next hk =>
    rw [List.mem_singleton.mp ha]
    simp [isEncoded, hk]
  · simp only [List.mem_cons, List.not_mem_nil, or_false] at ha
    rcases ha with rfl | rfl | rfl
    · simp [isEncoded]
    · simp [isEncoded, isUnreserved_hexDigit upper ⟨a.toNat / 16, by omega⟩]
    · simp [isEncoded, isUnreserved_hexDigit upper ⟨a.toNat % 16, by omega⟩]

/-! ## Pieces -/

/-- `getline` takes apart what was put together with the delimiter. -/
theorem getlines_intercalate {d : UInt8} {pieces : List Bytes}
    (h : ∀ p ∈ pieces, p ≠ [] ∧ d ∉ p) : getlines d ([d].intercalate pieces) = pieces := by
  induction pieces with
  | nil => rfl
  | cons p pieces ih =>
    obtain ⟨hne, hd⟩ := h p List.mem_cons_self
    cases pieces with
    | nil =>
      have hsplit := splitOn_eq_getlines d p
      have hlast : ¬ (p = [] ∨ p.getLast? = some d) := by
        rintro (hp | hp)
        · exact hne hp
        · exact hd (List.mem_of_getLast? hp)
      rw [if_neg hlast, List.append_nil, List.splitOn_eq_singleton hd] at hsplit
      simpa using hsplit.symm
    | cons q pieces =>
      have := ih fun p' hp' => h p' (List.mem_cons_of_mem _ hp')
      rw [List.intercalate_cons_cons, List.append_assoc, List.singleton_append, getlines_line hd, this]

theorem cut_eq_none {c : UInt8} {s : Bytes} (h : c ∉ s) : cut c s = none := by
  induction s with
  | nil => rfl
  | cons b s ih =>
    have hb : b ≠ c := fun hb => h (by simp [hb])
    simp [cut, hb, ih fun hm => h (List.mem_cons_of_mem _ hm)]

end Cxx

namespace Webserver

open Cxx

namespace HttpRequest

theorem urlDecode_cons {b : UInt8} (hp : b ≠ 37) (hs : b ≠ 43) (s : Bytes) :
    urlDecode (b :: s) = b :: urlDecode s := by
  rcases s with _ | ⟨_, _ | ⟨_, _⟩⟩ <;> simp [urlDecode, hp, hs]

/-- `url_decode` undoes the encoding, where `%` and `+` are encoded. -/
theorem urlDecode_percentEncode {upper : Bool} {keep : UInt8 → Bool} (hp : keep 37 = false)
    (hs : keep 43 = false) (s : Bytes) : urlDecode (percentEncode upper keep s) = s := by
  induction s with
  | nil => rfl
  | cons b s ih =>
    rw [percentEncode, List.flatMap_cons, percentEncodeByte]
    split
    · next hk =>
      have h₁ : b ≠ 37 := fun h => by simp [h, hp] at hk
      have h₂ : b ≠ 43 := fun h => by simp [h, hs] at hk
      rw [List.singleton_append, urlDecode_cons h₁ h₂]
      exact congrArg (b :: ·) ih
    · rw [List.cons_append, List.cons_append, List.cons_append, List.nil_append, urlDecode,
        if_pos rfl, scanHex_byte]
      exact congrArg₂ List.cons UInt8.ofNat_toNat ih

end HttpRequest

/-! ## Heads -/

/-- What a client asks for. -/
structure RequestHead where
  method : HttpMethod
  path : Bytes
  query : StringMap
  version : Bytes
  headers : List (Bytes × Bytes)

namespace RequestHead

open HttpRequest

/-- A byte of a token. -/
def isTokenChar (b : UInt8) : Bool :=
  (65 ≤ b && b ≤ 90) || (97 ≤ b && b ≤ 122) || isDigit b || (bytes "!#$%&'*+-.^_`|~").contains b

structure WellFormed (r : RequestHead) : Prop where
  method : r.method ≠ .unknown
  path : r.path.head? = some 47
  version : r.version = bytes "HTTP/1.0" ∨ r.version = bytes "HTTP/1.1"
  name : ∀ h ∈ r.headers, h.1 ≠ [] ∧ ∀ b ∈ h.1, isTokenChar b = true
  value : ∀ h ∈ r.headers, ∀ b ∈ h.2, b ≠ cr ∧ b ≠ lf

variable (upper mark : Bool) (r : RequestHead)

/-- The path keeps its slashes. -/
def encodedPath : Bytes := percentEncode upper (fun b => isUnreserved b || b == 47) r.path

def encode (s : Bytes) : Bytes := percentEncode upper isUnreserved s

def pairs : List Bytes :=
  r.query.entries.map fun e => encode upper e.1 ++ 61 :: encode upper e.2

/-- The query string; with `mark`, a `?` stands before an empty one too. -/
def encodedQuery : Bytes :=
  if r.query.entries = [] ∧ mark = false then [] else 63 :: [38].intercalate (r.pairs upper)

def render : Bytes :=
  methodToString r.method ++ bytes " " ++ r.encodedPath upper ++ r.encodedQuery upper mark ++
    bytes " " ++ r.version ++ bytes "\r\n" ++
    r.headers.flatMap (fun h => h.1 ++ bytes ": " ++ h.2 ++ bytes "\r\n") ++ bytes "\r\n"

/-- The head as a message without a body. -/
def message : Message where
  method := methodToString r.method
  target := r.encodedPath upper ++ r.encodedQuery upper mark
  version := r.version
  fields := r.headers.map fun h => ⟨h.1, 32 :: h.2⟩
  body := []

theorem render_eq : r.render upper mark = (r.message upper mark).toBytes := by
  have hspace : bytes " " = [32] := by decide
  have hcolon : bytes ": " = [58, 32] := by decide
  have hend : bytes "\r\n" = [cr, lf] := by decide
  simp [render, message, Message.toBytes, Message.head, Message.requestLine, Field.line,
    hspace, hcolon, hend, List.flatMap_map]

variable {upper mark r}

theorem isToken_facts {b : UInt8} (h : isTokenChar b = true) : isSpace b = false ∧ b ≠ 58 := by
  revert b
  decide +kernel

theorem isEncoded_path {b : UInt8} (h : b ∈ r.encodedPath upper) : isSpace b = false ∧ b ≠ 63 := by
  have hall : ∀ b, isEncoded (fun b => isUnreserved b || b == 47) b = true →
      isSpace b = false ∧ b ≠ 63 := by decide +kernel
  exact hall b (isEncoded_of_mem h)

theorem isEncoded_query {b : UInt8} {s : Bytes} (h : b ∈ encode upper s) :
    isSpace b = false ∧ b ≠ 38 ∧ b ≠ 61 := by
  have hall : ∀ b, isEncoded isUnreserved b = true → isSpace b = false ∧ b ≠ 38 ∧ b ≠ 61 := by
    decide +kernel
  exact hall b (isEncoded_of_mem h)

theorem pairs_facts {p : Bytes} (h : p ∈ r.pairs upper) :
    (p ≠ [] ∧ 38 ∉ p) ∧ ∀ b ∈ p, isSpace b = false := by
  obtain ⟨e, -, rfl⟩ := List.mem_map.mp h
  have bytesOf : ∀ b ∈ encode upper e.1 ++ 61 :: encode upper e.2, isSpace b = false ∧ b ≠ 38 := by
    intro b hb
    rcases List.mem_append.mp hb with hb | hb
    · exact ⟨(isEncoded_query hb).1, (isEncoded_query hb).2.1⟩
    · rcases List.mem_cons.mp hb with rfl | hb
      · decide
      · exact ⟨(isEncoded_query hb).1, (isEncoded_query hb).2.1⟩
  exact ⟨⟨by simp, fun hm => (bytesOf 38 hm).2 rfl⟩, fun b hb => (bytesOf b hb).1⟩

theorem isSpace_encodedQuery {b : UInt8} (h : b ∈ r.encodedQuery upper mark) : isSpace b = false := by
  have joined : ∀ l : List Bytes, (∀ p ∈ l, ∀ b ∈ p, isSpace b = false) →
      ∀ b ∈ [38].intercalate l, isSpace b = false := by
    intro l hl
    induction l with
    | nil => simp
    | cons p l ih =>
      cases l with
      | nil => simpa using hl p List.mem_cons_self
      | cons q l =>
        intro b hb
        rw [List.intercalate_cons_cons, List.append_assoc] at hb
        rcases List.mem_append.mp hb with hb | hb
        · exact hl p List.mem_cons_self b hb
        · rcases List.mem_cons.mp hb with rfl | hb
          · decide
          · exact ih (fun p' hp' => hl p' (List.mem_cons_of_mem _ hp')) b hb
  unfold encodedQuery at h
  split at h
  · cases h
  · rcases List.mem_cons.mp h with rfl | hb
    · decide
    · exact joined _ (fun p hp => (pairs_facts hp).2) b hb

theorem path_ne_nil (h : r.WellFormed) : r.encodedPath upper ≠ [] := by
  have hp := h.path
  cases hpath : r.path with
  | nil => simp [hpath] at hp
  | cons b s =>
    rw [encodedPath, hpath, percentEncode, List.flatMap_cons, percentEncodeByte]
    split <;> simp

theorem WellFormed.readable (h : r.WellFormed) : (r.message upper mark).Readable := by
  refine ⟨?_, by simp [message, path_ne_nil h], fun b hb => ?_, h.version, fun f hf => ?_⟩
  · have := h.method
    show stringToMethod (methodToString r.method) ≠ .unknown
    cases hm : r.method <;> first | exact absurd hm this | decide
  · rcases List.mem_append.mp hb with hb | hb
    · exact (isEncoded_path hb).1
    · exact isSpace_encodedQuery hb
  · obtain ⟨e, he, rfl⟩ := List.mem_map.mp hf
    obtain ⟨hne, htoken⟩ := h.name e he
    refine ⟨hne, fun b hb => isToken_facts (htoken b hb), fun b hb => ?_⟩
    rcases List.mem_cons.mp hb with rfl | hb
    · decide
    · exact h.value e he b hb

/-- The target comes apart at the `?`. -/
theorem cut_target : cut 63 (r.message upper mark).target =
    if r.query.entries = [] ∧ mark = false then none
    else some (r.encodedPath upper, [38].intercalate (r.pairs upper)) := by
  have hpath : (63 : UInt8) ∉ r.encodedPath upper := fun hm => (isEncoded_path hm).2 rfl
  show cut 63 (r.encodedPath upper ++ r.encodedQuery upper mark) = _
  unfold encodedQuery
  split
  · rw [List.append_nil, cut_eq_none hpath]
  · rw [cut_cons hpath]

theorem path_message : urlDecode (r.message upper mark).path = r.path := by
  have hpath : (r.message upper mark).path = r.encodedPath upper := by
    rw [Message.path, cut_target]
    split
    · next h => simp [message, encodedQuery, h]
    · rfl
  rw [hpath, encodedPath, urlDecode_percentEncode (by decide) (by decide)]

/-- One pair is read as it was written. -/
theorem parsePair_pair (m : StringMap) (k v : Bytes) :
    parsePair m (encode upper k ++ 61 :: encode upper v) = m.insert k v := by
  have hkey : (61 : UInt8) ∉ encode upper k := fun hm => (isEncoded_query hm).2.2 rfl
  have decoded : ∀ s, urlDecode (encode upper s) = s :=
    fun s => urlDecode_percentEncode (by decide) (by decide) s
  simp only [parsePair, cut_cons hkey, decoded]

theorem getlines_query : getlines 38 (r.message upper mark).query = r.pairs upper := by
  rw [Message.query, cut_target]
  split
  · next h => simp [pairs, h.1, getlines]
  · exact getlines_intercalate fun p hp => (pairs_facts hp).1

theorem lookup_foldl_insert (entries : List (Sigma fun _ : Bytes => Bytes)) (m : StringMap)
    (hnodup : entries.NodupKeys) (k : Bytes) :
    (entries.foldl (fun m e => m.insert e.1 e.2) m).lookup k = (entries.dlookup k).or (m.lookup k) := by
  induction entries generalizing m with
  | nil => simp
  | cons e entries ih =>
    obtain ⟨hnot, hrest⟩ := List.nodupKeys_cons.mp hnodup
    rw [List.foldl_cons, ih _ hrest]
    by_cases hk : k = e.1
    · subst hk
      have hnone : entries.dlookup e.1 = none := List.dlookup_eq_none.mpr hnot
      have hhead : (e :: entries).dlookup e.1 = some e.2 := List.dlookup_cons_eq entries e.1 e.2
      rw [hnone, hhead, AList.lookup_insert]
      rfl
    · rw [AList.lookup_insert_ne hk, List.dlookup_cons_ne _ _ hk]

theorem lookup_queryParams (k : Bytes) :
    ((getlines 38 (r.message upper mark).query).foldl parsePair ∅).lookup k = r.query.lookup k := by
  have hfold : (r.pairs upper).foldl parsePair ∅ =
      r.query.entries.foldl (fun m e => m.insert e.1 e.2) (∅ : StringMap) := by
    rw [pairs, List.foldl_map]
    simp only [parsePair_pair]
  rw [getlines_query, hfold, lookup_foldl_insert _ _ r.query.nodupKeys]
  simp [AList.lookup]

/-- **A request head is read back as it was rendered**: the method, the path,
the version and the query parameters, in whichever order these are written;
and under any letter case of a header's name the value of the last header of
that name, without the spaces and tabs around it. -/
theorem parse_render (upper mark : Bool) {r : RequestHead} (h : r.WellFormed) :
    (parse (r.render upper mark)).method = r.method ∧
    (parse (r.render upper mark)).path = r.path ∧
    (parse (r.render upper mark)).version = r.version ∧
    (∀ k, (parse (r.render upper mark)).queryParams.lookup k = r.query.lookup k) ∧
    ∀ before n v after, r.headers = before ++ (n, v) :: after →
      (∀ e ∈ after, lower e.1 ≠ lower n) → ∀ name, lower name = lower n →
      (parse (r.render upper mark)).getHeader name = trimRight (trimLeft v) := by
  have hread : (r.message upper mark).Readable := h.readable
  obtain ⟨hmethod, hpath, hversion, -, -, hquery, -⟩ := hread.parse
  rw [render_eq]
  refine ⟨hmethod.trans ?_, hpath.trans path_message, hversion,
    fun k => by rw [hquery]; exact lookup_queryParams k,
    fun before n v after heq hlast name hname => ?_⟩
  · show stringToMethod (methodToString r.method) = r.method
    have := h.method
    cases hm : r.method <;> first | exact absurd hm this | decide
  · have hnone : (after.map fun e => (⟨e.1, 32 :: e.2⟩ : Field)).filter
        (fun f => lower f.name = lower n) = [] := by
      refine List.filter_eq_nil_iff.mpr fun f hf => ?_
      obtain ⟨e, he, rfl⟩ := List.mem_map.mp hf
      simpa using hlast e he
    have hfields : (r.message upper mark).fields = before.map (fun e => (⟨e.1, 32 :: e.2⟩ : Field)) ++
        ⟨n, 32 :: v⟩ :: after.map fun e => ⟨e.1, 32 :: e.2⟩ := by simp [message, heq]
    have htrimmed : (⟨n, 32 :: v⟩ : Field).trimmed = trimRight (trimLeft v) := rfl
    rw [hread.getHeader, hfields, List.filter_append, hname,
      List.filter_cons_of_pos (by simp), hnone, List.getLast?_concat, Option.map_some, htrimmed]
    rfl

/-- A head with bytes to encode in each part, and one header given twice. -/
def search : RequestHead where
  method := .get
  path := bytes "/a b%"
  query := (∅ : StringMap).insert (bytes "q&") (bytes "1=2+3")
  version := bytes "HTTP/1.1"
  headers := [(bytes "Accept", bytes "*"), (bytes "accept", bytes " text/html\t")]

theorem wellFormed_search : search.WellFormed :=
  ⟨by decide, by decide +kernel, by decide +kernel, by decide +kernel, by decide +kernel⟩

theorem parse_render_search :
    (parse (search.render true false)).path = bytes "/a b%" ∧
      (parse (search.render true false)).queryParams.lookup (bytes "q&") = some (bytes "1=2+3") ∧
      (parse (search.render true false)).getHeader (bytes "ACCEPT") = bytes "text/html" := by
  obtain ⟨-, hpath, -, hquery, hheader⟩ := parse_render true false wellFormed_search
  refine ⟨hpath, (hquery _).trans (AList.lookup_insert _), ?_⟩
  exact (hheader [(bytes "Accept", bytes "*")] (bytes "accept") (bytes " text/html\t") [] rfl
    (List.forall_mem_nil _) (bytes "ACCEPT") (by decide)).trans (by decide)

end RequestHead

end Webserver
