/-
Client addresses as they are written: an IPv4 literal, or an IPv6 literal in
brackets where a port follows, with the IP each denotes. The rate limiter cuts
them at the last colon. That leaves an IPv4 literal whole; of an IPv6 literal
it takes the last group where no port follows, and leaves the brackets where
one does.
-/
import Webserver.ContentLength
import Webserver.Paths
import Webserver.RateLimiter
import Webserver.WireFormat

namespace Webserver

open Cxx

/-- The four octets of an IPv4 address, or the eight groups of an IPv6 address. -/
inductive Ip
  | v4 (octets : List Nat)
  | v6 (groups : List Nat)
  deriving DecidableEq

namespace Ip

/-- A decimal octet with no leading zero. -/
def isOctet (p : Bytes) : Bool := digitsVal p < 256 && decimal (digitsVal p) == p

/-- Four octets with periods between them. -/
def readV4 (s : Bytes) : Option (List Nat) :=
  if (s.splitOn 46).length = 4 ∧ (s.splitOn 46).all isOctet = true then some ((s.splitOn 46).map digitsVal) else none

/-- One to four hexadecimal digits. -/
def isGroup (p : Bytes) : Bool := p ≠ [] && p.length ≤ 4 && p.all fun b => (hexVal b).isSome

def groupVal (p : Bytes) : Nat := (p.filterMap hexVal).foldl (fun n d => 16 * n + d) 0

/-- Octets two by two. -/
def paired : List Nat → List Nat
  | a :: b :: rest => (256 * a + b) :: paired rest
  | _ => []

/-- The pieces between colons: groups, the last two of them perhaps written as
an IPv4 address. -/
def readPieces : List Bytes → Option (List Nat)
  | [] => some []
  | [p] => if isGroup p then some [groupVal p] else (readV4 p).map paired
  | p :: q :: ps => if isGroup p then (readPieces (q :: ps)).map (groupVal p :: ·) else none

/-- The part of a literal before `::`. -/
def readFront (s : Bytes) : Option (List Nat) :=
  if s = [] then some []
  else if (s.splitOn 58).all isGroup then some ((s.splitOn 58).map groupVal) else none

/-- The part of a literal after `::`. -/
def readBack (s : Bytes) : Option (List Nat) := if s = [] then some [] else readPieces (s.splitOn 58)

/-- Eight groups; `::` stands for one or more that are zero. -/
def readV6 (s : Bytes) : Option (List Nat) :=
  match find (bytes "::") s with
  | none => (readPieces (s.splitOn 58)).filter (·.length = 8)
  | some i =>
    match readFront (s.take i), readBack (s.drop (i + 2)) with
    | some front, some back =>
      if front.length + back.length ≤ 7 then
        some (front ++ List.replicate (8 - (front.length + back.length)) 0 ++ back)
      else none
    | _, _ => none

/-- The IP a literal denotes. -/
def read (s : Bytes) : Option Ip :=
  match readV4 s with
  | some octets => some (.v4 octets)
  | none => (readV6 s).map .v6

example : read (bytes "192.168.1.1") = some (.v4 [192, 168, 1, 1]) := by decide

example : read (bytes "::ffff:10.0.0.1") = some (.v6 [0, 0, 0, 0, 0, 65535, 2560, 1]) := by decide

/-! ## What literals are made of -/

theorem not_mem_intercalate {d b : UInt8} (hd : b ≠ d) : ∀ {pieces : List Bytes}, (∀ p ∈ pieces, b ∉ p) →
    b ∉ [d].intercalate pieces
  | [], _ => by simp
  | [p], h => by
    rw [List.intercalate_singleton]
    exact h p (List.mem_singleton_self p)
  | p :: q :: ps, h => by
    obtain ⟨hp, hps⟩ := List.forall_mem_cons.mp h
    rw [List.intercalate_cons_cons]
    simp only [List.mem_append, List.mem_singleton, not_or]
    exact ⟨⟨hp, hd⟩, not_mem_intercalate hd hps⟩

theorem not_mem_of_splitOn {d b : UInt8} {s : Bytes} (hd : b ≠ d) (h : ∀ p ∈ s.splitOn d, b ∉ p) : b ∉ s := by
  have hs : [d].intercalate (s.splitOn d) = s := List.intercalate_splitOn d
  rw [← hs]
  exact not_mem_intercalate hd h

theorem readV4_eq_some {s : Bytes} {octets : List Nat} (h : readV4 s = some octets) :
    octets.length = 4 ∧ octets = (s.splitOn 46).map digitsVal ∧ ∀ p ∈ s.splitOn 46, decimal (digitsVal p) = p := by
  unfold readV4 at h
  split at h
  · next hs =>
    have heq := (Option.some.inj h).symm
    refine ⟨by rw [heq, List.length_map, hs.1], heq, fun p hp => ?_⟩
    have hoctet := List.all_eq_true.mp hs.2 p hp
    simp only [isOctet, Bool.and_eq_true, beq_iff_eq] at hoctet
    exact hoctet.2
  · cases h

/-- An IPv4 literal is the only one of its address. -/
theorem readV4_injective {s t : Bytes} {octets : List Nat} (hs : readV4 s = some octets)
    (ht : readV4 t = some octets) : s = t := by
  obtain ⟨-, hso, hs⟩ := readV4_eq_some hs
  obtain ⟨-, hto, ht⟩ := readV4_eq_some ht
  have hpieces : s.splitOn 46 = t.splitOn 46 := by
    rw [← List.map_id (s.splitOn 46), ← List.map_id (t.splitOn 46)]
    calc (s.splitOn 46).map id
        = ((s.splitOn 46).map digitsVal).map decimal := by
          rw [List.map_map]
          exact List.map_congr_left fun p hp => (hs p hp).symm
      _ = ((t.splitOn 46).map digitsVal).map decimal := by rw [← hso, hto]
      _ = (t.splitOn 46).map id := by
          rw [List.map_map]
          exact List.map_congr_left fun p hp => ht p hp
  calc s = [46].intercalate (s.splitOn 46) := (List.intercalate_splitOn 46).symm
    _ = [46].intercalate (t.splitOn 46) := by rw [hpieces]
    _ = t := List.intercalate_splitOn 46

theorem digit_of_readV4 {s : Bytes} {octets : List Nat} (h : readV4 s = some octets) {b : UInt8} (hb : b ∈ s) :
    isDigit b = true ∨ b = 46 := by
  by_contra hcon
  obtain ⟨hdigit, hne⟩ := not_or.mp hcon
  refine absurd hb (not_mem_of_splitOn hne fun p hp hbp => hdigit ?_)
  rw [← (readV4_eq_some h).2.2 p hp] at hbp
  exact isDigit_of_mem_decimal hbp

/-- A piece of an IPv6 literal has no bracket. -/
theorem not_mem_group {p : Bytes} (h : isGroup p = true) : 91 ∉ p := by
  intro hb
  simp only [isGroup, Bool.and_eq_true] at h
  exact absurd (List.all_eq_true.mp h.2 91 hb) (by decide)

theorem not_mem_readV4 {s : Bytes} {octets : List Nat} (h : readV4 s = some octets) {b : UInt8}
    (hdigit : isDigit b = false) (hne : b ≠ 46) : b ∉ s := by
  intro hb
  rcases digit_of_readV4 h hb with hd | rfl
  · exact Bool.false_ne_true (hdigit.symm.trans hd)
  · exact hne rfl

theorem not_mem_readPieces : ∀ {pieces : List Bytes} {groups : List Nat}, readPieces pieces = some groups →
    ∀ p ∈ pieces, 91 ∉ p
  | [], _, _ => List.forall_mem_nil _
  | [p], groups, h => by
    rw [List.forall_mem_singleton]
    unfold readPieces at h
    split at h
    · next hp => exact not_mem_group hp
    · obtain ⟨octets, ho, -⟩ := Option.map_eq_some_iff.mp h
      exact not_mem_readV4 ho (by decide) (by decide)
  | p :: q :: ps, groups, h => by
    unfold readPieces at h
    split at h
    · next hp =>
      obtain ⟨rest, hrest, -⟩ := Option.map_eq_some_iff.mp h
      exact List.forall_mem_cons.mpr ⟨not_mem_group hp, not_mem_readPieces hrest⟩
    · cases h

theorem length_paired : ∀ l : List Nat, (paired l).length ≤ l.length / 2
  | [] | [_] => by simp [paired]
  | a :: b :: rest => by
    have ih := length_paired rest
    simp only [paired, List.length_cons]
    omega

theorem length_readPieces : ∀ {pieces : List Bytes} {groups : List Nat}, readPieces pieces = some groups →
    groups.length ≤ pieces.length + 1
  | [], groups, h => by
    cases h
    simp
  | [p], groups, h => by
    unfold readPieces at h
    split at h
    · cases h
      simp
    · obtain ⟨octets, ho, rfl⟩ := Option.map_eq_some_iff.mp h
      have hlength := (readV4_eq_some ho).1
      have hpaired := length_paired octets
      simp only [List.length_singleton]
      omega
  | p :: q :: ps, groups, h => by
    unfold readPieces at h
    split at h
    · obtain ⟨rest, hrest, rfl⟩ := Option.map_eq_some_iff.mp h
      have ih := length_readPieces hrest
      simp only [List.length_cons] at ih ⊢
      omega
    · cases h

theorem not_mem_readFront {s : Bytes} {groups : List Nat} (h : readFront s = some groups) : 91 ∉ s := by
  unfold readFront at h
  split at h
  · next hs => exact hs ▸ List.not_mem_nil
  · split at h
    · next hs =>
      exact not_mem_of_splitOn (by decide) fun p hp => not_mem_group (List.all_eq_true.mp hs p hp)
    · cases h

theorem not_mem_readBack {s : Bytes} {groups : List Nat} (h : readBack s = some groups) : 91 ∉ s := by
  unfold readBack at h
  split at h
  · next hs => exact hs ▸ List.not_mem_nil
  · exact not_mem_of_splitOn (by decide) (not_mem_readPieces h)

/-- An IPv6 literal has two colons at least, and no bracket. -/
theorem readV6_spec {s : Bytes} {groups : List Nat} (h : readV6 s = some groups) :
    3 ≤ (s.splitOn 58).length ∧ 91 ∉ s := by
  unfold readV6 at h
  split at h
  · obtain ⟨hread, hlength⟩ := Option.filter_eq_some_iff.mp h
    have hpieces := length_readPieces hread
    have hlength : groups.length = 8 := of_decide_eq_true hlength
    exact ⟨by omega, not_mem_of_splitOn (by decide) (not_mem_readPieces hread)⟩
  · next i hfind =>
    obtain ⟨rest, hs⟩ := find_spec hfind
    have hcolons : bytes "::" = [58, 58] := by decide
    rw [hcolons] at hs
    have hdrop : s.drop i = 58 :: 58 :: rest := by
      refine List.append_cancel_left (?_ : s.take i ++ s.drop i = s.take i ++ 58 :: 58 :: rest)
      rw [List.take_append_drop]
      simpa using hs
    have hback : s.drop (i + 2) = rest := by
      rw [← List.drop_drop, hdrop]
      rfl
    have hs : s = s.take i ++ 58 :: 58 :: rest := by simpa using hs
    split at h
    · next front back hf hb =>
      rw [hs]
      constructor
      · have hempty : (58 :: rest).splitOn 58 = [] :: rest.splitOn 58 :=
          List.splitOn_append_cons_self_of_not_mem List.not_mem_nil rest
        rw [List.splitOn_append_cons_self, hempty]
        have hfirst := List.length_pos_iff.mpr (List.splitOn_ne_nil 58 (s.take i))
        have hlast := List.length_pos_iff.mpr (List.splitOn_ne_nil 58 rest)
        simp only [List.length_append, List.length_cons]
        omega
      · have hmem := not_mem_readBack hb
        rw [hback] at hmem
        simp [not_mem_readFront hf, hmem]
    · cases h

theorem readV4_of_read {s : Bytes} {octets : List Nat} (h : read s = some (.v4 octets)) : readV4 s = some octets := by
  unfold read at h
  split at h
  · next o ho => simpa using ho.trans (by simpa using h)
  · simp at h

theorem readV6_of_read {s : Bytes} {groups : List Nat} (h : read s = some (.v6 groups)) : readV6 s = some groups := by
  unfold read at h
  split at h
  · simp at h
  · simpa using h

end Ip

/-! ## Addresses -/

/-- A client address: the literal of an IP, and the digits of a port if there is one. -/
structure Address where
  literal : Bytes
  port : Option Bytes
  ip : Ip
  reads : Ip.read literal = some ip
  digits : port.all (fun p => !p.isEmpty && p.all isDigit) = true
  deriving DecidableEq

namespace Address

/-- `IP` or `IP:port`, with brackets about an IPv6 literal where a port follows. -/
def text (a : Address) : Bytes :=
  match a.port, a.ip with
  | none, _ => a.literal
  | some port, .v4 _ => a.literal ++ 58 :: port
  | some port, .v6 _ => 91 :: a.literal ++ 93 :: 58 :: port

/-- The key of the bucket the limiter gives the address. -/
def key (a : Address) : Bytes := RateLimiter.extractIpFromAddress a.text

/-- The groups of a literal as they are written, but for the last. -/
def leading (a : Address) : List Bytes := (a.literal.splitOn 58).dropLast

/-- The cut at the last colon tells the two addresses apart exactly if their
IPs differ: always where one is of version 4; otherwise their literals, or
what is left of them without a port, must be written alike for one IP and
differ for two, and one IP must not come both with a port and without. -/
def Clear (a b : Address) : Prop :=
  match a.ip, b.ip with
  | .v6 _, .v6 _ =>
    match a.port, b.port with
    | some _, some _ => a.ip = b.ip → a.literal = b.literal
    | none, none => a.leading = b.leading ↔ a.ip = b.ip
    | _, _ => a.ip ≠ b.ip
  | _, _ => True

/-! ## Keys -/

theorem extract_append {s t : Bytes} (ht : 58 ∉ t) : RateLimiter.extractIpFromAddress (s ++ 58 :: t) = s := by
  have hdrop : (s ++ 58 :: t).rdropWhile (· ≠ 58) = s ++ [58] := by
    induction t using List.reverseRecOn with
    | nil => exact List.rdropWhile_concat_neg _ _ _ (by decide)
    | append_singleton t b ih =>
      simp only [List.mem_append, List.mem_singleton, not_or] at ht
      have hb : b ≠ 58 := Ne.symm ht.2
      rw [← List.cons_append, ← List.append_assoc, List.rdropWhile_concat_pos _ _ _ (by simpa using hb), ih ht.1]
  rw [RateLimiter.extractIpFromAddress, if_pos (by simp), hdrop, List.dropLast_concat]

theorem extract_of_not_mem {s : Bytes} (h : 58 ∉ s) : RateLimiter.extractIpFromAddress s = s := if_neg h

/-- A string with a colon is cut to its pieces but the last. -/
theorem extract_eq_intercalate {s : Bytes} (h : 58 ∈ s) :
    RateLimiter.extractIpFromAddress s = [58].intercalate (s.splitOn 58).dropLast := by
  obtain ⟨back, front, hs, hback⟩ := List.eq_append_cons_of_mem (List.mem_reverse.mpr h)
  have hs : s = front.reverse ++ 58 :: back.reverse := by
    rw [← List.reverse_reverse s, hs]
    simp
  have hback : 58 ∉ back.reverse := fun hmem => hback (List.mem_reverse.mp hmem)
  rw [hs, extract_append hback, List.splitOn_append_cons_self, List.splitOn_eq_singleton hback,
    List.dropLast_concat, List.intercalate_splitOn]

variable {a b : Address}

theorem colon_not_mem_port {port : Bytes} (h : a.port = some port) : 58 ∉ port := by
  have hdigits := a.digits
  rw [h, Option.all_some, Bool.and_eq_true] at hdigits
  exact fun hmem => absurd (List.all_eq_true.mp hdigits.2 58 hmem) (by decide)

theorem text_bare (h : a.port = none) : a.text = a.literal := by
  unfold text
  rw [h]

theorem text_v4 {octets : List Nat} {port : Bytes} (h : a.ip = .v4 octets) (hport : a.port = some port) :
    a.text = a.literal ++ 58 :: port := by
  unfold text
  rw [hport, h]

theorem text_v6 {groups : List Nat} {port : Bytes} (h : a.ip = .v6 groups) (hport : a.port = some port) :
    a.text = 91 :: (a.literal ++ [93]) ++ 58 :: port := by
  unfold text
  rw [hport, h]
  simp

theorem key_v4 {octets : List Nat} (h : a.ip = .v4 octets) : a.key = a.literal := by
  have hread := Ip.readV4_of_read (h ▸ a.reads)
  cases hport : a.port with
  | none =>
    rw [key, text_bare hport]
    exact extract_of_not_mem (Ip.not_mem_readV4 hread (by decide) (by decide))
  | some port =>
    rw [key, text_v4 h hport]
    exact extract_append (colon_not_mem_port hport)

theorem key_v6_port {groups : List Nat} {port : Bytes} (h : a.ip = .v6 groups) (hport : a.port = some port) :
    a.key = 91 :: (a.literal ++ [93]) := by
  rw [key, text_v6 h hport]
  exact extract_append (colon_not_mem_port hport)

theorem colon_mem {s : Bytes} (h : 2 ≤ (s.splitOn 58).length) : 58 ∈ s := by
  by_contra hmem
  rw [List.splitOn_eq_singleton hmem, List.length_singleton] at h
  omega

theorem v6_spec {groups : List Nat} (h : a.ip = .v6 groups) :
    3 ≤ (a.literal.splitOn 58).length ∧ 91 ∉ a.literal :=
  Ip.readV6_spec (Ip.readV6_of_read (h ▸ a.reads))

theorem key_v6 {groups : List Nat} (h : a.ip = .v6 groups) (hport : a.port = none) :
    a.key = [58].intercalate a.leading := by
  have hcolons := (v6_spec h).1
  rw [key, text_bare hport]
  exact extract_eq_intercalate (colon_mem (by omega))

/-! ## When two keys are one -/

theorem not_mem_leading {p : Bytes} (h : p ∈ a.leading) : 58 ∉ p := fun hmem =>
  (Paths.mem_splitOn (List.mem_of_mem_dropLast h) hmem).2 rfl

theorem leading_length {groups : List Nat} (h : a.ip = .v6 groups) : 2 ≤ a.leading.length := by
  have hcolons := (v6_spec h).1
  rw [leading, List.length_dropLast]
  omega

theorem splitOn_key {groups : List Nat} (h : a.ip = .v6 groups) (hport : a.port = none) :
    a.key.splitOn 58 = a.leading := by
  have hlength := leading_length h
  rw [key_v6 h hport]
  exact List.splitOn_intercalate _ (fun p hp => not_mem_leading hp) (List.ne_nil_of_length_pos (by omega))

/-- An IPv4 key has no colon, and a key with a port begins with a bracket. -/
theorem colon_mem_key {groups : List Nat} (h : a.ip = .v6 groups) (hport : a.port = none) : 58 ∈ a.key := by
  refine colon_mem ?_
  rw [splitOn_key h hport]
  exact leading_length h

theorem bracket_not_mem_key {groups : List Nat} (h : a.ip = .v6 groups) (hport : a.port = none) : 91 ∉ a.key := by
  rw [key_v6 h hport]
  refine Ip.not_mem_intercalate (by decide) fun p hp hmem => (v6_spec h).2 ?_
  exact (Paths.mem_splitOn (List.mem_of_mem_dropLast hp) hmem).1

theorem key_v4_ne_v6 {octets groups : List Nat} (ha : a.ip = .v4 octets) (hb : b.ip = .v6 groups) :
    a.key ≠ b.key := by
  have hread := Ip.readV4_of_read (ha ▸ a.reads)
  intro heq
  rw [key_v4 ha] at heq
  cases hport : b.port with
  | none =>
    exact Ip.not_mem_readV4 hread (by decide) (by decide) (heq ▸ colon_mem_key hb hport)
  | some port =>
    refine Ip.not_mem_readV4 (b := 91) hread (by decide) (by decide) ?_
    rw [heq, key_v6_port hb hport]
    exact List.mem_cons_self

theorem key_ne_of_port {groups groups' : List Nat} {port : Bytes} (ha : a.ip = .v6 groups) (hb : b.ip = .v6 groups')
    (hport : a.port = some port) (hbare : b.port = none) : a.key ≠ b.key := by
  intro heq
  refine bracket_not_mem_key hb hbare ?_
  rw [← heq, key_v6_port ha hport]
  exact List.mem_cons_self

theorem ip_eq_of_literal (h : a.literal = b.literal) : a.ip = b.ip :=
  Option.some.inj (a.reads.symm.trans (h ▸ b.reads))

theorem key_v4_eq_iff {octets octets' : List Nat} (ha : a.ip = .v4 octets) (hb : b.ip = .v4 octets') :
    a.key = b.key ↔ a.ip = b.ip := by
  rw [key_v4 ha, key_v4 hb]
  refine ⟨ip_eq_of_literal, fun heq => ?_⟩
  exact Ip.readV4_injective (Ip.readV4_of_read (ha ▸ a.reads)) (Ip.readV4_of_read (ha ▸ heq ▸ b.reads))

theorem key_v6_eq_iff {groups groups' : List Nat} (ha : a.ip = .v6 groups) (hb : b.ip = .v6 groups')
    (hbare : a.port = none) (hbare' : b.port = none) : a.key = b.key ↔ a.leading = b.leading := by
  constructor
  · intro heq
    rw [← splitOn_key ha hbare, ← splitOn_key hb hbare', heq]
  · intro heq
    rw [key_v6 ha hbare, key_v6 hb hbare', heq]

theorem key_v6_port_eq_iff {groups groups' : List Nat} {port port' : Bytes} (ha : a.ip = .v6 groups)
    (hb : b.ip = .v6 groups') (hport : a.port = some port) (hport' : b.port = some port') :
    a.key = b.key ↔ a.literal = b.literal := by
  rw [key_v6_port ha hport, key_v6_port hb hport', List.cons.injEq, List.append_cancel_right_eq]
  exact and_iff_right rfl

/-- Two addresses have one key if and only if they have one IP, exactly where
the cut at the last colon is clear about them. -/
theorem key_eq_iff (a b : Address) : (a.key = b.key ↔ a.ip = b.ip) ↔ a.Clear b := by
  have hliteral : a.literal = b.literal → a.ip = b.ip := ip_eq_of_literal
  cases ha : a.ip with
  | v4 octets =>
    cases hb : b.ip with
    | v4 octets' =>
      have hkey := key_v4_eq_iff ha hb
      rw [ha, hb] at hkey
      simp only [Clear, ha, hb, hkey]
    | v6 groups => simp [Clear, ha, hb, key_v4_ne_v6 ha hb]
  | v6 groups =>
    cases hb : b.ip with
    | v4 octets => simp [Clear, ha, hb, (key_v4_ne_v6 hb ha).symm]
    | v6 groups' =>
      rw [ha, hb] at hliteral
      simp only [Clear, ha, hb]
      cases hport : a.port with
      | none =>
        cases hport' : b.port with
        | none => rw [key_v6_eq_iff ha hb hport hport']
        | some port' => simp [(key_ne_of_port hb ha hport' hport).symm]
      | some port =>
        cases hport' : b.port with
        | none => simp [key_ne_of_port ha hb hport hport']
        | some port' =>
          rw [key_v6_port_eq_iff ha hb hport hport']
          exact ⟨Iff.mpr, fun h => ⟨hliteral, h⟩⟩

end Address

end Webserver
