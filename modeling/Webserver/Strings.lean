/-
C++ strings as lists of bytes, with the operations of the standard library
the repository calls on them: `find`, `getline`, `>>`, `std::tolower`,
`std::stoull`, `std::to_string` and `sscanf("%x")`, each with the facts its
callers use.
-/
import Mathlib

namespace Cxx

/-- A `std::string`. -/
abbrev Bytes := List UInt8

/-- The bytes of a literal. -/
def bytes (s : String) : Bytes := s.toUTF8.data.toList

abbrev cr : UInt8 := 13
abbrev lf : UInt8 := 10

/-- `size_t` addition. -/
def addSize (a b : Nat) : Nat := (a + b) % 2 ^ 64

/-- `isspace` in the C locale. -/
def isSpace (b : UInt8) : Bool := b == 32 || (9 ≤ b && b ≤ 13)

/-- A byte of the literal `" \t"`. -/
def isBlank (b : UInt8) : Bool := b == 32 || b == 9

def isDigit (b : UInt8) : Bool := 48 ≤ b && b ≤ 57

/-- `tolower` in the C locale. -/
def toLower (b : UInt8) : UInt8 := if 65 ≤ b && b ≤ 90 then b + 32 else b

def lower (s : Bytes) : Bytes := s.map toLower

/-- `s.erase(s.find_last_not_of(" \t") + 1)` -/
def trimRight (s : Bytes) : Bytes := s.rdropWhile isBlank

/-- `s.erase(0, s.find_first_not_of(" \t"))` -/
def trimLeft (s : Bytes) : Bytes := s.dropWhile isBlank

/-- The part of a string a C function sees through `c_str()`. -/
def cStr (s : Bytes) : Bytes := s.takeWhile (· != 0)

/-- `s.find(pat)`: where the first occurrence starts. -/
def find (pat : Bytes) : Bytes → Option Nat
  | [] => if pat.isEmpty then some 0 else none
  | b :: s => if pat.isPrefixOf (b :: s) then some 0 else (find pat s).map (· + 1)

/-- `s.find(c)`, then the parts before and after that byte. -/
def cut (c : UInt8) : Bytes → Option (Bytes × Bytes)
  | [] => none
  | b :: s => if b = c then some ([], s) else (cut c s).map fun (x, y) => (b :: x, y)

/-- The strings `getline(stream, line, delim)` yields until the stream fails:
a last piece with no delimiter counts, an empty one does not. -/
def getlines (delim : UInt8) : Bytes → List Bytes
  | [] => []
  | b :: s =>
    if b = delim then [] :: getlines delim s
    else match getlines delim s with
      | [] => [[b]]
      | l :: ls => (b :: l) :: ls

/-- `stream >> word`: the next word and the rest of the stream. -/
def word (s : Bytes) : Option (Bytes × Bytes) :=
  let s := s.dropWhile isSpace
  if s = [] then none else some (s.takeWhile (!isSpace ·), s.dropWhile (!isSpace ·))

/-- The number a string of decimal digits denotes. -/
def digitsVal (s : Bytes) : Nat := s.foldl (fun n b => 10 * n + (b.toNat - 48)) 0

/-- `std::stoull(s)`; `none` where it throws. -/
def stoull (s : Bytes) : Option Nat :=
  let s := s.dropWhile isSpace
  let negative := s.head? == some 45
  let digits := (if negative || s.head? == some 43 then s.tail else s).takeWhile isDigit
  if digits = [] then none
  else if 2 ^ 64 ≤ digitsVal digits then none
  else if negative then some ((2 ^ 64 - digitsVal digits) % 2 ^ 64)
  else some (digitsVal digits)

/-- `std::to_string(n)` -/
def decimal (n : Nat) : Bytes := (Nat.toDigits 10 n).map fun c => c.toNat.toUInt8

/-- The value of a hexadecimal digit. -/
def hexVal (b : UInt8) : Option Nat :=
  if 48 ≤ b && b ≤ 57 then some (b.toNat - 48)
  else if 97 ≤ b && b ≤ 102 then some (b.toNat - 87)
  else if 65 ≤ b && b ≤ 70 then some (b.toNat - 55)
  else none

/-- `sscanf(s.c_str(), "%x", &v)`: `v` when the conversion succeeds. White
space, a sign and a prefix `0x` are part of the conversion. As glibc has it,
the `0` of a prefix counts as a digit, so that a bare `0x` converts to 0. -/
def scanHex (s : Bytes) : Option Nat :=
  let s := (cStr s).dropWhile isSpace
  let negative := s.head? == some 45
  let s := if negative || s.head? == some 43 then s.tail else s
  let s := match s with
    | 48 :: 120 :: rest | 48 :: 88 :: rest => 48 :: rest
    | _ => s
  let digits := (s.takeWhile fun b => (hexVal b).isSome).filterMap hexVal
  if digits = [] then none
  else
    let v := digits.foldl (fun n d => 16 * n + d) 0 % 2 ^ 32
    some (if negative then (2 ^ 32 - v) % 2 ^ 32 else v)

end Cxx
