/-
What the server is started with: the command line (`main.cpp`), the line of
`config.json` with `max_connections` (`load_max_connections_from_config`), and
the number of threads the pool makes of it (`ThreadPool::ThreadPool`).
-/
import Webserver.Body
import Webserver.ConnectionLimit
import Webserver.Patterns
import Webserver.WireFormat

namespace Webserver

open Cxx Patterns Systems

/-! ## `load_max_connections_from_config` -/

/-- `R"("max_connections"\s*:\s*(\d+))"` -/
def maxConnRegex : List (Piece UInt8) :=
  [.text (bytes "\"max_connections\""), .star isSpace, .text (bytes ":"), .star isSpace, .plus isDigit]

/-- `regex_search(line, match, max_conn_regex)`, and `match[1]` where there is one. -/
def maxConnMatch (line : Bytes) : Option Bytes :=
  (search maxConnRegex line).map fun (_, spans, _) => spans.getLastD []

def defaultMaxConnections : Nat := 2000

/-- What the loop does with the number of a match. -/
def acceptMaxConnections (digits : Bytes) : Nat :=
  -- `std::stoul` converts as `std::stoull` does
  match stoull digits with
  | some maxConnections =>
    if 0 < maxConnections ∧ maxConnections ≤ 100000 then maxConnections else defaultMaxConnections
  | none => defaultMaxConnections

/-- The loop over the lines of the file. `std::regex_search` matches by recursion:
`fits` are the lines from which it comes back, and `none` is the end of the
process where the stack is exhausted. -/
def scanConfig (fits : Bytes → Bool) : List Bytes → Option Nat
  | [] => some defaultMaxConnections
  | line :: lines =>
    if fits line then
      match maxConnMatch line with
      | none => scanConfig fits lines
      | some digits => some (acceptMaxConnections digits)
    else none

/-- `configFile` is the content of `config.json`, where it can be opened. -/
def loadMaxConnectionsFromConfig (fits : Bytes → Bool) (configFile : Option Bytes) : Option Nat :=
  match configFile with
  | none => some defaultMaxConnections
  | some content => scanConfig fits (getlines lf content)

/-- These bytes begin with the key, a colon and a number of these digits. -/
def Declares (t digits : Bytes) : Prop :=
  ∃ ws₁ ws₂ rest, t = bytes "\"max_connections\"" ++ (ws₁ ++ (bytes ":" ++ (ws₂ ++ (digits ++ rest)))) ∧
    (∀ b ∈ ws₁, isSpace b = true) ∧ (∀ b ∈ ws₂, isSpace b = true) ∧ digits ≠ [] ∧
    (∀ b ∈ digits, isDigit b = true) ∧ ∀ b ∈ rest.head?, isDigit b = false

/-- The first declaration in a line. -/
def FirstSetting (line digits : Bytes) : Prop :=
  ∃ before t, line = before ++ t ∧ Declares t digits ∧
    ∀ before' t', line = before' ++ t' → before'.length < before.length → ∀ d, ¬ Declares t' d

/-- The first declaration in a file, in the last of these lines. -/
def Configures (content : Bytes) (lines : List Bytes) (digits : Bytes) : Prop :=
  ∃ before line after, getlines lf content = before ++ line :: after ∧ lines = before ++ [line] ∧
    (∀ l ∈ before, ∀ d, ¬ FirstSetting l d) ∧ FirstSetting line digits

theorem not_isSpace_of_isDigit {b : UInt8} (h : isDigit b = true) : isSpace b = false :=
  (Message.isDigit_spec h).1

theorem Declares.unique {t d d' : Bytes} (h : Declares t d) (h' : Declares t d') : d = d' := by
  obtain ⟨ws₁, ws₂, rest, rfl, hws₁, hws₂, hne, hd, hrest⟩ := h
  obtain ⟨ws₁', ws₂', rest', heq, hws₁', hws₂', hne', hd', hrest'⟩ := h'
  have colon : ∀ {u : Bytes}, ∀ b ∈ (bytes ":" ++ u).head?, isSpace b = false := by
    intro u b hb
    obtain rfl : (58 : UInt8) = b := Option.some.inj hb
    decide
  have digit : ∀ {d u : Bytes}, d ≠ [] → (∀ b ∈ d, isDigit b = true) → ∀ b ∈ (d ++ u).head?, isSpace b = false := by
    intro d u hne hd b hb
    obtain ⟨c, d, rfl⟩ := List.exists_cons_of_ne_nil hne
    obtain rfl : c = b := Option.some.inj hb
    exact not_isSpace_of_isDigit (hd c List.mem_cons_self)
  obtain ⟨-, heq⟩ := append_inj_of_run hws₁ hws₁' colon colon (List.append_cancel_left heq)
  obtain ⟨-, heq⟩ := append_inj_of_run hws₂ hws₂' (digit hne hd) (digit hne' hd') (List.append_cancel_left heq)
  exact (append_inj_of_run hd hd' hrest hrest' heq).1

/-- What the expression matches is a declaration. -/
theorem declares_of_matchHere {t rest : Bytes} {spans : List Bytes}
    (h : matchHere maxConnRegex t = some (spans, rest)) : Declares t (spans.getLastD []) := by
  obtain ⟨hall, rfl⟩ := matchHere_sound h
  have hlast := matchHere_last maxConnRegex.dropLast h
  unfold maxConnRegex at hall
  obtain _ | ⟨hname, hall⟩ := hall
  obtain _ | ⟨hws₁, hall⟩ := hall
  obtain _ | ⟨hcolon, hall⟩ := hall
  obtain _ | ⟨hws₂, hall⟩ := hall
  obtain _ | ⟨hdigits, hall⟩ := hall
  obtain _ | _ := hall
  obtain rfl := hname
  obtain rfl := hcolon
  exact ⟨_, _, rest, by simp, hws₁, hws₂, hdigits.1, hdigits.2, hlast⟩

theorem matchHere_isSome_of_declares {t digits : Bytes} (h : Declares t digits) :
    (matchHere maxConnRegex t).isSome := by
  obtain ⟨ws₁, ws₂, rest, rfl, hws₁, hws₂, hne, hd, -⟩ := h
  have hall : List.Forall₂ Piece.Accepts maxConnRegex
      [bytes "\"max_connections\"", ws₁, bytes ":", ws₂, digits] :=
    .cons rfl (.cons hws₁ (.cons rfl (.cons hws₂ (.cons ⟨hne, hd⟩ .nil))))
  simpa using matchHere_isSome hall rest

theorem maxConnMatch_eq_some {line digits : Bytes} (h : maxConnMatch line = some digits) :
    FirstSetting line digits := by
  obtain ⟨⟨before, spans, rest⟩, hs, rfl⟩ := Option.map_eq_some_iff.mp h
  obtain ⟨t, rfl, hm, hfirst⟩ := search_sound hs
  refine ⟨before, t, rfl, declares_of_matchHere hm, fun before' t' heq hlt d hd => ?_⟩
  have := matchHere_isSome_of_declares hd
  rw [hfirst before' t' heq hlt] at this
  cases this

theorem maxConnMatch_eq_none {line : Bytes} (h : maxConnMatch line = none) (digits : Bytes) :
    ¬ FirstSetting line digits := by
  rintro ⟨before, t, rfl, hd, -⟩
  have := matchHere_isSome_of_declares hd
  rw [search_eq_none (Option.map_eq_none_iff.mp h) before t rfl] at this
  cases this

theorem FirstSetting.unique {line d d' : Bytes} (h : FirstSetting line d) (h' : FirstSetting line d') : d = d' := by
  obtain ⟨before, t, rfl, hd, hfirst⟩ := h
  obtain ⟨before', t', heq, hd', hfirst'⟩ := h'
  have hlength : before.length = before'.length := by
    rcases Nat.lt_trichotomy before.length before'.length with hlt | heq | hlt
    · exact absurd hd (hfirst' before t rfl hlt d)
    · exact heq
    · exact absurd hd' (hfirst before' t' heq hlt d')
  obtain ⟨-, rfl⟩ := List.append_inj heq hlength
  exact hd.unique hd'

/-- What is taken of the number a declaration gives. -/
theorem acceptMaxConnections_eq {digits : Bytes} (hne : digits ≠ []) (hd : ∀ b ∈ digits, isDigit b = true) :
    acceptMaxConnections digits =
      if 0 < digitsVal digits ∧ digitsVal digits ≤ 100000 then digitsVal digits else 2000 := by
  by_cases hbig : 2 ^ 64 ≤ digitsVal digits
  · -- what does not fit a `size_t` is over the bound too
    have hout : ¬ (0 < digitsVal digits ∧ digitsVal digits ≤ 100000) := by omega
    simp only [acceptMaxConnections, Message.stoull_digits hne hd, if_pos hbig, if_neg hout, defaultMaxConnections]
  · simp only [acceptMaxConnections, Message.stoull_digits hne hd, if_neg hbig, defaultMaxConnections]

variable {fits : Bytes → Bool}

theorem scanConfig_cons_of_setting {line digits : Bytes} (lines : List Bytes) (h : FirstSetting line digits) :
    scanConfig fits (line :: lines) = if fits line then some
      (if 0 < digitsVal digits ∧ digitsVal digits ≤ 100000 then digitsVal digits else 2000) else none := by
  obtain ⟨digits', hm⟩ : ∃ d, maxConnMatch line = some d := by
    cases hm : maxConnMatch line with
    | none => exact absurd h (maxConnMatch_eq_none hm digits)
    | some d => exact ⟨d, rfl⟩
  obtain rfl := h.unique (maxConnMatch_eq_some hm)
  obtain ⟨before, t, -, ⟨ws₁, ws₂, rest, -, -, -, hne, hd, -⟩, -⟩ := h
  simp only [scanConfig, hm, acceptMaxConnections_eq hne hd]

theorem scanConfig_cons_of_not_setting {line : Bytes} (lines : List Bytes) (h : ∀ d, ¬ FirstSetting line d) :
    scanConfig fits (line :: lines) = if fits line then scanConfig fits lines else none := by
  cases hm : maxConnMatch line with
  | none => simp only [scanConfig, hm]
  | some d => exact absurd (maxConnMatch_eq_some hm) (h d)

theorem scanConfig_bounds {lines : List Bytes} {maxConnections : Nat}
    (h : scanConfig fits lines = some maxConnections) : 0 < maxConnections ∧ maxConnections ≤ 100000 := by
  induction lines with
  | nil =>
    obtain rfl := Option.some.inj h
    decide
  | cons line lines ih =>
    by_cases hset : ∃ d, FirstSetting line d
    · obtain ⟨d, hd⟩ := hset
      rw [scanConfig_cons_of_setting lines hd] at h
      split at h
      · obtain rfl := Option.some.inj h
        split <;> omega
      · cases h
    · rw [scanConfig_cons_of_not_setting lines (not_exists.mp hset)] at h
      split at h
      · exact ih h
      · cases h

theorem scanConfig_append {before : List Bytes} (lines : List Bytes)
    (h : ∀ l ∈ before, ∀ d, ¬ FirstSetting l d) :
    scanConfig fits (before ++ lines) = if before.all fits then scanConfig fits lines else none := by
  induction before with
  | nil => rfl
  | cons line before ih =>
    rw [List.cons_append, scanConfig_cons_of_not_setting _ (h line List.mem_cons_self),
      ih fun l hl => h l (List.mem_cons_of_mem _ hl), List.all_cons]
    cases fits line <;> simp

theorem loadMaxConnectionsFromConfig_bounds {configFile : Option Bytes} {maxConnections : Nat}
    (h : loadMaxConnectionsFromConfig fits configFile = some maxConnections) :
    0 < maxConnections ∧ maxConnections ≤ 100000 := by
  cases configFile with
  | none =>
    obtain rfl := Option.some.inj h
    decide
  | some content => exact scanConfig_bounds h

/-- A file has a first declaration, or no line of it has one. -/
theorem exists_configures_or (content : Bytes) :
    (∃ lines digits, Configures content lines digits) ∨ ∀ l ∈ getlines lf content, ∀ d, ¬ FirstSetting l d := by
  classical
  by_cases hsome : ∃ l ∈ getlines lf content, ∃ d, FirstSetting l d
  · obtain ⟨line, hfound⟩ : ∃ line, (getlines lf content).find? (∃ d, FirstSetting · d) = some line :=
      Option.isSome_iff_exists.mp (by simpa [List.find?_isSome] using hsome)
    obtain ⟨hline, before, after, hlines, hbefore⟩ := List.find?_eq_some_iff_append.mp hfound
    obtain ⟨d, hd⟩ := of_decide_eq_true hline
    exact .inl ⟨_, d, before, line, after, hlines, rfl, fun l hl => by simpa using hbefore l hl, hd⟩
  · push Not at hsome
    exact .inr hsome

/-- **What the configuration says**: 2000 connections where there is no file;
otherwise, as long as the matching comes back from the lines up to the first
declaration, the number declared there if it is between 1 and 100000, and 2000 if
it is not or nothing is declared. So the number is always between 1 and 100000. -/
theorem loadMaxConnectionsFromConfig_eq (fits : Bytes → Bool) (configFile : Option Bytes) :
    (configFile = none → loadMaxConnectionsFromConfig fits configFile = some 2000) ∧
    (∀ content, configFile = some content →
      (∀ lines digits, Configures content lines digits → loadMaxConnectionsFromConfig fits configFile =
        if lines.all fits then some
          (if 0 < digitsVal digits ∧ digitsVal digits ≤ 100000 then digitsVal digits else 2000) else none) ∧
      ((∀ lines digits, ¬ Configures content lines digits) → loadMaxConnectionsFromConfig fits configFile =
        if (getlines lf content).all fits then some 2000 else none)) ∧
    ∀ maxConnections, loadMaxConnectionsFromConfig fits configFile = some maxConnections →
      0 < maxConnections ∧ maxConnections ≤ 100000 := by
  refine ⟨?_, ?_, fun _ => loadMaxConnectionsFromConfig_bounds⟩
  · rintro rfl
    rfl
  rintro content rfl
  refine ⟨fun lines digits h => ?_, fun hnone => ?_⟩
  · obtain ⟨before, line, after, hlines, rfl, hbefore, hsetting⟩ := h
    rw [loadMaxConnectionsFromConfig, hlines, scanConfig_append _ hbefore, scanConfig_cons_of_setting after hsetting,
      List.all_append, List.all_cons, List.all_nil, Bool.and_true]
    cases before.all fits <;> simp
  · have hlines := (exists_configures_or content).resolve_left fun ⟨lines, digits, h⟩ => hnone lines digits h
    calc loadMaxConnectionsFromConfig fits (some content)
        = scanConfig fits (getlines lf content ++ []) := by rw [List.append_nil, loadMaxConnectionsFromConfig]
      _ = if (getlines lf content).all fits then some 2000 else none := scanConfig_append [] hlines

example : loadMaxConnectionsFromConfig (fun _ => true)
    (some (bytes "\x7b\n  \"server\": \x7b\n    \"port\": 8080,\n    \"max_connections\": 10000,\n")) =
      some 10000 := by decide +kernel

/-! ## `main` -/

/-- What `std::strtol` and its kin read: white space, a sign, and digits. -/
def numeral (s : Bytes) : Bool × Bytes :=
  let s := s.dropWhile isSpace
  let negative := s.head? == some 45
  (negative, (if negative || s.head? == some 43 then s.tail else s).takeWhile isDigit)

/-- `std::stoi(s)`, of an `int` of 32 bits; `none` where it throws. -/
def stoi (s : Bytes) : Option Int :=
  let (negative, digits) := numeral s
  if digits = [] then none
  else
    let value : Int := if negative then -(digitsVal digits : Int) else digitsVal digits
    if -(2 ^ 31) ≤ value ∧ value < 2 ^ 31 then some value else none

/-- `port`; `argv[1]` where there is one. -/
def choosePort : Option Bytes → Int
  | none => 8080
  | some arg =>
    match stoi arg with
    | some port => if port ≤ 0 ∨ 65535 < port then 8080 else port
    | none => 8080

/-- `thread_count`; `argv[2]` where there is one. -/
def chooseThreadCount : Option Bytes → Nat
  | none => 0
  | some arg =>
    -- `std::stoul` converts as `std::stoull` does
    match stoull arg with
    | some threadCount => if 128 < threadCount then 0 else threadCount
    | none => 0

/-- `ThreadPool::ThreadPool`: the number of threads it starts, where the
machine has `hardware` of them (0 where that is not known). -/
def workerCount (threadCount hardware : Nat) : Nat :=
  if threadCount = 0 then
    if hardware = 0 then 4 else hardware
  else threadCount

/-- What `main` makes its server with. -/
structure Config where
  port : Int
  workers : Nat
  maxConnections : Nat
  deriving DecidableEq

/-- `main`, up to the construction of the server; `args` are the arguments
after the program's name. -/
def configure (fits : Bytes → Bool) (args : List Bytes) (hardware : Nat) (configFile : Option Bytes) :
    Option Config := do
  let maxConnections ← loadMaxConnectionsFromConfig fits configFile
  return ⟨choosePort args[0]?, workerCount (chooseThreadCount args[1]?) hardware, maxConnections⟩

/-- The server before its first step. -/
def Config.server (config : Config) (serverFd : Fd) (order : MapOrder) (clock : Int) : Server config.workers :=
  .initial config.workers serverFd config.maxConnections order clock

/-- The argument begins with this number, after white space and a plus sign at most. -/
def ReadsAs (arg : Bytes) (value : Nat) : Prop :=
  ∃ ws sign digits rest, arg = ws ++ (sign ++ (digits ++ rest)) ∧ (∀ b ∈ ws, isSpace b = true) ∧
    (sign = [] ∨ sign = bytes "+") ∧ digits ≠ [] ∧ (∀ b ∈ digits, isDigit b = true) ∧
    (∀ b ∈ rest.head?, isDigit b = false) ∧ digitsVal digits = value

/-- The argument begins with the negative of this number, after white space at most. -/
def ReadsNegative (arg : Bytes) (value : Nat) : Prop :=
  ∃ ws digits rest, arg = ws ++ (bytes "-" ++ (digits ++ rest)) ∧ (∀ b ∈ ws, isSpace b = true) ∧ digits ≠ [] ∧
    (∀ b ∈ digits, isDigit b = true) ∧ (∀ b ∈ rest.head?, isDigit b = false) ∧ digitsVal digits = value

theorem takeWhile_isDigit {digits rest : Bytes} (hd : ∀ b ∈ digits, isDigit b = true)
    (hrest : ∀ b ∈ rest.head?, isDigit b = false) : (digits ++ rest).takeWhile isDigit = digits := by
  rw [List.takeWhile_append_of_pos hd]
  cases rest with
  | nil => simp
  | cons b rest => simp [hrest b rfl]

theorem numeral_eq_of_readsAs {arg : Bytes} {value : Nat} (h : ReadsAs arg value) :
    ∃ digits, numeral arg = (false, digits) ∧ digits ≠ [] ∧ digitsVal digits = value := by
  obtain ⟨ws, sign, digits, rest, rfl, hws, hsign, hne, hd, hrest, rfl⟩ := h
  refine ⟨digits, ?_, hne, rfl⟩
  obtain ⟨d, ds, rfl⟩ := List.exists_cons_of_ne_nil hne
  obtain ⟨hspace, hminus, hplus⟩ := Message.isDigit_spec (hd d List.mem_cons_self)
  have htake := takeWhile_isDigit hd hrest
  rw [numeral, List.dropWhile_append_of_pos hws]
  rcases hsign with rfl | rfl
  · simpa [hspace, hminus, hplus] using htake
  · have hsp : isSpace 43 = false := by decide
    have hplus : bytes "+" = [43] := by decide
    simpa [hplus, hsp] using htake

theorem numeral_eq_of_readsNegative {arg : Bytes} {value : Nat} (h : ReadsNegative arg value) :
    ∃ digits, numeral arg = (true, digits) ∧ digits ≠ [] ∧ digitsVal digits = value := by
  obtain ⟨ws, digits, rest, rfl, hws, hne, hd, hrest, rfl⟩ := h
  have hsp : isSpace 45 = false := by decide
  have hminus : bytes "-" = [45] := by decide
  refine ⟨digits, ?_, hne, rfl⟩
  rw [numeral, List.dropWhile_append_of_pos hws]
  simpa [hminus, hsp] using takeWhile_isDigit hd hrest

theorem not_of_mem_head?_dropWhile {p : UInt8 → Bool} {s : Bytes} {b : UInt8}
    (hb : b ∈ (s.dropWhile p).head?) : p b = false := by
  have := List.head?_dropWhile_not p s
  rwa [Option.mem_def.mp hb] at this

theorem readsAs_of_numeral {arg digits : Bytes} (h : numeral arg = (false, digits)) (hne : digits ≠ []) :
    ReadsAs arg (digitsVal digits) := by
  have hdigits : ∀ t : Bytes, ∀ b ∈ t.takeWhile isDigit, isDigit b = true := fun t b => List.mem_takeWhile_imp
  have hws : ∀ b ∈ arg.takeWhile isSpace, isSpace b = true := fun b => List.mem_takeWhile_imp
  obtain ⟨hminus, hd⟩ := Prod.ext_iff.mp h
  simp only [numeral] at hminus hd
  simp only [hminus, Bool.false_or, beq_iff_eq] at hd
  split at hd
  · rename_i hplus
    obtain ⟨t, ht⟩ := List.head?_eq_some_iff.mp hplus
    subst hd
    refine ⟨_, bytes "+", _, t.dropWhile isDigit, ?_, hws, .inr rfl, hne, hdigits _,
      fun b => not_of_mem_head?_dropWhile, rfl⟩
    have hbytes : bytes "+" = [43] := by decide
    calc arg = arg.takeWhile isSpace ++ arg.dropWhile isSpace := List.takeWhile_append_dropWhile.symm
      _ = arg.takeWhile isSpace ++ (bytes "+" ++ t) := by rw [ht, hbytes, List.singleton_append]
      _ = _ := by rw [ht, List.tail_cons, List.takeWhile_append_dropWhile]
  · subst hd
    refine ⟨_, [], _, (arg.dropWhile isSpace).dropWhile isDigit, ?_, hws, .inl rfl, hne, hdigits _,
      fun b => not_of_mem_head?_dropWhile, rfl⟩
    rw [List.nil_append, List.takeWhile_append_dropWhile, List.takeWhile_append_dropWhile]

theorem readsNegative_of_numeral {arg digits : Bytes} (h : numeral arg = (true, digits)) (hne : digits ≠ []) :
    ReadsNegative arg (digitsVal digits) := by
  obtain ⟨hminus, hd⟩ := Prod.ext_iff.mp h
  simp only [numeral] at hminus hd
  simp only [hminus, Bool.true_or, if_true] at hd
  obtain ⟨t, ht⟩ := List.head?_eq_some_iff.mp (beq_iff_eq.mp hminus)
  subst hd
  refine ⟨arg.takeWhile isSpace, _, t.dropWhile isDigit, ?_, fun b => List.mem_takeWhile_imp, hne,
    fun b => List.mem_takeWhile_imp, fun b => not_of_mem_head?_dropWhile, rfl⟩
  have hbytes : bytes "-" = [45] := by decide
  calc arg = arg.takeWhile isSpace ++ arg.dropWhile isSpace := List.takeWhile_append_dropWhile.symm
    _ = arg.takeWhile isSpace ++ (bytes "-" ++ t) := by rw [ht, hbytes, List.singleton_append]
    _ = _ := by rw [ht, List.tail_cons, List.takeWhile_append_dropWhile]

theorem stoull_eq (s : Bytes) :
    stoull s =
      if (numeral s).2 = [] then none
      else if 2 ^ 64 ≤ digitsVal (numeral s).2 then none
      else if (numeral s).1 then some ((2 ^ 64 - digitsVal (numeral s).2) % 2 ^ 64)
      else some (digitsVal (numeral s).2) := rfl

theorem choosePort_bounds (arg : Option Bytes) : 1 ≤ choosePort arg ∧ choosePort arg ≤ 65535 := by
  unfold choosePort
  repeat' split
  all_goals omega

theorem choosePort_of_readsAs {arg : Bytes} {value : Nat} (h : ReadsAs arg value) :
    choosePort (some arg) = if 0 < value ∧ value ≤ 65535 then (value : Int) else 8080 := by
  obtain ⟨digits, hn, hne, rfl⟩ := numeral_eq_of_readsAs h
  simp only [choosePort, stoi, hn, if_neg hne, Bool.false_eq_true, if_false]
  by_cases hint : (digitsVal digits : Int) < 2 ^ 31
  · have hboth : -(2 ^ 31 : Int) ≤ digitsVal digits ∧ (digitsVal digits : Int) < 2 ^ 31 := by omega
    rw [if_pos hboth]
    by_cases hin : 0 < digitsVal digits ∧ digitsVal digits ≤ 65535
    · have hnot : ¬ ((digitsVal digits : Int) ≤ 0 ∨ (65535 : Int) < digitsVal digits) := by omega
      simp only [if_pos hin, if_neg hnot]
    · have hout : (digitsVal digits : Int) ≤ 0 ∨ (65535 : Int) < digitsVal digits := by omega
      simp only [if_neg hin, if_pos hout]
  · -- `std::stoi` throws where the number is no `int`
    have hboth : ¬ (-(2 ^ 31 : Int) ≤ digitsVal digits ∧ (digitsVal digits : Int) < 2 ^ 31) := by omega
    have hin : ¬ (0 < digitsVal digits ∧ digitsVal digits ≤ 65535) := by omega
    rw [if_neg hboth, if_neg hin]

theorem choosePort_of_not_readsAs {arg : Bytes} (h : ∀ value, ¬ ReadsAs arg value) :
    choosePort (some arg) = 8080 := by
  rcases hn : numeral arg with ⟨negative, digits⟩
  by_cases hne : digits = []
  · simp [choosePort, stoi, hn, hne]
  · cases negative with
    | false => exact absurd (readsAs_of_numeral hn hne) (h _)
    | true =>
      have hnonpos : -(digitsVal digits : Int) ≤ 0 ∨ (65535 : Int) < -(digitsVal digits : Int) := by omega
      simp only [choosePort, stoi, hn, if_neg hne, if_true]
      by_cases hint : -(2 ^ 31 : Int) ≤ -(digitsVal digits : Int) ∧ -(digitsVal digits : Int) < 2 ^ 31
      · simp only [if_pos hint, if_pos hnonpos]
      · simp only [if_neg hint]

theorem workerCount_bounds (arg : Option Bytes) (hardware : Nat) :
    0 < workerCount (chooseThreadCount arg) hardware ∧
      workerCount (chooseThreadCount arg) hardware ≤ max 128 hardware := by
  unfold workerCount chooseThreadCount
  repeat' split
  all_goals omega

theorem workerCount_of_readsAs {arg : Bytes} {value : Nat} (h : ReadsAs arg value) (hardware : Nat) :
    workerCount (chooseThreadCount (some arg)) hardware =
      if 0 < value ∧ value ≤ 128 then value else workerCount 0 hardware := by
  obtain ⟨digits, hn, hne, rfl⟩ := numeral_eq_of_readsAs h
  simp only [chooseThreadCount, stoull_eq, hn, if_neg hne, Bool.false_eq_true, if_false]
  by_cases hbig : 2 ^ 64 ≤ digitsVal digits
  · have hout : ¬ (0 < digitsVal digits ∧ digitsVal digits ≤ 128) := by omega
    rw [if_pos hbig, if_neg hout]
  · rw [if_neg hbig]
    by_cases hout : 128 < digitsVal digits
    · have hnot : ¬ (0 < digitsVal digits ∧ digitsVal digits ≤ 128) := by omega
      simp [if_pos hout, if_neg hnot]
    · by_cases hzero : digitsVal digits = 0
      · simp [hzero]
      · have hin : 0 < digitsVal digits ∧ digitsVal digits ≤ 128 := by omega
        simp only [if_neg hout, if_pos hin, workerCount, if_neg hzero]

/-- `std::stoul` takes a negative number modulo 2⁶⁴. -/
theorem workerCount_of_readsNegative {arg : Bytes} {value : Nat} (h : ReadsNegative arg value) (hardware : Nat) :
    workerCount (chooseThreadCount (some arg)) hardware =
      if value < 2 ^ 64 ∧ 2 ^ 64 ≤ value + 128 then 2 ^ 64 - value else workerCount 0 hardware := by
  obtain ⟨digits, hn, hne, rfl⟩ := numeral_eq_of_readsNegative h
  simp only [chooseThreadCount, stoull_eq, hn, if_neg hne, if_true]
  by_cases hbig : 2 ^ 64 ≤ digitsVal digits
  · have hout : ¬ (digitsVal digits < 2 ^ 64 ∧ 2 ^ 64 ≤ digitsVal digits + 128) := by omega
    rw [if_pos hbig, if_neg hout]
  · rw [if_neg hbig]
    by_cases hin : 2 ^ 64 ≤ digitsVal digits + 128
    · have hboth : digitsVal digits < 2 ^ 64 ∧ 2 ^ 64 ≤ digitsVal digits + 128 := by omega
      have hmod : (2 ^ 64 - digitsVal digits) % 2 ^ 64 = 2 ^ 64 - digitsVal digits := Nat.mod_eq_of_lt (by omega)
      have hle : ¬ 128 < 2 ^ 64 - digitsVal digits := by omega
      have hpos : ¬ 2 ^ 64 - digitsVal digits = 0 := by omega
      simp only [if_pos hboth, hmod, if_neg hle, workerCount, if_neg hpos]
    · have hout : ¬ (digitsVal digits < 2 ^ 64 ∧ 2 ^ 64 ≤ digitsVal digits + 128) := by omega
      rw [if_neg hout]
      by_cases hzero : digitsVal digits = 0
      · simp [hzero]
      · have hmod : (2 ^ 64 - digitsVal digits) % 2 ^ 64 = 2 ^ 64 - digitsVal digits := Nat.mod_eq_of_lt (by omega)
        have hmany : 128 < 2 ^ 64 - digitsVal digits := by omega
        simp only [hmod, if_pos hmany]

theorem workerCount_of_reads_nothing {arg : Bytes} (hpos : ∀ value, ¬ ReadsAs arg value)
    (hneg : ∀ value, ¬ ReadsNegative arg value) (hardware : Nat) :
    workerCount (chooseThreadCount (some arg)) hardware = workerCount 0 hardware := by
  rcases hn : numeral arg with ⟨negative, digits⟩
  by_cases hne : digits = []
  · simp [chooseThreadCount, stoull_eq, hn, hne]
  · cases negative with
    | false => exact absurd (readsAs_of_numeral hn hne) (hpos _)
    | true => exact absurd (readsNegative_of_numeral hn hne) (hneg _)

/-- **What the process starts with**, whatever it is given: a port there is, at
least one worker, and a bound on the clients that every run keeps. The first
argument is the port if it reads as a number in range, and the port is 8080
otherwise; the second is the number of workers if it reads as a number in range,
taken modulo 2⁶⁴ where it is negative, and the machine decides otherwise. -/
theorem configure_spec {fits : Bytes → Bool} {args : List Bytes} {hardware : Nat} {configFile : Option Bytes}
    {config : Config} (h : configure fits args hardware configFile = some config) :
    (1 ≤ config.port ∧ config.port ≤ 65535 ∧ 0 < config.workers ∧ config.workers ≤ max 128 hardware) ∧
    (args[0]? = none → config.port = 8080) ∧
    (∀ arg, args[0]? = some arg →
      (∀ value, ReadsAs arg value →
        config.port = if 0 < value ∧ value ≤ 65535 then (value : Int) else 8080) ∧
      ((∀ value, ¬ ReadsAs arg value) → config.port = 8080)) ∧
    (args[1]? = none → config.workers = workerCount 0 hardware) ∧
    (∀ arg, args[1]? = some arg →
      (∀ value, ReadsAs arg value →
        config.workers = if 0 < value ∧ value ≤ 128 then value else workerCount 0 hardware) ∧
      (∀ value, ReadsNegative arg value → config.workers =
        if value < 2 ^ 64 ∧ 2 ^ 64 ≤ value + 128 then 2 ^ 64 - value else workerCount 0 hardware) ∧
      ((∀ value, ¬ ReadsAs arg value) → (∀ value, ¬ ReadsNegative arg value) →
        config.workers = workerCount 0 hardware)) ∧
    loadMaxConnectionsFromConfig fits configFile = some config.maxConnections ∧ config.maxConnections ≤ 100000 ∧
    ∀ serverFd order clock actions s,
      (Server.system config.workers).run (config.server serverFd order clock) actions = some s →
        s.shared.connections.entries.length ≤ config.maxConnections := by
  obtain ⟨maxConnections, hload, heq⟩ := Option.bind_eq_some_iff.mp h
  obtain rfl := Option.some.inj heq
  refine ⟨⟨(choosePort_bounds _).1, (choosePort_bounds _).2, workerCount_bounds _ _⟩, fun harg => ?_, fun arg harg => ?_,
    fun harg => ?_, fun arg harg => ?_, hload, (loadMaxConnectionsFromConfig_bounds hload).2,
    fun serverFd order clock actions s hrun => ?_⟩
  · simp only [harg]
    rfl
  · simp only [harg]
    exact ⟨fun value h => choosePort_of_readsAs h, choosePort_of_not_readsAs⟩
  · simp only [harg]
    rfl
  · simp only [harg]
    exact ⟨fun value h => workerCount_of_readsAs h hardware, fun value h => workerCount_of_readsNegative h hardware,
      fun hpos hneg => workerCount_of_reads_nothing hpos hneg hardware⟩
  · obtain ⟨hroom, hlimit⟩ := Server.room_of_run hrun
    have := hroom.within
    omega

/-- A port, a negative number of workers, and a file that allows one client. -/
theorem configure_spec_arguments : ∃ config,
    configure (fun line => line.length ≤ 1000) [bytes " +9000 ", bytes "-18446744073709551612"] 8
      (some (bytes "\x7b\n  \"max_connections\" : 1\n\x7d")) = some config ∧
    config.port = 9000 ∧ config.workers = 4 ∧
    ∀ serverFd order clock actions s,
      (Server.system config.workers).run (config.server serverFd order clock) actions = some s →
        s.shared.connections.entries.length ≤ 1 := by
  have hconfig : configure (fun line => line.length ≤ 1000) [bytes " +9000 ", bytes "-18446744073709551612"] 8
      (some (bytes "\x7b\n  \"max_connections\" : 1\n\x7d")) = some ⟨9000, 4, 1⟩ := by decide +kernel
  obtain ⟨-, -, -, -, -, -, -, hruns⟩ := configure_spec hconfig
  exact ⟨_, hconfig, rfl, rfl, hruns⟩

end Webserver
