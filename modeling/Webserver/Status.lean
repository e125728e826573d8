/-
The status endpoint and JSON. The page is an object printed a member a line;
it is a JSON text wherever the time and the document root are the characters
of a string. What `std::ctime` returns is not: its text ends with a newline.
-/
import Webserver.Json
import Webserver.Mirror

namespace Webserver

open Cxx Json

/-! ## Numbers -/

theorem decimal_ne_nil (n : Nat) : decimal n ≠ [] := by
  simp [decimal, Nat.toDigits_ne_nil]

theorem isDigit_decimal {n : Nat} {b : UInt8} (h : b ∈ decimal n) : IsDigit b := by
  simpa [Cxx.isDigit, IsDigit] using isDigit_of_mem_decimal h

/-- No number but zero begins with the digit zero. -/
theorem eq_zero_of_head_decimal (n : Nat) (h : (decimal n).head? = some 48) : n = 0 := by
  induction n using Nat.strongRecOn with
  | ind n ih =>
    by_cases hn : n < 10
    · rw [decimal, Nat.toDigits_of_lt_base hn] at h
      interval_cases n <;> revert h <;> decide
    · have hn : 10 ≤ n := by omega
      have hsplit : ∃ d, decimal n = decimal (n / 10) ++ d := by
        rw [decimal, Nat.toDigits_of_base_le (by decide) hn, List.map_append]
        exact ⟨_, rfl⟩
      obtain ⟨d, hd⟩ := hsplit
      rw [hd, List.head?_append_of_ne_nil _ (decimal_ne_nil (n / 10))] at h
      have hzero := ih (n / 10) (by omega) h
      omega

theorem number_decimal (n : Nat) : Number (decimal n) := by
  have hint : IsInt (decimal n) := by
    refine ⟨⟨decimal_ne_nil n, fun _ => isDigit_decimal⟩, fun h => ?_⟩
    rw [eq_zero_of_head_decimal n h]
    decide
  simpa using Number.plain hint .absent .absent

/-! ## The page as an object -/

/-- The members of `"cache"`. -/
def cacheFields (e : Surroundings) (stats : CacheStats) : List (Bytes × Bytes) :=
  [(bytes "hits", decimal stats.hits), (bytes "misses", decimal stats.misses),
    (bytes "entries", decimal stats.entries), (bytes "memory_usage_bytes", decimal stats.memoryUsage)] ++
  if 0 < addSize stats.hits stats.misses then
    [(bytes "hit_ratio_percent", e.hitRatio stats.hits (addSize stats.hits stats.misses))]
  else []

def quote (s : Bytes) : Bytes := 34 :: (s ++ [34])

def statusFields (e : Surroundings) (h : FileHandler) (ctime : Bytes) : List (Bytes × Bytes) :=
  [(bytes "server", quote (bytes "MultithreadedWebServer/1.0")), (bytes "timestamp", quote ctime),
    (bytes "thread_pool_size", decimal e.threadCount), (bytes "queue_size", decimal e.queueSize),
    (bytes "active_connections", decimal e.activeConnections),
    (bytes "document_root", quote h.documentRoot),
    (bytes "architecture", quote (bytes "epoll + thread_pool + lru_cache")),
    (bytes "http_version", quote (bytes "HTTP/1.1")),
    (bytes "cache", printObject (bytes "    ") (bytes "  ") (cacheFields e h.getCacheStats))]

set_option maxRecDepth 10000 in
/-- What `handle_api_request` puts together piece by piece. -/
theorem statusPage_eq (e : Surroundings) (h : FileHandler) (ctime : Bytes) :
    statusPage e h ctime = printObject (bytes "  ") [] (statusFields e h ctime) ++ bytes "\n" := by
  unfold statusPage statusFields cacheFields
  by_cases hratio : 0 < addSize h.getCacheStats.hits h.getCacheStats.misses
  all_goals
    simp only [hratio, ↓reduceIte, printObject, printMember, quote, List.map_cons, List.map_nil,
      List.intercalate_cons_cons, List.intercalate_singleton, List.append_assoc, List.cons_append, List.nil_append]
    rfl

/-- A character whose byte stands for itself in a string. -/
def isPlainChar (c : Char) : Bool := 32 ≤ c.toNat && c.toNat < 127 && c.toNat != 34 && c.toNat != 92

theorem bytes_ofList (cs : List Char) : bytes (String.ofList cs) = cs.flatMap String.utf8EncodeChar := by
  simp [bytes, List.utf8Encode]

theorem plain_bytes (cs : List Char) (h : cs.all isPlainChar = true) : ∀ b ∈ bytes (String.ofList cs), IsPlain b := by
  intro b hb
  obtain ⟨c, hc, hb⟩ := List.mem_flatMap.mp (bytes_ofList cs ▸ hb)
  have hplain := List.all_eq_true.mp h c hc
  simp only [isPlainChar, Bool.and_eq_true, decide_eq_true_eq, bne_iff_ne, Char.toNat] at hplain
  rw [String.utf8EncodeChar, if_pos (by omega), List.mem_singleton] at hb
  have hvalue : b.toNat = c.val.toNat := by
    rw [hb]
    exact UInt8.toNat_ofNat_of_lt' (by omega : c.val.toNat < 256)
  simp only [IsPlain, UInt8.le_iff_toNat_le, UInt8.lt_iff_toNat_lt, ne_eq, ← UInt8.toNat_inj, hvalue]
  simp only [UInt8.reduceToNat]
  omega

theorem isField_decimal {cs : List Char} (h : cs.all isPlainChar = true) (n : Nat) :
    IsField (bytes (String.ofList cs), decimal n) :=
  ⟨chars_of_plain (plain_bytes cs h), .number (number_decimal n)⟩

theorem isField_quote {cs : List Char} (h : cs.all isPlainChar = true) {text : Bytes} (htext : Chars text) :
    IsField (bytes (String.ofList cs), quote text) :=
  ⟨chars_of_plain (plain_bytes cs h), .string (.mk htext)⟩

theorem isField_literal {cs ds : List Char} (h : cs.all isPlainChar = true) (hd : ds.all isPlainChar = true) :
    IsField (bytes (String.ofList cs), quote (bytes (String.ofList ds))) :=
  isField_quote h (chars_of_plain (plain_bytes ds hd))

theorem isField_cache {e : Surroundings} (stats : CacheStats)
    (hratio : ∀ hits accesses, Number (e.hitRatio hits accesses)) : ∀ f ∈ cacheFields e stats, IsField f := by
  refine List.forall_mem_append.mpr ⟨?_, ?_⟩
  · simp only [List.forall_mem_cons]
    exact ⟨isField_decimal (by decide) _, isField_decimal (by decide) _, isField_decimal (by decide) _,
      isField_decimal (by decide) _, List.forall_mem_nil _⟩
  · split
    · exact List.forall_mem_singleton.mpr ⟨chars_of_plain (plain_bytes _ (by decide)), .number (hratio _ _)⟩
    · exact List.forall_mem_nil _

/-- The page is a JSON text where what it quotes is. -/
theorem isText_statusPage {e : Surroundings} {h : FileHandler} {ctime : Bytes} (hctime : Chars ctime)
    (hroot : Chars h.documentRoot) (hratio : ∀ hits accesses, Number (e.hitRatio hits accesses)) :
    IsText (statusPage e h ctime) := by
  have hindent : bytes "  " = [32, 32] ∧ bytes "    " = [32, 32, 32, 32] ∧ bytes "\n" = [10] := by decide
  have hws : IsWs (bytes "  ") ∧ IsWs (bytes "    ") ∧ IsWs (bytes "\n") := by
    rw [hindent.1, hindent.2.1, hindent.2.2]
    exact ⟨isWs_nil.blank.blank, isWs_nil.blank.blank.blank.blank, isWs_nil.newline⟩
  have hcache : Derives .value (printObject (bytes "    ") (bytes "  ") (cacheFields e h.getCacheStats)) :=
    derives_printObject hws.2.1 hws.1 (List.cons_ne_nil _ _) (isField_cache _ hratio)
  have hfields : ∀ f ∈ statusFields e h ctime, IsField f := by
    simp only [statusFields, List.forall_mem_cons]
    exact ⟨isField_literal (by decide) (by decide), isField_quote (by decide) hctime,
      isField_decimal (by decide) _, isField_decimal (by decide) _, isField_decimal (by decide) _,
      isField_quote (by decide) hroot, isField_literal (by decide) (by decide),
      isField_literal (by decide) (by decide), ⟨chars_of_plain (plain_bytes _ (by decide)), hcache⟩,
      List.forall_mem_nil _⟩
  rw [statusPage_eq]
  exact .mk (v := printObject (bytes "  ") [] (statusFields e h ctime)) isWs_nil
    (derives_printObject hws.1 isWs_nil (List.cons_ne_nil _ _) hfields) hws.2.2

/-! ## The time of day -/

/-- A number with three places at least, blank where it has no digit. -/
def threePlaces (n : Nat) : Bytes := List.replicate (3 - (decimal n).length) 32 ++ decimal n

/-- What `std::ctime` returns, without its newline. -/
def ctimeLine (time : Tm) : Bytes :=
  HttpResponse.weekday time.wday ++ bytes " " ++ HttpResponse.monthName time.mon ++ threePlaces time.mday ++ bytes " " ++
    HttpResponse.twoDigits time.hour ++ bytes ":" ++ HttpResponse.twoDigits time.min ++ bytes ":" ++
    HttpResponse.twoDigits time.sec ++ bytes " " ++ decimal (1900 + time.year)

/-- `std::ctime` for the time `localtime` answers. -/
def ctime (time : Tm) : Bytes := ctimeLine time ++ bytes "\n"

example : ctime ⟨0, 0, 0, 1, 0, 70, 4⟩ = bytes "Thu Jan  1 00:00:00 1970\n" := by decide

theorem plain_decimal {n : Nat} : ∀ b ∈ decimal n, IsPlain b := fun _ hb => (isDigit_decimal hb).isPlain

theorem plain_twoDigits {n : Nat} : ∀ b ∈ HttpResponse.twoDigits n, IsPlain b := by
  unfold HttpResponse.twoDigits
  split
  · exact List.forall_mem_append.mpr ⟨plain_bytes _ (by decide), plain_decimal⟩
  · exact plain_decimal

theorem plain_threePlaces {n : Nat} : ∀ b ∈ threePlaces n, IsPlain b := by
  refine List.forall_mem_append.mpr ⟨fun b hb => ?_, plain_decimal⟩
  rw [List.eq_of_mem_replicate hb]
  decide

theorem plain_weekday (d : Fin 7) : ∀ b ∈ HttpResponse.weekday d, IsPlain b := by
  fin_cases d <;> exact plain_bytes _ (by decide)

theorem plain_monthName (m : Fin 12) : ∀ b ∈ HttpResponse.monthName m, IsPlain b := by
  fin_cases m <;> exact plain_bytes _ (by decide)

theorem plain_ctimeLine (time : Tm) : ∀ b ∈ ctimeLine time, IsPlain b := by
  have hblank : ∀ b ∈ bytes " ", IsPlain b := plain_bytes _ (by decide)
  have hcolon : ∀ b ∈ bytes ":", IsPlain b := plain_bytes _ (by decide)
  simp only [ctimeLine, List.forall_mem_append]
  exact ⟨⟨⟨⟨⟨⟨⟨⟨⟨⟨⟨plain_weekday _, hblank⟩, plain_monthName _⟩, plain_threePlaces⟩, hblank⟩, plain_twoDigits⟩, hcolon⟩,
    plain_twoDigits⟩, hcolon⟩, plain_twoDigits⟩, hblank⟩, plain_decimal⟩

/-- What the page has before the time. -/
def statusHead : Bytes :=
  bytes "\x7b\n" ++ bytes "  \"server\": \"MultithreadedWebServer/1.0\",\n" ++ bytes "  \"timestamp\": \""

theorem prefix_statusPage (e : Surroundings) (h : FileHandler) (ctime : Bytes) :
    statusHead ++ ctime <+: statusPage e h ctime := by
  unfold statusPage statusHead
  simp only [List.append_assoc, List.prefix_append_right_inj]
  exact List.prefix_append _ _

/-- The time is put into a string. -/
theorem scan_statusHead : scan .outside statusHead = some .inside := by decide +kernel

/-- The newline of `std::ctime` is in the string that the time is put into. -/
theorem not_isText_statusPage (e : Surroundings) (h : FileHandler) (time : Tm) :
    ¬IsText (statusPage e h (ctime time)) := by
  obtain ⟨rest, hrest⟩ := prefix_statusPage e h (ctime time)
  have hline : scan .inside (ctimeLine time) = some .inside := (chars_of_plain (plain_ctimeLine time)).scanned
  rw [← hrest, ctime, ← List.append_assoc, List.append_assoc _ (bytes "\n")]
  exact not_isText_of_control (scan_of_then scan_statusHead hline) (by decide)

/-- No answer of the status endpoint is a JSON text, whatever the state of the
server and the time are. -/
theorem not_isText_status (e : Surroundings) (h : FileHandler) (date : Bytes) (time : Tm) :
    ¬IsText (handleApiRequest e h (bytes "/api/info") ⟨date, ctime time⟩).body ∧
      ¬IsText (handleApiRequest e h (bytes "/api/status") ⟨date, ctime time⟩).body := by
  constructor
  · rw [handleApiRequest, if_pos (.inl rfl)]
    exact not_isText_statusPage e h time
  · rw [handleApiRequest, if_pos (.inr rfl)]
    exact not_isText_statusPage e h time

/-- The state of the server as it starts, asked at midnight. -/
theorem not_isText_status_started :
    ¬IsText (handleApiRequest (quiet []) Serving.started.handler (bytes "/api/status")
      ⟨bytes "Thu, 01 Jan 1970 00:00:00 GMT", ctime ⟨0, 0, 0, 1, 0, 70, 4⟩⟩).body :=
  not_isText_statusPage _ _ _

end Webserver
