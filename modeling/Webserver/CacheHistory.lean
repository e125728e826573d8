/-
The file cache with the history of its calls. An entry is what the last `put`
of its key has stored, whatever was done for other keys in between, and its
use counts the `get`s since; the two counters count the `get`s since the last
`clear`, by whether they returned an entry.
-/
import Webserver.CacheContents

namespace Webserver

open Cxx Systems Recency

namespace CacheOp

def isGet : CacheOp → Bool
  | get _ _ _ => true
  | _ => false

def isClear : CacheOp → Bool
  | clear => true
  | _ => false

def gets (key : Bytes) : CacheOp → Bool
  | get key' _ _ => key' = key
  | _ => false

/-- The call stores data for `key`, or removes what is stored. -/
def rewrites (key : Bytes) : CacheOp → Bool
  | put key' data _ _ => key' = key && data ≠ []
  | remove key' => key' = key
  | clear => true
  | _ => false

end CacheOp

/-- The call is a `get` that returns an entry, or a `put` that stores one. -/
def LRUCache.succeeds (c : LRUCache) : CacheOp → Bool
  | .get key now accessed => (c.get key now accessed).2.isSome
  | .put key data _ _ =>
    key ≠ [] && data ≠ [] && ((c.cache.lookup key).isSome || data.length ≤ c.maxSizeBytes)
  | _ => false

/-- A call, and whether it succeeded. -/
abbrev CacheCall := CacheOp × Bool

/-- A cache and the calls so far, the first one first. -/
structure Recorded where
  cache : LRUCache
  calls : List CacheCall

namespace Recorded

def exec (s : Recorded) (op : CacheOp) : Option Recorded :=
  (s.cache.exec op).map fun c => { cache := c, calls := s.calls ++ [(op, s.cache.succeeds op)] }

/-- A cache as a system, from its constructor on. -/
def system : System Recorded CacheOp where
  init s := ∃ maxSizeMb ttlSeconds, s = { cache := .make maxSizeMb ttlSeconds, calls := [] }
  step := exec

theorem step_cases {s s' : Recorded} {op} (h : system.step s op = some s') :
    s.cache.exec op = some s'.cache ∧ s'.calls = s.calls ++ [(op, s.cache.succeeds op)] := by
  obtain ⟨c, hc, rfl⟩ := Option.map_eq_some_iff.mp h
  exact ⟨hc, rfl⟩

/-- Without its calls a run is one of the cache. -/
theorem reaches {ok : LRUCache → CacheOp → Prop} {s : Recorded}
    (h : system.ReachableBy (fun s op => ok s.cache op) s) : LRUCache.system.ReachableBy ok s.cache := by
  induction h with
  | init hinit =>
    obtain ⟨maxSizeMb, ttlSeconds, rfl⟩ := hinit
    exact .init ⟨maxSizeMb, ttlSeconds, rfl⟩
  | step _ hok hs ih => exact .step ih hok (step_cases hs).1

theorem linked {ok} {s : Recorded} (h : system.ReachableBy ok s) : s.cache.Linked :=
  LRUCache.linked (@reaches (fun _ _ => True) s h.reachable)

/-- Every call returns. -/
theorem returns {ok} {s : Recorded} (h : system.ReachableBy ok s) (op : CacheOp) :
    ∃ s', system.step s op = some s' := by
  obtain ⟨c', hc', -⟩ := (linked h).exec op
  exact ⟨{ cache := c', calls := s.calls ++ [(op, s.cache.succeeds op)] },
    Option.map_eq_some_iff.mpr ⟨c', hc', rfl⟩⟩

end Recorded

/-! ## Where an entry comes from -/

/-- The last `put` of data for `key`, with no `remove(key)` and no `clear`
since; `after` are the calls since. -/
structure LastPut (calls : List CacheCall) (key data contentType : Bytes) (time : Int)
    (after : List CacheCall) : Prop where
  nonempty : data ≠ []
  split : ∃ before done, calls = before ++ (.put key data contentType time, done) :: after
  last : ∀ call ∈ after, call.1.rewrites key = false

/-- An entry is the one of the last `put` of its key, used since as often as
it was got. -/
def Explained (calls : List CacheCall) (key : Bytes) (entry : CacheEntry) : Prop :=
  ∃ after, LastPut calls key entry.data entry.contentType entry.created after ∧
    entry.accessCount = (1 + after.countP (·.1.gets key)) % 2 ^ 64

theorem LastPut.append {calls after : List CacheCall} {key data contentType : Bytes} {time : Int}
    {call : CacheCall} (h : LastPut calls key data contentType time after)
    (hcall : call.1.rewrites key = false) :
    LastPut (calls ++ [call]) key data contentType time (after ++ [call]) := by
  obtain ⟨hdata, ⟨before, done, rfl⟩, hlast⟩ := h
  refine ⟨hdata, ⟨before, done, by simp⟩, fun c hc => ?_⟩
  rcases List.mem_append.mp hc with hc | hc
  · exact hlast c hc
  · exact List.mem_singleton.mp hc ▸ hcall

/-- A call that is not about the key. -/
theorem Explained.quiet {calls : List CacheCall} {key : Bytes} {entry : CacheEntry} {call : CacheCall}
    (h : Explained calls key entry) (hcall : call.1.rewrites key = false)
    (hget : call.1.gets key = false) : Explained (calls ++ [call]) key entry := by
  obtain ⟨after, hlast, hcount⟩ := h
  refine ⟨after ++ [call], hlast.append hcall, ?_⟩
  rw [List.countP_append, List.countP_singleton, hget, hcount]
  rfl

/-- The entry is got. -/
theorem Explained.got {calls : List CacheCall} {key : Bytes} {entry entry' : CacheEntry} {now accessed : Int}
    {done : Bool} (h : Explained calls key entry) (hsame : LRUCache.SameFile entry' entry)
    (hcount : entry'.accessCount = addSize entry.accessCount 1) :
    Explained (calls ++ [(.get key now accessed, done)]) key entry' := by
  obtain ⟨after, hlast, hused⟩ := h
  obtain ⟨hdata, htype, hcreated⟩ := hsame
  refine ⟨after ++ [(.get key now accessed, done)], ?_, ?_⟩
  · rw [hdata, htype, hcreated]
    exact hlast.append rfl
  · rw [hcount, hused, addSize, List.countP_append, List.countP_singleton]
    simp only [CacheOp.gets, decide_true, if_true]
    omega

/-- The entry is new. -/
theorem Explained.new (calls : List CacheCall) (key : Bytes) {data contentType : Bytes} {now : Int}
    {done : Bool} (hdata : data ≠ []) :
    Explained (calls ++ [(.put key data contentType now, done)]) key
      (LRUCache.newEntry data contentType now) :=
  ⟨[], ⟨hdata, ⟨calls, done, rfl⟩, nofun⟩, rfl⟩

namespace Recorded

/-- Every stored entry has a key and is explained by the calls. -/
def Explains (s : Recorded) : Prop :=
  ∀ key entry it, s.cache.cache.lookup key = some (entry, it) → key ≠ [] ∧ Explained s.calls key entry

theorem Explains.quiet {s s' : Recorded} {call : CacheCall} (h : s.Explains)
    (hcalls : s'.calls = s.calls ++ [call]) (hwithin : LRUCache.Within s'.cache s.cache)
    (hcall : ∀ key v, s'.cache.cache.lookup key = some v →
      call.1.rewrites key = false ∧ call.1.gets key = false) : s'.Explains := by
  intro key entry it hk
  obtain ⟨hne, he⟩ := h key entry it (hwithin key _ hk)
  obtain ⟨hrewrites, hgets⟩ := hcall key _ hk
  exact ⟨hne, hcalls ▸ he.quiet hrewrites hgets⟩

theorem Explains.get {s s' : Recorded} {key : Bytes} {now accessed : Int} (h : s.Explains)
    (hcache : s'.cache = (s.cache.get key now accessed).1)
    (hcalls : s'.calls = s.calls ++ [(.get key now accessed, s.cache.succeeds (.get key now accessed))]) :
    s'.Explains := by
  intro k entry it hk
  rw [hcache] at hk
  by_cases hkey : k = key
  · subst hkey
    rw [LRUCache.lookup_get, Option.map_eq_some_iff] at hk
    obtain ⟨entry', hgot, heq⟩ := hk
    obtain ⟨rfl, -⟩ := Prod.mk.inj heq
    obtain ⟨entry₀, it₀, hk₀, hsame, -⟩ := LRUCache.get_eq_some hgot
    obtain ⟨hne, he⟩ := h k entry₀ it₀ hk₀
    exact ⟨hne, hcalls ▸ he.got hsame (LRUCache.get_accessCount hgot hk₀)⟩
  · rw [LRUCache.lookup_get_of_ne _ _ _ hkey] at hk
    obtain ⟨hne, he⟩ := h k entry it hk
    refine ⟨hne, hcalls ▸ he.quiet rfl ?_⟩
    simpa [CacheOp.gets] using Ne.symm hkey

theorem Explains.put {s s' : Recorded} {key data contentType : Bytes} {now : Int} (h : s.Explains)
    (hput : s.cache.put key data contentType now = some s'.cache)
    (hcalls : s'.calls = s.calls ++ [(.put key data contentType now,
      s.cache.succeeds (.put key data contentType now))]) : s'.Explains := by
  obtain ⟨hothers, hignored, hnew⟩ := LRUCache.put_lookup hput
  intro k entry it hk
  by_cases hkey : k = key
  · subst hkey
    by_cases hargs : k = [] ∨ data = []
    · rw [hignored hargs] at hk
      obtain ⟨hne, he⟩ := h k entry it hk
      refine ⟨hne, hcalls ▸ he.quiet ?_ rfl⟩
      simp [CacheOp.rewrites, hargs.resolve_left hne]
    · obtain ⟨hne, hdata⟩ := not_or.mp hargs
      have he : entry = LRUCache.newEntry data contentType now := hnew hne hdata _ hk
      exact ⟨hne, hcalls ▸ he ▸ Explained.new s.calls k hdata⟩
  · obtain ⟨hne, he⟩ := h k entry it (hothers k _ hkey hk)
    refine ⟨hne, hcalls ▸ he.quiet ?_ rfl⟩
    simp [CacheOp.rewrites, Ne.symm hkey]

theorem explains {ok} {s : Recorded} (h : system.ReachableBy ok s) : s.Explains := by
  refine h.invariant (I := Explains) ?_ ?_
  · intro s hinit
    obtain ⟨maxSizeMb, ttlSeconds, rfl⟩ := hinit
    exact nofun
  intro s op s' _ hi _ hs
  obtain ⟨hexec, hcalls⟩ := step_cases hs
  cases op with
  | get key now accessed => exact hi.get (Option.some.inj hexec).symm hcalls
  | put key data contentType now => exact hi.put hexec hcalls
  | remove key =>
    have hcache := (Option.some.inj hexec).symm
    refine hi.quiet hcalls (hcache ▸ LRUCache.remove_within _ _) fun k v hk => ⟨?_, rfl⟩
    have hne : key ≠ k := by
      rintro rfl
      rw [hcache, LRUCache.lookup_remove] at hk
      cases hk
    simpa [CacheOp.rewrites] using hne
  | clear =>
    have hcache := (Option.some.inj hexec).symm
    intro k entry it hk
    rw [hcache] at hk
    cases hk
  | evictExpired now =>
    have hcache := (Option.some.inj hexec).symm
    exact hi.quiet hcalls (hcache ▸ LRUCache.evictExpired_within _ _) fun _ _ _ => ⟨rfl, rfl⟩
  | setMaxSize maxSizeMb =>
    have hcache := (Option.some.inj hexec).symm
    exact hi.quiet hcalls (hcache ▸ fun _ _ => id) fun _ _ _ => ⟨rfl, rfl⟩
  | setTtl ttlSeconds =>
    have hcache := (Option.some.inj hexec).symm
    exact hi.quiet hcalls (hcache ▸ fun _ _ => id) fun _ _ _ => ⟨rfl, rfl⟩

/-! ## The counters -/

/-- The calls since the last `clear`. -/
def sinceClear (calls : List CacheCall) : List CacheCall := calls.rtakeWhile fun call => !call.1.isClear

/-- The two counters count the `get`s since the last `clear`. -/
structure Counts (s : Recorded) : Prop where
  hits : s.cache.cacheHits = (sinceClear s.calls).countP (fun call => call.1.isGet && call.2) % 2 ^ 64
  misses : s.cache.cacheMisses = (sinceClear s.calls).countP (fun call => call.1.isGet && !call.2) % 2 ^ 64

theorem sinceClear_concat {calls : List CacheCall} {call : CacheCall} (h : call.1.isClear = false) :
    sinceClear (calls ++ [call]) = sinceClear calls ++ [call] :=
  List.rtakeWhile_concat_pos _ _ _ (by simp [h])

/-- A call that is neither a `get` nor a `clear`. -/
theorem Counts.quiet {s s' : Recorded} {call : CacheCall} (h : s.Counts)
    (hcalls : s'.calls = s.calls ++ [call]) (hcounters : LRUCache.SameCounters s'.cache s.cache)
    (hget : call.1.isGet = false) (hclear : call.1.isClear = false) : s'.Counts := by
  refine ⟨?_, ?_⟩
  · rw [hcalls, sinceClear_concat hclear, List.countP_append, List.countP_singleton, hget, hcounters.1, h.hits]
    rfl
  · rw [hcalls, sinceClear_concat hclear, List.countP_append, List.countP_singleton, hget, hcounters.2, h.misses]
    rfl

theorem Counts.get {s s' : Recorded} {key : Bytes} {now accessed : Int} (h : s.Counts)
    (hcache : s'.cache = (s.cache.get key now accessed).1)
    (hcalls : s'.calls = s.calls ++ [(.get key now accessed, s.cache.succeeds (.get key now accessed))]) :
    s'.Counts := by
  obtain ⟨hhits, hmisses⟩ := LRUCache.get_counters s.cache key now accessed
  have hsucceeds : s.cache.succeeds (.get key now accessed) = (s.cache.get key now accessed).2.isSome := rfl
  have hadd : ∀ n : Nat, addSize (n % 2 ^ 64) 1 = (n + 1) % 2 ^ 64 := by
    intro n
    unfold addSize
    omega
  rw [hsucceeds] at hcalls
  refine ⟨?_, ?_⟩
  · rw [hcalls, sinceClear_concat rfl, List.countP_append, List.countP_singleton, hcache, hhits, h.hits]
    cases (s.cache.get key now accessed).2.isSome with
    | true => exact hadd _
    | false => rfl
  · rw [hcalls, sinceClear_concat rfl, List.countP_append, List.countP_singleton, hcache, hmisses, h.misses]
    cases (s.cache.get key now accessed).2.isSome with
    | true => rfl
    | false => exact hadd _

theorem counts {ok} {s : Recorded} (h : system.ReachableBy ok s) : s.Counts := by
  refine h.invariant (I := Counts) ?_ ?_
  · intro s hinit
    obtain ⟨maxSizeMb, ttlSeconds, rfl⟩ := hinit
    exact ⟨rfl, rfl⟩
  intro s op s' _ hi _ hs
  obtain ⟨hexec, hcalls⟩ := step_cases hs
  cases op with
  | get key now accessed => exact hi.get (Option.some.inj hexec).symm hcalls
  | put key data contentType now => exact hi.quiet hcalls (LRUCache.put_rest hexec).counters rfl rfl
  | remove key =>
    exact hi.quiet hcalls ((Option.some.inj hexec) ▸ (LRUCache.remove_rest _ _).counters) rfl rfl
  | clear =>
    have hnone : sinceClear s'.calls = [] := by
      rw [hcalls]
      exact List.rtakeWhile_concat_neg _ _ _ (by simp [CacheOp.isClear])
    obtain hcache := (Option.some.inj hexec).symm
    exact ⟨by rw [hnone, hcache]; rfl, by rw [hnone, hcache]; rfl⟩
  | evictExpired now =>
    exact hi.quiet hcalls ((Option.some.inj hexec) ▸ (LRUCache.evictExpired_rest _ _).counters) rfl rfl
  | setMaxSize maxSizeMb | setTtl ttlSeconds =>
    exact hi.quiet hcalls ((Option.some.inj hexec) ▸ ⟨rfl, rfl⟩) rfl rfl

/-! ## Reads -/

/-- An entry that is not expired is younger than the lifetime. -/
theorem age_lt {c : LRUCache} {entry : CacheEntry} {now : Int} (h : c.isExpired entry now = false)
    (httl : 0 < c.ttlSeconds) : now - entry.created < c.ttlSeconds * 1000000000 := by
  simp only [LRUCache.isExpired, httl, decide_true, Bool.true_and, decide_eq_false_iff_not, not_le] at h
  by_cases hneg : now - entry.created < 0
  · have : 0 < c.ttlSeconds * 1000000000 := by omega
    omega
  · rw [Int.tdiv_eq_ediv_of_nonneg (by omega)] at h
    omega

/-- **A read returns the last write**: what a `get` returns are the data of
the last `put` of its key, made less than the lifetime ago, with no `remove`
or `clear` since, and counts the `get`s since, this one with them; and the
counters tell how many `get`s since the last `clear` returned an entry, and
how many there were. -/
theorem read_last_write {s : Recorded} (h : system.Reachable s) :
    (∀ key now accessed entry, (s.cache.get key now accessed).2 = some entry →
      ∃ time after, LastPut s.calls key entry.data entry.contentType time after ∧
        (0 < s.cache.ttlSeconds → now - time < s.cache.ttlSeconds * 1000000000) ∧
        entry.accessCount = (1 + (after.countP (·.1.gets key) + 1)) % 2 ^ 64) ∧
    s.cache.cacheHits = (sinceClear s.calls).countP (fun call => call.1.isGet && call.2) % 2 ^ 64 ∧
    addSize s.cache.cacheHits s.cache.cacheMisses = (sinceClear s.calls).countP (·.1.isGet) % 2 ^ 64 := by
  refine ⟨fun key now accessed entry hgot => ?_, (counts h).hits, ?_⟩
  · obtain ⟨entry₀, it, hk, ⟨hdata, htype, hcreated⟩, hexpired⟩ := LRUCache.get_eq_some hgot
    obtain ⟨-, after, hlast, hused⟩ := explains h key entry₀ it hk
    refine ⟨entry₀.created, after, hdata ▸ htype ▸ hlast, age_lt hexpired, ?_⟩
    rw [LRUCache.get_accessCount hgot hk, hused, addSize]
    omega
  · have hsplit : ∀ l : List CacheCall, l.countP (·.1.isGet) =
        l.countP (fun call => call.1.isGet && call.2) + l.countP (fun call => call.1.isGet && !call.2) := by
      intro l
      induction l with
      | nil => rfl
      | cons call l ih =>
        simp only [List.countP_cons, ih]
        cases call.1.isGet <;> cases call.2 <;> simp <;> omega
    rw [hsplit, (counts h).hits, (counts h).misses, addSize]
    omega

/-- A page is cached, another overwritten, read and read again. -/
def readTwice : List CacheOp :=
  [.put (bytes "a") [1] (bytes "t") 0, .put (bytes "b") [2] [] 1, .put (bytes "a") [3, 4] (bytes "u") 2,
    .get (bytes "a") 3 3, .get (bytes "c") 4 4]

theorem read_last_write_twice : ∃ s : Recorded, system.Reachable s ∧
    ∃ entry, (s.cache.get (bytes "a") 5 5).2 = some entry ∧ entry.data = [3, 4] ∧
      ∃ time after, LastPut s.calls (bytes "a") entry.data entry.contentType time after ∧
        entry.accessCount = (1 + (after.countP (·.1.gets (bytes "a")) + 1)) % 2 ^ 64 := by
  obtain ⟨s, hr, hs⟩ := System.exists_reachable (S := system)
    (s := { cache := .make 1 300, calls := [] }) ⟨1, 300, rfl⟩ readTwice
    (fun s => (s.cache.get (bytes "a") 5 5).2.any fun entry => entry.data = [3, 4]) (by decide +kernel)
  obtain ⟨entry, hgot, hdata⟩ := (Option.any_eq_true _ _).mp hs
  obtain ⟨time, after, hlast, -, hused⟩ := (read_last_write hr).1 _ _ _ _ hgot
  exact ⟨s, hr, entry, hgot, by simpa using hdata, time, after, hlast, hused⟩

end Recorded

end Webserver
