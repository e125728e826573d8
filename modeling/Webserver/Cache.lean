/-
The file cache (`cache.h`, `cache.cpp`). A node of `lru_list_` has a number,
an iterator is the number of its node. Each operation holds the mutex
throughout, so that it is one step; the clock readings within it are its
arguments. Times are in nanoseconds.
-/
import Webserver.Recency
import Webserver.Strings
import Webserver.Systems

namespace Webserver

open Cxx Systems

structure CacheEntry where
  data : Bytes
  contentType : Bytes
  created : Int
  lastAccessed : Int
  accessCount : Nat
  deriving DecidableEq

structure LRUCache where
  /-- `cache_`: an entry and the iterator of its key. -/
  cache : AList fun _ : Bytes => CacheEntry × Nat
  /-- `lru_list_`, front first. -/
  lruList : List (Nat × Bytes)
  maxSizeBytes : Nat
  ttlSeconds : Int
  currentSize : Nat
  cacheHits : Nat
  cacheMisses : Nat
  /-- Not in the source: the number of the next node made. -/
  nextNode : Nat
  /-- Not in the source: a subtraction from `current_size_` has wrapped. -/
  underflowed : Bool

namespace LRUCache

/-- `max_size_mb * 1024 * 1024` -/
def megabytes (n : Nat) : Nat := n * 1024 * 1024 % 2 ^ 64

/-- The constructor. -/
def make (maxSizeMb : Nat) (ttlSeconds : Int) : LRUCache where
  cache := ∅
  lruList := []
  maxSizeBytes := megabytes maxSizeMb
  ttlSeconds := ttlSeconds
  currentSize := 0
  cacheHits := 0
  cacheMisses := 0
  nextNode := 0
  underflowed := false

/-- `current_size_ -= size` -/
def subtract (c : LRUCache) (size : Nat) : LRUCache :=
  { c with currentSize := (c.currentSize + (2 ^ 64 - size % 2 ^ 64)) % 2 ^ 64,
           underflowed := c.underflowed || c.currentSize < size }

/-- `current_size_ += size` -/
def add (c : LRUCache) (size : Nat) : LRUCache := { c with currentSize := addSize c.currentSize size }

/-- `lru_list_.erase(it)` -/
def eraseNode (c : LRUCache) (it : Nat) : LRUCache :=
  { c with lruList := Recency.removeNode c.lruList it }

/-- `lru_list_.push_front(key)`; `begin()` is `c.nextNode` then. -/
def pushFront (c : LRUCache) (key : Bytes) : LRUCache :=
  { c with lruList := (c.nextNode, key) :: c.lruList, nextNode := c.nextNode + 1 }

def isExpired (c : LRUCache) (entry : CacheEntry) (now : Int) : Bool :=
  0 < c.ttlSeconds && c.ttlSeconds ≤ (now - entry.created).tdiv 1000000000

/-- `get`: `now` is read by `is_expired`, `accessed` for `last_accessed`. -/
def get (c : LRUCache) (key : Bytes) (now accessed : Int) : LRUCache × Option CacheEntry :=
  match c.cache.lookup key with
  | none => ({ c with cacheMisses := addSize c.cacheMisses 1 }, none)
  | some (entry, it) =>
    if c.isExpired entry now then
      let c := (c.eraseNode it).subtract entry.data.length
      ({ c with cache := c.cache.erase key, cacheMisses := addSize c.cacheMisses 1 }, none)
    else
      let begin_ := c.nextNode
      let c := (c.eraseNode it).pushFront key
      let entry := { entry with lastAccessed := accessed, accessCount := addSize entry.accessCount 1 }
      ({ c with cache := c.cache.insert key (entry, begin_), cacheHits := addSize c.cacheHits 1 },
        some entry)

/-- `evict_lru` -/
def evictLru (c : LRUCache) : LRUCache :=
  match c.lruList.getLast? with
  | none => c
  | some (_, key) =>
    let c := { c with lruList := c.lruList.dropLast }
    match c.cache.lookup key with
    | none => c
    | some (entry, _) =>
      let c := c.subtract entry.data.length
      { c with cache := c.cache.erase key }

/-- The condition of `put`'s loop. -/
def mustEvict (c : LRUCache) (entrySize : Nat) : Bool :=
  c.maxSizeBytes < addSize c.currentSize entrySize && !c.cache.entries.isEmpty

/-- `put`'s loop, for at most `fuel` tests of its condition. -/
def evictWhile (entrySize : Nat) : Nat → LRUCache → Option LRUCache
  | 0, _ => none
  | fuel + 1, c => if c.mustEvict entrySize then evictWhile entrySize fuel c.evictLru else some c

/-- The rest of `put` for a key that is not in the cache; `none` where the
loop goes on for ever: it does if the list is empty and its condition holds. -/
def putNew (c : LRUCache) (key data contentType : Bytes) (now : Int) : Option LRUCache := do
  let c ← evictWhile data.length (c.lruList.length + 1) c
  if c.maxSizeBytes < data.length then return c
  else
    let begin_ := c.nextNode
    let c := c.pushFront key
    let entry : CacheEntry := { data, contentType, created := now, lastAccessed := now, accessCount := 1 }
    return { c with cache := c.cache.insert key (entry, begin_) }.add data.length

def put (c : LRUCache) (key data contentType : Bytes) (now : Int) : Option LRUCache :=
  if key = [] ∨ data = [] then some c
  else match c.cache.lookup key with
    | some (entry, it) =>
      let c := (c.subtract entry.data.length).add data.length
      let begin_ := c.nextNode
      let c := (c.eraseNode it).pushFront key
      let entry : CacheEntry := { data, contentType, created := now, lastAccessed := now, accessCount := 1 }
      some { c with cache := c.cache.insert key (entry, begin_) }
    | none => c.putNew key data contentType now

def remove (c : LRUCache) (key : Bytes) : LRUCache :=
  match c.cache.lookup key with
  | none => c
  | some (entry, it) =>
    let c := (c.subtract entry.data.length).eraseNode it
    { c with cache := c.cache.erase key }

def clear (c : LRUCache) : LRUCache :=
  { c with cache := ∅, lruList := [], currentSize := 0, cacheHits := 0, cacheMisses := 0 }

/-- The first pass of `evict_expired`; `now` is the reading for each key. -/
def expiredKeys (c : LRUCache) (now : Bytes → Int) : List Bytes :=
  (c.cache.entries.filter fun e => c.isExpired e.2.1 (now e.1)).map (·.1)

/-- `evict_expired`: the second pass is `remove`, but for the lock. -/
def evictExpired (c : LRUCache) (now : Bytes → Int) : LRUCache :=
  (c.expiredKeys now).foldl remove c

def setMaxSize (c : LRUCache) (maxSizeMb : Nat) : LRUCache :=
  { c with maxSizeBytes := megabytes maxSizeMb }

def setTtl (c : LRUCache) (ttlSeconds : Int) : LRUCache := { c with ttlSeconds }

/-- The sum of the data sizes of the stored entries. -/
def storedSize (c : LRUCache) : Nat := Recency.total (fun entry => entry.data.length) c.cache

end LRUCache

/-- A call of an operation, with the clock readings in it. -/
inductive CacheOp
  | get (key : Bytes) (now accessed : Int)
  | put (key data contentType : Bytes) (now : Int)
  | remove (key : Bytes)
  | clear
  | evictExpired (now : Bytes → Int)
  | setMaxSize (maxSizeMb : Nat)
  | setTtl (ttlSeconds : Int)

namespace LRUCache

/-- The cache after a call; `none` where the call does not return. -/
def exec (c : LRUCache) : CacheOp → Option LRUCache
  | .get key now accessed => some (c.get key now accessed).1
  | .put key data contentType now => c.put key data contentType now
  | .remove key => some (c.remove key)
  | .clear => some c.clear
  | .evictExpired now => some (c.evictExpired now)
  | .setMaxSize maxSizeMb => some (c.setMaxSize maxSizeMb)
  | .setTtl ttlSeconds => some (c.setTtl ttlSeconds)

/-- A cache as a system, from its constructor on. -/
def system : System LRUCache CacheOp where
  init c := ∃ maxSizeMb ttlSeconds, c = make maxSizeMb ttlSeconds
  step := exec

end LRUCache

end Webserver
