/-
The representation invariant of the file cache: the list and the map hold the
same keys, each iterator its own node, and the counter is the sum of the
stored sizes. Every operation keeps it, and it makes `put`'s loop end, since
the list is empty only if the map is.
-/
import Webserver.Cache

namespace Webserver.LRUCache

open Cxx Systems Recency

/-- What the two structures and the counter promise each other. -/
structure Represents (c : LRUCache) : Prop where
  nodup : (c.lruList.map (·.2)).Nodup
  keys : ∀ key, key ∈ c.lruList.map (·.2) ↔ key ∈ c.cache
  iterator : ∀ key entry it, c.cache.lookup key = some (entry, it) → Denotes c.lruList it key
  size : c.currentSize = c.storedSize
  noUnderflow : c.underflowed = false

/-- The same with what the induction needs: all nodes are distinct, and the
sum is a `size_t`. -/
structure Inv (c : LRUCache) : Prop where
  indexed : Indexed c.lruList c.cache c.nextNode
  size : c.currentSize = c.storedSize
  noUnderflow : c.underflowed = false
  bounded : c.storedSize < 2 ^ 64

theorem Inv.toRepresents {c : LRUCache} (h : c.Inv) : c.Represents :=
  ⟨h.indexed.keys_nodup, h.indexed.mem_keys, fun _ _ _ => h.indexed.denotes, h.size, h.noUnderflow⟩

/-! ## The two structures -/

/-- The list and the map fit together, whatever the counter says. -/
def Linked (c : LRUCache) : Prop := Indexed c.lruList c.cache c.nextNode

theorem Linked.get {c : LRUCache} (h : c.Linked) (key : Bytes) (now accessed : Int) :
    (c.get key now accessed).1.Linked := by
  unfold LRUCache.get
  split
  · exact h
  · next entry it hk =>
    split
    · exact Indexed.erase h hk
    · exact Indexed.touch h hk

theorem Linked.remove {c : LRUCache} (h : c.Linked) (key : Bytes) : (c.remove key).Linked := by
  unfold LRUCache.remove
  split
  · exact h
  · next entry it hk => exact Indexed.erase h hk

/-- What every removal keeps, `evict_expired` keeps. -/
theorem evictExpired_keeps {I : LRUCache → Prop} {c : LRUCache} (now : Bytes → Int) (h : I c)
    (hstep : ∀ c key, I c → I (c.remove key)) : I (c.evictExpired now) := by
  unfold LRUCache.evictExpired
  generalize c.expiredKeys now = keys
  induction keys generalizing c with
  | nil => exact h
  | cons key keys ih => exact ih (hstep c key h)

/-- `evict_lru` removes the key of the last node. -/
theorem Linked.evictLru_eq {c : LRUCache} (h : c.Linked) {p : Nat × Bytes}
    (hp : c.lruList.getLast? = some p) : c.evictLru = c.remove p.2 ∧ p.2 ∈ c.cache ∧
      (c.remove p.2).lruList = c.lruList.dropLast := by
  obtain ⟨entry, hk, hlist⟩ := Indexed.last h hp
  have hmem : p.2 ∈ c.cache := AList.lookup_isSome.mp (by rw [hk]; rfl)
  refine ⟨?_, hmem, ?_⟩
  · simp only [LRUCache.evictLru, LRUCache.remove, hp, hk, eraseNode, subtract]
    rw [hlist]
  · simp only [LRUCache.remove, hk, eraseNode, subtract]
    exact hlist

theorem mem_of_mem_remove {c : LRUCache} {key k : Bytes} (h : k ∈ (c.remove key).cache) : k ∈ c.cache := by
  unfold LRUCache.remove at h
  split at h
  · exact h
  · exact (AList.mem_erase.mp h).2

/-- The list is empty only if the map is. -/
theorem Linked.getLast_of_mustEvict {c : LRUCache} {entrySize : Nat} (h : c.Linked)
    (he : c.mustEvict entrySize = true) : ∃ p, c.lruList.getLast? = some p := by
  simp only [mustEvict, Bool.and_eq_true, Bool.not_eq_true', List.isEmpty_eq_false_iff] at he
  obtain ⟨e, hmem⟩ := List.exists_mem_of_ne_nil _ he.2
  have hkey : e.1 ∈ c.cache := AList.mem_keys.mpr (List.mem_map_of_mem hmem)
  rw [← Indexed.mem_keys h] at hkey
  obtain ⟨p, hp, -⟩ := List.mem_map.mp hkey
  exact Option.isSome_iff_exists.mp (List.getLast?_isSome.mpr (List.ne_nil_of_mem hp))

/-- `put`'s loop ends: each turn removes the key of the last node. -/
theorem Linked.evictWhile {c : LRUCache} {fuel : Nat} (h : c.Linked) (entrySize : Nat)
    (hfuel : c.lruList.length < fuel) : ∃ c', evictWhile entrySize fuel c = some c' := by
  induction fuel generalizing c with
  | zero => cases hfuel
  | succ fuel ih =>
    simp only [LRUCache.evictWhile]
    split
    · next he =>
      obtain ⟨p, hp⟩ := h.getLast_of_mustEvict he
      obtain ⟨heq, -, hlist⟩ := h.evictLru_eq hp
      rw [heq]
      refine ih (h.remove p.2) ?_
      have := List.length_pos_of_mem (List.mem_of_getLast? hp)
      rw [hlist, List.length_dropLast]
      omega
    · exact ⟨c, rfl⟩

/-- More tests do not change what a loop that ended returns. -/
theorem evictWhile_mono {c c' : LRUCache} {entrySize fuel fuel' : Nat}
    (h : evictWhile entrySize fuel c = some c') (hle : fuel ≤ fuel') :
    evictWhile entrySize fuel' c = some c' := by
  induction fuel generalizing c fuel' with
  | zero => cases h
  | succ fuel ih =>
    obtain ⟨fuel', rfl⟩ := Nat.exists_eq_add_of_le' (Nat.lt_of_lt_of_le (Nat.succ_pos fuel) hle)
    simp only [evictWhile] at h ⊢
    split
    · next he =>
      rw [if_pos he] at h
      exact ih h (Nat.le_of_succ_le_succ hle)
    · next he => rwa [if_neg he] at h

/-- What every turn keeps holds after the loop, and its condition does not. -/
theorem evictWhile_keeps {I : LRUCache → Prop} {c c' : LRUCache} {entrySize fuel : Nat}
    (hstep : ∀ c, I c → c.mustEvict entrySize = true → I c.evictLru) (hI : I c)
    (h : evictWhile entrySize fuel c = some c') : I c' ∧ c'.mustEvict entrySize = false := by
  induction fuel generalizing c with
  | zero => cases h
  | succ fuel ih =>
    simp only [evictWhile] at h
    split at h
    · next he => exact ih (hstep c hI he) h
    · next he => exact Option.some.inj h ▸ ⟨hI, by simpa using he⟩

/-- The evictions of a `put`: they end, and what the removal of the last
node's key keeps holds after them. -/
theorem Linked.evictions {c : LRUCache} (h : c.Linked) (entrySize : Nat) {I : LRUCache → Prop} (hI : I c)
    (hstep : ∀ c : LRUCache, ∀ p, c.Linked → I c → c.mustEvict entrySize = true →
      c.lruList.getLast? = some p → I (c.remove p.2)) :
    ∃ c', LRUCache.evictWhile entrySize (c.lruList.length + 1) c = some c' ∧ c'.Linked ∧ I c' ∧
      c'.mustEvict entrySize = false := by
  obtain ⟨c', hc'⟩ := h.evictWhile entrySize (Nat.lt_succ_self _)
  obtain ⟨⟨hl, hi⟩, hdone⟩ := evictWhile_keeps (I := fun c => c.Linked ∧ I c) (fun c hc he => by
    obtain ⟨p, hp⟩ := hc.1.getLast_of_mustEvict he
    rw [(hc.1.evictLru_eq hp).1]
    exact ⟨hc.1.remove p.2, hstep c p hc.1 hc.2 he hp⟩) ⟨h, hI⟩ hc'
  exact ⟨c', hc', hl, hi, hdone⟩

theorem Linked.put {c : LRUCache} (h : c.Linked) (key data contentType : Bytes) (now : Int) :
    ∃ c', c.put key data contentType now = some c' ∧ c'.Linked := by
  unfold LRUCache.put
  split
  · exact ⟨c, rfl, h⟩
  split
  · next entry it hk => exact ⟨_, rfl, Indexed.touch h hk⟩
  · next hk =>
    obtain ⟨c₁, h₁, hl, hkeys, -⟩ := h.evictions data.length (I := fun c' => key ∉ c'.cache)
      (AList.lookup_eq_none.mp hk) fun c' p _ hnot _ _ hm => hnot (mem_of_mem_remove hm)
    simp only [LRUCache.putNew, h₁, Option.bind_eq_bind, Option.bind_some, Option.pure_def]
    split
    · exact ⟨c₁, rfl, hl⟩
    · exact ⟨_, rfl, Indexed.insert hl hkeys⟩

theorem Linked.exec {c : LRUCache} (h : c.Linked) (op : CacheOp) :
    ∃ c', c.exec op = some c' ∧ c'.Linked := by
  cases op with
  | get key now accessed => exact ⟨_, rfl, h.get key now accessed⟩
  | put key data contentType now => exact h.put key data contentType now
  | remove key => exact ⟨_, rfl, h.remove key⟩
  | clear => exact ⟨_, rfl, Indexed.empty _⟩
  | evictExpired now => exact ⟨_, rfl, evictExpired_keeps now h fun _ key hc => hc.remove key⟩
  | setMaxSize maxSizeMb => exact ⟨_, rfl, h⟩
  | setTtl ttlSeconds => exact ⟨_, rfl, h⟩

theorem linked {ok} {c : LRUCache} (h : system.ReachableBy ok c) : c.Linked := by
  refine h.invariant (I := Linked) ?_ ?_
  · intro c hinit
    obtain ⟨maxSizeMb, ttlSeconds, rfl⟩ := hinit
    exact Indexed.empty _
  intro c op c' _ hi _ hs
  obtain ⟨c₁, h₁, hl⟩ := hi.exec op
  exact Option.some.inj (h₁.symm.trans hs) ▸ hl

/-! ## The counter -/

theorem wrap_sub {a b : Nat} (hb : b ≤ a) (ha : a < 2 ^ 64) :
    (a + (2 ^ 64 - b % 2 ^ 64)) % 2 ^ 64 = a - b := by omega

theorem addSize_eq {a b : Nat} (h : a + b < 2 ^ 64) : addSize a b = a + b := Nat.mod_eq_of_lt h

/-- Subtracting the size of a stored entry leaves the sum of the others. -/
theorem Inv.subtract {c : LRUCache} {key entry it} (h : c.Inv)
    (hk : c.cache.lookup key = some (entry, it)) :
    (c.subtract entry.data.length).currentSize =
        total (fun e : CacheEntry => e.data.length) (c.cache.erase key) ∧
      (c.subtract entry.data.length).underflowed = false := by
  have hsum := total_erase (fun e : CacheEntry => e.data.length) hk
  have hle := le_total (fun e : CacheEntry => e.data.length) hk
  have hb := h.bounded
  simp only [storedSize] at hb
  have hc : c.currentSize = total (fun e : CacheEntry => e.data.length) c.cache := h.size
  refine ⟨?_, ?_⟩
  · simp only [LRUCache.subtract]
    rw [wrap_sub (by omega) (by omega)]
    omega
  · simp only [LRUCache.subtract, h.noUnderflow, Bool.false_or, decide_eq_false_iff_not]
    omega

/-! ## Operations -/

/-- An entry leaves, with its node and its size. -/
theorem Inv.removed {c c' : LRUCache} {key entry it} (h : c.Inv)
    (hk : c.cache.lookup key = some (entry, it)) (hcache : c'.cache = c.cache.erase key)
    (hlist : c'.lruList = removeNode c.lruList it) (hnext : c'.nextNode = c.nextNode)
    (hsize : c'.currentSize = (c.subtract entry.data.length).currentSize)
    (hunder : c'.underflowed = (c.subtract entry.data.length).underflowed) : c'.Inv := by
  obtain ⟨h₁, h₂⟩ := h.subtract hk
  have hsum := total_erase (fun e : CacheEntry => e.data.length) hk
  have hb := h.bounded
  simp only [storedSize] at hb
  refine ⟨?_, ?_, ?_, ?_⟩
  · rw [hlist, hcache, hnext]
    exact h.indexed.erase hk
  · rw [hsize, h₁, storedSize, hcache]
  · rw [hunder, h₂]
  · simp only [storedSize, hcache]
    omega

/-- A key moves to the front, with a new entry. -/
theorem Inv.touched {c c' : LRUCache} {key entry it} {entry' : CacheEntry} (h : c.Inv)
    (hk : c.cache.lookup key = some (entry, it))
    (hcache : c'.cache = c.cache.insert key (entry', c.nextNode))
    (hlist : c'.lruList = (c.nextNode, key) :: removeNode c.lruList it)
    (hnext : c'.nextNode = c.nextNode + 1)
    (hsize : total (fun e : CacheEntry => e.data.length) (c.cache.erase key) + entry'.data.length < 2 ^ 64 →
      c'.currentSize =
        total (fun e : CacheEntry => e.data.length) (c.cache.erase key) + entry'.data.length)
    (hunder : c'.underflowed = false) (hb : c'.storedSize < 2 ^ 64) : c'.Inv := by
  have hsum : c'.storedSize =
      total (fun e : CacheEntry => e.data.length) (c.cache.erase key) + entry'.data.length := by
    have hr := total_replace (fun e : CacheEntry => e.data.length) entry' c.nextNode hk
    have he := total_erase (fun e : CacheEntry => e.data.length) hk
    rw [storedSize, hcache]
    omega
  refine ⟨?_, ?_, hunder, hb⟩
  · rw [hlist, hcache, hnext]
    exact h.indexed.touch hk
  · rw [hsum]
    exact hsize (hsum ▸ hb)

theorem Inv.get {c : LRUCache} (h : c.Inv) (key : Bytes) (now accessed : Int) :
    (c.get key now accessed).1.Inv := by
  unfold LRUCache.get
  split
  · exact ⟨h.indexed, h.size, h.noUnderflow, h.bounded⟩
  · next entry it hk =>
    split
    · exact h.removed hk rfl rfl rfl rfl rfl
    · -- the entry keeps its data, and so the sum its value
      have he := total_erase (fun e : CacheEntry => e.data.length) hk
      refine h.touched hk rfl rfl rfl (fun _ => h.size.trans he.symm) h.noUnderflow ?_
      refine lt_of_le_of_lt ?_ h.bounded
      have hr := total_replace (fun e : CacheEntry => e.data.length)
        { entry with lastAccessed := accessed, accessCount := addSize entry.accessCount 1 } c.nextNode hk
      exact (Nat.add_right_cancel hr).le

theorem Inv.remove {c : LRUCache} (h : c.Inv) (key : Bytes) : (c.remove key).Inv := by
  unfold LRUCache.remove
  split
  · exact h
  · next entry it hk => exact h.removed hk rfl rfl rfl rfl rfl

theorem Inv.clear {c : LRUCache} (h : c.Inv) : c.clear.Inv :=
  ⟨Indexed.empty _, rfl, h.noUnderflow, Nat.two_pow_pos 64⟩

theorem Inv.evictExpired {c : LRUCache} (h : c.Inv) (now : Bytes → Int) : (c.evictExpired now).Inv :=
  evictExpired_keeps now h fun _ key hc => hc.remove key

theorem Inv.putNew {c : LRUCache} {key data contentType : Bytes} {now : Int} (h : c.Inv)
    (hk : key ∉ c.cache) : ∃ c', c.putNew key data contentType now = some c' ∧
      (c'.storedSize < 2 ^ 64 → c'.Inv) := by
  obtain ⟨c₁, h₁, -, ⟨hi, hk₁⟩, -⟩ := Linked.evictions h.indexed data.length
    (I := fun c => c.Inv ∧ key ∉ c.cache) ⟨h, hk⟩ fun c p _ hc _ _ =>
      ⟨hc.1.remove p.2, fun hm => hc.2 (mem_of_mem_remove hm)⟩
  simp only [LRUCache.putNew, h₁, Option.bind_eq_bind, Option.bind_some, Option.pure_def]
  split
  · exact ⟨c₁, rfl, fun _ => hi⟩
  · refine ⟨_, rfl, fun hb => ?_⟩
    have hsum : ∀ entry : CacheEntry, entry.data = data → ∀ it,
        total (fun e : CacheEntry => e.data.length) (c₁.cache.insert key (entry, it)) =
          c₁.storedSize + data.length := by
      intro entry he it
      rw [total_insert _ hk₁, he]
      rfl
    simp only [storedSize, LRUCache.add, pushFront] at hb
    rw [hsum _ rfl] at hb
    refine ⟨hi.indexed.insert hk₁, ?_, hi.noUnderflow, ?_⟩
    · simp only [LRUCache.add, pushFront, storedSize]
      rw [hsum _ rfl, hi.size, addSize_eq hb]
    · simp only [storedSize, LRUCache.add, pushFront]
      rwa [hsum _ rfl]

theorem Inv.put {c : LRUCache} {key data contentType : Bytes} {now : Int} (h : c.Inv) :
    ∃ c', c.put key data contentType now = some c' ∧ (c'.storedSize < 2 ^ 64 → c'.Inv) := by
  unfold LRUCache.put
  split
  · exact ⟨c, rfl, fun _ => h⟩
  split
  · next entry it hk =>
    obtain ⟨h₁, h₂⟩ := h.subtract hk
    refine ⟨_, rfl, fun hb => h.touched hk rfl rfl rfl (fun hlt => ?_) h₂ hb⟩
    show addSize (c.subtract entry.data.length).currentSize data.length = _
    rw [h₁, addSize_eq hlt]
  · next hk => exact h.putNew (AList.lookup_eq_none.mp hk)

/-- Every call returns, and keeps the invariant where the sum of the sizes
remains a `size_t`. -/
theorem Inv.exec {c : LRUCache} (h : c.Inv) (op : CacheOp) :
    ∃ c', c.exec op = some c' ∧ (c'.storedSize < 2 ^ 64 → c'.Inv) := by
  cases op with
  | get key now accessed => exact ⟨_, rfl, fun _ => h.get key now accessed⟩
  | put key data contentType now => exact h.put
  | remove key => exact ⟨_, rfl, fun _ => h.remove key⟩
  | clear => exact ⟨_, rfl, fun _ => h.clear⟩
  | evictExpired now => exact ⟨_, rfl, fun _ => h.evictExpired now⟩
  | setMaxSize maxSizeMb =>
    exact ⟨_, rfl, fun _ => ⟨h.indexed, h.size, h.noUnderflow, h.bounded⟩⟩
  | setTtl ttlSeconds => exact ⟨_, rfl, fun _ => ⟨h.indexed, h.size, h.noUnderflow, h.bounded⟩⟩

/-! ## Runs -/

/-- The call leaves stored sizes that add up to a `size_t`. -/
def fits (c : LRUCache) (op : CacheOp) : Bool := (c.exec op).all fun c' => c'.storedSize < 2 ^ 64

theorem fits_iff {c c' : LRUCache} {op : CacheOp} (hs : c.exec op = some c') :
    c.fits op = true ↔ c'.storedSize < 2 ^ 64 := by
  rw [fits, hs, Option.all_some, decide_eq_true_eq]

theorem inv {c : LRUCache} (h : system.ReachableBy (fun c op => c.fits op = true) c) : c.Inv := by
  refine h.invariant (I := Inv) ?_ ?_
  · intro c hinit
    obtain ⟨maxSizeMb, ttlSeconds, rfl⟩ := hinit
    exact ⟨Indexed.empty _, rfl, rfl, Nat.two_pow_pos 64⟩
  intro c op c' _ hi hfits hs
  have hs : c.exec op = some c' := hs
  obtain ⟨c₁, h₁, hkeep⟩ := hi.exec op
  obtain rfl : c₁ = c' := Option.some.inj (h₁.symm.trans hs)
  exact hkeep ((fits_iff hs).mp hfits)

/-- **The representation invariant**: in every state reached from the
constructor by calls that leave stored sizes adding up to a `size_t`, the
list, the map, the iterators and the counter agree, no subtraction has
wrapped, and every call returns. -/
theorem represents {c : LRUCache} (h : system.ReachableBy (fun c op => c.fits op = true) c) :
    c.Represents ∧ ∀ op, (c.exec op).isSome = true := by
  refine ⟨(inv h).toRepresents, fun op => ?_⟩
  obtain ⟨c', hc', -⟩ := (inv h).exec op
  rw [hc']
  rfl

/-- Two files are cached and the first is read; then both have to go. -/
def filled : List CacheOp :=
  [.put (bytes "a") [1] [] 0, .put (bytes "b") [2, 3] [] 1, .get (bytes "a") 2 2, .setMaxSize 0,
    .put (bytes "c") [4] [] 3, .setMaxSize 1, .put (bytes "c") [4] [] 4]

theorem represents_filled : ∃ c : LRUCache,
    system.ReachableBy (fun c op => c.fits op = true) c ∧ c.lruList.length = 1 ∧ c.Represents ∧
      ∀ op, (c.exec op).isSome = true := by
  obtain ⟨c, hr, hc⟩ := System.exists_reachableBy (S := system) (s := make 1 300) ⟨1, 300, rfl⟩ fits
    filled (fun c => c.lruList.length = 1) (by decide +kernel)
  exact ⟨c, hr, by simpa using hc, represents hr⟩

end Webserver.LRUCache
