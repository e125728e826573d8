/-
What the operations of the file cache do to its entries: `Puts` says once
what a `put` does; a removal leaves only entries that were there, `get`
changes the use of one, `put` adds one; and a new key keeps the stored sizes
within the limit.
-/
import Webserver.CacheInvariant

namespace Webserver.LRUCache

open Cxx Systems Recency

/-! ## Contents -/

/-- One entry is another but for its use. -/
def SameFile (entry entry' : CacheEntry) : Prop :=
  entry.data = entry'.data ∧ entry.contentType = entry'.contentType ∧ entry.created = entry'.created

/-- Every entry of `c'` is one of `c`, but for its use. -/
def KeptFrom (c' c : LRUCache) : Prop :=
  ∀ key entry it, c'.cache.lookup key = some (entry, it) →
    ∃ entry₀ it₀, c.cache.lookup key = some (entry₀, it₀) ∧ SameFile entry entry₀

theorem KeptFrom.refl (c : LRUCache) : KeptFrom c c :=
  fun _ entry it h => ⟨entry, it, h, rfl, rfl, rfl⟩

theorem KeptFrom.trans {c c' c'' : LRUCache} (h : KeptFrom c'' c') (h' : KeptFrom c' c) :
    KeptFrom c'' c := by
  intro key entry it hk
  obtain ⟨entry₁, it₁, hk₁, hd₁, ht₁, hc₁⟩ := h key entry it hk
  obtain ⟨entry₀, it₀, hk₀, hd₀, ht₀, hc₀⟩ := h' key entry₁ it₁ hk₁
  exact ⟨entry₀, it₀, hk₀, hd₁.trans hd₀, ht₁.trans ht₀, hc₁.trans hc₀⟩

/-- Every entry of `c'` is one of `c`, with its use and its node. -/
def Within (c' c : LRUCache) : Prop :=
  ∀ key v, c'.cache.lookup key = some v → c.cache.lookup key = some v

theorem Within.trans {c c' c'' : LRUCache} (h : Within c'' c') (h' : Within c' c) : Within c'' c :=
  fun key v hv => h' key v (h key v hv)

theorem Within.of_erase {c c' : LRUCache} {key : Bytes} (h : c'.cache = c.cache.erase key) :
    Within c' c := by
  intro k v hk
  rw [h] at hk
  by_cases hkey : k = key
  · rw [hkey, AList.lookup_erase] at hk
    cases hk
  · rwa [AList.lookup_erase_ne hkey] at hk

theorem Within.not_mem {c c' : LRUCache} {key : Bytes} (h : Within c' c) (hk : key ∉ c.cache) :
    key ∉ c'.cache := by
  rw [← AList.lookup_eq_none] at hk ⊢
  cases hv : c'.cache.lookup key with
  | none => rfl
  | some v => exact nomatch hk.symm.trans (h key v hv)

theorem Within.keptFrom {c c' : LRUCache} (h : Within c' c) : KeptFrom c' c :=
  fun key entry it hk => ⟨entry, it, h key _ hk, rfl, rfl, rfl⟩

theorem remove_within (c : LRUCache) (key : Bytes) : Within (c.remove key) c := by
  unfold LRUCache.remove
  split
  · exact fun _ _ => id
  · exact .of_erase rfl

theorem lookup_remove (c : LRUCache) (key : Bytes) : (c.remove key).cache.lookup key = none := by
  unfold LRUCache.remove
  split
  · next hk => exact hk
  · exact AList.lookup_erase _ _

theorem evictExpired_within (c : LRUCache) (now : Bytes → Int) : Within (c.evictExpired now) c :=
  evictExpired_keeps (I := fun c' => Within c' c) now (fun _ _ => id) fun c' key h =>
    (remove_within c' key).trans h

/-- What `get` finds is stored, and not expired. -/
theorem get_eq_some {c : LRUCache} {key : Bytes} {now accessed : Int} {entry : CacheEntry}
    (h : (c.get key now accessed).2 = some entry) : ∃ entry₀ it, c.cache.lookup key = some (entry₀, it) ∧
      SameFile entry entry₀ ∧ c.isExpired entry₀ now = false := by
  unfold LRUCache.get at h
  split at h
  · cases h
  · next entry₀ it hk =>
    split at h
    · cases h
    · next hexp =>
      obtain rfl := Option.some.inj h
      exact ⟨entry₀, it, hk, ⟨rfl, rfl, rfl⟩, by simpa using hexp⟩

/-- A `get` that finds the entry counts one more use of it. -/
theorem get_accessCount {c : LRUCache} {key : Bytes} {now accessed : Int} {entry entry₀ : CacheEntry} {it}
    (h : (c.get key now accessed).2 = some entry) (hk : c.cache.lookup key = some (entry₀, it)) :
    entry.accessCount = addSize entry₀.accessCount 1 := by
  simp only [LRUCache.get, hk] at h
  split at h
  · cases h
  · exact Option.some.inj h ▸ rfl

/-- What `get` returns is stored then. -/
theorem lookup_get (c : LRUCache) (key : Bytes) (now accessed : Int) :
    (c.get key now accessed).1.cache.lookup key =
      (c.get key now accessed).2.map fun entry => (entry, c.nextNode) := by
  unfold LRUCache.get
  split
  · next hk => exact hk
  · split
    · exact AList.lookup_erase _ _
    · exact AList.lookup_insert _

theorem lookup_get_of_ne (c : LRUCache) {key k : Bytes} (now accessed : Int) (hne : k ≠ key) :
    (c.get key now accessed).1.cache.lookup k = c.cache.lookup k := by
  unfold LRUCache.get
  split
  · rfl
  · split
    · exact AList.lookup_erase_ne hne
    · exact AList.lookup_insert_ne hne

theorem get_keptFrom (c : LRUCache) (key : Bytes) (now accessed : Int) :
    KeptFrom (c.get key now accessed).1 c := by
  unfold LRUCache.get
  split
  · exact .refl c
  · next entry₀ it hk =>
    split
    · exact (Within.of_erase rfl).keptFrom
    · intro k entry it' hk'
      simp only [pushFront] at hk'
      by_cases hkey : k = key
      · rw [hkey, AList.lookup_insert, Option.some.injEq, Prod.mk.injEq] at hk'
        exact ⟨entry₀, it, hkey ▸ hk, hk'.1 ▸ ⟨rfl, rfl, rfl⟩⟩
      · rw [AList.lookup_insert_ne hkey] at hk'
        exact ⟨entry, it', hk', rfl, rfl, rfl⟩

/-- After a miss the key is not in the cache. -/
theorem not_mem_of_get {c : LRUCache} {key : Bytes} {now accessed : Int}
    (h : (c.get key now accessed).2 = none) : key ∉ (c.get key now accessed).1.cache := by
  unfold LRUCache.get at h ⊢
  split at h
  · next hk => exact AList.lookup_eq_none.mp hk
  · split at h
    · next hexp =>
      rw [if_pos hexp]
      exact fun hmem => (AList.mem_erase.mp hmem).1 rfl
    · cases h

/-- The limits are not touched. -/
def SameLimits (c' c : LRUCache) : Prop :=
  c'.maxSizeBytes = c.maxSizeBytes ∧ c'.ttlSeconds = c.ttlSeconds

theorem get_sameLimits (c : LRUCache) (key : Bytes) (now accessed : Int) :
    SameLimits (c.get key now accessed).1 c := by
  unfold LRUCache.get
  split
  · exact ⟨rfl, rfl⟩
  · split <;> exact ⟨rfl, rfl⟩

/-- The two counters are not touched. -/
def SameCounters (c' c : LRUCache) : Prop := c'.cacheHits = c.cacheHits ∧ c'.cacheMisses = c.cacheMisses

theorem get_counters (c : LRUCache) (key : Bytes) (now accessed : Int) :
    (c.get key now accessed).1.cacheHits =
        (if (c.get key now accessed).2.isSome then addSize c.cacheHits 1 else c.cacheHits) ∧
      (c.get key now accessed).1.cacheMisses =
        (if (c.get key now accessed).2.isSome then c.cacheMisses else addSize c.cacheMisses 1) := by
  unfold LRUCache.get
  split
  · exact ⟨rfl, rfl⟩
  · split <;> exact ⟨rfl, rfl⟩

/-- Neither the limits nor the counters are touched. -/
structure SameRest (c' c : LRUCache) : Prop where
  limits : SameLimits c' c
  counters : SameCounters c' c

theorem SameRest.refl (c : LRUCache) : SameRest c c := ⟨⟨rfl, rfl⟩, ⟨rfl, rfl⟩⟩

theorem SameRest.trans {c c' c'' : LRUCache} (h : SameRest c'' c') (h' : SameRest c' c) :
    SameRest c'' c :=
  ⟨⟨h.limits.1.trans h'.limits.1, h.limits.2.trans h'.limits.2⟩,
    ⟨h.counters.1.trans h'.counters.1, h.counters.2.trans h'.counters.2⟩⟩

theorem remove_rest (c : LRUCache) (key : Bytes) : SameRest (c.remove key) c := by
  unfold LRUCache.remove
  split <;> exact ⟨⟨rfl, rfl⟩, ⟨rfl, rfl⟩⟩

theorem evictExpired_rest (c : LRUCache) (now : Bytes → Int) : SameRest (c.evictExpired now) c :=
  evictExpired_keeps (I := fun c' => SameRest c' c) now (.refl c) fun c' key h =>
    (remove_rest c' key).trans h

theorem evictLru_within (c : LRUCache) : Within c.evictLru c ∧ SameRest c.evictLru c := by
  unfold evictLru
  split
  · exact ⟨fun _ _ => id, .refl c⟩
  · dsimp only
    split
    · exact ⟨fun _ _ => id, ⟨rfl, rfl⟩, ⟨rfl, rfl⟩⟩
    · exact ⟨.of_erase rfl, ⟨rfl, rfl⟩, ⟨rfl, rfl⟩⟩

theorem evictWhile_within {c c' : LRUCache} {entrySize fuel : Nat}
    (h : evictWhile entrySize fuel c = some c') : Within c' c ∧ SameRest c' c :=
  (evictWhile_keeps (I := fun c' => Within c' c ∧ SameRest c' c) (fun c₁ hc₁ _ => by
    obtain ⟨hwithin, hrest⟩ := evictLru_within c₁
    exact ⟨hwithin.trans hc₁.1, hrest.trans hc₁.2⟩) ⟨fun _ _ => id, .refl c⟩ h).1

/-- `CacheEntry(data, content_type)`, constructed at `now`. -/
def newEntry (data contentType : Bytes) (now : Int) : CacheEntry :=
  { data, contentType, created := now, lastAccessed := now, accessCount := 1 }

/-- What a `put` that returns has done. -/
inductive Puts (c : LRUCache) (key data contentType : Bytes) (now : Int) : LRUCache → Prop
  | ignored (h : key = [] ∨ data = []) : Puts c key data contentType now c
  | replaced (entry it) (hkey : key ≠ []) (hdata : data ≠ []) (hk : c.cache.lookup key = some (entry, it)) :
      Puts c key data contentType now
        { (((c.subtract entry.data.length).add data.length).eraseNode it).pushFront key with
          cache := c.cache.insert key (newEntry data contentType now, c.nextNode) }
  | tooLarge (c₁) (hkey : key ≠ []) (hdata : data ≠ []) (hk : key ∉ c.cache)
      (h₁ : evictWhile data.length (c.lruList.length + 1) c = some c₁)
      (hsize : c.maxSizeBytes < data.length) : Puts c key data contentType now c₁
  | added (c₁) (hkey : key ≠ []) (hdata : data ≠ []) (hk : key ∉ c.cache)
      (h₁ : evictWhile data.length (c.lruList.length + 1) c = some c₁)
      (hsize : data.length ≤ c.maxSizeBytes) :
      Puts c key data contentType now
        ({ c₁.pushFront key with
           cache := c₁.cache.insert key (newEntry data contentType now, c₁.nextNode) }.add data.length)

theorem put_puts {c c' : LRUCache} {key data contentType : Bytes} {now : Int}
    (h : c.put key data contentType now = some c') : Puts c key data contentType now c' := by
  unfold LRUCache.put at h
  split at h
  · next hargs => exact Option.some.inj h ▸ .ignored hargs
  next hargs =>
  obtain ⟨hkey, hdata⟩ := not_or.mp hargs
  split at h
  · next entry it hk => exact Option.some.inj h ▸ .replaced entry it hkey hdata hk
  · next hk =>
    have hk := AList.lookup_eq_none.mp hk
    simp only [putNew, Option.bind_eq_bind, Option.bind_eq_some_iff, Option.pure_def] at h
    obtain ⟨c₁, h₁, h⟩ := h
    have hmax : c₁.maxSizeBytes = c.maxSizeBytes := (evictWhile_within h₁).2.limits.1
    split at h
    · next hsize => exact Option.some.inj h ▸ .tooLarge c₁ hkey hdata hk h₁ (hmax ▸ hsize)
    · next hsize => exact Option.some.inj h ▸ .added c₁ hkey hdata hk h₁ (by omega)

/-- A new entry: what `put` stores. -/
def IsNew (entry : CacheEntry) (data contentType : Bytes) (now : Int) : Prop :=
  entry.data = data ∧ entry.contentType = contentType ∧ entry.created = now

theorem put_rest {c c' : LRUCache} {key data contentType : Bytes} {now : Int}
    (h : c.put key data contentType now = some c') : SameRest c' c := by
  cases put_puts h with
  | ignored | replaced => exact ⟨⟨rfl, rfl⟩, ⟨rfl, rfl⟩⟩
  | tooLarge c₁ _ _ _ h₁ => exact (evictWhile_within h₁).2
  | added c₁ _ _ _ h₁ =>
    obtain ⟨hlimits, hcounters⟩ := (evictWhile_within h₁).2
    exact ⟨hlimits, hcounters⟩

/-- After `put` the key has the new entry, if it has one at all and the
arguments are not empty; every other entry was there before. -/
theorem put_lookup {c c' : LRUCache} {key data contentType : Bytes} {now : Int}
    (h : c.put key data contentType now = some c') :
    (∀ k v, k ≠ key → c'.cache.lookup k = some v → c.cache.lookup k = some v) ∧
      (key = [] ∨ data = [] → c' = c) ∧
      (key ≠ [] → data ≠ [] → ∀ v, c'.cache.lookup key = some v → v.1 = newEntry data contentType now) := by
  have inserted : ∀ (c₁ : LRUCache) {it : Nat} {k v}, k ≠ key → Within c₁ c →
      (c₁.cache.insert key (newEntry data contentType now, it)).lookup k = some v →
      c.cache.lookup k = some v := by
    intro c₁ it k v hne hwithin hv
    rw [AList.lookup_insert_ne hne] at hv
    exact hwithin k v hv
  have found : ∀ (c₁ : LRUCache) {it : Nat} {v},
      (c₁.cache.insert key (newEntry data contentType now, it)).lookup key = some v →
      v.1 = newEntry data contentType now := by
    intro c₁ it v hv
    rw [AList.lookup_insert] at hv
    rw [← Option.some.inj hv]
  cases put_puts h with
  | ignored hargs =>
    exact ⟨fun _ _ _ => id, fun _ => rfl, fun hkey hdata => absurd hargs (not_or.mpr ⟨hkey, hdata⟩)⟩
  | replaced entry it hkey hdata hk =>
    exact ⟨fun k v hne => inserted c hne fun _ _ => id,
      fun hargs => absurd hargs (not_or.mpr ⟨hkey, hdata⟩), fun _ _ v => found c⟩
  | tooLarge c₁ hkey hdata hk h₁ hsize =>
    have hwithin := (evictWhile_within h₁).1
    refine ⟨fun k v _ => hwithin k v, fun hargs => absurd hargs (not_or.mpr ⟨hkey, hdata⟩), fun _ _ v hv => ?_⟩
    exact nomatch (AList.lookup_eq_none.mpr (hwithin.not_mem hk)).symm.trans hv
  | added c₁ hkey hdata hk h₁ hsize =>
    exact ⟨fun k v hne => inserted c₁ hne (evictWhile_within h₁).1,
      fun hargs => absurd hargs (not_or.mpr ⟨hkey, hdata⟩), fun _ _ v => found c₁⟩

/-- After `put` an entry is the new one or an old one. -/
theorem put_contents {c c' : LRUCache} {key data contentType : Bytes} {now : Int}
    (h : c.put key data contentType now = some c') : SameLimits c' c ∧
      ∀ k entry it, c'.cache.lookup k = some (entry, it) → (k = key ∧ IsNew entry data contentType now) ∨
        ∃ entry₀ it₀, c.cache.lookup k = some (entry₀, it₀) ∧ SameFile entry entry₀ := by
  obtain ⟨hothers, hignored, hnew⟩ := put_lookup h
  refine ⟨(put_rest h).limits, fun k entry it hk => ?_⟩
  by_cases hargs : key = [] ∨ data = []
  · exact .inr ⟨entry, it, hignored hargs ▸ hk, rfl, rfl, rfl⟩
  by_cases hkey : k = key
  · subst hkey
    obtain ⟨hne, hdata⟩ := not_or.mp hargs
    have he : entry = newEntry data contentType now := hnew hne hdata _ hk
    exact .inl ⟨rfl, he ▸ ⟨rfl, rfl, rfl⟩⟩
  · exact .inr ⟨entry, it, hothers k _ hkey hk, rfl, rfl, rfl⟩

/-! ## The limit -/

theorem remove_storedSize_le (c : LRUCache) (key : Bytes) : (c.remove key).storedSize ≤ c.storedSize := by
  unfold LRUCache.remove
  split
  · exact le_rfl
  · next entry it hk =>
    have := total_erase (fun e : CacheEntry => e.data.length) hk
    simp only [storedSize, subtract, eraseNode]
    omega

theorem evictExpired_storedSize_le (c : LRUCache) (now : Bytes → Int) :
    (c.evictExpired now).storedSize ≤ c.storedSize :=
  evictExpired_keeps (I := fun c' => c'.storedSize ≤ c.storedSize) now le_rfl fun c' key h =>
    (remove_storedSize_le c' key).trans h

/-- The stored sizes after the evictions of a `put`. -/
theorem Inv.evictWhile {c c' : LRUCache} {entrySize : Nat} (h : c.Inv)
    (hc' : LRUCache.evictWhile entrySize (c.lruList.length + 1) c = some c') :
    c'.Inv ∧ c'.storedSize ≤ c.storedSize ∧
      (c'.storedSize + entrySize < 2 ^ 64 → c'.storedSize + entrySize ≤ c'.maxSizeBytes ∨ c'.storedSize = 0) := by
  obtain ⟨c₁, h₁, -, ⟨hi, hle⟩, hdone⟩ := Linked.evictions h.indexed entrySize
    (I := fun c₁ => c₁.Inv ∧ c₁.storedSize ≤ c.storedSize) ⟨h, le_rfl⟩ fun c₁ p _ hc _ _ =>
      ⟨hc.1.remove p.2, (remove_storedSize_le c₁ p.2).trans hc.2⟩
  obtain rfl : c₁ = c' := Option.some.inj (h₁.symm.trans hc')
  refine ⟨hi, hle, fun hwrap => ?_⟩
  have hadd : addSize c₁.currentSize entrySize = c₁.storedSize + entrySize := by
    rw [hi.size]
    exact addSize_eq hwrap
  simp only [mustEvict, hadd, Bool.and_eq_false_iff, decide_eq_false_iff_not, Bool.not_eq_false',
    List.isEmpty_iff] at hdone
  rcases hdone with hdone | hempty
  · exact .inl (by omega)
  · exact .inr (by simp [storedSize, total, hempty])

theorem storedSize_added {c : LRUCache} {key data contentType : Bytes} {now : Int} (hk : key ∉ c.cache) :
    ({ c.pushFront key with
       cache := c.cache.insert key (newEntry data contentType now, c.nextNode) }.add data.length).storedSize =
      c.storedSize + data.length := total_insert _ hk

theorem storedSize_replaced {c : LRUCache} {key data contentType : Bytes} {now : Int} {entry it}
    (hk : c.cache.lookup key = some (entry, it)) :
    ({ (((c.subtract entry.data.length).add data.length).eraseNode it).pushFront key with
       cache := c.cache.insert key (newEntry data contentType now, c.nextNode) }).storedSize +
        entry.data.length = c.storedSize + data.length := total_replace _ _ _ hk

/-- A `put` adds at most the size of its data. -/
theorem Inv.put_storedSize {c c' : LRUCache} {key data contentType : Bytes} {now : Int} (h : c.Inv)
    (hput : c.put key data contentType now = some c') : c'.storedSize ≤ c.storedSize + data.length := by
  cases put_puts hput with
  | ignored => exact Nat.le_add_right _ _
  | replaced entry it _ _ hk => exact Nat.le.intro (storedSize_replaced hk)
  | tooLarge c₁ _ _ _ h₁ => exact (h.evictWhile h₁).2.1.trans (Nat.le_add_right _ _)
  | added c₁ _ _ hk h₁ =>
    rw [storedSize_added ((evictWhile_within h₁).1.not_mem hk)]
    exact Nat.add_le_add_right (h.evictWhile h₁).2.1 _

/-- A new key keeps the stored sizes within the limit, if their sum is a
`size_t` then. -/
theorem Inv.putNew_le {c c' : LRUCache} {key data contentType : Bytes} {now : Int} (h : c.Inv)
    (hle : c.storedSize ≤ c.maxSizeBytes) (hk : key ∉ c.cache) (hb : c'.storedSize < 2 ^ 64)
    (hput : c.put key data contentType now = some c') : c'.storedSize ≤ c.maxSizeBytes := by
  cases put_puts hput with
  | ignored => exact hle
  | replaced entry it _ _ hk' => exact nomatch (AList.lookup_eq_none.mpr hk).symm.trans hk'
  | tooLarge c₁ _ _ _ h₁ => exact (h.evictWhile h₁).2.1.trans hle
  | added c₁ _ _ _ h₁ hsize =>
    obtain ⟨-, -, hfits⟩ := h.evictWhile h₁
    have hmax : c₁.maxSizeBytes = c.maxSizeBytes := (evictWhile_within h₁).2.limits.1
    rw [storedSize_added ((evictWhile_within h₁).1.not_mem hk)] at hb ⊢
    rcases hfits hb with hfits | hzero
    · omega
    · omega

/-- A new key keeps the stored sizes within the limit, as long as the sum in
`put`'s condition does not wrap. -/
theorem Inv.put_le {c c' : LRUCache} {key data contentType : Bytes} {now : Int} (h : c.Inv)
    (hle : c.storedSize ≤ c.maxSizeBytes) (hwrap : c.maxSizeBytes + data.length < 2 ^ 64)
    (hk : key ∉ c.cache) (hput : c.put key data contentType now = some c') :
    c'.Inv ∧ c'.storedSize ≤ c'.maxSizeBytes := by
  have hsize := h.put_storedSize hput
  have hb : c'.storedSize < 2 ^ 64 := by omega
  have hreturns : ∃ c'', c.put key data contentType now = some c'' ∧ (c''.storedSize < 2 ^ 64 → c''.Inv) := h.put
  obtain ⟨c'', h'', hkeep⟩ := hreturns
  obtain rfl : c'' = c' := Option.some.inj (h''.symm.trans hput)
  exact ⟨hkeep hb, (put_rest hput).limits.1 ▸ h.putNew_le hle hk hb hput⟩

theorem get_storedSize {c : LRUCache} (key : Bytes) (now accessed : Int) :
    (c.get key now accessed).1.storedSize ≤ c.storedSize := by
  unfold LRUCache.get
  split
  · exact le_rfl
  · next entry it hk =>
    have herase := total_erase (fun e : CacheEntry => e.data.length) hk
    split
    · simp only [storedSize, subtract, eraseNode]
      omega
    · have hreplace := total_replace (fun e : CacheEntry => e.data.length)
        { entry with lastAccessed := accessed, accessCount := addSize entry.accessCount 1 } c.nextNode hk
      exact (Nat.add_right_cancel hreplace).le

theorem megabytes_le (n : Nat) : megabytes n ≤ 2 ^ 64 - 2 ^ 20 := by
  unfold megabytes
  omega

/-! ## Refused calls of `put` -/

/-- `put` stores nothing: the key or the data are empty, or the key is new
and its data are larger than the cache. -/
def refuses (c : LRUCache) (key data : Bytes) : Bool :=
  key = [] || data = [] || ((c.cache.lookup key).isNone && c.maxSizeBytes < data.length)

/-- The same entries in the same order, and the same numbers. -/
structure SameState (c' c : LRUCache) : Prop where
  entries : c'.cache = c.cache
  order : c'.lruList.map (·.2) = c.lruList.map (·.2)
  size : c'.currentSize = c.currentSize
  counters : SameCounters c' c

theorem SameState.refl (c : LRUCache) : SameState c c := ⟨rfl, rfl, rfl, rfl, rfl⟩

theorem evictLru_length (c : LRUCache) : c.evictLru.lruList.length = c.lruList.length - 1 := by
  unfold evictLru
  split
  · next h => rw [List.getLast?_eq_none_iff.mp h]; rfl
  · dsimp only
    split <;> exact List.length_dropLast

theorem evictWhile_length {c c' : LRUCache} {entrySize fuel : Nat}
    (h : evictWhile entrySize fuel c = some c') : c'.lruList.length ≤ c.lruList.length :=
  (evictWhile_keeps (I := fun c' => c'.lruList.length ≤ c.lruList.length) (fun c₁ hle _ => by
    rw [evictLru_length]
    omega) (Nat.le_refl _) h).1

/-- A loop that evicts nothing, and only such a loop, leaves the entries. -/
theorem Linked.sameState_evictWhile {c c' : LRUCache} {entrySize fuel : Nat} (h : c.Linked)
    (hloop : LRUCache.evictWhile entrySize fuel c = some c') :
    SameState c' c ↔ c.cache.entries = [] ∨ addSize c.currentSize entrySize ≤ c.maxSizeBytes := by
  have hcond : c.mustEvict entrySize = false ↔
      c.cache.entries = [] ∨ addSize c.currentSize entrySize ≤ c.maxSizeBytes := by
    simp only [mustEvict, Bool.and_eq_false_iff, decide_eq_false_iff_not, Nat.not_lt,
      Bool.not_eq_false', List.isEmpty_iff, or_comm]
  rw [← hcond]
  cases fuel with
  | zero => cases hloop
  | succ fuel =>
    simp only [LRUCache.evictWhile] at hloop
    split at hloop
    · -- the first turn removes the last node
      next he =>
      obtain ⟨p, hp⟩ := h.getLast_of_mustEvict he
      have hlen := evictWhile_length hloop
      have hpos := List.length_pos_of_mem (List.mem_of_getLast? hp)
      rw [evictLru_length] at hlen
      refine ⟨fun hsame => ?_, fun hnot => absurd he (by simp [hnot])⟩
      have := congrArg List.length hsame.order
      rw [List.length_map, List.length_map] at this
      omega
    · next he =>
      rw [← Option.some.inj hloop]
      exact ⟨fun _ => by simpa using he, fun _ => .refl c⟩

/-- **A refused `put` changes nothing** exactly where its loop has nothing to
evict: the cache is empty, or the sizes wrap around to a sum that fits. -/
theorem refused_put_iff {c : LRUCache} (h : system.Reachable c) {key data : Bytes}
    (hrefuses : c.refuses key data = true) (contentType : Bytes) (now : Int) :
    ∃ c', c.put key data contentType now = some c' ∧ (SameState c' c ↔ key = [] ∨ data = [] ∨
      c.cache.entries = [] ∨ addSize c.currentSize data.length ≤ c.maxSizeBytes) := by
  have hl := linked h
  obtain ⟨c', hput, -⟩ := hl.put key data contentType now
  refine ⟨c', hput, ?_⟩
  simp only [refuses, Bool.or_eq_true, decide_eq_true_eq, Bool.and_eq_true, Option.isNone_iff_eq_none]
    at hrefuses
  cases put_puts hput with
  | ignored hempty => exact ⟨fun _ => hempty.imp_right .inl, fun _ => .refl c⟩
  | replaced entry it hkey hdata hk => simp [hkey, hdata, hk] at hrefuses
  | added c₁ hkey hdata hk h₁ hsize =>
    have := (hrefuses.resolve_left (by simp [hkey, hdata])).2
    omega
  | tooLarge c₁ hkey hdata hk h₁ hsize =>
    rw [hl.sameState_evictWhile h₁]
    simp [hkey, hdata]

/-- A page is stored and removed; the next is larger than the cache, and there
is nothing to evict for it. -/
theorem refused_put_iff_empty : ∃ c : LRUCache, ∃ data c', system.Reachable c ∧ data.length = 2 ^ 20 + 1 ∧
    c.maxSizeBytes = 2 ^ 20 ∧ c.put (bytes "b") data [] 1 = some c' ∧ SameState c' c := by
  obtain ⟨c, hr, hc⟩ := System.exists_reachable (S := system) (s := make 1 300) ⟨1, 300, rfl⟩
    [.put (bytes "a") [1] [] 0, .remove (bytes "a")] (fun c => decide (c.maxSizeBytes = 2 ^ 20) &&
      (c.cache.lookup (bytes "b")).isNone && c.cache.entries.isEmpty) (by decide +kernel)
  simp only [Bool.and_eq_true, decide_eq_true_eq, List.isEmpty_iff] at hc
  obtain ⟨⟨hmax, hnew⟩, hentries⟩ := hc
  generalize hdata : List.replicate (2 ^ 20 + 1) (0 : UInt8) = data
  have hlength : data.length = 2 ^ 20 + 1 := by rw [← hdata, List.length_replicate]
  have hrefuses : c.refuses (bytes "b") data = true := by simp [refuses, hnew, hmax, hlength]
  obtain ⟨c', hput, hiff⟩ := refused_put_iff hr hrefuses [] 1
  exact ⟨c, data, c', hr, hlength, hmax, hput, hiff.mpr (.inr (.inr (.inl hentries)))⟩

/-- One page is stored; the next is larger than the cache, and has evicted
the first when it is refused. -/
theorem not_refused_put : ¬ ∀ c : LRUCache, system.Reachable c → ∀ key data contentType now c',
    c.refuses key data = true → c.put key data contentType now = some c' → SameState c' c := by
  intro h
  obtain ⟨c, hr, hc⟩ := System.exists_reachable (S := system) (s := make 1 300) ⟨1, 300, rfl⟩
    [.put (bytes "a") [1] [] 0] (fun c => c.currentSize = 1 && c.maxSizeBytes = 2 ^ 20 &&
      (c.cache.lookup (bytes "b")).isNone && !c.cache.entries.isEmpty) (by decide +kernel)
  simp only [Bool.and_eq_true, decide_eq_true_eq, Bool.not_eq_true', List.isEmpty_eq_false_iff] at hc
  obtain ⟨⟨⟨hsize, hmax⟩, hnew⟩, hentries⟩ := hc
  generalize hdata : List.replicate (2 ^ 20 + 1) (0 : UInt8) = data
  have hlength : data.length = 2 ^ 20 + 1 := by rw [← hdata, List.length_replicate]
  have hrefuses : c.refuses (bytes "b") data = true := by simp [refuses, hnew, hmax, hlength]
  have hl := linked hr
  obtain ⟨c', hput, -⟩ := hl.put (bytes "b") data [] 1
  have hsame := h c hr (bytes "b") data [] 1 c' hrefuses hput
  have hne : data ≠ [] := List.ne_nil_of_length_pos (by omega)
  cases put_puts hput with
  | ignored hempty => exact hempty.elim (by decide) hne
  | replaced entry it _ _ hk => simp [hk] at hnew
  | added c₁ _ _ _ _ hfits => omega
  | tooLarge c₁ _ _ _ h₁ =>
    rw [hl.sameState_evictWhile h₁, hsize, hmax, hlength] at hsame
    exact hsame.elim hentries (by decide)

end Webserver.LRUCache
