/-
The order of the file cache's list: the stored keys, from the one used last
on. A `put` that needs room takes keys from the end of the list until there is
enough, so that the longest prefix that leaves room for the new key survives.
-/
import Webserver.CacheHistory

namespace Webserver

open Cxx Systems Recency

/-- The key a call looks up or stores. -/
def CacheOp.key : CacheOp → Option Bytes
  | get key _ _ | put key _ _ _ => some key
  | _ => none

/-- The keys of the calls that found or stored an entry, in order. -/
def uses (calls : List CacheCall) : List Bytes :=
  calls.filterMap fun call => if call.2 then call.1.key else none

theorem uses_concat (calls : List CacheCall) (op : CacheOp) (done : Bool) :
    uses (calls ++ [(op, done)]) = uses calls ++ if done then op.key.toList else [] := by
  rw [uses, List.filterMap_append]
  cases done
  · rfl
  · cases hk : op.key <;> simp [uses, hk]

namespace LRUCache

/-- The keys of `lru_list_`, front first. -/
def keys (c : LRUCache) : List Bytes := c.lruList.map (·.2)

/-- The sizes of the entries some keys have, added up. -/
def sizeOf (c : LRUCache) (keys : List Bytes) : Nat :=
  (keys.map fun key => (c.cache.lookup key).elim 0 fun v => v.1.data.length).sum

theorem Linked.sizeOf_keys {c : LRUCache} (h : c.Linked) : c.sizeOf c.keys = c.storedSize := by
  rw [sizeOf, keys, List.map_map]
  exact (total_eq_sum (fun entry : CacheEntry => entry.data.length) h).symm

/-- The keys that are left keep their sizes. -/
theorem Within.sizeOf_eq {c c' : LRUCache} (h : Within c' c) {ks : List Bytes} (hk : ∀ k ∈ ks, k ∈ c'.cache) :
    c'.sizeOf ks = c.sizeOf ks := by
  refine congrArg List.sum (List.map_congr_left fun k hmem => ?_)
  obtain ⟨v, hv⟩ := Option.isSome_iff_exists.mp (AList.lookup_isSome.mpr (hk k hmem))
  rw [hv, h k v hv]

theorem Within.sizeOf_keys {c c' : LRUCache} (h : Within c' c) (hl : c'.Linked) :
    c.sizeOf c'.keys = c'.storedSize :=
  (h.sizeOf_eq fun k hk => (hl.mem_keys k).mp hk).symm.trans hl.sizeOf_keys

/-! ## The order -/

/-- The list is in the order of the uses. -/
def Ordered (c : LRUCache) (uses : List Bytes) : Prop := InOrder c.lruList c.cache uses

theorem Ordered.remove {c : LRUCache} {uses : List Bytes} (h : c.Ordered uses) (hl : c.Linked) (key : Bytes) :
    (c.remove key).Ordered uses := by
  unfold LRUCache.remove
  split
  · exact h
  · next entry it hk => exact InOrder.erase h hl hk

theorem Ordered.get {c : LRUCache} {uses : List Bytes} (h : c.Ordered uses) (hl : c.Linked) (key : Bytes)
    (now accessed : Int) : (c.get key now accessed).1.Ordered
      (uses ++ if (c.get key now accessed).2.isSome then [key] else []) := by
  unfold LRUCache.get
  split
  · rw [if_neg (by simp), List.append_nil]
    exact h
  · next entry it hk =>
    split
    · rw [if_neg (by simp), List.append_nil]
      exact InOrder.erase h hl hk
    · exact InOrder.touch h hl hk

theorem Ordered.evictWhile {c c' : LRUCache} {uses : List Bytes} {entrySize : Nat} (h : c.Ordered uses)
    (hl : c.Linked) (hc' : evictWhile entrySize (c.lruList.length + 1) c = some c') :
    c'.Ordered uses := by
  obtain ⟨c₁, h₁, -, ho, -⟩ := hl.evictions entrySize (I := fun c => c.Ordered uses) h
    fun _ p hl h _ _ => h.remove hl p.2
  exact Option.some.inj (h₁.symm.trans hc') ▸ ho

theorem Ordered.put {c c' : LRUCache} {uses : List Bytes} {key data contentType : Bytes} {now : Int}
    (h : c.Ordered uses) (hl : c.Linked) (hput : c.put key data contentType now = some c') :
    c'.Ordered (uses ++ if c.succeeds (.put key data contentType now) then [key] else []) := by
  cases put_puts hput with
  | ignored hargs =>
    have hfails : c.succeeds (.put key data contentType now) = false := by
      rcases hargs with rfl | rfl <;> simp [succeeds]
    simpa [hfails] using h
  | replaced entry it hkey hdata hk =>
    have hstores : c.succeeds (.put key data contentType now) = true := by
      simp [succeeds, hkey, hdata, hk]
    rw [if_pos hstores]
    exact InOrder.touch h hl hk
  | tooLarge c₁ hkey hdata hk h₁ hsize =>
    have hfails : c.succeeds (.put key data contentType now) = false := by
      simp [succeeds, AList.lookup_eq_none.mpr hk, hsize]
    simpa [hfails] using h.evictWhile hl h₁
  | added c₁ hkey hdata hk h₁ hsize =>
    have hstores : c.succeeds (.put key data contentType now) = true := by
      simp [succeeds, hkey, hdata, hsize]
    rw [if_pos hstores]
    exact InOrder.insert (h.evictWhile hl h₁) ((evictWhile_within h₁).1.not_mem hk)

/-! ## Evictions -/

theorem prefix_dropLast {α : Type*} {l l' : List α} (h : l <+: l') (hne : l ≠ l') : l <+: l'.dropLast := by
  have hlt : l.length < l'.length := lt_of_le_of_ne h.length_le fun he => hne (h.eq_of_length he)
  refine List.prefix_of_prefix_length_le h (List.dropLast_prefix l') ?_
  rw [List.length_dropLast]
  omega

/-- What a `put` has evicted so far: the end of the list, and no key of a
prefix that leaves room for the new entry. -/
structure Evicting (c : LRUCache) (entrySize : Nat) (c' : LRUCache) : Prop where
  inv : c'.Inv
  within : Within c' c
  list : c'.keys <+: c.keys
  room : ∀ ks, ks <+: c.keys → c.sizeOf ks + entrySize ≤ c.maxSizeBytes → ks <+: c'.keys

theorem Evicting.remove {c c' : LRUCache} {entrySize : Nat} {p : Nat × Bytes} (h : Evicting c entrySize c')
    (hmax : c'.maxSizeBytes = c.maxSizeBytes) (he : c'.mustEvict entrySize = true)
    (hp : c'.lruList.getLast? = some p) : Evicting c entrySize (c'.remove p.2) := by
  have hl : c'.Linked := h.inv.indexed
  have hkeys : (c'.remove p.2).keys = c'.keys.dropLast := by
    rw [keys, (hl.evictLru_eq hp).2.2, List.map_dropLast]
    rfl
  refine ⟨h.inv.remove p.2, (remove_within c' p.2).trans h.within, ?_, fun ks hks hroom => ?_⟩
  · rw [hkeys]
    exact (List.dropLast_prefix _).trans h.list
  · -- the list as it is does not leave room
    rw [hkeys]
    refine prefix_dropLast (h.room ks hks hroom) fun hall => ?_
    have hsize : c.sizeOf ks = c'.storedSize := hall ▸ h.within.sizeOf_keys hl
    simp only [mustEvict, Bool.and_eq_true, decide_eq_true_eq] at he
    have hle : addSize c'.currentSize entrySize ≤ c'.currentSize + entrySize := Nat.mod_le _ _
    have hcount := h.inv.size
    omega

/-- The evictions of a `put` that leave a `size_t` for the sum keep the
longest prefix that leaves room. -/
theorem Inv.evictWhile_keys {c c' : LRUCache} {entrySize : Nat} (h : c.Inv)
    (hc' : LRUCache.evictWhile entrySize (c.lruList.length + 1) c = some c')
    (hsize : entrySize ≤ c.maxSizeBytes) (hb : c'.storedSize + entrySize < 2 ^ 64) :
    Within c' c ∧ c'.keys <+: c.keys ∧ c.sizeOf c'.keys + entrySize ≤ c.maxSizeBytes ∧
      ∀ ks, ks <+: c.keys → c.sizeOf ks + entrySize ≤ c.maxSizeBytes → ks <+: c'.keys := by
  have hl : c.Linked := h.indexed
  obtain ⟨c₁, h₁, hl₁, ⟨he, hmax⟩, -⟩ := hl.evictions entrySize
    (I := fun c' => Evicting c entrySize c' ∧ c'.maxSizeBytes = c.maxSizeBytes)
    ⟨⟨h, fun _ _ => id, List.prefix_rfl, fun _ hks _ => hks⟩, rfl⟩ fun c₁ p _ hc hmust hp =>
      ⟨hc.1.remove hc.2 hmust hp, (remove_rest c₁ p.2).limits.1.trans hc.2⟩
  obtain rfl : c₁ = c' := Option.some.inj (h₁.symm.trans hc')
  refine ⟨he.within, he.list, ?_, he.room⟩
  have hsum := he.within.sizeOf_keys hl₁
  obtain ⟨-, -, hfits⟩ := h.evictWhile hc'
  rcases hfits hb with hfits | hzero
  · omega
  · omega

end LRUCache

namespace Recorded

theorem ordered {ok} {s : Recorded} (h : system.ReachableBy ok s) : s.cache.Ordered (uses s.calls) := by
  refine h.invariant (I := fun s => s.cache.Ordered (uses s.calls)) ?_ ?_
  · intro s hinit
    obtain ⟨maxSizeMb, ttlSeconds, rfl⟩ := hinit
    exact InOrder.empty _
  intro s op s' hr hi _ hs
  have hl : s.cache.Linked := linked hr
  obtain ⟨hexec, hcalls⟩ := step_cases hs
  have quiet : s.cache.succeeds op = false → s'.cache.Ordered (uses s.calls) →
      s'.cache.Ordered (uses s.calls ++ if s.cache.succeeds op then op.key.toList else []) := by
    intro hfails ho
    rwa [hfails, if_neg Bool.false_ne_true, List.append_nil]
  rw [hcalls, uses_concat]
  cases op with
  | get key now accessed => exact (Option.some.inj hexec) ▸ hi.get hl key now accessed
  | put key data contentType now => exact hi.put hl hexec
  | remove key => exact quiet rfl ((Option.some.inj hexec) ▸ hi.remove hl key)
  | clear => exact quiet rfl ((Option.some.inj hexec) ▸ InOrder.empty _)
  | evictExpired now =>
    have hboth := LRUCache.evictExpired_keeps (I := fun c => c.Linked ∧ c.Ordered (uses s.calls)) now ⟨hl, hi⟩
      fun c key hc => ⟨hc.1.remove key, hc.2.remove hc.1 key⟩
    exact quiet rfl ((Option.some.inj hexec) ▸ hboth.2)
  | setMaxSize maxSizeMb | setTtl ttlSeconds => exact quiet rfl ((Option.some.inj hexec) ▸ hi)

/-- **The recency order**: the list holds the stored keys, from the one found
or stored last on; and a new key that fits leaves the longest prefix of the
list that leaves room for it, with the entries as they were and the new key
in front. -/
theorem least_recent_evicted {s : Recorded}
    (h : system.ReachableBy (fun s op => s.cache.fits op = true) s) :
    s.cache.keys = (byLastUse (uses s.calls)).filter (· ∈ s.cache.cache) ∧
    (∀ key, key ∈ s.cache.keys ↔ key ∈ s.cache.cache) ∧
    ∀ key data contentType now, key ≠ [] → data ≠ [] → key ∉ s.cache.cache →
      data.length ≤ s.cache.maxSizeBytes → s.cache.fits (.put key data contentType now) = true →
      ∃ c' kept, s.cache.put key data contentType now = some c' ∧ c'.keys = key :: kept ∧
        kept <+: s.cache.keys ∧ s.cache.sizeOf kept + data.length ≤ s.cache.maxSizeBytes ∧
        (∀ ks, ks <+: s.cache.keys → s.cache.sizeOf ks + data.length ≤ s.cache.maxSizeBytes →
          ks.length ≤ kept.length) ∧
        (∀ k ∈ kept, c'.cache.lookup k = s.cache.cache.lookup k) ∧
        (c'.cache.lookup key).map (·.1) = some (LRUCache.newEntry data contentType now) := by
  have hi := LRUCache.inv (reaches h)
  have hl : s.cache.Linked := hi.indexed
  refine ⟨ordered h, hl.mem_keys, fun key data contentType now hkey hdata hnot hsize hfits => ?_⟩
  obtain ⟨c', hput, -⟩ := hl.put key data contentType now
  have hexec : s.cache.exec (.put key data contentType now) = some c' := hput
  have hb := (LRUCache.fits_iff hexec).mp hfits
  cases LRUCache.put_puts hput with
  | ignored hargs => exact absurd hargs (not_or.mpr ⟨hkey, hdata⟩)
  | replaced entry it _ _ hk => exact nomatch (AList.lookup_eq_none.mpr hnot).symm.trans hk
  | tooLarge _ _ _ _ _ hlarge => exact absurd hlarge (Nat.not_lt.mpr hsize)
  | added c₁ _ _ _ h₁ _ =>
    have hnot₁ := (LRUCache.evictWhile_within h₁).1.not_mem hnot
    rw [LRUCache.storedSize_added hnot₁] at hb
    obtain ⟨hwithin, hlist, hroom, hlongest⟩ := hi.evictWhile_keys h₁ hsize hb
    refine ⟨_, c₁.keys, hput, rfl, hlist, hroom, fun ks hks hfits => (hlongest ks hks hfits).length_le,
      fun k hk => ?_, ?_⟩
    · have hk₁ : k ∈ c₁.cache := ((hi.evictWhile h₁).1.indexed.mem_keys k).mp hk
      have hne : k ≠ key := fun he => hnot₁ (he ▸ hk₁)
      obtain ⟨v, hv⟩ := Option.isSome_iff_exists.mp (AList.lookup_isSome.mpr hk₁)
      exact (AList.lookup_insert_ne hne).trans (hv.trans (hwithin k v hv).symm)
    · exact congrArg (Option.map fun v : CacheEntry × Nat => v.1) (AList.lookup_insert c₁.cache)

/-- Three pages, the first of them read again. -/
def pagesRead : List CacheOp :=
  [.put (bytes "a") [1] [] 0, .put (bytes "b") [2] [] 1, .get (bytes "a") 2 2, .put (bytes "c") [3] [] 3]

/-- The next page leaves room for two: the second goes. -/
theorem least_recent_evicted_read : ∃ s : Recorded, ∃ data c',
    system.ReachableBy (fun s op => s.cache.fits op = true) s ∧ s.cache.keys = [bytes "c", bytes "a", bytes "b"] ∧
      s.cache.keys = (byLastUse (uses s.calls)).filter (· ∈ s.cache.cache) ∧ data.length = 2 ^ 20 - 2 ∧
      s.cache.put (bytes "d") data [] 4 = some c' ∧ c'.keys = [bytes "d", bytes "c", bytes "a"] := by
  obtain ⟨s, hr, hs⟩ := System.exists_reachableBy (S := system)
    (s := { cache := .make 1 300, calls := [] }) ⟨1, 300, rfl⟩ (fun s op => s.cache.fits op) pagesRead
    (fun s => decide (s.cache.keys = [bytes "c", bytes "a", bytes "b"] ∧ bytes "d" ∉ s.cache.cache ∧
      s.cache.maxSizeBytes = 2 ^ 20 ∧ s.cache.storedSize = 3 ∧ s.cache.sizeOf [bytes "c", bytes "a"] = 2 ∧
      s.cache.sizeOf [bytes "c", bytes "a", bytes "b"] = 3)) (by decide +kernel)
  obtain ⟨hkeys, hnot, hmax, hstored, htwo, hthree⟩ := of_decide_eq_true hs
  generalize hdata : List.replicate (2 ^ 20 - 2) (4 : UInt8) = data
  have hlength : data.length = 2 ^ 20 - 2 := by rw [← hdata, List.length_replicate]
  have hne : data ≠ [] := List.ne_nil_of_length_pos (by omega)
  have hi := LRUCache.inv (reaches hr)
  have hreturns : ∃ c', s.cache.put (bytes "d") data [] 4 = some c' ∧ (c'.storedSize < 2 ^ 64 → c'.Inv) := hi.put
  obtain ⟨c', hc', -⟩ := hreturns
  have hgrows := hi.put_storedSize hc'
  have hexec : s.cache.exec (.put (bytes "d") data [] 4) = some c' := hc'
  have hfits := (LRUCache.fits_iff hexec).mpr (by omega)
  obtain ⟨horder, -, hput⟩ := least_recent_evicted hr
  obtain ⟨c'', kept, hc'', hfront, hprefix, hroom, hlongest, -⟩ :=
    hput (bytes "d") data [] 4 (by decide) hne hnot (by omega) hfits
  obtain rfl := Option.some.inj (hc'.symm.trans hc'')
  rw [hkeys] at hprefix
  have hlong : 2 ≤ kept.length := hlongest [bytes "c", bytes "a"] (by rw [hkeys]; exact ⟨[bytes "b"], rfl⟩) (by omega)
  have hshort : kept.length ≤ 2 := by
    by_contra hall
    have hthird : kept = [bytes "c", bytes "a", bytes "b"] := hprefix.eq_of_length_le (by simp; omega)
    rw [hthird, hthree] at hroom
    omega
  have hkept : kept = [bytes "c", bytes "a"] :=
    (List.prefix_iff_eq_take.mp hprefix).trans (by rw [le_antisymm hshort hlong]; rfl)
  exact ⟨s, data, c', hr, hkeys, horder, hlength, hc', by rw [hfront, hkept]⟩

end Recorded

end Webserver
