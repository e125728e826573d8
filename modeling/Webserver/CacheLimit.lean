/-
The memory bound of the file cache. A new key makes room for itself or is
refused; a key that is there already takes the new data as it is, so that the
bound holds as long as no such `put` outgrows it.
-/
import Webserver.CacheContents

namespace Webserver

open Cxx Systems Recency

/-- The call sets a new limit. -/
def CacheOp.setsLimit : CacheOp → Bool
  | setMaxSize _ => true
  | _ => false

namespace LRUCache

/-- The call gives a stored key data the limit leaves no room for. -/
def overgrows (c : LRUCache) : CacheOp → Bool
  | .put key data _ _ =>
    match c.cache.lookup key with
    | none => false
    | some (entry, _) =>
      key ≠ [] && data ≠ [] && c.maxSizeBytes + entry.data.length < c.storedSize + data.length
  | _ => false

/-- The stored sizes exceed the limit after a `put` exactly where it gives a
stored key too much. -/
theorem Inv.put_le_iff {c c' : LRUCache} {key data contentType : Bytes} {now : Int} (h : c.Inv)
    (hle : c.storedSize ≤ c.maxSizeBytes) (hb : c'.storedSize < 2 ^ 64)
    (hput : c.put key data contentType now = some c') :
    c'.storedSize ≤ c.maxSizeBytes ↔ c.overgrows (.put key data contentType now) = false := by
  cases hk : c.cache.lookup key with
  | none =>
    have hover : c.overgrows (.put key data contentType now) = false := by simp [overgrows, hk]
    exact ⟨fun _ => hover, fun _ => h.putNew_le hle (AList.lookup_eq_none.mp hk) hb hput⟩
  | some v =>
    obtain ⟨entry, it⟩ := v
    have hmem : ¬ key ∉ c.cache := by
      rw [← AList.lookup_eq_none, hk]
      exact nofun
    cases put_puts hput with
    | ignored hargs =>
      refine ⟨fun _ => ?_, fun _ => hle⟩
      rcases hargs with rfl | rfl <;> simp [overgrows, hk]
    | replaced entry' it' hkey hdata hk' =>
      obtain ⟨rfl, rfl⟩ := Prod.mk.inj (Option.some.inj (hk.symm.trans hk'))
      have hsum := @storedSize_replaced c key data contentType now entry it hk
      have hover : c.overgrows (.put key data contentType now) =
          decide (c.maxSizeBytes + entry.data.length < c.storedSize + data.length) := by
        simp [overgrows, hk, hkey, hdata]
      rw [hover, decide_eq_false_iff_not]
      omega
    | tooLarge c₁ _ _ hnot => exact absurd hnot hmem
    | added c₁ _ _ hnot => exact absurd hnot hmem

/-- The calls that leave the limit alone keep the stored sizes within it,
but for a `put` that gives a stored key too much. -/
theorem Inv.exec_le_iff {c c' : LRUCache} {op : CacheOp} (h : c.Inv) (hle : c.storedSize ≤ c.maxSizeBytes)
    (hb : c'.storedSize < 2 ^ 64) (hset : op.setsLimit = false) (hs : c.exec op = some c') :
    c'.maxSizeBytes = c.maxSizeBytes ∧ (c'.storedSize ≤ c.maxSizeBytes ↔ c.overgrows op = false) := by
  cases op with
  | get key now accessed =>
    obtain rfl := Option.some.inj hs
    exact ⟨(get_sameLimits c key now accessed).1,
      fun _ => rfl, fun _ => (get_storedSize key now accessed).trans hle⟩
  | put key data contentType now => exact ⟨(put_rest hs).limits.1, h.put_le_iff hle hb hs⟩
  | remove key =>
    obtain rfl := Option.some.inj hs
    exact ⟨(remove_rest c key).limits.1, fun _ => rfl, fun _ => (remove_storedSize_le c key).trans hle⟩
  | clear =>
    obtain rfl := Option.some.inj hs
    exact ⟨rfl, fun _ => rfl, fun _ => Nat.zero_le _⟩
  | evictExpired now =>
    obtain rfl := Option.some.inj hs
    exact ⟨(evictExpired_rest c now).limits.1,
      fun _ => rfl, fun _ => (evictExpired_storedSize_le c now).trans hle⟩
  | setMaxSize maxSizeMb => cases hset
  | setTtl ttlSeconds =>
    obtain rfl := Option.some.inj hs
    exact ⟨rfl, fun _ => rfl, fun _ => hle⟩

/-- The call fits in memory, leaves the limit alone and gives no stored key
too much. -/
def sparing (c : LRUCache) (op : CacheOp) : Bool := c.fits op && !op.setsLimit && !c.overgrows op

theorem fits_of_sparing {c : LRUCache} {op : CacheOp} (h : c.sparing op = true) : c.fits op = true := by
  simp only [sparing, Bool.and_eq_true] at h
  exact h.1.1

theorem storedSize_le {c : LRUCache} (h : system.ReachableBy (fun c op => c.sparing op = true) c) :
    c.storedSize ≤ c.maxSizeBytes := by
  refine h.invariant (I := fun c => c.storedSize ≤ c.maxSizeBytes) ?_ ?_
  · intro c hinit
    obtain ⟨maxSizeMb, ttlSeconds, rfl⟩ := hinit
    exact Nat.zero_le _
  intro c op c' hr hi hok hs
  have hs : c.exec op = some c' := hs
  have hb : c'.storedSize < 2 ^ 64 := (fits_iff hs).mp (fits_of_sparing hok)
  simp only [sparing, Bool.and_eq_true, Bool.not_eq_true'] at hok
  obtain ⟨hmax, hiff⟩ := (inv (hr.mono fun _ _ => fits_of_sparing)).exec_le_iff hi hb hok.1.2 hs
  rw [hmax]
  exact hiff.mpr hok.2

/-- **The memory bound**: in every state reached by calls that give no stored
key more than the limit has room for, the counter is within the limit, and
the next call leaves it so exactly if it is such a call. -/
theorem currentSize_le {c : LRUCache} (h : system.ReachableBy (fun c op => c.sparing op = true) c) :
    c.currentSize ≤ c.maxSizeBytes ∧ ∀ op c', c.fits op = true → op.setsLimit = false →
      c.exec op = some c' → (c'.currentSize ≤ c'.maxSizeBytes ↔ c.overgrows op = false) := by
  have hi : c.Inv := inv (h.mono fun _ _ => fits_of_sparing)
  refine ⟨hi.size ▸ storedSize_le h, fun op c' hfits hset hs => ?_⟩
  have hb : c'.storedSize < 2 ^ 64 := (fits_iff hs).mp hfits
  obtain ⟨c₁, h₁, hkeep⟩ := hi.exec op
  obtain rfl : c₁ = c' := Option.some.inj (h₁.symm.trans hs)
  obtain ⟨hmax, hiff⟩ := hi.exec_le_iff (storedSize_le h) hb hset hs
  rw [(hkeep hb).size, hmax]
  exact hiff

/-- A key is overwritten with data that fit. -/
def overwritten : List CacheOp := [.put (bytes "a") [1] [] 0, .put (bytes "a") [2, 3] [] 1]

theorem currentSize_le_overwritten : ∃ c : LRUCache,
    system.ReachableBy (fun c op => c.sparing op = true) c ∧ c.currentSize = 2 ∧
      c.currentSize ≤ c.maxSizeBytes ∧ (c.remove (bytes "a")).currentSize ≤ (c.remove (bytes "a")).maxSizeBytes := by
  obtain ⟨c, hr, hc⟩ := System.exists_reachableBy (S := system) (s := make 1 300) ⟨1, 300, rfl⟩ sparing
    overwritten (fun c => c.currentSize = 2 && c.fits (.remove (bytes "a"))) (by decide +kernel)
  simp only [Bool.and_eq_true, decide_eq_true_eq] at hc
  obtain ⟨hle, hnext⟩ := currentSize_le hr
  exact ⟨c, hr, hc.1, hle, (hnext (.remove (bytes "a")) _ hc.2 rfl rfl).mpr rfl⟩

/-- One byte is overwritten with one byte more than the cache may hold. -/
theorem not_currentSize_le : ¬ ∀ c : LRUCache,
    system.ReachableBy (fun c op => (c.fits op && !op.setsLimit) = true) c →
      c.currentSize ≤ c.maxSizeBytes := by
  intro h
  obtain ⟨c, hr, hc⟩ := System.exists_reachableBy (S := system) (s := make 1 300) ⟨1, 300, rfl⟩
    (fun c op => c.fits op && !op.setsLimit) [.put (bytes "a") [1] [] 0]
    (fun c => c.storedSize = 1 && c.maxSizeBytes = 2 ^ 20 &&
      (c.cache.lookup (bytes "a")).any fun v => v.1.data.length = 1) (by decide +kernel)
  simp only [Bool.and_eq_true, decide_eq_true_eq] at hc
  obtain ⟨⟨hsize, hmax⟩, hfound⟩ := hc
  obtain ⟨⟨entry, it⟩, hk, hlen⟩ := (Option.any_eq_true _ _).mp hfound
  have hi : c.Inv := inv (hr.mono fun c op hok => by
    simp only [Bool.and_eq_true] at hok
    exact hok.1)
  -- the key is there, so that nothing is evicted and nothing refused
  generalize hdata : List.replicate (2 ^ 20 + 1) (0 : UInt8) = data
  have hlength : data.length = 2 ^ 20 + 1 := by rw [← hdata, List.length_replicate]
  obtain ⟨c', hs, hkeep⟩ := hi.exec (.put (bytes "a") data [] 1)
  have hless := hi.put_storedSize hs
  have hb : c'.storedSize < 2 ^ 64 := by omega
  have hok : (c.fits (.put (bytes "a") data [] 1) && !(CacheOp.put (bytes "a") data [] 1).setsLimit) = true := by
    rw [(fits_iff hs).mpr hb]
    rfl
  have hstep : system.step c (.put (bytes "a") data [] 1) = some c' := hs
  have hle := h c' (.step hr hok hstep)
  obtain ⟨hsame, hiff⟩ := hi.exec_le_iff (by omega) hb rfl hs
  rw [(hkeep hb).size, hsame, hiff] at hle
  have hne : data ≠ [] := List.ne_nil_of_length_pos (by omega)
  have hkey : bytes "a" ≠ [] := by decide
  have hlen : entry.data.length = 1 := by simpa using hlen
  simp only [overgrows, hk, hkey, hne, ne_eq, not_false_eq_true, decide_true, Bool.true_and,
    decide_eq_false_iff_not] at hle
  omega

end LRUCache

end Webserver
