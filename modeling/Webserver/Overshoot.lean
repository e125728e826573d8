/-
The shared cache and its limit. Two threads may both fail to find a file; the
second to enter it replaces the entry of the first, and a replacement evicts
nothing. What that adds is bounded by the threads that had looked for their
file before the last new entry was made.
-/
import Webserver.Transparency

namespace Webserver

open Cxx Systems

namespace LRUCache

/-- The most bytes of a file that is entered. -/
def largest : Nat := 1024 * 1024 - 1

/-- A new entry leaves the stored sizes within the limit, wherever they were. -/
theorem Inv.added_le {c c' : LRUCache} {key data contentType : Bytes} {now : Int} (h : c.Inv)
    (hkey : key ≠ []) (hdata : data ≠ []) (hk : key ∉ c.cache)
    (hwrap : c.storedSize + data.length < 2 ^ 64)
    (hput : c.put key data contentType now = some c') : c'.storedSize ≤ c.maxSizeBytes := by
  cases put_puts hput with
  | ignored hargs => exact absurd hargs (not_or.mpr ⟨hkey, hdata⟩)
  | replaced entry it _ _ hk' => exact nomatch (AList.lookup_eq_none.mpr hk).symm.trans hk'
  | tooLarge c₁ _ _ _ h₁ hsize =>
    obtain ⟨-, hle, hfits⟩ := h.evictWhile h₁
    have hmax : c'.maxSizeBytes = c.maxSizeBytes := (evictWhile_within h₁).2.limits.1
    rcases hfits (by omega) with hfits | hzero <;> omega
  | added c₁ _ _ _ h₁ hsize =>
    obtain ⟨-, hle, hfits⟩ := h.evictWhile h₁
    have hmax : c₁.maxSizeBytes = c.maxSizeBytes := (evictWhile_within h₁).2.limits.1
    rw [storedSize_added ((evictWhile_within h₁).1.not_mem hk)]
    rcases hfits (by omega) with hfits | hzero <;> omega

theorem mem_of_mem_get {c : LRUCache} {key k : Bytes} {now accessed : Int}
    (hk : k ∈ (c.get key now accessed).1.cache) : k ∈ c.cache := by
  obtain ⟨⟨entry, it⟩, hv⟩ := Option.isSome_iff_exists.mp (AList.lookup_isSome.mpr hk)
  obtain ⟨entry₀, it₀, hk₀, -⟩ := get_keptFrom c key now accessed k entry it hv
  exact AList.lookup_isSome.mp (by rw [hk₀]; rfl)

/-- A stored key that is entered again leaves the other keys as they are. -/
theorem mem_of_mem_put {c c' : LRUCache} {key data contentType k : Bytes} {now : Int}
    (hput : c.put key data contentType now = some c') (hkey : key ∈ c.cache) (hk : k ∈ c'.cache) :
    k ∈ c.cache := by
  obtain ⟨⟨entry, it⟩, hv⟩ := Option.isSome_iff_exists.mp (AList.lookup_isSome.mpr hk)
  rcases (put_contents hput).2 k entry it hv with ⟨rfl, -⟩ | ⟨entry₀, it₀, hk₀, -⟩
  · exact hkey
  · exact AList.lookup_isSome.mp (by rw [hk₀]; rfl)

end LRUCache

/-- One, if the thread is to enter a file that is in the cache by now. -/
def FilePc.late (c : LRUCache) (pc : FilePc) : Nat :=
  match pc.pending with
  | some path => if path ∈ c.cache then 1 else 0
  | none => 0

theorem FilePc.late_le (c : LRUCache) (pc : FilePc) : pc.late c ≤ 1 := by
  unfold late
  split
  · split <;> omega
  · omega

theorem FilePc.late_mono {c c' : LRUCache} (h : ∀ k, k ∈ c'.cache → k ∈ c.cache) (pc : FilePc) :
    pc.late c' ≤ pc.late c := by
  unfold late
  split
  · next path _ =>
    by_cases hk : path ∈ c'.cache
    · rw [if_pos hk, if_pos (h path hk)]
    · rw [if_neg hk]
      exact Nat.zero_le _
  · exact le_rfl

namespace FileWorkers

variable {n : Nat} {s : FileWorkers n} {worker : Fin n → FilePc}

/-- The threads that will replace an entry made since they looked for it. -/
def late (worker : Fin n → FilePc) (c : LRUCache) : Nat := ∑ w, (worker w).late c

/-- Each late thread may still add the bytes of a file. -/
structure Bounded (cacheSizeMb : Nat) (worker : Fin n → FilePc) (c : LRUCache) : Prop where
  inv : c.Inv
  maxSize : c.maxSizeBytes = LRUCache.megabytes cacheSizeMb
  room : c.storedSize + LRUCache.largest * late worker c ≤
    LRUCache.megabytes cacheSizeMb + LRUCache.largest * (n - 1)

variable {cacheSizeMb : Nat} {c : LRUCache}

/-- A thread goes on that is not late afterwards, or was before. -/
theorem late_goes (w : Fin n) {pc : FilePc} {c' : LRUCache} (hpc : pc.late c' ≤ (worker w).late c)
    (hc : ∀ k, k ∈ c'.cache → k ∈ c.cache) :
    ∑ w', (Function.update worker w pc w').late c' ≤ late worker c := by
  refine Finset.sum_le_sum fun w' _ => ?_
  by_cases hww : w' = w
  · subst hww
    simpa using hpc
  · simpa [hww] using FilePc.late_mono hc (worker w')

/-- All but the thread itself may be late. -/
theorem late_le_others (w : Fin n) {pc : FilePc} (hpc : pc.late c = 0) :
    ∑ w', (Function.update worker w pc w').late c ≤ n - 1 := by
  have hle := sum_le_others (fun w' => FilePc.late_le c (Function.update worker w pc w')) (t := w)
    (by simpa using hpc)
  rwa [Fintype.card_fin] at hle

/-- The cache is not used. -/
theorem Bounded.goes (h : Bounded cacheSizeMb worker c) (w : Fin n) {pc : FilePc}
    (hpc : pc.late c ≤ (worker w).late c) :
    Bounded cacheSizeMb (Function.update worker w pc) c := by
  refine ⟨h.inv, h.maxSize, ?_⟩
  have hlate := late_goes w hpc fun _ => id
  have hmul := Nat.mul_le_mul_left LRUCache.largest hlate
  have := h.room
  simp only [late] at hmul this ⊢
  omega

/-- The cache is used by `get`. -/
theorem Bounded.get (h : Bounded cacheSizeMb worker c) (path : Bytes) (now : Int) (w : Fin n) {pc : FilePc}
    (hpc : pc.late (c.get path now now).1 = 0) :
    Bounded cacheSizeMb (Function.update worker w pc) (c.get path now now).1 := by
  refine ⟨h.inv.get path now now, (LRUCache.get_sameLimits c path now now).1.trans h.maxSize, ?_⟩
  have hlate : ∑ w', (Function.update worker w pc w').late _ ≤ late worker c :=
    late_goes w (hpc.le.trans (Nat.zero_le _)) fun _ => LRUCache.mem_of_mem_get
  have hsize := LRUCache.get_storedSize (c := c) path now now
  have hmul := Nat.mul_le_mul_left LRUCache.largest hlate
  have := h.room
  simp only [late] at hmul this ⊢
  omega

/-- The cache is used by `put`. -/
theorem Bounded.put (h : Bounded cacheSizeMb worker c)
    (hwrap : LRUCache.megabytes cacheSizeMb + LRUCache.largest * n < 2 ^ 64) {w : Fin n}
    {call : FileCall} {path content contentType : Bytes} {now : Int} {c' : LRUCache} {r : HttpResponse}
    (hw : worker w = .put call path content) (hsize : content.length ≤ LRUCache.largest)
    (hput : c.put path content contentType now = some c') :
    Bounded cacheSizeMb (Function.update worker w (.returned call r)) c' := by
  have hsum := sum_update worker w (.returned call r) (FilePc.late c)
  have hgrows := h.inv.put_storedSize hput
  have hmax := (LRUCache.put_rest hput).limits.1
  have hn : LRUCache.largest * n = LRUCache.largest * (n - 1) + LRUCache.largest := by
    obtain ⟨m, rfl⟩ : ∃ m, n = m + 1 := ⟨n - 1, by have := w.isLt; omega⟩
    rw [Nat.add_sub_cancel, Nat.mul_succ]
  have hroom := h.room
  have hinv : c'.Inv := by
    have hreturns : ∃ c'', c.put path content contentType now = some c'' ∧
        (c''.storedSize < 2 ^ 64 → c''.Inv) := h.inv.put
    obtain ⟨c'', hc'', hkeep⟩ := hreturns
    obtain rfl := Option.some.inj (hc''.symm.trans hput)
    exact hkeep (by omega)
  refine ⟨hinv, hmax.trans h.maxSize, ?_⟩
  show c'.storedSize + LRUCache.largest * ∑ w', (Function.update worker w (.returned call r) w').late c' ≤ _
  by_cases hk : path ∈ c.cache
  · -- it was late itself
    have hone : (worker w).late c = 1 := by simp [hw, FilePc.late, FilePc.pending, hk]
    have hzero : (FilePc.returned call r).late c = 0 := rfl
    have hle : ∑ w', (Function.update worker w (.returned call r) w').late c' ≤
        ∑ w', (Function.update worker w (.returned call r) w').late c :=
      Finset.sum_le_sum fun w' _ => FilePc.late_mono (fun k => LRUCache.mem_of_mem_put hput hk) _
    rw [hone, hzero] at hsum
    have hmul := Nat.mul_le_mul_left LRUCache.largest (show _ + 1 ≤ late worker c from hsum ▸ Nat.add_le_add_right hle 1)
    rw [Nat.mul_succ] at hmul
    omega
  · by_cases hargs : path = [] ∨ content = []
    · obtain rfl := (LRUCache.put_lookup hput).2.1 hargs
      have hle : ∑ w', (Function.update worker w (.returned call r) w').late c' ≤ late worker c' :=
        late_goes w (Nat.zero_le _) fun _ => id
      have hmul := Nat.mul_le_mul_left LRUCache.largest hle
      omega
    · -- a new entry evicts what is too much
      obtain ⟨hkey, hdata⟩ := not_or.mp hargs
      have hfits := h.inv.added_le hkey hdata hk (by omega) hput
      have hothers : ∑ w', (Function.update worker w (.returned call r) w').late c' ≤ n - 1 :=
        late_le_others w rfl
      have hmul := Nat.mul_le_mul_left LRUCache.largest hothers
      rw [h.maxSize] at hfits
      omega

variable {documentRoot defaultFile : Bytes} {enableCache : Bool}

theorem bounded (hwrap : LRUCache.megabytes cacheSizeMb + LRUCache.largest * n < 2 ^ 64)
    (h : (system n documentRoot defaultFile enableCache cacheSizeMb).Reachable s)
    (hc : s.handler.activeCache = some c) : Bounded cacheSizeMb s.worker c := by
  refine h.invariant (I := fun s => ∀ c, s.handler.activeCache = some c → Bounded cacheSizeMb s.worker c) ?_ ?_ c hc
  · intro s hinit c hc
    rw [hinit.1] at hc
    cases enableCache with
    | false => cases hc
    | true =>
      obtain rfl := Option.some.inj hc
      refine ⟨(Serving.Traced.make cacheSizeMb).inv, rfl, ?_⟩
      have hnone : late s.worker (LRUCache.make cacheSizeMb 300) = 0 := by
        simp [late, hinit.2.1, FilePc.late, FilePc.pending]
      rw [hnone, Nat.mul_zero]
      exact (Serving.Traced.make cacheSizeMb).fits.trans (Nat.le_add_right _ _)
  intro s a s' _ hi _ hs c hc
  cases step_cases hs with
  | call w requestPath => exact (hi c hc).goes w (Nat.zero_le _)
  | change fs => exact ⟨(hi c hc).inv, (hi c hc).maxSize, (hi c hc).room⟩
  | advance ns => exact ⟨(hi c hc).inv, (hi c hc).maxSize, (hi c hc).room⟩
  | worker w texts date h' pc' he =>
    have got : ∀ path, (s.handler.getCached path s.clock).1 = h' → ∃ c₀, s.handler.activeCache = some c₀ ∧
        c = (c₀.get path s.clock s.clock).1 ∧
        (s.handler.getCached path s.clock).2 = (c₀.get path s.clock s.clock).2 := by
      intro path hh
      obtain ⟨-, hactive, hfound⟩ := s.handler.getCached_eq path s.clock
      rw [hh] at hactive
      obtain ⟨c₀, hc₀, hget⟩ := Option.map_eq_some_iff.mp (hactive.symm.trans hc)
      exact ⟨c₀, hc₀, hget.symm, by rw [hfound, hc₀]; rfl⟩
    generalize hw : s.worker w = pc at he
    cases FilePc.exec_steps he with
    | query call hq =>
      have hnone : pc'.late c = 0 := by simp [FilePc.late, hq.notPending]
      exact (hi c hc).goes w (hnone ▸ Nat.zero_le _)
    | hit call path entry hget =>
      obtain ⟨c₀, hc₀, rfl, -⟩ := got path (by rw [hget])
      have hnone : (FilePc.returned call (FileHandler.hitResponse entry date)).late
          (c₀.get path s.clock s.clock).1 = 0 := rfl
      exact (hi c₀ hc₀).get path s.clock w hnone
    | miss call path hget =>
      obtain ⟨c₀, hc₀, rfl, hfound⟩ := got path (by rw [hget])
      rw [hget] at hfound
      refine (hi c₀ hc₀).get path s.clock w ?_
      simp [FilePc.late, FilePc.pending, LRUCache.not_mem_of_get hfound.symm]
    | read call path content hread => exact (hi c hc).goes w (by rw [hw]; rfl)
    | store call path content hput =>
      obtain ⟨-, hsame | ⟨c₀, c₁, hc₀, hsize, hput, hc₁⟩⟩ := FileHandler.putCached_eq_some hput
      · have hnone : (FilePc.returned call (FileHandler.missResponse path content date)).late c = 0 := rfl
        exact (hi c (hsame ▸ hc)).goes w (hnone ▸ Nat.zero_le _)
      · obtain rfl := Option.some.inj (hc₁.symm.trans hc)
        exact (hi c₀ hc₀).put hwrap hw (show content.length ≤ 1024 * 1024 - 1 by omega) hput

/-- No thread in a call is stuck in it. -/
theorem goes_or_takes (hwrap : LRUCache.megabytes cacheSizeMb + LRUCache.largest * n < 2 ^ 64)
    (h : (system n documentRoot defaultFile enableCache cacheSizeMb).Reachable s) (w : Fin n)
    (texts : EntryTexts) (date : Bytes) : (s.step (.worker w texts date)).isSome ∨ ∀ requestPath,
      (s.step (.call w requestPath)).isSome := by
  cases hw : s.worker w with
  | idle | returned | thrown => exact .inr fun _ => by simp [step, hw]
  | put call path content =>
    refine .inl ?_
    have hput : ∃ h', s.handler.putCached path content
        (HttpResponse.getMimeType (Paths.extension path)) s.clock = some h' := by
      unfold FileHandler.putCached
      split
      · exact ⟨_, rfl⟩
      next c hc =>
      split
      · have hreturns : ∃ c', c.put path content (HttpResponse.getMimeType (Paths.extension path)) s.clock =
            some c' ∧ (c'.storedSize < 2 ^ 64 → c'.Inv) := (bounded hwrap h hc).inv.put
        obtain ⟨c', hc', -⟩ := hreturns
        exact ⟨_, by rw [hc']; rfl⟩
      · exact ⟨_, rfl⟩
    obtain ⟨h', hput⟩ := hput
    simp [step, hw, FilePc.exec, hput]
  | get call path =>
    refine .inl ?_
    simp only [step, hw, FilePc.exec]
    split <;> rfl
  | _ => exact .inl (by simp [step, hw, FilePc.exec])

/-- **The limit of the shared cache**: in every order of the steps of `n`
threads the list, the map and the counter of the cache agree, the counter has
not underflowed, and it exceeds the limit by less than a megabyte for each
thread but one; and no thread in a call is stuck in it. -/
theorem currentSize_le_shared (hwrap : LRUCache.megabytes cacheSizeMb + LRUCache.largest * n < 2 ^ 64)
    (h : (system n documentRoot defaultFile enableCache cacheSizeMb).Reachable s) :
    (∀ c, s.handler.activeCache = some c → c.Represents ∧
      c.currentSize ≤ LRUCache.megabytes cacheSizeMb + LRUCache.largest * (n - 1)) ∧
    ∀ w texts date, (s.step (.worker w texts date)).isSome ∨ ∀ requestPath,
      (s.step (.call w requestPath)).isSome := by
  refine ⟨fun c hc => ?_, goes_or_takes hwrap h⟩
  have hb := bounded hwrap h hc
  refine ⟨hb.inv.toRepresents, ?_⟩
  rw [hb.inv.size]
  exact (Nat.le_add_right _ _).trans hb.room

/-- Two threads that both enter a file. -/
theorem currentSize_le_shared_meeting : ∃ s : FileWorkers 2, ∃ c,
    (system 2 (bytes "./public") (bytes "index.html") true 100).Reachable s ∧
      s.handler.activeCache = some c ∧ c.cacheMisses = 2 ∧ c.Represents ∧
      c.currentSize ≤ LRUCache.megabytes 100 + LRUCache.largest := by
  obtain ⟨s, hreach, hs⟩ := System.exists_reachable
    (S := system 2 (bytes "./public") (bytes "index.html") true 100) (s := started)
    ⟨rfl, fun _ => rfl, rfl⟩ meeting
    (fun s => s.handler.activeCache.any fun c => c.cacheMisses = 2) (by decide +kernel)
  obtain ⟨c, hc, hmisses⟩ := (Option.any_eq_true _ _).mp hs
  obtain ⟨hrep, hle⟩ := (currentSize_le_shared (by decide) hreach).1 c hc
  exact ⟨s, c, hreach, hc, of_decide_eq_true hmisses, hrep, hle⟩

end FileWorkers

end Webserver
