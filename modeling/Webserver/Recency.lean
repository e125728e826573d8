/-
A map whose keys are also kept in a list of nodes, most recent first: each
entry carries the number of the node that holds its key. `Indexed` is the
invariant of the two structures and there is one rule for each way they
change together. `InOrder` says that the list is in the order of last use.
`total` is the sum of a measure over the entries.
-/
import Mathlib

namespace Recency

variable {K V : Type*} [DecidableEq K]

/-- Node `n` is in the list, once, and holds key `k`. -/
def Denotes (list : List (Nat × K)) (n : Nat) (k : K) : Prop :=
  list.filter (fun p => p.1 = n) = [(n, k)]

/-- The list holds each key of the map in one node, the one the entry
carries; the nodes are those made before `next`. -/
structure Indexed (list : List (Nat × K)) (map : AList fun _ : K => V × Nat) (next : Nat) : Prop where
  keys_nodup : (list.map (·.2)).Nodup
  nodes_nodup : (list.map (·.1)).Nodup
  fresh : ∀ p ∈ list, p.1 < next
  mem_keys : ∀ k, k ∈ list.map (·.2) ↔ k ∈ map
  node : ∀ k v n, map.lookup k = some (v, n) → (n, k) ∈ list

/-- The list without node `n`. -/
def removeNode (list : List (Nat × K)) (n : Nat) : List (Nat × K) := list.filter (fun p => p.1 ≠ n)

omit [DecidableEq K] in
theorem eq_of_mem_of_nodup {list : List (Nat × K)} (h : (list.map (·.1)).Nodup) {p q : Nat × K}
    (hp : p ∈ list) (hq : q ∈ list) (he : p.1 = q.1) : p = q :=
  List.inj_on_of_nodup_map h hp hq he

namespace Indexed

variable {list : List (Nat × K)} {map : AList fun _ : K => V × Nat} {next : Nat} {k : K} {v v' : V}
  {n : Nat}

theorem empty (next : Nat) : Indexed ([] : List (Nat × K)) (∅ : AList fun _ : K => V × Nat) next :=
  ⟨List.nodup_nil, List.nodup_nil, nofun, by simp, nofun⟩

theorem denotes (h : Indexed list map next) (hk : map.lookup k = some (v, n)) : Denotes list n k := by
  have hm := h.node k v n hk
  have hall : ∀ p ∈ list.filter (fun p => p.1 = n), p = (n, k) := by
    intro p hp
    obtain ⟨hp, hn⟩ := List.mem_filter.mp hp
    exact eq_of_mem_of_nodup h.nodes_nodup hp hm (by simpa using hn)
  have hnd : (list.filter fun p => p.1 = n).Nodup := (List.Nodup.of_map _ h.nodes_nodup).filter _
  have hrep := List.eq_replicate_iff.mpr ⟨rfl, hall⟩
  rw [hrep] at hnd
  have hpos : 0 < (list.filter fun p => p.1 = n).length :=
    List.length_pos_of_mem (List.mem_filter.mpr ⟨hm, by simp⟩)
  have hle := List.nodup_replicate.mp hnd
  rw [Denotes, hrep, show (list.filter fun p => p.1 = n).length = 1 by omega]
  rfl

/-- The node an entry carries is the one that holds its key. -/
theorem node_eq_iff (h : Indexed list map next) (hk : map.lookup k = some (v, n)) {p : Nat × K}
    (hp : p ∈ list) : p.1 = n ↔ p.2 = k := by
  have hm := h.node k v n hk
  constructor
  · intro hn
    rw [eq_of_mem_of_nodup h.nodes_nodup hp hm hn]
  · intro hpk
    rw [List.inj_on_of_nodup_map h.keys_nodup hp hm hpk]

/-- A key leaves: its node and its entry. -/
theorem erase (h : Indexed list map next) (hk : map.lookup k = some (v, n)) :
    Indexed (removeNode list n) (map.erase k) next := by
  have hsub : (removeNode list n).Sublist list := List.filter_sublist
  have hkey : ∀ p ∈ list, p.1 = n ↔ p.2 = k := fun p => h.node_eq_iff hk
  refine ⟨h.keys_nodup.sublist (hsub.map _), h.nodes_nodup.sublist (hsub.map _),
    fun p hp => h.fresh p (hsub.mem hp), fun k' => ?_, fun k' v' n' hl => ?_⟩
  · rw [AList.mem_erase, ← h.mem_keys k', List.mem_map, List.mem_map]
    constructor
    · intro hp
      obtain ⟨p, hp, rfl⟩ := hp
      obtain ⟨hp, hn⟩ := List.mem_filter.mp hp
      have hne : p.1 ≠ n := by simpa using hn
      exact ⟨fun he => hne ((hkey p hp).mpr he), p, hp, rfl⟩
    · intro hp
      obtain ⟨hne, p, hp, rfl⟩ := hp
      exact ⟨p, List.mem_filter.mpr ⟨hp, by simpa using fun hn => hne ((hkey p hp).mp hn)⟩, rfl⟩
  · have hne : k' ≠ k := by
      rintro rfl
      rw [AList.lookup_erase] at hl
      cases hl
    rw [AList.lookup_erase_ne hne] at hl
    have hp := h.node k' v' n' hl
    exact List.mem_filter.mpr ⟨hp, by simpa using fun hn => hne ((hkey _ hp).mp hn)⟩

/-- A new key comes, with a new node in front. -/
theorem insert (h : Indexed list map next) (hk : k ∉ map) :
    Indexed ((next, k) :: list) (map.insert k (v, next)) (next + 1) := by
  have hkeys : k ∉ list.map (·.2) := fun hm => hk ((h.mem_keys k).mp hm)
  have hnodes : next ∉ list.map (·.1) := by
    intro hm
    obtain ⟨p, hp, he⟩ := List.mem_map.mp hm
    exact Nat.lt_irrefl _ (he ▸ h.fresh p hp)
  refine ⟨List.nodup_cons.mpr ⟨hkeys, h.keys_nodup⟩, List.nodup_cons.mpr ⟨hnodes, h.nodes_nodup⟩,
    fun p hp => ?_, fun k' => ?_, fun k' v' n' hl => ?_⟩
  · rcases List.mem_cons.mp hp with rfl | hp
    · exact Nat.lt_succ_self _
    · exact Nat.lt_succ_of_lt (h.fresh p hp)
  · rw [AList.mem_insert, ← h.mem_keys k', List.map_cons, List.mem_cons]
  · by_cases hne : k' = k
    · rw [hne, AList.lookup_insert] at hl
      cases hl
      rw [hne]
      exact List.mem_cons_self
    · rw [AList.lookup_insert_ne hne] at hl
      exact List.mem_cons_of_mem _ (h.node k' v' n' hl)

/-- A key moves to the front, with a new node and perhaps a new value. -/
theorem touch (h : Indexed list map next) (hk : map.lookup k = some (v, n)) :
    Indexed ((next, k) :: removeNode list n) (map.insert k (v', next)) (next + 1) := by
  have hnot : k ∉ map.erase k := fun hm => (AList.mem_erase.mp hm).1 rfl
  have hins := (h.erase hk).insert (v := v') hnot
  have hentries : ((map.erase k).insert k (v', next)) = map.insert k (v', next) := by
    apply AList.ext
    rw [AList.entries_insert_of_notMem hnot, AList.entries_insert]
    rfl
  rwa [hentries] at hins

/-- The last node is the one its key's entry carries. -/
theorem last (h : Indexed list map next) {p : Nat × K} (hp : list.getLast? = some p) :
    ∃ v, map.lookup p.2 = some (v, p.1) ∧ removeNode list p.1 = list.dropLast := by
  obtain ⟨l, hl⟩ := List.getLast?_eq_some_iff.mp hp
  have hmem : p.2 ∈ map := (h.mem_keys p.2).mp (by simp [hl])
  obtain ⟨⟨v, n⟩, hlook⟩ := Option.isSome_iff_exists.mp (AList.lookup_isSome.mpr hmem)
  have hn : p.1 = n := (h.node_eq_iff hlook (by simp [hl])).mpr rfl
  refine ⟨v, hn ▸ hlook, ?_⟩
  rw [hl, List.dropLast_concat, removeNode, List.filter_append]
  have hnot : ∀ q ∈ l, q.1 ≠ p.1 := by
    intro q hq he
    have hnd : ((l ++ [p]).map (·.1)).Nodup := hl ▸ h.nodes_nodup
    rw [List.map_append, List.nodup_append] at hnd
    exact hnd.2.2 q.1 (List.mem_map_of_mem hq) p.1 (by simp) he
  rw [List.filter_eq_self.mpr fun q hq => by simpa using hnot q hq]
  simp

theorem keys_removeNode (h : Indexed list map next) (hk : map.lookup k = some (v, n)) :
    (removeNode list n).map (·.2) = (list.map (·.2)).filter (· ≠ k) := by
  rw [removeNode, List.filter_map]
  congr 1
  refine List.filter_congr fun p hp => ?_
  simp [h.node_eq_iff hk hp]

end Indexed

/-! ## The order of use -/

/-- The keys of a history of uses, from the one used last to the one used
first. -/
def byLastUse (uses : List K) : List K := uses.dedup.reverse

theorem dedup_concat (uses : List K) (k : K) :
    (uses ++ [k]).dedup = uses.dedup.filter (· ≠ k) ++ [k] := by
  induction uses with
  | nil => rfl
  | cons a uses ih =>
    rw [List.cons_append]
    by_cases ha : a ∈ uses
    · rw [List.dedup_cons_of_mem ha, List.dedup_cons_of_mem (List.mem_append_left _ ha), ih]
    · rw [List.dedup_cons_of_notMem ha]
      by_cases hk : a = k
      · rw [List.dedup_cons_of_mem (by simp [hk]), ih, List.filter_cons_of_neg (by simp [hk])]
      · rw [List.dedup_cons_of_notMem (by simp [ha, hk]), ih, List.filter_cons_of_pos (by simp [hk])]
        rfl

theorem byLastUse_concat (uses : List K) (k : K) :
    byLastUse (uses ++ [k]) = k :: (byLastUse uses).filter (· ≠ k) := by
  rw [byLastUse, dedup_concat, List.reverse_append, ← List.filter_reverse]
  rfl

/-- The list holds the stored keys in the order of their last use. -/
def InOrder (list : List (Nat × K)) (map : AList fun _ : K => V × Nat) (uses : List K) : Prop :=
  list.map (·.2) = (byLastUse uses).filter (· ∈ map)

namespace InOrder

variable {list : List (Nat × K)} {map : AList fun _ : K => V × Nat} {next : Nat} {k : K} {v v' : V}
  {n : Nat} {uses : List K}

theorem empty (uses : List K) : InOrder [] (∅ : AList fun _ : K => V × Nat) uses := by simp [InOrder]

theorem erase (h : InOrder list map uses) (hi : Indexed list map next)
    (hk : map.lookup k = some (v, n)) : InOrder (removeNode list n) (map.erase k) uses := by
  rw [InOrder, hi.keys_removeNode hk, h, List.filter_filter]
  refine List.filter_congr fun k' _ => ?_
  simp [AList.mem_erase]

theorem insert (h : InOrder list map uses) (hk : k ∉ map) :
    InOrder ((next, k) :: list) (map.insert k (v, next)) (uses ++ [k]) := by
  rw [InOrder, byLastUse_concat, List.map_cons, h, List.filter_cons_of_pos (by simp), List.filter_filter]
  congr 1
  refine List.filter_congr fun k' _ => ?_
  by_cases he : k' = k
  · simp [he, hk]
  · simp [he]

theorem touch (h : InOrder list map uses) (hi : Indexed list map next)
    (hk : map.lookup k = some (v, n)) :
    InOrder ((next, k) :: removeNode list n) (map.insert k (v', next)) (uses ++ [k]) := by
  rw [InOrder, byLastUse_concat, List.map_cons, hi.keys_removeNode hk, h,
    List.filter_cons_of_pos (by simp), List.filter_filter, List.filter_filter]
  congr 1
  refine List.filter_congr fun k' _ => ?_
  by_cases he : k' = k
  · simp [he]
  · simp [he]

end InOrder

/-! ## Totals -/

/-- The sum of the entries' sizes. -/
def total (size : V → Nat) (map : AList fun _ : K => V × Nat) : Nat :=
  (map.entries.map fun e => size e.2.1).sum

section

variable (size : V → Nat) {map : AList fun _ : K => V × Nat} {k : K} {v : V} {n : Nat}

omit [DecidableEq K] in
@[simp] theorem total_empty : total size (∅ : AList fun _ : K => V × Nat) = 0 := rfl

theorem total_erase (hk : map.lookup k = some (v, n)) :
    total size (map.erase k) + size v = total size map := by
  have hmem : k ∈ map.entries.keys :=
    AList.mem_keys.mp (AList.lookup_isSome.mp (by rw [hk]; rfl))
  obtain ⟨b, l₁, l₂, hnot, hentries, herase⟩ := List.exists_of_kerase hmem
  have hb : b = (v, n) := by
    have : (⟨k, b⟩ : Sigma fun _ : K => V × Nat) ∈ map.entries := by simp [hentries]
    exact Option.some.inj ((AList.mem_lookup_iff.mpr this).symm.trans hk)
  subst hb
  have he : (map.erase k).entries = l₁ ++ l₂ := herase
  rw [total, total, he, hentries]
  simp only [List.map_append, List.map_cons, List.sum_append, List.sum_cons]
  omega

theorem total_insert (hk : k ∉ map) :
    total size (map.insert k (v, n)) = total size map + size v := by
  rw [total, total, AList.entries_insert_of_notMem hk, List.map_cons, List.sum_cons, Nat.add_comm]

theorem total_replace (v' : V) (n' : Nat) (hk : map.lookup k = some (v, n)) :
    total size (map.insert k (v', n')) + size v = total size map + size v' := by
  have herase := total_erase size hk
  have hins : total size (map.insert k (v', n')) = size v' + total size (map.erase k) := by
    rw [total, total, AList.entries_insert, List.map_cons, List.sum_cons]
    rfl
  omega

/-- The total, added up along the list. -/
theorem total_eq_sum {list : List (Nat × K)} {next : Nat} (h : Indexed list map next) :
    total size map = (list.map fun p => (map.lookup p.2).elim 0 fun v => size v.1).sum := by
  have hperm : (list.map (·.2)).Perm map.keys :=
    (List.perm_ext_iff_of_nodup h.keys_nodup map.keys_nodup).mpr fun k => by
      rw [h.mem_keys, AList.mem_keys]
  have hentries : total size map = (map.keys.map fun k => (map.lookup k).elim 0 fun v => size v.1).sum := by
    rw [total, AList.keys, List.keys, List.map_map]
    congr 1
    refine List.map_congr_left fun e he => ?_
    have : map.lookup e.1 = some e.2 := AList.mem_lookup_iff.mpr he
    simp [this]
  rw [hentries, ← (hperm.map _).sum_eq, List.map_map]
  rfl

theorem le_total (hk : map.lookup k = some (v, n)) : size v ≤ total size map :=
  Nat.le.intro ((Nat.add_comm _ _).trans (total_erase size hk))

end

end Recency
