/-
Messages that end themselves, one after the other: what a reader that takes
one message after the other makes of a part of them.
-/
import Mathlib

namespace Messages

variable {α M V : Type*}

/-- Takes messages off the front of what has arrived, so many at most. -/
def readAll (take : List α → Option (V × List α)) : Nat → List α → List V × List α
  | 0, s => ([], s)
  | fuel + 1, s =>
    match take s with
    | none => ([], s)
    | some (v, rest) =>
      let (vs, rest) := readAll take fuel rest
      (v :: vs, rest)

/-- The reader takes each message that is written, whatever follows it, and
nothing before all of it has arrived. -/
structure Delimits (take : List α → Option (V × List α)) (write : M → List α) (view : M → V)
    (Proper : M → Prop) : Prop where
  whole : ∀ m, Proper m → ∀ t, take (write m ++ t) = some (view m, t)
  part : ∀ m, Proper m → ∀ p, p <+: write m → p ≠ write m → take p = none
  nothing : take [] = none

variable {take : List α → Option (V × List α)} {write : M → List α} {view : M → V} {Proper : M → Prop}

theorem Delimits.write_ne_nil (h : Delimits take write view Proper) {m : M} (hm : Proper m) : write m ≠ [] := by
  intro hnil
  have := h.whole m hm []
  rw [hnil, List.append_nil, h.nothing] at this
  cases this

/-- **What has arrived of some messages** is read as the first of them, in
order, and a rest that is not all of the next. -/
theorem Delimits.readAll_part (h : Delimits take write view Proper) {ms : List M} (hms : ∀ m ∈ ms, Proper m)
    {p : List α} (hp : p <+: (ms.map write).flatten) {fuel : Nat} (hfuel : p.length ≤ fuel) :
    ∃ k rest, readAll take fuel p = ((ms.take k).map view, rest) ∧
      p = ((ms.take k).map write).flatten ++ rest ∧
      (rest = [] ∨ ∃ m, ms[k]? = some m ∧ rest <+: write m ∧ rest ≠ write m) := by
  have stops : ∀ {p : List α} {fuel}, take p = none → readAll take fuel p = ([], p) := by
    intro p fuel hnone
    cases fuel with
    | zero => rfl
    | succ fuel => simp [readAll, hnone]
  induction ms generalizing p fuel with
  | nil =>
    obtain rfl := List.prefix_nil.mp hp
    exact ⟨0, [], stops h.nothing, rfl, .inl rfl⟩
  | cons m ms ih =>
    have hm := hms m List.mem_cons_self
    rw [List.map_cons, List.flatten_cons] at hp
    rcases List.prefix_or_prefix_of_prefix hp (List.prefix_append (write m) _) with hpart | ⟨p', rfl⟩
    · by_cases hall : p = write m
      · -- the message, and nothing of the next
        subst hall
        obtain ⟨fuel, rfl⟩ : ∃ fuel', fuel = fuel' + 1 :=
          ⟨fuel - 1, by have := List.length_pos_iff.mpr (h.write_ne_nil hm); omega⟩
        have htake := h.whole m hm []
        rw [List.append_nil] at htake
        exact ⟨1, [], by simp [readAll, htake, stops h.nothing], by simp, .inl rfl⟩
      · exact ⟨0, p, stops (h.part m hm p hpart hall), rfl, .inr ⟨m, rfl, hpart, hall⟩⟩
    · have hpos := List.length_pos_iff.mpr (h.write_ne_nil hm)
      rw [List.length_append] at hfuel
      obtain ⟨fuel, rfl⟩ : ∃ fuel', fuel = fuel' + 1 := ⟨fuel - 1, by omega⟩
      obtain ⟨k, rest, hread, heq, hrest⟩ := ih (fun m' hm' => hms m' (List.mem_cons_of_mem _ hm'))
        ((List.prefix_append_right_inj _).mp hp) (show p'.length ≤ fuel by omega)
      refine ⟨k + 1, rest, ?_, ?_, by simpa using hrest⟩
      · simp [readAll, h.whole m hm, hread]
      · rw [List.take_succ_cons, List.map_cons, List.flatten_cons, List.append_assoc, ← heq]

/-- **Messages that have all arrived** are all read. -/
theorem Delimits.readAll_flatten (h : Delimits take write view Proper) {ms : List M} (hms : ∀ m ∈ ms, Proper m)
    {fuel : Nat} (hfuel : (ms.map write).flatten.length ≤ fuel) :
    readAll take fuel (ms.map write).flatten = (ms.map view, []) := by
  induction ms generalizing fuel with
  | nil =>
    cases fuel with
    | zero => rfl
    | succ fuel => simp [readAll, h.nothing]
  | cons m ms ih =>
    have hm := hms m List.mem_cons_self
    have hpos := List.length_pos_iff.mpr (h.write_ne_nil hm)
    rw [List.map_cons, List.flatten_cons, List.length_append] at hfuel
    obtain ⟨fuel, rfl⟩ : ∃ fuel', fuel = fuel' + 1 := ⟨fuel - 1, by omega⟩
    have hrest := ih (fun m' hm' => hms m' (List.mem_cons_of_mem _ hm')) (show _ ≤ fuel by omega)
    simp [readAll, h.whole m hm, hrest]

end Messages
