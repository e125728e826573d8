/-
A table whose entries are made when their key is first asked for and can be
taken away again. An entry is numbered as it is made, so that it differs from
a later one with the same key. Two uses are of one entry if and only if they
have one key and the entry was not taken away in between.
-/
import Mathlib

namespace Entries

inductive Event (α : Type)
  | used (x : α) (entry : Nat)
  | removed (entry : Nat)
  deriving DecidableEq

/-- The keys that have an entry, the number of each, and what has happened,
latest first. -/
structure Table (α κ : Type) where
  live : List κ
  number : κ → Nat
  next : Nat
  events : List (Event α)

variable {α κ : Type} {key : α → κ} {t : Table α κ}

namespace Table

def empty : Table α κ := ⟨[], fun _ => 0, 0, []⟩

/-- The entries of the keys that are not kept. -/
def dropped (t : Table α κ) (keep : κ → Bool) : List Nat := (t.live.filter (!keep ·)).map t.number

/-- They are taken away. -/
def sweep (t : Table α κ) (keep : κ → Bool) : Table α κ :=
  { t with live := t.live.filter keep, events := (t.dropped keep).map .removed ++ t.events }

/-- The entry of a key is used, and made if there is none. -/
def use [DecidableEq κ] (key : α → κ) (t : Table α κ) (x : α) : Table α κ :=
  if key x ∈ t.live then { t with events := .used x (t.number (key x)) :: t.events }
  else
    { live := key x :: t.live
      number := Function.update t.number (key x) t.next
      next := t.next + 1
      events := .used x t.next :: t.events }

/-- What is true of every table that has come about by these two: an entry
that was used is there under its key until it is taken away. -/
structure Sound (key : α → κ) (t : Table α κ) : Prop where
  below : ∀ k ∈ t.live, t.number k < t.next
  used_below : ∀ x n, .used x n ∈ t.events → n < t.next
  injective : ∀ k ∈ t.live, ∀ k' ∈ t.live, t.number k = t.number k' → k = k'
  kept : ∀ after x n before, t.events = after ++ .used x n :: before →
    ∀ k, (k ∈ t.live ∧ t.number k = n) ↔ (k = key x ∧ .removed n ∉ after)
  same : ∀ after y m between x n before, t.events = after ++ .used y m :: (between ++ .used x n :: before) →
    (m = n ↔ key y = key x ∧ .removed n ∉ between)

theorem sound_empty : Sound key (empty : Table α κ) where
  below := List.forall_mem_nil _
  used_below _ _ h := absurd h List.not_mem_nil
  injective := List.forall_mem_nil _
  kept _ _ _ _ h := absurd h.symm (List.append_ne_nil_of_right_ne_nil _ (List.cons_ne_nil _ _))
  same _ _ _ _ _ _ _ h := absurd h.symm (List.append_ne_nil_of_right_ne_nil _ (List.cons_ne_nil _ _))

/-- A use is not one of the removals before it. -/
theorem append_eq_append_used {removals : List Nat} {events after before : List (Event α)} {x : α} {n : Nat}
    (h : removals.map .removed ++ events = after ++ .used x n :: before) :
    ∃ after', after = removals.map .removed ++ after' ∧ events = after' ++ .used x n :: before := by
  rcases List.append_eq_append_iff.mp h with ⟨rest, hafter, hevents⟩ | ⟨rest, hmap, hrest⟩
  · exact ⟨rest, hafter, hevents⟩
  · cases rest with
    | nil => exact ⟨[], by simpa using hmap.symm, by simpa using hrest.symm⟩
    | cons e rest =>
      obtain ⟨rfl, -⟩ := List.cons.inj hrest
      have hmem : Event.used x n ∈ removals.map Event.removed := by
        rw [hmap]
        simp
      obtain ⟨_, -, heq⟩ := List.mem_map.mp hmem
      cases heq

theorem mem_dropped {keep : κ → Bool} {n : Nat} :
    n ∈ t.dropped keep ↔ ∃ k ∈ t.live, keep k = false ∧ t.number k = n := by
  simp [dropped, and_assoc]

theorem mem_live_sweep {keep : κ → Bool} {k : κ} : k ∈ (t.sweep keep).live ↔ k ∈ t.live ∧ keep k = true :=
  List.mem_filter

theorem removed_mem_map {n : Nat} {removals : List Nat} :
    (Event.removed n : Event α) ∈ removals.map .removed ↔ n ∈ removals := by
  simp

theorem Sound.sweep (h : Sound key t) (keep : κ → Bool) : Sound key (t.sweep keep) where
  below k hk := h.below k (List.mem_of_mem_filter hk)
  used_below x n hmem := by
    rcases List.mem_append.mp hmem with hmem | hmem
    · obtain ⟨_, -, heq⟩ := List.mem_map.mp hmem
      cases heq
    · exact h.used_below x n hmem
  injective k hk k' hk' := h.injective k (List.mem_of_mem_filter hk) k' (List.mem_of_mem_filter hk')
  kept after x n before hevents k := by
    obtain ⟨after, rfl, hrest⟩ := append_eq_append_used hevents
    have hold := h.kept after x n before hrest k
    rw [List.mem_append, removed_mem_map, mem_dropped]
    constructor
    · rintro ⟨hk, hn⟩
      obtain ⟨hk, hkeep⟩ := List.mem_filter.mp hk
      obtain ⟨heq, hafter⟩ := hold.mp ⟨hk, hn⟩
      refine ⟨heq, not_or.mpr ⟨?_, hafter⟩⟩
      rintro ⟨k', hk', hdrop, hn'⟩
      obtain rfl := h.injective k hk k' hk' (hn.trans hn'.symm)
      exact Bool.false_ne_true (hdrop.symm.trans hkeep)
    · rintro ⟨heq, hafter⟩
      obtain ⟨hdrop, hafter⟩ := not_or.mp hafter
      obtain ⟨hk, hn⟩ := hold.mpr ⟨heq, hafter⟩
      refine ⟨List.mem_filter.mpr ⟨hk, ?_⟩, hn⟩
      by_contra hkeep
      exact hdrop ⟨k, hk, Bool.eq_false_of_not_eq_true hkeep, hn⟩
  same after y m between x n before hevents := by
    obtain ⟨after, -, hrest⟩ := append_eq_append_used hevents
    exact h.same after y m between x n before hrest

variable [DecidableEq κ]

theorem use_of_mem {x : α} (hx : key x ∈ t.live) :
    t.use key x = { t with events := .used x (t.number (key x)) :: t.events } := if_pos hx

theorem use_of_not_mem {x : α} (hx : key x ∉ t.live) :
    t.use key x =
      { live := key x :: t.live, number := Function.update t.number (key x) t.next, next := t.next + 1,
        events := .used x t.next :: t.events } := if_neg hx

theorem Sound.use_of_mem (h : Sound key t) {x : α} (hx : key x ∈ t.live) : Sound key (t.use key x) := by
  rw [Table.use_of_mem hx]
  refine ⟨h.below, fun y n hmem => ?_, h.injective, fun after y n before hevents k => ?_,
    fun after y m between z n before hevents => ?_⟩
  · rcases List.mem_cons.mp hmem with heq | hmem
    · cases heq
      exact h.below _ hx
    · exact h.used_below y n hmem
  · cases after with
    | nil =>
      obtain ⟨heq, rfl⟩ := List.cons.inj hevents
      cases heq
      constructor
      · rintro ⟨hk, hn⟩
        exact ⟨h.injective k hk _ hx hn, List.not_mem_nil⟩
      · rintro ⟨rfl, -⟩
        exact ⟨hx, rfl⟩
    | cons e after =>
      obtain ⟨rfl, hrest⟩ := List.cons.inj hevents
      rw [h.kept after y n before hrest k, List.mem_cons]
      simp
  · cases after with
    | nil =>
      obtain ⟨heq, hrest⟩ := List.cons.inj hevents
      cases heq
      rw [← h.kept between z n before hrest (key x)]
      exact (and_iff_right hx).symm
    | cons e after => exact h.same after y m between z n before (List.cons.inj hevents).2

theorem Sound.use_of_not_mem (h : Sound key t) {x : α} (hx : key x ∉ t.live) : Sound key (t.use key x) := by
  have huse := Table.use_of_not_mem hx
  have hlive : ∀ k, k ∈ (t.use key x).live ↔ k = key x ∨ k ∈ t.live := fun k => by rw [huse, List.mem_cons]
  have hnumber : (t.use key x).number = Function.update t.number (key x) t.next := by rw [huse]
  have hself : (t.use key x).number (key x) = t.next := by rw [hnumber, Function.update_self]
  have hold : ∀ {k}, k ∈ t.live → (t.use key x).number k = t.number k := by
    intro k hk
    have hne : k ≠ key x := fun heq => hx (heq ▸ hk)
    rw [hnumber, Function.update_of_ne hne]
  have hnext : (t.use key x).next = t.next + 1 := by rw [huse]
  have hevents : (t.use key x).events = .used x t.next :: t.events := by rw [huse]
  generalize t.use key x = t' at *
  -- no entry used so far has the number of the new one
  have hlt : ∀ {after y n before}, t.events = after ++ .used y n :: before → n < t.next := fun heq =>
    h.used_below _ _ (heq ▸ List.mem_append_right _ List.mem_cons_self)
  refine ⟨fun k hk => ?_, fun y n hmem => ?_, fun k hk k' hk' heq => ?_, fun after y n before heq k => ?_,
    fun after y m between z n before heq => ?_⟩
  · rw [hnext]
    rcases (hlive k).mp hk with rfl | hk
    · omega
    · have hbelow := h.below k hk
      rw [hold hk]
      omega
  · rw [hevents] at hmem
    rw [hnext]
    rcases List.mem_cons.mp hmem with heq | hmem
    · cases heq
      omega
    · have hbelow := h.used_below y n hmem
      omega
  · rcases (hlive k).mp hk with rfl | hk <;> rcases (hlive k').mp hk' with rfl | hk'
    · rfl
    · rw [hself, hold hk'] at heq
      exact absurd heq (h.below k' hk').ne'
    · rw [hself, hold hk] at heq
      exact absurd heq (h.below k hk).ne
    · rw [hold hk, hold hk'] at heq
      exact h.injective k hk k' hk' heq
  · rw [hevents] at heq
    cases after with
    | nil =>
      obtain ⟨hused, -⟩ := List.cons.inj heq
      cases hused
      constructor
      · rintro ⟨hk, hn⟩
        rcases (hlive k).mp hk with rfl | hk
        · exact ⟨rfl, List.not_mem_nil⟩
        · rw [hold hk] at hn
          exact absurd hn (h.below k hk).ne
      · rintro ⟨rfl, -⟩
        exact ⟨(hlive _).mpr (.inl rfl), hself⟩
    | cons e after =>
      obtain ⟨rfl, hrest⟩ := List.cons.inj heq
      have hkept := h.kept after y n before hrest k
      have hmem : (.removed n : Event α) ∉ .used x t.next :: after ↔ .removed n ∉ after := by simp
      rw [hmem, ← hkept]
      constructor
      · rintro ⟨hk, hn⟩
        rcases (hlive k).mp hk with rfl | hk
        · rw [hself] at hn
          exact absurd hn (hlt hrest).ne'
        · exact ⟨hk, hold hk ▸ hn⟩
      · rintro ⟨hk, hn⟩
        exact ⟨(hlive k).mpr (.inr hk), (hold hk).trans hn⟩
  · rw [hevents] at heq
    cases after with
    | nil =>
      obtain ⟨hused, hrest⟩ := List.cons.inj heq
      cases hused
      rw [← h.kept between z n before hrest (key x)]
      exact iff_of_false (hlt hrest).ne' fun hk => hx hk.1
    | cons e after => exact h.same after y m between z n before (List.cons.inj heq).2

theorem Sound.use (h : Sound key t) (x : α) : Sound key (t.use key x) := by
  by_cases hx : key x ∈ t.live
  · exact h.use_of_mem hx
  · exact h.use_of_not_mem hx

theorem mem_live_use {x : α} {k : κ} : k ∈ (t.use key x).live ↔ k = key x ∨ k ∈ t.live := by
  by_cases hx : key x ∈ t.live
  · rw [Table.use_of_mem hx]
    exact ⟨.inr, fun h => h.elim (fun heq => heq ▸ hx) id⟩
  · rw [Table.use_of_not_mem hx, List.mem_cons]

end Table

end Entries
