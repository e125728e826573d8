/-
Resources that are opened and closed, and kept in between either on a shelf
all can see or in the hands of one holder, who alone may close or shelve
them. `Kept` is the invariant; there is one rule for each way a resource
changes hands. `Covered` says that nothing leaks: what is open is kept
somewhere.
-/
import Mathlib

namespace Custody

variable {R Θ : Type*}

/-- What is shelved or in a holder's hands is open, and no resource is kept
in two places. -/
structure Kept (isOpen shelved : R → Prop) (hands : Θ → List R) : Prop where
  shelved_open : ∀ r, shelved r → isOpen r
  hands_open : ∀ t, ∀ r ∈ hands t, isOpen r
  not_shelved : ∀ t, ∀ r ∈ hands t, ¬ shelved r
  unique : ∀ t t' r, r ∈ hands t → r ∈ hands t' → t = t'

/-- Where a resource is kept after `t` has got hold of `r`. -/
theorem gain {hands hands' : Θ → List R} {t : Θ} {r : R} (ht : hands' t = [r])
    (hf : ∀ t', t' ≠ t → hands' t' = hands t') :
    ∀ t' r', r' ∈ hands' t' → (t' = t ∧ r' = r) ∨ r' ∈ hands t' := by
  intro t' r' hr'
  by_cases hte : t' = t
  · rw [hte, ht] at hr'
    exact .inl ⟨hte, List.mem_singleton.mp hr'⟩
  · exact .inr (hf t' hte ▸ hr')

namespace Kept

variable {isOpen shelved isOpen' shelved' : R → Prop} {hands hands' : Θ → List R} {t : Θ} {r : R}

/-- A holder opens a resource that was closed. -/
theorem take (h : Kept isOpen shelved hands) (hr : ¬ isOpen r)
    (ho : ∀ r', isOpen' r' ↔ r' = r ∨ isOpen r') (ht : hands' t = [r])
    (hf : ∀ t', t' ≠ t → hands' t' = hands t') : Kept isOpen' shelved hands' := by
  refine ⟨fun r' hr' => (ho r').mpr (.inr (h.shelved_open r' hr')), fun t' r' hr' => ?_,
    fun t' r' hr' hs => ?_, fun t₁ t₂ r' h₁ h₂ => ?_⟩
  · rcases gain ht hf t' r' hr' with ⟨-, rfl⟩ | hm
    · exact (ho r').mpr (.inl rfl)
    · exact (ho r').mpr (.inr (h.hands_open t' r' hm))
  · rcases gain ht hf t' r' hr' with ⟨-, rfl⟩ | hm
    · exact hr (h.shelved_open r' hs)
    · exact h.not_shelved t' r' hm hs
  · rcases gain ht hf t₁ r' h₁ with ⟨e₁, rfl⟩ | m₁ <;>
      rcases gain ht hf t₂ r' h₂ with ⟨e₂, e⟩ | m₂
    · exact e₁.trans e₂.symm
    · exact absurd (h.hands_open t₂ r' m₂) hr
    · exact absurd (h.hands_open t₁ r' m₁) (e ▸ hr)
    · exact h.unique t₁ t₂ r' m₁ m₂

/-- The holder whose hands become empty. -/
theorem release (h : Kept isOpen shelved hands) (ht : hands t = [r]) (ht' : hands' t = [])
    (hf : ∀ t', t' ≠ t → hands' t' = hands t') :
    ∀ t', ∀ r' ∈ hands' t', r' ∈ hands t' ∧ r' ≠ r := by
  intro t' r' hr'
  by_cases hte : t' = t
  · rw [hte, ht'] at hr'
    cases hr'
  · have hm : r' ∈ hands t' := hf t' hte ▸ hr'
    refine ⟨hm, ?_⟩
    rintro rfl
    exact hte (h.unique t' t r' hm (by simp [ht]))

/-- A holder shelves what it holds. -/
theorem shelve (h : Kept isOpen shelved hands) (hs : ∀ r', shelved' r' ↔ r' = r ∨ shelved r')
    (ht : hands t = [r]) (ht' : hands' t = []) (hf : ∀ t', t' ≠ t → hands' t' = hands t') :
    Kept isOpen shelved' hands' := by
  have hold := h.release ht ht' hf
  refine ⟨fun r' hr' => ?_, fun t' r' hr' => h.hands_open t' r' (hold t' r' hr').1,
    fun t' r' hr' hsh => ?_, fun t₁ t₂ r' h₁ h₂ => h.unique t₁ t₂ r' (hold _ _ h₁).1 (hold _ _ h₂).1⟩
  · rcases (hs r').mp hr' with rfl | hr'
    · exact h.hands_open t r' (by simp [ht])
    · exact h.shelved_open r' hr'
  · obtain ⟨hm, hne⟩ := hold t' r' hr'
    rcases (hs r').mp hsh with e | hsh
    · exact hne e
    · exact h.not_shelved t' r' hm hsh

/-- A holder takes a resource from the shelf. -/
theorem unshelve (h : Kept isOpen shelved hands) (hr : shelved r)
    (hs : ∀ r', shelved' r' ↔ r' ≠ r ∧ shelved r') (ht : hands' t = [r])
    (hf : ∀ t', t' ≠ t → hands' t' = hands t') : Kept isOpen shelved' hands' := by
  refine ⟨fun r' hr' => h.shelved_open r' ((hs r').mp hr').2, fun t' r' hr' => ?_,
    fun t' r' hr' hsh => ?_, fun t₁ t₂ r' h₁ h₂ => ?_⟩
  · rcases gain ht hf t' r' hr' with ⟨-, rfl⟩ | hm
    · exact h.shelved_open r' hr
    · exact h.hands_open t' r' hm
  · obtain ⟨hne, hsh⟩ := (hs r').mp hsh
    rcases gain ht hf t' r' hr' with ⟨-, e⟩ | hm
    · exact hne e
    · exact h.not_shelved t' r' hm hsh
  · rcases gain ht hf t₁ r' h₁ with ⟨e₁, rfl⟩ | m₁ <;>
      rcases gain ht hf t₂ r' h₂ with ⟨e₂, e⟩ | m₂
    · exact e₁.trans e₂.symm
    · exact absurd hr (h.not_shelved t₂ r' m₂)
    · exact absurd (e ▸ hr) (h.not_shelved t₁ r' m₁)
    · exact h.unique t₁ t₂ r' m₁ m₂

/-- A holder closes what it holds. -/
theorem drop (h : Kept isOpen shelved hands) (ho : ∀ r', isOpen' r' ↔ r' ≠ r ∧ isOpen r')
    (ht : hands t = [r]) (ht' : hands' t = []) (hf : ∀ t', t' ≠ t → hands' t' = hands t') :
    Kept isOpen' shelved hands' := by
  have hold := h.release ht ht' hf
  refine ⟨fun r' hr' => (ho r').mpr ⟨?_, h.shelved_open r' hr'⟩, fun t' r' hr' => ?_,
    fun t' r' hr' => h.not_shelved t' r' (hold t' r' hr').1,
    fun t₁ t₂ r' h₁ h₂ => h.unique t₁ t₂ r' (hold _ _ h₁).1 (hold _ _ h₂).1⟩
  · rintro rfl
    exact h.not_shelved t r' (by simp [ht]) hr'
  · obtain ⟨hm, hne⟩ := hold t' r' hr'
    exact (ho r').mpr ⟨hne, h.hands_open t' r' hm⟩

end Kept

/-- What is open is shelved or in a holder's hands. -/
def Covered (isOpen shelved : R → Prop) (hands : Θ → List R) : Prop :=
  ∀ r, isOpen r → shelved r ∨ ∃ t, r ∈ hands t

/-- A step that moves no resource but `r`, which it closes or leaves with
somebody. -/
theorem Covered.move {isOpen shelved isOpen' shelved' : R → Prop} {hands hands' : Θ → List R}
    (h : Covered isOpen shelved hands) (r : R)
    (hr : isOpen' r → shelved' r ∨ ∃ t, r ∈ hands' t)
    (ho : ∀ r', r' ≠ r → isOpen' r' → isOpen r')
    (hs : ∀ r', r' ≠ r → shelved r' → shelved' r')
    (hh : ∀ t r', r' ≠ r → r' ∈ hands t → r' ∈ hands' t) : Covered isOpen' shelved' hands' := by
  intro r' hopen
  by_cases hne : r' = r
  · exact hne ▸ hr (hne ▸ hopen)
  · rcases h r' (ho r' hne hopen) with hshelf | ⟨t, ht⟩
    · exact .inl (hs r' hne hshelf)
    · exact .inr ⟨t, hh t r' hne ht⟩

/-- A mark is on what is shelved and on what a holder has in one of its
hands, and on nothing else. -/
def Marked (marked shelved : R → Prop) (held : Θ → List R) : Prop :=
  ∀ r, marked r ↔ shelved r ∨ ∃ t, r ∈ held t

/-- A step that concerns no resource but `r`, taken by `t`. -/
theorem Marked.move {marked shelved marked' shelved' : R → Prop} {held held' : Θ → List R} {t : Θ}
    (h : Marked marked shelved held) (r : R) (hr : marked' r ↔ shelved' r ∨ ∃ t, r ∈ held' t)
    (hm : ∀ r', r' ≠ r → (marked' r' ↔ marked r')) (hs : ∀ r', r' ≠ r → (shelved' r' ↔ shelved r'))
    (ht : ∀ r', r' ≠ r → (r' ∈ held' t ↔ r' ∈ held t)) (hf : ∀ t', t' ≠ t → held' t' = held t') :
    Marked marked' shelved' held' := by
  intro r'
  by_cases hne : r' = r
  · exact hne ▸ hr
  have hheld : ∀ t', r' ∈ held' t' ↔ r' ∈ held t' := by
    intro t'
    by_cases hte : t' = t
    · rw [hte]
      exact ht r' hne
    · rw [hf t' hte]
  rw [hm r' hne, hs r' hne, h r']
  simp only [hheld]

/-- What a holder keeps out of its marked hands is not marked. -/
theorem Marked.not_marked {isOpen marked shelved : R → Prop} {hands held : Θ → List R} {t : Θ} {r : R}
    (h : Marked marked shelved held) (hk : Kept isOpen shelved hands)
    (hsub : ∀ t, ∀ r ∈ held t, r ∈ hands t) (hr : r ∈ hands t) (hnot : r ∉ held t) : ¬ marked r := by
  intro hm
  rcases (h r).mp hm with hs | ⟨t', ht'⟩
  · exact hk.not_shelved t r hr hs
  · obtain rfl := hk.unique t' t r (hsub t' r ht') hr
    exact hnot ht'

end Custody
