/-
Regular expressions that are a row of literals, single characters and
repetitions, matched as `std::regex` does it: the leftmost match, each
repetition as long as what follows it can still match.
-/
import Mathlib

namespace Patterns

variable {α β : Type*}

inductive Piece (α : Type*)
  | text (w : List α)
  | star (p : α → Bool)
  | plus (p : α → Bool)

/-- What a piece stands for. -/
def Piece.Accepts : Piece α → List α → Prop
  | text w, span => span = w
  | star p, span => ∀ a ∈ span, p a = true
  | plus p, span => span ≠ [] ∧ ∀ a ∈ span, p a = true

/-! ## Repetitions -/

/-- The longest run of `p` after which `next` succeeds. -/
def repeated (p : α → Bool) (next : List α → Option β) : List α → Option (List α × β)
  | [] => (next []).map ([], ·)
  | a :: s =>
    if p a then
      match repeated p next s with
      | some (span, b) => some (a :: span, b)
      | none => (next (a :: s)).map ([], ·)
    else (next (a :: s)).map ([], ·)

theorem repeated_sound {p : α → Bool} {next : List α → Option β} {s span : List α} {b : β}
    (h : repeated p next s = some (span, b)) :
    (∀ a ∈ span, p a = true) ∧ ∃ rest, s = span ++ rest ∧ next rest = some b := by
  have stops : ∀ {s span : List α}, (next s).map ([], ·) = some (span, b) →
      (∀ a ∈ span, p a = true) ∧ ∃ rest, s = span ++ rest ∧ next rest = some b := by
    intro s span hs
    obtain ⟨b', hb, heq⟩ := Option.map_eq_some_iff.mp hs
    obtain ⟨rfl, rfl⟩ := Prod.mk.inj heq
    exact ⟨List.forall_mem_nil _, s, rfl, hb⟩
  induction s generalizing span with
  | nil => exact stops h
  | cons a s ih =>
    simp only [repeated] at h
    split at h
    · next ha =>
      split at h
      · next span' b' hrest =>
        obtain ⟨rfl, rfl⟩ := Prod.mk.inj (Option.some.inj h)
        obtain ⟨hspan, rest, rfl, hb⟩ := ih hrest
        exact ⟨List.forall_mem_cons.mpr ⟨ha, hspan⟩, rest, rfl, hb⟩
      · exact stops h
    · exact stops h

theorem repeated_isSome {p : α → Bool} {next : List α → Option β} {span rest : List α}
    (hspan : ∀ a ∈ span, p a = true) (hnext : (next rest).isSome) :
    (repeated p next (span ++ rest)).isSome := by
  induction span with
  | nil =>
    have stops : ((next rest).map fun b => (([] : List α), b)).isSome := by simpa using hnext
    cases rest with
    | nil => exact stops
    | cons a s =>
      simp only [List.nil_append, repeated]
      split
      · split
        · rfl
        · exact stops
      · exact stops
  | cons a span ih =>
    obtain ⟨ha, hspan⟩ := List.forall_mem_cons.mp hspan
    obtain ⟨⟨span', b⟩, hrest⟩ := Option.isSome_iff_exists.mp (ih hspan)
    simp [repeated, ha, hrest]

/-- With nothing to follow it a repetition takes all it can. -/
theorem repeated_some (p : α → Bool) (next : List α → β) (s : List α) :
    repeated p (fun s => some (next s)) s = some (s.takeWhile p, next (s.dropWhile p)) := by
  induction s with
  | nil => rfl
  | cons a s ih =>
    rw [repeated, ih]
    by_cases ha : p a = true
    · simp [ha]
    · simp [ha]

/-! ## Rows of pieces -/

variable [DecidableEq α]

/-- The match that begins here: what each piece stands for, and the rest. -/
def matchHere : List (Piece α) → List α → Option (List (List α) × List α)
  | [], s => some ([], s)
  | .text w :: ps, s =>
    if w.isPrefixOf s then (matchHere ps (s.drop w.length)).map fun (spans, rest) => (w :: spans, rest)
    else none
  | .star p :: ps, s => (repeated p (matchHere ps) s).map fun (span, spans, rest) => (span :: spans, rest)
  | .plus _ :: _, [] => none
  | .plus p :: ps, a :: s =>
    if p a then (repeated p (matchHere ps) s).map fun (span, spans, rest) => ((a :: span) :: spans, rest)
    else none

/-- The leftmost match: what is before it, and the match. -/
def search (ps : List (Piece α)) : List α → Option (List α × List (List α) × List α)
  | [] => (matchHere ps []).map ([], ·)
  | a :: s =>
    match matchHere ps (a :: s) with
    | some m => some ([], m)
    | none => (search ps s).map fun (before, m) => (a :: before, m)

theorem matchHere_sound {ps : List (Piece α)} {s rest : List α} {spans : List (List α)}
    (h : matchHere ps s = some (spans, rest)) :
    List.Forall₂ Piece.Accepts ps spans ∧ s = spans.flatten ++ rest := by
  induction ps generalizing s spans with
  | nil =>
    obtain ⟨rfl, rfl⟩ := Prod.mk.inj (Option.some.inj h)
    exact ⟨.nil, rfl⟩
  | cons piece ps ih =>
    cases piece with
    | text w =>
      simp only [matchHere] at h
      split at h
      · next hw =>
        obtain ⟨t, rfl⟩ := List.isPrefixOf_iff_prefix.mp hw
        obtain ⟨⟨spans', rest'⟩, hm, heq⟩ := Option.map_eq_some_iff.mp h
        obtain ⟨rfl, rfl⟩ := Prod.mk.inj heq
        rw [List.drop_left] at hm
        obtain ⟨hall, rfl⟩ := ih hm
        exact ⟨.cons rfl hall, by simp⟩
      · cases h
    | star p =>
      obtain ⟨⟨span, spans', rest'⟩, hm, heq⟩ := Option.map_eq_some_iff.mp h
      obtain ⟨rfl, rfl⟩ := Prod.mk.inj heq
      obtain ⟨hspan, t, rfl, hnext⟩ := repeated_sound hm
      obtain ⟨hall, rfl⟩ := ih hnext
      exact ⟨.cons hspan hall, by simp⟩
    | plus p =>
      cases s with
      | nil => cases h
      | cons a s =>
        simp only [matchHere] at h
        split at h
        · next ha =>
          obtain ⟨⟨span, spans', rest'⟩, hm, heq⟩ := Option.map_eq_some_iff.mp h
          obtain ⟨rfl, rfl⟩ := Prod.mk.inj heq
          obtain ⟨hspan, t, rfl, hnext⟩ := repeated_sound hm
          obtain ⟨hall, rfl⟩ := ih hnext
          exact ⟨.cons ⟨List.cons_ne_nil a span, List.forall_mem_cons.mpr ⟨ha, hspan⟩⟩ hall, by simp⟩
        · cases h

/-- **Whatever is a match is found to be one**. -/
theorem matchHere_isSome {ps : List (Piece α)} {spans : List (List α)} (h : List.Forall₂ Piece.Accepts ps spans)
    (rest : List α) : (matchHere ps (spans.flatten ++ rest)).isSome := by
  induction h with
  | nil => rfl
  | @cons piece span ps spans hpiece _ ih =>
    rw [List.flatten_cons, List.append_assoc]
    cases piece with
    | text w =>
      obtain rfl : span = w := hpiece
      simpa [matchHere] using ih
    | star p => simpa [matchHere] using repeated_isSome hpiece ih
    | plus p =>
      obtain ⟨hne, hspan⟩ := hpiece
      obtain ⟨a, span, rfl⟩ := List.exists_cons_of_ne_nil hne
      obtain ⟨ha, hspan⟩ := List.forall_mem_cons.mp hspan
      simpa [matchHere, ha] using repeated_isSome hspan ih

/-- A repetition at the end takes all it can. -/
theorem matchHere_last (ps : List (Piece α)) {p : α → Bool} {s rest : List α} {spans : List (List α)}
    (h : matchHere (ps ++ [.plus p]) s = some (spans, rest)) : ∀ a ∈ rest.head?, p a = false := by
  induction ps generalizing s spans with
  | nil =>
    cases s with
    | nil => cases h
    | cons a s =>
      simp only [List.nil_append, matchHere] at h
      split at h
      · obtain ⟨⟨span, spans', rest'⟩, hm, heq⟩ := Option.map_eq_some_iff.mp h
        have hall := (repeated_some p (fun s => (([] : List (List α)), s)) s).symm.trans hm
        obtain ⟨-, heq'⟩ := Prod.mk.inj (Option.some.inj hall)
        obtain ⟨-, rfl⟩ := Prod.mk.inj heq'
        obtain ⟨-, rfl⟩ := Prod.mk.inj heq
        intro b hb
        have hnot := List.head?_dropWhile_not p s
        rw [Option.mem_def.mp hb] at hnot
        simpa using hnot
      · cases h
  | cons piece ps ih =>
    cases piece with
    | text w =>
      simp only [List.cons_append, matchHere] at h
      split at h
      · obtain ⟨⟨spans', rest'⟩, hm, heq⟩ := Option.map_eq_some_iff.mp h
        obtain ⟨-, rfl⟩ := Prod.mk.inj heq
        exact ih hm
      · cases h
    | star q =>
      obtain ⟨⟨span, spans', rest'⟩, hm, heq⟩ := Option.map_eq_some_iff.mp h
      obtain ⟨-, rfl⟩ := Prod.mk.inj heq
      obtain ⟨-, t, -, hnext⟩ := repeated_sound hm
      exact ih hnext
    | plus q =>
      cases s with
      | nil => cases h
      | cons a s =>
        simp only [List.cons_append, matchHere] at h
        split at h
        · obtain ⟨⟨span, spans', rest'⟩, hm, heq⟩ := Option.map_eq_some_iff.mp h
          obtain ⟨-, rfl⟩ := Prod.mk.inj heq
          obtain ⟨-, t, -, hnext⟩ := repeated_sound hm
          exact ih hnext
        · cases h

/-- What is found is a match, and none begins before it. -/
theorem search_sound {ps : List (Piece α)} {s before rest : List α} {spans : List (List α)}
    (h : search ps s = some (before, spans, rest)) :
    ∃ t, s = before ++ t ∧ matchHere ps t = some (spans, rest) ∧
      ∀ before' t', s = before' ++ t' → before'.length < before.length → matchHere ps t' = none := by
  induction s generalizing before with
  | nil =>
    obtain ⟨m, hm, heq⟩ := Option.map_eq_some_iff.mp h
    obtain ⟨rfl, rfl⟩ := Prod.mk.inj heq
    exact ⟨[], rfl, hm, fun _ _ _ hlt => absurd hlt (Nat.not_lt_zero _)⟩
  | cons a s ih =>
    simp only [search] at h
    split at h
    · next m hm =>
      obtain ⟨rfl, rfl⟩ := Prod.mk.inj (Option.some.inj h)
      exact ⟨a :: s, rfl, hm, fun _ _ _ hlt => absurd hlt (Nat.not_lt_zero _)⟩
    · next hnone =>
      obtain ⟨⟨before₁, m⟩, hm, heq⟩ := Option.map_eq_some_iff.mp h
      obtain ⟨rfl, rfl⟩ := Prod.mk.inj heq
      obtain ⟨t, rfl, hmatch, hfirst⟩ := ih hm
      refine ⟨t, rfl, hmatch, fun before' t' heq hlt => ?_⟩
      cases before' with
      | nil =>
        obtain rfl : a :: (before₁ ++ t) = t' := heq
        exact hnone
      | cons b before' =>
        obtain ⟨-, heq⟩ := List.cons.inj heq
        exact hfirst before' t' heq (Nat.lt_of_succ_lt_succ hlt)

/-- Where nothing is found there is no match. -/
theorem search_eq_none {ps : List (Piece α)} {s : List α} (h : search ps s = none) :
    ∀ before t, s = before ++ t → matchHere ps t = none := by
  induction s with
  | nil =>
    intro before t heq
    obtain ⟨rfl, rfl⟩ := List.append_eq_nil_iff.mp heq.symm
    exact Option.map_eq_none_iff.mp h
  | cons a s ih =>
    simp only [search] at h
    split at h
    · cases h
    · next hnone =>
      intro before t heq
      cases before with
      | nil =>
        obtain rfl : a :: s = t := heq
        exact hnone
      | cons b before =>
        obtain ⟨-, heq⟩ := List.cons.inj heq
        exact ih (Option.map_eq_none_iff.mp h) before t heq

omit [DecidableEq α] in
/-- Where a run ends before a symbol that cannot go on with it, it is the only one. -/
theorem append_inj_of_run {p : α → Bool} {w w' u u' : List α} (hw : ∀ a ∈ w, p a = true)
    (hw' : ∀ a ∈ w', p a = true) (hu : ∀ a ∈ u.head?, p a = false) (hu' : ∀ a ∈ u'.head?, p a = false)
    (h : w ++ u = w' ++ u') : w = w' ∧ u = u' := by
  have stops : ∀ {u : List α}, (∀ a ∈ u.head?, p a = false) → u.takeWhile p = [] := by
    intro u hu
    cases u with
    | nil => rfl
    | cons a u => simp [hu a rfl]
  have htake := congrArg (List.takeWhile p) h
  rw [List.takeWhile_append_of_pos hw, List.takeWhile_append_of_pos hw', stops hu, stops hu', List.append_nil,
    List.append_nil] at htake
  exact ⟨htake, List.append_cancel_left (htake ▸ h)⟩

end Patterns
