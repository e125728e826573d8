/-
Code of one thread that guards its sections with mutexes it cannot take twice.
A guard lets its mutex go where its scope is left, by a return or by an
exception; a thread that asks for a mutex it holds stops there for good. The
rules of pre- and postconditions prove where that happens and where not.
-/
import Mathlib

namespace Guards

/-- A thread: the mutexes it holds and the data it works on. -/
structure Thread (ι σ : Type) where
  held : List ι
  data : σ

/-- Why code stops before its end: an exception, or a wait for a mutex that the
thread holds itself. -/
inductive Stop (ι : Type)
  | threw
  | blocked (m : ι)
  deriving DecidableEq

/-- Code with a result in `α`. An exception does not undo what was done. -/
abbrev Code (ι σ α : Type) := ExceptT (Stop ι) (StateM (Thread ι σ)) α

variable {ι σ α β κ : Type}

def throws : Code ι σ α := throw .threw

def data : Code ι σ σ := return (← get).data

def update (f : σ → σ) : Code ι σ Unit := modify fun t => { t with data := f t.data }

/-- `if (p) { body }` -/
def onlyIf (p : Bool) (body : Code ι σ Unit) : Code ι σ Unit := if p then body else pure ()

/-- `body` in the scope of a `lock_guard` of `m`. -/
def guarded [DecidableEq ι] (m : ι) (body : Code ι σ α) : Code ι σ α := fun t =>
  if m ∈ t.held then (.error (.blocked m), t)
  else match body { t with held := m :: t.held } with
    | (.error (.blocked k), t') => (.error (.blocked k), t')
    | (r, t') => (r, { t' with held := t'.held.erase m })

/-- `try { body } catch { handler }` -/
def attempt (body handler : Code ι σ α) : Code ι σ α := fun t =>
  match body t with
  | (.error .threw, t') => handler t'
  | (r, t') => (r, t')

/-- The end of code that did not block: it holds the mutexes `held`, and `Q` is
true where it returned, `E` where it threw. -/
inductive Ends (held : List ι) (Q : α → σ → Prop) (E : σ → Prop) :
    Except (Stop ι) α × Thread ι σ → Prop
  | returned {a s} (h : Q a s) : Ends held Q E (.ok a, ⟨held, s⟩)
  | threw {s} (h : E s) : Ends held Q E (.error .threw, ⟨held, s⟩)

/-- From data with `P`, with the mutexes `held` in hand, the code does not
block, and it holds the same ones at its end. -/
def Runs (held : List ι) (P : σ → Prop) (c : Code ι σ α) (Q : α → σ → Prop) (E : σ → Prop) : Prop :=
  ∀ s, P s → Ends held Q E (c ⟨held, s⟩)

/-- Whatever the data are, the code does not block. -/
def Quiet (held : List ι) (c : Code ι σ α) : Prop :=
  Runs held (fun _ => True) c (fun _ _ => True) fun _ => True

/-- From data with `P`, the code comes to ask for `m`, which the thread holds. -/
def Blocks (held : List ι) (P : σ → Prop) (c : Code ι σ α) (m : ι) : Prop :=
  ∀ s, P s → ∃ t, c ⟨held, s⟩ = (.error (.blocked m), t)

section Rules

variable {held : List ι} {P P' : σ → Prop} {Q Q' : α → σ → Prop} {E F : σ → Prop} {c : Code ι σ α}
  {k : α → Code ι σ β} {R : β → σ → Prop} {m : ι}

theorem Ends.mono {r} (h : Ends held Q E r) (hQ : ∀ a s, Q a s → Q' a s) (hE : ∀ s, E s → F s) :
    Ends held Q' F r := by
  cases h with
  | returned h => exact .returned (hQ _ _ h)
  | threw h => exact .threw (hE _ h)

theorem Runs.mono (h : Runs held P c Q E) (hP : ∀ s, P' s → P s) (hQ : ∀ a s, Q a s → Q' a s)
    (hE : ∀ s, E s → F s) : Runs held P' c Q' F :=
  fun s hs => (h s (hP s hs)).mono hQ hE

theorem Blocks.mono (h : Blocks held P c m) (hP : ∀ s, P' s → P s) : Blocks held P' c m :=
  fun s hs => h s (hP s hs)

theorem Runs.pure {a : α} (h : ∀ s, P s → Q a s) : Runs held P (Pure.pure a) Q E :=
  fun s hs => .returned (h s hs)

theorem Runs.throws (h : ∀ s, P s → E s) : Runs held P Guards.throws Q E :=
  fun s hs => .threw (h s hs)

theorem Runs.data : Runs held P Guards.data (fun a s => a = s ∧ P s) E :=
  fun _ hs => .returned ⟨rfl, hs⟩

theorem Runs.update {f : σ → σ} {Q : Unit → σ → Prop} (h : ∀ s, P s → Q () (f s)) :
    Runs held P (Guards.update f) Q E :=
  fun s hs => .returned (h s hs)

/-- What follows a piece of code sees its result and its data. -/
theorem bind_eq (c : Code ι σ α) (k : α → Code ι σ β) (t : Thread ι σ) :
    (c >>= k) t = match c t with
      | (.ok a, t') => k a t'
      | (.error e, t') => (.error e, t') := by
  change (match c t with | (r, t') => ExceptT.bindCont k r t') = _
  rcases c t with ⟨_ | _, t'⟩ <;> rfl

theorem Runs.bind (h : Runs held P c Q E) (hk : ∀ a, Runs held (Q a) (k a) R E) :
    Runs held P (c >>= k) R E := by
  intro s hs
  rw [bind_eq]
  have hc := h s hs
  generalize c ⟨held, s⟩ = r at hc
  cases hc with
  | returned hQ => exact hk _ _ hQ
  | threw hE => exact .threw hE

/-- Code that follows what returns: an exception skips it. -/
theorem Blocks.bind (h : Runs held P c Q fun _ => False) (hk : ∀ a, Blocks held (Q a) (k a) m) :
    Blocks held P (c >>= k) m := by
  intro s hs
  rw [bind_eq]
  have hc := h s hs
  generalize c ⟨held, s⟩ = r at hc
  cases hc with
  | returned hQ => exact hk _ _ hQ
  | threw hE => exact hE.elim

theorem Runs.ite {p : Prop} [Decidable p] {d : Code ι σ α} (hc : p → Runs held P c Q E)
    (hd : ¬p → Runs held P d Q E) : Runs held P (if p then c else d) Q E := by
  split
  · exact hc ‹_›
  · exact hd ‹_›

theorem Runs.onlyIf {p : Bool} {c : Code ι σ Unit} {Q : Unit → σ → Prop} (hc : p = true → Runs held P c Q E)
    (hn : ∀ s, P s → Q () s) : Runs held P (onlyIf p c) Q E :=
  Runs.ite hc fun _ => Runs.pure hn

theorem Runs.attempt {h : Code ι σ α} (hc : Runs held P c Q F) (hh : Runs held F h Q E) :
    Runs held P (attempt c h) Q E := by
  intro s hs
  unfold Guards.attempt
  have hr := hc s hs
  generalize c ⟨held, s⟩ = r at hr
  cases hr with
  | returned hQ => exact .returned hQ
  | threw hE => exact hh _ hE

theorem Blocks.attempt {h : Code ι σ α} (hc : Blocks held P c m) : Blocks held P (attempt c h) m := by
  intro s hs
  obtain ⟨t, ht⟩ := hc s hs
  exact ⟨t, by rw [Guards.attempt, ht]⟩

variable [DecidableEq ι]

/-- A guard of a mutex the thread does not hold. -/
theorem Runs.guarded (hm : m ∉ held) (h : Runs (m :: held) P c Q E) : Runs held P (guarded m c) Q E := by
  intro s hs
  rw [Guards.guarded, if_neg hm]
  have hc := h s hs
  generalize c ⟨m :: held, s⟩ = r at hc
  cases hc with
  | returned hQ =>
    simp only [List.erase_cons_head]
    exact .returned hQ
  | threw hE =>
    simp only [List.erase_cons_head]
    exact .threw hE

/-- A guard of a mutex the thread holds. -/
theorem Blocks.guarded (hm : m ∈ held) : Blocks held P (guarded m c) m :=
  fun s _ => ⟨⟨held, s⟩, if_pos hm⟩

theorem Blocks.inside {m'} (hm : m' ∉ held) (h : Blocks (m' :: held) P c m) :
    Blocks held P (Guards.guarded m' c) m := by
  intro s hs
  obtain ⟨t, ht⟩ := h s hs
  refine ⟨t, ?_⟩
  rw [Guards.guarded, if_neg hm]
  simp only [ht]

omit [DecidableEq ι]

theorem Quiet.pure {a : α} : Quiet held (Pure.pure a : Code ι σ α) := Runs.pure fun _ _ => trivial

theorem Quiet.throws : Quiet held (Guards.throws : Code ι σ α) := Runs.throws fun _ _ => trivial

theorem Quiet.data : Quiet held (Guards.data : Code ι σ σ) :=
  Runs.data.mono (fun _ h => h) (fun _ _ _ => trivial) fun _ h => h

theorem Quiet.update {f : σ → σ} : Quiet held (Guards.update f : Code ι σ Unit) := Runs.update fun _ _ => trivial

theorem Quiet.bind (h : Quiet held c) (hk : ∀ a, Quiet held (k a)) : Quiet held (c >>= k) := Runs.bind h hk

theorem Quiet.ite {p : Prop} [Decidable p] {d : Code ι σ α} (hc : Quiet held c) (hd : Quiet held d) :
    Quiet held (if p then c else d) :=
  Runs.ite (fun _ => hc) fun _ => hd

theorem Quiet.onlyIf {p : Bool} {c : Code ι σ Unit} (hc : Quiet held c) : Quiet held (onlyIf p c) :=
  Quiet.ite hc Quiet.pure

theorem Quiet.guarded [DecidableEq ι] (hm : m ∉ held) (h : Quiet (m :: held) c) : Quiet held (guarded m c) :=
  Runs.guarded hm h

end Rules

/-! ## Call after call -/

/-- How the calls of one thread end, one after the other. An exception is its
caller's, who goes on; a call that blocks is the last. -/
def session (code : κ → Code ι σ Unit) :
    List κ → Thread ι σ → List (Except (Stop ι) Unit × Thread ι σ)
  | [], _ => []
  | k :: ks, t =>
    match code k t with
    | (.error (.blocked m), t') => [(.error (.blocked m), t')]
    | (r, t') => (r, t') :: session code ks t'

/-- The call came to its end, and the thread holds no mutex. -/
def Free (r : Except (Stop ι) Unit × Thread ι σ) : Prop :=
  (∀ m, r.1 ≠ .error (.blocked m)) ∧ r.2.held = []

theorem Ends.free {Q : Unit → σ → Prop} {E : σ → Prop} {r} (h : Ends ([] : List ι) Q E r) : Free r := by
  cases h with
  | returned => exact ⟨by simp, rfl⟩
  | threw => exact ⟨by simp, rfl⟩

/-- Where each call either never blocks or always does, the calls that do not
are those a thread can make one after the other. -/
theorem session_free_iff {code : κ → Code ι σ Unit} {ok : κ → Prop}
    (hok : ∀ k, ok k → Quiet [] (code k))
    (hbad : ∀ k, ¬ok k → ∃ m, Blocks [] (fun _ => True) (code k) m) :
    ∀ (ks : List κ) (s : σ), (∀ r ∈ session code ks ⟨[], s⟩, Free r) ↔ ∀ k ∈ ks, ok k
  | [], s => by simp [session]
  | k :: ks, s => by
    by_cases hk : ok k
    · have hr := hok k hk s trivial
      have hs : ∃ s', session code (k :: ks) ⟨[], s⟩ = code k ⟨[], s⟩ :: session code ks ⟨[], s'⟩ := by
        rw [session]
        generalize code k ⟨[], s⟩ = r at hr
        cases hr with
        | @returned _ s' => exact ⟨s', rfl⟩
        | @threw s' => exact ⟨s', rfl⟩
      obtain ⟨s', hs⟩ := hs
      rw [hs, List.forall_mem_cons, List.forall_mem_cons, session_free_iff hok hbad ks s']
      exact and_congr_left fun _ => iff_of_true hr.free hk
    · obtain ⟨m, hm⟩ := hbad k hk
      obtain ⟨t, ht⟩ := hm s trivial
      have hs : session code (k :: ks) ⟨[], s⟩ = [(.error (.blocked m), t)] := by
        rw [session, ht]
      rw [hs]
      constructor
      · intro h
        exact absurd rfl ((h _ (List.mem_singleton_self _)).1 m)
      · intro h
        exact absurd (h k List.mem_cons_self) hk

end Guards
