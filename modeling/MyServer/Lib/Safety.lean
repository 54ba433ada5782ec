import Mathlib.Tactic

/-!
# Safety of a partial step function

What holds in every state of a run, from what each of its steps is known to meet.
-/

namespace MyServer.Safety

variable {σ ι : Type} (step : σ → ι → Option σ)

/-- Where the run ends, when each of its steps can be taken. -/
def run : List ι → σ → Option σ
  | [], s => some s
  | i :: is, s => (step s i).bind (run is)

/-- In every state of the run. -/
def Throughout (P : σ → Prop) : List ι → σ → Prop
  | [], s => P s
  | i :: is, s => P s ∧ ∀ s', step s i = some s' → Throughout P is s'

/-- At every step of the run. -/
def Along (C : σ → ι → Prop) : List ι → σ → Prop
  | [], _ => True
  | i :: is, s => C s i ∧ ∀ s', step s i = some s' → Along C is s'

instance Along.decidable {C : σ → ι → Prop} [∀ s i, Decidable (C s i)] : ∀ is s, Decidable (Along step C is s)
  | [], _ => isTrue trivial
  | i :: is, s =>
    have := fun s' => Along.decidable (C := C) is s'
    inferInstanceAs (Decidable (C s i ∧ ∀ s' ∈ step s i, Along step C is s'))

variable {step} {P Inv : σ → Prop} {C D : σ → ι → Prop} {s s' : σ} {is : List ι}

theorem Throughout.first (h : Throughout step P is s) : P s := by
  cases is with
  | nil => exact h
  | cons i is => exact h.1

theorem along_of_forall (h : ∀ i ∈ is, ∀ s, C s i) : Along step C is s := by
  induction is generalizing s with
  | nil => trivial
  | cons i is ih =>
    obtain ⟨hi, his⟩ := List.forall_mem_cons.mp h
    exact ⟨hi s, fun s' _ => ih his⟩

theorem Along.last {i : ι} (h : Along step C (is ++ [i]) s) (hrun : run step is s = some s') : C s' i := by
  induction is generalizing s with
  | nil =>
    cases hrun
    exact h.1
  | cons j is ih =>
    obtain ⟨s₁, hj, hrun⟩ := Option.bind_eq_some_iff.mp hrun
    exact ih (h.2 s₁ hj) hrun

/-- Where an invariant makes two conditions the same, and one of them keeps it, the runs that meet them are
the same. -/
theorem along_congr (hstep : ∀ s i s', Inv s → D s i → step s i = some s' → Inv s')
    (hsame : ∀ s i, Inv s → (C s i ↔ D s i)) (hs : Inv s) : Along step C is s ↔ Along step D is s := by
  induction is generalizing s with
  | nil => exact Iff.rfl
  | cons i is ih =>
    constructor
    · rintro ⟨hi, his⟩
      have hD := (hsame s i hs).mp hi
      exact ⟨hD, fun s' hs' => (ih (hstep s i s' hs hD hs')).mp (his s' hs')⟩
    · rintro ⟨hi, his⟩
      exact ⟨(hsame s i hs).mpr hi, fun s' hs' => (ih (hstep s i s' hs hi hs')).mpr (his s' hs')⟩

/-- **What such steps preserve holds throughout.** -/
theorem throughout_of_invariant (hstep : ∀ s i s', Inv s → C s i → step s i = some s' → Inv s')
    (hP : ∀ s, Inv s → P s) (hs : Inv s) (h : Along step C is s) : Throughout step P is s := by
  induction is generalizing s with
  | nil => exact hP s hs
  | cons i is ih =>
    refine ⟨hP s hs, fun s' hi => ?_⟩
    exact ih (hstep s i s' hs h.1 hi) (h.2 s' hi)

/-- What every step preserves holds at the end. -/
theorem run_keeps (hstep : ∀ s i s', Inv s → step s i = some s' → Inv s') (hs : Inv s)
    (hrun : run step is s = some s') : Inv s' := by
  induction is generalizing s with
  | nil =>
    cases hrun
    exact hs
  | cons i is ih =>
    obtain ⟨s₁, hi, hrun⟩ := Option.bind_eq_some_iff.mp hrun
    exact ih (hstep s i s₁ hs hi) hrun

/-- What steps between such states preserve holds at the end. -/
theorem Throughout.run_invariant (hstep : ∀ s i s', Inv s → P s → P s' → step s i = some s' → Inv s')
    (hs : Inv s) (h : Throughout step P is s) (hrun : run step is s = some s') : Inv s' := by
  induction is generalizing s with
  | nil =>
    cases hrun
    exact hs
  | cons i is ih =>
    obtain ⟨s₁, hi, hrun⟩ := Option.bind_eq_some_iff.mp hrun
    have hnext := h.2 s₁ hi
    exact ih (hstep s i s₁ hs h.1 hnext.first hi) hnext hrun

theorem Throughout.last (h : Throughout step P is s) (hrun : run step is s = some s') : P s' :=
  h.run_invariant (fun _ _ _ _ _ hP _ => hP) h.first hrun

/-- **The condition is needed**, where a step that does not meet it leaves a state that is not as it should be. -/
theorem along_of_throughout (hstep : ∀ s i s', Inv s → C s i → step s i = some s' → Inv s')
    (hneeded : ∀ s i, Inv s → (∀ s', step s i = some s' → P s') → C s i) (hs : Inv s)
    (h : Throughout step P is s) : Along step C is s := by
  induction is generalizing s with
  | nil => trivial
  | cons i is ih =>
    have hi : C s i := hneeded s i hs fun s' hs' => (h.2 s' hs').first
    exact ⟨hi, fun s' hs' => ih (hstep s i s' hs hi hs') (h.2 s' hs')⟩

end MyServer.Safety
