import Mathlib.Tactic

/-!
# Logged runs of a partial step function

A run takes one input after the other until a step gives nothing. It logs for
each step the state before it, the input and what came out.
-/

namespace MyServer.Run

structure Entry (σ ι ω : Type) where
  before : σ
  input : ι
  outcome : ω

variable {σ ι ω : Type} (step : σ → ι → Option (ω × σ))

def run : List ι → σ → List (Entry σ ι ω)
  | [], _ => []
  | i :: is, s =>
    match step s i with
    | none => []
    | some (o, s') => ⟨s, i, o⟩ :: run is s'

/-- The state that the run ends in. -/
def last : List ι → σ → σ
  | [], s => s
  | i :: is, s =>
    match step s i with
    | none => s
    | some (_, s') => last is s'

variable {step}

/-- An invariant that the steps of a kind preserve, along a run of such steps. -/
theorem run_invariant_of {Inv : σ → Prop} {P : Entry σ ι ω → Prop}
    (hstep : ∀ s i o s', Inv s → P ⟨s, i, o⟩ → step s i = some (o, s') → Inv s') {is : List ι} {s : σ}
    (hs : Inv s) (hP : ∀ e ∈ run step is s, P e) :
    Inv (last step is s) ∧ ∀ e ∈ run step is s,
      Inv e.before ∧ ∃ s', step e.before e.input = some (e.outcome, s') := by
  induction is generalizing s with
  | nil => exact ⟨hs, by simp [run]⟩
  | cons i is ih =>
    unfold run at hP
    unfold run last
    cases h : step s i with
    | none => exact ⟨hs, by simp⟩
    | some r =>
      obtain ⟨o, s'⟩ := r
      simp only [h] at hP
      obtain ⟨hfirst, hrest⟩ := List.forall_mem_cons.mp hP
      obtain ⟨hlast, hbefore⟩ := ih (hstep s i o s' hs hfirst h) hrest
      exact ⟨hlast, List.forall_mem_cons.mpr ⟨⟨hs, s', h⟩, hbefore⟩⟩

/-- **Invariants of runs.** What every step preserves holds before each step of the log, and each
entry of the log is a step. -/
theorem run_invariant {Inv : σ → Prop}
    (hstep : ∀ s i o s', Inv s → step s i = some (o, s') → Inv s') {is : List ι} {s : σ}
    (hs : Inv s) : ∀ e ∈ run step is s,
      Inv e.before ∧ ∃ s', step e.before e.input = some (e.outcome, s') :=
  (@run_invariant_of σ ι ω step Inv (fun _ => True) (fun s i o s' hi _ h => hstep s i o s' hi h) is s hs
    fun _ _ => trivial).2

theorem input_mem_of_mem_run {is : List ι} {s : σ} {e : Entry σ ι ω} (he : e ∈ run step is s) :
    e.input ∈ is := by
  induction is generalizing s with
  | nil => exact absurd he List.not_mem_nil
  | cons i is ih =>
    unfold run at he
    split at he
    · exact absurd he List.not_mem_nil
    · rcases List.mem_cons.mp he with rfl | he
      · exact List.mem_cons_self
      · exact List.mem_cons_of_mem _ (ih he)

/-- **Histories.** What relates the log so far to the state, and is kept by every step, relates the
whole log to the last state. -/
theorem run_history {History : List (Entry σ ι ω) → σ → Prop}
    (hstep : ∀ l s i o s', History l s → step s i = some (o, s') →
      History (l ++ [⟨s, i, o⟩]) s') {s : σ} (hs : History [] s) (is : List ι) :
    History (run step is s) (last step is s) := by
  have hfrom : ∀ (is : List ι) (l : List (Entry σ ι ω)) (s : σ), History l s →
      History (l ++ run step is s) (last step is s) := by
    intro is
    induction is with
    | nil =>
      intro l s h
      unfold run last
      rwa [List.append_nil]
    | cons i is ih =>
      intro l s h
      unfold run last
      cases hi : step s i with
      | none => rwa [List.append_nil]
      | some r =>
        obtain ⟨o, s'⟩ := r
        have h' := ih _ s' (hstep l s i o s' h hi)
        rwa [List.append_assoc] at h'
  exact hfrom is [] s hs

/-- Each entry of the log is the step that leads from one state of the run to the next. -/
theorem exists_take_of_mem_run {is : List ι} {s : σ} {e : Entry σ ι ω} (he : e ∈ run step is s) :
    ∃ n, last step (is.take n) s = e.before ∧
      step e.before e.input = some (e.outcome, last step (is.take (n + 1)) s) := by
  induction is generalizing s with
  | nil => exact absurd he List.not_mem_nil
  | cons i is ih =>
    unfold run at he
    cases hi : step s i with
    | none =>
      rw [hi] at he
      exact absurd he List.not_mem_nil
    | some r =>
      obtain ⟨o, s'⟩ := r
      rw [hi] at he
      have hlast : ∀ n, last step ((i :: is).take (n + 1)) s = last step (is.take n) s' := by
        intro n
        rw [List.take_succ_cons, last, hi]
      rcases List.mem_cons.mp he with rfl | he
      · exact ⟨0, rfl, by rw [hi, hlast]; rfl⟩
      · obtain ⟨n, hbefore, hnext⟩ := ih he
        exact ⟨n + 1, by rw [hlast, hbefore], by rw [hlast, hnext]⟩

/-- What is logged for the first inputs is logged for all of them. -/
theorem mem_run_of_mem_take {is : List ι} {s : σ} {e : Entry σ ι ω} {n : ℕ}
    (he : e ∈ run step (is.take n) s) : e ∈ run step is s := by
  induction is generalizing s n with
  | nil => simpa using he
  | cons i is ih =>
    cases n with
    | zero => exact absurd he List.not_mem_nil
    | succ n =>
      rw [List.take_succ_cons] at he
      unfold run at he ⊢
      cases hi : step s i with
      | none =>
        rw [hi] at he
        exact absurd he List.not_mem_nil
      | some r =>
        rw [hi] at he
        rcases List.mem_cons.mp he with rfl | he
        · exact List.mem_cons_self
        · exact List.mem_cons_of_mem _ (ih he)

/-- What an entry has whenever all the entries before it have it, all entries have. -/
theorem forall_of_earlier {P : Entry σ ι ω → Prop} {is : List ι} {s : σ}
    (h : ∀ n, ∀ e ∈ run step is s, (∀ e' ∈ run step (is.take n) s, P e') →
      e.before = last step (is.take n) s →
      step e.before e.input = some (e.outcome, last step (is.take (n + 1)) s) → P e) :
    ∀ e ∈ run step is s, P e := by
  induction is generalizing s with
  | nil => exact fun e he => absurd he List.not_mem_nil
  | cons i is ih =>
    unfold run at h ⊢
    cases hi : step s i with
    | none => exact fun e he => absurd he List.not_mem_nil
    | some r =>
      obtain ⟨o, s'⟩ := r
      rw [hi] at h
      have hlast : ∀ n, last step ((i :: is).take (n + 1)) s = last step (is.take n) s' := by
        intro n
        rw [List.take_succ_cons, last, hi]
      have hfirst : P ⟨s, i, o⟩ :=
        h 0 _ List.mem_cons_self (fun _ he => absurd he List.not_mem_nil) rfl (by rw [hi, hlast]; rfl)
      have hrest : ∀ e ∈ run step is s', P e := by
        apply ih
        intro n e he hearlier hbefore hnext
        apply h (n + 1) e (List.mem_cons_of_mem _ he)
        · intro e' he'
          rw [List.take_succ_cons] at he'
          simp only [hi] at he'
          rcases List.mem_cons.mp he' with rfl | he'
          · exact hfirst
          · exact hearlier e' he'
        · rw [hbefore, hlast]
        · rw [hnext, hlast]
      intro e he
      rcases List.mem_cons.mp he with rfl | he
      · exact hfirst
      · exact hrest e he

theorem last_invariant {Inv : σ → Prop}
    (hstep : ∀ s i o s', Inv s → step s i = some (o, s') → Inv s') {s : σ} (hs : Inv s)
    (is : List ι) : Inv (last step is s) :=
  @run_history σ ι ω step (fun _ s => Inv s) (fun _ s i o s' h hi => hstep s i o s' h hi) s hs is

end MyServer.Run
