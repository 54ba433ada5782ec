import Mathlib.Data.List.Dedup
import Mathlib.Tactic

/-!
# Named texts, the latest of each name

Texts are put under names one after the other. A later one takes the place of an earlier one of its name.
-/

namespace MyServer.Latest

variable {κ α : Type} [DecidableEq κ]

/-- What is under each name in the end, in the order in which it was put there. -/
def latest : List (κ × List α) → List (κ × List α)
  | [] => []
  | e :: es => if e.1 ∈ es.map Prod.fst then latest es else e :: latest es

/-- What lost its place was empty. -/
def NothingLost : List (κ × List α) → Prop
  | [] => True
  | e :: es => (e.1 ∈ es.map Prod.fst → e.2 = []) ∧ NothingLost es

def texts (es : List (κ × List α)) : List α := (es.map Prod.snd).flatten

variable {es : List (κ × List α)} {e : κ × List α}

theorem latest_cons : latest (e :: es) = if e.1 ∈ es.map Prod.fst then latest es else e :: latest es := rfl

omit [DecidableEq κ] in
theorem nothingLost_cons : NothingLost (e :: es) = ((e.1 ∈ es.map Prod.fst → e.2 = []) ∧ NothingLost es) := rfl

omit [DecidableEq κ] in
@[simp] theorem texts_nil : texts ([] : List (κ × List α)) = [] := rfl

omit [DecidableEq κ] in
@[simp] theorem texts_cons : texts (e :: es) = e.2 ++ texts es := by simp [texts]

omit [DecidableEq κ] in
@[simp] theorem texts_append (es fs : List (κ × List α)) : texts (es ++ fs) = texts es ++ texts fs := by
  simp [texts]

/-- The names, each once. -/
theorem names_latest (es : List (κ × List α)) : (latest es).map Prod.fst = (es.map Prod.fst).dedup := by
  induction es with
  | nil => rfl
  | cons e es ih =>
    rw [latest_cons, List.map_cons, List.dedup_cons]
    split_ifs
    · exact ih
    · rw [List.map_cons, ih]

theorem mem_of_mem (h : e ∈ latest es) : e ∈ es := by
  induction es with
  | nil => exact absurd h List.not_mem_nil
  | cons e' es ih =>
    rw [latest_cons] at h
    split_ifs at h
    · exact List.mem_cons_of_mem _ (ih h)
    · rcases List.mem_cons.mp h with rfl | h
      · exact List.mem_cons_self
      · exact List.mem_cons_of_mem _ (ih h)

theorem length_latest_le (es : List (κ × List α)) : (texts (latest es)).length ≤ (texts es).length := by
  induction es with
  | nil => exact le_refl _
  | cons e es ih =>
    rw [latest_cons, texts_cons, List.length_append]
    split_ifs
    · omega
    · rw [texts_cons, List.length_append]
      omega

/-- **Nothing is missing** when and only when what lost its place was empty. -/
theorem texts_latest_iff (es : List (κ × List α)) : texts (latest es) = texts es ↔ NothingLost es := by
  induction es with
  | nil => exact iff_of_true rfl trivial
  | cons e es ih =>
    rw [latest_cons, nothingLost_cons, texts_cons]
    split_ifs with hmem
    · constructor
      · intro heq
        have hlen := congrArg List.length heq
        have hle := length_latest_le es
        rw [List.length_append] at hlen
        have hnil : e.2 = [] := List.length_eq_zero_iff.mp (by omega)
        rw [hnil, List.nil_append, ih] at heq
        exact ⟨fun _ => hnil, heq⟩
      · rintro ⟨hnil, hrest⟩
        rw [hnil hmem, List.nil_append, ih]
        exact hrest
    · rw [texts_cons, List.append_cancel_left_eq, ih]
      exact ⟨fun h => ⟨fun h' => absurd h' hmem, h⟩, fun h => h.2⟩

/-- One more text: what was under its name is lost. -/
theorem nothingLost_append (es : List (κ × List α)) (name : κ) (text : List α) :
    NothingLost (es ++ [(name, text)]) ↔ NothingLost es ∧ ∀ t, (name, t) ∈ latest es → t = [] := by
  induction es with
  | nil => simp [NothingLost, latest]
  | cons e es ih =>
    obtain ⟨n, t⟩ := e
    rw [List.cons_append, nothingLost_cons, nothingLost_cons, ih, latest_cons, List.map_append]
    by_cases hmem : n ∈ es.map Prod.fst
    · simp only [hmem, List.mem_append, true_or, forall_const, if_true]
      tauto
    · simp only [hmem, List.mem_append, false_or, false_imp_iff, true_and, if_false, List.map_cons, List.map_nil,
        List.mem_cons, List.not_mem_nil, or_false, Prod.mk.injEq]
      constructor
      · rintro ⟨hnew, hlost, hrest⟩
        refine ⟨hlost, fun t' h => ?_⟩
        rcases h with ⟨rfl, rfl⟩ | h
        · exact hnew rfl
        · exact hrest t' h
      · rintro ⟨hlost, hall⟩
        exact ⟨fun hn => hall t (.inl ⟨hn.symm, rfl⟩), hlost, fun t' h => hall t' (.inr h)⟩

/-- One more text under a name that is not taken, or is. -/
theorem latest_append (es : List (κ × List α)) (name : κ) (text : List α) :
    latest (es ++ [(name, text)]) = (latest es).filter (fun e => e.1 ≠ name) ++ [(name, text)] := by
  induction es with
  | nil => simp [latest]
  | cons e es ih =>
    rw [List.cons_append, latest_cons, latest_cons, ih, List.map_append]
    by_cases hmem : e.1 ∈ es.map Prod.fst
    · simp [hmem]
    · rw [if_neg hmem]
      by_cases hname : e.1 = name
      · simp [hname]
      · simp [hmem, hname]

end MyServer.Latest
