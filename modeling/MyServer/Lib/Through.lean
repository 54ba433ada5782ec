import Mathlib.Tactic
import Mathlib.Data.List.Nodup

/-!
# A list up to where something happens

A loop that goes over a list and ends with the element that makes it stop.
-/

namespace MyServer.Through

/-- The list up to the first element with the property, and that element. -/
def through {α : Type} (p : α → Prop) [DecidablePred p] : List α → List α
  | [] => []
  | a :: l => a :: if p a then [] else through p l

variable {α : Type} {p : α → Prop} [DecidablePred p]

theorem through_of_forall {l : List α} (h : ∀ a ∈ l, ¬ p a) : through p l = l := by
  induction l with
  | nil => rfl
  | cons a l ih =>
    rw [through, if_neg (h a List.mem_cons_self), ih fun b hb => h b (List.mem_cons_of_mem _ hb)]

theorem through_append_of_forall {l : List α} (l' : List α) (h : ∀ a ∈ l, ¬ p a) :
    through p (l ++ l') = l ++ through p l' := by
  induction l with
  | nil => rfl
  | cons a l ih =>
    rw [List.cons_append, through, if_neg (h a List.mem_cons_self),
      ih fun b hb => h b (List.mem_cons_of_mem _ hb), List.cons_append]

theorem through_append_of_exists {l : List α} (l' : List α) (h : ∃ a ∈ l, p a) :
    through p (l ++ l') = through p l := by
  induction l with
  | nil => simp at h
  | cons a l ih =>
    rw [List.cons_append, through, through]
    split
    next => rfl
    next ha =>
      rw [ih]
      obtain ⟨b, hb, hpb⟩ := h
      rcases List.mem_cons.mp hb with rfl | hb
      · exact absurd hpb ha
      · exact ⟨b, hb, hpb⟩

theorem through_sublist (l : List α) : (through p l).Sublist l := by
  induction l with
  | nil => exact List.Sublist.refl _
  | cons a l ih =>
    rw [through]
    apply List.Sublist.cons_cons
    split
    · exact List.nil_sublist l
    · exact ih

/-- In a list without repetition the elements that are reached are those with nothing before them
that has the property. -/
theorem mem_through {l : List α} (hl : l.Nodup) {a : α} (ha : a ∈ l) :
    a ∈ through p l ↔ ∀ before after, l = before ++ a :: after → ∀ b ∈ before, ¬ p b := by
  constructor
  · rintro hmem before after rfl b hb hpb
    rw [through_append_of_exists _ ⟨b, hb, hpb⟩] at hmem
    have hbefore : a ∈ before := (through_sublist before).subset hmem
    exact (List.nodup_append.mp hl).2.2 a hbefore a List.mem_cons_self rfl
  · intro h
    obtain ⟨before, after, rfl⟩ := List.append_of_mem ha
    rw [through_append_of_forall _ (h before after rfl), through]
    exact List.mem_append_right _ List.mem_cons_self

end MyServer.Through
