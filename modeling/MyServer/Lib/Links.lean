import Mathlib.Tactic

/-!
# Pointers from object to object

Each object points on. A route starts at a pointer, passes objects in order and
ends at a pointer.
-/

namespace MyServer.Links

variable {α P : Type} (node next : α → P)

def Route : P → List α → P → Prop
  | p, [], q => p = q
  | p, a :: l, q => p = node a ∧ Route (next a) l q

instance Route.decidable [DecidableEq P] : ∀ p l q, Decidable (Route node next p l q)
  | p, [], q => inferInstanceAs (Decidable (p = q))
  | p, a :: l, q =>
    have := Route.decidable (next a) l q
    inferInstanceAs (Decidable (p = node a ∧ Route node next (next a) l q))

variable {node next} {next' : α → P} {p q : P} {l l' : List α} {a : α}

@[simp] theorem route_nil : Route node next p [] q ↔ p = q := Iff.rfl

@[simp] theorem route_cons : Route node next p (a :: l) q ↔ p = node a ∧ Route node next (next a) l q := Iff.rfl

theorem route_append : Route node next p (l ++ l') q ↔ ∃ r, Route node next p l r ∧ Route node next r l' q := by
  induction l generalizing p with
  | nil => simp
  | cons a l ih => simp [ih, and_assoc]

/-- Where a route starts. -/
theorem Route.start (h : Route node next p l q) : p = (l.head?.map node).getD q := by
  cases l with
  | nil => exact h
  | cons a l => exact h.1

/-- Objects that are not passed may point anywhere. -/
theorem route_congr (h : ∀ a ∈ l, next' a = next a) : Route node next' p l q ↔ Route node next p l q := by
  induction l generalizing p with
  | nil => rfl
  | cons a l ih =>
    obtain ⟨ha, hl⟩ := List.forall_mem_cons.mp h
    rw [route_cons, route_cons, ha, ih hl]

theorem route_update [DecidableEq α] {x : P} (h : a ∉ l) :
    Route node (Function.update next a x) p l q ↔ Route node next p l q := by
  refine route_congr fun b hb => ?_
  have hne : b ≠ a := by
    rintro rfl
    exact h hb
  exact Function.update_of_ne hne _ _

/-- **Another end.** Whoever pointed at the old end points at the new one. -/
theorem Route.redirect [DecidableEq P] {q' : P} (h : Route node next p l q) (hq : ∀ a ∈ l, node a ≠ q) :
    Route node (fun a => if next a = q then q' else next a) (if p = q then q' else p) l q' := by
  induction l generalizing p with
  | nil => exact if_pos h
  | cons a l ih =>
    obtain ⟨rfl, hl⟩ := h
    obtain ⟨ha, hq⟩ := List.forall_mem_cons.mp hq
    rw [if_neg ha]
    exact ⟨rfl, ih hl hq⟩

/-- **An object less.** Its predecessor points where it pointed. -/
theorem Route.erase [DecidableEq α] {b : α} (h : Route node next p (l ++ b :: a :: l') q)
    (hb : b ∉ l ++ a :: l') :
    Route node (Function.update next b (next a)) p (l ++ b :: l') q := by
  simp only [List.mem_append, List.mem_cons, not_or] at hb
  obtain ⟨hl, -, hl'⟩ := hb
  obtain ⟨r, hbefore, hr, -, hafter⟩ := route_append.mp h
  refine route_append.mpr ⟨r, (route_update hl).mpr hbefore, hr, ?_⟩
  rw [Function.update_self]
  exact (route_update hl').mpr hafter

end MyServer.Links
