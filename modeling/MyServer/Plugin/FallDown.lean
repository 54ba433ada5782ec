import MyServer.Plugin.Manager

/-!
# When the recursion over the dependents returns

`recursiveDependencesFallDown` does not ask whether a plugin is marked already.
-/

open Std

namespace MyServer.Plugin

/-- The plugins that depend on a plugin, directly or not, and itself. -/
abbrev Falls (dependsOn : Dependents) : Str → Str → Prop := Graph.Reach dependsOn.index

/-- A plugin that depends on itself, directly or not. -/
abbrev Circular (dependsOn : Dependents) : Str → Prop := Graph.OnCycle dependsOn.index

def mark (name : Str) (remove : Remove) : Remove := remove.insert name true

theorem mark_iff (name : Str) (remove : Remove) (d : Str) :
    (mark name remove).index d = true ↔ d = name ∨ remove.index d = true := by
  unfold mark
  rw [OrdMap.index_put]
  split
  next h => simp [h]
  next h => simp [Ne.symm h]

theorem finite_dependents (dependsOn : Dependents) : {b | dependsOn.index b ≠ []}.Finite := by
  apply Set.Finite.subset dependsOn.keys.finite_toSet
  intro b hb
  by_contra hnot
  exact hb (OrdMap.index_of_not_mem fun h => hnot (ExtTreeMap.mem_keys.mpr h))

theorem recursiveDependencesFallDown_eq (dependsOn : Dependents) (fuel : Nat) :
    recursiveDependencesFallDown dependsOn fuel = Graph.walk dependsOn.index mark fuel := by
  induction fuel with
  | zero => rfl
  | succ fuel ih =>
    funext name remove
    rw [recursiveDependencesFallDown, Graph.walk, ih]
    split
    next h =>
      rw [h]
      rfl
    next => rfl

theorem index_true {remove : Remove} {d : Str} : remove.index d = true ↔ remove[d]? = some true := by
  rw [OrdMap.index_eq]
  cases remove[d]? with
  | none => exact iff_of_false Bool.false_ne_true (by simp)
  | some b => simp

/-- What a call that returns has marked. -/
theorem fallDown_marks {dependsOn : Dependents} {fuel : Nat} {name : Str} {remove remove' : Remove}
    (h : recursiveDependencesFallDown dependsOn fuel name remove = some remove') (d : Str) :
    remove'.index d = true ↔ Falls dependsOn name d ∨ remove.index d = true := by
  rw [recursiveDependencesFallDown_eq] at h
  exact @Graph.walk_marks _ _ _ mark (fun remove d => remove.index d = true) mark_iff _ _ _ _ h d

theorem fallDown_returns_iff (dependsOn : Dependents) (name : Str) (remove : Remove) :
    (∃ fuel remove', recursiveDependencesFallDown dependsOn fuel name remove = some remove') ↔
      ∀ d, Falls dependsOn name d → ¬ Circular dependsOn d := by
  simp only [recursiveDependencesFallDown_eq]
  exact Graph.walk_ends_iff (finite_dependents dependsOn) name remove

/-- **The recursion returns, with every dependent marked,** exactly when none of the plugins that
depend on the one that falls depends on itself. -/
theorem fallDown_visits_iff (dependsOn : Dependents) (name : Str) (remove : Remove) :
    (∃ fuel remove', recursiveDependencesFallDown dependsOn fuel name remove = some remove' ∧
        ∀ d, Falls dependsOn name d → remove'[d]? = some true) ↔
      ∀ d, Falls dependsOn name d → ¬ Circular dependsOn d := by
  rw [← fallDown_returns_iff dependsOn name remove]
  constructor
  · rintro ⟨fuel, remove', h, -⟩
    exact ⟨fuel, remove', h⟩
  · rintro ⟨fuel, remove', h⟩
    refine ⟨fuel, remove', h, fun d hd => ?_⟩
    exact index_true.mp ((fallDown_marks h d).mpr (Or.inl hd))

/-- The plugin `a` depends on itself. -/
theorem not_fallDown_visits :
    ¬ ∀ (dependsOn : Dependents) (name : Str) (remove : Remove),
      ∃ fuel remove', recursiveDependencesFallDown dependsOn fuel name remove = some remove' ∧
        ∀ d, Falls dependsOn name d → remove'[d]? = some true := by
  intro h
  obtain ⟨fuel, remove', hret, -⟩ := h ((∅ : Dependents).insert (ascii "a") [ascii "a"]) (ascii "a") ∅
  apply (fallDown_returns_iff _ _ _).mp ⟨fuel, remove', hret⟩ (ascii "a") Relation.ReflTransGen.refl
  apply Relation.TransGen.single
  unfold Graph.Edge
  decide

end MyServer.Plugin
