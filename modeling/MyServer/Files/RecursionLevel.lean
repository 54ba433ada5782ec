import MyServer.Files.Path

/-!
# The recursion level of a path

What `getPathRecursionLevel` counts. An `int` has room for it as long as the path is shorter than 2^31 - 1.
-/

open MyServer.Walk

namespace MyServer.Files

/-- The maximal runs of characters that are no separators. -/
def components (path : Str) : List Str := (path.splitOnP isSep).filter fun c => c ≠ []

/-- Neither `.` nor `..`. -/
def isName (component : Str) : Bool := component ≠ [dot] ∧ component ≠ [dot, dot]

/-! ## Components -/

theorem components_sep_cons {c : Byte} (h : isSep c = true) (path : Str) : components (c :: path) = components path := by
  unfold components
  rw [List.splitOnP_cons_eq_if_modifyHead, if_pos h]
  rfl

/-- A run, and what stands behind the separator that ends it. -/
theorem components_run {run : Str} (hne : run ≠ []) (hrun : ∀ c ∈ run, isSep c = false) {c : Byte}
    (h : isSep c = true) (path : Str) : components (run ++ c :: path) = run :: components path := by
  unfold components
  rw [List.splitOnP_append_cons_of_forall_mem hrun c h, List.filter_cons_of_pos (by simpa using hne)]

/-- A run at the end. -/
theorem components_last {run : Str} (hne : run ≠ []) (hrun : ∀ c ∈ run, isSep c = false) : components run = [run] := by
  unfold components
  rw [List.splitOnP_eq_singleton hrun, List.filter_cons_of_pos (by simpa using hne), List.filter_nil]

/-! ## The level -/

theorem downs_moves (path : Str) : downs (moves isSep path) = (components path).countP isName := by
  unfold downs moves components
  rw [List.countP_map, List.countP_filter]
  apply List.countP_congr
  intro c _
  have hmove : (decide ((toMove c).rise = 1) = true) ↔ (isName c && decide (c ≠ [])) = true := by
    unfold toMove isName
    split_ifs with hstay hup
    · rcases hstay with rfl | rfl <;> simp
    · simp [hup]
    · obtain ⟨hne, hdot⟩ := not_or.mp hstay
      simp [hne, hdot, hup]
  exact hmove

theorem ups_moves (path : Str) : ups (moves isSep path) = (components path).count [dot, dot] := by
  unfold ups moves components
  rw [List.countP_map, List.count, List.countP_filter]
  apply List.countP_congr
  intro c _
  have hmove : (decide ((toMove c).rise = -1) = true) ↔ ((c == [dot, dot]) && decide (c ≠ [])) = true := by
    unfold toMove
    split_ifs with hstay hup
    · rcases hstay with rfl | rfl <;> simp
    · simp [hup]
    · simp [hup]
  exact hmove

/-- **The net depth.** -/
theorem getPathRecursionLevel_components (path : Str) : getPathRecursionLevel path =
    ((components (cstr path)).countP isName : Int) - (components (cstr path)).count [dot, dot] := by
  rw [getPathRecursionLevel_eq, depth_eq_count, downs_moves, ups_moves]

theorem length_moves_le (path : Str) : (moves isSep path).length ≤ path.length + 1 := by
  induction path with
  | nil => simp
  | cons c path ih =>
    unfold moves at ih ⊢
    rw [List.splitOnP_cons_eq_if_modifyHead]
    split_ifs with h
    · simpa using ih
    · simp only [List.length_map, List.length_modifyHead, List.length_cons] at ih ⊢
      omega

/-- The `int` is never left. -/
theorem getPathRecursionLevel_fits {path : Str} (h : (cstr path).length < 2 ^ 31 - 1) :
    -2 ^ 31 < getPathRecursionLevel path ∧ getPathRecursionLevel path < 2 ^ 31 := by
  have hmoves := length_moves_le (cstr path)
  have hdowns := List.countP_le_length (p := fun m => decide (Move.rise m = 1)) (l := moves isSep (cstr path))
  have hups := List.countP_le_length (p := fun m => decide (Move.rise m = -1)) (l := moves isSep (cstr path))
  rw [getPathRecursionLevel_eq, depth_eq_count]
  unfold downs ups
  omega

end MyServer.Files
