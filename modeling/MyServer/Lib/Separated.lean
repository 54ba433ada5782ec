import Mathlib.Data.List.TakeWhile
import Mathlib.Tactic

/-!
# Fields behind separators

A text that ends in fields, each behind a separator that is in none of them, gives the fields back. The runs
between separators, where several stand for one.
-/

namespace MyServer.Separated

variable {α : Type} {sep : α}

/-- The fields, each behind a separator. -/
def fields (sep : α) (xs : List (List α)) : List α := (xs.map (sep :: ·)).flatten

@[simp] theorem fields_nil : fields sep [] = [] := rfl

@[simp] theorem fields_cons (x : List α) (xs : List (List α)) : fields sep (x :: xs) = sep :: x ++ fields sep xs := by
  simp [fields]

@[simp] theorem fields_append (xs ys : List (List α)) : fields sep (xs ++ ys) = fields sep xs ++ fields sep ys := by
  simp [fields]

/-- The last field. -/
theorem append_cons_inj {a b x y : List α} (hx : sep ∉ x) (hy : sep ∉ y) (h : a ++ sep :: x = b ++ sep :: y) :
    a = b ∧ x = y := by
  rcases List.append_eq_append_iff.mp h with ⟨c, hb, hc⟩ | ⟨c, ha, hc⟩
  · cases c with
    | nil =>
      rw [List.nil_append, List.cons_inj_right] at hc
      exact ⟨by simpa using hb.symm, hc⟩
    | cons d c =>
      obtain ⟨rfl, hxc⟩ := List.cons.inj hc
      exact absurd (hxc ▸ List.mem_append_right c List.mem_cons_self) hx
  · cases c with
    | nil =>
      rw [List.nil_append, List.cons_inj_right] at hc
      exact ⟨by simpa using ha, hc.symm⟩
    | cons d c =>
      obtain ⟨rfl, hyc⟩ := List.cons.inj hc
      exact absurd (hyc ▸ List.mem_append_right c List.mem_cons_self) hy

/-- **Fields are read from the end.** -/
theorem fields_inj {a b : List α} {xs ys : List (List α)} (hxs : ∀ x ∈ xs, sep ∉ x) (hys : ∀ y ∈ ys, sep ∉ y)
    (hlen : xs.length = ys.length) (h : a ++ fields sep xs = b ++ fields sep ys) : a = b ∧ xs = ys := by
  induction xs using List.reverseRecOn generalizing ys with
  | nil =>
    obtain rfl := List.length_eq_zero_iff.mp hlen.symm
    exact ⟨by simpa using h, rfl⟩
  | append_singleton xs x ih =>
    rcases List.eq_nil_or_concat ys with rfl | ⟨ys, y, rfl⟩
    · simp at hlen
    · rw [List.concat_eq_append] at *
      simp only [fields_append, fields_cons, fields_nil, List.append_nil, ← List.append_assoc] at h
      obtain ⟨hfront, rfl⟩ := append_cons_inj (hxs x (by simp)) (hys y (by simp)) h
      obtain ⟨rfl, rfl⟩ := ih (fun z hz => hxs z (by simp [hz])) (fun z hz => hys z (by simp [hz]))
        (by simpa using hlen) hfront
      exact ⟨rfl, rfl⟩

/-! ## Runs -/

/-- By what is in front of the first separator. -/
theorem parts_induction [DecidableEq α] (sep : α) {p : List α → Prop} (last : ∀ t, sep ∉ t → p t)
    (more : ∀ a b, sep ∉ a → p b → p (a ++ sep :: b)) (text : List α) : p text := by
  induction h : text.length using Nat.strong_induction_on generalizing text with
  | _ n ih =>
    by_cases hmem : sep ∈ text
    · obtain ⟨a, b, rfl, ha⟩ := List.eq_append_cons_of_mem hmem
      refine more a b ha (ih b.length ?_ b rfl)
      rw [← h, List.length_append, List.length_cons]
      omega
    · exact last text hmem

variable [DecidableEq α]

theorem takeWhile_of_notMem {t : List α} (h : sep ∉ t) : t.takeWhile (· ≠ sep) = t := by
  rw [List.takeWhile_eq_self_iff]
  intro c hc
  simpa using fun heq : c = sep => h (heq ▸ hc)

theorem takeWhile_append_cons {a : List α} (h : sep ∉ a) (b : List α) : (a ++ sep :: b).takeWhile (· ≠ sep) = a := by
  rw [List.takeWhile_append_of_pos (List.takeWhile_eq_self_iff.mp (takeWhile_of_notMem h)),
    List.takeWhile_cons_of_neg (by simp), List.append_nil]

def runs (sep : α) (text : List α) : List (List α) := (text.splitOn sep).filter fun t => t ≠ []

@[simp] theorem runs_nil : runs sep [] = [] := rfl

@[simp] theorem runs_append_cons (a b : List α) : runs sep (a ++ sep :: b) = runs sep a ++ runs sep b := by
  rw [runs, List.splitOn_append_cons_self, List.filter_append, runs, runs]

@[simp] theorem runs_cons (b : List α) : runs sep (sep :: b) = runs sep b := runs_append_cons [] b

theorem runs_of_notMem {t : List α} (h : sep ∉ t) (hne : t ≠ []) : runs sep t = [t] := by
  rw [runs, List.splitOn_eq_singleton h, List.filter_cons_of_pos (by simpa using hne), List.filter_nil]

/-- No run is in a text of separators alone. -/
theorem runs_eq_nil_iff (text : List α) : runs sep text = [] ↔ ∀ c ∈ text, c = sep := by
  induction text using parts_induction sep with
  | last t ht =>
    by_cases hne : t = []
    · simp [hne]
    · rw [runs_of_notMem ht hne]
      refine iff_of_false (by simp) fun h => ?_
      obtain ⟨c, hc⟩ := List.exists_mem_of_ne_nil t hne
      exact ht (h c hc ▸ hc)
  | more a b ha ih =>
    rw [runs_append_cons, List.append_eq_nil_iff, ih]
    have hfront : runs sep a = [] ↔ ∀ c ∈ a, c = sep := by
      by_cases hne : a = []
      · simp [hne]
      · rw [runs_of_notMem ha hne]
        refine iff_of_false (by simp) fun h => ?_
        obtain ⟨c, hc⟩ := List.exists_mem_of_ne_nil a hne
        exact ha (h c hc ▸ hc)
    simp only [hfront, List.forall_mem_append, List.forall_mem_cons, true_and]

/-- Some of the runs and the others have a separator between them. -/
theorem exists_cut {text : List α} {q r : List (List α)} (h : runs sep text = q ++ r) (hq : q ≠ []) (hr : r ≠ []) :
    ∃ a b, text = a ++ sep :: b ∧ runs sep a = q ∧ runs sep b = r := by
  induction text using parts_induction sep generalizing q with
  | last t ht =>
    by_cases hne : t = []
    · rw [hne, runs_nil] at h
      exact absurd (List.append_eq_nil_iff.mp h.symm).1 hq
    · rw [runs_of_notMem ht hne] at h
      have hlength := congrArg List.length h
      have hqpos := List.length_pos_iff.mpr hq
      have hrpos := List.length_pos_iff.mpr hr
      rw [List.length_append, List.length_singleton] at hlength
      omega
  | more a b ha ih =>
    rw [runs_append_cons] at h
    by_cases hne : a = []
    · rw [hne, runs_nil, List.nil_append] at h
      obtain ⟨c, d, rfl, hc, hd⟩ := ih h hq
      exact ⟨sep :: c, d, by rw [hne]; rfl, by rw [runs_cons, hc], hd⟩
    · rw [runs_of_notMem ha hne, List.singleton_append] at h
      obtain ⟨run, q, rfl⟩ := List.exists_cons_of_ne_nil hq
      rw [List.cons_append] at h
      obtain ⟨rfl, hrest⟩ := List.cons.inj h
      by_cases hmore : q = []
      · exact ⟨a, b, rfl, by rw [runs_of_notMem ha hne, hmore], by rw [hrest, hmore, List.nil_append]⟩
      · obtain ⟨c, d, rfl, hc, hd⟩ := ih hrest hmore
        refine ⟨a ++ sep :: c, d, by simp, ?_, hd⟩
        rw [runs_append_cons, runs_of_notMem ha hne, hc, List.singleton_append]

end MyServer.Separated
