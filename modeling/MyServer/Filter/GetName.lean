import MyServer.Bytes
import MyServer.Lib.Separated

/-!
# The names of the filters of a chain

`FiltersChain::getName` (filters_chain.cpp) looks at the next filter to decide
whether a comma comes and whether it goes on.
-/

namespace MyServer.Filters

/-- What `modifyData` and `getName` of a filter give, `none` for `NULL`. -/
structure Named where
  modifyData : Bool
  name : Option Str

namespace Named

/-- What is appended to `out` for the filter. -/
def text (f : Named) : Str := f.name.getD []

def own (f : Named) : Str := if f.modifyData then f.text else []

end Named

/-- For the empty list `i++` goes past `end ()`, which in a `std::list` is the sentinel and so `end ()` again. -/
def getName : List Named → Str
  | [] => []
  | [f] => f.own
  | f :: g :: fs => f.own ++ if g.modifyData then ch ',' :: getName (g :: fs) else []

/-- The names of the filters that modify data, with a comma between two of them. -/
def listed (fs : List Named) : Str := [ch ','].intercalate ((fs.filter Named.modifyData).map Named.text)

/-! ## Names behind commas -/

open Separated

theorem intercalate_cons (x : Str) (xs : List Str) : [ch ','].intercalate (x :: xs) = x ++ fields (ch ',') xs := by
  induction xs generalizing x with
  | nil => simp [List.intercalate]
  | cons y ys ih =>
    rw [fields_cons, List.cons_append, ← ih y]
    simp [List.intercalate]

/-- The filters directly behind the first one that modify data. -/
theorem getName_cons (f : Named) (fs : List Named) :
    getName (f :: fs) = f.own ++ fields (ch ',') ((fs.takeWhile Named.modifyData).map Named.text) := by
  induction fs generalizing f with
  | nil => simp [getName]
  | cons g fs ih =>
    unfold getName
    by_cases hg : g.modifyData = true
    · rw [if_pos hg, ih g, List.takeWhile_cons_of_pos hg]
      simp [Named.own, hg]
    · rw [if_neg hg, List.takeWhile_cons_of_neg hg]
      simp

/-- A comma in front is a comma behind only if there is nothing but commas. -/
theorem comma_cons_eq_iff (s : Str) : ch ',' :: s = s ++ [ch ','] ↔ ∀ b ∈ s, b = ch ',' := by
  induction s with
  | nil => simp
  | cons a s ih =>
    rw [List.cons_append, List.cons.injEq, List.forall_mem_cons]
    constructor
    · rintro ⟨rfl, hs⟩
      exact ⟨rfl, ih.mp hs⟩
    · rintro ⟨rfl, hs⟩
      exact ⟨rfl, ih.mpr hs⟩

/-- The filters that modify data stand in front of those that do not. -/
def Fronted (fs : List Named) : Prop := ∀ f ∈ fs.dropWhile Named.modifyData, f.modifyData = false

/-- The first filter does not modify data; among those that do, one without a name comes last and apart from the
others, which follow the first filter, and whose names have only commas. -/
def Disguised : List Named → Prop
  | [] => False
  | f :: fs => f.modifyData = false ∧
    (∀ g ∈ fs.takeWhile Named.modifyData, ∀ b ∈ g.text, b = ch ',') ∧
      ((fs.dropWhile Named.modifyData).filter Named.modifyData).map Named.text = [[]]

theorem filter_split (fs : List Named) :
    fs.filter Named.modifyData = fs.takeWhile Named.modifyData ++ (fs.dropWhile Named.modifyData).filter Named.modifyData := by
  conv_lhs => rw [← List.takeWhile_append_dropWhile (p := Named.modifyData) (l := fs)]
  rw [List.filter_append]
  congr 1
  exact List.filter_eq_self.mpr fun f hf => List.mem_takeWhile_imp hf

theorem fields_eq_nil_iff (xs : List Str) : fields (ch ',') xs = [] ↔ xs = [] := by
  cases xs <;> simp

theorem fields_eq_comma_iff (xs : List Str) : fields (ch ',') xs = [ch ','] ↔ xs = [[]] := by
  cases xs with
  | nil => simp
  | cons x xs => simp [fields_eq_nil_iff]

theorem forall_mem_fields (xs : List Str) :
    (∀ b ∈ fields (ch ',') xs, b = ch ',') ↔ ∀ x ∈ xs, ∀ b ∈ x, b = ch ',' := by
  induction xs with
  | nil => simp
  | cons x xs ih =>
    rw [fields_cons, List.forall_mem_append, List.forall_mem_cons, and_iff_right rfl, ih, List.forall_mem_cons]

theorem fields_of_length {xs : List Str} (h : (fields (ch ',') xs).length = 1) : xs = [[]] := by
  cases xs with
  | nil => simp at h
  | cons x xs =>
    have hx : x.length + (fields (ch ',') xs).length = 0 := by simpa using h
    have hnil := (fields_eq_nil_iff xs).mp (List.length_eq_zero_iff.mp (Nat.eq_zero_of_add_eq_zero hx).2)
    rw [List.length_eq_zero_iff.mp (Nat.eq_zero_of_add_eq_zero hx).1, hnil]

theorem intercalate_eq_nil_iff (xs : List Str) : [ch ','].intercalate xs = [] ↔ xs = [] ∨ xs = [[]] := by
  cases xs with
  | nil => simp [List.intercalate]
  | cons x xs => simp [intercalate_cons, fields_eq_nil_iff]

/-! ## Which chains are named rightly -/

/-- The filters behind those that directly follow, and modify data. -/
def later (fs : List Named) : List Str := ((fs.dropWhile Named.modifyData).filter Named.modifyData).map Named.text

theorem later_eq_nil_iff (fs : List Named) : later fs = [] ↔ Fronted fs := by
  unfold later Fronted
  simp

theorem getName_modifies_iff {f : Named} (hf : f.modifyData = true) (fs : List Named) :
    getName (f :: fs) = listed (f :: fs) ↔ Fronted (f :: fs) := by
  have hfront : Fronted (f :: fs) ↔ later fs = [] := by
    rw [later_eq_nil_iff]
    unfold Fronted
    rw [List.dropWhile_cons_of_pos hf]
  rw [hfront, getName_cons]
  unfold listed
  rw [List.filter_cons_of_pos hf, filter_split, List.map_cons, List.map_append, intercalate_cons, fields_append]
  simp [Named.own, hf, later, fields_eq_nil_iff]

theorem getName_keeps_iff {f : Named} (hf : f.modifyData = false) (fs : List Named) :
    getName (f :: fs) = listed (f :: fs) ↔ Fronted (f :: fs) ∨ Disguised (f :: fs) := by
  have hfront : Fronted (f :: fs) ↔ fs.takeWhile Named.modifyData = [] ∧ later fs = [] := by
    unfold Fronted
    rw [List.dropWhile_cons_of_neg (by simp [hf]), List.forall_mem_cons, and_iff_right hf]
    have hnone : (∀ g ∈ fs, g.modifyData = false) ↔ fs.filter Named.modifyData = [] := by simp
    rw [hnone, filter_split, List.append_eq_nil_iff, later, List.map_eq_nil_iff]
  have hlisted : listed (f :: fs) =
      [ch ','].intercalate ((fs.takeWhile Named.modifyData).map Named.text ++ later fs) := by
    unfold listed later
    rw [List.filter_cons_of_neg (by simp [hf]), filter_split, List.map_append]
  have hdisguised : Disguised (f :: fs) ↔
      (∀ g ∈ fs.takeWhile Named.modifyData, ∀ b ∈ g.text, b = ch ',') ∧ later fs = [[]] := by
    unfold Disguised later
    simp [hf]
  rw [hfront, hlisted, hdisguised, getName_cons]
  have hown : f.own = [] := by simp [Named.own, hf]
  rw [hown, List.nil_append]
  cases fs.takeWhile Named.modifyData with
  | nil =>
    rw [List.map_nil, fields_nil, List.nil_append, eq_comm, intercalate_eq_nil_iff]
    simp
  | cons r rs =>
    rw [List.map_cons, List.cons_append, intercalate_cons, fields_append, fields_cons, ← List.append_assoc,
      List.cons_append]
    set s := r.text ++ fields (ch ',') (rs.map Named.text) with hs
    have hcommas : (∀ b ∈ s, b = ch ',') ↔ ∀ g ∈ r :: rs, ∀ b ∈ g.text, b = ch ',' := by
      rw [hs, List.forall_mem_append, forall_mem_fields, List.forall_mem_cons]
      simp
    rw [← hcommas, ← comma_cons_eq_iff, ← fields_eq_comma_iff]
    constructor
    · intro h
      have hlength := congrArg List.length h
      have hone : (fields (ch ',') (later fs)).length = 1 := by
        simp at hlength
        omega
      rw [fields_of_length hone] at h ⊢
      exact Or.inr ⟨by simpa using h, by simp⟩
    · rintro (⟨hnil, -⟩ | ⟨h, hlater⟩)
      · cases hnil
      · rw [hlater]
        exact h

/-- **Names in list order, between commas**, where the filters that modify data come first. -/
theorem getName_iff (fs : List Named) : getName fs = listed fs ↔ Fronted fs ∨ Disguised fs := by
  cases fs with
  | nil => exact iff_of_true rfl (Or.inl (by simp [Fronted]))
  | cons f fs =>
    cases hf : f.modifyData with
    | false => exact getName_keeps_iff hf fs
    | true =>
      rw [getName_modifies_iff hf]
      simp [Disguised, hf]

/-- A filter that does not modify data in front of `gzip`. -/
theorem not_getName : ¬ ∀ fs : List Named, getName fs = listed fs := by
  intro h
  exact absurd (h [⟨false, some (ascii "log")⟩, ⟨true, some (ascii "gzip")⟩]) (by decide)

end MyServer.Filters
