import Mathlib.Tactic
import Std.Data.ExtTreeMap
import Std.Data.ExtTreeSet

/-!
# Ordered maps with an indexing that inserts

`m[k]` of an ordered map gives the value at `k` and puts a default value there
when there is none. `index` is the value, `touch` is the map it leaves, and
`assign` is what an assignment through it leaves.
-/

open Std

namespace MyServer

abbrev OrdMap (κ ν : Type) [Ord κ] := ExtTreeMap κ ν compare

namespace OrdMap

variable {κ ν : Type} [Ord κ] [TransOrd κ]

section Index

variable [Inhabited ν]

def index (m : OrdMap κ ν) (k : κ) : ν := m.getD k default

def assign (m : OrdMap κ ν) (k : κ) (f : ν → ν) : OrdMap κ ν := m.insert k (f (m.index k))

def touch (m : OrdMap κ ν) (k : κ) : OrdMap κ ν := m.assign k id

theorem index_eq (m : OrdMap κ ν) (k : κ) : m.index k = m[k]?.getD default :=
  ExtTreeMap.getD_eq_getD_getElem?

theorem index_of_not_mem {m : OrdMap κ ν} {k : κ} (h : k ∉ m) : m.index k = default := by
  rw [index_eq, ExtTreeMap.getElem?_eq_none h, Option.getD_none]

theorem getElem?_of_mem {m : OrdMap κ ν} {k : κ} (h : k ∈ m) : m[k]? = some (m.index k) := by
  obtain ⟨v, hv⟩ := Option.isSome_iff_exists.mp (ExtTreeMap.isSome_getElem?_iff_mem.mpr h)
  rw [index_eq, hv, Option.getD_some]

@[simp] theorem index_empty (k : κ) : (∅ : OrdMap κ ν).index k = default :=
  index_of_not_mem ExtTreeMap.not_mem_empty

end Index

theorem isEmpty_of_mem {m : OrdMap κ ν} {k : κ} (h : k ∈ m) : m.isEmpty = false := by
  apply ExtTreeMap.isEmpty_eq_false_iff.mpr
  rintro rfl
  exact ExtTreeMap.not_mem_empty h

variable [LawfulEqOrd κ]

theorem mem_put {m : OrdMap κ ν} {k a : κ} {v : ν} : a ∈ m.insert k v ↔ k = a ∨ a ∈ m := by
  rw [ExtTreeMap.mem_insert, LawfulEqCmp.compare_eq_iff_eq]

theorem nodup_keys (m : OrdMap κ ν) : m.keys.Nodup := by
  apply List.Pairwise.imp _ ExtTreeMap.distinct_keys
  intro a b h hab
  exact h (LawfulEqCmp.compare_eq_iff_eq.mpr hab)

variable [DecidableEq κ]

theorem getElem?_put (m : OrdMap κ ν) (k a : κ) (v : ν) :
    (m.insert k v)[a]? = if k = a then some v else m[a]? := by
  rw [ExtTreeMap.getElem?_insert]
  simp only [LawfulEqCmp.compare_eq_iff_eq]

theorem getElem?_cut (m : OrdMap κ ν) (k a : κ) :
    (m.erase k)[a]? = if k = a then none else m[a]? := by
  rw [ExtTreeMap.getElem?_erase]
  simp only [LawfulEqCmp.compare_eq_iff_eq]

theorem getD_put (m : OrdMap κ ν) (k a : κ) (v w : ν) : (m.insert k v).getD a w = if k = a then v else m.getD a w := by
  rw [ExtTreeMap.getD_eq_getD_getElem?, getElem?_put, ExtTreeMap.getD_eq_getD_getElem?]
  split_ifs <;> rfl

theorem getD_cut (m : OrdMap κ ν) (k a : κ) (w : ν) : (m.erase k).getD a w = if k = a then w else m.getD a w := by
  rw [ExtTreeMap.getD_eq_getD_getElem?, getElem?_cut, ExtTreeMap.getD_eq_getD_getElem?]
  split_ifs <;> rfl

variable [Inhabited ν]

theorem index_put (m : OrdMap κ ν) (k a : κ) (v : ν) :
    index (m.insert k v) a = if k = a then v else m.index a := by
  rw [index_eq, index_eq, getElem?_put]
  split <;> rfl

theorem index_cut (m : OrdMap κ ν) (k a : κ) :
    index (m.erase k) a = if k = a then default else m.index a := by
  rw [index_eq, index_eq, getElem?_cut]
  split <;> rfl

theorem index_assign (m : OrdMap κ ν) (k a : κ) (f : ν → ν) :
    (m.assign k f).index a = if k = a then f (m.index k) else m.index a :=
  index_put m k a _

@[simp] theorem index_touch (m : OrdMap κ ν) (k a : κ) : (m.touch k).index a = m.index a := by
  rw [touch, index_assign]
  split
  next h => rw [h, id]
  next => rfl

omit [DecidableEq κ] in
@[simp] theorem mem_assign {m : OrdMap κ ν} {k a : κ} {f : ν → ν} :
    a ∈ m.assign k f ↔ k = a ∨ a ∈ m := mem_put

omit [DecidableEq κ] in
@[simp] theorem mem_touch {m : OrdMap κ ν} {k a : κ} : a ∈ m.touch k ↔ k = a ∨ a ∈ m := mem_put

/-- An assignment of the value that is there. -/
theorem assign_of_eq {m : OrdMap κ ν} {k : κ} {f : ν → ν} (hk : k ∈ m)
    (hf : f (m.index k) = m.index k) : m.assign k f = m := by
  apply ExtTreeMap.ext_getElem?
  intro a
  rw [assign, getElem?_put, hf]
  split
  next h => rw [← h, getElem?_of_mem hk]
  next => rfl

theorem touch_of_mem {m : OrdMap κ ν} {k : κ} (hk : k ∈ m) : m.touch k = m := assign_of_eq hk rfl

theorem assign_assign (m : OrdMap κ ν) (k : κ) (f g : ν → ν) :
    (m.assign k f).assign k g = m.assign k (g ∘ f) := by
  apply ExtTreeMap.ext_getElem?
  intro a
  rw [assign, getElem?_put, index_assign, if_pos rfl, assign, assign, getElem?_put, getElem?_put]
  split <;> rfl

theorem touch_assign (m : OrdMap κ ν) (k : κ) (f : ν → ν) : (m.touch k).assign k f = m.assign k f :=
  assign_assign m k id f

end OrdMap

end MyServer
