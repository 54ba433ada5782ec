import MyServer.Lib.Heap

/-!
# A block that is written one cell at a time

The loops that write to it go from its front to its back, behind what they read.
-/

namespace MyServer.Cells

open Heap

variable {α : Type}

/-- `none` outside the block. -/
def put (b : List α) (i : Nat) (a : α) : Option (List α) := if i < b.length then some (b.set i a) else none

def copy (b : List α) (i : Nat) (text : List α) : Option (List α) :=
  if i + text.length ≤ b.length then some (splice b i text) else none

section

variable {a c : α} {b front back text : List α} {i k : Nat}

theorem put_append (front back : List α) (a c : α) :
    put (front ++ a :: back) front.length c = some (front ++ [c] ++ back) := by
  unfold put
  rw [if_pos (by simp), List.set_append_right _ _ le_rfl, Nat.sub_self, List.append_assoc]
  rfl

theorem getElem?_front (front back : List α) (k : Nat) : (front ++ back)[front.length + k]? = (back.drop k).head? := by
  rw [List.getElem?_append_right (Nat.le_add_right _ _), Nat.add_sub_cancel_left, List.head?_drop]

theorem length_put {b' : List α} (hput : put b i a = some b') : b'.length = b.length := by
  unfold put at hput
  split_ifs at hput
  cases hput
  exact List.length_set

theorem splice_append (front old back text : List α) (hlength : old.length = text.length) :
    splice (front ++ (old ++ back)) front.length text = front ++ text ++ back := by
  unfold splice
  rw [List.take_left, ← hlength, ← List.length_append, ← List.append_assoc, List.drop_left]

/-- The cell behind what was copied. -/
theorem put_splice (hlt : i + text.length < b.length) (a : α) :
    put (splice b i text) (i + text.length) a = some (splice b i (text ++ [a])) := by
  obtain ⟨c, back, hback⟩ := List.exists_cons_of_length_pos
    (show 0 < (b.drop (i + text.length)).length by rw [List.length_drop]; omega)
  have hfront : (b.take i ++ text).length = i + text.length := by
    rw [List.length_append, List.length_take_of_le (by omega)]
  have hput := put_append (b.take i ++ text) back c a
  have htail : b.drop (i + (text ++ [a]).length) = back := by
    rw [List.length_append, List.length_singleton, ← Nat.add_assoc, ← List.drop_drop, hback]
    rfl
  rw [hfront, ← hback] at hput
  unfold splice
  rw [hput, htail, List.append_assoc, List.append_assoc, List.append_assoc, List.append_assoc]

theorem getElem?_splice (hle : i + text.length ≤ b.length) :
    (splice b i text)[k]? = if k < i then b[k]? else if k < i + text.length then text[k - i]? else b[k]? := by
  unfold splice
  have htake : (b.take i).length = i := List.length_take_of_le (by omega)
  split_ifs with hfirst hsecond
  · rw [List.append_assoc, List.getElem?_append_left (by omega), List.getElem?_take_of_lt hfirst]
  · rw [List.getElem?_append_left (by rw [List.length_append]; omega), List.getElem?_append_right (by omega), htake]
  · rw [List.getElem?_append_right (by rw [List.length_append]; omega), List.length_append, htake, List.getElem?_drop]
    congr 1
    omega

end

end MyServer.Cells
