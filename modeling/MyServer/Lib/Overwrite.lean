import Mathlib.Tactic

/-!
# Writing into a file

A write at a position replaces what is there and leaves what is behind it. In front of a position behind the end,
the file is filled up.
-/

namespace MyServer.Overwrite

variable {α : Type} (fill : α)

/-- `text` at `position`. -/
def write (content : List α) (position : Nat) (text : List α) : List α :=
  content.take position ++ List.replicate (position - content.length) fill ++ text ++
    content.drop (position + text.length)

variable {fill} {content a b : List α} {position : Nat}

@[simp] theorem length_write : (write fill content position a).length = max content.length (position + a.length) := by
  simp [write]
  omega

/-- From the beginning, only what is longer than the text stays. -/
@[simp] theorem write_zero : write fill content 0 a = a ++ content.drop a.length := by
  simp [write]

theorem take_write : (write fill content position a).take (position + a.length) =
    content.take position ++ List.replicate (position - content.length) fill ++ a := by
  have hlength : (content.take position ++ List.replicate (position - content.length) fill ++ a).length =
      position + a.length := by
    simp
    omega
  unfold write
  rw [← hlength, List.take_left]

theorem drop_write : (write fill content position a).drop (position + a.length) =
    content.drop (position + a.length) := by
  have hlength : (content.take position ++ List.replicate (position - content.length) fill ++ a).length =
      position + a.length := by
    simp
    omega
  have hleft : (write fill content position a).drop (position + a.length) =
      (content.take position ++ List.replicate (position - content.length) fill ++ a ++
        content.drop (position + a.length)).drop
          (content.take position ++ List.replicate (position - content.length) fill ++ a).length := by
    rw [hlength]
    rfl
  rw [hleft, List.drop_left]

/-- **Two writes one behind the other are one.** -/
theorem write_append : write fill (write fill content position a) (position + a.length) b =
    write fill content position (a ++ b) := by
  have hfilled : position + a.length - (write fill content position a).length = 0 := by
    rw [length_write]
    omega
  have hrest : (write fill content position a).drop (position + a.length + b.length) =
      content.drop (position + a.length + b.length) := by
    rw [← List.drop_drop, drop_write, List.drop_drop]
  change (write fill content position a).take (position + a.length) ++
    List.replicate (position + a.length - (write fill content position a).length) fill ++ b ++
      (write fill content position a).drop (position + a.length + b.length) = _
  rw [take_write, hfilled, hrest, List.replicate_zero, List.append_nil]
  unfold write
  rw [List.length_append, Nat.add_assoc]
  simp only [List.append_assoc]

end MyServer.Overwrite
