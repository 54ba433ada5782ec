import Mathlib.Tactic

/-!
# Sets of numbers in words of 64 bits

Bit `i` is bit `i % 64` of word `i / 64`.
-/

namespace MyServer.Words

abbrev Word := BitVec 64

def bit (data : Nat → Word) (i : Nat) : Bool := (data (i / 64)).getLsbD (i % 64)

def setBit (data : Nat → Word) (i : Nat) : Nat → Word :=
  Function.update data (i / 64) (data (i / 64) ||| 1#64 <<< (i % 64))

def clearBit (data : Nat → Word) (i : Nat) : Nat → Word :=
  Function.update data (i / 64) (data (i / 64) &&& ~~~(1#64 <<< (i % 64)))

/-- The lowest bit that is set. -/
def lowest (w : Word) : Option Nat := (List.range 64).find? fun j => w.getLsbD j

theorem getLsbD_one_shift {j k : Nat} (hk : k < 64) : (1#64 <<< j).getLsbD k = decide (k = j) := by
  rw [BitVec.getLsbD_shiftLeft, BitVec.getLsbD_one]
  simp only [hk, decide_true, Bool.true_and, Nat.ofNat_pos]
  by_cases hkj : k < j
  · simp [hkj, Nat.ne_of_lt hkj]
  · simp only [hkj, decide_false, Bool.not_false, Bool.true_and, decide_eq_decide]
    omega

theorem place_iff {i j : Nat} (hword : j / 64 = i / 64) : j % 64 = i % 64 ↔ j = i := by omega

@[simp] theorem bit_zero (i : Nat) : bit (fun _ => 0) i = false := by simp [bit]

theorem bit_setBit (data : Nat → Word) (i j : Nat) :
    bit (setBit data i) j = (bit data j || decide (j = i)) := by
  unfold bit setBit
  by_cases hword : j / 64 = i / 64
  · rw [hword, Function.update_self, BitVec.getLsbD_or, getLsbD_one_shift (Nat.mod_lt _ (by decide))]
    simp only [place_iff hword]
  · have hne : j ≠ i := fun h => hword (by rw [h])
    rw [Function.update_of_ne hword, decide_eq_false hne, Bool.or_false]

theorem bit_clearBit (data : Nat → Word) (i j : Nat) :
    bit (clearBit data i) j = (bit data j && decide (j ≠ i)) := by
  unfold bit clearBit
  by_cases hword : j / 64 = i / 64
  · have hlt : j % 64 < 64 := Nat.mod_lt _ (by decide)
    rw [hword, Function.update_self, BitVec.getLsbD_and, BitVec.getLsbD_not, getLsbD_one_shift hlt]
    simp only [place_iff hword, hlt, decide_true, Bool.true_and, ne_eq, decide_not]
  · have hne : j ≠ i := fun h => hword (by rw [h])
    rw [Function.update_of_ne hword, decide_eq_true hne, Bool.and_true]

theorem lowest_eq_some {w : Word} {j : Nat} (h : lowest w = some j) : j < 64 ∧ w.getLsbD j = true :=
  ⟨List.mem_range.mp (List.mem_of_find?_eq_some h), by simpa using List.find?_some h⟩

theorem lowest_eq_none {w : Word} (h : lowest w = none) {j : Nat} (hj : j < 64) : w.getLsbD j = false := by
  have hnone := List.find?_eq_none.mp h j (List.mem_range.mpr hj)
  simpa using hnone

/-- A word that has a lowest bit has it in the set, under its own number. -/
theorem bit_of_lowest {data : Nat → Word} {n j : Nat} (h : lowest (data n) = some j) :
    bit data (n * 64 + j) = true := by
  obtain ⟨hj, hset⟩ := lowest_eq_some h
  unfold bit
  rwa [show (n * 64 + j) / 64 = n by omega, show (n * 64 + j) % 64 = j by omega]

theorem not_bit_of_lowest {data : Nat → Word} {i : Nat} (h : lowest (data (i / 64)) = none) :
    bit data i = false :=
  lowest_eq_none h (Nat.mod_lt _ (by decide))

end MyServer.Words
