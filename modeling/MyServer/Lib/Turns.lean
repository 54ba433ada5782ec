import Mathlib.Tactic
import Mathlib.Algebra.BigOperators.Group.Finset.Basic
import Mathlib.Algebra.Order.BigOperators.Group.Finset

/-!
# Taking turns

Classes `0 .. n - 1` are served in a circle, each up to its quota before the next
one has its turn. The budget of a class is how often others may still be served
before it.
-/

namespace MyServer.Turns

open Finset

variable (n : ℕ) (quota : ℕ → ℕ)

/-- How many turns it is from the turn of `cur` to the turn of `c`. -/
def ahead (c cur : ℕ) : ℕ := (c + (n - cur)) % n

/-- The quotas of the classes strictly between `cur` and `c`. -/
def between (c cur : ℕ) : ℕ := ∑ i ∈ Ico 1 (ahead n c cur), quota ((cur + i) % n)

/-- How often others may be served before `c`, when `cur` was served `done` times in its turn. -/
def budget (c cur done : ℕ) : ℕ :=
  if cur = c then if done < quota c then 0 else ∑ p ∈ (range n).erase c, quota p
  else quota cur - done + between n quota c cur

variable {n}

theorem ahead_self {c : ℕ} (hc : c < n) : ahead n c c = 0 := by
  unfold ahead
  rw [Nat.add_sub_cancel' hc.le, Nat.mod_self]

theorem ahead_lt {c cur : ℕ} (hc : c < n) : ahead n c cur < n := Nat.mod_lt _ (by omega)

theorem add_ahead {c cur : ℕ} (hc : c < n) (hcur : cur < n) : (cur + ahead n c cur) % n = c := by
  unfold ahead
  rw [Nat.add_mod_mod, show cur + (c + (n - cur)) = c + n by omega, Nat.add_mod_right,
    Nat.mod_eq_of_lt hc]

/-- The offset below `n` at which `c` stands is unique. -/
theorem ahead_unique {c cur k : ℕ} (hcur : cur < n) (hk : k < n) (h : (cur + k) % n = c) :
    ahead n c cur = k := by
  have hc : c < n := by
    rw [← h]
    exact Nat.mod_lt _ (by omega)
  have hmod : (cur + ahead n c cur) % n = (cur + k) % n := by rw [add_ahead hc hcur, h]
  have hcancel : ahead n c cur ≡ k [MOD n] := Nat.ModEq.add_left_cancel' cur hmod
  unfold Nat.ModEq at hcancel
  rwa [Nat.mod_eq_of_lt (ahead_lt hc), Nat.mod_eq_of_lt hk] at hcancel

theorem ahead_pos {c cur : ℕ} (hc : c < n) (hcur : cur < n) (hne : cur ≠ c) :
    0 < ahead n c cur := by
  rcases Nat.eq_zero_or_pos (ahead n c cur) with h | h
  · have := add_ahead hc hcur
    rw [h, Nat.add_zero, Nat.mod_eq_of_lt hcur] at this
    exact absurd this hne
  · exact h

/-- The next turn is one nearer. -/
theorem ahead_next {c cur : ℕ} (hc : c < n) (hcur : cur < n) (hne : cur ≠ c) :
    ahead n c ((cur + 1) % n) + 1 = ahead n c cur := by
  have hpos := ahead_pos hc hcur hne
  have hlt := @ahead_lt n c cur hc
  have h : ahead n c ((cur + 1) % n) = ahead n c cur - 1 := by
    apply ahead_unique (Nat.mod_lt _ (by omega)) (by omega)
    rw [Nat.mod_add_mod, show cur + 1 + (ahead n c cur - 1) = cur + ahead n c cur by omega]
    exact add_ahead hc hcur
  omega

/-- Offsets below `ahead` meet each class once, and never `c`. -/
theorem sum_before_le (c cur k : ℕ) (hc : c < n) (hcur : cur < n) (hk : k ≤ ahead n c cur) :
    ∑ i ∈ range k, quota ((cur + i) % n) ≤ ∑ p ∈ (range n).erase c, quota p := by
  have hlt := @ahead_lt n c cur hc
  have hinj : Set.InjOn (fun i => (cur + i) % n) (range k) := by
    intro i hi j hj hij
    have hi' := mem_range.mp hi
    have hj' := mem_range.mp hj
    have hi'' := @ahead_unique n _ cur i hcur (by omega) rfl
    rw [← hi'', ← @ahead_unique n _ cur j hcur (by omega) hij.symm]
  rw [← sum_image (f := quota) hinj]
  apply sum_le_sum_of_subset
  intro p hp
  obtain ⟨i, hi, rfl⟩ := mem_image.mp hp
  have hi' := mem_range.mp hi
  refine mem_erase.mpr ⟨fun h => ?_, mem_range.mpr (Nat.mod_lt _ (by omega))⟩
  have := ahead_unique hcur (by omega) h
  omega

/-- The budget never exceeds the quotas of the others. -/
theorem budget_le {c cur : ℕ} (done : ℕ) (hc : c < n) (hcur : cur < n) :
    budget n quota c cur done ≤ ∑ p ∈ (range n).erase c, quota p := by
  unfold budget
  split_ifs with h h'
  · exact Nat.zero_le _
  · exact le_rfl
  · have hsum := sum_before_le quota c cur (ahead n c cur) hc hcur le_rfl
    have hpos := ahead_pos hc hcur h
    rw [range_eq_Ico, sum_eq_sum_Ico_succ_bot hpos, Nat.add_zero, Nat.mod_eq_of_lt hcur,
      Nat.zero_add] at hsum
    unfold between
    omega

/-- The classes between are the next one and those between it and `c`. -/
theorem between_next {c cur : ℕ} (hc : c < n) (hcur : cur < n) (hne : cur ≠ c)
    (hnext : (cur + 1) % n ≠ c) :
    between n quota c cur = quota ((cur + 1) % n) + between n quota c ((cur + 1) % n) := by
  have hahead := ahead_next hc hcur hne
  have hpos := ahead_pos hc (Nat.mod_lt _ (by omega)) hnext
  unfold between
  rw [sum_eq_sum_Ico_succ_bot (by omega), ← hahead,
    ← sum_Ico_add' (fun i => quota ((cur + i) % n)) 1 (ahead n c ((cur + 1) % n)) 1]
  congr 1
  apply sum_congr rfl
  intro i _
  rw [Nat.mod_add_mod]
  congr 2
  omega

/-- **Passing the turn on** costs nothing, unless `c` had some of its own turn left. -/
theorem budget_next {c cur done : ℕ} (hc : c < n) (hcur : cur < n) (hquota : 0 < quota c)
    (h : cur = c → quota c ≤ done) :
    budget n quota c ((cur + 1) % n) 0 ≤ budget n quota c cur done := by
  by_cases hne : cur = c
  · have hfull : budget n quota c cur done = ∑ p ∈ (range n).erase c, quota p := by
      unfold budget
      rw [if_pos hne, if_neg (not_lt.mpr (h hne))]
    rw [hfull]
    exact budget_le quota 0 hc (Nat.mod_lt _ (by omega))
  · by_cases hlast : (cur + 1) % n = c
    · unfold budget
      rw [if_pos hlast, if_pos hquota]
      exact Nat.zero_le _
    · have hbetween := between_next quota hc hcur hne hlast
      unfold budget
      rw [if_neg hlast, if_neg hne]
      omega

/-- **Serving another class** uses the budget up. -/
theorem budget_serve {c cur done : ℕ} (hne : cur ≠ c) (hdone : done < quota cur) :
    budget n quota c cur (done + 1) + 1 = budget n quota c cur done := by
  unfold budget
  rw [if_neg hne, if_neg hne]
  omega

end MyServer.Turns
