import Mathlib.Tactic

/-!
# Walks in a tree of names

A move goes down to a named child, up to the parent, or nowhere. A position is
the list of names from the bottom up to the node where the walk started.
-/

namespace MyServer.Walk

inductive Move (α : Type) where
  | stay
  | up
  | down (name : α)
  deriving DecidableEq, Repr

variable {α : Type}

def Move.rise : Move α → Int
  | .stay => 0
  | .up => -1
  | .down _ => 1

def depth (moves : List (Move α)) : Int := (moves.map Move.rise).sum

/-- The walk is at or below its start after each of its prefixes. -/
def Confined (moves : List (Move α)) : Prop := ∀ k, 0 ≤ depth (moves.take k)

/-- The position after the moves, or `none` once the walk climbs above its start. -/
def walk : List α → List (Move α) → Option (List α)
  | pos, [] => some pos
  | pos, .stay :: moves => walk pos moves
  | pos, .down name :: moves => walk (name :: pos) moves
  | [], .up :: _ => none
  | _ :: pos, .up :: moves => walk pos moves

@[simp] theorem depth_nil : depth ([] : List (Move α)) = 0 := rfl

@[simp] theorem depth_cons (m : Move α) (moves : List (Move α)) :
    depth (m :: moves) = m.rise + depth moves := by simp [depth]

@[simp] theorem depth_append (a b : List (Move α)) : depth (a ++ b) = depth a + depth b := by
  simp [depth]

@[simp] theorem rise_stay : (Move.stay : Move α).rise = 0 := rfl
@[simp] theorem rise_up : (Move.up : Move α).rise = -1 := rfl
@[simp] theorem rise_down (name : α) : (Move.down name).rise = 1 := rfl

theorem confined_append_of_nonneg {a b : List (Move α)} (hb : ∀ m ∈ b, 0 ≤ m.rise) :
    Confined (a ++ b) ↔ Confined a := by
  have hdepth : ∀ n, 0 ≤ depth (b.take n) := by
    intro n
    apply List.sum_nonneg
    simp only [List.mem_map]
    rintro _ ⟨m, hm, rfl⟩
    exact hb m (List.mem_of_mem_take hm)
  unfold Confined
  simp only [List.take_append, depth_append]
  constructor
  · intro h k
    rcases le_total k a.length with hk | hk
    · have := h k
      rw [Nat.sub_eq_zero_of_le hk, List.take_zero, depth_nil] at this
      omega
    · have := h a.length
      rw [Nat.sub_self, List.take_zero, depth_nil, List.take_of_length_le le_rfl] at this
      rw [List.take_of_length_le hk]
      omega
  · intro h k
    have := h k
    have := hdepth (k - a.length)
    omega

theorem confined_stay_cons (moves : List (Move α)) :
    Confined (.stay :: moves) ↔ Confined moves := by
  constructor
  · intro h k
    simpa using h (k + 1)
  · intro h k
    cases k with
    | zero => simp
    | succ k => simpa using h k

/-- From `d` levels below the start, the moves never climb above it. -/
def ConfinedFrom (d : Nat) (moves : List (Move α)) : Prop := ∀ k, 0 ≤ d + depth (moves.take k)

theorem confinedFrom_zero (moves : List (Move α)) : ConfinedFrom 0 moves ↔ Confined moves := by
  simp [ConfinedFrom, Confined]

theorem confinedFrom_cons (d e : Nat) (m : Move α) (moves : List (Move α))
    (h : (e : Int) = d + m.rise) : ConfinedFrom d (m :: moves) ↔ ConfinedFrom e moves := by
  constructor
  · intro hc k
    have := hc (k + 1)
    rw [List.take_succ_cons, depth_cons] at this
    omega
  · intro hc k
    cases k with
    | zero => simp
    | succ k =>
      have := hc k
      rw [List.take_succ_cons, depth_cons]
      omega

theorem walk_isSome_iff (pos : List α) (moves : List (Move α)) :
    (walk pos moves).isSome ↔ ConfinedFrom pos.length moves := by
  induction moves generalizing pos with
  | nil => simp [walk, ConfinedFrom]
  | cons m moves ih =>
    cases m with
    | stay => rw [walk, ih, confinedFrom_cons pos.length pos.length .stay moves (by simp)]
    | down name =>
      rw [walk, ih, confinedFrom_cons pos.length (name :: pos).length (.down name) moves (by simp)]
    | up =>
      cases pos with
      | nil =>
        simp only [walk, Option.isSome_none, Bool.false_eq_true, List.length_nil, false_iff]
        intro h
        have := h 1
        simp at this
      | cons name pos =>
        rw [walk, ih, confinedFrom_cons (name :: pos).length pos.length .up moves (by simp)]

/-- A walk that stays below its start goes the same way from anywhere in the tree. -/
theorem walk_append (pos base : List α) (moves : List (Move α)) (q : List α)
    (h : walk pos moves = some q) : walk (pos ++ base) moves = some (q ++ base) := by
  induction moves generalizing pos with
  | nil => simp_all [walk]
  | cons m moves ih =>
    cases m with
    | stay => exact ih pos h
    | down name => exact ih (name :: pos) h
    | up =>
      cases pos with
      | nil => simp [walk] at h
      | cons name pos => exact ih pos h

/-- **A confined walk ends below its start**, wherever the start lies. -/
theorem Confined.ends_below {moves : List (Move α)} (h : Confined moves) (base : List α) :
    ∃ q, walk base moves = some (q ++ base) := by
  rw [← confinedFrom_zero] at h
  obtain ⟨q, hq⟩ := Option.isSome_iff_exists.mp ((walk_isSome_iff [] moves).mpr h)
  exact ⟨q, walk_append [] base moves q hq⟩

theorem walk_append_moves (pos : List α) (a b : List (Move α)) :
    walk pos (a ++ b) = (walk pos a).bind fun mid => walk mid b := by
  induction a generalizing pos with
  | nil => rfl
  | cons m a ih =>
    cases m with
    | stay => exact ih pos
    | down name => exact ih (name :: pos)
    | up =>
      cases pos with
      | nil => rfl
      | cons name pos => exact ih pos

/-- The position after the moves, where up from the top leads nowhere. -/
def arrive : List α → List (Move α) → List α
  | pos, [] => pos
  | pos, .stay :: moves => arrive pos moves
  | pos, .down name :: moves => arrive (name :: pos) moves
  | pos, .up :: moves => arrive pos.tail moves

theorem arrive_append (pos : List α) (a b : List (Move α)) :
    arrive pos (a ++ b) = arrive (arrive pos a) b := by
  induction a generalizing pos with
  | nil => rfl
  | cons m a ih =>
    cases m with
    | stay => exact ih pos
    | up => exact ih pos.tail
    | down name => exact ih (name :: pos)

/-- Without a move up the position stays at or below where it was. -/
theorem suffix_arrive (pos : List α) {moves : List (Move α)} (h : ∀ m ∈ moves, 0 ≤ m.rise) :
    pos <:+ arrive pos moves := by
  induction moves generalizing pos with
  | nil => exact List.suffix_rfl
  | cons m moves ih =>
    have hmoves : ∀ m ∈ moves, 0 ≤ m.rise := fun m hm => h m (List.mem_cons_of_mem _ hm)
    cases m with
    | stay => exact ih pos hmoves
    | up => exact absurd (h .up List.mem_cons_self) (by simp)
    | down name => exact (List.suffix_cons name pos).trans (ih (name :: pos) hmoves)

def proper (moves : List (Move α)) : List (Move α) := moves.filter fun m => m.rise ≠ 0

theorem proper_append (a b : List (Move α)) : proper (a ++ b) = proper a ++ proper b :=
  List.filter_append ..

theorem confinedFrom_proper (d : Nat) (moves : List (Move α)) :
    ConfinedFrom d (proper moves) ↔ ConfinedFrom d moves := by
  induction moves generalizing d with
  | nil => rfl
  | cons m moves ih =>
    cases m with
    | stay =>
      rw [confinedFrom_cons d d .stay moves (by simp), ← ih d]
      rfl
    | down name =>
      have hp : proper (.down name :: moves) = .down name :: proper moves := rfl
      rw [hp, confinedFrom_cons d (d + 1) _ _ (by simp), ih,
        confinedFrom_cons d (d + 1) _ _ (by simp)]
    | up =>
      have hp : proper (.up :: moves) = .up :: proper moves := rfl
      rw [hp]
      cases d with
      | zero =>
        constructor <;> intro h <;> have := h 1 <;> simp at this
      | succ d =>
        rw [confinedFrom_cons (d + 1) d _ _ (by simp), ih,
          confinedFrom_cons (d + 1) d _ _ (by simp)]

theorem confined_proper (moves : List (Move α)) : Confined (proper moves) ↔ Confined moves := by
  rw [← confinedFrom_zero, confinedFrom_proper, confinedFrom_zero]

/-! ## Counting -/

def downs (moves : List (Move α)) : Nat := moves.countP fun m => m.rise = 1
def ups (moves : List (Move α)) : Nat := moves.countP fun m => m.rise = -1

theorem depth_eq_count (moves : List (Move α)) : depth moves = (downs moves : Int) - ups moves := by
  induction moves with
  | nil => rfl
  | cons m moves ih =>
    rw [depth_cons, ih]
    cases m <;> simp [downs, ups] <;> omega

theorem confined_iff_count (moves : List (Move α)) :
    Confined moves ↔ ∀ k, ups (moves.take k) ≤ downs (moves.take k) := by
  unfold Confined
  apply forall_congr'
  intro k
  rw [depth_eq_count]
  omega

end MyServer.Walk
