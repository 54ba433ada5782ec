import Mathlib.Tactic

/-!
# Blocks of memory

Blocks are allocated one after the other and given back. What is copied comes from one of them or from
elsewhere.
-/

namespace MyServer

/-- The blocks by their addresses; one that was given back is `none`. -/
abbrev Heap (α : Type) := List (Option (List α))

namespace Heap

variable {α : Type}

/-- A pointer to a block, or to none. -/
abbrev Ptr := Option Nat

def block (h : Heap α) (p : Ptr) : Option (List α) := p.bind fun a => h[a]?.join

def alloc (h : Heap α) (bytes : List α) : Heap α × Ptr := (h ++ [some bytes], some h.length)

def put (h : Heap α) (p : Ptr) (b : Option (List α)) : Heap α := p.elim h fun a => h.set a b

/-- Only a block that is there can be given back. -/
def free (h : Heap α) (p : Ptr) : Option (Heap α) := (h.block p).map fun _ => h.put p none

inductive Source (α : Type) where
  | outside (bytes : List α)
  | inside (p : Ptr) (offset size : Nat)

namespace Source

def size : Source α → Nat
  | outside bytes => bytes.length
  | inside _ _ size => size

/-- The first `n` of its bytes. Nothing can be read from anywhere. -/
def load (h : Heap α) (n : Nat) : Source α → Option (List α)
  | outside bytes => some (bytes.take n)
  | inside p offset _ =>
    if n = 0 then some []
    else (h.block p).bind fun b => if offset + n ≤ b.length then some ((b.drop offset).take n) else none

theorem load_inside (h : Heap α) (n : Nat) (p : Ptr) (offset size : Nat) :
    (inside p offset size).load h n = if n = 0 then some []
      else (h.block p).bind fun b => if offset + n ≤ b.length then some ((b.drop offset).take n) else none := rfl

/-- It lies across these bytes, and does not begin with them. -/
def Overlaps (p : Ptr) (offset n : Nat) : Source α → Prop
  | outside _ => False
  | inside q offset' _ => q = p ∧ offset' ≠ offset ∧ offset' < offset + n ∧ offset < offset' + n

instance (p : Ptr) (offset n : Nat) (src : Source α) : Decidable (src.Overlaps p offset n) := by
  cases src <;> unfold Overlaps <;> infer_instance

end Source

def splice (b : List α) (offset : Nat) (bytes : List α) : List α :=
  b.take offset ++ bytes ++ b.drop (offset + bytes.length)

/-- `none` where bytes that are not there would be written. -/
def store (h : Heap α) (p : Ptr) (offset : Nat) (bytes : List α) : Option (Heap α) :=
  (h.block p).bind fun b =>
    if offset + bytes.length ≤ b.length then some (h.put p (some (splice b offset bytes))) else none

/-- To copy between parts that overlap is not defined. -/
def memcpy (h : Heap α) (p : Ptr) (offset : Nat) (src : Source α) (n : Nat) : Option (Heap α) :=
  if n = 0 then some h
  else if src.Overlaps p offset n then none
  else (src.load h n).bind (h.store p offset)

/-! ## Blocks -/

section

variable {h : Heap α} {p q : Ptr} {b bytes : List α} {offset n : Nat} {src : Source α}

theorem block_lt {a : Nat} (hb : h.block (some a) = some b) : a < h.length := by
  by_contra hge
  rw [block, Option.bind_some, List.getElem?_eq_none (Nat.le_of_not_lt hge)] at hb
  cases hb

theorem block_alloc (h : Heap α) (bytes : List α) (p : Ptr) :
    (h.alloc bytes).1.block p = if p = some h.length then some bytes else h.block p := by
  cases p with
  | none => rfl
  | some a =>
    unfold alloc block
    rw [Option.bind_some, Option.bind_some]
    by_cases ha : a = h.length
    · subst ha
      rw [if_pos rfl, List.getElem?_concat_length]
      rfl
    · rw [if_neg fun heq => ha (Option.some.inj heq)]
      rcases Nat.lt_or_ge a h.length with hlt | hge
      · rw [List.getElem?_append_left hlt]
      · rw [List.getElem?_eq_none hge, List.getElem?_eq_none (by simp; omega)]

/-- The next block has an address of its own. -/
theorem ne_fresh (hb : h.block p = some b) : p ≠ some h.length := by
  rintro rfl
  exact Nat.lt_irrefl _ (block_lt hb)

theorem block_put (hb : h.block p = some b) (c : Option (List α)) (q : Ptr) :
    (h.put p c).block q = if q = p then c else h.block q := by
  obtain ⟨a, rfl⟩ : ∃ a, p = some a := by
    cases p with
    | none => cases hb
    | some a => exact ⟨a, rfl⟩
  have ha := block_lt hb
  cases q with
  | none => rfl
  | some a' =>
    unfold put block
    rw [Option.elim_some, Option.bind_some, Option.bind_some]
    by_cases haa : a' = a
    · subst haa
      rw [if_pos rfl, List.getElem?_set_self ha]
      rfl
    · rw [if_neg fun heq => haa (Option.some.inj heq), List.getElem?_set_ne (Ne.symm haa)]

theorem length_put (h : Heap α) (p : Ptr) (c : Option (List α)) : (h.put p c).length = h.length := by
  cases p with
  | none => rfl
  | some a => exact List.length_set

/-! ## Copies -/

theorem load_length (hload : src.load h src.size = some bytes) : bytes.length = src.size := by
  cases src with
  | outside bytes' =>
    cases hload
    exact List.length_take_of_le le_rfl
  | inside p offset size =>
    rw [Source.load_inside] at hload
    split_ifs at hload with hzero
    · cases hload
      exact hzero.symm
    · obtain ⟨b, -, hload⟩ := Option.bind_eq_some_iff.mp hload
      split_ifs at hload with hle
      cases hload
      simp only [Source.size] at hzero hle ⊢
      rw [List.length_take, List.length_drop]
      omega

/-- What is read whole can be read in part. -/
theorem load_take (hload : src.load h src.size = some bytes) (hn : n ≤ src.size) :
    src.load h n = some (bytes.take n) := by
  cases src with
  | outside bytes' =>
    cases hload
    have htake : bytes'.take bytes'.length = bytes' := List.take_length
    exact congrArg (fun l => some (List.take n l)) htake.symm
  | inside p offset size =>
    simp only [Source.size] at hn hload
    rw [Source.load_inside] at hload ⊢
    split_ifs at hload with hzero
    · cases hload
      rw [if_pos (by omega), List.take_nil]
    · obtain ⟨b, hb, hload⟩ := Option.bind_eq_some_iff.mp hload
      split_ifs at hload with hle
      cases hload
      split_ifs with hn0
      · rw [hn0, List.take_zero]
      · rw [hb, Option.bind_some, if_pos (by omega), List.take_take, Nat.min_eq_left hn]

theorem load_congr {h' : Heap α} (hsame : ∀ p offset size, src = .inside p offset size → h'.block p = h.block p) :
    src.load h' n = src.load h n := by
  cases src with
  | outside bytes => rfl
  | inside p offset size =>
    rw [Source.load_inside, Source.load_inside, hsame p offset size rfl]

theorem length_splice (hle : offset + bytes.length ≤ b.length) : (splice b offset bytes).length = b.length := by
  unfold splice
  rw [List.length_append, List.length_append, List.length_take, List.length_drop]
  omega

theorem take_splice (hle : offset ≤ b.length) :
    (splice b offset bytes).take (offset + bytes.length) = b.take offset ++ bytes := by
  unfold splice
  exact List.take_left' (by rw [List.length_append, List.length_take, Nat.min_eq_left hle])

theorem memcpy_eq (hb : h.block p = some b) (hload : src.load h n = some bytes) (hlength : bytes.length = n)
    (hle : offset + n ≤ b.length) (hoverlap : ¬src.Overlaps p offset n) (hn : n ≠ 0) :
    h.memcpy p offset src n = some (h.put p (some (splice b offset bytes))) := by
  unfold memcpy store
  rw [if_neg hn, if_neg hoverlap, hload, Option.bind_some, hb, Option.bind_some, hlength, if_pos hle]

theorem memcpy_zero : h.memcpy p offset src 0 = some h := if_pos rfl

theorem memcpy_ne_none (hcopy : h.memcpy p offset src n ≠ none) (hn : n ≠ 0) :
    ¬src.Overlaps p offset n ∧ src.load h n ≠ none := by
  unfold memcpy at hcopy
  rw [if_neg hn] at hcopy
  split_ifs at hcopy with hoverlap
  · exact absurd rfl hcopy
  · refine ⟨hoverlap, fun hload => hcopy ?_⟩
    rw [hload]
    rfl

end

end Heap

end MyServer
