import Mathlib.Tactic

/-!
# Guarded blocks

A program is a sequence of actions and of blocks that run when their guard
holds. Some actions stop the program. Two ways to run it are compared: one
stops everything at the first of them, the other only stops the block that
the action stands in.
-/

namespace MyServer.Block

inductive Prog (α : Type) where
  | nil
  | act (a : α) (rest : Prog α)
  | block (guard : Bool) (body rest : Prog α)

variable {α σ β : Type} (stop : α → Bool) (step : σ → α → σ)

def Prog.actions : Prog α → List α
  | nil => []
  | act a rest => a :: rest.actions
  | block guard body rest => (if guard then body.actions else []) ++ rest.actions

/-- Run up to the first stopping action, and say whether there was one. -/
def Prog.run : Prog α → σ → σ × Bool
  | nil, s => (s, false)
  | act a rest, s => if stop a then (step s a, true) else rest.run (step s a)
  | block guard body rest, s =>
    if guard then
      if (body.run s).2 then body.run s else rest.run (body.run s).1
    else rest.run s

/-- The actions met when a stopping action only ends its own block. -/
def Prog.met : Prog α → List α
  | nil => []
  | act a rest => if stop a then [a] else a :: rest.met
  | block guard body rest => (if guard then body.met else []) ++ rest.met

/-- The list through its first stopping action, and what comes after it. -/
def through : List α → List α
  | [] => []
  | a :: l => if stop a then [a] else a :: through l

def after : List α → List α
  | [] => []
  | a :: l => if stop a then l else after l

/-- What is still met after the first stopping action. -/
def Prog.leftover (p : Prog α) : List α := after stop (p.met stop)

theorem through_append_after (l : List α) : through stop l ++ after stop l = l := by
  induction l with
  | nil => rfl
  | cons a l ih => by_cases h : stop a <;> simp [through, after, h, ih]

theorem through_append (l m : List α) :
    through stop (l ++ m) = if l.any stop then through stop l else l ++ through stop m := by
  induction l with
  | nil => simp
  | cons a l ih =>
    by_cases h : stop a
    · simp [through, h]
    · cases hl : l.any stop <;> simp [through, h, ih, hl]

theorem through_of_none {l : List α} (h : l.any stop = false) : through stop l = l := by
  simpa [h, through] using through_append stop l []

theorem any_met (p : Prog α) : (p.met stop).any stop = p.actions.any stop := by
  induction p with
  | nil => rfl
  | act a rest ih => by_cases h : stop a <;> simp [Prog.met, Prog.actions, h, ih]
  | block guard body rest ihb ihr => cases guard <;> simp [Prog.met, Prog.actions, ihb, ihr]

theorem through_met (p : Prog α) : through stop (p.met stop) = through stop p.actions := by
  induction p with
  | nil => rfl
  | act a rest ih => by_cases h : stop a <;> simp [Prog.met, Prog.actions, through, h, ih]
  | block guard body rest ihb ihr =>
    cases guard with
    | false => simpa [Prog.met, Prog.actions] using ihr
    | true =>
      simp only [Prog.met, Prog.actions, if_true, through_append, any_met, ihb, ihr]
      split_ifs with h
      · rfl
      · have hbody : body.actions.any stop = false := by simpa using h
        rw [through_of_none stop ((any_met stop body).trans hbody), through_of_none stop hbody] at ihb
        rw [ihb]

theorem met_of_none {p : Prog α} (h : p.actions.any stop = false) : p.met stop = p.actions := by
  rw [← through_of_none stop ((any_met stop p).trans h), through_met, through_of_none stop h]

theorem met_eq (p : Prog α) : p.met stop = through stop p.actions ++ p.leftover stop := by
  rw [← through_met, Prog.leftover, through_append_after]

theorem any_through (l : List α) : (through stop l).any stop = l.any stop := by
  induction l with
  | nil => rfl
  | cons a l ih => by_cases h : stop a <;> simp [through, h, ih]

/-- **The first stopping action ends the run**, at whatever depth it stands. -/
theorem run_eq (p : Prog α) (s : σ) :
    p.run stop step s = ((through stop p.actions).foldl step s, p.actions.any stop) := by
  induction p generalizing s with
  | nil => rfl
  | act a rest ih => by_cases h : stop a <;> simp [Prog.run, Prog.actions, through, h, ih]
  | block guard body rest ihb ihr =>
    cases guard with
    | false => simpa [Prog.run, Prog.actions] using ihr s
    | true =>
      simp only [Prog.run, Prog.actions, if_true, through_append, ihb, ihr, List.any_append]
      split_ifs with h
      · rw [h, Bool.true_or]
      · have hbody : body.actions.any stop = false := by simpa using h
        rw [hbody, Bool.false_or, List.foldl_append, through_of_none stop hbody]

/-- Stopping only the own block is the run that stops everything, and then the leftover. -/
theorem foldl_met (p : Prog α) (s : σ) :
    (p.met stop).foldl step s = (p.leftover stop).foldl step (p.run stop step s).1 := by
  rw [met_eq, List.foldl_append, run_eq]

/-! ## The last write wins -/

/-- What the last of the actions that write a field writes to it. -/
def lastWrite (writes : α → Option β) (l : List α) : Option β := (l.filterMap writes).getLast?

@[simp] theorem lastWrite_nil (writes : α → Option β) : lastWrite writes [] = none := rfl

theorem lastWrite_append (writes : α → Option β) (l m : List α) :
    lastWrite writes (l ++ m) = (lastWrite writes m).or (lastWrite writes l) := by
  rw [lastWrite, List.filterMap_append, List.getLast?_append]
  rfl

theorem lastWrite_concat (writes : α → Option β) (l : List α) (a : α) :
    lastWrite writes (l ++ [a]) = (writes a).or (lastWrite writes l) := by
  rw [lastWrite_append]
  cases h : writes a <;> simp [lastWrite, h]

theorem get_foldl (get : σ → β) (writes : α → Option β)
    (h : ∀ s a, get (step s a) = (writes a).getD (get s)) (l : List α) (s : σ) :
    get (l.foldl step s) = (lastWrite writes l).getD (get s) := by
  induction l using List.reverseRecOn with
  | nil => rfl
  | append_singleton l a ih =>
    rw [List.foldl_concat, h, ih, lastWrite_concat]
    cases writes a <;> rfl

end MyServer.Block
