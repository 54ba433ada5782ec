import MyServer.HashMap.Iteration

/-!
# The reset of what a request left

The loop of `Http::controlConnection` over the `other` map of the thread's context. Its iterator stays where
`begin` sets it.
-/

open MyServer.HashMap

namespace MyServer.Http

section

variable {V : Type}

/-- `while (it != other.end ()) delete (*it)`, for so many rounds at most: what is freed. `none` is a loop that
still goes on, or that reads behind a bucket. -/
def resetLoop (other : HashMap V) (it : MyIterator V) : Nat → Option (List V)
  | 0 => none
  | rounds + 1 =>
    match it.listIter with
    | [] => if it.vectorIter = other.data.size then some [] else none
    | e :: _ => (resetLoop other it rounds).map (e.value :: ·)

/-- The loop, and the `clear` behind it. -/
def resetOther (other : HashMap V) (rounds : Nat) : Option (List V × HashMap V) :=
  other.begin.bind fun it => (resetLoop other it rounds).map fun freed => (freed, other.clear)

/-- The loop ends, each stored string is freed once, and nothing is stored then. -/
def ResetDone (other : HashMap V) : Prop :=
  ∃ rounds freed after, resetOther other rounds = some (freed, after) ∧
    freed.Perm (other.entries.map fun n => n.2.value) ∧ after.entries = []

/-- From an entry the loop does not come away. -/
theorem resetLoop_stays {other : HashMap V} {it : MyIterator V} (hentry : it.listIter ≠ []) (rounds : Nat) :
    resetLoop other it rounds = none := by
  obtain ⟨e, rest, hlist⟩ := List.exists_cons_of_ne_nil hentry
  induction rounds with
  | zero => rfl
  | succ rounds ih =>
    rw [resetLoop, hlist]
    dsimp only
    rw [ih]
    rfl

/-- Nothing is live behind a `clear`. -/
theorem entries_clear {other : HashMap V} [Zero V] (hs : Standing other) : other.clear.entries = [] := by
  have hstep : other.step .clear = some (.done, other.clear) := rfl
  obtain ⟨⟨m, hsound⟩, -⟩ := hs
  have hboth : stepBoth (other, m) .clear = some (other.clear, (specStep m (.clear : Op V)).2) := rfl
  have hlive : ∀ i < other.clear.capacity, ∀ e ∈ other.clear.live i, False := by
    intro i hi e he
    rcases hsound.step hboth with hcounted | hgone
    · have hlookup := hcounted.refines.lookup_of_live hi he
      simp [specStep] at hlookup
    · rw [Gone.live hgone i] at he
      cases he
  rw [List.eq_nil_iff_forall_not_mem]
  intro n hn
  obtain ⟨hi, he⟩ := mem_entries.mp hn
  exact hlive n.1 hi n.2 he

/-- Where `begin` leads: to an entry, or to the end where there is none. -/
theorem begin_entry {other : HashMap V} [Zero V] (hs : Standing other) :
    ∃ it, other.begin = some it ∧
      (other.entries = [] ∧ other.atEnd it ∨ other.entries ≠ [] ∧ it.listIter ≠ []) := by
  obtain ⟨⟨m, hcounted | hgone⟩, hf⟩ := hs
  · obtain ⟨it, hbegin, hvisits⟩ := begin_visits hcounted.refines hf
    refine ⟨it, hbegin, ?_⟩
    generalize hentries : other.entries = nodes at hvisits
    cases hvisits with
    | done hend => exact Or.inl ⟨rfl, hend⟩
    | next hlist _ _ => exact Or.inr ⟨List.cons_ne_nil _ _, by rw [hlist]; exact List.cons_ne_nil _ _⟩
  · have hg : Gone other := hgone
    refine ⟨other.endIter, if_neg (not_not.mpr hg.load), Or.inl ⟨?_, rfl, rfl⟩⟩
    unfold entries nodes
    simp [hg.live]

end

section

variable {V : Type} [Zero V] {hashCapacity : Int} {factor : LoadFactor} {h : HashMap V} {moves : List (Move V)}
  {s : Cursored V}

/-- **The reset ends** for an empty map only. -/
theorem resetDone_iff (hnew : new hashCapacity factor = some h) (hrun : Safety.run move moves (start h) = some s) :
    ResetDone s.table ↔ s.table.entries = [] := by
  have hs : Standing s.table := Standing.run (standing_new hnew) hrun
  obtain ⟨it, hbegin, hplace⟩ := begin_entry hs
  constructor
  · rintro ⟨rounds, freed, after, hreset, -, -⟩
    by_contra hne
    obtain ⟨-, hentry⟩ := hplace.resolve_left fun h => hne h.1
    rw [resetOther, hbegin, Option.bind_some, resetLoop_stays hentry] at hreset
    cases hreset
  · intro hempty
    obtain ⟨-, hend, hlist⟩ := hplace.resolve_right fun h => h.1 hempty
    refine ⟨1, [], s.table.clear, ?_, ?_, entries_clear hs⟩
    · rw [resetOther, hbegin, Option.bind_some, resetLoop, hlist]
      dsimp only
      rw [if_pos hend]
      rfl
    · rw [hempty]
      exact .nil

theorem resetDone_new : ∃ (h : HashMap Nat) (s : Cursored Nat), new 0 .default = some h ∧
    Safety.run move [] (start h) = some s ∧ ResetDone s.table :=
  ⟨_, _, rfl, rfl, (@resetDone_iff Nat _ 0 .default _ [] _ rfl rfl).mpr rfl⟩

/-- One string is left, and the worker does not come to the request. -/
theorem not_resetDone : ¬∀ (h : HashMap Nat) (moves : List (Move Nat)) (s : Cursored Nat), new 0 .default = some h →
    Safety.run move moves (start h) = some s → ResetDone s.table := by
  intro hall
  obtain ⟨h, hnew⟩ : ∃ h : HashMap Nat, new 0 .default = some h := ⟨_, rfl⟩
  have hstate : ((new 0 .default).bind fun h : HashMap Nat =>
      (Safety.run move [.op (.put (ascii "a") 1)] (start h)).bind fun s =>
        s.table.begin.map fun it => it.listIter.isEmpty) = some false := by
    decide +kernel
  rw [hnew, Option.bind_some, Option.bind_eq_some_iff] at hstate
  obtain ⟨s, hrun, hbegin⟩ := hstate
  obtain ⟨it, hit, hentry⟩ := Option.map_eq_some_iff.mp hbegin
  obtain ⟨rounds, freed, after, hreset, -, -⟩ := hall h _ s hnew hrun
  rw [resetOther, hit, Option.bind_some, resetLoop_stays (by simpa using hentry)] at hreset
  cases hreset

end

end MyServer.Http
