import MyServer.Log.Tables

/-!
# What `add` does, case by case

The cases of a location that is shared already and of a new one, in a manager
whose registered triples all have their stream and their owner in the other two
tables (`Sound`).
-/

open Std

namespace MyServer.Log

namespace LogManager

/-- A registered triple has its stream and its owner in the two other tables. -/
structure Sound (m : LogManager) : Prop where
  stream : ∀ tr ls, m.find tr = some ls → m.logStreams[tr.location]? = some ls
  owner : ∀ tr, m.Registered tr → tr.owner ∈ m.ownersOf tr.location
  located : ∀ l, m.ownersOf l ≠ [] → l ∈ m.logStreams

theorem Sound.shared {m : LogManager} (hm : m.Sound) {tr : Triple} (h : m.Registered tr) :
    m.Shared tr.location := by
  have howned : m.ownersOf tr.location ≠ [] := List.ne_nil_of_mem (hm.owner tr h)
  exact ⟨hm.located _ howned, howned⟩

theorem Sound.of_same {m m' : LogManager} (h : SameTables m m') (hm : m.Sound) : m'.Sound where
  stream tr ls hls := by
    rw [h.logStreams]
    exact hm.stream tr ls (by rwa [← h.find])
  owner tr htr := by
    rw [h.ownersOf]
    exact hm.owner tr (by rwa [Registered, ← h.find])
  located l hl := by
    rw [h.logStreams]
    exact hm.located l (by rwa [← h.ownersOf])

theorem shared_of_same {m m' : LogManager} (h : SameTables m m') (l : Str) : m'.Shared l ↔ m.Shared l := by
  unfold Shared
  rw [h.logStreams, h.ownersOf]

theorem registered_of_same {m m' : LogManager} (h : SameTables m m') (tr : Triple) :
    m'.Registered tr ↔ m.Registered tr := by
  unfold Registered
  rw [h.find]

section Add

variable {m : LogManager} {tr : Triple} {env : Surroundings}

/-- The end of an addition to a location that is shared: the warning, when it is due. -/
def warned (m : LogManager) (tr : Triple) (env : Surroundings) : Result :=
  let m' := m.register tr (m.logStreams.index tr.location)
  match env.server with
  | some server =>
    if tr.owner ∉ m.ownersOf tr.location ∧ ¬ env.suppressWarnings then
      m'.serverLog server env tr.location (m'.ownersOf tr.location).length
    else ⟨.returned false, [], m'⟩
  | none => ⟨.returned false, [], m'⟩

theorem add_of_not_created (hl : ¬ m.Shared tr.location) (hc : creates tr.location env.opened = false) :
    m.add tr env = ⟨.returned true, [], (m.containsLocation tr.location).2⟩ := by
  unfold add
  dsimp only
  rw [fst_containsLocation, decide_eq_false hl, hc]
  rfl

/-- A stream for a new location. -/
theorem add_of_created (hl : ¬ m.Shared tr.location) (hc : creates tr.location env.opened = true) :
    m.add tr env =
      let r := (m.containsLocation tr.location).2.newStream.addAll tr
        (m.containsLocation tr.location).2.next
      ⟨.returned r.1, [], r.2⟩ := by
  unfold add
  dsimp only
  rw [fst_containsLocation, decide_eq_false hl, hc]
  rfl

theorem addAll_of_null (ls : StreamId) (h : tr.owner = 0) : m.addAll tr ls = (true, m) := by
  unfold addAll addOwner
  rw [if_pos h]
  rfl

theorem addAll_of_empty (ls : StreamId) (ho : tr.owner ≠ 0) (ht : tr.type = []) :
    m.addAll tr ls = (true, m.touchOwner tr.owner) := by
  unfold addAll
  rw [addOwner_eq m ho]
  unfold addType
  dsimp only
  rw [if_pos ht]
  rfl

theorem add_of_shared (hl : m.Shared tr.location) :
    m.add tr env =
      let (failure, m') := m.addShared tr (m.logStreams.index tr.location)
      match env.server with
      | some server =>
        if ¬ failure ∧ (m.ownersOf tr.location).length < (m'.ownersOf tr.location).length ∧
            ¬ env.suppressWarnings then
          m'.serverLog server env tr.location (m'.ownersOf tr.location).length
        else ⟨.returned failure, [], m'⟩
      | none => ⟨.returned failure, [], m'⟩ := by
  unfold add
  rw [containsLocation_of_shared hl]
  rfl

/-- An addition that fails leaves no warning. -/
theorem add_of_failure {m' : LogManager} (hl : m.Shared tr.location)
    (h : m.addShared tr (m.logStreams.index tr.location) = (true, m')) :
    m.add tr env = ⟨.returned true, [], m'⟩ := by
  rw [add_of_shared hl, h]
  dsimp only
  cases env.server with
  | none => rfl
  | some server => simp

theorem addShared_of_hasType (ls : StreamId) (h : m.HasType tr.owner tr.type) :
    m.addShared tr ls = (true, m) := by
  unfold addShared containsOwner
  rw [decide_eq_true (hasOwner_of_hasType h), containsType_of_hasType h]
  rfl

theorem addShared_of_null (ls : StreamId) (h : ¬ m.HasOwner tr.owner) (h0 : tr.owner = 0) :
    m.addShared tr ls = (true, m) := by
  unfold addShared containsOwner
  rw [decide_eq_false h]
  exact addAll_of_null ls h0

theorem addShared_of_empty (ls : StreamId) (ho : m.HasOwner tr.owner ∨ tr.owner ≠ 0)
    (ht : tr.type = []) : m.addShared tr ls = (true, m.touchOwner tr.owner) := by
  by_cases h : m.HasOwner tr.owner
  · rw [touchOwner_of_hasOwner h]
    have hfail : m.addType tr.owner tr.type = (true, m) := if_pos ht
    unfold addShared containsOwner containsType
    rw [decide_eq_true h, touchOwner_of_hasOwner h]
    simp only [not_true, if_false, hfail, if_true, ite_self]
  · unfold addShared containsOwner
    rw [decide_eq_false h]
    exact addAll_of_empty ls (ho.resolve_left h) ht

theorem addShared_eq (hl : m.Shared tr.location)
    (ho : m.HasOwner tr.owner ∨ tr.owner ≠ 0) (ht : tr.type ≠ [])
    (hnew : ¬ m.HasType tr.owner tr.type) :
    m.addShared tr (m.logStreams.index tr.location) =
      (false, m.register tr (m.logStreams.index tr.location)) := by
  have hstream : m.logStreams[tr.location]? = some (m.logStreams.index tr.location) :=
    OrdMap.getElem?_of_mem hl.1
  have hnot : ¬ m.Registered tr := fun h => hnew (hasType_of_registered h)
  by_cases h : m.HasOwner tr.owner
  · unfold addShared containsOwner containsType
    rw [decide_eq_true h, decide_eq_false hnew, touchOwner_of_hasOwner h]
    simp only [not_true, if_false, Bool.false_eq_true, addType_eq m ht]
    rw [← touchType_register]
    apply addStream_eq
    · exact fun _ => hstream
    · rwa [Registered, find_touchType]
  · unfold addShared containsOwner
    rw [decide_eq_false h]
    exact addAll_eq (ho.resolve_left h) ht (fun _ => hstream) hnot

theorem length_ownersOf_register (ls : StreamId) :
    (m.ownersOf tr.location).length < ((m.register tr ls).ownersOf tr.location).length ↔
      tr.owner ∉ m.ownersOf tr.location := by
  rw [ownersOf_register, if_pos rfl]
  split
  next h => simp [h]
  next h => simp [h]

/-- **A second owner or category for a location.** -/
theorem add_of_register (hl : m.Shared tr.location)
    (ho : m.HasOwner tr.owner ∨ tr.owner ≠ 0) (ht : tr.type ≠ [])
    (hnew : ¬ m.HasType tr.owner tr.type) : m.add tr env = m.warned tr env := by
  rw [add_of_shared hl, addShared_eq hl ho ht hnew]
  unfold warned
  simp only [length_ownersOf_register, Bool.false_eq_true, not_false_eq_true, true_and]

/-- **A new location.** -/
theorem add_of_new (hm : m.Sound) (hl : ¬ m.Shared tr.location)
    (hc : creates tr.location env.opened = true) (ho : tr.owner ≠ 0) (ht : tr.type ≠ []) :
    m.add tr env =
      ⟨.returned false, [],
        (m.containsLocation tr.location).2.newStream.register tr m.next⟩ := by
  have hsame := same_containsLocation m tr.location
  have hnot : ¬ m.Registered tr := fun h => hl (hm.shared h)
  have hall : (m.containsLocation tr.location).2.newStream.addAll tr m.next =
      (false, (m.containsLocation tr.location).2.newStream.register tr m.next) := by
    apply addAll_eq ho ht
    · intro h
      exact absurd ((shared_of_same hsame tr.location).mp h) hl
    · intro h
      exact hnot ((registered_of_same hsame tr).mp h)
  rw [add_of_created hl hc, hsame.next, hall]

end Add

end LogManager

end MyServer.Log
