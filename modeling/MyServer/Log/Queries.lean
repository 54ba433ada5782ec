import MyServer.Log.Runs

/-!
# Which queries and messages register something

`owners[owner][type]` makes the owner and the category when they are not there.
A call that gets to it with an owner or a category that is not registered leaves
them registered.
-/

open Std

namespace MyServer.Log

/-- A query or a message. -/
inductive Call where
  | ask (q : Query)
  | send (answer : Triple → Answer) (msg : Message)

def Call.op : Call → Op
  | .ask q => .ask q
  | .send answer msg => .send answer msg

def Target.Known (m : LogManager) : Target → Prop
  | .owner _ => True
  | .type o _ => m.HasOwner o
  | .location tr => m.HasType tr.owner tr.type

/-- What the call indexes the table of owners with is in it. -/
def Call.Known (m : LogManager) : Call → Prop
  | .ask (.containsType o _) => m.HasOwner o
  | .ask (.contains tr) => m.HasType tr.owner tr.type
  | .ask (.countOwner o) => m.HasOwner o
  | .ask (.countType o t) => m.HasType o t
  | .ask (.count tr) => m.HasType tr.owner tr.type
  | .ask (.getType o _) => m.HasOwner o
  | .ask (.get tr) => m.HasType tr.owner tr.type
  | .ask _ => True
  | .send _ (.log _ _ level target) => level.rank < m.level.rank ∨ target.Known m
  | .send _ (.logFormat o _ level _ _ fmt args) =>
    level.rank < m.level.rank ∨ LogManager.format fmt args = none ∨ m.HasOwner o
  | .send _ (.close target) => target.Known m
  | .send _ (.setCycle _ target) => target.Known m
  -- for a category the event goes to all of the owner's
  | .send _ (.chown _ _ (.type _ _)) => True
  | .send _ (.chown _ _ target) => target.Known m

namespace LogManager

/-- The same owners and categories are registered. -/
structure SameOwners (m m' : LogManager) : Prop where
  owner : ∀ o, m'.containsOwner o = m.containsOwner o
  type : ∀ o t, m'.HasType o t ↔ m.HasType o t
  empty : m'.empty = m.empty

/-- Nothing was put into the table of owners. -/
structure Quiet (m m' : LogManager) : Prop where
  owners : m'.owners = m.owners
  empty : m'.empty = m.empty

theorem Quiet.sameOwners {m m' : LogManager} (h : Quiet m m') : SameOwners m m' where
  owner o := decide_eq_decide.mpr (by rw [HasOwner, HasOwner, h.owners])
  type o t := by
    unfold HasType
    rw [h.owners]
  empty := h.empty

theorem Quiet.refl (m : LogManager) : Quiet m m := ⟨rfl, rfl⟩

theorem Quiet.trans {m m' m'' : LogManager} (h : Quiet m m') (h' : Quiet m' m'') : Quiet m m'' :=
  ⟨h'.owners.trans h.owners, h'.empty.trans h.empty⟩

theorem empty_of_hasOwner {m : LogManager} {o : Owner} (h : m.HasOwner o) : m.empty = false := by
  have howners : m.owners.isEmpty = false := OrdMap.isEmpty_of_mem h
  unfold empty
  rw [howners, Bool.and_false, Bool.false_and]

section Quiet

variable {m : LogManager}

theorem containsLocation_quiet (l : Str) : Quiet m (m.containsLocation l).2 := by
  unfold containsLocation
  split
  next h =>
    have hstreams : m.logStreams.isEmpty = false := OrdMap.isEmpty_of_mem h
    refine ⟨rfl, ?_⟩
    unfold empty touchLocation
    dsimp only
    rw [hstreams, Bool.false_and, Bool.false_and, Bool.false_and]
  next => exact Quiet.refl m

theorem contains_quiet {tr : Triple} (h : m.HasType tr.owner tr.type) : Quiet m (m.contains tr).2 := by
  unfold contains
  rw [touchType_of_hasType h]
  dsimp only
  split
  · have howner : m.HasOwner tr.owner := hasOwner_of_hasType h
    have htouched : (m.touchLocation tr.location).HasOwner tr.owner := howner
    exact ⟨rfl, by rw [empty_of_hasOwner howner, empty_of_hasOwner htouched]⟩
  · exact Quiet.refl m

theorem notifyType_quiet {o : Owner} (h : m.HasOwner o) (t : Str) (evt : LogStreamEvent)
    (answer : Triple → Answer) : Quiet m (notifyType o evt answer m t).manager := by
  unfold notifyType containsType
  rw [touchOwner_of_hasOwner h]
  dsimp only
  split
  next hfound =>
    apply each_keeps _ _ _ (Quiet.refl m)
    intro m' hquiet l _
    rw [notifyLocation_manager]
    apply hquiet.trans
    apply contains_quiet
    exact (hquiet.sameOwners.type o t).mpr (decide_eq_true_iff.mp hfound)
  next => exact Quiet.refl m

theorem notifyOwner_quiet (o : Owner) (evt : LogStreamEvent) (answer : Triple → Answer) :
    Quiet m (m.notifyOwner o evt answer).manager := by
  unfold notifyOwner
  split
  next hfound =>
    apply each_keeps _ _ _ (Quiet.refl m)
    intro m' hquiet t _
    apply hquiet.trans
    apply notifyType_quiet
    have howner : m'.containsOwner o = true := (hquiet.sameOwners.owner o).trans hfound
    exact decide_eq_true_iff.mp howner
  next => exact Quiet.refl m

theorem notify_quiet {target : Target} (h : target.Known m) (evt : LogStreamEvent)
    (answer : Triple → Answer) : Quiet m (m.notify evt answer target).manager := by
  cases target with
  | owner o => exact notifyOwner_quiet o evt answer
  | type o t => exact notifyType_quiet h t evt answer
  | location tr =>
    unfold notify
    rw [notifyLocation_manager]
    exact contains_quiet h

/-! ## What an unknown name leaves -/

theorem not_sameOwners_of_owner {m' : LogManager} {o : Owner} (h : ¬ m.HasOwner o)
    (h' : m'.HasOwner o) : ¬ SameOwners m m' := by
  intro hsame
  have howner := hsame.owner o
  unfold containsOwner at howner
  rw [decide_eq_true h', decide_eq_false h] at howner
  contradiction

theorem not_sameOwners_of_type {m' : LogManager} {o : Owner} {t : Str} (h : ¬ m.HasType o t)
    (h' : m'.HasType o t) : ¬ SameOwners m m' := fun hsame => h ((hsame.type o t).mp h')

theorem hasOwner_touchOwner (o : Owner) : (m.touchOwner o).HasOwner o := OrdMap.mem_touch.mpr (Or.inl rfl)

theorem hasType_touchType (o : Owner) (t : Str) : (m.touchType o t).HasType o t := by
  unfold HasType touchType
  rw [OrdMap.index_assign, if_pos rfl]
  exact OrdMap.mem_touch.mpr (Or.inl rfl)

theorem hasType_contains (tr : Triple) : (m.contains tr).2.HasType tr.owner tr.type := by
  unfold contains
  dsimp only
  split
  · exact hasType_touchType tr.owner tr.type
  · exact hasType_touchType tr.owner tr.type

theorem touchOwner_sameOwners_iff (o : Owner) : SameOwners m (m.touchOwner o) ↔ m.HasOwner o := by
  constructor
  · intro h
    by_contra ho
    exact not_sameOwners_of_owner ho (hasOwner_touchOwner o) h
  · intro h
    rw [touchOwner_of_hasOwner h]
    exact (Quiet.refl m).sameOwners

theorem touchType_sameOwners_iff (o : Owner) (t : Str) :
    SameOwners m (m.touchType o t) ↔ m.HasType o t := by
  constructor
  · intro h
    by_contra ht
    exact not_sameOwners_of_type ht (hasType_touchType o t) h
  · intro h
    rw [touchType_of_hasType h]
    exact (Quiet.refl m).sameOwners

theorem contains_sameOwners_iff (tr : Triple) :
    SameOwners m (m.contains tr).2 ↔ m.HasType tr.owner tr.type := by
  constructor
  · intro h
    by_contra ht
    exact not_sameOwners_of_type ht (hasType_contains tr) h
  · exact fun h => (contains_quiet h).sameOwners

/-- A category of an owner that is not registered is not found, and the owner is registered then. -/
theorem notifyType_unknown {o : Owner} (h : ¬ m.HasOwner o) (t : Str) (evt : LogStreamEvent)
    (answer : Triple → Answer) : (notifyType o evt answer m t).manager = m.touchOwner o := by
  unfold notifyType containsType
  rw [decide_eq_false fun ht => h (hasOwner_of_hasType ht)]
  rfl

theorem notify_sameOwners_iff (target : Target) (evt : LogStreamEvent) (answer : Triple → Answer) :
    SameOwners m (m.notify evt answer target).manager ↔ target.Known m := by
  constructor
  · intro h
    cases target with
    | owner o => trivial
    | type o t =>
      by_contra ho
      unfold notify at h
      rw [notifyType_unknown ho] at h
      exact ho ((touchOwner_sameOwners_iff o).mp h)
    | location tr =>
      unfold notify at h
      rw [notifyLocation_manager] at h
      exact (contains_sameOwners_iff tr).mp h
  · exact fun h => (notify_quiet h evt answer).sameOwners

theorem sameOwners_refl_iff {p : Prop} (hp : p) : SameOwners m m ↔ p :=
  iff_of_true (Quiet.refl m).sameOwners hp

theorem ask_sameOwners_iff (q : Query) : SameOwners m (m.ask q) ↔ (Call.ask q).Known m := by
  cases q with
  | empty => exact sameOwners_refl_iff trivial
  | containsLocation l => exact iff_of_true (containsLocation_quiet l).sameOwners trivial
  | containsOwner o => exact sameOwners_refl_iff trivial
  | containsType o t => exact touchOwner_sameOwners_iff o
  | contains tr => exact contains_sameOwners_iff tr
  | countOwner o => exact touchOwner_sameOwners_iff o
  | countType o t => exact touchType_sameOwners_iff o t
  | count tr => exact touchType_sameOwners_iff tr.owner tr.type
  | getOwner o =>
    change SameOwners m (m.getOwner o).2 ↔ True
    unfold getOwner
    split <;> exact sameOwners_refl_iff trivial
  | getType o t =>
    change SameOwners m (m.getType o t).2 ↔ m.HasOwner o
    unfold getType containsType
    dsimp only
    split
    next hfound =>
      -- the category is there, so that both indexings find what they name
      have ht : m.HasType o t := decide_eq_true_iff.mp hfound
      rw [touchOwner_touchType, touchType_of_hasType ht]
      exact sameOwners_refl_iff (hasOwner_of_hasType ht)
    next => exact touchOwner_sameOwners_iff o
  | get tr => exact contains_sameOwners_iff tr

theorem send_sameOwners_iff (answer : Triple → Answer) (msg : Message) :
    SameOwners m (m.send answer msg).manager ↔ (Call.send answer msg).Known m := by
  cases msg with
  | log message appendNL level target =>
    change SameOwners m (m.log message appendNL level answer target).manager ↔
      level.rank < m.level.rank ∨ target.Known m
    unfold log
    split
    next hlevel => exact sameOwners_refl_iff (Or.inl hlevel)
    next hlevel =>
      rw [caught_manager, notify_sameOwners_iff]
      exact (or_iff_right hlevel).symm
  | logFormat o t level stamp appendNL fmt args =>
    change SameOwners m (m.logFormat o t level stamp appendNL fmt args answer).manager ↔
      level.rank < m.level.rank ∨ format fmt args = none ∨ m.HasOwner o
    unfold logFormat
    split
    next hlevel => exact sameOwners_refl_iff (Or.inl hlevel)
    next hlevel =>
      split
      next hformat => exact sameOwners_refl_iff (Or.inr (Or.inl hformat))
      next text hformat =>
        rw [caught_manager, notify_sameOwners_iff, or_iff_right hlevel, hformat]
        exact (or_iff_right (by simp)).symm
  | close target => exact notify_sameOwners_iff target _ _
  | setCycle cycle target => exact notify_sameOwners_iff target _ _
  | chown uid gid target =>
    cases target with
    | owner o => exact iff_of_true (notifyOwner_quiet o _ _).sameOwners trivial
    | type o t => exact iff_of_true (notifyOwner_quiet o _ _).sameOwners trivial
    | location tr => exact notify_sameOwners_iff (.location tr) _ _

end Quiet

end LogManager

/-- **When a query or a message leaves the registered owners and categories as they are.** -/
theorem sameOwners_iff (m : LogManager) (call : Call) :
    m.SameOwners (perform m call.op).manager ↔ call.Known m := by
  cases call with
  | ask q => exact LogManager.ask_sameOwners_iff q
  | send answer msg => exact LogManager.send_sameOwners_iff answer msg

/-- The count of an owner that never had a log makes it an owner. -/
theorem not_sameOwners :
    ¬ ∀ (m : LogManager), Reachable m → ∀ (call : Call), m.SameOwners (perform m call.op).manager := by
  intro h
  have howner := (h (LogManager.init .info) ⟨.info, [], rfl⟩ (.ask (.countOwner 1))).owner 1
  revert howner
  decide

end MyServer.Log
