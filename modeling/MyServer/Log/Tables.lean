import MyServer.Lib.Run
import MyServer.Log.Manager

/-!
# The three tables agree

What an addition leaves is `register`. Everything that only asks or delivers
leaves the tables as they are, but for empty entries (`SameTables`).
-/

open Std

namespace MyServer.Log

namespace LogManager

/-! ## What the small updates leave -/

section Touch

variable (m : LogManager)

@[simp] theorem find_touchOwner (o : Owner) (tr : Triple) : (m.touchOwner o).find tr = m.find tr := by
  simp only [find, touchOwner, OrdMap.index_touch]

@[simp] theorem find_touchType (o : Owner) (t : Str) (tr : Triple) :
    (m.touchType o t).find tr = m.find tr := by
  simp only [find, touchType, OrdMap.index_assign]
  split
  next h => rw [OrdMap.index_touch, h]
  next => rfl

@[simp] theorem find_touchLocation (l : Str) (tr : Triple) :
    (m.touchLocation l).find tr = m.find tr := rfl

@[simp] theorem ownersOf_touchLocation (l l' : Str) :
    (m.touchLocation l).ownersOf l' = m.ownersOf l' := OrdMap.index_touch ..

@[simp] theorem ownersOf_touchType (o : Owner) (t l : Str) :
    (m.touchType o t).ownersOf l = m.ownersOf l := rfl

theorem touchOwner_touchType (o : Owner) (t : Str) :
    (m.touchOwner o).touchType o t = m.touchType o t := by
  simp only [touchOwner, touchType, OrdMap.touch, OrdMap.assign_assign]
  rfl

end Touch

/-- The two managers hold the same triples, streams and lists of owners. -/
structure SameTables (m m' : LogManager) : Prop where
  logStreams : m'.logStreams = m.logStreams
  find : ∀ tr, m'.find tr = m.find tr
  ownersOf : ∀ l, m'.ownersOf l = m.ownersOf l
  live : m'.live = m.live
  next : m'.next = m.next

theorem SameTables.refl (m : LogManager) : SameTables m m :=
  ⟨rfl, fun _ => rfl, fun _ => rfl, rfl, rfl⟩

theorem SameTables.trans {m m' m'' : LogManager} (h : SameTables m m') (h' : SameTables m' m'') :
    SameTables m m'' where
  logStreams := h'.logStreams.trans h.logStreams
  find tr := (h'.find tr).trans (h.find tr)
  ownersOf l := (h'.ownersOf l).trans (h.ownersOf l)
  live := h'.live.trans h.live
  next := h'.next.trans h.next

section Same

variable (m : LogManager)

theorem same_touchOwner (o : Owner) : SameTables m (m.touchOwner o) :=
  ⟨rfl, find_touchOwner m o, fun _ => rfl, rfl, rfl⟩

theorem same_touchType (o : Owner) (t : Str) : SameTables m (m.touchType o t) :=
  ⟨rfl, find_touchType m o t, fun _ => rfl, rfl, rfl⟩

theorem same_touchLocation (l : Str) : SameTables m (m.touchLocation l) :=
  ⟨rfl, fun _ => rfl, ownersOf_touchLocation m l, rfl, rfl⟩

theorem same_containsLocation (l : Str) : SameTables m (m.containsLocation l).2 := by
  unfold containsLocation
  split
  · exact same_touchLocation m l
  · exact SameTables.refl m

theorem same_contains (tr : Triple) : SameTables m (m.contains tr).2 := by
  unfold contains
  have h := same_touchType m tr.owner tr.type
  dsimp only
  split
  · exact h.trans (same_touchLocation _ _)
  · exact h

theorem same_ask (q : Query) : SameTables m (m.ask q) := by
  have hrefl := SameTables.refl m
  cases q with
  | empty => exact hrefl
  | containsLocation l => exact same_containsLocation m l
  | containsOwner o => exact hrefl
  | containsType o t => exact same_touchOwner m o
  | contains tr => exact same_contains m tr
  | countOwner o => exact same_touchOwner m o
  | countType o t => exact same_touchType m o t
  | count tr => exact same_touchType m tr.owner tr.type
  | getOwner o =>
    change SameTables m (m.getOwner o).2
    unfold getOwner
    split <;> exact hrefl
  | getType o t =>
    change SameTables m (m.getType o t).2
    unfold getType containsType
    dsimp only
    split
    · exact (same_touchOwner m o).trans (same_touchType _ o t)
    · exact same_touchOwner m o
  | get tr => exact same_contains m tr

/-! ## Delivering leaves the tables -/

/-- What every call keeps, the calls one after the other keep. -/
theorem each_keeps {κ : Type} {P : LogManager → Prop} {call : LogManager → κ → Result} {ks : List κ}
    (hcall : ∀ m, P m → ∀ k ∈ ks, P (call m k).manager) (failure : Bool) (hm : P m) :
    P (each call ks failure m).manager := by
  induction ks generalizing failure m with
  | nil => exact hm
  | cons k ks ih =>
    have hnext := hcall m hm k List.mem_cons_self
    unfold each
    dsimp only
    split
    · exact ih _ (fun m hm k hk => hcall m hm k (List.mem_cons_of_mem _ hk)) _ hnext
    · exact hnext

theorem update_manager (evt : LogStreamEvent) (answer : Triple → Answer) (tr : Triple) :
    (m.update evt answer tr).manager = m := by
  unfold update
  split
  · rfl
  · split
    · split <;> rfl
    · rfl

theorem caught_manager (failure : Bool) (r : Result) : (r.caught failure).manager = r.manager := by
  unfold Result.caught
  split <;> rfl

theorem caught_delivered (failure : Bool) (r : Result) :
    (r.caught failure).delivered = r.delivered := by
  unfold Result.caught
  split <;> rfl

theorem notifyLocation_manager (evt : LogStreamEvent) (answer : Triple → Answer) (tr : Triple) :
    (m.notifyLocation evt answer tr).manager = (m.contains tr).2 := by
  unfold notifyLocation
  dsimp only
  split
  · exact update_manager _ evt answer tr
  · rfl

theorem same_notifyLocation (evt : LogStreamEvent) (answer : Triple → Answer) (tr : Triple) :
    SameTables m (m.notifyLocation evt answer tr).manager := by
  rw [notifyLocation_manager]
  exact same_contains m tr

theorem same_notifyType (evt : LogStreamEvent) (answer : Triple → Answer) (o : Owner) (t : Str) :
    SameTables m (notifyType o evt answer m t).manager := by
  unfold notifyType containsType
  dsimp only
  split
  · apply each_keeps _ _ _ (same_touchOwner m o)
    exact fun m' h l _ => h.trans (same_notifyLocation m' evt answer ⟨o, t, l⟩)
  · exact same_touchOwner m o

theorem same_notifyOwner (evt : LogStreamEvent) (answer : Triple → Answer) (o : Owner) :
    SameTables m (m.notifyOwner o evt answer).manager := by
  unfold notifyOwner
  split
  · apply each_keeps _ _ _ (SameTables.refl m)
    exact fun m' h t _ => h.trans (same_notifyType m' evt answer o t)
  · exact SameTables.refl m

theorem same_notify (evt : LogStreamEvent) (answer : Triple → Answer) (target : Target) :
    SameTables m (m.notify evt answer target).manager := by
  cases target with
  | owner o => exact same_notifyOwner m evt answer o
  | type o t => exact same_notifyType m evt answer o t
  | location tr => exact same_notifyLocation m evt answer tr

theorem same_logFormat (o : Owner) (t : Str) (level : LoggingLevel) (stamp : Str) (appendNL : Bool)
    (fmt : Str) (args : List Str) (answer : Triple → Answer) :
    SameTables m (m.logFormat o t level stamp appendNL fmt args answer).manager := by
  unfold logFormat
  split
  · exact SameTables.refl m
  · split
    · exact SameTables.refl m
    · rw [caught_manager]
      exact same_notify m _ _ _

theorem same_send (answer : Triple → Answer) (msg : Message) :
    SameTables m (m.send answer msg).manager := by
  cases msg with
  | log message appendNL level target =>
    change SameTables m (m.log message appendNL level answer target).manager
    unfold log
    split
    · exact SameTables.refl m
    · rw [caught_manager]
      exact same_notify m _ _ _
  | logFormat o t level stamp appendNL fmt args =>
    exact same_logFormat m o t level stamp appendNL fmt args answer
  | close target => exact same_notify m _ _ _
  | setCycle cycle target => exact same_notify m _ _ _
  | chown uid gid target =>
    unfold send chown
    cases target with
    | owner o => exact same_notifyOwner m _ _ o
    | type o t => exact same_notifyOwner m _ _ o
    | location tr => exact same_notifyLocation m _ _ tr

end Same

/-! ## Adding -/

/-- What an addition that goes through leaves. -/
def register (m : LogManager) (tr : Triple) (ls : StreamId) : LogManager :=
  { m with
    logStreams := m.logStreams.insert tr.location ls
    logStreamOwners :=
      m.logStreamOwners.assign tr.location fun l => if tr.owner ∈ l then l else l ++ [tr.owner]
    owners := m.owners.assign tr.owner (·.assign tr.type (·.insert tr.location ls)) }

section Register

variable (m : LogManager) (tr : Triple) (ls : StreamId)

theorem find_register (tr' : Triple) :
    (m.register tr ls).find tr' = if tr = tr' then some ls else m.find tr' := by
  obtain ⟨o, t, l⟩ := tr
  obtain ⟨o', t', l'⟩ := tr'
  simp only [find, register, OrdMap.index_assign, Triple.mk.injEq]
  by_cases ho : o = o'
  · subst ho
    simp only [if_true, OrdMap.index_assign, true_and]
    by_cases ht : t = t'
    · subst ht
      simp only [if_true, OrdMap.getElem?_put, true_and]
    · simp only [ht, if_false, false_and]
  · simp only [ho, if_false, false_and]

theorem ownersOf_register (l : Str) :
    (m.register tr ls).ownersOf l =
      if tr.location = l then
        if tr.owner ∈ m.ownersOf l then m.ownersOf l else m.ownersOf l ++ [tr.owner]
      else m.ownersOf l := by
  simp only [ownersOf, register, OrdMap.index_assign]
  split
  next h =>
    subst h
    rfl
  next => rfl

theorem mem_ownersOf_register (o : Owner) (l : Str) :
    o ∈ (m.register tr ls).ownersOf l ↔ o ∈ m.ownersOf l ∨ tr.owner = o ∧ tr.location = l := by
  rw [ownersOf_register]
  split
  next hl =>
    split
    next hmem =>
      constructor
      · exact Or.inl
      · rintro (h | ⟨rfl, _⟩)
        · exact h
        · exact hmem
    next => simp [hl, eq_comm]
  next hl => simp [hl]

end Register

theorem addOwner_eq (m : LogManager) {o : Owner} (ho : o ≠ 0) : m.addOwner o = (false, m.touchOwner o) := by
  unfold addOwner containsOwner touchOwner
  rw [if_neg ho]
  by_cases h : m.HasOwner o
  · rw [if_pos (decide_eq_true h), OrdMap.touch_of_mem h]
  · rw [if_neg (by rwa [decide_eq_true_iff]), OrdMap.touch, OrdMap.assign, OrdMap.index_of_not_mem h]
    rfl

theorem addType_eq (m : LogManager) {o : Owner} {t : Str} (ht : t ≠ []) :
    m.addType o t = (false, m.touchType o t) := by
  unfold addType containsType
  rw [if_neg ht, ← touchOwner_touchType]
  dsimp only
  by_cases h : m.HasType o t
  · rw [if_pos (decide_eq_true h)]
    have hsame : (m.touchOwner o).touchType o t = m.touchOwner o := by
      simp only [touchType]
      rw [OrdMap.assign_of_eq]
      · exact OrdMap.mem_touch.mpr (Or.inl rfl)
      · apply OrdMap.touch_of_mem
        rwa [touchOwner, OrdMap.index_touch]
    rw [hsame]
  · rw [if_neg (by rwa [decide_eq_true_iff])]
    simp only [touchOwner, touchType, OrdMap.touch, OrdMap.assign_assign]
    have hnew : (m.owners.index o).index t = ∅ := OrdMap.index_of_not_mem h
    simp only [OrdMap.assign, Function.comp, id, hnew]

/-! ## Queries about what is there -/

section There

variable {m : LogManager}

theorem hasOwner_of_hasType {o : Owner} {t : Str} (h : m.HasType o t) : m.HasOwner o := by
  by_contra ho
  unfold HasType at h
  rw [OrdMap.index_of_not_mem ho] at h
  exact ExtTreeMap.not_mem_empty h

theorem hasType_of_registered {tr : Triple} (h : m.Registered tr) : m.HasType tr.owner tr.type := by
  by_contra ht
  unfold Registered find at h
  rw [OrdMap.index_of_not_mem ht] at h
  simp [default] at h

theorem touchOwner_of_hasOwner {o : Owner} (h : m.HasOwner o) : m.touchOwner o = m := by
  unfold touchOwner
  rw [OrdMap.touch_of_mem h]

theorem touchType_of_hasType {o : Owner} {t : Str} (h : m.HasType o t) : m.touchType o t = m := by
  unfold touchType
  rw [OrdMap.assign_of_eq (hasOwner_of_hasType h) (OrdMap.touch_of_mem h)]

theorem touchLocation_of_owned {l : Str} (h : m.ownersOf l ≠ []) : m.touchLocation l = m := by
  unfold touchLocation
  rw [OrdMap.touch_of_mem]
  by_contra hl
  exact h (OrdMap.index_of_not_mem hl)

theorem containsLocation_of_shared {l : Str} (h : m.Shared l) : m.containsLocation l = (true, m) := by
  unfold containsLocation
  rw [if_pos h.1, touchLocation_of_owned h.2, decide_eq_true h.2]

theorem containsType_of_hasType {o : Owner} {t : Str} (h : m.HasType o t) :
    m.containsType o t = (true, m) := by
  unfold containsType
  rw [touchOwner_of_hasOwner (hasOwner_of_hasType h), decide_eq_true h]

theorem contains_of_registered {tr : Triple} (h : m.Registered tr)
    (ho : tr.owner ∈ m.ownersOf tr.location) : m.contains tr = (true, m) := by
  unfold contains
  rw [touchType_of_hasType (hasType_of_registered h)]
  dsimp only
  rw [if_pos h, touchLocation_of_owned (List.ne_nil_of_mem ho), decide_eq_true ho]

theorem contains_of_not_registered {tr : Triple} (h : ¬ m.Registered tr) :
    m.contains tr = (false, m.touchType tr.owner tr.type) := by
  unfold contains
  dsimp only
  rw [if_neg]
  rwa [Registered, find_touchType]

theorem fst_containsLocation (l : Str) : (m.containsLocation l).1 = decide (m.Shared l) := by
  unfold containsLocation Shared
  split
  next h => simp only [h, true_and]
  next h => simp only [h, false_and, decide_false]

end There

/-- The stream of the location is put in the table when there is none that is shared. -/
theorem containsLocation_put (m : LogManager) {l : Str} {ls : StreamId}
    (h : m.Shared l → m.logStreams[l]? = some ls) :
    (if (m.containsLocation l).1 then (m.containsLocation l).2
      else { (m.containsLocation l).2 with
        logStreams := (m.containsLocation l).2.logStreams.insert l ls }) =
      { (m.containsLocation l).2 with logStreams := m.logStreams.insert l ls } := by
  have hsame : (m.containsLocation l).2.logStreams = m.logStreams := (same_containsLocation m l).logStreams
  rw [fst_containsLocation, hsame]
  by_cases hs : m.Shared l
  · rw [if_pos (decide_eq_true hs)]
    have hput : m.logStreams.insert l ls = (m.containsLocation l).2.logStreams := by
      rw [hsame]
      apply ExtTreeMap.ext_getElem?
      intro a
      rw [OrdMap.getElem?_put]
      split
      next ha => rw [← ha, h hs]
      next => rfl
    rw [hput]
  · rw [if_neg (by rwa [decide_eq_true_iff])]

/-- Whether or not the query touched the list of owners, the assignment after it gives one result. -/
theorem snd_containsLocation (m : LogManager) (l : Str) :
    ∃ table : OrdMap Str (List Owner), (m.containsLocation l).2 = { m with logStreamOwners := table } ∧
      ∀ f, table.assign l f = m.logStreamOwners.assign l f := by
  unfold containsLocation
  split
  · exact ⟨m.logStreamOwners.touch l, rfl, fun f => OrdMap.touch_assign _ _ f⟩
  · exact ⟨m.logStreamOwners, rfl, fun f => rfl⟩

section AddStream

variable {m : LogManager} {tr : Triple} {ls : StreamId}

/-- The category that the query made is the one that the assignment makes. -/
theorem assign_touch_category (owners : OrdMap Owner Categories) :
    (owners.assign tr.owner (·.touch tr.type)).assign tr.owner
        (·.assign tr.type (·.insert tr.location ls)) =
      owners.assign tr.owner (·.assign tr.type (·.insert tr.location ls)) := by
  rw [OrdMap.assign_assign]
  congr 1
  funext c
  exact OrdMap.touch_assign c tr.type fun category => category.insert tr.location ls

theorem registered_register : (m.register tr ls).Registered tr :=
  registered_of_find (by rw [find_register, if_pos rfl])

theorem shared_register : (m.register tr ls).Shared tr.location := by
  constructor
  · exact OrdMap.mem_put.mpr (Or.inl rfl)
  · exact List.ne_nil_of_mem ((mem_ownersOf_register ..).mpr (Or.inr ⟨rfl, rfl⟩))

/-- **What `addStream` does.** It registers a triple that is new. -/
theorem addStream_eq (hstream : m.Shared tr.location → m.logStreams[tr.location]? = some ls)
    (hnew : ¬ m.Registered tr) : m.addStream tr ls = (false, m.register tr ls) := by
  obtain ⟨table, htable, hassign⟩ := snd_containsLocation m tr.location
  unfold addStream
  dsimp only
  rw [containsLocation_put m hstream, htable]
  have hnew' : ¬ ({ m with
      logStreams := m.logStreams.insert tr.location ls, logStreamOwners := table } : LogManager).Registered
      tr := hnew
  -- the three assignments, whatever the queries between them touched
  have hput : ({ m with
      logStreams := m.logStreams.insert tr.location ls
      logStreamOwners := table.assign tr.location
        fun l => if tr.owner ∈ l then l else l ++ [tr.owner]
      owners := (m.owners.assign tr.owner (·.touch tr.type)).assign tr.owner
        (·.assign tr.type (·.insert tr.location ls)) } : LogManager) = m.register tr ls := by
    rw [assign_touch_category, hassign]
    rfl
  rw [contains_of_not_registered hnew']
  simp only [Bool.false_eq_true, if_false, touchType]
  rw [hput, containsLocation_of_shared shared_register]
  dsimp only
  rw [if_pos rfl, contains_of_registered registered_register, Bool.not_true]
  exact (mem_ownersOf_register ..).mpr (Or.inr ⟨rfl, rfl⟩)

theorem touchType_register : (m.touchType tr.owner tr.type).register tr ls = m.register tr ls := by
  unfold register touchType
  dsimp only
  rw [assign_touch_category]

theorem addAll_eq (howner : tr.owner ≠ 0) (htype : tr.type ≠ [])
    (hstream : m.Shared tr.location → m.logStreams[tr.location]? = some ls)
    (hnew : ¬ m.Registered tr) : m.addAll tr ls = (false, m.register tr ls) := by
  unfold addAll
  rw [addOwner_eq m howner]
  dsimp only
  rw [addType_eq _ htype, touchOwner_touchType]
  have hput : (m.touchType tr.owner tr.type).addStream tr ls = (false, m.register tr ls) := by
    rw [← touchType_register]
    apply addStream_eq
    · exact hstream
    · rwa [Registered, find_touchType]
  rw [hput, if_neg (by simp), if_neg (by simp)]

end AddStream

end LogManager

end MyServer.Log
