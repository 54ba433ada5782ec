import MyServer.Log.Adding

/-!
# The tables over a run

`remove` takes the owner out of the table of owners first and then out of the
lists of its locations, one after the other. In between the lists still name the
owner at the locations that are left (`Agrees`).
-/

open Std

namespace MyServer.Log

namespace LogManager

structure Consistent (m : LogManager) : Prop where
  located : ∀ l, l ∈ m.logStreams ↔ m.ownersOf l ≠ []
  owned : ∀ o l, o ∈ m.ownersOf l ↔ ∃ t, m.Registered ⟨o, t, l⟩
  shared : ∀ tr ls, m.find tr = some ls → m.logStreams[tr.location]? = some ls
  alive : ∀ (l : Str) ls, m.logStreams[l]? = some ls → ls ∈ m.live

/-- The tables agree, but for the owners that are left in the lists of some locations. -/
structure Agrees (left : Owner → Str → Prop) (m : LogManager) : Prop where
  located : ∀ l, l ∈ m.logStreams ↔ m.ownersOf l ≠ []
  owned : ∀ o l, o ∈ m.ownersOf l ↔ (∃ t, m.Registered ⟨o, t, l⟩) ∨ left o l
  shared : ∀ tr ls, m.find tr = some ls → m.logStreams[tr.location]? = some ls
  alive : ∀ (l : Str) ls, m.logStreams[l]? = some ls → ls ∈ m.live
  distinct : ∀ (l l' : Str) ls, m.logStreams[l]? = some ls → m.logStreams[l']? = some ls → l = l'
  fresh : ∀ ls ∈ m.live, 0 < ls ∧ ls < m.next
  positive : 0 < m.next

/-- Nothing is left. -/
abbrev Agree (m : LogManager) : Prop := m.Agrees fun _ _ => False

theorem Agree.consistent {m : LogManager} (h : m.Agree) : m.Consistent where
  located := h.located
  owned o l := by rw [h.owned, or_false]
  shared := h.shared
  alive := h.alive

theorem Agree.sound {m : LogManager} (h : m.Agree) : m.Sound where
  stream := h.shared
  owner tr htr := (h.owned _ _).mpr (Or.inl ⟨tr.type, htr⟩)
  located l := (h.located l).mpr

theorem agree_empty (level : LoggingLevel) {live : Finset StreamId} {next : StreamId}
    (hfresh : ∀ ls ∈ live, 0 < ls ∧ ls < next) (hpos : 0 < next) :
    Agree ⟨level, ∅, ∅, ∅, live, next⟩ where
  located l := by simp [ownersOf, default]
  owned o l := by simp [ownersOf, Registered, find, default]
  shared tr ls h := by simp [find, default] at h
  alive l ls h := by simp at h
  distinct l l' ls h := by simp at h
  fresh := hfresh
  positive := hpos

theorem agree_init (level : LoggingLevel) : (init level).Agree :=
  agree_empty level (fun _ h => absurd h (Finset.notMem_empty _)) Nat.one_pos

theorem Agrees.of_same {left : Owner → Str → Prop} {m m' : LogManager} (h : SameTables m m')
    (hm : m.Agrees left) : m'.Agrees left where
  located l := by
    rw [h.logStreams, h.ownersOf]
    exact hm.located l
  owned o l := by
    rw [h.ownersOf, hm.owned]
    simp only [registered_of_same h]
  shared tr ls hls := by
    rw [h.logStreams]
    exact hm.shared tr ls (by rwa [← h.find])
  alive l ls hls := by
    rw [h.live]
    exact hm.alive l ls (by rwa [← h.logStreams])
  distinct l l' ls := by
    rw [h.logStreams]
    exact hm.distinct l l' ls
  fresh ls hls := by
    rw [h.next]
    exact hm.fresh ls (by rwa [← h.live])
  positive := by
    rw [h.next]
    exact hm.positive

/-! ## Adding -/

theorem Agree.newStream {m : LogManager} (hm : m.Agree) : m.newStream.Agree where
  located := hm.located
  owned := hm.owned
  shared := hm.shared
  alive l ls h := Finset.mem_insert_of_mem (hm.alive l ls h)
  distinct := hm.distinct
  fresh ls h := by
    rcases Finset.mem_insert.mp h with rfl | h
    · exact ⟨hm.positive, Nat.lt_succ_self _⟩
    · exact ⟨(hm.fresh ls h).1, Nat.lt_succ_of_lt (hm.fresh ls h).2⟩
  positive := Nat.succ_pos _

theorem Sound.register {m : LogManager} (hm : m.Sound) (tr : Triple) {ls : StreamId}
    (hlocation : m.Shared tr.location → m.logStreams[tr.location]? = some ls) :
    (m.register tr ls).Sound where
  stream tr' ls' h := by
    have hput : (m.register tr ls).logStreams[tr'.location]? =
        if tr.location = tr'.location then some ls else m.logStreams[tr'.location]? :=
      OrdMap.getElem?_put ..
    rw [hput]
    rw [find_register] at h
    split at h
    next heq => rw [if_pos (by rw [heq]), h]
    next =>
      have hold := hm.stream tr' ls' h
      split
      next hl =>
        have hs : m.Shared tr.location := by
          rw [hl]
          exact hm.shared (registered_of_find h)
        rw [← hlocation hs, hl, hold]
      next => exact hold
  owner tr' h := by
    rw [mem_ownersOf_register]
    rw [Registered, find_register] at h
    split at h
    next heq => exact Or.inr ⟨by rw [heq], by rw [heq]⟩
    next => exact Or.inl (hm.owner tr' h)
  located l h := by
    apply OrdMap.mem_put.mpr
    by_cases hl : tr.location = l
    · exact Or.inl hl
    · rw [ownersOf_register, if_neg hl] at h
      exact Or.inr (hm.located l h)

/-- A live stream that the location has, or that no location has, can be registered for it. -/
theorem Agree.register {m : LogManager} (hm : m.Agree) (tr : Triple) {ls : StreamId}
    (hlive : ls ∈ m.live) (hothers : ∀ l, m.logStreams[l]? = some ls → l = tr.location)
    (hlocation : ∀ ls', m.logStreams[tr.location]? = some ls' → ls' = ls) :
    (m.register tr ls).Agree where
  located l := by
    by_cases hl : tr.location = l
    · subst hl
      exact iff_of_true shared_register.1 shared_register.2
    · rw [ownersOf_register, if_neg hl, ← hm.located]
      simp only [LogManager.register, OrdMap.mem_put, hl, false_or]
  owned o l := by
    rw [mem_ownersOf_register, hm.owned, or_false, or_false]
    simp only [Registered, find_register]
    constructor
    · rintro (⟨t, ht⟩ | ⟨rfl, rfl⟩)
      · refine ⟨t, ?_⟩
        split
        · rfl
        · exact ht
      · exact ⟨tr.type, by rw [if_pos rfl, Option.isSome_some]⟩
    · rintro ⟨t, ht⟩
      split at ht
      next h =>
        subst h
        exact Or.inr ⟨rfl, rfl⟩
      next => exact Or.inl ⟨t, ht⟩
  shared := by
    have hregister : (m.register tr ls).Sound := hm.sound.register tr fun hs => by
      have hstream := OrdMap.getElem?_of_mem hs.1
      rwa [hlocation _ hstream] at hstream
    exact hregister.stream
  alive l ls' h := by
    simp only [LogManager.register, OrdMap.getElem?_put] at h
    split at h
    next => exact Option.some.inj h ▸ hlive
    next => exact hm.alive l ls' h
  distinct l l' ls' h h' := by
    simp only [LogManager.register, OrdMap.getElem?_put] at h h'
    split at h <;> split at h'
    next hl hl' => rw [← hl, ← hl']
    next hl _ =>
      rw [← hl, hothers l' (by rwa [← Option.some.inj h] at h')]
    next _ hl' =>
      rw [← hl', hothers l (by rwa [← Option.some.inj h'] at h)]
    next => exact hm.distinct l l' ls' h h'
  fresh := hm.fresh
  positive := hm.positive

theorem same_warned (m : LogManager) (tr : Triple) (env : Surroundings) :
    SameTables (m.register tr (m.logStreams.index tr.location)) (m.warned tr env).manager := by
  unfold warned
  dsimp only
  cases env.server with
  | none => exact SameTables.refl _
  | some server =>
    dsimp only
    split
    · exact same_logFormat _ _ _ _ _ _ _ _ _
    · exact SameTables.refl _

theorem same_newStream {m m' : LogManager} (h : SameTables m m') :
    SameTables m.newStream m'.newStream where
  logStreams := h.logStreams
  find := h.find
  ownersOf := h.ownersOf
  live := by
    unfold newStream
    rw [h.live, h.next]
  next := by
    unfold newStream
    rw [h.next]

theorem same_register {m m' : LogManager} (h : SameTables m m') (tr : Triple) (ls : StreamId) :
    SameTables (m.register tr ls) (m'.register tr ls) where
  logStreams := by
    unfold register
    rw [h.logStreams]
  find tr' := by rw [find_register, find_register, h.find]
  ownersOf l := by rw [ownersOf_register, ownersOf_register, h.ownersOf]
  live := h.live
  next := h.next

/-- An addition to a shared location fails without a trace in the tables or registers the triple. -/
theorem add_shared_cases {m : LogManager} {tr : Triple} (env : Surroundings)
    (hl : m.Shared tr.location) :
    (∃ m', m.add tr env = ⟨.returned true, [], m'⟩ ∧ SameTables m m') ∨
      m.add tr env = m.warned tr env := by
  by_cases hT : m.HasType tr.owner tr.type
  · exact Or.inl ⟨m, add_of_failure hl (addShared_of_hasType _ hT), SameTables.refl m⟩
  by_cases ho : m.HasOwner tr.owner ∨ tr.owner ≠ 0
  · by_cases ht : tr.type = []
    · exact Or.inl ⟨_, add_of_failure hl (addShared_of_empty _ ho ht), same_touchOwner m tr.owner⟩
    · exact Or.inr (add_of_register hl ho ht hT)
  · rw [not_or, not_not] at ho
    exact Or.inl ⟨m, add_of_failure hl (addShared_of_null _ ho.1 ho.2), SameTables.refl m⟩

/-- An addition at a new location makes no stream, makes one that is in no table, or registers it. -/
theorem add_new_cases {m : LogManager} (hm : m.Sound) {tr : Triple} (env : Surroundings)
    (hl : ¬ m.Shared tr.location) :
    ∃ failure m', m.add tr env = ⟨.returned failure, [], m'⟩ ∧
      (SameTables m m' ∨ SameTables m.newStream m' ∨
        SameTables (m.newStream.register tr m.next) m') := by
  have hsame := same_containsLocation m tr.location
  cases hc : creates tr.location env.opened with
  | false => exact ⟨true, _, add_of_not_created hl hc, Or.inl hsame⟩
  | true =>
    by_cases ho : tr.owner = 0
    · rw [add_of_created hl hc, addAll_of_null _ ho]
      exact ⟨true, _, rfl, Or.inr (Or.inl (same_newStream hsame))⟩
    by_cases ht : tr.type = []
    · rw [add_of_created hl hc, addAll_of_empty _ ho ht]
      exact ⟨true, _, rfl, Or.inr (Or.inl ((same_newStream hsame).trans (same_touchOwner _ _)))⟩
    · exact ⟨false, _, add_of_new hm hl hc ho ht,
        Or.inr (Or.inr (same_register (same_newStream hsame) tr m.next))⟩

/-- A second triple of a location is registered with its stream. -/
theorem Agree.register_shared {m : LogManager} (hm : m.Agree) {tr : Triple}
    (hl : m.Shared tr.location) :
    (m.register tr (m.logStreams.index tr.location)).Agree := by
  have hstream : m.logStreams[tr.location]? = some (m.logStreams.index tr.location) :=
    OrdMap.getElem?_of_mem hl.1
  apply hm.register
  · exact hm.alive _ _ hstream
  · intro l hls
    exact hm.distinct _ _ _ hls hstream
  · intro ls' hls'
    exact Option.some.inj (hls'.symm.trans hstream)

theorem Agree.register_new {m : LogManager} (hm : m.Agree) {tr : Triple}
    (hl : ¬ m.Shared tr.location) : (m.newStream.register tr m.next).Agree := by
  have hnone : m.logStreams[tr.location]? = none := by
    apply ExtTreeMap.getElem?_eq_none
    intro h
    exact hl ⟨h, (hm.located _).mp h⟩
  apply hm.newStream.register
  · exact Finset.mem_insert_self _ _
  · intro l hls
    -- the new stream has no location
    exact absurd (hm.fresh _ (hm.alive l _ hls)).2 (Nat.lt_irrefl _)
  · intro ls' hls'
    exact absurd (hnone.symm.trans hls') (by simp)

theorem Agree.add {m : LogManager} (hm : m.Agree) (tr : Triple) (env : Surroundings) :
    (m.add tr env).manager.Agree := by
  by_cases hl : m.Shared tr.location
  · rcases add_shared_cases env hl with ⟨m', heq, h⟩ | heq
    · rw [heq]
      exact Agrees.of_same h hm
    · rw [heq]
      exact Agrees.of_same (same_warned m tr env) (hm.register_shared hl)
  · obtain ⟨failure, m', heq, h⟩ := add_new_cases hm.sound env hl
    rw [heq]
    rcases h with h | h | h
    · exact Agrees.of_same h hm
    · exact Agrees.of_same h hm.newStream
    · exact Agrees.of_same h (hm.register_new hl)

theorem Sound.add {m : LogManager} (hm : m.Sound) (tr : Triple) (env : Surroundings) :
    (m.add tr env).manager.Sound := by
  have hnew : m.newStream.Sound := ⟨hm.stream, hm.owner, hm.located⟩
  by_cases hl : m.Shared tr.location
  · rcases add_shared_cases env hl with ⟨m', heq, h⟩ | heq
    · rw [heq]
      exact Sound.of_same h hm
    · rw [heq]
      exact Sound.of_same (same_warned m tr env)
        (hm.register tr fun _ => OrdMap.getElem?_of_mem hl.1)
  · obtain ⟨failure, m', heq, h⟩ := add_new_cases hm env hl
    rw [heq]
    rcases h with h | h | h
    · exact Sound.of_same h hm
    · exact Sound.of_same h hnew
    · exact Sound.of_same h (hnew.register tr fun hs => absurd hs hl)

/-! ## Removing -/

section Remove

variable {m : LogManager}

theorem mem_locationsOf {o : Owner} {l : Str} : l ∈ m.locationsOf o ↔ ∃ t, m.Registered ⟨o, t, l⟩ := by
  unfold locationsOf Registered find
  rw [ExtTreeSet.mem_toList, ExtTreeSet.mem_ofList, List.contains_iff_mem, List.mem_flatMap]
  constructor
  · rintro ⟨⟨t, c⟩, hc, hl⟩
    have hget : (m.owners.index o)[t]? = some c := ExtTreeMap.mem_toList_iff_getElem?_eq_some.mp hc
    refine ⟨t, ?_⟩
    rw [OrdMap.index_eq (m.owners.index o), hget]
    exact ExtTreeMap.isSome_getElem?_iff_mem.mpr (ExtTreeMap.mem_keys.mp hl)
  · rintro ⟨t, ht⟩
    have htype : m.HasType o t := @hasType_of_registered m ⟨o, t, l⟩ ht
    refine ⟨(t, (m.owners.index o).index t), ?_, ?_⟩
    · exact ExtTreeMap.mem_toList_iff_getElem?_eq_some.mpr (OrdMap.getElem?_of_mem htype)
    · exact ExtTreeMap.mem_keys.mpr (ExtTreeMap.isSome_getElem?_iff_mem.mp ht)

theorem nodup_locationsOf (o : Owner) : (m.locationsOf o).Nodup := by
  apply List.Pairwise.imp _ ExtTreeSet.distinct_toList
  intro a b h hab
  exact h (LawfulEqCmp.compare_eq_iff_eq.mpr hab)

theorem ownersOf_unlist (o : Owner) (l l' : Str) :
    (m.unlist o l).ownersOf l' = if l = l' then (m.ownersOf l').filter (· ≠ o) else m.ownersOf l' := by
  simp only [ownersOf, unlist, OrdMap.index_assign]
  split
  next h => rw [h]
  next => rfl

theorem mem_ownersOf_unlist (o o' : Owner) (l l' : Str) :
    o' ∈ (m.unlist o l).ownersOf l' ↔ o' ∈ m.ownersOf l' ∧ ¬ (o' = o ∧ l = l') := by
  rw [ownersOf_unlist]
  split
  next h => simp [h]
  next h => simp [h]

theorem deleteStream_of_live {ls : StreamId} (hlive : ls ∈ m.live) (hls : 0 < ls) (raises : Bool) :
    m.deleteStream ls raises =
      if raises then .raised { m with live := m.live.erase ls }
      else .done { m with live := m.live.erase ls } := by
  unfold deleteStream
  rw [if_neg (Nat.ne_of_gt hls), if_pos hlive]

/-- The owner is out of the list of the location, and some other owner is still in it. -/
theorem Agrees.unlist {o : Owner} {location : Str} {rest : List Str}
    (hm : m.Agrees fun o' l => o' = o ∧ l ∈ location :: rest) (hnot : location ∉ rest)
    (hnone : ∀ t l, ¬ m.Registered ⟨o, t, l⟩) (howned : (m.unlist o location).ownersOf location ≠ []) :
    (m.unlist o location).Agrees fun o' l => o' = o ∧ l ∈ rest where
  located l := by
    by_cases hl : location = l
    · subst hl
      obtain ⟨o', ho'⟩ := List.exists_mem_of_ne_nil _ howned
      have hmem := ((mem_ownersOf_unlist ..).mp ho').1
      exact iff_of_true ((hm.located _).mpr (List.ne_nil_of_mem hmem)) howned
    · rw [ownersOf_unlist, if_neg hl]
      exact hm.located l
  owned o' l := by
    rw [mem_ownersOf_unlist, hm.owned, List.mem_cons]
    have hkeep : ∀ t, (m.unlist o location).Registered ⟨o', t, l⟩ ↔ m.Registered ⟨o', t, l⟩ :=
      fun t => Iff.rfl
    simp only [hkeep]
    constructor
    · rintro ⟨ht | ⟨rfl, rfl | hl⟩, hne⟩
      · exact Or.inl ht
      · exact absurd ⟨rfl, rfl⟩ hne
      · exact Or.inr ⟨rfl, hl⟩
    · rintro (ht | ⟨rfl, hl⟩)
      · refine ⟨Or.inl ht, ?_⟩
        rintro ⟨rfl, -⟩
        obtain ⟨t, ht⟩ := ht
        exact hnone t l ht
      · refine ⟨Or.inr ⟨rfl, Or.inr hl⟩, ?_⟩
        rintro ⟨-, rfl⟩
        exact hnot hl
  shared := hm.shared
  alive := hm.alive
  distinct := hm.distinct
  fresh := hm.fresh
  positive := hm.positive

theorem ownersOf_forget (o : Owner) (location : Str) (live : Finset StreamId) (l : Str) :
    (LogManager.forget { m.unlist o location with live := live } location).ownersOf l =
      if location = l then [] else m.ownersOf l := by
  have hcut : (LogManager.forget { m.unlist o location with live := live } location).ownersOf l =
      if location = l then default else (m.unlist o location).ownersOf l := OrdMap.index_cut ..
  rw [hcut, ownersOf_unlist]
  split <;> rfl

/-- The owner was the last one, and the stream is deleted. -/
theorem Agrees.forget {o : Owner} {location : Str} {rest : List Str} {ls : StreamId}
    (hm : m.Agrees fun o' l => o' = o ∧ l ∈ location :: rest) (hnot : location ∉ rest)
    (hnone : ∀ t l, ¬ m.Registered ⟨o, t, l⟩) (hlast : (m.unlist o location).ownersOf location = [])
    (hls : m.logStreams[location]? = some ls) :
    (LogManager.forget { m.unlist o location with live := m.live.erase ls } location).Agrees
      fun o' l => o' = o ∧ l ∈ rest := by
  -- no triple has the location any more
  have hgone : ∀ tr, m.Registered tr → tr.location ≠ location := by
    rintro ⟨o', t, l⟩ htr rfl
    have hmem : o' ∈ m.ownersOf l := (hm.owned o' l).mpr (Or.inl ⟨t, htr⟩)
    have hstay : o' ∈ (m.unlist o l).ownersOf l := by
      apply (mem_ownersOf_unlist ..).mpr
      refine ⟨hmem, ?_⟩
      rintro ⟨rfl, -⟩
      exact hnone t l htr
    rw [hlast] at hstay
    exact List.not_mem_nil hstay
  have howners := ownersOf_forget (m := m) o location (m.live.erase ls)
  have hstreams : ∀ l : Str, (LogManager.forget { m.unlist o location with live := m.live.erase ls }
      location).logStreams[l]? = if location = l then none else m.logStreams[l]? :=
    fun l => OrdMap.getElem?_cut ..
  constructor
  · intro l
    rw [howners, ← ExtTreeMap.isSome_getElem?_iff_mem, hstreams]
    split
    next => simp
    next => rw [ExtTreeMap.isSome_getElem?_iff_mem, hm.located]
  · intro o' l
    have hkeep : ∀ t, (LogManager.forget { m.unlist o location with live := m.live.erase ls }
        location).Registered ⟨o', t, l⟩ ↔ m.Registered ⟨o', t, l⟩ := fun t => Iff.rfl
    simp only [hkeep, howners]
    split
    next hl =>
      subst hl
      simp only [List.not_mem_nil, false_iff, not_or, not_exists, not_and]
      exact ⟨fun t ht => hgone _ ht rfl, fun _ => hnot⟩
    next hl =>
      rw [hm.owned, List.mem_cons]
      simp only [Ne.symm hl, false_or]
  · intro tr ls' h
    rw [hstreams, if_neg]
    · exact hm.shared tr ls' h
    · apply Ne.symm
      exact hgone tr (registered_of_find h)
  · intro l ls' h
    rw [hstreams] at h
    split at h
    next => contradiction
    next hl =>
      apply Finset.mem_erase.mpr
      refine ⟨?_, hm.alive l ls' h⟩
      rintro rfl
      exact hl (hm.distinct _ _ _ hls h)
  · intro l l' ls' h h'
    rw [hstreams] at h h'
    split at h
    next => contradiction
    split at h'
    next => contradiction
    exact hm.distinct l l' ls' h h'
  · intro ls' h
    exact hm.fresh ls' (Finset.mem_of_mem_erase h)
  · exact hm.positive

theorem removeLocations_agree {o : Owner} {raises : Str → Bool} {locations : List Str}
    (hnodup : locations.Nodup) (hm : m.Agrees fun o' l => o' = o ∧ l ∈ locations)
    (hnone : ∀ t l, ¬ m.Registered ⟨o, t, l⟩)
    (hraises : ∀ l ∈ locations, (∀ o' ∈ m.ownersOf l, o' = o) → raises l = false) :
    (removeLocations o raises locations m).ending = .returned false ∧
      (removeLocations o raises locations m).manager.Agree := by
  induction locations generalizing m with
  | nil =>
    refine ⟨rfl, ?_⟩
    simp only [List.not_mem_nil, and_false] at hm
    exact hm
  | cons location rest ih =>
    obtain ⟨hnot, hrest⟩ := List.nodup_cons.mp hnodup
    have hothers : ∀ l ∈ rest, ∀ o', (o' ∈ (m.unlist o location).ownersOf l ↔ o' ∈ m.ownersOf l) := by
      intro l hl o'
      rw [ownersOf_unlist, if_neg (fun h : location = l => hnot (h ▸ hl))]
    have hraises' : ∀ l ∈ rest, (∀ o' ∈ (m.unlist o location).ownersOf l, o' = o) →
        raises l = false := by
      intro l hl hall
      apply hraises l (List.mem_cons_of_mem _ hl)
      intro o' ho'
      exact hall o' ((hothers l hl o').mpr ho')
    unfold removeLocations
    dsimp only
    by_cases hlast : (m.unlist o location).ownersOf location = []
    · have hmine : o ∈ m.ownersOf location := (hm.owned _ _).mpr (Or.inr ⟨rfl, List.mem_cons_self⟩)
      have hls : m.logStreams[location]? = some (m.logStreams.index location) :=
        OrdMap.getElem?_of_mem ((hm.located _).mpr (List.ne_nil_of_mem hmine))
      have hlive : m.logStreams.index location ∈ m.live := hm.alive _ _ hls
      have hquiet : raises location = false := by
        apply hraises location List.mem_cons_self
        intro o' ho'
        by_contra hne
        have hstay : o' ∈ (m.unlist o location).ownersOf location :=
          (mem_ownersOf_unlist ..).mpr ⟨ho', fun h => hne h.1⟩
        rw [hlast] at hstay
        exact List.not_mem_nil hstay
      have hdelete := @deleteStream_of_live (m.unlist o location) _ hlive (hm.fresh _ hlive).1 false
      rw [if_pos hlast, hquiet]
      rw [show (m.unlist o location).logStreams = m.logStreams from rfl, hdelete]
      apply ih hrest (hm.forget hnot hnone hlast hls)
      · exact hnone
      · intro l hl hall
        apply hraises' l hl
        intro o' ho'
        apply hall
        rw [ownersOf_forget, if_neg fun h : location = l => hnot (h ▸ hl)]
        exact (hothers l hl o').mp ho'
    · rw [if_neg hlast]
      exact ih hrest (hm.unlist hnot hnone hlast) hnone hraises'

/-- The manager in which `remove` starts with the lists. -/
def disown (m : LogManager) (o : Owner) : LogManager := { m with owners := m.owners.erase o }

theorem find_disown (o : Owner) (tr : Triple) :
    (m.disown o).find tr = if tr.owner = o then none else m.find tr := by
  simp only [find, disown, OrdMap.index_cut, eq_comm]
  split
  next => simp [default]
  next => rfl

theorem not_registered_disown (o : Owner) (t l : Str) : ¬ (m.disown o).Registered ⟨o, t, l⟩ := by
  rw [Registered, find_disown, if_pos rfl]
  simp

theorem Agree.disown {o : Owner} (hm : m.Agree) :
    (m.disown o).Agrees fun o' l => o' = o ∧ l ∈ m.locationsOf o where
  located := hm.located
  owned o' l := by
    simp only [Registered, find_disown]
    by_cases ho : o' = o
    · subst ho
      simp only [if_true, Option.isSome_none, Bool.false_eq_true, exists_false, false_or, true_and]
      rw [mem_locationsOf]
      exact (hm.owned o' l).trans (iff_of_eq (or_false _))
    · simp only [ho, if_false, false_and]
      exact hm.owned o' l
  shared tr ls h := by
    rw [find_disown] at h
    split at h
    next => contradiction
    next => exact hm.shared tr ls h
  alive := hm.alive
  distinct := hm.distinct
  fresh := hm.fresh
  positive := hm.positive

theorem Agree.remove {o : Owner} {raises : Str → Bool} (hm : m.Agree)
    (hraises : ∀ l ∈ m.locationsOf o, (∀ o' ∈ m.ownersOf l, o' = o) → raises l = false) :
    (m.remove o raises).ending ≠ .undefined ∧ (m.remove o raises).manager.Agree := by
  unfold LogManager.remove
  split
  · obtain ⟨hend, hagree⟩ := removeLocations_agree (nodup_locationsOf o) hm.disown
      (not_registered_disown o) hraises
    unfold LogManager.disown at hend hagree
    refine ⟨?_, hagree⟩
    rw [hend]
    simp
  · exact ⟨by simp, hm⟩

theorem Sound.unlist {o : Owner} (hm : m.Sound) (hnone : ∀ t l, ¬ m.Registered ⟨o, t, l⟩) (l : Str) :
    (m.unlist o l).Sound where
  stream := hm.stream
  owner tr htr := by
    apply (mem_ownersOf_unlist ..).mpr
    refine ⟨hm.owner tr htr, ?_⟩
    rintro ⟨hto, -⟩
    apply hnone tr.type tr.location
    rw [← hto]
    exact htr
  located l' h := by
    apply hm.located l'
    rw [ownersOf_unlist] at h
    split at h
    · intro hnil
      rw [hnil] at h
      exact h rfl
    · exact h

/-- Without an owner in its list a location has no triple. -/
theorem Sound.ne_location {location : Str} (hm : m.Sound) (hlast : m.ownersOf location = [])
    {tr : Triple} (htr : m.Registered tr) : location ≠ tr.location := by
  intro hl
  have hmem : tr.owner ∈ m.ownersOf tr.location := hm.owner tr htr
  rw [← hl, hlast] at hmem
  exact List.not_mem_nil hmem

theorem Sound.forget {location : Str} (hm : m.Sound) (hlast : m.ownersOf location = []) :
    (m.forget location).Sound where
  stream tr ls h := by
    rw [LogManager.forget, OrdMap.getElem?_cut, if_neg (hm.ne_location hlast (registered_of_find h))]
    exact hm.stream tr ls h
  owner tr htr := by
    have hne : location ≠ tr.location := hm.ne_location hlast htr
    rw [ownersOf, LogManager.forget, OrdMap.index_cut, if_neg hne]
    exact hm.owner tr htr
  located l h := by
    rw [ownersOf, LogManager.forget, OrdMap.index_cut] at h
    split at h
    next => exact absurd rfl h
    next hl =>
      rw [LogManager.forget, ← ExtTreeMap.isSome_getElem?_iff_mem, OrdMap.getElem?_cut, if_neg hl]
      exact ExtTreeMap.isSome_getElem?_iff_mem.mpr (hm.located l h)

theorem deleteStream_leaves {ls : StreamId} {raises : Bool} {m' : LogManager}
    (h : m.deleteStream ls raises = .done m' ∨ m.deleteStream ls raises = .raised m') :
    ∃ live ⊆ m.live, m' = { m with live := live } := by
  unfold deleteStream at h
  split at h
  · obtain h | h := h
    · cases h
      exact ⟨m.live, Finset.Subset.refl _, rfl⟩
    · cases h
  · split at h
    · split at h
      · obtain h | h := h <;> cases h
        exact ⟨_, Finset.erase_subset _ _, rfl⟩
      · obtain h | h := h <;> cases h
        exact ⟨_, Finset.erase_subset _ _, rfl⟩
    · obtain h | h := h <;> cases h

theorem removeLocations_sound {o : Owner} {raises : Str → Bool} (locations : List Str) (hm : m.Sound)
    (hnone : ∀ t l, ¬ m.Registered ⟨o, t, l⟩) :
    (removeLocations o raises locations m).manager.Sound := by
  induction locations generalizing m with
  | nil => exact hm
  | cons location rest ih =>
    have hunlist : (m.unlist o location).Sound := hm.unlist hnone location
    unfold removeLocations
    dsimp only
    split
    next hlast =>
      split
      next m' hdone =>
        obtain ⟨live, -, rfl⟩ := deleteStream_leaves (Or.inl hdone)
        apply ih
        · exact Sound.forget ⟨hunlist.stream, hunlist.owner, hunlist.located⟩ hlast
        · exact hnone
      next m' hraised =>
        obtain ⟨live, -, rfl⟩ := deleteStream_leaves (Or.inr hraised)
        exact ⟨hunlist.stream, hunlist.owner, hunlist.located⟩
      next => exact hunlist
    next => exact ih hunlist hnone

theorem Sound.remove (hm : m.Sound) (o : Owner) (raises : Str → Bool) :
    (m.remove o raises).manager.Sound := by
  have hdisown : (m.disown o).Sound := by
    refine ⟨?_, ?_, hm.located⟩
    · intro tr ls h
      rw [find_disown] at h
      split at h
      next => contradiction
      next => exact hm.stream tr ls h
    · intro tr h
      rw [Registered, find_disown] at h
      split at h
      next => simp at h
      next => exact hm.owner tr h
  unfold LogManager.remove
  split
  · exact removeLocations_sound _ hdisown (not_registered_disown o)
  · exact hm

/-! ## Clearing -/

theorem deleteAll_leaves {raises : Str → Bool} {entries : List (Str × StreamId)} {m' : LogManager}
    (h : deleteAll raises entries m = .done m' ∨ deleteAll raises entries m = .raised m') :
    ∃ live ⊆ m.live, m' = { m with live := live } := by
  induction entries generalizing m with
  | nil =>
    obtain h | h := h <;> cases h
    exact ⟨_, Finset.Subset.refl _, rfl⟩
  | cons e rest ih =>
    unfold deleteAll at h
    split at h
    next m₁ hdone =>
      obtain ⟨live, hlive, rfl⟩ := deleteStream_leaves (Or.inl hdone)
      obtain ⟨live', hlive', hm'⟩ := ih h
      exact ⟨live', hlive'.trans hlive, hm'⟩
    next hother => exact deleteStream_leaves h

theorem deleteAll_defined {raises : Str → Bool} {entries : List (Str × StreamId)}
    (hnodup : (entries.map (·.2)).Nodup) (hlive : ∀ e ∈ entries, e.2 ∈ m.live ∧ 0 < e.2)
    (hraises : ∀ e ∈ entries, raises e.1 = false) : ∃ m', deleteAll raises entries m = .done m' := by
  induction entries generalizing m with
  | nil => exact ⟨m, rfl⟩
  | cons e rest ih =>
    obtain ⟨hnot, hrest⟩ := List.nodup_cons.mp hnodup
    obtain ⟨hl, hpos⟩ := hlive e List.mem_cons_self
    unfold deleteAll
    rw [deleteStream_of_live hl hpos, hraises e List.mem_cons_self]
    apply ih hrest
    · intro e' he'
      obtain ⟨hl', hpos'⟩ := hlive e' (List.mem_cons_of_mem _ he')
      refine ⟨Finset.mem_erase.mpr ⟨?_, hl'⟩, hpos'⟩
      intro heq
      exact hnot (List.mem_map.mpr ⟨e', he', heq⟩)
    · exact fun e' he' => hraises e' (List.mem_cons_of_mem _ he')

theorem Agree.clear {raises : Str → Bool} (hm : m.Agree)
    (hraises : ∀ l ∈ m.logStreams, raises l = false) :
    (m.clear raises).ending ≠ .undefined ∧ (m.clear raises).manager.Agree := by
  have hentry : ∀ e ∈ m.logStreams.toList, m.logStreams[e.1]? = some e.2 :=
    fun e he => ExtTreeMap.mem_toList_iff_getElem?_eq_some.mp he
  obtain ⟨m', hdone⟩ := @deleteAll_defined m raises m.logStreams.toList
    (by
      apply List.Nodup.map_on
      · intro e he e' he' h
        have hloc : e.1 = e'.1 := hm.distinct _ _ _ (hentry e he) (h ▸ hentry e' he')
        exact Prod.ext hloc h
      · apply List.Pairwise.imp _ ExtTreeMap.distinct_keys_toList
        intro a b hab heq
        exact hab (LawfulEqCmp.compare_eq_iff_eq.mpr (congrArg Prod.fst heq)))
    (fun e he => ⟨hm.alive _ _ (hentry e he), (hm.fresh _ (hm.alive _ _ (hentry e he))).1⟩)
    (fun e he => hraises e.1 (ExtTreeMap.isSome_getElem?_iff_mem.mp (by rw [hentry e he]; rfl)))
  obtain ⟨live, hlive, rfl⟩ := deleteAll_leaves (Or.inl hdone)
  unfold LogManager.clear
  rw [hdone]
  exact ⟨by simp, agree_empty _ (fun ls h => hm.fresh ls (hlive h)) hm.positive⟩

theorem Sound.clear (hm : m.Sound) (raises : Str → Bool) : (m.clear raises).manager.Sound := by
  unfold LogManager.clear
  split
  next m' hdone =>
    obtain ⟨live, -, rfl⟩ := deleteAll_leaves (Or.inl hdone)
    refine ⟨?_, ?_, ?_⟩
    · intro tr ls h
      simp [find, default] at h
    · intro tr h
      simp [Registered, find, default] at h
    · intro l h
      simp [ownersOf, default] at h
  next m' hraised =>
    obtain ⟨live, -, rfl⟩ := deleteAll_leaves (Or.inr hraised)
    exact ⟨hm.stream, hm.owner, hm.located⟩
  next => exact hm

end Remove

end LogManager

end MyServer.Log
