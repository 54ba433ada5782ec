import MyServer.Log.Runs

/-!
# When `add` is exact

`add` has no branch for an owner that knows the category already, it leaves the
owner behind when the category is empty, and it answers with what the warning
about a shared location returned.
-/

open Std

namespace MyServer.Log

namespace LogManager

/-- Success exactly for a new triple whose location has a stream or gets one, and an effect on that
triple alone; no effect otherwise. -/
structure AddsExactly (m : LogManager) (tr : Triple) (env : Surroundings) : Prop where
  success : (m.add tr env).ending = .returned false ↔
    ¬ m.Registered tr ∧ (m.Shared tr.location ∨ creates tr.location env.opened = true)
  registers : (m.add tr env).ending = .returned false →
    (m.add tr env).manager.Registered tr ∧
      ∀ tr', tr' ≠ tr → (m.add tr env).manager.find tr' = m.find tr'
  unchanged : (m.add tr env).ending ≠ .returned false → (m.add tr env).manager.owners = m.owners

/-- The warning about a shared location is not due, or `Server::log` takes it. -/
def WarningTaken (m : LogManager) (tr : Triple) (env : Surroundings) : Prop :=
  ∀ server, env.server = some server → tr.owner ∉ m.ownersOf tr.location →
    env.suppressWarnings = false →
    let m' := m.register tr (m.logStreams.index tr.location)
    (m'.serverLog server env tr.location (m'.ownersOf tr.location).length).ending = .returned false

/-- What `add` needs to be exact. -/
def Exact (m : LogManager) (tr : Triple) (env : Surroundings) : Prop :=
  m.Registered tr ∨ ¬ m.Shared tr.location ∧ creates tr.location env.opened = false ∨
    tr.type ≠ [] ∧ (¬ m.Shared tr.location → tr.owner ≠ 0) ∧
      (m.Shared tr.location →
        (m.HasOwner tr.owner ∨ tr.owner ≠ 0) ∧ ¬ m.HasType tr.owner tr.type ∧ m.WarningTaken tr env)

section Exact

variable {m : LogManager} {tr : Triple} {env : Surroundings}

theorem warned_ending : (m.warned tr env).ending = .returned false ↔ m.WarningTaken tr env := by
  unfold warned WarningTaken
  cases env.server with
  | none => simp
  | some server =>
    dsimp only
    split
    next h =>
      constructor
      · rintro hend _ ⟨⟩ _ _
        exact hend
      · intro hall
        exact hall server rfl h.1 (by simpa using h.2)
    next h =>
      refine iff_of_true rfl ?_
      intro server' _ howner hsuppress
      exact absurd ⟨howner, by simp [hsuppress]⟩ h

/-- A failure of an addition that should have gone through. -/
theorem not_addsExactly {m' : LogManager} (hnew : ¬ m.Registered tr)
    (hstream : m.Shared tr.location ∨ creates tr.location env.opened = true)
    (h : m.add tr env = ⟨.returned true, [], m'⟩) : ¬ m.AddsExactly tr env := by
  intro hexact
  have hend := hexact.success.mpr ⟨hnew, hstream⟩
  rw [h] at hend
  simp at hend

theorem addsExactly_of_failure {m' : LogManager} (h : m.add tr env = ⟨.returned true, [], m'⟩)
    (howners : m'.owners = m.owners)
    (hnot : ¬ (¬ m.Registered tr ∧ (m.Shared tr.location ∨ creates tr.location env.opened = true))) :
    m.AddsExactly tr env where
  success := by
    rw [h]
    exact iff_of_false (by simp) hnot
  registers hend := by
    rw [h] at hend
    simp at hend
  unchanged _ := by rw [h, howners]

theorem addsExactly_of_registered {m' : LogManager} {ls : StreamId} (hnew : ¬ m.Registered tr)
    (hstream : m.Shared tr.location ∨ creates tr.location env.opened = true)
    (hend : (m.add tr env).ending = .returned false)
    (hfind : ∀ tr', m'.find tr' = m.find tr')
    (h : SameTables (m'.register tr ls) (m.add tr env).manager) : m.AddsExactly tr env where
  success := iff_of_true hend ⟨hnew, hstream⟩
  registers _ := by
    constructor
    · rw [registered_of_same h]
      exact registered_register
    · intro tr' hne
      rw [h.find, find_register, if_neg (Ne.symm hne), hfind]
  unchanged hne := absurd hend hne

theorem addsExactly_shared (hl : m.Shared tr.location) : m.AddsExactly tr env ↔ m.Exact tr env := by
  unfold Exact
  simp only [hl, not_true, false_and, false_or, forall_const, IsEmpty.forall_iff, true_and]
  by_cases hT : m.HasType tr.owner tr.type
  · have hadd : m.add tr env = ⟨.returned true, [], m⟩ := add_of_failure hl (addShared_of_hasType _ hT)
    simp only [hT, not_true, false_and, and_false, or_false]
    constructor
    · intro hexact
      by_contra hnew
      exact not_addsExactly hnew (Or.inl hl) hadd hexact
    · intro hreg
      exact addsExactly_of_failure hadd rfl fun h => h.1 hreg
  have hnew : ¬ m.Registered tr := fun h => hT (hasType_of_registered h)
  simp only [hnew, hT, not_false_eq_true, true_and, false_or]
  by_cases ho : m.HasOwner tr.owner ∨ tr.owner ≠ 0
  · by_cases ht : tr.type = []
    · have hadd := @add_of_failure m tr env _ hl (addShared_of_empty _ ho ht)
      exact iff_of_false (not_addsExactly hnew (Or.inl hl) hadd) fun h => h.1 ht
    · have hadd : m.add tr env = m.warned tr env := add_of_register hl ho ht hT
      simp only [ne_eq, ht, not_false_eq_true, ho, true_and]
      constructor
      · intro hexact
        have hend := hexact.success.mpr ⟨hnew, Or.inl hl⟩
        rw [hadd] at hend
        exact warned_ending.mp hend
      · intro hwarn
        apply addsExactly_of_registered hnew (Or.inl hl)
        · rw [hadd]
          exact warned_ending.mpr hwarn
        · exact fun _ => rfl
        · rw [hadd]
          exact same_warned m tr env
  · have ho' := not_or.mp ho
    have hadd := @add_of_failure m tr env _ hl (addShared_of_null _ ho'.1 (not_not.mp ho'.2))
    exact iff_of_false (not_addsExactly hnew (Or.inl hl) hadd) fun h => ho h.2.1

theorem addsExactly_new (hm : m.Sound) (hl : ¬ m.Shared tr.location) :
    m.AddsExactly tr env ↔ m.Exact tr env := by
  have hnew : ¬ m.Registered tr := fun h => hl (hm.shared h)
  unfold Exact
  simp only [hl, hnew, not_false_eq_true, true_and, false_or, forall_const, IsEmpty.forall_iff, and_true]
  cases hc : creates tr.location env.opened with
  | false =>
    have howners : (m.containsLocation tr.location).2.owners = m.owners := by
      obtain ⟨table, htable, -⟩ := snd_containsLocation m tr.location
      rw [htable]
    refine iff_of_true ?_ (Or.inl rfl)
    apply addsExactly_of_failure (add_of_not_created hl hc) howners
    rintro ⟨-, h | h⟩
    · exact hl h
    · rw [hc] at h
      contradiction
  | true =>
    simp only [Bool.true_eq_false, false_or]
    by_cases ho : tr.owner = 0
    · have hadd := @add_of_created m tr env hl hc
      rw [addAll_of_null _ ho] at hadd
      exact iff_of_false (not_addsExactly hnew (Or.inr hc) hadd) fun h => h.2 ho
    by_cases ht : tr.type = []
    · have hadd := @add_of_created m tr env hl hc
      rw [addAll_of_empty _ ho ht] at hadd
      exact iff_of_false (not_addsExactly hnew (Or.inr hc) hadd) fun h => h.1 ht
    · have hadd := @add_of_new m tr env hm hl hc ho ht
      refine iff_of_true ?_ ⟨ht, ho⟩
      apply @addsExactly_of_registered m tr env (m.containsLocation tr.location).2.newStream m.next hnew
        (Or.inr hc)
      · rw [hadd]
      · intro tr'
        exact (same_containsLocation m tr.location).find tr'
      · rw [hadd]
        exact SameTables.refl _

end Exact

end LogManager

/-- **When `add` is exact and atomic.** -/
theorem add_exact_iff {m : LogManager} (hm : Reachable m) (tr : Triple) (env : Surroundings) :
    m.AddsExactly tr env ↔ m.Exact tr env := by
  by_cases hl : m.Shared tr.location
  · exact LogManager.addsExactly_shared hl
  · exact LogManager.addsExactly_new hm.sound hl

/-- One owner with one log. -/
def oneLog : LogManager :=
  Run.last step [.add (fileTriple 1 "MAINLOG") plainSurroundings] (LogManager.init .info)

/-- A second owner shares the log. -/
theorem add_exact_second : oneLog.AddsExactly (fileTriple 2 "ACCESS") plainSurroundings := by
  have hreach : Reachable oneLog := ⟨.info, [.add (fileTriple 1 "MAINLOG") plainSurroundings], rfl⟩
  apply (add_exact_iff hreach _ _).mpr
  refine Or.inr (Or.inr ⟨by decide, fun _ => by decide, fun _ => ⟨Or.inr (by decide), by decide, ?_⟩⟩)
  intro server hserver
  cases hserver

/-- The owner has the category already, and the log exists: the call fails. -/
theorem not_add_exact :
    ¬ ∀ (m : LogManager), Reachable m → ∀ (tr : Triple) (env : Surroundings), m.AddsExactly tr env := by
  intro h
  have hexact := h
    (Run.last step
      [.add (fileTriple 1 "MAINLOG") plainSurroundings,
        .add ⟨2, ascii "MAINLOG", ascii "file://b"⟩ plainSurroundings] (LogManager.init .info))
    ⟨.info, _, rfl⟩ ⟨1, ascii "MAINLOG", ascii "file://b"⟩ plainSurroundings
  have hsuccess := hexact.success.mpr ⟨by decide, Or.inl (by decide)⟩
  revert hsuccess
  decide

end MyServer.Log
