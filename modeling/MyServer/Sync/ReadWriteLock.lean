import Mathlib.Tactic
import Mathlib.Algebra.BigOperators.Group.Finset.Basic
import Mathlib.Algebra.Order.BigOperators.Group.Finset

/-!
# The lock for readers and writers (read_write_lock.cpp)

A semaphore with `maxReaders` permits. A reader takes one of them, a writer all of
them, one after the other.
-/

namespace MyServer.ReadWriteLock

/-- Where a thread is. In its loop a writer has made `i` of the calls. -/
inductive Place
  | idle
  | readLock
  | reading
  | writeLock (i : Nat)
  | writing
  | writeUnlock (i : Nat)
deriving DecidableEq

abbrev Thread (readers writers : Nat) := Fin readers ⊕ Fin writers

structure Lock (readers writers : Nat) where
  permits : Nat
  place : Thread readers writers → Place

section Steps

variable {readers writers : Nat}

def Lock.new (maxReaders readers writers : Nat) : Lock readers writers :=
  ⟨maxReaders, fun _ => .idle⟩

def Lock.moves (s : Lock readers writers) (t : Thread readers writers) (permits : Nat)
    (place : Place) : Lock readers writers :=
  ⟨permits, Function.update s.place t place⟩

/-- The next step of a thread: it calls, waits for a permit, gives one back or leaves its loop. -/
def step (maxReaders : Nat) (s : Lock readers writers) (t : Thread readers writers) :
    Option (Lock readers writers) :=
  match s.place t with
  | .idle => some (s.moves t s.permits (t.elim (fun _ => .readLock) fun _ => .writeLock 0))
  | .readLock => if s.permits = 0 then none else some (s.moves t (s.permits - 1) .reading)
  | .reading => some (s.moves t (s.permits + 1) .idle)
  | .writeLock i =>
    if i < maxReaders then
      if s.permits = 0 then none else some (s.moves t (s.permits - 1) (.writeLock (i + 1)))
    else some (s.moves t s.permits .writing)
  | .writing => some (s.moves t s.permits (.writeUnlock 0))
  | .writeUnlock i =>
    if i < maxReaders then some (s.moves t (s.permits + 1) (.writeUnlock (i + 1)))
    else some (s.moves t s.permits .idle)

inductive Reachable (maxReaders : Nat) : Lock readers writers → Prop
  | new : Reachable maxReaders (.new maxReaders readers writers)
  | step {s s' : Lock readers writers} (t : Thread readers writers) :
    Reachable maxReaders s → step maxReaders s t = some s' → Reachable maxReaders s'

/-! ## What the lock is for -/

structure Exclusive (s : Lock readers writers) : Prop where
  reader : ∀ t t', s.place t = .reading → s.place t' ≠ .writing
  writer : ∀ t t', s.place t = .writing → s.place t' = .writing → t = t'

/-- The thread waits for a permit, and there is none. -/
def Blocked (maxReaders : Nat) (s : Lock readers writers) (t : Thread readers writers) : Prop :=
  s.permits = 0 ∧ (s.place t = .readLock ∨ ∃ i < maxReaders, s.place t = .writeLock i)

def Deadlocked (maxReaders : Nat) (s : Lock readers writers) : Prop :=
  Nonempty (Thread readers writers) ∧ ∀ t, Blocked maxReaders s t

def Correct (maxReaders readers writers : Nat) : Prop :=
  ∀ s : Lock readers writers, Reachable maxReaders s → Exclusive s ∧ ¬ Deadlocked maxReaders s

/-! ## Permits are kept -/

def Place.held (maxReaders : Nat) : Place → Nat
  | .idle | .readLock => 0
  | .reading => 1
  | .writeLock i => i
  | .writing => maxReaders
  | .writeUnlock i => maxReaders - i

/-- Which places the thread gets to, and how far its loop goes. -/
def Fits (maxReaders : Nat) : Thread readers writers → Place → Prop
  | _, .idle => True
  | .inl _, .readLock | .inl _, .reading => True
  | .inr _, .writeLock i | .inr _, .writeUnlock i => i ≤ maxReaders
  | .inr _, .writing => True
  | _, _ => False

structure Inv (maxReaders : Nat) (s : Lock readers writers) : Prop where
  fits : ∀ t, Fits maxReaders t (s.place t)
  total : s.permits + ∑ t, (s.place t).held maxReaders = maxReaders

variable {maxReaders : Nat} {s s' : Lock readers writers}

@[simp] theorem moves_permits (t : Thread readers writers) (permits : Nat) (place : Place) :
    (s.moves t permits place).permits = permits := rfl

@[simp] theorem moves_place_self (t : Thread readers writers) (permits : Nat) (place : Place) :
    (s.moves t permits place).place t = place := Function.update_self ..

theorem moves_place_of_ne {t t' : Thread readers writers} (h : t' ≠ t) (permits : Nat) (place : Place) :
    (s.moves t permits place).place t' = s.place t' := Function.update_of_ne h ..

theorem sum_moves (maxReaders : Nat) (s : Lock readers writers) (t : Thread readers writers)
    (permits : Nat) (place : Place) : (∑ t', ((s.moves t permits place).place t').held maxReaders) +
      (s.place t).held maxReaders =
        (∑ t', (s.place t').held maxReaders) + place.held maxReaders := by
  have hrest : ∑ t' ∈ Finset.univ.erase t, ((s.moves t permits place).place t').held maxReaders =
      ∑ t' ∈ Finset.univ.erase t, (s.place t').held maxReaders := by
    apply Finset.sum_congr rfl
    intro t' ht'
    rw [moves_place_of_ne (Finset.ne_of_mem_erase ht')]
  rw [← Finset.add_sum_erase _ _ (Finset.mem_univ t),
    ← Finset.add_sum_erase _ (fun t' => (s.place t').held maxReaders) (Finset.mem_univ t), hrest,
    moves_place_self]
  omega

/-- A move of one thread keeps the permits when what it has and what is left change alike. -/
theorem Inv.moves (h : Inv maxReaders s) {t : Thread readers writers} {permits : Nat} {place : Place}
    (hfits : Fits maxReaders t place)
    (htotal : permits + place.held maxReaders = s.permits + (s.place t).held maxReaders) :
    Inv maxReaders (s.moves t permits place) where
  fits t' := by
    by_cases ht : t' = t
    · subst ht
      rwa [moves_place_self]
    · rw [moves_place_of_ne ht]
      exact h.fits t'
  total := by
    have hsum := sum_moves maxReaders s t permits place
    have hold := h.total
    change permits + _ = maxReaders
    omega

theorem Inv.step (h : Inv maxReaders s) {t : Thread readers writers}
    (hstep : step maxReaders s t = some s') : Inv maxReaders s' := by
  have hfits := h.fits t
  unfold ReadWriteLock.step at hstep
  cases hplace : s.place t with
  | idle =>
    simp only [hplace, Option.some.injEq] at hstep
    subst hstep
    apply h.moves
    · cases t <;> simp [Fits]
    · cases t <;> simp [hplace, Place.held]
  | readLock =>
    simp only [hplace, Option.ite_none_left_eq_some, Option.some.injEq] at hstep hfits
    obtain ⟨hpermits, rfl⟩ := hstep
    apply h.moves
    · cases t <;> simp_all [Fits]
    · simp only [hplace, Place.held]
      omega
  | reading =>
    simp only [hplace, Option.some.injEq] at hstep
    subst hstep
    exact h.moves trivial (by simp [hplace, Place.held])
  | writeLock i =>
    rw [hplace] at hfits
    simp only [hplace] at hstep
    split_ifs at hstep with hi hpermits
    · obtain rfl := Option.some.inj hstep
      apply h.moves
      · cases t with
        | inl r => exact hfits
        | inr w => exact hi
      · simp only [hplace, Place.held]
        omega
    · obtain rfl := Option.some.inj hstep
      cases t with
      | inl r => exact hfits.elim
      | inr w =>
        have hle : i ≤ maxReaders := hfits
        apply h.moves
        · trivial
        · simp only [hplace, Place.held]
          omega
  | writing =>
    simp only [hplace, Option.some.injEq] at hstep
    subst hstep
    rw [hplace] at hfits
    cases t with
    | inl r => exact hfits.elim
    | inr w => exact h.moves (Nat.zero_le _) (by simp [hplace, Place.held])
  | writeUnlock i =>
    rw [hplace] at hfits
    simp only [hplace] at hstep
    split_ifs at hstep with hi
    · obtain rfl := Option.some.inj hstep
      apply h.moves
      · cases t with
        | inl r => exact hfits
        | inr w => exact hi
      · simp only [hplace, Place.held]
        omega
    · obtain rfl := Option.some.inj hstep
      apply h.moves
      · trivial
      · simp only [hplace, Place.held]
        omega

theorem Reachable.inv (h : Reachable maxReaders s) : Inv maxReaders s := by
  induction h with
  | new => exact ⟨fun _ => trivial, by simp [Lock.new, Place.held]⟩
  | step t _ hstep ih => exact ih.step hstep

/-! ## Exclusion -/

theorem Inv.held_add_le (h : Inv maxReaders s) {t t' : Thread readers writers} (hne : t ≠ t') :
    (s.place t).held maxReaders + (s.place t').held maxReaders ≤ maxReaders := by
  have htotal := h.total
  have hle := Finset.sum_le_sum_of_subset (f := fun t => (s.place t).held maxReaders)
    (Finset.subset_univ {t, t'})
  rw [Finset.sum_pair hne] at hle
  omega

theorem Inv.exclusive (h : Inv maxReaders s) (hpos : 0 < maxReaders ∨ writers ≤ 1) : Exclusive s := by
  constructor
  · intro t t' ht ht'
    have hne : t ≠ t' := by
      rintro rfl
      rw [ht] at ht'
      cases ht'
    have hle := h.held_add_le hne
    rw [ht, ht'] at hle
    simp only [Place.held] at hle
    omega
  · intro t t' ht ht'
    by_contra hne
    have hle := h.held_add_le hne
    rw [ht, ht'] at hle
    simp only [Place.held] at hle
    have hwriters : writers ≤ 1 := by omega
    have hfits := h.fits t
    have hfits' := h.fits t'
    rw [ht] at hfits
    rw [ht'] at hfits'
    cases t with
    | inl r => exact hfits
    | inr w =>
      cases t' with
      | inl r => exact hfits'
      | inr w' => exact hne (congrArg Sum.inr (Fin.ext (by omega)))

/-! ## Deadlock -/

/-- What the threads hold when all of them are blocked. -/
theorem Inv.held_of_deadlocked (h : Inv maxReaders s) (hdead : ∀ t, Blocked maxReaders s t) :
    (∑ w, (s.place (.inr w)).held maxReaders) = maxReaders ∨ IsEmpty (Thread readers writers) := by
  rcases isEmpty_or_nonempty (Thread readers writers) with hempty | ⟨⟨t⟩⟩
  · exact Or.inr hempty
  · left
    have htotal := h.total
    rw [Fintype.sum_sum_type, (hdead t).1] at htotal
    have hreaders : ∑ r, (s.place (.inl r)).held maxReaders = 0 := by
      apply Finset.sum_eq_zero
      intro r _
      have hfits := h.fits (.inl r)
      rcases (hdead (.inl r)).2 with hplace | ⟨i, -, hplace⟩
      · rw [hplace]
        rfl
      · rw [hplace] at hfits
        exact hfits.elim
    omega

theorem Inv.not_deadlocked (h : Inv maxReaders s)
    (hgood : maxReaders = 1 ∨ writers ≤ 1 ∧ (maxReaders = 0 → writers = 1 ∨ readers = 0)) :
    ¬ Deadlocked maxReaders s := by
  rintro ⟨hsome, hdead⟩
  have hwriter : ∀ w, (s.place (.inr w)).held maxReaders < maxReaders := by
    intro w
    have hfits := h.fits (.inr w)
    rcases (hdead (.inr w)).2 with hplace | ⟨i, hi, hplace⟩
    · rw [hplace] at hfits
      exact hfits.elim
    · rw [hplace]
      exact hi
  have hheld := (h.held_of_deadlocked hdead).resolve_right (not_isEmpty_iff.mpr hsome)
  rcases hgood with rfl | ⟨hwriters, hzero⟩
  · -- no writer has a permit
    have hnone : ∑ w, (s.place (.inr w)).held 1 = 0 :=
      Finset.sum_eq_zero fun w _ => Nat.lt_one_iff.mp (hwriter w)
    omega
  · rcases Nat.le_one_iff_eq_zero_or_eq_one.mp hwriters with rfl | rfl
    · rw [Finset.univ_eq_empty, Finset.sum_empty] at hheld
      have hreaders := (hzero hheld.symm).resolve_left (by omega)
      subst hreaders
      exact hsome.elim (Sum.elim Fin.elim0 Fin.elim0)
    · rw [Fin.sum_univ_one] at hheld
      exact absurd hheld (hwriter 0).ne

/-! ## The other way round -/

theorem Reachable.deadlocks (h : Reachable maxReaders s) (hpermits : s.permits = 0)
    (hpos : 0 < maxReaders ∨ writers = 0)
    (hall : ∀ t, s.place t = .idle ∨ Blocked maxReaders s t) :
    ∃ s' : Lock readers writers, Reachable maxReaders s' ∧ ∀ t, Blocked maxReaders s' t := by
  suffices hcall : ∀ T : Finset (Thread readers writers), ∃ s' : Lock readers writers,
      Reachable maxReaders s' ∧ s'.permits = 0 ∧
        (∀ t, s'.place t = .idle ∨ Blocked maxReaders s' t) ∧ ∀ t ∈ T, Blocked maxReaders s' t by
    obtain ⟨s', hreach, -, -, hblocked⟩ := hcall Finset.univ
    exact ⟨s', hreach, fun t => hblocked t (Finset.mem_univ t)⟩
  intro T
  induction T using Finset.induction_on with
  | empty => exact ⟨s, h, hpermits, hall, by simp⟩
  | insert t T _ ih =>
    obtain ⟨s', hreach, hnone, hall', hT⟩ := ih
    by_cases ht : Blocked maxReaders s' t
    · refine ⟨s', hreach, hnone, hall', fun t' ht' => ?_⟩
      rcases Finset.mem_insert.mp ht' with rfl | ht'
      · exact ht
      · exact hT t' ht'
    · have hidle := (hall' t).resolve_right ht
      let place : Place := t.elim (fun _ => .readLock) fun _ => .writeLock 0
      have hstep : ReadWriteLock.step maxReaders s' t = some (s'.moves t s'.permits place) := by
        simp [ReadWriteLock.step, hidle, place]
      have hself : Blocked maxReaders (s'.moves t s'.permits place) t := by
        refine ⟨hnone, ?_⟩
        rw [moves_place_self]
        cases t with
        | inl r => exact Or.inl rfl
        | inr w =>
          right
          refine ⟨0, ?_, rfl⟩
          have := w.isLt
          omega
      have hother : ∀ t' ≠ t, (s'.moves t s'.permits place).place t' = s'.place t' :=
        fun t' ht' => moves_place_of_ne ht' _ _
      have hkeep : ∀ t' ≠ t, Blocked maxReaders s' t' →
          Blocked maxReaders (s'.moves t s'.permits place) t' := by
        rintro t' ht' ⟨-, hwaits⟩
        refine ⟨hnone, ?_⟩
        rwa [hother t' ht']
      refine ⟨_, hreach.step t hstep, hnone, fun t' => ?_, fun t' ht' => ?_⟩
      · by_cases heq : t' = t
        · subst heq
          exact Or.inr hself
        · rcases hall' t' with hidle' | hblocked
          · exact Or.inl ((hother t' heq).trans hidle')
          · exact Or.inr (hkeep t' heq hblocked)
      · by_cases heq : t' = t
        · subst heq
          exact hself
        · exact hkeep t' heq (hT t' ((Finset.mem_insert.mp ht').resolve_left heq))

/-- A writer that calls gets as many permits as there are. -/
theorem Reachable.takes (h : Reachable maxReaders s) {w : Fin writers} (hidle : s.place (.inr w) = .idle)
    {k : Nat} (hk : k ≤ maxReaders) (hpermits : k ≤ s.permits) :
    Reachable maxReaders (s.moves (.inr w) (s.permits - k) (.writeLock k)) := by
  induction k with
  | zero => exact h.step (.inr w) (by simp [ReadWriteLock.step, hidle])
  | succ k ih =>
    apply (ih (by omega) (by omega)).step (.inr w)
    have hne : s.permits - k ≠ 0 := by omega
    have htwice : Function.update (Function.update s.place (.inr w) (Place.writeLock k)) (.inr w)
        (.writeLock (k + 1)) = Function.update s.place (.inr w) (.writeLock (k + 1)) :=
      Function.update_idem ..
    have hstep : ReadWriteLock.step maxReaders
        (s.moves (.inr w) (s.permits - k) (.writeLock k)) (.inr w) =
          some ((s.moves (.inr w) (s.permits - k) (.writeLock k)).moves (.inr w)
            (s.permits - k - 1) (.writeLock (k + 1))) := by
      unfold ReadWriteLock.step
      rw [moves_place_self]
      dsimp only
      rw [if_pos (by omega : k < maxReaders), moves_permits, if_neg hne]
    rw [hstep, Lock.moves, Lock.moves, htwice, Nat.sub_sub]
    rfl

/-- Two writers that each have some of the permits wait for each other. -/
theorem exists_deadlocked_of_writers (hpermits : 2 ≤ maxReaders) (hwriters : 2 ≤ writers) :
    ∃ s : Lock readers writers, Reachable maxReaders s ∧ Deadlocked maxReaders s := by
  let w : Fin writers := ⟨0, by omega⟩
  let w' : Fin writers := ⟨1, by omega⟩
  have hne : (Sum.inr w' : Thread readers writers) ≠ .inr w := by simp [w, w']
  have hfirst : Reachable maxReaders ((Lock.new maxReaders readers writers).moves (.inr w)
      (maxReaders - 1) (.writeLock 1)) :=
    Reachable.new.takes rfl (by omega) (by simp [Lock.new]; omega)
  have hsecond := hfirst.takes (k := maxReaders - 1) (moves_place_of_ne hne _ _) (by omega) le_rfl
  have hnone : (maxReaders - 1) - (maxReaders - 1) = 0 := Nat.sub_self _
  obtain ⟨s, hreach, hblocked⟩ := hsecond.deadlocks hnone (by omega) (by
    intro t
    by_cases ht' : t = .inr w'
    · subst ht'
      exact Or.inr ⟨hnone, Or.inr ⟨maxReaders - 1, by omega, moves_place_self ..⟩⟩
    · by_cases ht : t = .inr w
      · subst ht
        refine Or.inr ⟨hnone, Or.inr ⟨1, by omega, ?_⟩⟩
        rw [moves_place_of_ne hne.symm, moves_place_self]
      · left
        rw [moves_place_of_ne ht', moves_place_of_ne ht]
        rfl)
  exact ⟨s, hreach, ⟨.inr w⟩, hblocked⟩

/-- Without permits nothing holds a writer back. -/
theorem exists_two_writing (hwriters : 2 ≤ writers) :
    ∃ s : Lock readers writers, Reachable 0 s ∧ ¬ Exclusive s := by
  have hwrites : ∀ {s : Lock readers writers} {w : Fin writers}, Reachable 0 s →
      s.place (.inr w) = .idle → Reachable 0 (s.moves (.inr w) s.permits .writing) := by
    intro s w h hidle
    apply (h.takes hidle le_rfl (Nat.zero_le _)).step (.inr w)
    simp [ReadWriteLock.step, Lock.moves]
  let w : Fin writers := ⟨0, by omega⟩
  let w' : Fin writers := ⟨1, by omega⟩
  have hne : (Sum.inr w' : Thread readers writers) ≠ .inr w := by simp [w, w']
  have hfirst : Reachable 0 ((Lock.new 0 readers writers).moves (.inr w) 0 .writing) :=
    hwrites Reachable.new rfl
  have hsecond := hwrites hfirst (moves_place_of_ne hne _ _)
  refine ⟨_, hsecond, fun h => hne.symm (h.writer _ _ ?_ (moves_place_self ..))⟩
  rw [moves_place_of_ne hne.symm, moves_place_self]

theorem exists_deadlocked_of_readers (hreaders : 0 < readers) :
    ∃ s : Lock readers 0, Reachable 0 s ∧ Deadlocked 0 s := by
  have hnew : Reachable 0 (Lock.new 0 readers 0) := Reachable.new
  obtain ⟨s, hreach, hblocked⟩ := hnew.deadlocks rfl (Or.inr rfl) fun t => Or.inl rfl
  exact ⟨s, hreach, ⟨.inl ⟨0, hreaders⟩⟩, hblocked⟩

end Steps

/-- **When the lock is safe and live**: with one permit, or with one writer at most. -/
theorem correct_iff (maxReaders readers writers : Nat) : Correct maxReaders readers writers ↔
    maxReaders = 1 ∨ writers ≤ 1 ∧ (maxReaders = 0 → writers = 1 ∨ readers = 0) := by
  constructor
  · intro h
    by_contra hbad
    rw [not_or, not_and_or] at hbad
    obtain ⟨hone, hother⟩ := hbad
    by_cases hwriters : 2 ≤ writers
    · rcases Nat.eq_zero_or_pos maxReaders with rfl | hpos
      · obtain ⟨s, hreach, hexclusive⟩ := @exists_two_writing readers writers hwriters
        exact hexclusive (h s hreach).1
      · obtain ⟨s, hreach, hdead⟩ :=
          @exists_deadlocked_of_writers readers writers maxReaders (by omega) hwriters
        exact (h s hreach).2 hdead
    · obtain ⟨rfl, hnone⟩ := Classical.not_imp.mp (hother.resolve_left (by omega))
      obtain rfl : writers = 0 := by omega
      obtain ⟨s, hreach, hdead⟩ := exists_deadlocked_of_readers (by omega : 0 < readers)
      exact (h s hreach).2 hdead
  · intro h s hreach
    refine ⟨hreach.inv.exclusive ?_, hreach.inv.not_deadlocked h⟩
    omega

/-- Two permits and two writers: each takes one and waits for the other one. -/
theorem not_correct : ¬ ∀ maxReaders readers writers : Nat, Correct maxReaders readers writers := by
  intro h
  obtain ⟨s, hreach, hdead⟩ := @exists_deadlocked_of_writers 0 2 2 le_rfl le_rfl
  exact (h 2 0 2 s hreach).2 hdead

end MyServer.ReadWriteLock
