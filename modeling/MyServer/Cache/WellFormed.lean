import MyServer.Cache.Factory

/-!
# The containers of the cache

Each record that is alive and known to the factory is in one of its containers, and
there once. Each piece of `Factory` keeps this.
-/

namespace MyServer.Cache

theorem entries_insert (m : HashMap.Mapping Nat) (key : Str) (r : Nat) :
    (m.insert key r).entries = ⟨key, r⟩ ::ₘ (m.erase key).entries := by
  have hinsert : m.insert key r = (m.erase key).insert key r := by
    apply Finmap.ext_lookup
    intro k
    by_cases hk : k = key
    · rw [hk, Finmap.lookup_insert, Finmap.lookup_insert]
    · rw [Finmap.lookup_insert_of_ne _ hk, Finmap.lookup_insert_of_ne _ hk,
        Finmap.lookup_erase_ne hk]
  rw [hinsert]
  exact Finmap.entries_insert_of_notMem Finmap.notMem_erase_self

theorem entries_of_lookup {m : HashMap.Mapping Nat} {key : Str} {r : Nat} (h : m.lookup key = some r) :
    m.entries = ⟨key, r⟩ ::ₘ (m.erase key).entries := by
  rw [← entries_insert]
  congr 1
  apply Finmap.ext_lookup
  intro k
  by_cases hk : k = key
  · rw [hk, Finmap.lookup_insert, h]
  · rw [Finmap.lookup_insert_of_ne _ hk]

/-- The addresses in both containers. -/
def Factory.held (f : Factory) : Multiset Nat :=
  (f.buffers.entries.map fun e => e.2) + (f.buffersToRemove : Multiset Nat)

structure WellFormed (f : Factory) : Prop where
  nodup : f.held.Nodup
  alive : ∀ r ∈ f.held, (f.heap r).isSome
  fresh : ∀ r, f.next ≤ r → f.heap r = none

/-! ## The purge -/

/-- The records that a purge deletes. -/
def Factory.Dead (f : Factory) (r : Nat) : Prop := r ∈ f.buffersToRemove ∧ refCounter f.heap r = 0

theorem purgeLoop_live {heap : Nat → Option Record} {rec : Nat} (h : refCounter heap rec ≠ 0)
    (its : List Nat) : purgeLoop (rec :: its) heap =
      ((purgeLoop its heap).1, rec :: (purgeLoop its heap).2.1, (purgeLoop its heap).2.2) := by
  rw [purgeLoop, if_pos h]

theorem purgeLoop_dead {heap : Nat → Option Record} {rec : Nat} (h : refCounter heap rec = 0)
    (its : List Nat) : purgeLoop (rec :: its) heap =
      (fileSize heap rec + (purgeLoop its (Function.update heap rec none)).1,
        (purgeLoop its (Function.update heap rec none)).2) := by
  rw [purgeLoop, if_neg (not_not.mpr h)]

/-- The records elsewhere are not looked at. -/
theorem purgeLoop_congr {its : List Nat} {heap : Nat → Option Record} {rec : Nat} (h : rec ∉ its)
    (o : Option Record) :
    (purgeLoop its (Function.update heap rec o)).1 = (purgeLoop its heap).1 ∧
      (purgeLoop its (Function.update heap rec o)).2.1 = (purgeLoop its heap).2.1 ∧
      (purgeLoop its (Function.update heap rec o)).2.2 =
        Function.update (purgeLoop its heap).2.2 rec o := by
  induction its generalizing heap with
  | nil => exact ⟨rfl, rfl, rfl⟩
  | cons it its ih =>
    have hne : rec ≠ it := fun he => h (he ▸ List.mem_cons_self)
    have hits : rec ∉ its := fun hm => h (List.mem_cons_of_mem _ hm)
    have href : refCounter (Function.update heap rec o) it = refCounter heap it := by
      rw [refCounter, refCounter, Function.update_of_ne (Ne.symm hne)]
    have hsize : fileSize (Function.update heap rec o) it = fileSize heap it := by
      rw [fileSize, fileSize, Function.update_of_ne (Ne.symm hne)]
    by_cases hit : refCounter heap it = 0
    · rw [purgeLoop_dead (href.trans hit), purgeLoop_dead hit, hsize,
        Function.update_comm hne]
      obtain ⟨hret, hkept, hheap⟩ := @ih (Function.update heap it none) hits
      exact ⟨by rw [hret], hkept, hheap⟩
    · rw [purgeLoop_live (href ▸ hit), purgeLoop_live hit]
      obtain ⟨hret, hkept, hheap⟩ := @ih heap hits
      exact ⟨hret, by rw [hkept], hheap⟩

theorem purgeLoop_spec {its : List Nat} (hnodup : its.Nodup) (heap : Nat → Option Record) :
    (purgeLoop its heap).2.1 = its.filter (fun r => refCounter heap r ≠ 0) ∧
      (∀ r, (purgeLoop its heap).2.2 r =
        if r ∈ its ∧ refCounter heap r = 0 then none else heap r) ∧
      (purgeLoop its heap).1.toNat =
        ((its.filter fun r => refCounter heap r = 0).map fun r => (fileSize heap r).toNat).sum %
          2 ^ 64 := by
  induction its with
  | nil => exact ⟨rfl, fun r => by simp [purgeLoop], rfl⟩
  | cons rec its ih =>
    obtain ⟨hrec, hits⟩ := List.nodup_cons.mp hnodup
    obtain ⟨hkept, hheap, hret⟩ := ih hits
    by_cases h : refCounter heap rec = 0
    · obtain ⟨hret', hkept', hheap'⟩ := @purgeLoop_congr its heap rec hrec none
      rw [purgeLoop_dead h]
      dsimp only
      rw [hret', hkept', hheap']
      refine ⟨by simp [h, hkept], fun r => ?_, ?_⟩
      · by_cases hr : r = rec
        · simp [hr, h]
        · rw [Function.update_of_ne hr, hheap]
          simp [hr]
      · rw [UInt64.toNat_add, hret]
        simp [h]
    · rw [purgeLoop_live h]
      refine ⟨by simp [h, hkept], fun r => ?_, by simp [h, hret]⟩
      rw [hheap]
      by_cases hr : r = rec
      · simp [hr, h]
      · simp [hr]

namespace Factory

variable {f : Factory}

instance (f : Factory) (r : Nat) : Decidable (f.Dead r) := inferInstanceAs (Decidable (_ ∧ _))

/-! ## What each piece leaves in the containers -/

@[simp] theorem held_modify (f : Factory) (r : Nat) (g : Record → Record) :
    (f.modify r g).held = f.held := rfl

@[simp] theorem held_initializeCache (f : Factory) (size : UInt64) :
    (f.initializeCache size).held = f.held := rfl

theorem held_remove (f : Factory) (filename : Str) : (f.remove filename).held = f.held := by
  unfold remove get
  cases h : f.buffers.lookup filename with
  | none => rfl
  | some q =>
    unfold held
    dsimp only
    rw [entries_of_lookup h, ← Multiset.coe_add, Multiset.map_cons, ← add_assoc, Multiset.cons_add,
      ← Multiset.singleton_add, add_comm, Multiset.coe_singleton]

theorem mem_held_of_get {filename : Str} {q : Nat} (h : f.get filename = some q) : q ∈ f.held := by
  apply Multiset.mem_add.mpr
  left
  rw [entries_of_lookup h, Multiset.map_cons]
  exact Multiset.mem_cons_self q _

theorem mem_held_of_list {q : Nat} (h : q ∈ f.buffersToRemove) : q ∈ f.held :=
  Multiset.mem_add.mpr (Or.inr (Multiset.mem_coe.mpr h))

theorem erase_of_get_none {filename : Str} (h : f.get filename = none) :
    f.buffers.erase filename = f.buffers := by
  apply Finmap.ext_lookup
  intro k
  by_cases hk : k = filename
  · rw [hk, Finmap.lookup_erase]
    exact h.symm
  · exact Finmap.lookup_erase_ne hk

theorem held_insert (f : Factory) (filename : Str) (info : FileInfo) (ticks : UInt64) :
    (f.insert filename info ticks).held =
      f.next ::ₘ (((f.buffers.erase filename).entries.map fun e => e.2) + f.buffersToRemove) := by
  unfold held insert
  dsimp only
  rw [entries_insert, Multiset.map_cons, Multiset.cons_add]

theorem held_insert_new {filename : Str} (h : f.get filename = none) (info : FileInfo)
    (ticks : UInt64) : (f.insert filename info ticks).held = f.next ::ₘ f.held := by
  rw [held_insert, erase_of_get_none h]
  rfl

/-- A record that is replaced in the table is in no container any more. -/
theorem held_insert_le (f : Factory) (filename : Str) (info : FileInfo) (ticks : UInt64) :
    (f.insert filename info ticks).held ≤ f.next ::ₘ f.held := by
  cases h : f.get filename with
  | none => exact (held_insert_new h info ticks).le
  | some q =>
    rw [held_insert]
    apply Multiset.cons_le_cons
    unfold held
    rw [entries_of_lookup h, Multiset.map_cons, Multiset.cons_add]
    exact Multiset.le_cons_self _ _

theorem heap_insert_next (f : Factory) (filename : Str) (info : FileInfo) (ticks : UInt64) :
    (f.insert filename info ticks).heap f.next =
      some ⟨filename, info.fileSize, info.symlink, 0, ticks + 5000000, 0, ticks, false⟩ :=
  Function.update_self ..

theorem heap_insert_of_ne (f : Factory) (filename : Str) (info : FileInfo) (ticks : UInt64) {r : Nat}
    (h : r ≠ f.next) : (f.insert filename info ticks).heap r = f.heap r :=
  Function.update_of_ne h ..

theorem heap_revalidate (f : Factory) (r : Nat) (a : Answers) : ∃ g : Record → Record,
    (∀ record, (g record).fileSize = record.fileSize ∧ (g record).refCounter = record.refCounter ∧
      (g record).filename = record.filename) ∧
    f.revalidate r a = f.modify r g := by
  unfold revalidate
  split_ifs
  · exact ⟨fun record =>
      { record with expireTime := a.ticks + 5000000, invalidCache := !a.revalidates },
      fun record => ⟨rfl, rfl, rfl⟩, rfl⟩
  · refine ⟨id, fun record => ⟨rfl, rfl, rfl⟩, ?_⟩
    unfold modify
    rw [Option.map_id, id, Function.update_eq_self]

theorem isSome_modify (f : Factory) (r : Nat) (g : Record → Record) (q : Nat) :
    ((f.modify r g).heap q).isSome = (f.heap q).isSome := by
  unfold modify
  dsimp only
  by_cases h : q = r
  · rw [h, Function.update_self, Option.isSome_map]
  · rw [Function.update_of_ne h]

end Factory

namespace WellFormed

variable {f : Factory}

theorem new (size : UInt64) : WellFormed (Factory.new size) where
  nodup := Multiset.nodup_zero
  alive := fun r hr => absurd hr (Multiset.notMem_zero r)
  fresh := fun _ _ => rfl

theorem next_not_held (h : WellFormed f) : f.next ∉ f.held := by
  intro hmem
  have halive := h.alive f.next hmem
  rw [h.fresh f.next le_rfl] at halive
  cases halive

theorem list_nodup (h : WellFormed f) : f.buffersToRemove.Nodup :=
  Multiset.coe_nodup.mp (Multiset.nodup_add.mp h.nodup).2.1

/-- No record is in both containers. -/
theorem not_dead_of_table (h : WellFormed f) {r : Nat} (hr : r ∈ f.buffers.entries.map fun e => e.2) :
    ¬ f.Dead r := by
  rintro ⟨hlist, -⟩
  exact Multiset.disjoint_left.mp (Multiset.nodup_add.mp h.nodup).2.2 hr (Multiset.mem_coe.mpr hlist)

theorem heap_purge (h : WellFormed f) (r : Nat) :
    f.purgeRecords.heap r = if f.Dead r then none else f.heap r :=
  (purgeLoop_spec h.list_nodup f.heap).2.1 r

theorem held_purge (h : WellFormed f) : f.purgeRecords.held = f.held.filter fun r => ¬ f.Dead r := by
  unfold Factory.held
  rw [Multiset.filter_add]
  congr 1
  · exact (Multiset.filter_eq_self.mpr fun r hr => h.not_dead_of_table hr).symm
  · have hkept : f.purgeRecords.buffersToRemove = _ := (purgeLoop_spec h.list_nodup f.heap).1
    rw [hkept, Multiset.filter_coe]
    congr 1
    apply List.filter_congr
    intro r hr
    simp [Factory.Dead, hr]

theorem modify (h : WellFormed f) (r : Nat) (g : Record → Record) : WellFormed (f.modify r g) where
  nodup := h.nodup
  alive := fun q hq => by
    rw [Factory.isSome_modify]
    exact h.alive q hq
  fresh := fun q hq => by
    have hnone := Factory.isSome_modify f r g q
    rw [h.fresh q hq] at hnone
    exact Option.not_isSome_iff_eq_none.mp (by rw [hnone]; simp)

theorem revalidate (h : WellFormed f) (r : Nat) (a : Answers) : WellFormed (f.revalidate r a) := by
  obtain ⟨g, -, hg⟩ := f.heap_revalidate r a
  rw [hg]
  exact h.modify r g

theorem purge (h : WellFormed f) : WellFormed f.purgeRecords where
  nodup := by
    rw [h.held_purge]
    exact h.nodup.filter _
  alive := fun r hr => by
    rw [h.held_purge] at hr
    obtain ⟨hheld, hlive⟩ := Multiset.mem_filter.mp hr
    rw [h.heap_purge, if_neg hlive]
    exact h.alive r hheld
  fresh := fun r hr => by
    rw [h.heap_purge, h.fresh r hr]
    exact ite_self none

theorem insert (h : WellFormed f) (filename : Str) (info : FileInfo) (ticks : UInt64) :
    WellFormed (f.insert filename info ticks) where
  nodup := Multiset.nodup_of_le (f.held_insert_le filename info ticks)
    (Multiset.nodup_cons.mpr ⟨h.next_not_held, h.nodup⟩)
  alive := fun r hr => by
    by_cases hnew : r = f.next
    · rw [hnew, Factory.heap_insert_next]
      rfl
    · rw [Factory.heap_insert_of_ne _ _ _ _ hnew]
      have hmem := Multiset.mem_of_le (f.held_insert_le filename info ticks) hr
      exact h.alive r ((Multiset.mem_cons.mp hmem).resolve_left hnew)
  fresh := fun r hr => by
    have hr' : f.next + 1 ≤ r := hr
    rw [Factory.heap_insert_of_ne _ _ _ _ (by omega)]
    exact h.fresh r (by omega)

theorem remove (h : WellFormed f) (filename : Str) : WellFormed (f.remove filename) := by
  have hheap : (f.remove filename).heap = f.heap ∧ (f.remove filename).next = f.next := by
    unfold Factory.remove
    split <;> exact ⟨rfl, rfl⟩
  exact ⟨by rw [f.held_remove]; exact h.nodup, by rw [f.held_remove, hheap.1]; exact h.alive,
    by rw [hheap.1, hheap.2]; exact h.fresh⟩

end WellFormed

end MyServer.Cache
