import MyServer.Cache.WellFormed
import MyServer.Lib.Run

/-!
# What `usedSize` counts

Between two calls it is the size of all buffers in the table and in the removal list,
until `initialize` resets it while there are some.
-/

open MyServer.Run

namespace MyServer.Cache

def Factory.heldSize (f : Factory) : Nat := (f.held.map fun r => (fileSize f.heap r).toNat).sum

structure Accounted (f : Factory) : Prop where
  used : f.usedSize.toNat = f.heldSize
  le : f.usedSize ≤ f.size

/-- Neither `usedSize -= ret` nor `size - usedSize` wraps around in a call of `open`. -/
structure NoWrap (f : Factory) : Prop where
  ret : f.purged.1 ≤ f.usedSize
  left : f.purgeRecords.usedSize ≤ f.size

/-! ## The sizes, piece by piece -/

variable {f : Factory}

theorem heldSize_modify (f : Factory) (r : Nat) {g : Record → Record}
    (hg : ∀ record, (g record).fileSize = record.fileSize) : (f.modify r g).heldSize = f.heldSize := by
  unfold Factory.heldSize
  rw [Factory.held_modify]
  congr 1
  apply Multiset.map_congr rfl
  intro q _
  congr 1
  unfold Factory.modify fileSize
  dsimp only
  by_cases hq : q = r
  · rw [hq, Function.update_self]
    cases f.heap r with
    | none => rfl
    | some record => exact hg record
  · rw [Function.update_of_ne hq]

theorem heldSize_insert (hf : WellFormed f) {filename : Str} (h : f.get filename = none)
    (info : FileInfo) (ticks : UInt64) :
    (f.insert filename info ticks).heldSize = info.fileSize.toNat + f.heldSize := by
  unfold Factory.heldSize
  rw [Factory.held_insert_new h, Multiset.map_cons, Multiset.sum_cons]
  congr 1
  · rw [fileSize, Factory.heap_insert_next]
    rfl
  · congr 1
    apply Multiset.map_congr rfl
    intro q hq
    have hne : q ≠ f.next := fun he => hf.next_not_held (he ▸ hq)
    rw [fileSize, fileSize, Factory.heap_insert_of_ne _ _ _ _ hne]

theorem heldSize_remove (f : Factory) (filename : Str) : (f.remove filename).heldSize = f.heldSize := by
  unfold Factory.heldSize
  rw [f.held_remove]
  unfold Factory.remove
  split <;> rfl

/-- A purge takes the size of the records that it deletes from the size of all. -/
theorem heldSize_purge (hf : WellFormed f) : ∃ gone, f.heldSize = f.purgeRecords.heldSize + gone ∧
    f.purged.1.toNat = gone % 2 ^ 64 := by
  obtain ⟨-, -, hret⟩ := purgeLoop_spec hf.list_nodup f.heap
  refine ⟨_, ?_, hret⟩
  have hdead : ((f.held.filter fun r => f.Dead r).map fun r => (fileSize f.heap r).toNat).sum =
      ((f.buffersToRemove.filter fun r => refCounter f.heap r = 0).map
        fun r => (fileSize f.heap r).toNat).sum := by
    unfold Factory.held
    rw [Multiset.filter_add, Multiset.filter_eq_nil.mpr fun r hr => hf.not_dead_of_table hr,
      zero_add, Multiset.filter_coe, Multiset.map_coe, Multiset.sum_coe]
    congr 2
    apply List.filter_congr
    intro r hr
    simp [Factory.Dead, hr]
  have hlive : f.purgeRecords.heldSize =
      ((f.held.filter fun r => ¬ f.Dead r).map fun r => (fileSize f.heap r).toNat).sum := by
    unfold Factory.heldSize
    rw [hf.held_purge]
    congr 1
    apply Multiset.map_congr rfl
    intro r hr
    unfold fileSize
    rw [hf.heap_purge, if_neg (Multiset.mem_filter.mp hr).2]
  rw [hlive, ← hdead, add_comm, ← Multiset.sum_add, ← Multiset.map_add, Multiset.filter_add_not]
  rfl

/-! ## One call -/

theorem Accounted.purge (hf : WellFormed f) (h : Accounted f) :
    Accounted f.purgeRecords ∧ NoWrap f := by
  obtain ⟨gone, hsum, hret⟩ := heldSize_purge hf
  have hused := h.used
  have hlt := f.usedSize.toNat_lt
  rw [Nat.mod_eq_of_lt (by omega)] at hret
  have hle : f.purged.1 ≤ f.usedSize := by
    rw [UInt64.le_iff_toNat_le]
    omega
  have hsub : f.purgeRecords.usedSize.toNat = f.usedSize.toNat - f.purged.1.toNat :=
    UInt64.toNat_sub_of_le _ _ hle
  have hleft : f.purgeRecords.usedSize ≤ f.size := by
    have hsize := h.le
    rw [UInt64.le_iff_toNat_le] at hsize ⊢
    omega
  exact ⟨⟨by omega, hleft⟩, hle, hleft⟩

theorem Accounted.modify (h : Accounted f) (r : Nat) {g : Record → Record}
    (hg : ∀ record, (g record).fileSize = record.fileSize) : Accounted (f.modify r g) :=
  ⟨h.used.trans (heldSize_modify f r hg).symm, h.le⟩

theorem Accounted.revalidate (h : Accounted f) (r : Nat) (a : Answers) :
    Accounted (f.revalidate r a) := by
  obtain ⟨g, hg, heq⟩ := f.heap_revalidate r a
  rw [heq]
  exact h.modify r fun record => (hg record).1

theorem Accounted.remove (h : Accounted f) (filename : Str) : Accounted (f.remove filename) := by
  have hsizes : (f.remove filename).usedSize = f.usedSize ∧ (f.remove filename).size = f.size := by
    unfold Factory.remove
    split <;> exact ⟨rfl, rfl⟩
  exact ⟨by rw [hsizes.1, heldSize_remove]; exact h.used, by rw [hsizes.1, hsizes.2]; exact h.le⟩

/-- A file that is not too large still fits in. -/
theorem Accounted.insert (hf : WellFormed f) (h : Accounted f) {filename : Str} {info : FileInfo}
    (hnone : f.get filename = none) (hfits : f.tooLarge info.fileSize = false) (ticks : UInt64) :
    Accounted (f.insert filename info ticks) := by
  have hroom : info.fileSize ≤ f.size - f.usedSize := by
    unfold Factory.tooLarge at hfits
    simp only [decide_eq_false_iff_not, not_or] at hfits
    exact UInt64.not_lt.mp hfits.2.2
  have hle := h.le
  rw [UInt64.le_iff_toNat_le] at hroom hle
  rw [UInt64.toNat_sub_of_le _ _ h.le] at hroom
  have hsum : (f.usedSize + info.fileSize).toNat = f.usedSize.toNat + info.fileSize.toNat := by
    have hlt := f.size.toNat_lt
    rw [UInt64.toNat_add, Nat.mod_eq_of_lt (by omega)]
  have hused := h.used
  constructor
  · rw [heldSize_insert hf hnone]
    change (f.usedSize + info.fileSize).toNat = _
    omega
  · change f.usedSize + info.fileSize ≤ f.size
    rw [UInt64.le_iff_toNat_le, hsum]
    omega

structure Good (f : Factory) : Prop where
  wellFormed : WellFormed f
  accounted : Accounted f

namespace Good

theorem new (size : UInt64) : Good (Factory.new size) where
  wellFormed := .new size
  accounted := ⟨rfl, UInt64.zero_le⟩

theorem modify (h : Good f) (r : Nat) {g : Record → Record}
    (hg : ∀ record, (g record).fileSize = record.fileSize) : Good (f.modify r g) :=
  ⟨h.wellFormed.modify r g, h.accounted.modify r hg⟩

theorem remove (h : Good f) (filename : Str) : Good (f.remove filename) :=
  ⟨h.wellFormed.remove filename, h.accounted.remove filename⟩

theorem openHit (h : Good f) (r : Nat) (a : Answers) : Good (openHit f r a).2 := by
  have hrevalidated : Good (f.revalidate r a) :=
    ⟨h.wellFormed.revalidate r a, h.accounted.revalidate r a⟩
  unfold Cache.openHit
  dsimp only
  split_ifs
  · exact hrevalidated
  · exact hrevalidated.modify r fun _ => rfl

theorem openMiss (h : Good f) {filename : Str} (hnone : f.get filename = none) (a : Answers) :
    Good (openMiss f filename a).2 := by
  unfold Cache.openMiss
  cases a.file with
  | none => exact h
  | some info =>
    dsimp only
    split_ifs with hlarge
    · exact h
    · have hinserted : Good (f.insert filename info a.ticks) :=
        ⟨h.wellFormed.insert filename info a.ticks,
          Accounted.insert h.wellFormed h.accounted hnone (Bool.eq_false_iff.mpr hlarge) a.ticks⟩
      exact hinserted.modify f.next fun _ => rfl

theorem factoryOpen (h : Good f) (filename : Str) (a : Answers) : Good (factoryOpen f filename a).2 := by
  have hpurged : Good f.purgeRecords := ⟨h.wellFormed.purge, (h.accounted.purge h.wellFormed).1⟩
  unfold Cache.factoryOpen
  dsimp only
  cases hget : f.purgeRecords.get filename with
  | some r => exact hpurged.openHit r a
  | none => exact hpurged.openMiss hget a

variable (spaceUsage : UInt64 → UInt64 → Usage)

theorem nullReferences (h : Good f) (cfb : Record) (ticks : UInt64) :
    Good (nullReferences spaceUsage f cfb ticks) := by
  unfold Cache.nullReferences
  split_ifs
  · exact h
  · cases f.get cfb.filename with
    | none => exact h
    | some q =>
      dsimp only
      split_ifs
      · exact h.remove cfb.filename
      · exact h

theorem close (h : Good f) (r : Nat) (ticks : UInt64) : Good (close spaceUsage f r ticks) := by
  have hdec : Good (f.decRef r) := h.modify r fun _ => rfl
  unfold Cache.close
  cases (f.decRef r).heap r with
  | none => exact hdec
  | some cfb =>
    dsimp only
    split_ifs
    · exact hdec.nullReferences spaceUsage cfb ticks
    · exact hdec

theorem initializeCache (h : Good f) (hempty : f.heldSize = 0) (size : UInt64) :
    Good (f.initializeCache size) :=
  ⟨⟨h.wellFormed.nodup, h.wellFormed.alive, h.wellFormed.fresh⟩, hempty.symm, UInt64.zero_le⟩

/-- **One call.** -/
theorem step (h : Good f) {op : Op} {o : Outcome} {f' : Factory}
    (hreset : ∀ size, op = .initializeCache size → f.heldSize = 0)
    (hstep : step spaceUsage f op = some (o, f')) : Good f' := by
  cases op with
  | «open» filename a =>
    obtain rfl : (Cache.factoryOpen f filename a).2 = f' := congrArg Prod.snd (Option.some.inj hstep)
    exact h.factoryOpen filename a
  | close r ticks =>
    dsimp only [Cache.step] at hstep
    split_ifs at hstep
    obtain rfl : Cache.close spaceUsage f r ticks = f' := congrArg Prod.snd (Option.some.inj hstep)
    exact h.close spaceUsage r ticks
  | initializeCache size =>
    obtain rfl : f.initializeCache size = f' := congrArg Prod.snd (Option.some.inj hstep)
    exact h.initializeCache (hreset size rfl) size
  | setMaxSize maxSize =>
    obtain rfl : { f with maxSize := maxSize } = f' := congrArg Prod.snd (Option.some.inj hstep)
    exact ⟨⟨h.wellFormed.nodup, h.wellFormed.alive, h.wellFormed.fresh⟩, h.accounted.used, h.accounted.le⟩
  | setMinSize minSize =>
    obtain rfl : { f with minSize := minSize } = f' := congrArg Prod.snd (Option.some.inj hstep)
    exact ⟨⟨h.wellFormed.nodup, h.wellFormed.alive, h.wellFormed.fresh⟩, h.accounted.used, h.accounted.le⟩

end Good

/-! ## Runs -/

/-- **The accounting of the cache**, over any sequence of calls: it holds in every state exactly when
the cache is initialised again only while its buffers have no size together. -/
theorem accounted_iff (spaceUsage : UInt64 → UInt64 → Usage) (size : UInt64) (ops : List Op) :
    ((∀ n, Accounted (last (step spaceUsage) (ops.take n) (.new size))) ∧
        ∀ e ∈ run (step spaceUsage) ops (.new size), ∀ filename a, e.input = .open filename a →
          NoWrap e.before) ↔
      ∀ e ∈ run (step spaceUsage) ops (.new size), ∀ newSize, e.input = .initializeCache newSize →
        e.before.heldSize = 0 := by
  constructor
  · rintro ⟨haccounted, -⟩ e he newSize hinput
    obtain ⟨n, hbefore, hnext⟩ := exists_take_of_mem_run he
    rw [hinput] at hnext
    have hafter : e.before.initializeCache newSize = last (step spaceUsage) (ops.take (n + 1)) (.new size) :=
      congrArg Prod.snd (Option.some.inj hnext)
    have hused := (haccounted (n + 1)).used
    rw [← hafter] at hused
    exact hused.symm
  · intro hreset
    have hgood : ∀ n, Good (last (step spaceUsage) (ops.take n) (.new size)) ∧
        ∀ e ∈ run (step spaceUsage) (ops.take n) (.new size), Good e.before ∧
          ∃ f', step spaceUsage e.before e.input = some (e.outcome, f') := fun n =>
      run_invariant_of (fun s i o s' hs hP hstep => hs.step spaceUsage hP hstep) (.new size)
        fun e he => hreset e (mem_run_of_mem_take he)
    refine ⟨fun n => (hgood n).1.accounted, fun e he filename a _ => ?_⟩
    obtain ⟨hbefore, -⟩ := (hgood ops.length).2 e (by rwa [List.take_length])
    exact (hbefore.accounted.purge hbefore.wellFormed).2

/-- How the quotient compares when nothing is rounded. -/
def exactUsage (usedSize size : UInt64) : Usage where
  below65 := 100 * usedSize.toNat < 65 * size.toNat
  above65 := 65 * size.toNat < 100 * usedSize.toNat
  above90 := 90 * size.toNat < 100 * usedSize.toNat

def found (fileSize : UInt64) : Answers := ⟨0, false, true, some ⟨fileSize, false⟩⟩

/-- A file is open while the server reboots; it is closed, and the next `open` takes its size from an
empty account. -/
def rebootOps : List Op :=
  [.open (ascii "a") (found 95), .close 0 0, .initializeCache 100, .open (ascii "b") (found 1)]

theorem not_accounted : ¬ ∀ (spaceUsage : UInt64 → UInt64 → Usage) (size : UInt64) (ops : List Op),
    (∀ n, Accounted (last (step spaceUsage) (ops.take n) (.new size))) ∧
      ∀ e ∈ run (step spaceUsage) ops (.new size), ∀ filename a, e.input = .open filename a →
        NoWrap e.before := by
  intro h
  have hused := ((h exactUsage 100 rebootOps).1 3).used
  have hreset : (last (step exactUsage) (rebootOps.take 3) (.new 100)).usedSize.toNat = 0 := by decide
  have hheld : (last (step exactUsage) (rebootOps.take 3) (.new 100)).heldSize = 95 := by decide
  omega

example : (last (step exactUsage) rebootOps (.new 100)).usedSize = 0 - 94 := by decide

end MyServer.Cache
