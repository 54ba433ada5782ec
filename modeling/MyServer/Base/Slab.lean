import MyServer.Lib.Words
import MyServer.Lib.Safety

/-!
# Slots from a slab (slab.h, bitvec.cpp)

The free slots are the bits of a `BitVec` that are set. A search starts at the word where the last one ended.
It goes around, but what it finds behind the last word gets a number that is too large.
-/

open MyServer.Words

namespace MyServer.Slab

structure BitVec where
  lastFound : Nat
  data : Nat → Word
  dataSize : Nat
  capacity : Nat

namespace BitVec

variable (v : BitVec)

def set (i : Nat) : BitVec := { v with data := setBit v.data i }

def unset (i : Nat) : BitVec := { v with data := clearBit v.data i }

/-- `capacity` is an `int`. A negative one asks for more words than there can be. -/
def init (capacity : Int) (val : Bool) : Option BitVec :=
  if capacity < 0 then none
  else
    let v : BitVec := ⟨0, fun _ => 0, capacity.toNat / 64 + 1, capacity.toNat⟩
    some (if val then (List.range capacity.toNat).foldl set v else v)

def ffsl (w : Word) : Nat :=
  match lowest w with
  | some j => j + 1
  | none => 0

/-- The bit that is found and the `i` it is found at, in so many turns. -/
def findLoop : Nat → Nat → Option (Nat × Nat)
  | 0, _ => none
  | turns + 1, i =>
    let p := ffsl (v.data (i % v.dataSize))
    let r := i * 64 + p - 1
    if p ≠ 0 ∧ r < v.capacity then some (r, i) else findLoop turns (i + 1)

/-- `none` is -1. -/
def find : Option Nat × BitVec :=
  match v.findLoop v.dataSize v.lastFound with
  | some (r, i) => (some r, { v with lastFound := i })
  | none => (none, v)

end BitVec

end Slab

/-- A slot is its index in `data`. -/
structure Slab where
  mask : Slab.BitVec
  capacity : Nat

namespace Slab

/-- The size goes to the mask as an `int`. -/
def new (capacity : UInt64) : Option Slab :=
  (BitVec.init capacity.toUInt32.toInt32.toInt true).map fun mask => ⟨mask, capacity.toNat⟩

variable (s : Slab)

def get : Option Nat × Slab :=
  match s.mask.find with
  | (some i, mask) => if i ≥ s.capacity then (none, { s with mask }) else (some i, { s with mask := mask.unset i })
  | (none, mask) => (none, { s with mask })

def put (i : Nat) : Slab := if i < s.capacity then { s with mask := s.mask.set i } else s

/-! ## Runs -/

/-- With the slots that are handed out. -/
structure Use where
  slab : Slab
  out : List Nat

inductive Op
  | get
  | put (i : Nat)

def step (u : Use) : Op → Option Use
  | .get =>
    match u.slab.get with
    | (some i, slab) => some ⟨slab, i :: u.out⟩
    | (none, slab) => some ⟨slab, u.out⟩
  | .put i => if i ∈ u.out then some ⟨u.slab.put i, u.out.erase i⟩ else none

/-- Every slot of the slab is handed out. -/
def AllOut (u : Use) : Prop := ∀ i < u.slab.capacity, i ∈ u.out

/-- After some more gets the slot is handed out. -/
def Available (u : Use) (i : Nat) : Prop :=
  ∃ n u', Safety.run step (List.replicate n Op.get) u = some u' ∧ i ∈ u'.out

/-- What a call should do. -/
def Serves (u : Use) : Op → Prop
  | .get =>
    (∀ i, u.slab.get.1 = some i → i < u.slab.capacity ∧ i ∉ u.out) ∧ (u.slab.get.1 = none ↔ AllOut u)
  | .put i => ∀ u', step u (.put i) = some u' → i ∉ u'.out ∧ Available u' i

/-- A slot comes back no earlier than the word of the last search, and the mask has a free slot where it
has fewer bits than there are slots. -/
def Clean (u : Use) : Op → Prop
  | .get => u.slab.mask.capacity = u.slab.capacity ∨ ∃ i < u.slab.mask.capacity, i ∉ u.out
  | .put i => i ∈ u.out → u.slab.mask.lastFound ≤ i / 64

instance (u : Use) : ∀ op, Decidable (Clean u op)
  | .get => inferInstanceAs (Decidable (_ ∨ ∃ i < u.slab.mask.capacity, i ∉ u.out))
  | .put i => inferInstanceAs (Decidable (i ∈ u.out → u.slab.mask.lastFound ≤ i / 64))

/-! ## One search -/

namespace BitVec

variable {v : BitVec}

theorem ffsl_eq_zero {w : Word} (h : ffsl w = 0) : lowest w = none := by
  unfold ffsl at h
  split at h
  · cases h
  · assumption

theorem ffsl_eq_succ {w : Word} {j : Nat} (h : ffsl w = j + 1) : lowest w = some j := by
  unfold ffsl at h
  split at h
  · rw [‹lowest w = _›, Nat.succ.inj h]
  · cases h

/-- A turn that finds nothing has no bit in its word. -/
theorem not_bit_of_turn (hbound : ∀ n, bit v.data n = true → n < v.capacity)
    (hsize : v.dataSize = v.capacity / 64 + 1) {i n : Nat}
    (h : ¬ (ffsl (v.data (i % v.dataSize)) ≠ 0 ∧ i * 64 + ffsl (v.data (i % v.dataSize)) - 1 < v.capacity))
    (hn : bit v.data n = true) : n / 64 ≠ i := by
  rintro rfl
  have hlt := hbound n hn
  rw [Nat.mod_eq_of_lt (show n / 64 < v.dataSize by omega)] at h
  cases hp : ffsl (v.data (n / 64)) with
  | zero =>
    rw [not_bit_of_lowest (ffsl_eq_zero hp)] at hn
    cases hn
  | succ j =>
    have hlow := hbound _ (bit_of_lowest (ffsl_eq_succ hp))
    rw [hp] at h
    exact h ⟨Nat.succ_ne_zero j, by omega⟩

/-- What is found is a bit of the word at that place, and no word before it has one. -/
theorem findLoop_some {turns i r k : Nat} (hbound : ∀ n, bit v.data n = true → n < v.capacity)
    (hsize : v.dataSize = v.capacity / 64 + 1) (h : v.findLoop turns i = some (r, k)) :
    bit v.data r = true ∧ r / 64 = k ∧ i ≤ k ∧ ∀ n, bit v.data n = true → i ≤ n / 64 → k ≤ n / 64 := by
  induction turns generalizing i with
  | zero => cases h
  | succ turns ih =>
    unfold findLoop at h
    dsimp only at h
    split_ifs at h with hfound
    · obtain ⟨hp, hlt⟩ := hfound
      obtain ⟨rfl, rfl⟩ := Prod.mk.inj (Option.some.inj h)
      obtain ⟨j, hj⟩ := Nat.exists_eq_succ_of_ne_zero hp
      have hlow := ffsl_eq_succ hj
      have hplace : i * 64 + (j + 1) - 1 = i * 64 + j := by omega
      rw [hj, hplace] at hlt ⊢
      rw [Nat.mod_eq_of_lt (show i < v.dataSize by omega)] at hlow
      have hj64 := (lowest_eq_some hlow).1
      exact ⟨bit_of_lowest hlow, by omega, le_rfl, fun n _ hn => hn⟩
    · obtain ⟨hr, hk, hik, hfirst⟩ := ih h
      refine ⟨hr, hk, by omega, fun n hn hin => hfirst n hn ?_⟩
      exact Nat.lt_of_le_of_ne hin (not_bit_of_turn hbound hsize hfound hn).symm

theorem findLoop_none {turns i : Nat} (hbound : ∀ n, bit v.data n = true → n < v.capacity)
    (hsize : v.dataSize = v.capacity / 64 + 1) (h : v.findLoop turns i = none) {n : Nat}
    (hn : bit v.data n = true) (hturns : n / 64 < i + turns) : n / 64 < i := by
  induction turns generalizing i with
  | zero => exact hturns
  | succ turns ih =>
    unfold findLoop at h
    dsimp only at h
    split_ifs at h with hfound
    have hle := Nat.lt_succ_iff.mp (ih h (by omega))
    exact Nat.lt_of_le_of_ne hle (not_bit_of_turn hbound hsize hfound hn)

theorem foldl_set (l : List Nat) (v : BitVec) :
    l.foldl set v = { v with data := (l.foldl set v).data } ∧
      ∀ i, bit (l.foldl set v).data i = (bit v.data i || decide (i ∈ l)) := by
  induction l generalizing v with
  | nil => exact ⟨rfl, fun i => by simp⟩
  | cons a l ih =>
    obtain ⟨hfields, hbits⟩ := ih (v.set a)
    refine ⟨hfields, fun i => ?_⟩
    rw [List.foldl_cons, hbits i, set, bit_setBit, Bool.or_assoc, ← Bool.decide_or]
    simp only [List.mem_cons]

end BitVec

/-! ## Every state -/

/-- A slot of the mask that nobody has. -/
def Use.Free (u : Use) (i : Nat) : Prop := i < u.slab.mask.capacity ∧ i ∉ u.out

structure Inv (u : Use) : Prop where
  bits : ∀ i, bit u.slab.mask.data i = true ↔ u.Free i
  size : u.slab.mask.dataSize = u.slab.mask.capacity / 64 + 1
  le : u.slab.mask.capacity ≤ u.slab.capacity
  nodup : u.out.Nodup
  out : ∀ i ∈ u.out, i < u.slab.mask.capacity
  hint : u.slab.mask.lastFound = 0 ∨ u.slab.mask.lastFound * 64 < u.slab.mask.capacity

/-- The word of the last search is not behind any slot that is free. -/
def Front (u : Use) : Prop := ∀ i, u.Free i → u.slab.mask.lastFound ≤ i / 64

/-- What is left when the slot `r` was found. -/
def Use.handOut (u : Use) (r : Nat) : Use where
  slab := { u.slab with mask := { u.slab.mask with lastFound := r / 64, data := clearBit u.slab.mask.data r } }
  out := r :: u.out

variable {u u' : Use}

@[simp] theorem free_handOut (r i : Nat) : (u.handOut r).Free i ↔ u.Free i ∧ i ≠ r := by
  unfold Use.Free Use.handOut
  simp only [List.mem_cons, not_or]
  tauto

/-- **What `get` does.** It finds the first word from the last one on that has a free slot. -/
theorem get_cases (h : Inv u) :
    (∃ r, u.slab.get.1 = some r ∧ step u .get = some (u.handOut r) ∧ u.Free r ∧
      u.slab.mask.lastFound ≤ r / 64 ∧ ∀ i, u.Free i → u.slab.mask.lastFound ≤ i / 64 → r / 64 ≤ i / 64) ∨
    u.slab.get.1 = none ∧ step u .get = some u ∧ ∀ i, u.Free i → i / 64 < u.slab.mask.lastFound := by
  have hbound : ∀ n, bit u.slab.mask.data n = true → n < u.slab.mask.capacity := fun n hn => ((h.bits n).mp hn).1
  cases hfind : u.slab.mask.findLoop u.slab.mask.dataSize u.slab.mask.lastFound with
  | some found =>
    obtain ⟨r, k⟩ := found
    obtain ⟨hr, rfl, hle, hfirst⟩ := BitVec.findLoop_some hbound h.size hfind
    have hfree := (h.bits r).mp hr
    have hget : u.slab.get = (some r, (u.handOut r).slab) := by
      have hlt : ¬ r ≥ u.slab.capacity := not_le.mpr (lt_of_lt_of_le hfree.1 h.le)
      rw [get, BitVec.find, hfind]
      simp only [hlt, if_false]
      rfl
    refine Or.inl ⟨r, by rw [hget], ?_, hfree, hle, fun i hi => hfirst i ((h.bits i).mpr hi)⟩
    rw [step, hget]
    rfl
  | none =>
    have hget : u.slab.get = (none, u.slab) := by
      rw [get, BitVec.find, hfind]
    refine Or.inr ⟨by rw [hget], by rw [step, hget], fun i hi => ?_⟩
    refine BitVec.findLoop_none hbound h.size hfind ((h.bits i).mpr hi) ?_
    have hlt := hi.1
    rw [h.size]
    omega

theorem Inv.handOut (h : Inv u) {r : Nat} (hr : u.Free r) : Inv (u.handOut r) where
  bits i := by
    rw [free_handOut, ← h.bits i, Use.handOut, bit_clearBit, Bool.and_eq_true, decide_eq_true_eq]
  size := h.size
  le := h.le
  nodup := List.nodup_cons.mpr ⟨hr.2, h.nodup⟩
  out := List.forall_mem_cons.mpr ⟨hr.1, h.out⟩
  hint := Or.inr (lt_of_le_of_lt (Nat.div_mul_le_self r 64) hr.1)

theorem Inv.put (h : Inv u) {i : Nat} (hi : i ∈ u.out) : Inv ⟨u.slab.put i, u.out.erase i⟩ := by
  have hlt := h.out i hi
  have hput : u.slab.put i = { u.slab with mask := u.slab.mask.set i } := if_pos (lt_of_lt_of_le hlt h.le)
  rw [hput]
  refine ⟨fun j => ?_, h.size, h.le, h.nodup.erase i, fun j hj => h.out j (List.mem_of_mem_erase hj), h.hint⟩
  have hbits := h.bits j
  unfold Use.Free at hbits ⊢
  rw [BitVec.set, bit_setBit, Bool.or_eq_true, hbits, decide_eq_true_eq, h.nodup.mem_erase_iff]
  constructor
  · rintro (⟨hj, hout⟩ | rfl)
    · exact ⟨hj, fun hmem => hout hmem.2⟩
    · exact ⟨hlt, fun hmem => hmem.1 rfl⟩
  · rintro ⟨hj, hmem⟩
    by_cases hji : j = i
    · exact Or.inr hji
    · exact Or.inl ⟨hj, fun hout => hmem ⟨hji, hout⟩⟩

/-! ## Slots that come back -/

theorem Inv.get (h : Inv u) (hstep : step u .get = some u') : Inv u' := by
  rcases get_cases h with ⟨r, -, hget, hfree, -⟩ | ⟨-, hget, -⟩
  · obtain rfl := Option.some.inj (hstep.symm.trans hget)
    exact h.handOut hfree
  · obtain rfl := Option.some.inj (hstep.symm.trans hget)
    exact h

/-- A slot whose word the search has passed stays where it is. -/
theorem behind_get (h : Inv u) {i : Nat} (hfree : u.Free i) (hbehind : i / 64 < u.slab.mask.lastFound)
    (hstep : step u .get = some u') : u'.Free i ∧ i / 64 < u'.slab.mask.lastFound := by
  rcases get_cases h with ⟨r, -, hget, -, hle, -⟩ | ⟨-, hget, -⟩
  · obtain rfl := Option.some.inj (hstep.symm.trans hget)
    have hne : i ≠ r := by
      rintro rfl
      exact absurd hbehind (not_lt.mpr hle)
    exact ⟨(free_handOut r i).mpr ⟨hfree, hne⟩, lt_of_lt_of_le hbehind hle⟩
  · obtain rfl := Option.some.inj (hstep.symm.trans hget)
    exact ⟨hfree, hbehind⟩

theorem not_available (h : Inv u) {i : Nat} (hfree : u.Free i) (hbehind : i / 64 < u.slab.mask.lastFound) :
    ¬ Available u i := by
  rintro ⟨n, u', hrun, hout⟩
  induction n generalizing u with
  | zero =>
    cases hrun
    exact hfree.2 hout
  | succ n ih =>
    obtain ⟨u₁, hstep, hrun⟩ := Option.bind_eq_some_iff.mp hrun
    obtain ⟨hfree', hbehind'⟩ := behind_get h hfree hbehind hstep
    exact ih (h.get hstep) hfree' hbehind' hrun

theorem Inv.length_out (h : Inv u) {i : Nat} (hfree : u.Free i) : u.out.length < u.slab.mask.capacity := by
  have hsub : (i :: u.out) ⊆ List.range u.slab.mask.capacity := by
    intro j hj
    rw [List.mem_range]
    rcases List.mem_cons.mp hj with rfl | hj
    · exact hfree.1
    · exact h.out j hj
  have hle := (List.subperm_of_subset (List.nodup_cons.mpr ⟨hfree.2, h.nodup⟩) hsub).length_le
  rwa [List.length_cons, List.length_range] at hle

/-- Any other slot is reached: each get before takes one that is free. -/
theorem available (h : Inv u) {i : Nat} (hfree : u.Free i) (hfront : u.slab.mask.lastFound ≤ i / 64) :
    Available u i := by
  induction hleft : u.slab.mask.capacity - u.out.length generalizing u with
  | zero =>
    have hlt := h.length_out hfree
    omega
  | succ left ih =>
    rcases get_cases h with ⟨r, -, hget, hr, -, hfirst⟩ | ⟨-, -, hnone⟩
    · by_cases hir : i = r
      · subst hir
        exact ⟨1, u.handOut i, by rw [List.replicate_one, Safety.run, hget]; rfl, List.mem_cons_self⟩
      · obtain ⟨n, u', hrun, hout⟩ := ih (h.handOut hr) ((free_handOut r i).mpr ⟨hfree, hir⟩) (hfirst i hfree hfront)
          (by
            change u.slab.mask.capacity - (r :: u.out).length = left
            rw [List.length_cons]
            omega)
        refine ⟨n + 1, u', ?_, hout⟩
        rw [List.replicate_succ, Safety.run, hget]
        exact hrun
    · exact absurd (hnone i hfree) (not_lt.mpr hfront)

/-! ## Whole runs -/

theorem serves_get_iff (h : Inv u) (hfront : Front u) : Serves u .get ↔ Clean u .get := by
  rcases get_cases h with ⟨r, hget, -, hfree, -⟩ | ⟨hget, -, hnone⟩
  · refine iff_of_true ⟨?_, ?_⟩ (Or.inr ⟨r, hfree.1, hfree.2⟩)
    · intro i hi
      obtain rfl := Option.some.inj (hget.symm.trans hi)
      exact ⟨lt_of_lt_of_le hfree.1 h.le, hfree.2⟩
    · refine iff_of_false (by rw [hget]; nofun) fun hall => ?_
      exact hfree.2 (hall r (lt_of_lt_of_le hfree.1 h.le))
  · have hout : ∀ i, ¬ u.Free i := fun i hi => absurd (hfront i hi) (not_le.mpr (hnone i hi))
    have hall : AllOut u ↔ u.slab.mask.capacity = u.slab.capacity := by
      constructor
      · intro hall
        refine le_antisymm h.le (not_lt.mp fun hlt => ?_)
        exact absurd (h.out _ (hall _ hlt)) (lt_irrefl _)
      · intro heq i hi
        by_contra hmem
        exact hout i ⟨heq ▸ hi, hmem⟩
    constructor
    · intro hserves
      exact Or.inl (hall.mp (hserves.2.mp hget))
    · rintro (heq | ⟨i, hi⟩)
      · refine ⟨fun i hi => ?_, iff_of_true hget (hall.mpr heq)⟩
        rw [hget] at hi
        cases hi
      · exact absurd hi (hout i)

theorem serves_put_iff (h : Inv u) (i : Nat) : Serves u (.put i) ↔ Clean u (.put i) := by
  have hstep : step u (.put i) = if i ∈ u.out then some ⟨u.slab.put i, u.out.erase i⟩ else none := rfl
  by_cases hi : i ∈ u.out
  · rw [if_pos hi] at hstep
    have hput := h.put hi
    have hfree : Use.Free ⟨u.slab.put i, u.out.erase i⟩ i := by
      refine ⟨?_, h.nodup.not_mem_erase⟩
      unfold Slab.put
      rw [if_pos (lt_of_lt_of_le (h.out i hi) h.le)]
      exact h.out i hi
    have hlast : (u.slab.put i).mask.lastFound = u.slab.mask.lastFound := by
      unfold Slab.put
      split_ifs <;> rfl
    constructor
    · intro hserves _
      by_contra hbehind
      refine not_available hput hfree ?_ (hserves _ hstep).2
      rw [hlast]
      exact not_le.mp hbehind
    · intro hclean u' hu'
      obtain rfl := Option.some.inj (hu'.symm.trans hstep)
      refine ⟨hfree.2, available hput hfree ?_⟩
      rw [hlast]
      exact hclean hi
  · rw [if_neg hi] at hstep
    refine iff_of_true (fun u' hu' => ?_) fun hmem => absurd hmem hi
    rw [hstep] at hu'
    cases hu'

theorem serves_iff (h : Inv u) (hfront : Front u) (op : Op) : Serves u op ↔ Clean u op := by
  cases op with
  | get => exact serves_get_iff h hfront
  | put i => exact serves_put_iff h i

theorem Inv.step (h : Inv u) {op : Op} (hstep : step u op = some u') :
    Inv u' ∧ u'.slab.mask.capacity = u.slab.mask.capacity ∧ u'.slab.capacity = u.slab.capacity := by
  cases op with
  | get =>
    refine ⟨h.get hstep, ?_⟩
    rcases get_cases h with ⟨r, -, hget, -⟩ | ⟨-, hget, -⟩
    · obtain rfl := Option.some.inj (hstep.symm.trans hget)
      exact ⟨rfl, rfl⟩
    · obtain rfl := Option.some.inj (hstep.symm.trans hget)
      exact ⟨rfl, rfl⟩
  | put i =>
    unfold Slab.step at hstep
    dsimp only at hstep
    split_ifs at hstep with hi
    obtain rfl := Option.some.inj hstep
    refine ⟨h.put hi, ?_⟩
    unfold Slab.put
    split_ifs <;> exact ⟨rfl, rfl⟩

theorem Front.step (hfront : Front u) (h : Inv u) {op : Op} (hclean : Clean u op) (hstep : step u op = some u') :
    Front u' := by
  cases op with
  | get =>
    rcases get_cases h with ⟨r, -, hget, -, -, hfirst⟩ | ⟨-, hget, -⟩
    · obtain rfl := Option.some.inj (hstep.symm.trans hget)
      intro i hi
      obtain ⟨hi, -⟩ := (free_handOut r i).mp hi
      exact hfirst i hi (hfront i hi)
    · obtain rfl := Option.some.inj (hstep.symm.trans hget)
      exact hfront
  | put i =>
    unfold Slab.step at hstep
    dsimp only at hstep
    split_ifs at hstep with hi
    obtain rfl := Option.some.inj hstep
    intro j hj
    have hput : u.slab.put i = { u.slab with mask := u.slab.mask.set i } :=
      if_pos (lt_of_lt_of_le (h.out i hi) h.le)
    have hlast : (u.slab.put i).mask.lastFound = u.slab.mask.lastFound := by rw [hput]; rfl
    rw [hlast]
    by_cases hji : j = i
    · rw [hji]
      exact hclean hi
    · refine hfront j ⟨?_, fun hmem => hj.2 ((List.mem_erase_of_ne hji).mpr hmem)⟩
      have hlt := hj.1
      rwa [hput] at hlt

theorem toInt_toNat_le (n : UInt64) : n.toUInt32.toInt32.toInt.toNat ≤ n.toNat ∧
    (n.toNat < 2 ^ 31 → n.toUInt32.toInt32.toInt.toNat = n.toNat) := by
  have hword : n.toUInt32.toInt32.toInt = n.toUInt32.toBitVec.toInt := rfl
  have hmod : n.toUInt32.toBitVec.toNat = n.toNat % 2 ^ 32 := UInt64.toNat_toUInt32 n
  have hle := Nat.mod_le n.toNat (2 ^ 32)
  rw [hword, BitVec.toInt_eq_toNat_cond, hmod]
  split_ifs <;> omega

theorem new_eq {capacity : UInt64} {s : Slab} (hnew : new capacity = some s) :
    s.capacity = capacity.toNat ∧ s.mask = (List.range capacity.toUInt32.toInt32.toInt.toNat).foldl BitVec.set
      ⟨0, fun _ => 0, capacity.toUInt32.toInt32.toInt.toNat / 64 + 1, capacity.toUInt32.toInt32.toInt.toNat⟩ := by
  unfold new BitVec.init at hnew
  split_ifs at hnew with hneg hval
  · cases hnew
  · obtain rfl := Option.some.inj hnew
    exact ⟨rfl, rfl⟩
  · exact absurd rfl hval

theorem init_inv {capacity : UInt64} {s : Slab} (hnew : new capacity = some s) :
    Inv ⟨s, []⟩ ∧ Front ⟨s, []⟩ := by
  obtain ⟨hcapacity, hmask⟩ := new_eq hnew
  obtain ⟨hfields, hbits⟩ := BitVec.foldl_set (List.range capacity.toUInt32.toInt32.toInt.toNat)
    ⟨0, fun _ => 0, capacity.toUInt32.toInt32.toInt.toNat / 64 + 1, capacity.toUInt32.toInt32.toInt.toNat⟩
  rw [← hmask] at hfields hbits
  have hsize : s.mask.capacity = capacity.toUInt32.toInt32.toInt.toNat := by rw [hfields]
  have hlast : s.mask.lastFound = 0 := by rw [hfields]
  refine ⟨⟨fun i => ?_, ?_, ?_, List.nodup_nil, nofun, Or.inl hlast⟩, fun i _ => ?_⟩
  · rw [hbits i, bit_zero, Bool.false_or, decide_eq_true_eq, List.mem_range]
    unfold Use.Free
    rw [hsize]
    exact ⟨fun hi => ⟨hi, nofun⟩, fun hi => hi.1⟩
  · rw [hsize, hfields]
  · rw [hsize, hcapacity]
    exact (toInt_toNat_le capacity).1
  · rw [hlast]
    exact Nat.zero_le _

/-- **When a slab serves a run**: a slot comes back no earlier than where the last search ended, and the size
of the slab is an `int`, or not all that its mask has are handed out. -/
theorem serves_run_iff {capacity : UInt64} {s : Slab} (hnew : new capacity = some s) (ops : List Op) :
    Safety.Along step Serves ops ⟨s, []⟩ ↔ Safety.Along step Clean ops ⟨s, []⟩ := by
  have hkeeps : ∀ u op u', Inv u ∧ Front u → Clean u op → step u op = some u' → Inv u' ∧ Front u' :=
    fun u op u' h hclean hstep => ⟨(h.1.step hstep).1, h.2.step h.1 hclean hstep⟩
  exact Safety.along_congr hkeeps (fun u op h => serves_iff h.1 h.2 op) (init_inv hnew)

/-- Up to 64 slots there is one word to search. -/
theorem serves_run_of_small {capacity : UInt64} (hsmall : capacity.toNat ≤ 64) {s : Slab}
    (hnew : new capacity = some s) (ops : List Op) : Safety.Along step Serves ops ⟨s, []⟩ := by
  obtain ⟨hinv, -⟩ := init_inv hnew
  have hsize : s.mask.capacity = s.capacity ∧ s.capacity ≤ 64 := by
    obtain ⟨hcapacity, hmask⟩ := new_eq hnew
    refine ⟨?_, hcapacity ▸ hsmall⟩
    rw [hcapacity, hmask, (BitVec.foldl_set _ _).1, (toInt_toNat_le capacity).2 (by omega)]
  rw [serves_run_iff hnew]
  have hkeeps : ∀ u op u', (Inv u ∧ u.slab.mask.capacity = u.slab.capacity ∧ u.slab.capacity ≤ 64) → True →
      step u op = some u' → Inv u' ∧ u'.slab.mask.capacity = u'.slab.capacity ∧ u'.slab.capacity ≤ 64 := by
    rintro u op u' ⟨hinv, hsame, hle⟩ - hstep
    obtain ⟨hinv', hmask, hcap⟩ := hinv.step hstep
    exact ⟨hinv', by rw [hmask, hcap, hsame], by rw [hcap]; exact hle⟩
  refine (Safety.along_congr hkeeps (fun u op h => iff_of_true ?_ trivial) ⟨hinv, hsize⟩).mpr
    (Safety.along_of_forall fun _ _ _ => trivial)
  obtain ⟨hinv, hsame, hle⟩ := h
  cases op with
  | get => exact Or.inl hsame
  | put i =>
    intro _
    have hhint := hinv.hint
    omega

/-- The first slot of a hundred is taken and given back. -/
theorem serves_run_hundred : ∃ s, new 100 = some s ∧ Safety.Along step Serves [.get, .put 0, .get] ⟨s, []⟩ := by
  let s := (new 100).get (by decide +kernel)
  have hnew : new 100 = some s := (Option.some_get _).symm
  exact ⟨s, hnew, (serves_run_iff hnew _).mpr (by decide +kernel)⟩

/-- A slab of 65 slots, all of them taken, and the first one given back. -/
theorem not_serves : ¬ ∀ (capacity : UInt64) (s : Slab), new capacity = some s →
    ∀ ops, Safety.Along step Serves ops ⟨s, []⟩ := by
  intro h
  let ops := List.replicate 65 Op.get ++ [.put 0]
  let s := (new 65).get (by decide +kernel)
  have hnew : new 65 = some s := (Option.some_get _).symm
  have hend : ((Safety.run step ops ⟨s, []⟩).any fun u =>
      u.slab.get.1 = none ∧ 0 ∉ u.out ∧ 0 < u.slab.capacity) = true := by
    decide +kernel
  obtain ⟨u, hrun, hu⟩ := (Option.any_eq_true _ _).mp hend
  obtain ⟨hget, hfree, hsize⟩ := of_decide_eq_true hu
  have hserves := Safety.Along.last (h 65 s hnew (ops ++ [.get])) hrun
  exact hfree (hserves.2.mp hget 0 hsize)

end Slab

end MyServer
