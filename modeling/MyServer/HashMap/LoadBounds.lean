import Mathlib.Algebra.Order.Field.Rat
import MyServer.HashMap.Clear

/-!
# The load factors

`load / capacity` is a quotient of integers when it is compared with the
factors. It is `0` until the table is full, so the table grows when there are as
many keys as buckets, and shrinks at every `remove` from a table that is not
full.
-/

namespace MyServer

/-- The comparisons with `highLoadFactor` and `lowLoadFactor` of these values. -/
def LoadFactor.ofRat (high low : ℚ) (hhigh : 0 < high) : LoadFactor where
  high q := high < q
  low q := (q : ℚ) < low
  high_zero := by simpa using hhigh.le

/-- 0.75 / 13 * 6 is between 0 and 1, also as a `float`. -/
theorem LoadFactor.ofRat_default {low : ℚ} (hpos : 0 < low) (hlow : low ≤ 1) (hhigh : 0 < (3 / 4 : ℚ)) :
    LoadFactor.ofRat (3 / 4) low hhigh = .default := by
  have hq : ∀ q : Nat, decide ((3 / 4 : ℚ) < q) = decide (1 ≤ q) := by
    intro q
    rw [decide_eq_decide]
    constructor
    · intro h
      by_contra hzero
      obtain rfl : q = 0 := by omega
      norm_num at h
    · intro h
      have : (1 : ℚ) ≤ q := by exact_mod_cast h
      linarith
  have hq' : ∀ q : Nat, decide ((q : ℚ) < low) = decide (q = 0) := by
    intro q
    rw [decide_eq_decide]
    constructor
    · intro h
      have : (q : ℚ) < 1 := h.trans_le hlow
      exact Nat.lt_one_iff.mp (by exact_mod_cast this)
    · rintro rfl
      simpa using hpos
  unfold LoadFactor.ofRat LoadFactor.default
  simp only [hq, hq']

namespace HashMap

variable {V : Type}

/-! ## Growing and shrinking -/

theorem grow_eq_none_iff {h : HashMap V} (hinv : Inv h) :
    h.grow = none ↔ h.factor.high (h.load / h.capacity) = true ∧ 2 ^ 30 ≤ h.capacity := by
  have hpow : 2 ^ 30 ≤ h.capacity ↔ 30 ≤ h.power := by
    rw [hinv.capacity, Nat.pow_le_pow_iff_right (by norm_num)]
  have hfull : h.increaseSize = none ↔ 30 ≤ h.power := by
    unfold increaseSize
    dsimp only
    split_ifs with hp
    · simpa using hp
    · simpa using hp
  rw [hpow, ← hfull]
  unfold grow
  split_ifs with hhigh
  · simp [hhigh]
  · simp [hhigh]

theorem shrink_cases (h : HashMap V) :
    h.factor.low (h.load / h.capacity) = true ∧ 16 < h.capacity ∧ h.shrink.capacity = h.capacity / 2 ∧
        h.shrink.factor = h.factor ∨
      ¬ (h.factor.low (h.load / h.capacity) = true ∧ 16 < h.capacity) ∧ h.shrink = h := by
  unfold shrink
  split_ifs with hlow
  · have hframe := Frame.foldl frame_fold (List.range' (h.capacity >>> 1) (h.capacity - h.capacity >>> 1)).reverse
      { h with power := h.power - 1, mask := h.mask >>> 1, capacity := h.capacity >>> 1 }
    refine Or.inl ⟨hlow.1, hlow.2, ?_, hframe.factor⟩
    rw [← Nat.shiftRight_one]
    exact hframe.capacity
  · exact Or.inr ⟨hlow, rfl⟩

/-! ## No operation touches the factors -/

theorem grow_factor {h h' : HashMap V} (hgrow : h.grow = some h') : h'.factor = h.factor := by
  unfold grow increaseSize at hgrow
  dsimp only at hgrow
  split_ifs at hgrow with hhigh hfull
  · rw [← Option.some.inj hgrow]
    exact (Frame.foldl frame_spread _ _).factor
  · rw [← Option.some.inj hgrow]

theorem shrink_factor (h : HashMap V) : h.shrink.factor = h.factor := by
  rcases shrink_cases h with ⟨-, -, -, hfactor⟩ | ⟨-, hsame⟩
  · exact hfactor
  · rw [hsame]

section Bounds

variable [Zero V]

theorem put_factor {h h' : HashMap V} {key : Str} {value v : V} (hput : h.put key value = some (v, h')) :
    h'.factor = h.factor := by
  obtain ⟨t, -, hput⟩ := Option.bind_eq_some_iff.mp hput
  dsimp only at hput
  split_ifs at hput with hmark hdata
  · split at hput
    · cases hput
      rfl
    · obtain ⟨h₁, hgrow, heq⟩ := Option.map_eq_some_iff.mp hput
      cases heq
      exact (grow_factor hgrow).trans rfl
  · obtain ⟨h₁, hgrow, heq⟩ := Option.map_eq_some_iff.mp hput
    cases heq
    exact (grow_factor hgrow).trans rfl

theorem remove_factor {h h' : HashMap V} {key : Str} {v : V} (hremove : h.remove key = some (v, h')) :
    h'.factor = h.factor := by
  obtain ⟨t, -, hremove⟩ := Option.map_eq_some_iff.mp hremove
  split at hremove
  · cases hremove
    exact shrink_factor _
  · cases hremove
    rfl

theorem step_factor {h h' : HashMap V} {op : Op V} {r : Result V} (hstep : h.step op = some (r, h')) :
    h'.factor = h.factor := by
  cases op with
  | put key value =>
    obtain ⟨⟨v, h₁⟩, hput, heq⟩ := Option.map_eq_some_iff.mp hstep
    cases heq
    exact put_factor hput
  | get key =>
    obtain ⟨v, -, heq⟩ := Option.map_eq_some_iff.mp hstep
    cases heq
    rfl
  | remove key =>
    obtain ⟨⟨v, h₁⟩, hremove, heq⟩ := Option.map_eq_some_iff.mp hstep
    cases heq
    exact remove_factor hremove
  | clear =>
    cases hstep
    unfold clear
    dsimp only
    split_ifs <;> rfl
  | size =>
    cases hstep
    rfl

/-- Whatever new key comes next, its `put` makes the table larger. -/
def GrowsNext (h : HashMap V) : Prop :=
  ∀ key value, h.lookup key = none → ∀ v h', h.put key value = some (v, h') → h.capacity < h'.capacity

variable (high low : ℚ)

def Bounded (s : HashMap V × Mapping V) : Op V → Prop
  | .put key value => s.1.lookup key = none → ∀ v h', s.1.put key value = some (v, h') →
      (h'.load : ℚ) ≤ high * h'.capacity
  | .remove key => ∀ v h', s.1.remove key = some (v, h') → h'.capacity < s.1.capacity →
      (h'.load : ℚ) < low * s.1.capacity ∧ ¬ GrowsNext h'
  | _ => True

/-- Whether the integer quotient of these decides `high < load / capacity`. -/
def Light (s : HashMap V × Mapping V) : Op V → Prop
  | .put key _ => s.1.lookup key = none → s.1.data.size ≠ 0 →
      if high < ((s.1.load + 1) / s.1.capacity : Nat) then
        s.1.capacity < 2 ^ 30 → (s.1.load + 1 : ℚ) ≤ high * (s.1.capacity * 2)
      else (s.1.load + 1 : ℚ) ≤ high * s.1.capacity
  | .remove key => (s.1.lookup key).isSome → 16 < s.1.capacity →
      (((s.1.load - 1) / s.1.capacity : Nat) : ℚ) < low →
        ((s.1.load - 1 : Nat) : ℚ) < low * s.1.capacity ∧ ((s.1.load / (s.1.capacity / 2) : Nat) : ℚ) ≤ high
  | _ => True

variable {high low}

omit [Zero V] in
theorem exists_fresh (m : Mapping V) : ∃ key, m.lookup key = none := by
  obtain ⟨key, hkey⟩ := Infinite.exists_notMem_finset m.keys
  exact ⟨key, Finmap.lookup_eq_none.mpr (mt Finmap.mem_keys.mpr hkey)⟩

/-- **A put of a new key**: the table it leaves, if it does not throw. -/
theorem put_new_cases {h : HashMap V} {m : Mapping V} (hr : Refines h m) {key : Str}
    (hnew : m.lookup key = none) (value : V) :
    h.put key value = none ∧ h.factor.high ((h.load + 1) / h.capacity) = true ∧ 2 ^ 30 ≤ h.capacity ∨
      ∃ h', h.put key value = some (0, h') ∧ h'.load = h.load + 1 ∧
        (h.factor.high ((h.load + 1) / h.capacity) = true → h.capacity < 2 ^ 30 ∧ h'.capacity = h.capacity * 2) ∧
        (h.factor.high ((h.load + 1) / h.capacity) = false → h'.capacity = h.capacity) := by
  obtain ⟨h₁, hput, hr₁, -, hcap, hfactor, hload⟩ := put_new hr hnew value
  have hnone := grow_eq_none_iff hr₁.inv
  rw [hcap, hfactor, hload] at hnone
  rcases grow_cases hr₁.inv with ⟨hgrow, -⟩ | ⟨h', hgrow, hsame, -, hhigh, hlow⟩
  · refine Or.inl ⟨?_, hnone.mp hgrow⟩
    rw [hput, hgrow]
    rfl
  · rw [hcap, hfactor, hload] at hhigh hlow
    refine Or.inr ⟨h', ?_, hsame.load.trans hload, fun hq => ⟨?_, hhigh hq⟩, hlow⟩
    · rw [hput, hgrow]
      rfl
    · by_contra hfull
      rw [hnone.mpr ⟨hq, by omega⟩] at hgrow
      cases hgrow

theorem growsNext_iff {h : HashMap V} {m : Mapping V} (hr : Refines h m) (hcap : h.capacity < 2 ^ 30) :
    GrowsNext h ↔ h.factor.high ((h.load + 1) / h.capacity) = true := by
  constructor
  · intro hgrows
    obtain ⟨key, hkey⟩ := exists_fresh m
    rcases put_new_cases hr hkey 0 with ⟨-, -, hfull⟩ | ⟨h', hput, -, -, hlow⟩
    · omega
    · by_contra hhigh
      have hlt := hgrows key 0 (by rw [hr.lookup, hkey]) 0 h' hput
      rw [hlow (by simpa using hhigh)] at hlt
      omega
  · intro hhigh key value hkey v h' hput
    rw [hr.lookup] at hkey
    rcases put_new_cases hr hkey value with ⟨hnone, -, -⟩ | ⟨h₂, hput₂, -, hdouble, -⟩
    · rw [hnone] at hput
      cases hput
    · rw [hput₂] at hput
      cases hput
      have hpos := hr.inv.capacity_pos
      have := (hdouble hhigh).2
      omega

theorem bounded_put_iff {s : HashMap V × Mapping V} (hs : Counted s) {hhigh : 0 < high}
    (hfactor : s.1.factor = .ofRat high low hhigh) (key : Str) (value : V) :
    Bounded high low s (.put key value) ↔ Light high low s (.put key value) := by
  have hinv := hs.refines.inv
  have hpos := hinv.capacity_pos
  have hq : ∀ q : Nat, s.1.factor.high q = true ↔ high < q := by
    intro q
    rw [hfactor]
    exact decide_eq_true_iff
  have hq' : ∀ q : Nat, s.1.factor.high q = false ↔ ¬ high < q := by
    intro q
    rw [← hq, Bool.not_eq_true]
  unfold Bounded Light
  refine imp_congr_right fun hkey => ?_
  rw [hs.refines.lookup] at hkey
  have hdata : s.1.data.size ≠ 0 := by
    rw [hinv.data_size]
    omega
  rw [imp_iff_right hdata]
  rcases put_new_cases hs.refines hkey value with ⟨hput, hhigh, hfull⟩ | ⟨h', hput, hload, hdouble, hsame⟩
  · rw [if_pos ((hq _).mp hhigh), hput]
    exact iff_of_true nofun fun hlt => absurd hlt (by omega)
  · have hbound : (∀ v h'', s.1.put key value = some (v, h'') → (h''.load : ℚ) ≤ high * h''.capacity) ↔
        (s.1.load + 1 : ℚ) ≤ high * h'.capacity := by
      rw [hput]
      constructor
      · intro h
        simpa [hload] using h 0 h' rfl
      · intro h v h'' heq
        cases heq
        simpa [hload] using h
    rw [hbound]
    split_ifs with hgrow
    · obtain ⟨hlt, hcap⟩ := hdouble ((hq _).mpr hgrow)
      rw [imp_iff_right hlt, hcap]
      push_cast
      rfl
    · rw [hsame ((hq' _).mpr hgrow)]

theorem bounded_remove_iff {s : HashMap V × Mapping V} (hs : Counted s) {hhigh : 0 < high}
    (hfactor : s.1.factor = .ofRat high low hhigh) (key : Str) :
    Bounded high low s (.remove key) ↔ Light high low s (.remove key) := by
  have hr := hs.refines
  have hcap_le := hr.inv.capacity_le
  unfold Bounded Light
  dsimp only
  cases hold : s.1.lookup key with
  | none =>
    rw [hr.lookup] at hold
    rw [remove_missing hr hold]
    refine iff_of_true ?_ nofun
    intro v h' heq hlt
    cases heq
    omega
  | some old =>
    rw [hr.lookup] at hold
    obtain ⟨h₁, hremove, hr₁, -, hcap, hfactor₁, hload⟩ := remove_mapped hr hold
    have hmem : key ∈ s.2.keys := by
      rw [Finmap.mem_keys, ← Finmap.lookup_isSome, hold]
      rfl
    have hpos : s.1.load - 1 + 1 = s.1.load := by
      have := hr.load ▸ Finset.card_pos.mpr ⟨key, hmem⟩
      omega
    have hsame := shrink_same hr₁.inv
    rw [hremove]
    rw [imp_iff_right (show (some old).isSome = true from rfl)]
    have hresult : (∀ v h', some (old, h₁.shrink) = some (v, h') → h'.capacity < s.1.capacity →
        (h'.load : ℚ) < low * s.1.capacity ∧ ¬ GrowsNext h') ↔
          (h₁.shrink.capacity < s.1.capacity → ((s.1.load - 1 : Nat) : ℚ) < low * s.1.capacity ∧
            ¬ GrowsNext h₁.shrink) := by
      rw [← hload, ← hsame.load]
      constructor
      · exact fun h => h old _ rfl
      · intro h v h' heq
        cases heq
        exact h
    rw [hresult]
    have hlow : ∀ q : Nat, h₁.factor.low q = true ↔ (q : ℚ) < low := by
      intro q
      rw [hfactor₁, hfactor]
      exact decide_eq_true_iff
    rcases shrink_cases h₁ with ⟨hq, hlarge, hhalf, hfactor₂⟩ | ⟨hkeep, hshrink⟩
    · rw [hlow, hload, hcap] at hq
      rw [hcap] at hlarge hhalf
      have hgrows := growsNext_iff (hsame.refines hr₁) (by omega)
      rw [hsame.load, hload, hpos, hhalf, hfactor₂, hfactor₁, hfactor] at hgrows
      rw [imp_iff_right (by omega), imp_iff_right hlarge, imp_iff_right hq, hgrows]
      change _ ∧ ¬ decide (_ < _) = true ↔ _
      rw [decide_eq_true_iff, not_lt]
    · rw [hlow, hload, hcap] at hkeep
      rw [hshrink, hcap]
      refine iff_of_true (fun hlt => absurd hlt (lt_irrefl _)) fun hlarge hq => ?_
      exact absurd ⟨hq, hlarge⟩ hkeep

/-- A table without buckets neither grows nor shrinks. -/
theorem Gone.bounded_iff {s : HashMap V × Mapping V} (hg : Gone s.1) (op : Op V) :
    Bounded high low s op ↔ Light high low s op := by
  cases op with
  | put key value =>
    refine iff_of_true (fun _ v h' hput => ?_) fun _ hdata => absurd hg.data_size hdata
    rw [hg.put_eq_none] at hput
    cases hput
  | remove key =>
    refine iff_of_true (fun v h' hremove hlt => ?_) fun hsome => ?_
    · have hstep : s.1.step (.remove key) = some (.value v, h') := by
        rw [HashMap.step, hremove]
        rfl
      rw [(hg.step hstep).2 rfl] at hlt
      exact absurd hlt (lt_irrefl _)
    · rw [hg.lookup] at hsome
      cases hsome
  | get key => exact Iff.rfl
  | clear => exact Iff.rfl
  | size => exact Iff.rfl

/-! ## Runs -/

theorem bounded_iff_light {s : HashMap V × Mapping V} (hs : Sound s) {hhigh : 0 < high}
    (hfactor : s.1.factor = .ofRat high low hhigh) (op : Op V) :
    Bounded high low s op ↔ Light high low s op := by
  rcases hs with hs | hs
  · cases op with
    | put key value => exact bounded_put_iff hs hfactor key value
    | remove key => exact bounded_remove_iff hs hfactor key
    | get key => exact Iff.rfl
    | clear => exact Iff.rfl
    | size => exact Iff.rfl
  · exact hs.bounded_iff op

omit [Zero V] in
theorem new_factor {hashCapacity : Int} {factor : LoadFactor} {h : HashMap V}
    (hnew : new hashCapacity factor = some h) : h.factor = factor := by
  unfold new at hnew
  dsimp only at hnew
  split_ifs at hnew
  rw [← Option.some.inj hnew]

theorem along_bounded_iff {s : HashMap V × Mapping V} (hs : Sound s) {hhigh : 0 < high}
    (hfactor : s.1.factor = .ofRat high low hhigh) (ops : List (Op V)) :
    Safety.Along stepBoth (Bounded high low) ops s ↔ Safety.Along stepBoth (Light high low) ops s := by
  have hkeep : ∀ (s : HashMap V × Mapping V) op s', (Sound s ∧ s.1.factor = .ofRat high low hhigh) →
      Light high low s op → stepBoth s op = some s' → Sound s' ∧ s'.1.factor = .ofRat high low hhigh := by
    rintro s op s' ⟨hs, hf⟩ - hstep
    refine ⟨hs.step hstep, ?_⟩
    obtain ⟨⟨r, h'⟩, hres, rfl⟩ := Option.map_eq_some_iff.mp hstep
    exact (step_factor hres).trans hf
  exact Safety.along_congr hkeep (fun s op hs => bounded_iff_light hs.1 hs.2 op) ⟨hs, hfactor⟩

/-- **The load keeps its bounds** in the runs where the quotients of integers happen to tell it. -/
theorem loads_iff {hashCapacity : Int} {hhigh : 0 < high} {h : HashMap V}
    (hnew : new hashCapacity (.ofRat high low hhigh) = some h) (ops : List (Op V)) :
    Safety.Along stepBoth (Bounded high low) ops (h, ∅) ↔ Safety.Along stepBoth (Light high low) ops (h, ∅) :=
  along_bounded_iff (Or.inl (counted_new hnew)) (new_factor hnew) ops

theorem loads_two : ∃ h : HashMap Nat, new 0 (.ofRat (3 / 4) (9 / 26) (by norm_num)) = some h ∧
    Safety.Along stepBoth (Bounded (3 / 4) (9 / 26)) [.put (ascii "a") 1, .clear] (h, ∅) := by
  refine ⟨_, rfl, (@loads_iff Nat _ (3 / 4) (9 / 26) 0 (by norm_num) _ rfl _).mpr ?_⟩
  refine ⟨fun _ _ => ?_, fun _ _ => ⟨trivial, fun _ _ => trivial⟩⟩
  change if (3 / 4 : ℚ) < ((0 + 1) / 16 : Nat) then _ else ((0 : Nat) + 1 : ℚ) ≤ 3 / 4 * (16 : Nat)
  norm_num

/-- Thirteen keys in sixteen buckets. -/
theorem not_loads : ∃ h : HashMap Nat, new 0 (.ofRat (3 / 4) (9 / 26) (by norm_num)) = some h ∧
    ¬ Safety.Along stepBoth (Bounded (3 / 4) (9 / 26)) (manyPuts 13) (h, ∅) := by
  obtain ⟨h, hnew⟩ : ∃ h : HashMap Nat, new 0 (.ofRat (3 / 4) (9 / 26) (by norm_num)) = some h := ⟨_, rfl⟩
  have hrun : ((new 0 (.ofRat (3 / 4) (9 / 26) (by norm_num))).bind fun h : HashMap Nat =>
      (Safety.run stepBoth (manyPuts 12) (h, ∅)).map fun s =>
        (s.1.load, s.1.capacity, (s.1.lookup (keyOf 12)).isNone, s.1.data.size)) = some (12, 16, true, 16) := by
    decide +kernel
  rw [hnew, Option.bind_some, Option.map_eq_some_iff] at hrun
  obtain ⟨s, hrun, hs⟩ := hrun
  simp only [Prod.mk.injEq] at hs
  obtain ⟨hload, hcap, hfresh, hdata⟩ := hs
  refine ⟨h, hnew, fun halong => ?_⟩
  have hlight := (along_bounded_iff (Or.inl (counted_new hnew)) (new_factor hnew) _).mp halong
  rw [show manyPuts 13 = manyPuts 12 ++ [.put (keyOf 12) 1] from rfl] at hlight
  have hlast : ite _ _ _ := hlight.last hrun (by simpa using hfresh) (by omega)
  rw [hload, hcap] at hlast
  norm_num at hlast

end Bounds

end HashMap

end MyServer
