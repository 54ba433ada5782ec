import MyServer.HashMap.Resize

/-!
# What ties buckets, marks and masks together

The live buckets form a chained table over the low bits of the hash. Growing
and shrinking keep what it holds.
-/

namespace MyServer.HashMap

variable {V : Type}

def place (power : Nat) (key : Str) : Nat := hash key % 2 ^ power

structure Inv (h : HashMap V) : Prop where
  power_lt : h.power < 31
  capacity : h.capacity = 2 ^ h.power
  mask : h.mask = 2 ^ h.power - 1
  data_size : h.data.size = h.capacity
  map_size : h.map.size = h.capacity
  offset_pos : 0 < h.offset
  marks : ∀ i, h.map.get i ≤ h.offset
  hashes : ∀ i < h.capacity, ∀ e ∈ h.live i, e.hash = hash e.key
  chained : Chain.Chained Shkv.key (place h.power) h.capacity h.live

theorem Inv.capacity_pos {h : HashMap V} (hinv : Inv h) : 0 < h.capacity := by
  rw [hinv.capacity]
  exact Nat.two_pow_pos _

theorem Inv.capacity_le {h : HashMap V} (hinv : Inv h) : h.capacity ≤ 2 ^ 30 := by
  rw [hinv.capacity]
  exact Nat.pow_le_pow_right (by norm_num) (Nat.lt_succ_iff.mp hinv.power_lt)

def lookup (h : HashMap V) (key : Str) : Option V :=
  (Chain.find Shkv.key (place h.power) h.live key).map Shkv.value

theorem maskOf_eq {p : Nat} (hp : p < 31) : maskOf p = 2 ^ p - 1 := by
  unfold maskOf
  interval_cases p <;> rfl

theorem index_eq {h : HashMap V} (hmask : h.mask = 2 ^ h.power - 1) (x : Nat) :
    x &&& h.mask = x % 2 ^ h.power := by
  rw [hmask, Nat.and_two_pow_sub_one_eq_mod]

theorem place_lt (p : Nat) (key : Str) : place p key < 2 ^ p :=
  Nat.mod_lt _ (Nat.two_pow_pos p)

theorem Inv.home {h : HashMap V} (hinv : Inv h) {i : Nat} (hi : i < h.capacity) {e : Shkv V}
    (he : e ∈ h.live i) : e.hash % 2 ^ h.power = i := by
  rw [hinv.hashes i hi e he]
  exact hinv.chained.home i hi e he

structure Same (h h' : HashMap V) : Prop where
  inv : Inv h'
  load : h'.load = h.load
  offset : h'.offset = h.offset
  lookup : ∀ key, h'.lookup key = h.lookup key

/-- Rehashing: the same entries in the buckets of another power. -/
theorem same_of_mem {h h' : HashMap V} (hinv : Inv h) (hpower : h'.power < 31)
    (hcapacity : h'.capacity = 2 ^ h'.power) (hmask : h'.mask = 2 ^ h'.power - 1)
    (hdata : h'.data.size = h'.capacity) (hmap : h'.map.size = h'.capacity)
    (hoffset : h'.offset = h.offset) (hload : h'.load = h.load)
    (hmarks : ∀ i, h'.map.get i ≤ h'.offset)
    (hnodup : ∀ i < h'.capacity, ((h'.live i).map Shkv.key).Nodup)
    (hmem : ∀ i < h'.capacity, ∀ e, e ∈ h'.live i ↔
      ∃ j < h.capacity, e ∈ h.live j ∧ e.hash % 2 ^ h'.power = i) : Same h h' := by
  have hhash : ∀ i < h'.capacity, ∀ e ∈ h'.live i,
      e.hash = hash e.key ∧ e.hash % 2 ^ h'.power = i := by
    intro i hi e he
    obtain ⟨j, hj, hej, hidx⟩ := (hmem i hi e).mp he
    exact ⟨hinv.hashes j hj e hej, hidx⟩
  have hchained : Chain.Chained Shkv.key (place h'.power) h'.capacity h'.live := by
    refine ⟨fun key => ?_, fun i hi e he => ?_, hnodup⟩
    · rw [hcapacity]
      exact place_lt _ key
    · obtain ⟨heq, hidx⟩ := hhash i hi e he
      rwa [heq] at hidx
  refine ⟨⟨hpower, hcapacity, hmask, hdata, hmap, ?_, hmarks, fun i hi e he => (hhash i hi e he).1,
    hchained⟩, hload, hoffset, fun key => ?_⟩
  · rw [hoffset]
    exact hinv.offset_pos
  · unfold lookup
    rw [hinv.chained.find_congr hchained (fun e => ?_)]
    rw [hmem _ (hchained.bound e.key)]
    constructor
    · rintro ⟨j, hj, he, -⟩
      rwa [hinv.chained.home j hj e he]
    · intro he
      have hlt := hinv.chained.bound e.key
      refine ⟨_, hlt, he, ?_⟩
      rw [hinv.hashes _ hlt e he]
      rfl

/-! ## Growing -/

/-- The next bit of the hash decides between a bucket and the one a capacity above. -/
theorem mod_two_mul_cases {x c i : Nat} (h : x % c = i) :
    x % (c * 2) = i ∨ x % (c * 2) = i + c := by
  rw [Nat.mod_mul, h]
  rcases Nat.mod_two_eq_zero_or_one (x / c) with h0 | h1
  · exact Or.inl (by rw [h0, Nat.mul_zero, Nat.add_zero])
  · exact Or.inr (by rw [h1, Nat.mul_one])

theorem foldl_spread_splits {h : HashMap V} {slot : Shkv V → Nat}
    (hslot : ∀ e : Shkv V, e.hash &&& h.mask = slot e)
    (hfresh : ∀ i ≥ h.capacity, h.data.get i = [])
    (hnear : ∀ i < h.capacity, ∀ e ∈ h.live i, slot e = i ∨ slot e = i + h.capacity) :
    Chain.Splits slot h.capacity h.live ((List.range h.capacity).foldl spread h).live := by
  simp only [← hslot] at hnear
  obtain ⟨-, hlive⟩ := foldl_spread hfresh hnear le_rfl
  simp only [hslot] at hlive hnear
  refine ⟨hnear, fun i hi => ?_, fun i hi => ?_⟩
  · rw [hlive i, if_pos hi]
  · rw [hlive, if_neg (by omega), if_neg (by omega), if_pos (by omega), Nat.add_sub_cancel]

theorem increaseSize_same {h : HashMap V} (hinv : Inv h) (hp : h.power + 1 < 31) :
    ∃ h', h.increaseSize = some h' ∧ Same h h' ∧ h'.capacity = h.capacity * 2 ∧
      h'.factor = h.factor := by
  have hcap := hinv.capacity
  have hpow : 2 ^ (h.power + 1) = h.capacity * 2 := by rw [pow_succ, hcap]
  unfold increaseSize
  dsimp only
  rw [if_neg (by omega)]
  -- The table with the new mask, before any bucket is looked at.
  set h₀ : HashMap V := { h with
    power := h.power + 1
    mask := maskOf (h.power + 1)
    data := h.data.resize (2 ^ (h.power + 1)) []
    map := h.map.resize (2 ^ (h.power + 1)) 0 } with hh₀
  have hmask₀ : h₀.mask = 2 ^ h₀.power - 1 := maskOf_eq hp
  have hlive₀ : ∀ i < h.capacity, h₀.live i = h.live i := by
    intro i hi
    exact live_resize rfl rfl rfl (hinv.map_size ▸ hi) (hinv.data_size ▸ hi)
  have hfresh : ∀ i ≥ h₀.capacity, h₀.data.get i = [] := by
    intro i hi
    exact if_neg (by rw [hinv.data_size]; exact not_lt.mpr hi)
  have hnear : ∀ i < h₀.capacity, ∀ e ∈ h₀.live i,
      e.hash % 2 ^ (h.power + 1) = i ∨ e.hash % 2 ^ (h.power + 1) = i + h₀.capacity := by
    intro i hi e he
    rw [hlive₀ i hi] at he
    rw [hpow]
    exact mod_two_mul_cases (hcap ▸ hinv.home hi he)
  have hsplits := foldl_spread_splits (fun e => index_eq hmask₀ e.hash) hfresh hnear
  have hframe := Frame.foldl frame_spread (List.range h₀.capacity) h₀
  generalize (List.range h₀.capacity).foldl spread h₀ = h₁ at hsplits hframe
  have hpower₁ : h₁.power = h.power + 1 := hframe.power
  refine ⟨_, rfl, ?_, hpow, hframe.factor⟩
  refine same_of_mem hinv ?_ ?_ ?_ hframe.data_size hframe.map_size hframe.offset hframe.load
    (hframe.marks (get_resize_le hinv.marks)) (fun i hi => ?_) (fun i hi e => ?_)
  · exact hpower₁ ▸ hp
  · exact hpower₁ ▸ rfl
  · rw [show h₁.mask = _ from hframe.mask, hmask₀, hpower₁]
  · refine hsplits.nodup (fun j hj => ?_) (hpow ▸ hi)
    rw [hlive₀ j hj]
    exact hinv.chained.nodup j hj
  · have hmem := hsplits.mem_iff (hpow ▸ hi) e
    rw [show ({ h₁ with capacity := 2 ^ (h.power + 1) } : HashMap V).power = _ from hpower₁]
    refine hmem.trans (exists_congr fun j => and_congr_right fun hj => ?_)
    rw [hlive₀ j hj]

/-! ## Shrinking -/

theorem foldl_fold_joins {h : HashMap V} {c : Nat} {slot : Shkv V → Nat}
    (hslot : ∀ e : Shkv V, e.hash &&& h.mask = slot e)
    (hnear : ∀ i < c, ∀ e, e ∈ h.live (c + i) ∨ e ∈ h.live i → slot e = i) :
    Chain.Joins slot c h.live ((List.range' c c).reverse.foldl fold h).live := by
  refine ⟨hnear, fun i hi => ?_⟩
  rw [foldl_fold le_rfl fun j hj e he => (hslot e).trans (hnear j hj e (Or.inl he)), if_pos hi]

theorem decreaseSize_same {h : HashMap V} (hinv : Inv h) {p : Nat} (hp : h.power = p + 1) :
    Same h h.decreaseSize := by
  have hcap := hinv.capacity
  have hpow : h.capacity = 2 ^ p * 2 := by rw [hcap, hp, pow_succ]
  have hhalf : h.capacity >>> 1 = 2 ^ p := by
    rw [Nat.shiftRight_one]
    omega
  unfold decreaseSize
  dsimp only
  rw [hhalf]
  set h₀ : HashMap V :=
    { h with power := h.power - 1, mask := h.mask >>> 1, capacity := 2 ^ p } with hh₀
  have hpower₀ : h₀.power = p := by
    change h.power - 1 = p
    omega
  have hmask₀ : h₀.mask = 2 ^ h₀.power - 1 := by
    change h.mask >>> 1 = _
    rw [hpower₀, hinv.mask, ← hcap, Nat.shiftRight_one]
    omega
  -- Both buckets of a pair have the same low bits.
  have hnear : ∀ i < 2 ^ p, ∀ e, e ∈ h₀.live (2 ^ p + i) ∨ e ∈ h₀.live i →
      e.hash % 2 ^ h₀.power = i := by
    intro i hi e he
    have hdvd : 2 ^ p ∣ 2 ^ h.power := by
      rw [← hcap, hpow]
      exact Nat.dvd_mul_right _ _
    rw [hpower₀, ← Nat.mod_mod_of_dvd e.hash hdvd]
    rcases he with he | he
    · rw [hinv.home (by omega) he, Nat.add_mod_left, Nat.mod_eq_of_lt hi]
    · rw [hinv.home (by omega) he, Nat.mod_eq_of_lt hi]
  have hjoins := foldl_fold_joins (fun e => index_eq hmask₀ e.hash) hnear
  have hframe := Frame.foldl frame_fold (List.range' (2 ^ p) (2 ^ p)).reverse h₀
  rw [show h.capacity - 2 ^ p = 2 ^ p by omega]
  generalize (List.range' (2 ^ p) (2 ^ p)).reverse.foldl fold h₀ = h₁ at hjoins hframe ⊢
  have hpower₁ : h₁.power = p := hframe.power.trans hpower₀
  have hcap₁ : h₁.capacity = 2 ^ p := hframe.capacity
  -- Giving up the upper half changes no bucket of the lower one.
  set h₂ : HashMap V := { h₁ with
    data := h₁.data.resize h₁.capacity []
    map := h₁.map.resize h₁.capacity 0 } with hh₂
  have hlive₂ : ∀ i < h₂.capacity, h₂.live i = h₁.live i := by
    intro i hi
    have hlt : i < h.capacity := by
      change i < h₁.capacity at hi
      omega
    refine live_resize rfl rfl rfl ?_ ?_
    · rw [hframe.map_size]
      exact hinv.map_size ▸ hlt
    · rw [hframe.data_size]
      exact hinv.data_size ▸ hlt
  refine same_of_mem hinv ?_ ?_ ?_ rfl rfl hframe.offset hframe.load
    (get_resize_le (hframe.marks hinv.marks)) (fun i hi => ?_) (fun i hi e => ?_)
  · have := hinv.power_lt
    change h₁.power < 31
    omega
  · exact hcap₁.trans (hpower₁ ▸ rfl)
  · exact hframe.mask.trans (hmask₀.trans (hpower₀.trans hpower₁.symm ▸ rfl))
  · rw [hlive₂ i hi]
    exact hjoins.nodup (hpow ▸ hinv.chained) (hcap₁ ▸ hi)
  · have hmem := hjoins.mem_iff (hcap₁ ▸ hi) e
    rw [hlive₂ i hi, hmem, hpow, hpower₀]
    change _ ↔ ∃ j < 2 ^ p * 2, e ∈ h.live j ∧ e.hash % 2 ^ h₁.power = i
    rw [hpower₁]
    rfl

end MyServer.HashMap
