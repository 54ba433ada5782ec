import MyServer.HashMap.Iterator
import MyServer.HashMap.Refinement
import MyServer.Lib.Safety

/-!
# Clearing, time and again

`clear` counts a generation up and touches no bucket. The counter has 32 bits,
and the clear that brings it back to `0` drops the buckets and makes no new
ones.
-/

namespace MyServer.HashMap

variable {V : Type}

structure Kept (s : HashMap V × Mapping V) : Prop where
  data_size : s.1.data.size = s.1.capacity
  map_size : s.1.map.size = s.1.capacity
  inside : ∀ key, hash key &&& s.1.mask < s.1.capacity
  begins : s.1.begin.isSome
  /-- Nothing from before the clear. -/
  seen : ∀ i < s.1.capacity, ∀ e ∈ s.1.live i, s.2.lookup e.key = some e.value

/-! ## What is live -/

theorem Inv.lookup_iff {h : HashMap V} (hinv : Inv h) (key : Str) (value : V) :
    h.lookup key = some value ↔ ∃ i < h.capacity, ∃ e ∈ h.live i, e.key = key ∧ e.value = value := by
  unfold lookup
  rw [Option.map_eq_some_iff]
  constructor
  · rintro ⟨e, he, rfl⟩
    obtain ⟨hmem, rfl⟩ := (hinv.chained.find_eq_some_iff _ e).mp he
    exact ⟨_, hinv.chained.bound e.key, e, hmem, rfl, rfl⟩
  · rintro ⟨i, hi, e, he, rfl, rfl⟩
    refine ⟨e, (hinv.chained.find_eq_some_iff _ e).mpr ⟨?_, rfl⟩, rfl⟩
    rwa [hinv.chained.home i hi e he]

theorem Refines.lookup_of_live {h : HashMap V} {m : Mapping V} (hr : Refines h m) {i : Nat}
    (hi : i < h.capacity) {e : Shkv V} (he : e ∈ h.live i) : m.lookup e.key = some e.value := by
  rw [← hr.lookup]
  exact (hr.inv.lookup_iff e.key e.value).mpr ⟨i, hi, e, he, rfl, rfl⟩

/-- A table that counts an entry has a live bucket. -/
theorem Refines.exists_live {h : HashMap V} {m : Mapping V} (hr : Refines h m) (hload : h.load ≠ 0) :
    ∃ i < h.capacity, ∃ e, e ∈ h.live i := by
  rw [hr.load, Finset.card_ne_zero] at hload
  obtain ⟨key, hkey⟩ := hload
  have hsome := Finmap.lookup_isSome.mpr (Finmap.mem_keys.mp hkey)
  obtain ⟨value, hvalue⟩ := Option.isSome_iff_exists.mp hsome
  rw [← hr.lookup] at hvalue
  obtain ⟨i, hi, e, he, -⟩ := (hr.inv.lookup_iff key value).mp hvalue
  exact ⟨i, hi, e, he⟩

theorem marked_of_mem_live {h : HashMap V} {i : Nat} {e : Shkv V} (he : e ∈ h.live i) :
    h.offset ≤ h.map.get i := by
  by_contra hlt
  rw [live_of_stale (by omega)] at he
  cases he

theorem firstMarked_spec {h : HashMap V} {i : Nat} (hi : i < h.capacity) (hmark : h.offset ≤ h.map.get i) :
    h.firstMarked < h.capacity ∧ h.offset ≤ h.map.get h.firstMarked ∧
      ∀ j < h.firstMarked, h.map.get j < h.offset := by
  unfold firstMarked
  cases hfind : (List.range h.capacity).find? fun i => h.offset ≤ h.map.get i with
  | none =>
    have hnone := List.find?_eq_none.mp hfind i (List.mem_range.mpr hi)
    simp [hmark] at hnone
  | some j =>
    obtain ⟨hj, hlt, hbefore⟩ := List.find?_range_eq_some.mp hfind
    refine ⟨?_, ?_, ?_⟩
    · simpa using hlt
    · simpa using hj
    · intro k hk
      simpa using hbefore k hk

theorem Refines.begins {h : HashMap V} {m : Mapping V} (hr : Refines h m) : h.begin.isSome := by
  have hinv := hr.inv
  unfold begin
  split_ifs with hload
  · obtain ⟨i, hi, e, he⟩ := hr.exists_live hload
    have hfirst := (firstMarked_spec hi (marked_of_mem_live he)).1
    dsimp only
    rw [if_pos ⟨hinv.map_size.ge, hinv.data_size ▸ hfirst⟩]
    rfl
  · rfl

theorem Refines.kept {h : HashMap V} {m : Mapping V} (hr : Refines h m) : Kept (h, m) where
  data_size := hr.inv.data_size
  map_size := hr.inv.map_size
  inside key := by
    rw [index_eq hr.inv.mask]
    exact hr.inv.chained.bound key
  begins := hr.begins
  seen i hi e he := hr.lookup_of_live hi he

/-! ## The counter -/

/-- The counter has not wrapped. -/
structure Counted (s : HashMap V × Mapping V) : Prop where
  refines : Refines s.1 s.2
  offset_lt : s.1.offset < 2 ^ 32

theorem counted_new {hashCapacity : Int} {factor : LoadFactor} {h : HashMap V}
    (hnew : new hashCapacity factor = some h) : Counted (h, (∅ : Mapping V)) := by
  obtain ⟨hr, hoff⟩ := new_refines hnew
  refine ⟨hr, ?_⟩
  change h.offset < 2 ^ 32
  rw [hoff]
  norm_num

/-- What is left once the counter has wrapped: a side table over no buckets. -/
structure Gone (h : HashMap V) : Prop where
  data_size : h.data.size = 0
  load : h.load = 0
  offset_lt : h.offset < 2 ^ 32
  stale : ∀ i, h.map.get i < h.offset

theorem Gone.live {h : HashMap V} (hg : Gone h) (i : Nat) : h.live i = [] :=
  live_of_stale (hg.stale i)

theorem Gone.lookup {h : HashMap V} (hg : Gone h) (key : Str) : h.lookup key = none := by
  rw [lookup_eq, hg.live]
  rfl

theorem Gone.clear {h : HashMap V} (hg : Gone h) : Gone h.clear := by
  have hoff := hg.offset_lt
  unfold HashMap.clear
  dsimp only
  split_ifs with hwrap
  · exact ⟨rfl, rfl, by norm_num, fun i => Nat.one_pos⟩
  · rw [Nat.mod_eq_of_lt (by omega)]
    exact ⟨hg.data_size, rfl, by change h.offset + 1 < _; omega, fun i => Nat.lt_succ_of_lt (hg.stale i)⟩

theorem clear_gone {h : HashMap V} (hwrap : h.offset + 1 = 2 ^ 32) : Gone h.clear := by
  unfold clear
  simp only [hwrap, Nat.mod_self, if_true]
  exact ⟨rfl, rfl, by norm_num, fun i => Nat.one_pos⟩

theorem clear_capacity (h : HashMap V) : h.clear.capacity = h.capacity := by
  unfold clear
  dsimp only
  split_ifs <;> rfl

theorem not_kept_clear {s : HashMap V × Mapping V} (hs : Counted s) (hwrap : s.1.offset + 1 = 2 ^ 32) :
    ¬ Kept (s.1.clear, ∅) := by
  intro hkept
  have hsize := hkept.data_size
  rw [(clear_gone hwrap).data_size, clear_capacity] at hsize
  exact absurd hsize hs.refines.inv.capacity_pos.ne

theorem Op.eq_clear {op : Op V} (h : op.isClear) : op = .clear := by
  cases op <;> first | rfl | cases h

/-! ## One operation -/

section Runs

variable [Zero V]

/-- **An operation that comes through** leaves a table of the next finite map, unless it is the clear at
which the counter wraps. -/
theorem Refines.step {h h' : HashMap V} {m : Mapping V} {op : Op V} {r : Result V} (hr : Refines h m)
    (hstep : h.step op = some (r, h')) (hoffset : op.isClear → h.offset + 1 < 2 ^ 32) :
    Refines h' (specStep m op).2 ∧ h'.offset = h.offset + if op.isClear then 1 else 0 := by
  cases op with
  | put key value =>
    obtain ⟨⟨v, h₂⟩, hput, heq⟩ := Option.map_eq_some_iff.mp hstep
    cases heq
    cases hold : m.lookup key with
    | some old =>
      obtain ⟨h₃, hput₃, hr₃, hoff⟩ := put_mapped hr hold value
      rw [hput₃] at hput
      cases hput
      exact ⟨hr₃, hoff⟩
    | none =>
      obtain ⟨h₁, hput₁, hr₁, hoff₁, -, -, -⟩ := put_new hr hold value
      rw [hput₁, Option.map_eq_some_iff] at hput
      obtain ⟨h₃, hgrow, heq⟩ := hput
      cases heq
      rcases grow_cases hr₁.inv with ⟨hnone, -⟩ | ⟨h₄, hgrow₄, hsame, -, -, -⟩
      · rw [hnone] at hgrow
        cases hgrow
      · rw [hgrow₄] at hgrow
        cases hgrow
        exact ⟨hsame.refines hr₁, hsame.offset.trans hoff₁⟩
  | get key =>
    obtain ⟨v, -, heq⟩ := Option.map_eq_some_iff.mp hstep
    cases heq
    exact ⟨hr, rfl⟩
  | remove key =>
    obtain ⟨h₁, hremove, hr₁, hoff⟩ := remove_refines hr key
    rw [HashMap.step, hremove] at hstep
    cases hstep
    exact ⟨hr₁, hoff⟩
  | clear =>
    cases hstep
    exact clear_refines hr (hoffset rfl)
  | size =>
    cases hstep
    exact ⟨hr, rfl⟩

/-! ## Runs -/

/-- The table, with what was put into it since it was last cleared. -/
def stepBoth (s : HashMap V × Mapping V) (op : Op V) : Option (HashMap V × Mapping V) :=
  (s.1.step op).map fun r => (r.2, (specStep s.2 op).2)

/-- The clear, if it is one, does not wrap the counter. -/
def Unwrapped (s : HashMap V × Mapping V) (op : Op V) : Prop :=
  op.isClear → s.1.offset + 1 < 2 ^ 32

theorem Counted.step {s s' : HashMap V × Mapping V} {op : Op V} (hs : Counted s) (hop : Unwrapped s op)
    (hstep : stepBoth s op = some s') : Counted s' := by
  obtain ⟨⟨r, h'⟩, hres, rfl⟩ := Option.map_eq_some_iff.mp hstep
  obtain ⟨hr, hoff⟩ := hs.refines.step hres hop
  refine ⟨hr, ?_⟩
  change h'.offset < 2 ^ 32
  rw [hoff]
  by_cases hclear : op.isClear
  · rw [if_pos hclear]
    exact hop hclear
  · rw [if_neg hclear]
    exact hs.offset_lt

theorem unwrapped_of_kept {s : HashMap V × Mapping V} {op : Op V} (hs : Counted s)
    (h : ∀ s', stepBoth s op = some s' → Kept s') : Unwrapped s op := by
  intro hclear
  obtain rfl := Op.eq_clear hclear
  by_contra hwrap
  have hoff := hs.offset_lt
  exact not_kept_clear hs (by omega) (h _ rfl)

theorem Gone.put_eq_none {h : HashMap V} (hg : Gone h) (key : Str) (value : V) : h.put key value = none := by
  unfold put
  apply Option.bind_eq_none_iff.mpr
  intro t _
  dsimp only
  have hstale := hg.stale t
  rw [if_neg (by omega), if_neg (by rw [hg.data_size]; omega)]

/-- Without its buckets the table answers as an empty one, and cannot be filled again. -/
theorem Gone.step {h h' : HashMap V} {op : Op V} {r : Result V} (hg : Gone h)
    (hstep : h.step op = some (r, h')) : Gone h' ∧ (op.isClear = false → h' = h) := by
  cases op with
  | put key value =>
    rw [HashMap.step, hg.put_eq_none] at hstep
    cases hstep
  | get key =>
    obtain ⟨v, -, heq⟩ := Option.map_eq_some_iff.mp hstep
    cases heq
    exact ⟨hg, fun _ => rfl⟩
  | remove key =>
    obtain ⟨⟨v, h₂⟩, hremove, heq⟩ := Option.map_eq_some_iff.mp hstep
    cases heq
    obtain ⟨t, -, hremove⟩ := Option.map_eq_some_iff.mp hremove
    rw [hg.live] at hremove
    cases hremove
    exact ⟨hg, fun _ => rfl⟩
  | clear =>
    cases hstep
    exact ⟨hg.clear, by simp [Op.isClear]⟩
  | size =>
    cases hstep
    exact ⟨hg, fun _ => rfl⟩

/-- What holds of every table: it is a finite map, or its buckets are gone. -/
def Sound (s : HashMap V × Mapping V) : Prop := Counted s ∨ Gone s.1

theorem Sound.step {s s' : HashMap V × Mapping V} {op : Op V} (hs : Sound s)
    (hstep : stepBoth s op = some s') : Sound s' := by
  rcases hs with hs | hs
  · by_cases hop : Unwrapped s op
    · exact Or.inl (hs.step hop hstep)
    · unfold Unwrapped at hop
      push Not at hop
      obtain ⟨hclear, hwrap⟩ := hop
      obtain rfl := Op.eq_clear hclear
      cases hstep
      have hoff := hs.offset_lt
      exact Or.inr (clear_gone (by omega))
  · obtain ⟨⟨r, h'⟩, hres, rfl⟩ := Option.map_eq_some_iff.mp hstep
    exact Or.inr (hs.step hres).1

theorem unwrapped_of_throughout {s : HashMap V × Mapping V} (hs : Counted s) {ops : List (Op V)}
    (h : Safety.Throughout stepBoth Kept ops s) : Safety.Along stepBoth Unwrapped ops s :=
  Safety.along_of_throughout (fun _ _ _ hs hop hstep => hs.step hop hstep)
    (fun _ _ hs => unwrapped_of_kept hs) hs h

/-- **Until the counter wraps** the vectors keep their size, and no entry comes back. -/
theorem cleared_iff {hashCapacity : Int} {factor : LoadFactor} {h : HashMap V}
    (hnew : new hashCapacity factor = some h) (ops : List (Op V)) :
    Safety.Throughout stepBoth Kept ops (h, ∅) ↔ Safety.Along stepBoth Unwrapped ops (h, ∅) := by
  have hstart := counted_new hnew
  constructor
  · exact unwrapped_of_throughout hstart
  · exact Safety.throughout_of_invariant (fun _ _ _ hs hop hstep => hs.step hop hstep)
      (fun _ hs => hs.refines.kept) hstart

theorem cleared_three : ∃ h : HashMap Nat, new 0 .default = some h ∧
    Safety.Throughout stepBoth Kept [.put (ascii "a") 1, .clear, .put (ascii "b") 2] (h, ∅) := by
  refine ⟨_, rfl, (@cleared_iff Nat _ 0 .default _ rfl _).mpr ?_⟩
  exact ⟨nofun, fun _ h₁ => ⟨fun _ => by cases h₁; decide, fun _ _ => ⟨nofun, fun _ _ => trivial⟩⟩⟩

theorem run_clears {n : Nat} {s : HashMap V × Mapping V} (hn : s.1.offset + n < 2 ^ 32) :
    ∃ s', Safety.run stepBoth (List.replicate n .clear) s = some s' ∧ s'.1.offset = s.1.offset + n := by
  induction n generalizing s with
  | zero => exact ⟨s, rfl, rfl⟩
  | succ n ih =>
    have hoff : s.1.clear.offset = s.1.offset + 1 := by
      unfold clear
      rw [Nat.mod_eq_of_lt (by omega)]
      rfl
    obtain ⟨s', hrun, hs'⟩ := @ih (s.1.clear, ∅) (by change s.1.clear.offset + n < _; omega)
    refine ⟨s', hrun, ?_⟩
    rw [hs']
    change s.1.clear.offset + n = _
    omega

/-- `2 ^ 32 - 1` clears of a new table. -/
theorem not_cleared : ∃ h : HashMap Nat, new 0 .default = some h ∧
    ¬ Safety.Throughout stepBoth Kept (List.replicate (2 ^ 32 - 1) .clear) (h, ∅) := by
  refine ⟨_, rfl, fun hkept => ?_⟩
  set s : HashMap Nat × Mapping Nat := (_, ∅) with hs
  have hoff : s.1.offset = 1 := rfl
  have hcounted : Counted s := @counted_new Nat 0 .default _ rfl
  have halong := unwrapped_of_throughout hcounted hkept
  rw [show 2 ^ 32 - 1 = 2 ^ 32 - 2 + 1 by norm_num, List.replicate_succ'] at halong
  obtain ⟨s', hrun, hs'⟩ := @run_clears Nat _ (2 ^ 32 - 2) s (by rw [hoff]; norm_num)
  have hlast := halong.last hrun rfl
  omega

end Runs

end MyServer.HashMap
