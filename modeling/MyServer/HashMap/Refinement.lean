import Mathlib.Data.Finmap
import MyServer.HashMap.Invariant

/-!
# The hash map is a finite map

The specification is a `Finmap`. Each operation on a table that holds a finite
map answers as the map does and leaves a table that holds the next one.
-/

namespace MyServer.HashMap

variable {V : Type}

/-! ## The finite map -/

abbrev Mapping (V : Type) := Finmap fun _ : Str => V

section Spec

variable [Zero V]

/-- A missing value is answered by `0`. -/
def specStep (m : Mapping V) : Op V → Result V × Mapping V
  | .put key value => (.value ((m.lookup key).getD 0), m.insert key value)
  | .get key => (.value ((m.lookup key).getD 0), m)
  | .remove key => (.value ((m.lookup key).getD 0), m.erase key)
  | .clear => (.done, ∅)
  | .size => (.count m.keys.card, m)

def specRun (m : Mapping V) : List (Op V) → List (Result V)
  | [] => []
  | op :: ops => (specStep m op).1 :: specRun (specStep m op).2 ops

def mappingAfter (m : Mapping V) (ops : List (Op V)) : Mapping V :=
  ops.foldl (fun m op => (specStep m op).2) m

end Spec

theorem card_insert (m : Mapping V) (key : Str) (value : V) :
    (m.insert key value).keys.card =
      if (m.lookup key).isSome then m.keys.card else m.keys.card + 1 := by
  have hkeys : (m.insert key value).keys = insert key m.keys := by
    ext k
    rw [Finmap.mem_keys, Finmap.mem_insert, Finset.mem_insert, Finmap.mem_keys]
  rw [hkeys]
  split_ifs with h
  · rw [Finset.insert_eq_of_mem (Finmap.mem_keys.mpr (Finmap.lookup_isSome.mp h))]
  · exact Finset.card_insert_of_notMem fun hmem =>
      h (Finmap.lookup_isSome.mpr (Finmap.mem_keys.mp hmem))

theorem lookup_insert_eq (m : Mapping V) (key k : Str) (value : V) :
    (m.insert key value).lookup k = if k = key then some value else m.lookup k := by
  split_ifs with h
  · rw [h, Finmap.lookup_insert]
  · exact Finmap.lookup_insert_of_ne m h

theorem lookup_erase_eq (m : Mapping V) (key k : Str) :
    (m.erase key).lookup k = if k = key then none else m.lookup k := by
  split_ifs with h
  · rw [h, Finmap.lookup_erase]
  · exact Finmap.lookup_erase_ne h

/-! ## Refinement -/

structure Refines (h : HashMap V) (m : Mapping V) : Prop where
  inv : Inv h
  load : h.load = m.keys.card
  lookup : ∀ key, h.lookup key = m.lookup key

theorem Same.refines {h h' : HashMap V} {m : Mapping V} (hs : Same h h') (hr : Refines h m) :
    Refines h' m where
  inv := hs.inv
  load := hs.load.trans hr.load
  lookup key := (hs.lookup key).trans (hr.lookup key)

theorem slot_eq {h : HashMap V} (hinv : Inv h) (key : Str) :
    h.slot key = some (place h.power key) := by
  have hlt : place h.power key < h.capacity := hinv.chained.bound key
  unfold slot
  dsimp only
  rw [index_eq hinv.mask, hinv.data_size, hinv.map_size]
  exact if_pos ⟨hlt, fun _ => hlt⟩

theorem lookup_eq (h : HashMap V) (key : Str) :
    h.lookup key =
      ((h.live (place h.power key)).find? fun e => e.key = key).map Shkv.value := rfl

theorem marked_of_find {h : HashMap V} {t : Nat} {key : Str} {e : Shkv V}
    (he : ((h.live t).find? fun e => e.key = key) = some e) : h.offset ≤ h.map.get t := by
  by_contra hlt
  rw [live_of_stale (by omega)] at he
  cases he

/-- **One bucket is exchanged.** -/
theorem Refines.exchange {h h' : HashMap V} {m m' : Mapping V} (hr : Refines h m)
    (hframe : Frame { h with load := h'.load } h') {t : Nat} {l : List (Shkv V)}
    (hlive : h'.live = Function.update h.live t l) (hl : ∀ e ∈ l, e.hash = hash e.key)
    (hchained : Chain.Chained Shkv.key (place h.power) h.capacity (Function.update h.live t l))
    (hload : h'.load = m'.keys.card)
    (hfind : ∀ key, (Chain.find Shkv.key (place h.power) (Function.update h.live t l) key).map
      Shkv.value = m'.lookup key) : Refines h' m' := by
  have hinv := hr.inv
  have hpower : h'.power = h.power := hframe.power
  have hcapacity : h'.capacity = h.capacity := hframe.capacity
  refine ⟨⟨?_, ?_, ?_, ?_, ?_, ?_, hframe.marks hinv.marks, ?_, ?_⟩, hload, ?_⟩
  · rw [hpower]
    exact hinv.power_lt
  · rw [hcapacity, hpower]
    exact hinv.capacity
  · rw [hframe.mask, hpower]
    exact hinv.mask
  · rw [hframe.data_size, hcapacity]
    exact hinv.data_size
  · rw [hframe.map_size, hcapacity]
    exact hinv.map_size
  · rw [hframe.offset]
    exact hinv.offset_pos
  · rw [hlive, hcapacity]
    intro i hi e he
    by_cases hit : i = t
    · rw [hit, Function.update_self] at he
      exact hl e he
    · rw [Function.update_of_ne hit] at he
      exact hinv.hashes i hi e he
  · rw [hlive, hcapacity, hpower]
    exact hchained
  · intro key
    unfold HashMap.lookup
    rw [hpower, hlive]
    exact hfind key

theorem Inv.hashes_place {h : HashMap V} (hinv : Inv h) (key : Str) :
    ∀ e ∈ h.live (place h.power key), e.hash = hash e.key :=
  hinv.hashes _ (hinv.chained.bound key)

/-- Writing a bucket that is marked, or is marked with it. -/
theorem live_write {h h' : HashMap V} {t : Nat} {l : List (Shkv V)} (ho : h'.offset = h.offset)
    (hmark : l ≠ [] → h.offset ≤ h'.map.get t) (hother : ∀ j ≠ t, h'.map.get j = h.map.get j)
    (hdata : h'.data.get = Function.update h.data.get t l) :
    h'.live = Function.update h.live t l := by
  funext j
  by_cases hj : j = t
  · subst hj
    rw [Function.update_self]
    by_cases hnil : l = []
    · rw [hnil]
      exact live_of_empty (by rw [hdata, Function.update_self, hnil])
    · rw [live_of_marked (by rw [ho]; exact hmark hnil), hdata, Function.update_self]
  · rw [Function.update_of_ne hj]
    exact live_congr ho (hother j hj) (by rw [hdata, Function.update_of_ne hj])

/-! ## `put` -/

/-- The table may be full, but then it holds `2 ^ 30` keys. -/
theorem grow_cases {h : HashMap V} (hinv : Inv h) :
    h.grow = none ∧ 2 ^ 30 ≤ h.load ∨
      ∃ h', h.grow = some h' ∧ Same h h' ∧ h'.factor = h.factor ∧
        (h.factor.high (h.load / h.capacity) = true → h'.capacity = h.capacity * 2) ∧
        (h.factor.high (h.load / h.capacity) = false → h'.capacity = h.capacity) := by
  unfold grow
  by_cases hhigh : h.factor.high (h.load / h.capacity) = true
  · rw [if_pos hhigh]
    by_cases hp : h.power + 1 < 31
    · obtain ⟨h', hgrow, hsame, hcap, hfactor⟩ := increaseSize_same hinv hp
      refine Or.inr ⟨h', hgrow, hsame, hfactor, fun _ => hcap, fun hlow => ?_⟩
      rw [hhigh] at hlow
      cases hlow
    · refine Or.inl ⟨?_, ?_⟩
      · unfold increaseSize
        exact if_pos (by omega)
      · -- An integer quotient above the factor is not zero.
        have hpower : h.power = 30 := by
          have := hinv.power_lt
          omega
        have hcap := hinv.capacity
        rw [hpower] at hcap
        by_contra hlt
        rw [Nat.div_eq_of_lt (by omega), h.factor.high_zero] at hhigh
        cases hhigh
  · rw [if_neg hhigh]
    refine Or.inr ⟨h, rfl, ⟨hinv, rfl, rfl, fun _ => rfl⟩, rfl, fun h1 => absurd h1 hhigh,
      fun _ => rfl⟩

theorem put_mapped [Zero V] {h : HashMap V} {m : Mapping V} (hr : Refines h m) {key : Str} {old : V}
    (hold : m.lookup key = some old) (value : V) :
    ∃ h', h.put key value = some (old, h') ∧ Refines h' (m.insert key value) ∧
      h'.offset = h.offset := by
  have hinv := hr.inv
  have hfound := hr.lookup key
  rw [hold, lookup_eq, Option.map_eq_some_iff] at hfound
  obtain ⟨e, he, rfl⟩ := hfound
  unfold put
  rw [slot_eq hinv, Option.bind_some]
  dsimp only
  have hmark := marked_of_find he
  rw [if_pos hmark, ← live_of_marked hmark, he]
  refine ⟨_, rfl, ?_, rfl⟩
  obtain ⟨hchained, hfind⟩ :=
    hinv.chained.adjust key (f := fun e => { e with value }) (fun e => rfl)
  refine hr.exchange ⟨rfl, rfl, rfl, rfl, rfl, rfl, rfl, rfl, id⟩ ?_ ?_ hchained ?_ ?_
  · exact live_write rfl (fun _ => hmark) (fun _ _ => rfl) rfl
  · intro d hd
    rcases Chain.mem_adjustFirst hd with hd | ⟨c, hc, rfl⟩
    · exact hinv.hashes_place key d hd
    · exact hinv.hashes_place key c hc
  · rw [card_insert, hold]
    exact hr.load
  · intro k
    rw [hfind, lookup_insert_eq]
    split_ifs with hk
    · change ((((h.live (place h.power key)).find? fun e => e.key = key).map _).map _) = _
      rw [he]
      rfl
    · exact hr.lookup k

theorem put_new [Zero V] {h : HashMap V} {m : Mapping V} (hr : Refines h m) {key : Str}
    (hnew : m.lookup key = none) (value : V) :
    ∃ h₁ : HashMap V, h.put key value = h₁.grow.map (fun h => (0, h)) ∧
      Refines h₁ (m.insert key value) ∧ h₁.offset = h.offset ∧ h₁.capacity = h.capacity ∧
      h₁.factor = h.factor ∧ h₁.load = h.load + 1 := by
  have hinv := hr.inv
  have hnone := hr.lookup key
  rw [hnew] at hnone
  have hfree : Chain.find Shkv.key (place h.power) h.live key = none := by
    simpa [lookup] using hnone
  set e : Shkv V := { hash := hash key, key, value } with he
  obtain ⟨hchained, hfind⟩ := hinv.chained.push (e := e) hfree
  -- Both branches put the entry in front of what is live.
  have hrefines : ∀ h₁ : HashMap V, Frame { h with load := h₁.load } h₁ →
      h₁.live = Function.update h.live (place h.power key) (e :: h.live (place h.power key)) →
      h₁.load = h.load + 1 → Refines h₁ (m.insert key value) := by
    intro h₁ hframe hlive hload
    refine hr.exchange hframe hlive ?_ hchained ?_ ?_
    · intro d hd
      rcases List.mem_cons.mp hd with rfl | hd
      · rfl
      · exact hinv.hashes_place key d hd
    · rw [card_insert, hnew, hload, hr.load]
      rfl
    · intro k
      rw [hfind, lookup_insert_eq]
      split_ifs
      · rfl
      · exact hr.lookup k
  have hdata : place h.power key < h.data.size := by
    rw [hinv.data_size]
    exact hinv.chained.bound key
  unfold put
  rw [slot_eq hinv, Option.bind_some]
  dsimp only
  rw [if_pos hdata]
  split_ifs with hmark
  · rw [← live_of_marked hmark]
    have hfind? : (h.live (place h.power key)).find? (fun e => e.key = key) = none := hfree
    rw [hfind?]
    refine ⟨_, rfl, hrefines _ ⟨rfl, rfl, rfl, rfl, rfl, rfl, rfl, rfl, id⟩ ?_ rfl, rfl, rfl, rfl,
      rfl⟩
    exact live_write rfl (fun _ => hmark) (fun _ _ => rfl) rfl
  · refine ⟨_, rfl, hrefines _ ⟨rfl, rfl, rfl, rfl, rfl, rfl, rfl, rfl, ?_⟩ ?_ rfl, rfl, rfl, rfl,
      rfl⟩
    · exact fun hm => update_le hm le_rfl
    · rw [live_of_stale (t := place h.power key) (by omega)]
      refine live_write rfl (fun _ => ?_) (fun j hj => ?_) rfl
      · simp
      · exact Function.update_of_ne hj _ _

/-- **`put`**, unless the table cannot hold another key. -/
theorem put_refines [Zero V] {h : HashMap V} {m : Mapping V} (hr : Refines h m) (key : Str)
    (value : V) (hroom : (m.insert key value).keys.card < 2 ^ 30) :
    ∃ h', h.put key value = some ((m.lookup key).getD 0, h') ∧ Refines h' (m.insert key value) ∧
      h'.offset = h.offset := by
  cases hold : m.lookup key with
  | some old => exact put_mapped hr hold value
  | none =>
    obtain ⟨h₁, hput, hr₁, hoffset, -, -, -⟩ := put_new hr hold value
    rcases grow_cases hr₁.inv with ⟨-, hfull⟩ | ⟨h', hgrow, hsame, -, -, -⟩
    · have := hr₁.load
      omega
    · refine ⟨h', ?_, hsame.refines hr₁, hsame.offset.trans hoffset⟩
      rw [hput, hgrow]
      rfl

/-! ## The other operations -/

theorem get_refines [Zero V] {h : HashMap V} {m : Mapping V} (hr : Refines h m) (key : Str) :
    h.get key = some ((m.lookup key).getD 0) := by
  unfold get
  rw [slot_eq hr.inv, Option.map_some, ← hr.lookup key, lookup_eq]
  cases (h.live (place h.power key)).find? fun e => e.key = key with
  | none => rfl
  | some e => rfl

theorem shrink_same {h : HashMap V} (hinv : Inv h) : Same h h.shrink := by
  unfold shrink
  split_ifs with hlow
  · obtain ⟨p, hp⟩ : ∃ p, h.power = p + 1 := by
      apply Nat.exists_eq_succ_of_ne_zero
      intro hzero
      have hcap := hinv.capacity
      rw [hzero] at hcap
      omega
    exact decreaseSize_same hinv hp
  · exact ⟨hinv, rfl, rfl, fun _ => rfl⟩

/-- The bucket that a removal leaves, with its mark gone if it is empty. -/
theorem removed_refines {h : HashMap V} {m : Mapping V} (hr : Refines h m) {key : Str}
    (hmark : h.offset ≤ h.map.get (place h.power key)) (hmem : key ∈ m.keys) :
    Refines { h with
      load := h.load - 1
      data := h.data.set (place h.power key)
        ((h.live (place h.power key)).eraseP fun e => e.key = key)
      map := if (h.live (place h.power key)).eraseP (fun e => e.key = key) = [] then
          h.map.set (place h.power key) 0
        else h.map } (m.erase key) := by
  have hinv := hr.inv
  obtain ⟨hchained, hfind⟩ := hinv.chained.erase key
  generalize hl : (h.live (place h.power key)).eraseP (fun e => e.key = key) = l at hchained hfind ⊢
  refine hr.exchange ⟨rfl, ?_, rfl, rfl, rfl, rfl, rfl, rfl, fun hm => ?_⟩ ?_ ?_ hchained ?_ ?_
  · dsimp only
    split_ifs <;> rfl
  · dsimp only
    split_ifs
    · exact update_le hm (Nat.zero_le _)
    · exact hm
  · refine live_write rfl (fun hne => ?_) (fun j hj => ?_) rfl
    · dsimp only
      rw [if_neg hne]
      exact hmark
    · dsimp only
      split_ifs
      · exact Function.update_of_ne hj _ _
      · rfl
  · intro d hd
    rw [← hl] at hd
    exact hinv.hashes_place key d (List.mem_of_mem_eraseP hd)
  · rw [Finmap.keys_erase, Finset.card_erase_of_mem hmem, ← hr.load]
  · intro k
    rw [hfind, lookup_erase_eq]
    split_ifs
    · rfl
    · exact hr.lookup k

theorem remove_missing [Zero V] {h : HashMap V} {m : Mapping V} (hr : Refines h m) {key : Str}
    (hnew : m.lookup key = none) : h.remove key = some (0, h) := by
  have hfound := hr.lookup key
  rw [hnew, lookup_eq, Option.map_eq_none_iff] at hfound
  unfold remove
  rw [slot_eq hr.inv, Option.map_some, hfound]

theorem remove_mapped [Zero V] {h : HashMap V} {m : Mapping V} (hr : Refines h m) {key : Str} {old : V}
    (hold : m.lookup key = some old) :
    ∃ h₁ : HashMap V, h.remove key = some (old, h₁.shrink) ∧ Refines h₁ (m.erase key) ∧
      h₁.offset = h.offset ∧ h₁.capacity = h.capacity ∧ h₁.factor = h.factor ∧ h₁.load = h.load - 1 := by
  have hfound := hr.lookup key
  rw [hold, lookup_eq, Option.map_eq_some_iff] at hfound
  obtain ⟨e, he, rfl⟩ := hfound
  have hmark := marked_of_find he
  have hmem : key ∈ m.keys := by
    rw [Finmap.mem_keys, ← Finmap.lookup_isSome, hold]
    rfl
  unfold remove
  rw [slot_eq hr.inv, Option.map_some, he]
  dsimp only
  rw [← live_of_marked hmark]
  exact ⟨_, rfl, removed_refines hr hmark hmem, rfl, rfl, rfl, rfl⟩

theorem remove_refines [Zero V] {h : HashMap V} {m : Mapping V} (hr : Refines h m) (key : Str) :
    ∃ h', h.remove key = some ((m.lookup key).getD 0, h') ∧ Refines h' (m.erase key) ∧
      h'.offset = h.offset := by
  cases hold : m.lookup key with
  | none =>
    have hmem : key ∉ m := Finmap.lookup_eq_none.mp hold
    refine ⟨h, remove_missing hr hold, ⟨hr.inv, ?_, fun k => ?_⟩, rfl⟩
    · rw [Finmap.keys_erase, Finset.erase_eq_of_notMem (mt Finmap.mem_keys.mp hmem), hr.load]
    · rw [hr.lookup, lookup_erase_eq]
      split_ifs with hk
      · rw [hk]
        exact hold
      · rfl
  | some old =>
    obtain ⟨h₁, hremove, hr₁, hoffset, -, -, -⟩ := remove_mapped hr hold
    have hsame := shrink_same hr₁.inv
    exact ⟨_, hremove, hsame.refines hr₁, hsame.offset.trans hoffset⟩

theorem clear_refines {h : HashMap V} {m : Mapping V} (hr : Refines h m)
    (hoffset : h.offset + 1 < 2 ^ 32) :
    Refines h.clear ∅ ∧ h.clear.offset = h.offset + 1 := by
  have hinv := hr.inv
  have hmod : (h.offset + 1) % 2 ^ 32 = h.offset + 1 := Nat.mod_eq_of_lt hoffset
  have hclear : h.clear = { h with load := 0, offset := h.offset + 1 } := by
    unfold clear
    dsimp only
    rw [hmod, if_neg (Nat.succ_ne_zero _)]
  have hlive : h.clear.live = fun _ => [] := by
    funext i
    apply live_of_stale
    rw [hclear]
    exact Nat.lt_succ_of_le (hinv.marks i)
  rw [hclear] at hlive ⊢
  refine ⟨⟨⟨hinv.power_lt, hinv.capacity, hinv.mask, hinv.data_size, hinv.map_size,
    Nat.succ_pos _, fun i => ?_, ?_, ?_⟩, ?_, ?_⟩, rfl⟩
  · exact Nat.le_succ_of_le (hinv.marks i)
  · rw [hlive]
    intro i _ e he
    cases he
  · rw [hlive]
    exact ⟨hinv.chained.bound, fun i _ e he => (by cases he), fun i _ => List.nodup_nil⟩
  · rfl
  · intro key
    rw [lookup_eq, hlive, Finmap.lookup_empty]
    rfl

theorem new_refines {hashCapacity : Int} {factor : LoadFactor} {h : HashMap V}
    (hnew : new hashCapacity factor = some h) : Refines h ∅ ∧ h.offset = 1 := by
  unfold new at hnew
  dsimp only at hnew
  split_ifs at hnew with hp
  obtain rfl := Option.some.inj hnew
  refine ⟨⟨⟨not_le.mp hp, rfl, maskOf_eq (not_le.mp hp), rfl, rfl, Nat.one_pos, fun i => Nat.zero_le _, ?_,
    ?_⟩, rfl, fun key => ?_⟩, rfl⟩
  · intro i _ e he
    cases he
  · exact ⟨fun key => place_lt _ key, fun i _ e he => (by cases he), fun i _ => List.nodup_nil⟩
  · rw [Finmap.lookup_empty]
    rfl

/-! ## Runs -/

def Op.isClear : Op V → Bool
  | .clear => true
  | _ => false

section Runs

variable [Zero V]

/-- **One operation** answers as the finite map and leaves the table of the next one. -/
theorem step_refines {h : HashMap V} {m : Mapping V} (hr : Refines h m) (op : Op V)
    (hoffset : h.offset + (if op.isClear then 1 else 0) < 2 ^ 32)
    (hroom : (specStep m op).2.keys.card < 2 ^ 30) :
    ∃ h', h.step op = some ((specStep m op).1, h') ∧ Refines h' (specStep m op).2 ∧
      h'.offset = h.offset + if op.isClear then 1 else 0 := by
  cases op with
  | put key value =>
    obtain ⟨h', hput, hr', ho⟩ := put_refines hr key value hroom
    refine ⟨h', ?_, hr', ho⟩
    rw [step, hput]
    rfl
  | get key =>
    refine ⟨h, ?_, hr, rfl⟩
    rw [step, get_refines hr key]
    rfl
  | remove key =>
    obtain ⟨h', hremove, hr', ho⟩ := remove_refines hr key
    refine ⟨h', ?_, hr', ho⟩
    rw [step, hremove]
    rfl
  | clear =>
    obtain ⟨hr', ho⟩ := clear_refines hr hoffset
    exact ⟨h.clear, rfl, hr', ho⟩
  | size =>
    refine ⟨h, ?_, hr, rfl⟩
    rw [step, size, hr.load]
    rfl

theorem run_of_refines {h : HashMap V} {m : Mapping V} (hr : Refines h m) (ops : List (Op V))
    (hoffset : h.offset + ops.countP Op.isClear < 2 ^ 32)
    (hroom : ∀ n, (mappingAfter m (ops.take n)).keys.card < 2 ^ 30) :
    h.run ops = some (specRun m ops) := by
  induction ops generalizing h m with
  | nil => rfl
  | cons op ops ih =>
    rw [List.countP_cons] at hoffset
    obtain ⟨h', hstep, hr', ho⟩ := step_refines hr op (by omega) (hroom 1)
    have hrest := ih hr' (by omega) fun n => hroom (n + 1)
    rw [run, hstep, Option.bind_eq_bind, Option.bind_some]
    dsimp only
    rw [hrest]
    rfl

theorem card_mappingAfter_le (m : Mapping V) (ops : List (Op V)) :
    (mappingAfter m ops).keys.card ≤ m.keys.card + ops.length := by
  induction ops generalizing m with
  | nil => exact le_rfl
  | cons op ops ih =>
    have hstep : (specStep m op).2.keys.card ≤ m.keys.card + 1 := by
      cases op with
      | put key value =>
        change (m.insert key value).keys.card ≤ _
        rw [card_insert]
        split_ifs <;> omega
      | remove key =>
        change (m.erase key).keys.card ≤ _
        rw [Finmap.keys_erase]
        exact (Finset.card_erase_le).trans (Nat.le_succ _)
      | clear => exact Nat.zero_le _
      | get key => exact Nat.le_succ _
      | size => exact Nat.le_succ _
    have hrest := ih (specStep m op).2
    rw [List.length_cons]
    change (mappingAfter (specStep m op).2 ops).keys.card ≤ _
    omega

/-- **The hash map is a finite map**, as long as fewer than `2 ^ 30` keys are mapped at a time and
`offset` does not wrap. -/
theorem run_eq_specRun {hashCapacity : Int} {factor : LoadFactor} {h : HashMap V}
    (hnew : new hashCapacity factor = some h) (ops : List (Op V))
    (hclears : ops.countP Op.isClear < 2 ^ 32 - 1)
    (hroom : ∀ n, (mappingAfter ∅ (ops.take n)).keys.card < 2 ^ 30) :
    h.run ops = some (specRun ∅ ops) := by
  obtain ⟨hr, ho⟩ := new_refines hnew
  exact run_of_refines hr ops (by omega) hroom

theorem run_eq_specRun_six : ∃ h : HashMap Nat, new 0 .default = some h ∧
    h.run [.put (ascii "a") 1, .put (ascii "a") 2, .get (ascii "a"), .remove (ascii "a"), .clear,
      .size] = some [.value 0, .value 1, .value 2, .value 2, .done, .count 0] := by
  refine ⟨_, rfl, (@run_eq_specRun Nat _ 0 .default _ rfl _ (by decide) fun n => ?_).trans
    (by decide)⟩
  refine lt_of_le_of_lt (card_mappingAfter_le _ _) ?_
  rw [Finmap.keys_empty, Finset.card_empty, Nat.zero_add]
  exact lt_of_le_of_lt (List.length_take_le' n _) (by decide)

/-! ## Where the table ends -/

/-- Under the usual load factors a run that puts new keys ends before the key `2 ^ 30`. -/
theorem run_puts_lt {keys : List Str} (hnodup : keys.Nodup) {h : HashMap V} {m : Mapping V}
    (hr : Refines h m) (hfresh : ∀ key ∈ keys, m.lookup key = none)
    (hfactor : h.factor = .default) (hload : h.load < h.capacity) (value : V)
    (hrun : (h.run (keys.map fun key => .put key value)).isSome) :
    h.load + keys.length < 2 ^ 30 := by
  induction keys generalizing h m with
  | nil =>
    have hle : 2 ^ h.power ≤ 2 ^ 30 := by
      have := hr.inv.power_lt
      exact Nat.pow_le_pow_right (by omega) (by omega)
    have hcap := hr.inv.capacity
    rw [List.length_nil]
    omega
  | cons key keys ih =>
    rw [List.nodup_cons] at hnodup
    obtain ⟨h₁, hput, hr₁, -, hcap₁, hfactor₁, hload₁⟩ :=
      put_new hr (hfresh key List.mem_cons_self) value
    rw [List.map_cons, run, step, hput] at hrun
    rcases grow_cases hr₁.inv with ⟨hgrow, -⟩ | ⟨h', hgrow, hsame, hfactor', hhigh, hlow⟩
    · rw [hgrow] at hrun
      cases hrun
    rw [hgrow] at hrun
    have hload' : h'.load = h.load + 1 := hsame.load.trans hload₁
    have hroom : h'.load < h'.capacity := by
      rw [hload₁, hcap₁, hfactor₁, hfactor] at hhigh hlow
      by_cases hq : (h.load + 1) / h.capacity = 0
      · have hlt := (Nat.div_eq_zero_iff).mp hq
        have := hlow (by simp [LoadFactor.default, hq])
        omega
      · have := hhigh (by simpa [LoadFactor.default] using Nat.one_le_iff_ne_zero.mpr hq)
        omega
    have hrest := ih hnodup.2 (hsame.refines hr₁) (fun k hk => ?_)
      ((hfactor'.trans hfactor₁).trans hfactor) hroom ?_
    · rw [List.length_cons]
      omega
    · have hne : k ≠ key := fun heq => hnodup.1 (heq ▸ hk)
      rw [lookup_insert_eq, if_neg hne]
      exact hfresh k (List.mem_cons_of_mem key hk)
    · cases hrest : h'.run (keys.map fun key => .put key value) with
      | none => simp [hrest] at hrun
      | some rs => rfl

end Runs

def keyOf (n : Nat) : Str :=
  [UInt8.ofNat n, UInt8.ofNat (n / 256), UInt8.ofNat (n / 65536), UInt8.ofNat (n / 16777216)]

theorem keyOf_inj {a b : Nat} (ha : a < 2 ^ 32) (hb : b < 2 ^ 32) (h : keyOf a = keyOf b) :
    a = b := by
  have hbyte : ∀ x y : Nat, UInt8.ofNat x = UInt8.ofNat y → x % 256 = y % 256 := by
    intro x y hxy
    simpa using congrArg UInt8.toNat hxy
  simp only [keyOf, List.cons.injEq, and_true] at h
  obtain ⟨h0, h1, h2, h3⟩ := h
  have h0 := hbyte _ _ h0
  have h1 := hbyte _ _ h1
  have h2 := hbyte _ _ h2
  have h3 := hbyte _ _ h3
  omega

def manyPuts (n : Nat) : List (Op Nat) := ((List.range n).map keyOf).map fun key => .put key 1

/-- The key number `2 ^ 30` makes `put` throw, on the way to `2 ^ 31` buckets. -/
theorem run_manyPuts_throws : ∃ h : HashMap Nat, new 0 .default = some h ∧
    (manyPuts (2 ^ 30)).countP Op.isClear < 2 ^ 32 - 1 ∧ h.run (manyPuts (2 ^ 30)) = none := by
  refine ⟨_, rfl, ?_, ?_⟩
  · unfold manyPuts
    rw [List.countP_eq_zero.mpr]
    · omega
    · intro op hop
      obtain ⟨key, _, rfl⟩ := List.mem_map.mp hop
      exact Bool.false_ne_true
  · by_contra hrun
    obtain ⟨hr, -⟩ := @new_refines Nat 0 .default _ rfl
    have hnodup : ((List.range (2 ^ 30)).map keyOf).Nodup := by
      refine List.nodup_range.map_on fun a ha b hb => keyOf_inj ?_ ?_
      · exact (List.mem_range.mp ha).trans (by norm_num)
      · exact (List.mem_range.mp hb).trans (by norm_num)
    have hlt := run_puts_lt hnodup hr (fun _ _ => Finmap.lookup_empty _) rfl (by decide) 1
      (Option.isSome_iff_ne_none.mpr hrun)
    rw [List.length_map, List.length_range] at hlt
    omega

end MyServer.HashMap
