import MyServer.HashMap.Table

/-!
# Growing and shrinking

Both loops move entries between two buckets that lie one old (or one new)
capacity apart. What they leave is the same set of entries, each in the bucket
of its hash.
-/

namespace MyServer.HashMap

variable {V : Type}

/-- What neither loop touches. No mark comes to lie above `offset`. -/
structure Frame (h h' : HashMap V) : Prop where
  data_size : h'.data.size = h.data.size
  map_size : h'.map.size = h.map.size
  offset : h'.offset = h.offset
  capacity : h'.capacity = h.capacity
  power : h'.power = h.power
  mask : h'.mask = h.mask
  load : h'.load = h.load
  factor : h'.factor = h.factor
  marks : (∀ i, h.map.get i ≤ h.offset) → ∀ i, h'.map.get i ≤ h'.offset

theorem Frame.refl (h : HashMap V) : Frame h h :=
  ⟨rfl, rfl, rfl, rfl, rfl, rfl, rfl, rfl, id⟩

theorem Frame.trans {h h' h'' : HashMap V} (a : Frame h h') (b : Frame h' h'') : Frame h h'' where
  data_size := b.data_size.trans a.data_size
  map_size := b.map_size.trans a.map_size
  offset := b.offset.trans a.offset
  capacity := b.capacity.trans a.capacity
  power := b.power.trans a.power
  mask := b.mask.trans a.mask
  load := b.load.trans a.load
  factor := b.factor.trans a.factor
  marks := fun hm => b.marks (a.marks hm)

theorem Frame.foldl {α : Type} {f : HashMap V → α → HashMap V} (hf : ∀ h a, Frame h (f h a))
    (l : List α) (h : HashMap V) : Frame h (l.foldl f h) := by
  induction l generalizing h with
  | nil => exact Frame.refl h
  | cons a l ih => exact (hf h a).trans (ih (f h a))

theorem update_le {f : Nat → Nat} {n t a : Nat} (hf : ∀ i, f i ≤ n) (ha : a ≤ n) (i : Nat) :
    Function.update f t a i ≤ n := by
  by_cases hi : i = t
  · rw [hi, Function.update_self]
    exact ha
  · rw [Function.update_of_ne hi]
    exact hf i

theorem live_of_marked {h : HashMap V} {t : Nat} (ht : h.offset ≤ h.map.get t) :
    h.live t = h.data.get t := by
  unfold live
  exact if_pos ht

theorem live_of_stale {h : HashMap V} {t : Nat} (ht : h.map.get t < h.offset) :
    h.live t = [] := by
  unfold live
  exact if_neg (by omega)

theorem live_of_empty {h : HashMap V} {t : Nat} (ht : h.data.get t = []) : h.live t = [] := by
  unfold live
  split_ifs
  · exact ht
  · rfl

theorem live_congr {h h' : HashMap V} {t : Nat} (ho : h'.offset = h.offset)
    (hm : h'.map.get t = h.map.get t) (hd : h'.data.get t = h.data.get t) :
    h'.live t = h.live t := by
  unfold live
  rw [ho, hm, hd]

theorem live_resize {h h' : HashMap V} {n i : Nat} (ho : h'.offset = h.offset)
    (hm : h'.map = h.map.resize n 0) (hd : h'.data = h.data.resize n [])
    (hmi : i < h.map.size) (hdi : i < h.data.size) : h'.live i = h.live i := by
  apply live_congr ho
  · rw [hm]
    exact if_pos hmi
  · rw [hd]
    exact if_pos hdi

theorem get_resize_le {v : Vec Nat} {m n : Nat} (hv : ∀ i, v.get i ≤ m) (i : Nat) :
    (v.resize n 0).get i ≤ m := by
  change (if i < v.size then v.get i else 0) ≤ m
  split_ifs
  · exact hv i
  · exact Nat.zero_le m

/-! ## Growing -/

theorem frame_moveTo (h : HashMap V) (e : Shkv V) : Frame h (h.moveTo e) :=
  ⟨rfl, rfl, rfl, rfl, rfl, rfl, rfl, rfl, fun hm => update_le hm le_rfl⟩

theorem data_foldl_moveTo {l : List (Shkv V)} {h : HashMap V} {t : Nat}
    (hl : ∀ e ∈ l, e.hash &&& h.mask = t) :
    (l.foldl moveTo h).data.get = Function.update h.data.get t (l.reverse ++ h.data.get t) := by
  induction l generalizing h with
  | nil => exact (Function.update_eq_self t _).symm
  | cons e l ih =>
    have he : e.hash &&& h.mask = t := hl e List.mem_cons_self
    rw [List.foldl_cons, ih (h := h.moveTo e) (fun d hd => hl d (List.mem_cons_of_mem e hd))]
    unfold moveTo
    simp [he]

theorem map_foldl_moveTo {l : List (Shkv V)} {h : HashMap V} {t : Nat}
    (hl : ∀ e ∈ l, e.hash &&& h.mask = t) (hne : l ≠ []) :
    (l.foldl moveTo h).map.get = Function.update h.map.get t h.offset := by
  induction l generalizing h with
  | nil => exact absurd rfl hne
  | cons e l ih =>
    have he : e.hash &&& h.mask = t := hl e List.mem_cons_self
    rw [List.foldl_cons]
    by_cases hnil : l = []
    · subst hnil
      unfold moveTo
      simp [he]
    · rw [ih (h := h.moveTo e) (fun d hd => hl d (List.mem_cons_of_mem e hd)) hnil]
      unfold moveTo
      simp [he]

theorem frame_spread (h : HashMap V) (i : Nat) : Frame h (h.spread i) := by
  unfold spread
  split_ifs
  · refine (Frame.foldl frame_moveTo _ h).trans ⟨rfl, ?_, rfl, rfl, rfl, rfl, rfl, rfl, ?_⟩
    · dsimp only
      split_ifs <;> rfl
    · intro hm
      dsimp only
      split_ifs
      · exact update_le hm (Nat.zero_le _)
      · exact hm
  · exact Frame.refl h

theorem spread_of_marked {h : HashMap V} {i t : Nat} (hi : h.offset ≤ h.map.get i)
    (ht : h.data.get t = [])
    (hidx : ∀ e ∈ h.data.get i, e.hash &&& h.mask = i ∨ e.hash &&& h.mask = t) :
    ∃ h₁ : HashMap V, h₁.offset = h.offset ∧
      h₁.data.get = Function.update h.data.get t
        ((h.data.get i).filter fun e => e.hash &&& h.mask ≠ i).reverse ∧
      (∀ j ≠ t, h₁.map.get j = h.map.get j) ∧
      (((h.data.get i).filter fun e => e.hash &&& h.mask ≠ i) ≠ [] → h₁.map.get t = h.offset) ∧
      h.spread i = { h₁ with
        data := h₁.data.set i ((h.data.get i).filter fun e => e.hash &&& h.mask = i)
        map := if ((h.data.get i).filter fun e => e.hash &&& h.mask = i) = [] then h₁.map.set i 0
          else h₁.map } := by
  have hmoved : ∀ e ∈ (h.data.get i).filter fun e => e.hash &&& h.mask ≠ i,
      e.hash &&& h.mask = t := by
    intro e he
    obtain ⟨he, hne⟩ := List.mem_filter.mp he
    exact (hidx e he).resolve_left (by simpa using hne)
  refine ⟨((h.data.get i).filter fun e => e.hash &&& h.mask ≠ i).foldl moveTo h, ?_, ?_, ?_, ?_, ?_⟩
  · exact (Frame.foldl frame_moveTo _ h).offset
  · rw [data_foldl_moveTo hmoved, ht, List.append_nil]
  · intro j hj
    by_cases hnil : ((h.data.get i).filter fun e => e.hash &&& h.mask ≠ i) = []
    · rw [hnil]
      rfl
    · rw [map_foldl_moveTo hmoved hnil, Function.update_of_ne hj]
  · intro hne
    rw [map_foldl_moveTo hmoved hne, Function.update_self]
  · unfold spread
    rw [if_pos hi]

/-- **One bucket grows apart.** Its entries stay or go to bucket `t`, which was empty. -/
theorem live_spread {h : HashMap V} {i t : Nat} (hti : t ≠ i) (ht : h.data.get t = [])
    (hidx : ∀ e ∈ h.live i, e.hash &&& h.mask = i ∨ e.hash &&& h.mask = t) (j : Nat) :
    (h.spread i).live j =
      if j = i then (h.live i).filter fun e => e.hash &&& h.mask = i
      else if j = t then ((h.live i).filter fun e => e.hash &&& h.mask ≠ i).reverse
      else h.live j := by
  by_cases hi : h.offset ≤ h.map.get i
  · rw [live_of_marked hi] at hidx ⊢
    obtain ⟨h₁, ho, hdata, hmap, hmark, hspread⟩ := spread_of_marked hi ht hidx
    rw [hspread]
    generalize (h.data.get i).filter (fun e => decide (e.hash &&& h.mask = i)) = kept
    generalize (h.data.get i).filter (fun e => decide (e.hash &&& h.mask ≠ i)) = moved at hdata hmark ⊢
    have hother : ∀ j ≠ i, (if kept = [] then h₁.map.set i 0 else h₁.map).get j = h₁.map.get j := by
      intro j hj
      split_ifs
      · rw [Vec.get_set, Function.update_of_ne hj]
      · rfl
    by_cases hji : j = i
    · rw [if_pos hji, hji]
      by_cases hkept : kept = []
      · rw [hkept]
        exact live_of_empty (by simp)
      · rw [live_of_marked]
        · simp
        · rw [if_neg hkept, ho, hmap i hti.symm]
          exact hi
    rw [if_neg hji]
    by_cases hjt : j = t
    · rw [if_pos hjt, hjt]
      by_cases hnil : moved = []
      · rw [hnil]
        exact live_of_empty (by simp [hti, hdata, hnil])
      · rw [live_of_marked]
        · simp [hti, hdata]
        · rw [hother t hti, hmark hnil, ho]
    · rw [if_neg hjt]
      apply live_congr
      · exact ho
      · rw [hother j hji, hmap j hjt]
      · simp [hji, hjt, hdata]
  · rw [live_of_stale (by omega : h.map.get i < h.offset)]
    unfold spread
    rw [if_neg hi]
    split_ifs with hji hjt
    · rw [hji]
      exact live_of_stale (by omega)
    · rw [hjt]
      exact live_of_empty ht
    · rfl

theorem data_spread {h : HashMap V} {i t : Nat} (ht : h.data.get t = [])
    (hidx : ∀ e ∈ h.live i, e.hash &&& h.mask = i ∨ e.hash &&& h.mask = t) {j : Nat}
    (hji : j ≠ i) (hjt : j ≠ t) : (h.spread i).data.get j = h.data.get j := by
  by_cases hi : h.offset ≤ h.map.get i
  · rw [live_of_marked hi] at hidx
    obtain ⟨h₁, _, hdata, _, _, hspread⟩ := spread_of_marked hi ht hidx
    rw [hspread]
    simp [hji, hjt, hdata]
  · unfold spread
    rw [if_neg hi]

/-- **The loop of `increaseSize`** after `n` buckets. -/
theorem foldl_spread {h : HashMap V} {n : Nat} (hfresh : ∀ j ≥ h.capacity, h.data.get j = [])
    (hidx : ∀ i < h.capacity, ∀ e ∈ h.live i,
      e.hash &&& h.mask = i ∨ e.hash &&& h.mask = i + h.capacity) (hn : n ≤ h.capacity) :
    (∀ j ≥ h.capacity + n, ((List.range n).foldl spread h).data.get j = []) ∧
      ∀ j, ((List.range n).foldl spread h).live j =
        if j < n then (h.live j).filter fun e => e.hash &&& h.mask = j
        else if j < h.capacity then h.live j
        else if j < h.capacity + n then
          ((h.live (j - h.capacity)).filter fun e => e.hash &&& h.mask ≠ j - h.capacity).reverse
        else [] := by
  induction n with
  | zero =>
    refine ⟨fun j hj => hfresh j (by omega), fun j => ?_⟩
    simp only [List.range_zero, List.foldl_nil, Nat.not_lt_zero, if_false, Nat.add_zero]
    split_ifs
    · rfl
    · exact live_of_empty (hfresh j (by omega))
  | succ n ih =>
    obtain ⟨ihfresh, ihlive⟩ := ih (by omega)
    have hmask := (Frame.foldl frame_spread (List.range n) h).mask
    rw [List.range_succ, List.foldl_append, List.foldl_cons, List.foldl_nil]
    generalize (List.range n).foldl spread h = h₁ at ihfresh ihlive hmask ⊢
    have hn₁ : h₁.live n = h.live n := by
      rw [ihlive, if_neg (by omega), if_pos (by omega)]
    have ht : h₁.data.get (n + h.capacity) = [] := ihfresh _ (by omega)
    have hidx₁ : ∀ e ∈ h₁.live n,
        e.hash &&& h₁.mask = n ∨ e.hash &&& h₁.mask = n + h.capacity := by
      rw [hn₁, hmask]
      exact hidx n (by omega)
    constructor
    · intro j hj
      rw [data_spread ht hidx₁ (by omega) (by omega)]
      exact ihfresh j (by omega)
    · intro j
      rw [live_spread (by omega) ht hidx₁, hn₁, hmask, ihlive]
      by_cases hjn : j = n
      · rw [if_pos hjn, if_pos (by omega), hjn]
      rw [if_neg hjn]
      by_cases hjt : j = n + h.capacity
      · subst hjt
        rw [if_pos rfl, if_neg (by omega), if_neg (by omega), if_pos (by omega), Nat.add_sub_cancel]
      rw [if_neg hjt]
      have hlt : j < n + 1 ↔ j < n := by omega
      have hlt' : j < h.capacity + (n + 1) ↔ j < h.capacity + n := by omega
      simp only [hlt, hlt']

/-! ## Shrinking -/

theorem frame_moveDown (h : HashMap V) (e : Shkv V) : Frame h (h.moveDown e) := by
  unfold moveDown
  dsimp only
  split_ifs
  · exact ⟨rfl, rfl, rfl, rfl, rfl, rfl, rfl, rfl, fun hm => update_le hm le_rfl⟩
  · exact ⟨rfl, rfl, rfl, rfl, rfl, rfl, rfl, rfl, id⟩

theorem live_moveDown (h : HashMap V) (e : Shkv V) :
    (h.moveDown e).live = Function.update h.live (e.hash &&& h.mask)
      (e :: h.live (e.hash &&& h.mask)) := by
  funext j
  unfold moveDown
  dsimp only
  generalize e.hash &&& h.mask = t
  by_cases ht : h.map.get t < h.offset
  · rw [if_pos ht, live_of_stale ht]
    by_cases hj : j = t
    · subst hj
      rw [live_of_marked (by simp)]
      simp
    · rw [Function.update_of_ne hj]
      apply live_congr <;> simp [hj]
  · rw [if_neg ht, live_of_marked (t := t) (by omega)]
    by_cases hj : j = t
    · subst hj
      rw [live_of_marked (by simpa using ht)]
      simp
    · rw [Function.update_of_ne hj]
      apply live_congr <;> simp [hj]

theorem live_foldl_moveDown {l : List (Shkv V)} {h : HashMap V} {t : Nat}
    (hl : ∀ e ∈ l, e.hash &&& h.mask = t) :
    (l.foldl moveDown h).live = Function.update h.live t (l.reverse ++ h.live t) := by
  induction l generalizing h with
  | nil => exact (Function.update_eq_self t _).symm
  | cons e l ih =>
    have he : e.hash &&& h.mask = t := hl e List.mem_cons_self
    have hmask := (frame_moveDown h e).mask
    rw [List.foldl_cons, ih (h := h.moveDown e) (fun d hd => ?_), live_moveDown, he]
    · simp
    · rw [hmask]
      exact hl d (List.mem_cons_of_mem e hd)

theorem frame_fold (h : HashMap V) (i : Nat) : Frame h (h.fold i) := by
  unfold fold
  split_ifs
  · exact Frame.foldl frame_moveDown _ h
  · exact Frame.refl h

theorem live_fold {h : HashMap V} {i t : Nat} (hidx : ∀ e ∈ h.live i, e.hash &&& h.mask = t) :
    (h.fold i).live = Function.update h.live t ((h.live i).reverse ++ h.live t) := by
  unfold fold
  split_ifs with hi
  · rw [live_of_marked hi] at hidx ⊢
    exact live_foldl_moveDown hidx
  · rw [live_of_stale (by omega : h.map.get i < h.offset)]
    exact (Function.update_eq_self t _).symm

/-- **The loop of `decreaseSize`** over the first `n` buckets of the upper half, from the last. -/
theorem foldl_fold {h : HashMap V} {c n : Nat} (hn : n ≤ c)
    (hidx : ∀ j < n, ∀ e ∈ h.live (c + j), e.hash &&& h.mask = j) (j : Nat) :
    ((List.range' c n).reverse.foldl fold h).live j =
      if j < n then (h.live (c + j)).reverse ++ h.live j else h.live j := by
  induction n generalizing h with
  | zero => simp
  | succ n ih =>
    have hlive := live_fold (hidx n (by omega))
    have hmask := (frame_fold h (c + n)).mask
    have hupper : ∀ j < n, (h.fold (c + n)).live (c + j) = h.live (c + j) := by
      intro j hj
      rw [hlive, Function.update_of_ne (by omega)]
    rw [List.range'_concat, List.reverse_append, List.reverse_singleton, List.singleton_append,
      List.foldl_cons, Nat.one_mul, ih (by omega) (fun j hj => ?_)]
    · by_cases hjn : j = n
      · rw [if_neg (by omega), if_pos (by omega), hlive, hjn, Function.update_self]
      · rw [hlive, Function.update_of_ne hjn, Function.update_of_ne (by omega)]
        have hlt : j < n + 1 ↔ j < n := by omega
        simp only [hlt]
    · rw [hupper j hj, hmask]
      exact hidx j (by omega)

end MyServer.HashMap
