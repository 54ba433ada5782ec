import MyServer.HashMap.Clear

/-!
# Marked buckets are not empty

A bucket loses its mark with its last entry. So whoever steps on a marked
bucket stands on an entry.
-/

namespace MyServer.HashMap

variable {V : Type}

structure Filled (h : HashMap V) : Prop where
  pos : 0 < h.offset
  bucket : ∀ i, h.offset ≤ h.map.get i → h.data.get i ≠ []

/-- One bucket is written. -/
theorem Filled.write {h h' : HashMap V} (hf : Filled h) (ho : h'.offset = h.offset) {t : Nat}
    (hmap : ∀ j ≠ t, h'.map.get j = h.map.get j) (hdata : ∀ j ≠ t, h'.data.get j = h.data.get j)
    (ht : h.offset ≤ h'.map.get t → h'.data.get t ≠ []) : Filled h' := by
  refine ⟨ho ▸ hf.pos, fun i hi => ?_⟩
  rw [ho] at hi
  by_cases hit : i = t
  · subst hit
    exact ht hi
  · rw [hdata i hit]
    exact hf.bucket i (hmap i hit ▸ hi)

theorem Filled.resize {h h' : HashMap V} {n : Nat} (hf : Filled h) (hsize : h.data.size = h.map.size)
    (ho : h'.offset = h.offset) (hm : h'.map = h.map.resize n 0) (hd : h'.data = h.data.resize n []) :
    Filled h' := by
  have hpos := hf.pos
  refine ⟨ho ▸ hpos, fun i hi => ?_⟩
  rw [ho, hm] at hi
  change h.offset ≤ if i < h.map.size then h.map.get i else 0 at hi
  rw [hd]
  change (if i < h.data.size then h.data.get i else []) ≠ []
  split_ifs at hi with hlt
  · rw [if_pos (hsize ▸ hlt)]
    exact hf.bucket i hi
  · omega

theorem Filled.foldl {α : Type} {f : HashMap V → α → HashMap V} (hf : ∀ h a, Filled h → Filled (f h a))
    (l : List α) {h : HashMap V} (hfilled : Filled h) : Filled (l.foldl f h) := by
  induction l generalizing h with
  | nil => exact hfilled
  | cons a l ih => exact ih (hf h a hfilled)

/-! ## Growing and shrinking -/

theorem filled_moveTo (h : HashMap V) (e : Shkv V) (hf : Filled h) : Filled (h.moveTo e) := by
  refine hf.write (t := e.hash &&& h.mask) rfl (fun j hj => ?_) (fun j hj => ?_) fun _ => ?_
  · exact Function.update_of_ne hj _ _
  · exact Function.update_of_ne hj _ _
  · simp [moveTo]

theorem filled_spread (h : HashMap V) (i : Nat) (hf : Filled h) : Filled (h.spread i) := by
  unfold spread
  split_ifs with hmark
  · dsimp only
    have hmoved := Filled.foldl filled_moveTo ((h.data.get i).filter fun e => e.hash &&& h.mask ≠ i) hf
    have hpos := hmoved.pos
    refine hmoved.write (t := i) rfl (fun j hj => ?_) (fun j hj => ?_) fun ht => ?_
    · split_ifs
      · exact Function.update_of_ne hj _ _
      · rfl
    · exact Function.update_of_ne hj _ _
    · split_ifs at ht with hkept
      · rw [Vec.get_set, Function.update_self] at ht
        omega
      · simpa using hkept
  · exact hf

theorem filled_increaseSize {h h' : HashMap V} (hsize : h.data.size = h.map.size) (hf : Filled h) (hgrow : h.increaseSize = some h') :
    Filled h' := by
  unfold increaseSize at hgrow
  dsimp only at hgrow
  split_ifs at hgrow with hfull
  rw [← Option.some.inj hgrow]
  have hwide : Filled { h with
      power := h.power + 1
      mask := maskOf (h.power + 1)
      data := h.data.resize (2 ^ (h.power + 1)) []
      map := h.map.resize (2 ^ (h.power + 1)) 0 } :=
    hf.resize hsize rfl rfl rfl
  have hdone := Filled.foldl filled_spread (List.range h.capacity) hwide
  exact ⟨hdone.pos, hdone.bucket⟩

theorem filled_moveDown (h : HashMap V) (e : Shkv V) (hf : Filled h) : Filled (h.moveDown e) := by
  refine hf.write (t := e.hash &&& h.mask) ?_ (fun j hj => ?_) (fun j hj => ?_) fun _ => ?_
  · unfold moveDown
    dsimp only
    split_ifs <;> rfl
  · unfold moveDown
    dsimp only
    split_ifs
    · exact Function.update_of_ne hj _ _
    · rfl
  · unfold moveDown
    dsimp only
    split_ifs <;> simp [hj]
  · simp [moveDown]

theorem filled_fold (h : HashMap V) (i : Nat) (hf : Filled h) : Filled (h.fold i) := by
  unfold fold
  split_ifs
  · exact Filled.foldl filled_moveDown _ hf
  · exact hf

theorem filled_decreaseSize {h : HashMap V} (hsize : h.data.size = h.map.size) (hf : Filled h) : Filled h.decreaseSize := by
  have hhalf : Filled { h with power := h.power - 1, mask := h.mask >>> 1, capacity := h.capacity >>> 1 } :=
    ⟨hf.pos, hf.bucket⟩
  have hdone := Filled.foldl filled_fold
    (List.range' (h.capacity >>> 1) (h.capacity - h.capacity >>> 1)).reverse hhalf
  have hframe := Frame.foldl frame_fold
    (List.range' (h.capacity >>> 1) (h.capacity - h.capacity >>> 1)).reverse
    { h with power := h.power - 1, mask := h.mask >>> 1, capacity := h.capacity >>> 1 }
  refine hdone.resize ?_ rfl rfl rfl
  rw [hframe.data_size, hframe.map_size]
  exact hsize

/-! ## The operations -/

theorem Gone.filled {h : HashMap V} (hg : Gone h) : Filled h :=
  ⟨Nat.zero_lt_of_lt (hg.stale 0), fun i hi => absurd hi (not_le.mpr (hg.stale i))⟩

theorem filled_grow {h h' : HashMap V} (hsize : h.data.size = h.map.size) (hf : Filled h)
    (hgrow : h.grow = some h') : Filled h' := by
  unfold grow at hgrow
  split_ifs at hgrow
  · exact filled_increaseSize hsize hf hgrow
  · rwa [← Option.some.inj hgrow]

theorem filled_shrink {h : HashMap V} (hsize : h.data.size = h.map.size) (hf : Filled h) : Filled h.shrink := by
  unfold shrink
  split_ifs
  · exact filled_decreaseSize hsize hf
  · exact hf

theorem filled_clear {h : HashMap V} (hmarks : ∀ i, h.map.get i ≤ h.offset) (hoff : h.offset < 2 ^ 32) :
    Filled h.clear := by
  unfold clear
  dsimp only
  split_ifs with hwrap
  · exact ⟨Nat.one_pos, fun i hi => absurd hi (by norm_num)⟩
  · refine ⟨Nat.pos_of_ne_zero hwrap, fun i hi => ?_⟩
    have hi' := hmarks i
    rw [Nat.mod_eq_of_lt (by omega)] at hi
    dsimp only at hi
    omega

section Operations

variable [Zero V]

theorem filled_put {h h' : HashMap V} (hsize : h.data.size = h.map.size) (hf : Filled h) {key : Str}
    {value v : V} (hput : h.put key value = some (v, h')) : Filled h' := by
  obtain ⟨t, -, hput⟩ := Option.bind_eq_some_iff.mp hput
  dsimp only at hput
  split_ifs at hput with hmark hdata
  · split at hput
    · cases hput
      refine hf.write (t := t) rfl (fun _ _ => rfl) (fun j hj => Function.update_of_ne hj _ _) fun _ => ?_
      have hne := hf.bucket t hmark
      have hkeys : (Chain.adjustFirst Shkv.key key (fun e => { e with value }) (h.data.get t)).map Shkv.key =
          (h.data.get t).map Shkv.key := by
        apply Chain.map_adjustFirst
        intro e
        rfl
      have hlength := congrArg List.length hkeys
      rw [List.length_map, List.length_map] at hlength
      rw [Vec.get_set, Function.update_self, ← List.length_pos_iff, hlength, List.length_pos_iff]
      exact hne
    · obtain ⟨h₁, hgrow, heq⟩ := Option.map_eq_some_iff.mp hput
      cases heq
      refine filled_grow ?_ ?_ hgrow
      · exact hsize
      · refine hf.write (t := t) rfl (fun _ _ => rfl) (fun j hj => Function.update_of_ne hj _ _) fun _ => ?_
        simp
  · obtain ⟨h₁, hgrow, heq⟩ := Option.map_eq_some_iff.mp hput
    cases heq
    refine filled_grow ?_ ?_ hgrow
    · exact hsize
    · refine hf.write (t := t) rfl (fun j hj => Function.update_of_ne hj _ _)
        (fun j hj => Function.update_of_ne hj _ _) fun _ => ?_
      simp

theorem filled_remove {h h' : HashMap V} (hsize : h.data.size = h.map.size) (hf : Filled h) {key : Str}
    {v : V} (hremove : h.remove key = some (v, h')) : Filled h' := by
  obtain ⟨t, -, hremove⟩ := Option.map_eq_some_iff.mp hremove
  split at hremove
  · cases hremove
    refine filled_shrink ?_ ?_
    · dsimp only
      split_ifs
      · exact hsize
      · exact hsize
    · have hpos := hf.pos
      refine hf.write (t := t) rfl (fun j hj => ?_) (fun j hj => Function.update_of_ne hj _ _) fun ht => ?_
      · dsimp only
        split_ifs
        · exact Function.update_of_ne hj _ _
        · rfl
      · dsimp only at ht
        split_ifs at ht with hlast
        · rw [Vec.get_set, Function.update_self] at ht
          omega
        · rw [Vec.get_set, Function.update_self]
          exact hlast
  · cases hremove
    exact hf

/-- **Every operation** leaves marked buckets filled. -/
theorem filled_step {s s' : HashMap V × Mapping V} {op : Op V} (hs : Sound s) (hf : Filled s.1)
    (hstep : stepBoth s op = some s') : Filled s'.1 := by
  obtain ⟨⟨r, h'⟩, hres, rfl⟩ := Option.map_eq_some_iff.mp hstep
  rcases hs with hs | hs
  · have hinv := hs.refines.inv
    have hsize := hinv.data_size.trans hinv.map_size.symm
    cases op with
    | put key value =>
      obtain ⟨⟨v, h₁⟩, hput, heq⟩ := Option.map_eq_some_iff.mp hres
      cases heq
      exact filled_put hsize hf hput
    | get key =>
      obtain ⟨v, -, heq⟩ := Option.map_eq_some_iff.mp hres
      cases heq
      exact hf
    | remove key =>
      obtain ⟨⟨v, h₁⟩, hremove, heq⟩ := Option.map_eq_some_iff.mp hres
      cases heq
      exact filled_remove hsize hf hremove
    | clear =>
      cases hres
      exact filled_clear hinv.marks hs.offset_lt
    | size =>
      cases hres
      exact hf
  · exact (hs.step hres).1.filled

end Operations

end MyServer.HashMap
