import Mathlib.Tactic

/-!
# Streams that arrive in fragments

A source hands out what it has in the pieces in which it came: one read takes a
prefix of the first fragment and never joins two.
-/

namespace MyServer.Fragments

variable {α : Type}

/-- One read of at most `n` items, and what is left to come. -/
def take (n : Nat) : List (List α) → List α × List (List α)
  | [] => ([], [])
  | f :: fs => (f.take n, if f.length ≤ n then fs else f.drop n :: fs)

/-- No read comes back empty before the end. -/
def Proper (fs : List (List α)) : Prop := ∀ f ∈ fs, f ≠ []

/-- Some fragment ends `k` items into the stream. -/
def CutAt (fs : List (List α)) (k : Nat) : Prop :=
  ∃ front back, fs = front ++ back ∧ front ≠ [] ∧ k = front.flatten.length

theorem take_flatten (n : Nat) (fs : List (List α)) :
    (take n fs).1 ++ (take n fs).2.flatten = fs.flatten := by
  cases fs with
  | nil => rfl
  | cons f fs =>
    unfold take
    dsimp only
    split_ifs with h
    · rw [List.take_of_length_le h, List.flatten_cons]
    · rw [List.flatten_cons, List.flatten_cons, ← List.append_assoc, List.take_append_drop]

theorem take_length_le (n : Nat) (fs : List (List α)) : (take n fs).1.length ≤ n := by
  cases fs with
  | nil => exact Nat.zero_le n
  | cons f fs => exact List.length_take_le n f

theorem Proper.take {fs : List (List α)} (h : Proper fs) (n : Nat) : Proper (take n fs).2 := by
  cases fs with
  | nil => exact h
  | cons f fs =>
    unfold Fragments.take
    dsimp only
    split_ifs with hlen
    · exact fun g hg => h g (List.mem_cons_of_mem f hg)
    · intro g hg
      rcases List.mem_cons.mp hg with rfl | hg
      · intro hnil
        have := congrArg List.length hnil
        rw [List.length_drop, List.length_nil] at this
        omega
      · exact h g (List.mem_cons_of_mem f hg)

theorem take_ne_nil {fs : List (List α)} (h : Proper fs) {n : Nat} (hn : 0 < n)
    (hfs : fs.flatten ≠ []) : (take n fs).1 ≠ [] := by
  cases fs with
  | nil => exact absurd rfl hfs
  | cons f fs =>
    have hf := h f List.mem_cons_self
    unfold take
    dsimp only
    rw [Ne, List.take_eq_nil_iff]
    rintro (h0 | h0)
    · omega
    · exact hf h0

theorem cutAt_nil (k : Nat) : ¬ CutAt ([] : List (List α)) k := by
  rintro ⟨front, back, h, hne, -⟩
  exact hne (List.append_eq_nil_iff.mp h.symm).1

theorem cutAt_cons {f : List α} {fs : List (List α)} {k : Nat} :
    CutAt (f :: fs) k ↔ k = f.length ∨ ∃ j, CutAt fs j ∧ k = f.length + j := by
  constructor
  · rintro ⟨front, back, h, hne, rfl⟩
    cases front with
    | nil => exact absurd rfl hne
    | cons g front =>
      rw [List.cons_append, List.cons.injEq] at h
      obtain ⟨rfl, rfl⟩ := h
      by_cases hfront : front = []
      · left
        simp [hfront]
      · right
        exact ⟨_, ⟨front, back, rfl, hfront, rfl⟩, by simp⟩
  · rintro (rfl | ⟨j, ⟨front, back, rfl, -, rfl⟩, rfl⟩)
    · exact ⟨[f], fs, rfl, by simp, by simp⟩
    · exact ⟨f :: front, back, rfl, by simp, by simp⟩

/-- **A read moves no cut.** The ones beyond what it took are where they were. -/
theorem cutAt_take {fs : List (List α)} (n : Nat) {k : Nat} (hk : 0 < k) :
    CutAt (take n fs).2 k ↔ CutAt fs ((take n fs).1.length + k) := by
  cases fs with
  | nil => exact ⟨fun h => absurd h (cutAt_nil k), fun h => absurd h (cutAt_nil _)⟩
  | cons f fs =>
    unfold take
    dsimp only
    rw [cutAt_cons (k := (f.take n).length + k), List.length_take]
    split_ifs with h
    · rw [Nat.min_eq_right h]
      constructor
      · exact fun hcut => Or.inr ⟨k, hcut, rfl⟩
      · rintro (h0 | ⟨j, hcut, hj⟩)
        · omega
        · obtain rfl : k = j := by omega
          exact hcut
    · rw [Nat.min_eq_left (by omega), cutAt_cons, List.length_drop]
      constructor
      · rintro (rfl | ⟨j, hcut, rfl⟩)
        · exact Or.inl (by omega)
        · exact Or.inr ⟨j, hcut, by omega⟩
      · rintro (h0 | ⟨j, hcut, hj⟩)
        · exact Or.inl (by omega)
        · exact Or.inr ⟨j, hcut, by omega⟩

theorem take_length_of_no_cut {fs : List (List α)} (h : Proper fs) {n : Nat}
    (hcut : ∀ j, 0 < j → j < n → ¬ CutAt fs j) (hn : n ≤ fs.flatten.length) :
    (take n fs).1.length = n := by
  cases fs with
  | nil => exact (Nat.le_zero.mp hn).symm
  | cons f fs =>
    change (f.take n).length = n
    rw [List.length_take]
    apply Nat.min_eq_left
    by_contra hlt
    have hf := List.length_pos_iff.mpr (h f List.mem_cons_self)
    exact hcut f.length hf (by omega) (cutAt_cons.mpr (Or.inl rfl))

theorem take_length_le_of_cut {fs : List (List α)} {n j : Nat} (hcut : CutAt fs j) :
    (take n fs).1.length ≤ j := by
  cases fs with
  | nil => exact absurd hcut (cutAt_nil j)
  | cons f fs =>
    have hle := List.length_take_le' n f
    change (f.take n).length ≤ j
    rcases cutAt_cons.mp hcut with rfl | ⟨i, -, rfl⟩ <;> omega

/-- A read of at most `n` items at offset `k` gives `m`: up to the first cut on the way. -/
structure ReadAt (fs : List (List α)) (k n m : Nat) : Prop where
  le : m ≤ n
  uncut : ∀ j, 0 < j → j < m → ¬ CutAt fs (k + j)
  ends : m = n ∨ CutAt fs (k + m)

theorem ReadAt.unique {fs : List (List α)} {k n m m' : Nat} (h : ReadAt fs k n m)
    (h' : ReadAt fs k n m') (hm : 0 < m) (hm' : 0 < m') : m = m' := by
  rcases Nat.lt_trichotomy m m' with hlt | heq | hgt
  · have hle := h'.le
    exact absurd (h.ends.resolve_left (by omega)) (h'.uncut m hm hlt)
  · exact heq
  · have hle := h.le
    exact absurd (h'.ends.resolve_left (by omega)) (h.uncut m' hm' hgt)

theorem take_readAt (fs : List (List α)) {n : Nat} (hn : n ≤ fs.flatten.length) :
    ReadAt fs 0 n (take n fs).1.length := by
  refine ⟨take_length_le n fs, ?_, ?_⟩
  · intro j _ hj hcut
    rw [Nat.zero_add] at hcut
    have := take_length_le_of_cut (n := n) hcut
    omega
  · cases fs with
    | nil => exact Or.inl (Nat.le_zero.mp hn).symm
    | cons f fs =>
      change (f.take n).length = n ∨ CutAt (f :: fs) (0 + (f.take n).length)
      rw [Nat.zero_add, List.length_take]
      rcases Nat.le_total n f.length with hle | hle
      · exact Or.inl (Nat.min_eq_left hle)
      · rw [Nat.min_eq_right hle]
        exact Or.inr (cutAt_cons.mpr (Or.inl rfl))

/-! ## What one or more reads have taken -/

/-- `f` was taken from the front and `fs'` is left, with its cuts where they were. -/
structure Taken (fs : List (List α)) (f : List α) (fs' : List (List α)) : Prop where
  append : f ++ fs'.flatten = fs.flatten
  proper : Proper fs'
  cut : ∀ k, 0 < k → (CutAt fs' k ↔ CutAt fs (f.length + k))

theorem Taken.refl {fs : List (List α)} (h : Proper fs) : Taken fs [] fs :=
  ⟨rfl, h, fun k _ => by rw [List.length_nil, Nat.zero_add]⟩

theorem taken_take {fs : List (List α)} (h : Proper fs) (n : Nat) :
    Taken fs (take n fs).1 (take n fs).2 :=
  ⟨take_flatten n fs, h.take n, fun _ hk => cutAt_take n hk⟩

theorem Taken.trans {fs fs' fs'' : List (List α)} {f g : List α} (h : Taken fs f fs')
    (h' : Taken fs' g fs'') : Taken fs (f ++ g) fs'' := by
  refine ⟨?_, h'.proper, ?_⟩
  · rw [List.append_assoc, h'.append, h.append]
  · intro k hk
    rw [h'.cut k hk, h.cut _ (by omega), List.length_append, Nat.add_assoc]

theorem Taken.eq_drop {fs fs' : List (List α)} {f : List α} (h : Taken fs f fs') :
    fs'.flatten = fs.flatten.drop f.length := by
  rw [← h.append, List.drop_left]

theorem Taken.eq_take {fs fs' : List (List α)} {f : List α} (h : Taken fs f fs') :
    f = fs.flatten.take f.length := by
  rw [← h.append, List.take_left]

theorem Taken.length {fs fs' : List (List α)} {f : List α} (h : Taken fs f fs') :
    fs.flatten.length = f.length + fs'.flatten.length := by
  rw [← h.append, List.length_append]

theorem Taken.rest {fs fs' : List (List α)} {f rest : List α} (h : Taken fs f fs')
    (hfs : fs.flatten = f ++ rest) : fs'.flatten = rest := by
  rw [h.eq_drop, hfs, List.drop_left]

theorem Taken.nodup {fs fs' : List (List α)} {f : List α} (h : Taken fs f fs')
    (hfs : fs.flatten.Nodup) : fs'.flatten.Nodup := by
  rw [h.eq_drop]
  exact hfs.sublist (List.drop_sublist _ _)

theorem Taken.readAt {fs fs' : List (List α)} {f : List α} {k n m : Nat} (h : Taken fs f fs')
    (hm : 0 < m) : ReadAt fs' k n m ↔ ReadAt fs (f.length + k) n m := by
  constructor
  · rintro ⟨hle, huncut, hends⟩
    refine ⟨hle, ?_, ?_⟩
    · intro j hj hjm
      rw [Nat.add_assoc, ← h.cut _ (by omega)]
      exact huncut j hj hjm
    · rwa [Nat.add_assoc, ← h.cut _ (by omega)]
  · rintro ⟨hle, huncut, hends⟩
    refine ⟨hle, ?_, ?_⟩
    · intro j hj hjm
      rw [h.cut _ (by omega), ← Nat.add_assoc]
      exact huncut j hj hjm
    · rwa [h.cut _ (by omega), ← Nat.add_assoc]

/-- Reading until `n` items are there. Nothing comes of it when the stream ends before. -/
def takeAll : Nat → Nat → List (List α) → Option (List α × List (List α))
  | _, 0, fs => some ([], fs)
  | 0, _ + 1, _ => none
  | fuel + 1, n + 1, fs =>
    if (take (n + 1) fs).1 = [] then none
    else
      (takeAll fuel (n + 1 - (take (n + 1) fs).1.length) (take (n + 1) fs).2).map
        fun r => ((take (n + 1) fs).1 ++ r.1, r.2)

theorem takeAll_some {fuel n : Nat} {fs fs' : List (List α)} {f : List α} (hproper : Proper fs)
    (h : takeAll fuel n fs = some (f, fs')) : f.length = n ∧ Taken fs f fs' := by
  induction fuel generalizing n fs f with
  | zero =>
    cases n with
    | zero =>
      cases h
      exact ⟨rfl, Taken.refl hproper⟩
    | succ n => cases h
  | succ fuel ih =>
    cases n with
    | zero =>
      cases h
      exact ⟨rfl, Taken.refl hproper⟩
    | succ n =>
      unfold takeAll at h
      obtain ⟨-, h⟩ := Option.ite_none_left_eq_some.mp h
      obtain ⟨⟨g, gs⟩, hrest, hr⟩ := Option.map_eq_some_iff.mp h
      cases hr
      obtain ⟨hlength, htaken⟩ := ih (hproper.take (n + 1)) hrest
      have hle := take_length_le (n + 1) fs
      refine ⟨?_, (taken_take hproper (n + 1)).trans htaken⟩
      rw [List.length_append, hlength]
      omega

/-- As long as the stream lasts, `n` items can be had. -/
theorem takeAll_of_le {fuel n : Nat} {fs : List (List α)} (hproper : Proper fs) (hfuel : n ≤ fuel)
    (hn : n ≤ fs.flatten.length) : ∃ r, takeAll fuel n fs = some r := by
  induction fuel generalizing n fs with
  | zero =>
    obtain rfl := Nat.le_zero.mp hfuel
    exact ⟨_, rfl⟩
  | succ fuel ih =>
    cases n with
    | zero => exact ⟨_, rfl⟩
    | succ n =>
      have hne : fs.flatten ≠ [] := by
        rintro hnil
        rw [hnil] at hn
        simp at hn
      have hread := take_ne_nil hproper (by omega : 0 < n + 1) hne
      have hpos := List.length_pos_iff.mpr hread
      have hlength := congrArg List.length (take_flatten (n + 1) fs)
      rw [List.length_append] at hlength
      have hle := take_length_le (n + 1) fs
      obtain ⟨r, hr⟩ := ih (hproper.take (n + 1)) (n := n + 1 - (take (n + 1) fs).1.length)
        (by omega) (by omega)
      unfold takeAll
      rw [if_neg hread, hr]
      exact ⟨_, rfl⟩

/-! ## Reading does not look at the items -/

section Map

variable {β : Type} (g : α → β)

theorem take_map (n : Nat) (fs : List (List α)) :
    take n (fs.map (List.map g)) = ((take n fs).1.map g, (take n fs).2.map (List.map g)) := by
  cases fs with
  | nil => rfl
  | cons f fs =>
    rw [List.map_cons]
    unfold take
    dsimp only
    rw [← List.map_take, ← List.map_drop, List.length_map]
    split <;> rfl

theorem takeAll_map (fuel n : Nat) (fs : List (List α)) :
    takeAll fuel n (fs.map (List.map g)) =
      (takeAll fuel n fs).map fun r => (r.1.map g, r.2.map (List.map g)) := by
  induction fuel generalizing n fs with
  | zero => cases n <;> rfl
  | succ fuel ih =>
    cases n with
    | zero => rfl
    | succ n =>
      unfold takeAll
      rw [take_map]
      dsimp only
      rw [ih, List.length_map]
      simp only [List.map_eq_nil_iff]
      split
      · rfl
      · rw [Option.map_map, Option.map_map]
        congr 1
        funext r
        simp

end Map

end MyServer.Fragments
