import Mathlib.Tactic
import Mathlib.Data.List.Nodup

/-!
# Chained tables

A chained table is a row of buckets. Every entry stands in the bucket that is
its key's place, and no bucket holds two entries of one key.
-/

namespace MyServer.Chain

variable {E K : Type} (key : E → K) (place : K → Nat) (n : Nat) (t : Nat → List E)

structure Chained : Prop where
  bound : ∀ k, place k < n
  home : ∀ i < n, ∀ e ∈ t i, place (key e) = i
  nodup : ∀ i < n, ((t i).map key).Nodup

variable [DecidableEq K]

def find (k : K) : Option E := (t (place k)).find? fun e => key e = k

variable {key place n t}

theorem find?_eq_some_iff {l : List E} (h : (l.map key).Nodup) (k : K) (e : E) :
    l.find? (fun e => key e = k) = some e ↔ e ∈ l ∧ key e = k := by
  induction l with
  | nil => simp
  | cons d l ih =>
    rw [List.map_cons, List.nodup_cons] at h
    by_cases hd : key d = k
    · rw [List.find?_cons_of_pos (by simpa using hd)]
      constructor
      · rintro ⟨rfl⟩
        exact ⟨List.mem_cons_self, hd⟩
      · rintro ⟨hmem, he⟩
        rcases List.mem_cons.mp hmem with rfl | hmem
        · rfl
        · exact absurd (List.mem_map.mpr ⟨e, hmem, he.trans hd.symm⟩) h.1
    · rw [List.find?_cons_of_neg (by simpa using hd), ih h.2, List.mem_cons]
      constructor
      · exact fun ⟨hmem, he⟩ => ⟨Or.inr hmem, he⟩
      · rintro ⟨rfl | hmem, he⟩
        · exact absurd he hd
        · exact ⟨hmem, he⟩

theorem Chained.find_eq_some_iff (h : Chained key place n t) (k : K) (e : E) :
    find key place t k = some e ↔ e ∈ t (place k) ∧ key e = k :=
  find?_eq_some_iff (h.nodup _ (h.bound k)) k e

/-- **Rehashing.** Two chained tables that hold the same entries find the same. -/
theorem Chained.find_congr {place' : K → Nat} {n' : Nat} {t' : Nat → List E}
    (h : Chained key place n t) (h' : Chained key place' n' t')
    (hmem : ∀ e, e ∈ t' (place' (key e)) ↔ e ∈ t (place (key e))) (k : K) :
    find key place' t' k = find key place t k := by
  apply Option.ext
  intro e
  rw [h'.find_eq_some_iff, h.find_eq_some_iff]
  constructor <;>
  · rintro ⟨he, rfl⟩
    exact ⟨by simpa only [hmem] using he, rfl⟩

/-! ## Single buckets -/

omit [DecidableEq K] in
theorem Chained.update (h : Chained key place n t) {i : Nat} {l : List E}
    (hhome : ∀ e ∈ l, place (key e) = i) (hnodup : (l.map key).Nodup) :
    Chained key place n (Function.update t i l) where
  bound := h.bound
  home j hj e he := by
    by_cases hij : j = i
    · subst hij
      rw [Function.update_self] at he
      exact hhome e he
    · rw [Function.update_of_ne hij] at he
      exact h.home j hj e he
  nodup j hj := by
    by_cases hij : j = i
    · subst hij
      rwa [Function.update_self]
    · rw [Function.update_of_ne hij]
      exact h.nodup j hj

theorem find_update_of_ne {i : Nat} {l : List E} {k : K} (h : place k ≠ i) :
    find key place (Function.update t i l) k = find key place t k := by
  rw [find, Function.update_of_ne h, find]

theorem find_update_self {k : K} {l : List E} :
    find key place (Function.update t (place k) l) k = l.find? fun e => key e = k := by
  rw [find, Function.update_self]

/-- **Adding an entry** whose key has none. -/
theorem Chained.push (h : Chained key place n t) {e : E}
    (hnone : find key place t (key e) = none) :
    Chained key place n (Function.update t (place (key e)) (e :: t (place (key e)))) ∧
      ∀ k, find key place (Function.update t (place (key e)) (e :: t (place (key e)))) k =
        if k = key e then some e else find key place t k := by
  have hnew : ∀ d ∈ t (place (key e)), key d ≠ key e := by
    simpa [find] using hnone
  refine ⟨h.update ?_ ?_, ?_⟩
  · intro d hd
    rcases List.mem_cons.mp hd with rfl | hd
    · rfl
    · exact h.home _ (h.bound _) d hd
  · rw [List.map_cons, List.nodup_cons]
    refine ⟨?_, h.nodup _ (h.bound _)⟩
    rw [List.mem_map]
    rintro ⟨d, hd, hkey⟩
    exact hnew d hd hkey
  · intro k
    by_cases hplace : place k = place (key e)
    · rw [← hplace, find_update_self]
      split_ifs with hk
      · rw [List.find?_cons_of_pos (by simp [hk])]
      · rw [List.find?_cons_of_neg (by simpa [eq_comm] using hk)]
        rfl
    · rw [find_update_of_ne hplace, if_neg (fun hk => hplace (by rw [hk]))]

variable (key) in
/-- The first entry of `k` is exchanged for its image. -/
def adjustFirst (k : K) (f : E → E) : List E → List E
  | [] => []
  | e :: l => if key e = k then f e :: l else e :: adjustFirst k f l

theorem mem_adjustFirst {k : K} {f : E → E} {l : List E} {e : E} (h : e ∈ adjustFirst key k f l) :
    e ∈ l ∨ ∃ d ∈ l, f d = e := by
  induction l with
  | nil => cases h
  | cons d l ih =>
    unfold adjustFirst at h
    split_ifs at h
    · rcases List.mem_cons.mp h with rfl | h
      · exact Or.inr ⟨d, List.mem_cons_self, rfl⟩
      · exact Or.inl (List.mem_cons_of_mem d h)
    · rcases List.mem_cons.mp h with rfl | h
      · exact Or.inl List.mem_cons_self
      · rcases ih h with h | ⟨c, hc, hce⟩
        · exact Or.inl (List.mem_cons_of_mem d h)
        · exact Or.inr ⟨c, List.mem_cons_of_mem d hc, hce⟩

theorem map_adjustFirst {f : E → E} (hf : ∀ e, key (f e) = key e) (k : K) (l : List E) :
    (adjustFirst key k f l).map key = l.map key := by
  induction l with
  | nil => rfl
  | cons d l ih =>
    unfold adjustFirst
    split_ifs
    · rw [List.map_cons, List.map_cons, hf]
    · rw [List.map_cons, List.map_cons, ih]

theorem find?_adjustFirst {f : E → E} (hf : ∀ e, key (f e) = key e) (k k' : K) (l : List E) :
    (adjustFirst key k f l).find? (fun e => key e = k') =
      if k' = k then (l.find? fun e => key e = k).map f else l.find? fun e => key e = k' := by
  induction l with
  | nil => simp [adjustFirst]
  | cons d l ih =>
    unfold adjustFirst
    split_ifs at ih ⊢ with hd hk hk
    · simp [hf, hd, hk]
    · have hne : key d ≠ k' := fun h => hk (h.symm.trans hd)
      rw [List.find?_cons_of_neg (by simpa [hf] using hne),
        List.find?_cons_of_neg (by simpa using hne)]
    · rw [List.find?_cons_of_neg (by simpa [hk] using hd),
        List.find?_cons_of_neg (by simpa using hd), ih]
    · rw [List.find?_cons, List.find?_cons, ih]

/-- **Changing the entry** of a key by a function that keeps keys. -/
theorem Chained.adjust (h : Chained key place n t) (k : K) {f : E → E}
    (hf : ∀ e, key (f e) = key e) :
    Chained key place n
        (Function.update t (place k) (adjustFirst key k f (t (place k)))) ∧
      ∀ k', find key place
          (Function.update t (place k) (adjustFirst key k f (t (place k)))) k' =
        if k' = k then (find key place t k).map f else find key place t k' := by
  have hkeys := map_adjustFirst hf k (t (place k))
  refine ⟨h.update ?_ ?_, ?_⟩
  · intro d hd
    obtain ⟨e, he, hde⟩ := List.mem_map.mp (hkeys ▸ List.mem_map_of_mem hd)
    rw [← hde]
    exact h.home _ (h.bound k) e he
  · rw [hkeys]
    exact h.nodup _ (h.bound k)
  · intro k'
    by_cases hplace : place k' = place k
    · rw [← hplace, find_update_self, find?_adjustFirst hf, find, find, hplace]
    · rw [find_update_of_ne hplace, if_neg (fun hk => hplace (by rw [hk]))]

theorem find?_eraseP_of_ne {k k' : K} (hk : k' ≠ k) (l : List E) :
    (l.eraseP fun e => key e = k).find? (fun e => key e = k') =
      l.find? fun e => key e = k' := by
  induction l with
  | nil => rfl
  | cons d l ih =>
    by_cases hd : key d = k
    · have hne : key d ≠ k' := fun h => hk (h.symm.trans hd)
      rw [List.eraseP_cons_of_pos (by simpa using hd),
        List.find?_cons_of_neg (by simpa using hne)]
    · rw [List.eraseP_cons_of_neg (by simpa using hd), List.find?_cons, List.find?_cons, ih]

theorem find?_eraseP_self {k : K} {l : List E} (h : (l.map key).Nodup) :
    (l.eraseP fun e => key e = k).find? (fun e => key e = k) = none := by
  induction l with
  | nil => rfl
  | cons d l ih =>
    rw [List.map_cons, List.nodup_cons] at h
    by_cases hd : key d = k
    · rw [List.eraseP_cons_of_pos (by simpa using hd), List.find?_eq_none]
      intro e he hek
      exact h.1 (List.mem_map.mpr ⟨e, he, (by simpa using hek : key e = k).trans hd.symm⟩)
    · rw [List.eraseP_cons_of_neg (by simpa using hd),
        List.find?_cons_of_neg (by simpa using hd), ih h.2]

/-- **Removing the entry** of a key. -/
theorem Chained.erase (h : Chained key place n t) (k : K) :
    Chained key place n
        (Function.update t (place k) ((t (place k)).eraseP fun e => key e = k)) ∧
      ∀ k', find key place
          (Function.update t (place k) ((t (place k)).eraseP fun e => key e = k)) k' =
        if k' = k then none else find key place t k' := by
  refine ⟨h.update ?_ ?_, ?_⟩
  · intro e he
    exact h.home _ (h.bound k) e (List.mem_of_mem_eraseP he)
  · exact (h.nodup _ (h.bound k)).sublist (List.eraseP_sublist.map key)
  · intro k'
    by_cases hplace : place k' = place k
    · rw [← hplace, find_update_self]
      split_ifs with hk
      · subst hk
        exact find?_eraseP_self (h.nodup _ (h.bound k'))
      · rw [find?_eraseP_of_ne hk, find]
    · rw [find_update_of_ne hplace, if_neg (fun hk => hplace (by rw [hk]))]

/-! ## Pairs of buckets

A table of `2 * c` buckets and one of `c` hold the same entries when buckets `i`
and `i + c` of the one are bucket `i` of the other.
-/

omit [DecidableEq K]

/-- From `t` to `t'` every bucket grows apart into two. -/
structure Splits (slot : E → Nat) (c : Nat) (t t' : Nat → List E) : Prop where
  near : ∀ i < c, ∀ e ∈ t i, slot e = i ∨ slot e = i + c
  lower : ∀ i < c, t' i = (t i).filter fun e => slot e = i
  upper : ∀ i < c, t' (i + c) = ((t i).filter fun e => slot e ≠ i).reverse

structure Joins (slot : E → Nat) (c : Nat) (t t' : Nat → List E) : Prop where
  near : ∀ i < c, ∀ e, e ∈ t (c + i) ∨ e ∈ t i → slot e = i
  bucket : ∀ i < c, t' i = (t (c + i)).reverse ++ t i

variable {slot : E → Nat} {c : Nat} {t' : Nat → List E}

theorem upper_half {c i : Nat} (hi : i < c * 2) (hic : ¬ i < c) : ∃ k < c, i = k + c :=
  ⟨i - c, by omega, by omega⟩

theorem Splits.mem_iff (h : Splits slot c t t') {i : Nat} (hi : i < c * 2) (e : E) :
    e ∈ t' i ↔ ∃ j < c, e ∈ t j ∧ slot e = i := by
  by_cases hic : i < c
  · rw [h.lower i hic, List.mem_filter]
    constructor
    · rintro ⟨he, hslot⟩
      exact ⟨i, hic, he, by simpa using hslot⟩
    · rintro ⟨j, hj, he, hslot⟩
      obtain rfl : j = i := by
        rcases h.near j hj e he with h1 | h1 <;> omega
      exact ⟨he, by simpa using hslot⟩
  · obtain ⟨k, hk, rfl⟩ := upper_half hi hic
    rw [h.upper k hk, List.mem_reverse, List.mem_filter]
    constructor
    · rintro ⟨he, hslot⟩
      exact ⟨k, hk, he, (h.near k hk e he).resolve_left (by simpa using hslot)⟩
    · rintro ⟨j, hj, he, hslot⟩
      obtain rfl : j = k := by
        rcases h.near j hj e he with h1 | h1 <;> omega
      refine ⟨he, ?_⟩
      rw [hslot]
      simpa using (by omega : ¬ c = 0)

theorem Splits.nodup (h : Splits slot c t t') (hnodup : ∀ i < c, ((t i).map key).Nodup) {i : Nat}
    (hi : i < c * 2) : ((t' i).map key).Nodup := by
  by_cases hic : i < c
  · rw [h.lower i hic]
    exact (hnodup i hic).sublist (List.filter_sublist.map _)
  · obtain ⟨k, hk, rfl⟩ := upper_half hi hic
    rw [h.upper k hk, List.map_reverse, List.nodup_reverse]
    exact (hnodup k hk).sublist (List.filter_sublist.map _)

theorem Joins.mem_iff (h : Joins slot c t t') {i : Nat} (hi : i < c) (e : E) :
    e ∈ t' i ↔ ∃ j < c * 2, e ∈ t j ∧ slot e = i := by
  rw [h.bucket i hi, List.mem_append, List.mem_reverse]
  constructor
  · intro he
    have hslot := h.near i hi e he
    rcases he with he | he
    · exact ⟨c + i, by omega, he, hslot⟩
    · exact ⟨i, by omega, he, hslot⟩
  · rintro ⟨j, hj, he, hslot⟩
    by_cases hjc : j < c
    · rw [← hslot, h.near j hjc e (Or.inr he)]
      exact Or.inr he
    · obtain ⟨k, hk, rfl⟩ := upper_half hj hjc
      rw [Nat.add_comm] at he
      rw [← hslot, h.near k hk e (Or.inl he)]
      exact Or.inl he

/-- No key comes from both buckets, since each has its place in one of them. -/
theorem Joins.nodup (h : Joins slot c t t') (hchained : Chained key place (c * 2) t) {i : Nat}
    (hi : i < c) : ((t' i).map key).Nodup := by
  rw [h.bucket i hi, List.map_append, List.map_reverse, List.nodup_append']
  refine ⟨List.nodup_reverse.mpr (hchained.nodup _ (by omega)), hchained.nodup _ (by omega), ?_⟩
  intro k h1 h2
  obtain ⟨d, hd, rfl⟩ := List.mem_map.mp (List.mem_reverse.mp h1)
  obtain ⟨e, he, hkey⟩ := List.mem_map.mp h2
  have hd' := hchained.home _ (by omega) d hd
  have he' := hchained.home _ (by omega) e he
  rw [hkey] at he'
  omega

end MyServer.Chain
