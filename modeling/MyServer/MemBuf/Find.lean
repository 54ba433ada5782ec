import MyServer.MemBuf.MemBuf

/-!
# `MemBuf::find`

The scan looks for the first byte of the pattern again and again. The bytes that are left for it are counted
from the byte that was found, but it goes on behind that byte.
-/

namespace MyServer.MemBuf

/-- The place of the first `c` among `n` bytes from `p` on. -/
def memchr (mem : Nat → Byte) (c : Byte) : Nat → Nat → Option Nat
  | 0, _ => none
  | n + 1, p => if mem p = c then some p else memchr mem c n (p + 1)

def slice (mem : Nat → Byte) (p n : Nat) : Str := (List.range n).map fun k => mem (p + k)

section

variable {mem : Nat → Byte} {c : Byte} {n p q : Nat}

theorem memchr_none : memchr mem c n p = none ↔ ∀ i, p ≤ i → i < p + n → mem i ≠ c := by
  induction n generalizing p with
  | zero =>
    refine iff_of_true rfl fun i hle hlt => ?_
    omega
  | succ n ih =>
    rw [memchr]
    by_cases hp : mem p = c
    · rw [if_pos hp]
      exact iff_of_false (Option.some_ne_none p) fun hall => hall p le_rfl (by omega) hp
    · rw [if_neg hp, ih]
      constructor
      · intro hrest i hle hlt
        rcases Nat.eq_or_lt_of_le hle with rfl | hlt'
        · exact hp
        · exact hrest i hlt' (by omega)
      · exact fun hall i hle hlt => hall i (by omega) (by omega)

theorem memchr_some (h : memchr mem c n p = some q) :
    p ≤ q ∧ q < p + n ∧ mem q = c ∧ ∀ i, p ≤ i → i < q → mem i ≠ c := by
  induction n generalizing p with
  | zero => cases h
  | succ n ih =>
    rw [memchr] at h
    split_ifs at h with hp
    · cases h
      exact ⟨le_rfl, by omega, hp, fun i hle hlt => by omega⟩
    · obtain ⟨hle, hlt, hq, hbefore⟩ := ih h
      refine ⟨by omega, by omega, hq, fun i hi hiq => ?_⟩
      rcases Nat.eq_or_lt_of_le hi with rfl | hlt'
      · exact hp
      · exact hbefore i hlt' hiq

end

section

variable (mem : Nat → Byte) (nSize : Nat) (pattern : Str) (first : Byte)

/-- The place that is found, and how far bytes of the buffer are read on the way. -/
def findLoop (pPrev sizeBuf : Nat) : Option Nat × Nat :=
  match _hfound : memchr mem first sizeBuf pPrev with
  | none => (none, pPrev + sizeBuf)
  | some pLast =>
    if hend : nSize + 1 ≤ pLast + pattern.length then (none, pLast + 1)
    else if slice mem pLast pattern.length = pattern then (some pLast, pLast + pattern.length)
    else
      let r := findLoop (pLast + 1) (sizeBuf - (pLast - pPrev))
      (r.1, max (pLast + pattern.length) r.2)
termination_by nSize + 1 - pPrev
decreasing_by
  have := (memchr_some _hfound).1
  omega

end

/-- `(size_t) -1` is `none`. What lies behind the block may hold anything. -/
def find (behind : Nat → Byte) (h : Heap Byte) (m : MemBuf) (pattern : Str) (start : Nat) : Option Nat × Nat :=
  if m.nSize ≤ start then (none, 0)
  else findLoop (fun i => (m.bytes h)[i]?.getD (behind i)) m.nSize pattern (pattern.headD 0) start (m.nSize - start)

/-! ## What is found -/

/-- The first place from `start` on at which the text goes on with the pattern. -/
def IsFirst (text pattern : Str) (start : Nat) : Option Nat → Prop
  | none => ∀ i, start ≤ i → ¬pattern <+: text.drop i
  | some i => start ≤ i ∧ pattern <+: text.drop i ∧ ∀ j, start ≤ j → j < i → ¬pattern <+: text.drop j

/-- The pattern is there, or its first byte is not, or that byte stands where there is no room for the pattern. -/
def Stays (text pattern : Str) (start : Nat) : Prop :=
  (∃ i, start ≤ i ∧ pattern <+: text.drop i) ∨ (∀ i, start ≤ i → text[i]? ≠ pattern.head?) ∨
    ∃ i, start ≤ i ∧ text[i]? = pattern.head? ∧ text.length < i + pattern.length

section

variable {mem : Nat → Byte} {text pattern : Str} {first : Byte} {start pPrev sizeBuf i : Nat}

theorem head_of_occurrence (hp : first :: pattern <+: text.drop i) :
    text[i]? = some first ∧ i + (first :: pattern).length ≤ text.length := by
  have hlength := hp.length_le
  rw [List.length_drop] at hlength
  rw [List.length_cons] at hlength ⊢
  obtain ⟨rest, hrest⟩ := hp
  refine ⟨?_, by omega⟩
  have hhead := congrArg List.head? hrest
  rw [List.head?_drop] at hhead
  exact hhead.symm

theorem slice_eq (hmem : ∀ i, i < text.length → text[i]? = some (mem i)) {n : Nat} (hn : i + n ≤ text.length) :
    slice mem i n = (text.drop i).take n := by
  refine List.ext_getElem? fun k => ?_
  unfold slice
  rw [List.getElem?_map, List.getElem?_take, List.getElem?_drop]
  by_cases hk : k < n
  · rw [List.getElem?_range hk, if_pos hk, hmem (i + k) (by omega)]
    rfl
  · rw [List.getElem?_eq_none (by rw [List.length_range]; omega), if_neg hk]
    rfl

/-- The loop from a place on: what it finds is right, and when it stays inside the text. -/
theorem findLoop_spec (hmem : ∀ i, i < text.length → text[i]? = some (mem i)) (hsize : text.length ≤ pPrev + sizeBuf) :
    IsFirst text (first :: pattern) pPrev (findLoop mem text.length (first :: pattern) first pPrev sizeBuf).1 ∧
      ((findLoop mem text.length (first :: pattern) first pPrev sizeBuf).2 ≤ text.length ↔
        (∃ i, pPrev ≤ i ∧ first :: pattern <+: text.drop i) ∨
        (pPrev + sizeBuf ≤ text.length ∧ ∀ i, pPrev ≤ i → text[i]? ≠ some first) ∨
        ∃ i, pPrev ≤ i ∧ text[i]? = some first ∧ text.length < i + (first :: pattern).length) := by
  have hcandidate : ∀ {i}, text[i]? = some first → i < text.length ∧ mem i = first := by
    intro i hi
    have hlt : i < text.length := (List.getElem?_eq_some_iff.mp hi).1
    rw [hmem i hlt] at hi
    exact ⟨hlt, Option.some.inj hi⟩
  induction hn : text.length + 1 - pPrev using Nat.strong_induction_on generalizing pPrev sizeBuf with
  | h n ih =>
  rw [findLoop]
  split
  · rename_i hnone
    rw [memchr_none] at hnone
    have hno : ∀ i, pPrev ≤ i → text[i]? ≠ some first := by
      intro i hle hi
      obtain ⟨hlt, hfirst⟩ := hcandidate hi
      exact hnone i hle (by omega) hfirst
    refine ⟨fun i hle hp => hno i hle (head_of_occurrence hp).1, ?_⟩
    constructor
    · exact fun hreach => Or.inr (Or.inl ⟨hreach, hno⟩)
    · rintro (⟨i, hle, hp⟩ | ⟨hreach, -⟩ | ⟨i, hle, hi, -⟩)
      · exact absurd (head_of_occurrence hp).1 (hno i hle)
      · exact hreach
      · exact absurd hi (hno i hle)
  · rename_i pLast hfound
    obtain ⟨hle, hlt, hlast, hbefore⟩ := memchr_some hfound
    have hfirst : ∀ {i}, pPrev ≤ i → text[i]? = some first → pLast ≤ i := by
      intro i hi hfirst
      by_contra hlt'
      exact hbefore i hi (by omega) (hcandidate hfirst).2
    split_ifs with hend hcmp
    · -- The place has no room for the pattern, nor has any place behind it.
      have hno : ∀ i, pPrev ≤ i → ¬first :: pattern <+: text.drop i := by
        intro i hi hp
        obtain ⟨hhead, hroom⟩ := head_of_occurrence hp
        have hplace := hfirst hi hhead
        omega
      refine ⟨hno, ?_⟩
      constructor
      · intro hreach
        refine Or.inr (Or.inr ⟨pLast, hle, ?_, by omega⟩)
        rw [hmem pLast (by exact hreach), hlast]
      · rintro (⟨i, hi, hp⟩ | ⟨hinside, hnone⟩ | ⟨i, hi, hhead, -⟩)
        · exact absurd hp (hno i hi)
        · refine absurd ?_ (hnone pLast hle)
          rw [hmem pLast (by omega), hlast]
        · have hplace := hfirst hi hhead
          have hin := (hcandidate hhead).1
          exact Nat.lt_of_le_of_lt hplace hin
    · have hroom : pLast + (first :: pattern).length ≤ text.length := by omega
      rw [slice_eq hmem hroom] at hcmp
      have hp : first :: pattern <+: text.drop pLast := List.prefix_iff_eq_take.mpr hcmp.symm
      refine ⟨⟨hle, hp, fun j hj hlt' hp' => ?_⟩, iff_of_true hroom (Or.inl ⟨pLast, hle, hp⟩)⟩
      have hplace := hfirst hj (head_of_occurrence hp').1
      omega
    · have hroom : pLast + (first :: pattern).length ≤ text.length := by omega
      rw [slice_eq hmem hroom] at hcmp
      have hnot : ¬first :: pattern <+: text.drop pLast := fun hp => hcmp (List.prefix_iff_eq_take.mp hp).symm
      have hhere : text[pLast]? = some first := by
        rw [hmem pLast (by rw [List.length_cons] at hroom; omega), hlast]
      -- From behind the place on, nothing is missed.
      have hnext : ∀ i, pPrev ≤ i → text[i]? = some first → i ≠ pLast → pLast + 1 ≤ i := by
        intro i hi hhead hne
        have hplace := hfirst hi hhead
        omega
      have hoccurs : ∀ i, pPrev ≤ i → first :: pattern <+: text.drop i → pLast + 1 ≤ i := by
        intro i hi hp
        refine hnext i hi (head_of_occurrence hp).1 ?_
        rintro rfl
        exact hnot hp
      obtain ⟨hresult, hreach⟩ := @ih (text.length + 1 - (pLast + 1)) (by omega) (pLast + 1)
        (sizeBuf - (pLast - pPrev)) (by omega) rfl
      generalize findLoop mem text.length (first :: pattern) first (pLast + 1) (sizeBuf - (pLast - pPrev)) = r
        at hresult hreach ⊢
      constructor
      · cases hr : r.1 with
        | none =>
          rw [hr] at hresult
          exact fun i hi hp => hresult i (hoccurs i hi hp) hp
        | some i =>
          rw [hr] at hresult
          obtain ⟨hi, hp, hearlier⟩ := hresult
          exact ⟨by omega, hp, fun j hj hji hp' => hearlier j (hoccurs j hj hp') hji hp'⟩
      · rw [max_le_iff, and_iff_right hroom, hreach]
        constructor
        · rintro (⟨i, hi, hp⟩ | ⟨hinside, -⟩ | ⟨i, hi, hhead, hno⟩)
          · exact Or.inl ⟨i, by omega, hp⟩
          · omega
          · exact Or.inr (Or.inr ⟨i, by omega, hhead, hno⟩)
        · rintro (⟨i, hi, hp⟩ | ⟨-, hnone⟩ | ⟨i, hi, hhead, hno⟩)
          · exact Or.inl ⟨i, hoccurs i hi hp, hp⟩
          · exact absurd hhere (hnone pLast hle)
          · refine Or.inr (Or.inr ⟨i, hnext i hi hhead ?_, hhead, hno⟩)
            rintro rfl
            omega

/-- **Where the search stays inside the buffer.** What it returns is right everywhere. -/
theorem find_iff (behind : Nat → Byte) (h : Heap Byte) (m : MemBuf) (hm : Represents h m) (pattern : Str)
    (hpattern : pattern ≠ []) (start : Nat) :
    (IsFirst (m.content h) pattern start (find behind h m pattern start).1 ∧
      (find behind h m pattern start).2 ≤ m.nSize) ↔ Stays (m.content h) pattern start := by
  obtain ⟨first, pattern, rfl⟩ := List.exists_cons_of_ne_nil hpattern
  have hlength := hm.content_length
  unfold find
  split_ifs with hstart
  · -- There is nothing from `start` on.
    have hnil : ∀ i, start ≤ i → (m.content h)[i]? = none := by
      intro i hi
      rw [List.getElem?_eq_none_iff]
      omega
    refine iff_of_true ⟨fun i hi hp => ?_, Nat.zero_le _⟩ (Or.inr (Or.inl fun i hi => ?_))
    · have hhead := (head_of_occurrence hp).1
      rw [hnil i hi] at hhead
      cases hhead
    · rw [hnil i hi]
      exact (Option.some_ne_none first).symm
  · have hmem : ∀ i, i < (m.content h).length → (m.content h)[i]? = some ((m.bytes h)[i]?.getD (behind i)) := by
      intro i hi
      rw [hlength] at hi
      have hfits := hm.size_le.trans hm.fits
      rw [content, List.getElem?_take_of_lt hi, List.getElem?_eq_getElem (by omega)]
      rfl
    obtain ⟨hresult, hreach⟩ := @findLoop_spec _ _ pattern first start (m.nSize - start) hmem (by omega)
    rw [hlength] at hresult hreach
    have hinside : start + (m.nSize - start) ≤ m.nSize := by omega
    rw [List.headD_cons, and_iff_right hresult, hreach, Stays, hlength]
    simp only [hinside, true_and, List.head?_cons, ne_eq]

end

theorem find_there : IsFirst (ascii "aab") (ascii "ab") 0
    (find (fun _ => 0) [some (ascii "aab")] ⟨some 0, 3, 3, 0, 1024, true⟩ (ascii "ab") 0).1 ∧
    (find (fun _ => 0) [some (ascii "aab")] ⟨some 0, 3, 3, 0, 1024, true⟩ (ascii "ab") 0).2 ≤ 3 := by
  have hm : Represents [some (ascii "aab")] ⟨some 0, 3, 3, 0, 1024, true⟩ := represents_block le_rfl
  exact (find_iff _ _ _ hm (ascii "ab") (by decide) 0).mpr (Or.inl ⟨1, Nat.zero_le 1, by decide⟩)

/-- After the first byte of the pattern was found in `ax`, the scan reads the byte behind the text. -/
theorem partial_reads_behind : ¬∀ (behind : Nat → Byte) (h : Heap Byte) (m : MemBuf), Represents h m → ∀ pattern ≠ [], ∀ start,
    IsFirst (m.content h) pattern start (find behind h m pattern start).1 ∧ (find behind h m pattern start).2 ≤ m.nSize := by
  intro hall
  have hm : Represents [some (ascii "ax")] ⟨some 0, 2, 2, 0, 1024, true⟩ := represents_block le_rfl
  obtain ⟨-, hreach⟩ := hall (fun _ => 0) _ _ hm (ascii "ab") (by decide) 0
  have hmem : ∀ i, i < (ascii "ax").length → (ascii "ax")[i]? = some ((ascii "ax")[i]?.getD 0) := by decide
  rcases (@findLoop_spec _ _ (ascii "b") (ch 'a') 0 2 hmem le_rfl).2.mp hreach with ⟨i, -, hp⟩ | ⟨-, hnone⟩ | ⟨i, -, hhead, hno⟩
  · obtain rfl : i = 0 := Nat.le_zero.mp (Nat.le_of_add_le_add_right (head_of_occurrence hp).2)
    exact absurd hp (by decide)
  · exact hnone 0 le_rfl rfl
  · obtain rfl : i = 1 := by
      have hlt := (List.getElem?_eq_some_iff.mp hhead).1
      simp only [ascii, List.length_cons] at hlt hno
      change i < 2 at hlt
      change 2 < i + 2 at hno
      omega
    exact absurd hhead (by decide)

end MyServer.MemBuf
