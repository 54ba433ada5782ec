import MyServer.Decimal
import MyServer.Plugin.Version

/-!
# The order of versions

Which texts `PluginInfo::convertVersion` takes, and how the numbers that it makes of them are ordered.
-/

namespace MyServer.Plugin

/-! ## Versions -/

/-- One to four components. -/
structure Version where
  first : Nat
  later : List Nat
  first_le : first ≤ 255
  later_le : ∀ n ∈ later, n ≤ 255
  later_length : later.length ≤ 3

def dotted (parts : List Str) : Str := [ch '.'].intercalate parts

namespace Version

def text (v : Version) : Str := dotted ((v.first :: v.later).map decimal)

/-- Missing components count as 0. -/
def component (v : Version) (i : Nat) : Nat := (v.first :: v.later).getD i 0

def components (v : Version) : List Nat := [v.component 0, v.component 1, v.component 2, v.component 3]

/-- Both are taken, and their numbers are ordered as they are. -/
structure Ordered (v w : Version) : Prop where
  left : convertVersion v.text ≠ -1
  right : convertVersion w.text ≠ -1
  less : convertVersion v.text < convertVersion w.text ↔ v.components < w.components
  greater : convertVersion w.text < convertVersion v.text ↔ w.components < v.components

/-- The first component is one that the regular expression takes. -/
def Allowed (n : Nat) : Prop := ¬(100 ≤ n ∧ n ≤ 109) ∧ ¬(200 ≤ n ∧ n ≤ 209)

instance (n : Nat) : Decidable (Allowed n) := inferInstanceAs (Decidable (_ ∧ _))

/-- The number is that of the version. -/
structure Taken (v : Version) : Prop where
  allowed : Allowed v.first
  notLast : v.components ≠ [255, 255, 255, 255]

end Version

open Version

/-- A zero in front of a digit. -/
def Padded (part : Str) : Prop := ∃ d < 10, part = ch '0' :: decimal d

/-- A text that is taken though it is no version: one component that is too large, or one behind the first
that starts with a zero. -/
def WronglyTaken (s : Str) : Prop :=
  (∃ n, 256 ≤ n ∧ n ≤ 299 ∧ s = decimal n) ∨
    ∃ first later, s = dotted (decimal first :: later) ∧ first ≤ 255 ∧ Allowed first ∧ later.length ≤ 3 ∧
      (∀ part ∈ later, (∃ n ≤ 255, part = decimal n) ∨ Padded part) ∧ ∃ part ∈ later, Padded part

/-! ## Components -/

theorem exists_digit {b : Byte} (h : isDigit b = true) : ∃ d < 10, b = UInt8.ofNat (48 + d) := by
  unfold isDigit at h
  rw [decide_eq_true_eq] at h
  refine ⟨b.toNat - 48, by omega, ?_⟩
  rw [Nat.add_sub_cancel' h.1, UInt8.ofNat_toNat]

theorem decimal_one : ∀ c < 10, [UInt8.ofNat (48 + c)] = decimal c := by decide

theorem decimal_append {n d : Nat} (hn : 0 < n) (hd : d < 10) :
    decimal (10 * n + d) = decimal n ++ [UInt8.ofNat (48 + d)] := by
  rw [decimal_one d hd, decimal, decimal, decimal, ← List.map_append, Nat.toDigits_append_toDigits (by norm_num) hn hd]

theorem decimal_two {b c : Nat} (hb : b < 10) (hc : c < 10) (hpos : b ≠ 0) :
    [UInt8.ofNat (48 + b), UInt8.ofNat (48 + c)] = decimal (10 * b + c) := by
  rw [decimal_append (Nat.pos_of_ne_zero hpos) hc, ← decimal_one b hb]
  rfl

theorem decimal_three {a b c : Nat} (ha : a < 10) (hb : b < 10) (hc : c < 10) (hpos : a ≠ 0) :
    [UInt8.ofNat (48 + a), UInt8.ofNat (48 + b), UInt8.ofNat (48 + c)] = decimal (100 * a + 10 * b + c) := by
  rw [show 100 * a + 10 * b + c = 10 * (10 * a + b) + c by omega, decimal_append (by omega) hc,
    decimal_append (by omega) hb, ← decimal_one a ha]
  rfl

/-- A small number has up to three digits. -/
theorem exists_digits {n : Nat} (hn : n ≤ 299) :
    (n < 10 ∧ decimal n = [UInt8.ofNat (48 + n)]) ∨
      (∃ b c, b ≠ 0 ∧ b < 10 ∧ c < 10 ∧ n = 10 * b + c ∧
        decimal n = [UInt8.ofNat (48 + b), UInt8.ofNat (48 + c)]) ∨
      ∃ a b c, (a = 1 ∨ a = 2) ∧ b < 10 ∧ c < 10 ∧ n = 100 * a + 10 * b + c ∧
        decimal n = [UInt8.ofNat (48 + a), UInt8.ofNat (48 + b), UInt8.ofNat (48 + c)] := by
  rcases Nat.lt_or_ge n 10 with hone | hone
  · exact Or.inl ⟨hone, (decimal_one n hone).symm⟩
  rcases Nat.lt_or_ge n 100 with htwo | htwo
  · have hsplit : n = 10 * (n / 10) + n % 10 := by omega
    refine Or.inr (Or.inl ⟨n / 10, n % 10, by omega, by omega, by omega, hsplit, ?_⟩)
    rw [decimal_two (by omega) (by omega) (by omega), ← hsplit]
  · have hsplit : n = 100 * (n / 100) + 10 * (n / 10 % 10) + n % 10 := by omega
    refine Or.inr (Or.inr ⟨n / 100, n / 10 % 10, n % 10, by omega, by omega, by omega, hsplit, ?_⟩)
    rw [decimal_three (by omega) (by omega) (by omega) (by omega), ← hsplit]

theorem isDigit_ofNat {d : Nat} (h : d < 10) : isDigit (UInt8.ofNat (48 + d)) = true := by
  have hall : ∀ d < 10, isDigit (UInt8.ofNat (48 + d)) = true := by decide
  exact hall d h

theorem isPositive_iff {d : Nat} (h : d < 10) : isPositive (UInt8.ofNat (48 + d)) = true ↔ d ≠ 0 := by
  have hall : ∀ d < 10, isPositive (UInt8.ofNat (48 + d)) = true ↔ d ≠ 0 := by decide
  exact hall d h

theorem isHundreds_iff {d : Nat} (h : d < 10) : isHundreds (UInt8.ofNat (48 + d)) = true ↔ d = 1 ∨ d = 2 := by
  have hall : ∀ d < 10, isHundreds (UInt8.ofNat (48 + d)) = true ↔ d = 1 ∨ d = 2 := by decide
  exact hall d h

theorem isDigit_of_isPositive {b : Byte} (h : isPositive b = true) : isDigit b = true := by
  unfold isPositive at h
  unfold isDigit
  rw [decide_eq_true_eq] at h ⊢
  omega

theorem isDigit_of_isHundreds {b : Byte} (h : isHundreds b = true) : isDigit b = true := by
  unfold isHundreds at h
  rw [decide_eq_true_eq] at h
  rcases h with rfl | rfl <;> decide

/-- What the expression takes in front. -/
theorem firstComponent_iff (part : Str) :
    firstComponent part = true ↔ ∃ n ≤ 299, Allowed n ∧ part = decimal n := by
  constructor
  · intro h
    unfold firstComponent at h
    split at h
    · obtain ⟨d, hd, rfl⟩ := exists_digit h
      exact ⟨d, by omega, by unfold Allowed; omega, decimal_one d hd⟩
    · rw [Bool.and_eq_true] at h
      obtain ⟨b, hb, rfl⟩ := exists_digit (isDigit_of_isPositive h.1)
      obtain ⟨c, hc, rfl⟩ := exists_digit h.2
      exact ⟨10 * b + c, by omega, by unfold Allowed; omega, decimal_two hb hc ((isPositive_iff hb).mp h.1)⟩
    · rw [Bool.and_eq_true, Bool.and_eq_true] at h
      obtain ⟨a, ha, rfl⟩ := exists_digit (isDigit_of_isHundreds h.1.1)
      obtain ⟨b, hb, rfl⟩ := exists_digit (isDigit_of_isPositive h.1.2)
      obtain ⟨c, hc, rfl⟩ := exists_digit h.2
      have hhundreds := (isHundreds_iff ha).mp h.1.1
      have htens := (isPositive_iff hb).mp h.1.2
      exact ⟨100 * a + 10 * b + c, by omega, by unfold Allowed; omega, decimal_three ha hb hc (by omega)⟩
    · cases h
  · rintro ⟨n, hn, hallowed, rfl⟩
    unfold Allowed at hallowed
    rcases exists_digits hn with ⟨hlt, htext⟩ | ⟨b, c, hpos, hb, hc, rfl, htext⟩ | ⟨a, b, c, ha, hb, hc, rfl, htext⟩
    · rw [htext, firstComponent, isDigit_ofNat hlt]
    · rw [htext, firstComponent, (isPositive_iff hb).mpr hpos, isDigit_ofNat hc]
      rfl
    · rw [htext, firstComponent, (isHundreds_iff (by omega)).mpr ha, (isPositive_iff hb).mpr (by omega),
        isDigit_ofNat hc]
      rfl

/-- What it takes behind a dot. -/
theorem laterComponent_iff (part : Str) :
    laterComponent part = true ↔ (∃ n ≤ 299, part = decimal n) ∨ Padded part := by
  constructor
  · intro h
    unfold laterComponent at h
    split at h
    · obtain ⟨d, hd, rfl⟩ := exists_digit h
      exact Or.inl ⟨d, by omega, decimal_one d hd⟩
    · rw [Bool.and_eq_true] at h
      obtain ⟨b, hb, rfl⟩ := exists_digit h.1
      obtain ⟨c, hc, rfl⟩ := exists_digit h.2
      rcases Nat.eq_zero_or_pos b with rfl | hpos
      · right
        refine ⟨c, hc, ?_⟩
        rw [← decimal_one c hc]
        rfl
      · exact Or.inl ⟨10 * b + c, by omega, decimal_two hb hc (by omega)⟩
    · rw [Bool.and_eq_true, Bool.and_eq_true] at h
      obtain ⟨a, ha, rfl⟩ := exists_digit (isDigit_of_isHundreds h.1.1)
      obtain ⟨b, hb, rfl⟩ := exists_digit h.1.2
      obtain ⟨c, hc, rfl⟩ := exists_digit h.2
      have hhundreds := (isHundreds_iff ha).mp h.1.1
      exact Or.inl ⟨100 * a + 10 * b + c, by omega, decimal_three ha hb hc (by omega)⟩
    · cases h
  · rintro (⟨n, hn, rfl⟩ | ⟨d, hd, rfl⟩)
    · rcases exists_digits hn with ⟨hlt, htext⟩ | ⟨b, c, -, hb, hc, rfl, htext⟩ | ⟨a, b, c, ha, hb, hc, rfl, htext⟩
      · rw [htext, laterComponent, isDigit_ofNat hlt]
      · rw [htext, laterComponent, isDigit_ofNat hb, isDigit_ofNat hc]
        rfl
      · rw [htext, laterComponent, (isHundreds_iff (by omega)).mpr ha, isDigit_ofNat hb, isDigit_ofNat hc]
        rfl
    · have hall : ∀ d < 10, laterComponent (ch '0' :: decimal d) = true := by decide
      exact hall d hd

theorem atoi_decimal (n : Nat) : atoi (decimal n) = n := leadingNumber_decimal n

theorem atoi_padded {d : Nat} (h : d < 10) : atoi (ch '0' :: decimal d) = d := by
  have hall : ∀ d < 10, atoi (ch '0' :: decimal d) = d := by decide
  exact hall d h

/-- A component has digits and no dot. -/
theorem dot_notMem_decimal (n : Nat) : ch '.' ∉ decimal n := fun h => absurd (isDigit_of_mem_decimal h) (by decide)

theorem dot_notMem_padded {part : Str} (h : Padded part) : ch '.' ∉ part := by
  obtain ⟨d, -, rfl⟩ := h
  rw [List.mem_cons, not_or]
  exact ⟨by decide, dot_notMem_decimal d⟩

theorem splitOn_dotted {parts : List Str} (hdots : ∀ part ∈ parts, ch '.' ∉ part) (hne : parts ≠ []) :
    (dotted parts).splitOn (ch '.') = parts := List.splitOn_intercalate _ hdots hne

theorem dotted_splitOn (s : Str) : dotted (s.splitOn (ch '.')) = s := List.intercalate_splitOn _

/-! ## The number -/

theorem toInt_eq {n : Nat} (h : n < 2 ^ 32) : toInt n = if n < 2 ^ 31 then (n : Int) else n - 2 ^ 32 := by
  have hmod : (BitVec.ofNat 32 n).toNat = n := by
    rw [BitVec.toNat_ofNat]
    exact Nat.mod_eq_of_lt h
  unfold toInt
  rw [BitVec.toInt_eq_toNat_cond, hmod]
  split_ifs <;> omega

theorem toInt_eq_minus {n : Nat} (h : n < 2 ^ 32) : toInt n = -1 ↔ n + 1 = 2 ^ 32 := by
  rw [toInt_eq h]
  by_cases hsmall : n < 2 ^ 31
  · rw [if_pos hsmall]
    omega
  · rw [if_neg hsmall]
    omega

/-- The regular expression on the components of a text. -/
theorem convertVersion_parts {s first : Str} {later : List Str} (hparts : s.splitOn (ch '.') = first :: later)
    (hregex : regexMatches (first :: later) = true) :
    convertVersion s =
      if later = [] then toInt (atoi first * 2 ^ 24)
      else
        let n := fun i => atoi ((first :: later).getD i [])
        if 255 < n 0 ∨ 255 < n 1 ∨ 255 < n 2 ∨ 255 < n 3 then -1 else toInt (pack (n 0) (n 1) (n 2) (n 3)) := by
  unfold convertVersion
  rw [hparts]
  dsimp only
  rw [if_pos hregex]
  cases later with
  | nil => rw [if_pos rfl]
  | cons second later => rw [if_neg (List.cons_ne_nil second later)]

theorem convertVersion_refused {s : Str} (h : regexMatches (s.splitOn (ch '.')) = false) : convertVersion s = -1 := by
  unfold convertVersion
  dsimp only
  rw [if_neg (by rw [h]; exact Bool.false_ne_true)]

namespace Version

variable (v w : Version)

theorem component_le (i : Nat) : v.component i ≤ 255 := by
  have hall : ∀ n ∈ v.first :: v.later, n ≤ 255 := List.forall_mem_cons.mpr ⟨v.first_le, v.later_le⟩
  unfold component
  rw [List.getD_eq_getElem?_getD]
  cases hget : (v.first :: v.later)[i]? with
  | none => exact Nat.zero_le _
  | some n => exact hall n (List.mem_of_getElem? hget)

theorem splitOn_text : v.text.splitOn (ch '.') = (v.first :: v.later).map decimal := by
  apply splitOn_dotted
  · intro part hpart
    obtain ⟨n, -, rfl⟩ := List.mem_map.mp hpart
    exact dot_notMem_decimal n
  · exact List.cons_ne_nil _ _

theorem atoi_component (i : Nat) : atoi (((v.first :: v.later).map decimal).getD i []) = v.component i := by
  unfold component
  rw [List.getD_eq_getElem?_getD, List.getD_eq_getElem?_getD, List.getElem?_map]
  cases (v.first :: v.later)[i]? with
  | none => rfl
  | some n => exact atoi_decimal n

theorem regexMatches_text : regexMatches ((v.first :: v.later).map decimal) = true ↔ Allowed v.first := by
  have hlater : ((v.later.map decimal).all laterComponent) = true := by
    rw [List.all_eq_true]
    intro part hpart
    obtain ⟨n, hn, rfl⟩ := List.mem_map.mp hpart
    exact (laterComponent_iff _).mpr (Or.inl ⟨n, by have := v.later_le n hn; omega, rfl⟩)
  have hlength := v.later_length
  have hfirst := v.first_le
  rw [List.map_cons, regexMatches, hlater, Bool.and_true, List.length_map, Bool.and_eq_true, decide_eq_true_eq,
    firstComponent_iff]
  constructor
  · rintro ⟨⟨n, -, hallowed, hdecimal⟩, -⟩
    have hsame : v.first = n := by rw [← atoi_decimal v.first, hdecimal, atoi_decimal]
    rwa [hsame]
  · exact fun hallowed => ⟨⟨v.first, by omega, hallowed, rfl⟩, hlength⟩

/-- The number of a version. -/
theorem convertVersion_text : convertVersion v.text =
    if Allowed v.first then toInt (pack (v.component 0) (v.component 1) (v.component 2) (v.component 3))
    else -1 := by
  by_cases hallowed : Allowed v.first
  · rw [if_pos hallowed]
    have hregex := (regexMatches_text v).mpr hallowed
    have hle : ¬(255 < v.component 0 ∨ 255 < v.component 1 ∨ 255 < v.component 2 ∨ 255 < v.component 3) := by
      have h₀ := component_le v 0
      have h₁ := component_le v 1
      have h₂ := component_le v 2
      have h₃ := component_le v 3
      omega
    have hparts := splitOn_text v
    rw [List.map_cons] at hparts hregex
    rw [convertVersion_parts hparts hregex]
    by_cases hlater : v.later = []
    · have hrest : ∀ i, v.component (i + 1) = 0 := fun i => by unfold component; rw [hlater]; rfl
      have hfirst : v.component 0 = v.first := rfl
      have hpack : pack v.first 0 0 0 = v.first * 2 ^ 24 := by
        unfold pack
        omega
      rw [if_pos (by rw [hlater]; rfl), atoi_decimal, hrest 0, hrest 1, hrest 2, hfirst, hpack]
    · rw [if_neg (by rwa [List.map_eq_nil_iff])]
      have hatoi := atoi_component v
      rw [List.map_cons] at hatoi
      simp only [hatoi]
      rw [if_neg hle]
  · rw [if_neg hallowed]
    apply convertVersion_refused
    rw [splitOn_text, ← Bool.not_eq_true, regexMatches_text]
    exact hallowed

end Version

/-! ## The order -/

theorem pack_lt {a b c d : Nat} (ha : a ≤ 255) (hb : b ≤ 255) (hc : c ≤ 255) (hd : d ≤ 255) :
    pack a b c d < 2 ^ 32 ∧ (pack a b c d < 2 ^ 31 ↔ a < 128) ∧
      (pack a b c d + 1 = 2 ^ 32 ↔ a = 255 ∧ b = 255 ∧ c = 255 ∧ d = 255) := by
  unfold pack
  omega

/-- The places of the components keep their order. -/
theorem pack_lt_pack {a b c d a' b' c' d' : Nat} (hb : b ≤ 255) (hc : c ≤ 255) (hd : d ≤ 255) (hb' : b' ≤ 255)
    (hc' : c' ≤ 255) (hd' : d' ≤ 255) :
    pack a b c d < pack a' b' c' d' ↔ [a, b, c, d] < [a', b', c', d'] := by
  have hlist : [a, b, c, d] < [a', b', c', d'] ↔
      a < a' ∨ a = a' ∧ (b < b' ∨ b = b' ∧ (c < c' ∨ c = c' ∧ d < d')) := by
    simp [List.cons_lt_cons_iff]
  rw [hlist]
  unfold pack
  omega

namespace Version

variable (v w : Version)

def packed : Nat := pack (v.component 0) (v.component 1) (v.component 2) (v.component 3)

theorem packed_lt : v.packed < 2 ^ 32 ∧ (v.packed < 2 ^ 31 ↔ v.first < 128) ∧
    (v.packed + 1 = 2 ^ 32 ↔ v.components = [255, 255, 255, 255]) := by
  have hpack := pack_lt (component_le v 0) (component_le v 1) (component_le v 2) (component_le v 3)
  have hcomponents : v.components = [255, 255, 255, 255] ↔
      v.component 0 = 255 ∧ v.component 1 = 255 ∧ v.component 2 = 255 ∧ v.component 3 = 255 := by
    simp [components]
  rw [hcomponents]
  exact hpack

theorem convertVersion_ne_iff : convertVersion v.text ≠ -1 ↔ v.Taken := by
  obtain ⟨hlt, -, hlast⟩ := packed_lt v
  have htaken : v.Taken ↔ Allowed v.first ∧ v.components ≠ [255, 255, 255, 255] :=
    ⟨fun h => ⟨h.allowed, h.notLast⟩, fun h => ⟨h.1, h.2⟩⟩
  rw [htaken, convertVersion_text, Ne, Ne, ← hlast]
  by_cases hallowed : Allowed v.first
  · rw [if_pos hallowed]
    change ¬toInt v.packed = -1 ↔ _
    rw [toInt_eq_minus hlt, and_iff_right hallowed]
  · rw [if_neg hallowed]
    exact ⟨fun h => absurd rfl h, fun h => absurd h.1 hallowed⟩

theorem ordered_iff : Ordered v w ↔ v.Taken ∧ w.Taken ∧ (v.first < 128 ↔ w.first < 128) := by
  obtain ⟨hlt, hsign, -⟩ := packed_lt v
  obtain ⟨hlt', hsign', -⟩ := packed_lt w
  have hless := @pack_lt_pack (v.component 0) _ _ _ (w.component 0) _ _ _ (component_le v 1) (component_le v 2)
    (component_le v 3) (component_le w 1) (component_le w 2) (component_le w 3)
  have hgreater := @pack_lt_pack (w.component 0) _ _ _ (v.component 0) _ _ _ (component_le w 1) (component_le w 2)
    (component_le w 3) (component_le v 1) (component_le v 2) (component_le v 3)
  change v.packed < w.packed ↔ v.components < w.components at hless
  change w.packed < v.packed ↔ w.components < v.components at hgreater
  have hnumber : ∀ u : Version, u.Taken → convertVersion u.text = toInt u.packed := by
    intro u hu
    rw [convertVersion_text, if_pos hu.allowed]
    rfl
  constructor
  · rintro ⟨hleft, hright, hcompare, -⟩
    have hv := (convertVersion_ne_iff v).mp hleft
    have hw := (convertVersion_ne_iff w).mp hright
    refine ⟨hv, hw, ?_⟩
    rw [hnumber v hv, hnumber w hw, toInt_eq hlt, toInt_eq hlt', ← hless] at hcompare
    split_ifs at hcompare <;> omega
  · rintro ⟨hv, hw, hsame⟩
    refine ⟨(convertVersion_ne_iff v).mpr hv, (convertVersion_ne_iff w).mpr hw, ?_, ?_⟩
    · rw [hnumber v hv, hnumber w hw, toInt_eq hlt, toInt_eq hlt', ← hless]
      split_ifs <;> omega
    · rw [hnumber v hv, hnumber w hw, toInt_eq hlt, toInt_eq hlt', ← hgreater]
      split_ifs <;> omega

end Version

/-! ## Other texts -/

/-- What is taken wrongly has these components. -/
theorem WronglyTaken.parts {s : Str} (h : WronglyTaken s) : ∃ first later, s.splitOn (ch '.') = first :: later ∧
    regexMatches (first :: later) = true ∧ (later = [] → 256 ≤ atoi first) ∧
      (later ≠ [] → (∀ part ∈ first :: later, atoi part ≤ 255) ∧ ∃ part ∈ later, atoi part < 10) := by
  rcases h with ⟨n, hlow, hhigh, rfl⟩ | ⟨n, later, rfl, hn, hallowed, hlength, hlater, hpadded⟩
  · refine ⟨decimal n, [], List.splitOn_eq_singleton (dot_notMem_decimal n), ?_, ?_, fun h => absurd rfl h⟩
    · have hfirst := (firstComponent_iff _).mpr ⟨n, hhigh, ⟨by omega, by omega⟩, rfl⟩
      rw [regexMatches, hfirst]
      rfl
    · rw [atoi_decimal]
      exact fun _ => hlow
  · have hdots : ∀ part ∈ decimal n :: later, ch '.' ∉ part := by
      refine List.forall_mem_cons.mpr ⟨dot_notMem_decimal n, fun part hpart => ?_⟩
      rcases hlater part hpart with ⟨m, -, rfl⟩ | hzero
      · exact dot_notMem_decimal m
      · exact dot_notMem_padded hzero
    obtain ⟨part, hpart, d, hd, rfl⟩ := hpadded
    refine ⟨decimal n, later, splitOn_dotted hdots (List.cons_ne_nil _ _), ?_, ?_, ?_⟩
    · have hfirst := (firstComponent_iff _).mpr ⟨n, by omega, hallowed, rfl⟩
      have hall : later.all laterComponent = true := by
        rw [List.all_eq_true]
        intro part hpart
        rcases hlater part hpart with ⟨m, hm, rfl⟩ | hzero
        · exact (laterComponent_iff _).mpr (Or.inl ⟨m, by omega, rfl⟩)
        · exact (laterComponent_iff _).mpr (Or.inr hzero)
      rw [regexMatches, hfirst, hall, decide_eq_true hlength]
      rfl
    · exact fun hnil => absurd (hnil ▸ hpart) List.not_mem_nil
    · intro _
      refine ⟨List.forall_mem_cons.mpr ⟨by rw [atoi_decimal]; exact hn, fun part hpart => ?_⟩, _, hpart, ?_⟩
      · rcases hlater part hpart with ⟨m, hm, rfl⟩ | ⟨e, he, rfl⟩
        · rw [atoi_decimal]
          exact hm
        · rw [atoi_padded he]
          omega
      · rw [atoi_padded hd]
        exact hd

/-- What the expression takes and is no version is taken wrongly, or has a component that is too large. -/
theorem wronglyTaken_of_regex {s first : Str} {later : List Str} (hparts : s.splitOn (ch '.') = first :: later)
    (hregex : regexMatches (first :: later) = true) (hother : ∀ v : Version, v.text ≠ s)
    (hle : later ≠ [] → ∀ part ∈ first :: later, atoi part ≤ 255) : WronglyTaken s := by
  have hs : s = dotted (first :: later) := by rw [← hparts, dotted_splitOn]
  rw [regexMatches, Bool.and_eq_true, Bool.and_eq_true, decide_eq_true_eq, List.all_eq_true] at hregex
  obtain ⟨⟨hfirst, hlength⟩, hlater⟩ := hregex
  obtain ⟨n, hn, hallowed, rfl⟩ := (firstComponent_iff _).mp hfirst
  cases later with
  | nil =>
    left
    refine ⟨n, ?_, hn, by rw [hs]; exact List.intercalate_singleton⟩
    by_contra hsmall
    refine hother ⟨n, [], by omega, nofun, Nat.zero_le _⟩ ?_
    rw [hs]
    rfl
  | cons second later =>
    right
    obtain ⟨hnle, hlaterLe⟩ := List.forall_mem_cons.mp (hle (List.cons_ne_nil _ _))
    rw [atoi_decimal] at hnle
    have hshape : ∀ part ∈ second :: later, (∃ m ≤ 255, part = decimal m) ∨ Padded part := by
      intro part hpart
      rcases (laterComponent_iff _).mp (hlater part hpart) with ⟨m, -, rfl⟩ | hzero
      · have hm := hlaterLe _ hpart
        rw [atoi_decimal] at hm
        exact Or.inl ⟨m, hm, rfl⟩
      · exact Or.inr hzero
    refine ⟨n, second :: later, hs, hnle, hallowed, hlength, hshape, ?_⟩
    by_contra hnone
    have hdecimal : ∀ part ∈ second :: later, ∃ m ≤ 255, part = decimal m := fun part hpart =>
      (hshape part hpart).resolve_right fun hzero => hnone ⟨part, hpart, hzero⟩
    -- Without a padded component it is a version.
    obtain ⟨ms, hms, hmsLe⟩ : ∃ ms : List Nat, second :: later = ms.map decimal ∧ ∀ m ∈ ms, m ≤ 255 := by
      refine ⟨(second :: later).map atoi, ?_, ?_⟩
      · have hback : ∀ part ∈ second :: later, (decimal ∘ atoi) part = part := by
          intro part hpart
          obtain ⟨m, -, rfl⟩ := hdecimal part hpart
          exact congrArg decimal (atoi_decimal m)
        rw [List.map_map, List.map_congr_left hback, List.map_id']
      · intro m hm
        obtain ⟨part, hpart, rfl⟩ := List.mem_map.mp hm
        exact hlaterLe part hpart
    have hmsLength : ms.length ≤ 3 := by
      rw [hms, List.length_map] at hlength
      exact hlength
    have htext : Version.text ⟨n, ms, hnle, hmsLe, hmsLength⟩ = dotted (decimal n :: ms.map decimal) := rfl
    exact hother ⟨n, ms, hnle, hmsLe, hmsLength⟩ (by rw [htext, hs, hms])

theorem refused_iff {s : Str} (hother : ∀ v : Version, v.text ≠ s) : convertVersion s = -1 ↔ ¬WronglyTaken s := by
  obtain ⟨first, later, hparts⟩ := List.exists_cons_of_ne_nil (List.splitOn_ne_nil (ch '.') s)
  by_cases hregex : regexMatches (first :: later) = true
  · rw [convertVersion_parts hparts hregex]
    -- A component of one digit makes it another number than -1.
    have hnumber : ∀ a b c d : Nat, a ≤ 255 → b ≤ 255 → c ≤ 255 → d ≤ 255 →
        (toInt (pack a b c d) = -1 ↔ a = 255 ∧ b = 255 ∧ c = 255 ∧ d = 255) := by
      intro a b c d ha hb hc hd
      obtain ⟨hlt, -, hlast⟩ := pack_lt ha hb hc hd
      rw [← hlast, toInt_eq_minus hlt]
    constructor
    · intro hminus hwrong
      obtain ⟨first', later', hparts', -, hsingle, hseveral⟩ := hwrong.parts
      obtain ⟨rfl, rfl⟩ := List.cons.inj (hparts.symm.trans hparts')
      by_cases hlater : later = []
      · have hshift : atoi first * 2 ^ 24 % 2 ^ 32 ≠ 2 ^ 32 - 1 := by omega
        rw [if_pos hlater] at hminus
        have hmod := congrArg (BitVec.ofInt 32) hminus
        unfold toInt at hmod
        rw [BitVec.ofInt_toInt] at hmod
        have htoNat := congrArg BitVec.toNat hmod
        rw [BitVec.toNat_ofNat] at htoNat
        exact hshift htoNat
      · obtain ⟨hle, part, hpart, hsmall⟩ := hseveral hlater
        have hget : ∀ i, atoi ((first :: later).getD i []) ≤ 255 := by
          intro i
          rw [List.getD_eq_getElem?_getD]
          cases hi : (first :: later)[i]? with
          | none => exact Nat.zero_le _
          | some p => exact hle p (List.mem_of_getElem? hi)
        rw [if_neg hlater] at hminus
        dsimp only at hminus
        have h₀ := hget 0
        have h₁ := hget 1
        have h₂ := hget 2
        have h₃ := hget 3
        rw [if_neg (by omega), hnumber _ _ _ _ h₀ h₁ h₂ h₃] at hminus
        obtain ⟨-, hlast₁, hlast₂, hlast₃⟩ := hminus
        rw [regexMatches, Bool.and_eq_true, Bool.and_eq_true, decide_eq_true_eq] at hregex
        obtain ⟨i, hi, rfl⟩ := List.getElem_of_mem hpart
        have hplace : (first :: later).getD (i + 1) [] = later[i] := by
          rw [List.getD_eq_getElem?_getD, List.getElem?_cons_succ, List.getElem?_eq_getElem hi, Option.getD_some]
        rw [← hplace] at hsmall
        have hone : ∀ j, (first :: later).getD j [] = (first :: later).getD (i + 1) [] →
            atoi ((first :: later).getD j []) ≠ 255 := fun j hj => by rw [hj]; omega
        obtain rfl | rfl | rfl : i = 0 ∨ i = 1 ∨ i = 2 := by omega
        · exact hone 1 rfl hlast₁
        · exact hone 2 rfl hlast₂
        · exact hone 3 rfl hlast₃
    · intro hright
      by_contra hminus
      apply hright
      refine wronglyTaken_of_regex hparts hregex hother fun hlater part hpart => ?_
      by_contra hlarge
      apply hminus
      obtain ⟨i, hi, rfl⟩ := List.getElem_of_mem hpart
      rw [regexMatches, Bool.and_eq_true, Bool.and_eq_true, decide_eq_true_eq] at hregex
      have hplace : (first :: later).getD i [] = (first :: later)[i] := by
        rw [List.getD_eq_getElem?_getD, List.getElem?_eq_getElem hi, Option.getD_some]
      rw [← hplace] at hlarge
      rw [List.length_cons] at hi
      rw [if_neg hlater]
      dsimp only
      rw [if_pos]
      obtain rfl | rfl | rfl | rfl : i = 0 ∨ i = 1 ∨ i = 2 ∨ i = 3 := by omega
      · exact Or.inl (Nat.not_le.mp hlarge)
      · exact Or.inr (Or.inl (Nat.not_le.mp hlarge))
      · exact Or.inr (Or.inr (Or.inl (Nat.not_le.mp hlarge)))
      · exact Or.inr (Or.inr (Or.inr (Nat.not_le.mp hlarge)))
  · have hrefused : regexMatches (s.splitOn (ch '.')) = false := by
      rw [hparts]
      exact Bool.not_eq_true _ ▸ hregex
    refine ⟨fun _ hwrong => ?_, fun _ => convertVersion_refused hrefused⟩
    obtain ⟨first', later', hparts', hmatches, -⟩ := hwrong.parts
    obtain ⟨rfl, rfl⟩ := List.cons.inj (hparts.symm.trans hparts')
    exact hregex hmatches

/-- **Versions compare like their components**, and nothing else is taken, but for a few first components and a
few texts. All callers make their string from a `char*`. -/
theorem converted_iff (v w : Version) (s : Str) (hother : ∀ u : Version, u.text ≠ cstr s) :
    (Version.Ordered v w ↔ v.Taken ∧ w.Taken ∧ (v.first < 128 ↔ w.first < 128)) ∧
      (convertVersion (cstr s) = -1 ↔ ¬WronglyTaken (cstr s)) :=
  ⟨Version.ordered_iff v w, refused_iff hother⟩

theorem other_letter (u : Version) : u.text ≠ ascii "x" := by
  intro htext
  have hparts := u.splitOn_text
  rw [htext] at hparts
  have hletter : (ascii "x").splitOn (ch '.') = [ascii "x"] := by decide
  rw [hletter, List.map_cons] at hparts
  have hmem : ch 'x' ∈ decimal u.first := by
    rw [← (List.cons.inj hparts).1]
    decide
  exact absurd (isDigit_of_mem_decimal hmem) (by decide)

theorem not_wronglyTaken_letter : ¬WronglyTaken (ascii "x") := by
  intro hwrong
  obtain ⟨first, later, hparts, hregex, -⟩ := hwrong.parts
  rw [← hparts] at hregex
  revert hregex
  decide

theorem converted_two : ∃ v w : Version, v.text = ascii "1.2" ∧ w.text = ascii "1.2.3" ∧ Version.Ordered v w ∧
    convertVersion (cstr (ascii "x")) = -1 := by
  have hletter : cstr (ascii "x") = ascii "x" := by decide
  have hboth := converted_iff ⟨1, [2], by decide, by decide, by decide⟩ ⟨1, [2, 3], by decide, by decide, by decide⟩
    (ascii "x") (by rw [hletter]; exact other_letter)
  refine ⟨_, _, by decide, by decide +kernel, hboth.1.mpr ⟨⟨?_, ?_⟩, ⟨?_, ?_⟩, ?_⟩, hboth.2.mpr ?_⟩
  · decide
  · decide
  · decide
  · decide
  · decide
  · rw [hletter]
    exact not_wronglyTaken_letter

/-- A version with 100 in front is refused. -/
theorem not_converted : ¬∀ (v w : Version) (s : Str), (∀ u : Version, u.text ≠ cstr s) →
    Version.Ordered v w ∧ convertVersion (cstr s) = -1 := by
  intro hall
  have hletter : cstr (ascii "x") = ascii "x" := by decide
  obtain ⟨hordered, -⟩ := hall ⟨100, [], by decide, by decide, by decide⟩ ⟨100, [], by decide, by decide, by decide⟩
    (ascii "x") (by rw [hletter]; exact other_letter)
  exact hordered.left (by decide)

end MyServer.Plugin
