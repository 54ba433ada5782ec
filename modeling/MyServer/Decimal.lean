import MyServer.Bytes

/-!
# Decimal numbers as `printf` writes them and `atoll` reads them
-/

namespace MyServer

def isDigit (b : Byte) : Bool := 48 ≤ b.toNat ∧ b.toNat ≤ 57

/-- `%u` and its wider forms. -/
def decimal (n : Nat) : Str := (Nat.toDigits 10 n).map ch

/-- `%i`. -/
def decimalInt : Int → Str
  | .ofNat n => decimal n
  | .negSucc n => ch '-' :: decimal (n + 1)

def isSpace (b : Byte) : Bool := b = 32 ∨ (9 ≤ b.toNat ∧ b.toNat ≤ 13)

/-- The value of the digits that a string starts with. -/
def leadingNumber (s : Str) : Nat :=
  (s.takeWhile isDigit).foldl (fun v b => 10 * v + (b.toNat - 48)) 0

def atoll (s : Str) : Int :=
  match (cstr s).dropWhile isSpace with
  | [] => 0
  | c :: rest =>
    if c = ch '-' then -(leadingNumber rest)
    else if c = ch '+' then leadingNumber rest
    else leadingNumber (c :: rest)

theorem length_decimal_le_iff {n k : Nat} (hk : 0 < k) : (decimal n).length ≤ k ↔ n < 10 ^ k := by
  unfold decimal
  rw [List.length_map]
  exact Nat.length_toDigits_le_iff (by norm_num) hk

theorem ch_toNat {c : Char} (h : c.toNat < 256) : (ch c).toNat = c.toNat := by
  unfold ch
  rw [UInt8.toNat_ofNat_of_lt' h]

theorem isDigit_of_mem_decimal {n : Nat} {b : Byte} (h : b ∈ decimal n) : isDigit b = true := by
  obtain ⟨c, hc, rfl⟩ := List.mem_map.mp h
  have hdigit := Nat.isDigit_of_mem_toDigits (by norm_num) (by norm_num) hc
  simp only [Char.isDigit, Bool.and_eq_true, decide_eq_true_eq, UInt32.le_iff_toNat_le] at hdigit
  have hlo : 48 ≤ c.toNat := hdigit.1
  have hhi : c.toNat ≤ 57 := hdigit.2
  have hch : (ch c).toNat = c.toNat := ch_toNat (lt_of_le_of_lt hhi (by decide))
  simp only [isDigit, hch]
  simp [hlo, hhi]

theorem decimal_ne_nil (n : Nat) : decimal n ≠ [] := by
  unfold decimal
  rw [Ne, List.map_eq_nil_iff]
  exact Nat.toDigits_ne_nil

/-- What `%u` writes is read back. -/
theorem leadingNumber_decimal (n : Nat) : leadingNumber (decimal n) = n := by
  have hall : (decimal n).takeWhile isDigit = decimal n :=
    List.takeWhile_eq_self_iff.mpr fun b hb => isDigit_of_mem_decimal hb
  have hfold : ∀ (l : List Char) (v : Nat), (∀ c ∈ l, c.toNat < 256) →
      (l.map ch).foldl (fun v b => 10 * v + (b.toNat - 48)) v = Nat.ofDigitChars 10 l v := by
    intro l
    induction l with
    | nil => exact fun v _ => Nat.ofDigitChars_nil.symm
    | cons c l ih =>
      intro v hl
      obtain ⟨hc, hl⟩ := List.forall_mem_cons.mp hl
      rw [List.map_cons, List.foldl_cons, ih _ hl, Nat.ofDigitChars_cons, ch_toNat hc]
      rfl
  unfold leadingNumber
  rw [hall]
  unfold decimal
  rw [hfold _ 0, Nat.ofDigitChars_ten_toDigits]
  intro c hc
  have hdigit := Nat.isDigit_of_mem_toDigits (by norm_num) (by norm_num) hc
  simp only [Char.isDigit, Bool.and_eq_true, decide_eq_true_eq, UInt32.le_iff_toNat_le] at hdigit
  have hhi : c.toNat ≤ 57 := hdigit.2
  omega

theorem not_space_of_digit {b : Byte} (h : isDigit b = true) : isSpace b = false ∧ b ≠ ch '-' ∧ b ≠ ch '+' := by
  unfold isDigit at h
  rw [decide_eq_true_eq] at h
  refine ⟨?_, ?_, ?_⟩
  · unfold isSpace
    rw [decide_eq_false_iff_not]
    rintro (rfl | hb)
    · exact absurd h.1 (by decide)
    · omega
  · rintro rfl
    exact absurd h.1 (by decide)
  · rintro rfl
    exact absurd h.1 (by decide)

theorem atoll_decimalInt (i : Int) : atoll (decimalInt i) = i := by
  have hzero : ∀ n, (0 : Byte) ∉ decimal n := fun n h => absurd (isDigit_of_mem_decimal h) (by decide)
  cases i with
  | ofNat n =>
    obtain ⟨c, rest, hdec⟩ := List.exists_cons_of_ne_nil (decimal_ne_nil n)
    have hc := not_space_of_digit (@isDigit_of_mem_decimal n c (by rw [hdec]; exact List.mem_cons_self))
    unfold atoll decimalInt
    rw [cstr_of_notMem (hzero n), hdec, List.dropWhile_cons_of_neg (by rw [hc.1]; exact Bool.false_ne_true)]
    dsimp only
    rw [if_neg hc.2.1, if_neg hc.2.2, ← hdec, leadingNumber_decimal]
    rfl
  | negSucc n =>
    have hnul : (0 : Byte) ∉ ch '-' :: decimal (n + 1) := by
      rw [List.mem_cons, not_or]
      exact ⟨by decide, hzero _⟩
    unfold atoll decimalInt
    rw [cstr_of_notMem hnul, List.dropWhile_cons_of_neg (by decide)]
    dsimp only
    rw [if_pos rfl, leadingNumber_decimal]
    rfl

end MyServer
