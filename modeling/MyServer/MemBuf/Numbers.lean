import MyServer.MemBuf.Copies
import MyServer.Decimal

/-!
# Numbers in a `MemBuf`

`xIntToStr` writes the digits from the last one on behind what the buffer holds, and turns all of it round.
-/

namespace MyServer.MemBuf

section

variable (junk : Nat → Byte)

/-- `operator<<` on a character. -/
def putChar (c : Byte) (h : Heap Byte) (m : MemBuf) : Option (Heap Byte × MemBuf) := m.addBuffer junk (.outside [c]) h

def putDigits (i : Nat) (h : Heap Byte) (m : MemBuf) : Option (Heap Byte × MemBuf) :=
  (m.putChar junk (ch '0' + UInt8.ofNat (i % 10)) h).bind fun r =>
    if _hi : 0 < i / 10 then putDigits (i / 10) r.1 r.2 else some r
termination_by i

/-- The loop over `pFirst` and `pLast`. -/
def swapLoop (b : Str) (first last : Nat) : Str :=
  let swapped := (b.set first (b.getD last 0)).set last (b.getD first 0)
  if first + 1 < last - 1 then swapLoop swapped (first + 1) (last - 1) else swapped
termination_by last - first

/-- The first `nSize` bytes are turned round; without any, the byte in front of the buffer would be read. -/
def turnRound (h : Heap Byte) (m : MemBuf) : Option (Heap Byte) :=
  (h.block m.buffer).bind fun b =>
    if 0 < m.nSize ∧ m.nSize ≤ b.length then some (h.put m.buffer (some (swapLoop b 0 (m.nSize - 1)))) else none

def xIntToStr (i : Nat) (bNegative : Bool) (h : Heap Byte) (m : MemBuf) : Option (Heap Byte × MemBuf) :=
  if i = 0 then
    (m.setBuffer junk (.outside (ascii "0" ++ [0])) h).map fun r => (r.1, { r.2 with nSize := 1 })
  else
    (m.setRealLength junk 12 h).bind fun r =>
    (r.2.putDigits junk i r.1).bind fun r =>
    (if bNegative then r.2.putChar junk (ch '-') r.1 else some r).bind fun r =>
    (r.2.turnRound r.1).bind fun h =>
    (r.2.putChar junk 0 h).map fun r => (r.1, { r.2 with nSize := r.2.nSize - 1 })

/-- `-i` comes out as it is for the smallest `int`, and as a `size_t` it is not the magnitude then. -/
def intToStr (i : BitVec 32) (h : Heap Byte) (m : MemBuf) : Option (Heap Byte × MemBuf) :=
  if i.slt 0 then m.xIntToStr junk ((-i).signExtend 64).toNat true h
  else m.xIntToStr junk (i.signExtend 64).toNat false h

end

/-- A `char` is signed. -/
def charValue (c : Byte) : Int := if c.toNat < 128 then c.toNat else c.toNat - 256

def strToUintLoop : Nat → Str → Nat → Nat
  | 0, _, nRes => nRes
  | nSize + 1, pAdr, nRes =>
    strToUintLoop nSize pAdr.tail
      ((nRes + ((charValue (pAdr.headD 0) - 48) % 2 ^ 64).toNat * 10 ^ nSize) % 2 ^ 64)

def strToUint (pAdr : Str) : Nat :=
  let nSize := (BitVec.ofNat 32 pAdr.length).toInt
  strToUintLoop (if 10 < nSize then 10 else nSize).toNat pAdr 0

def strToInt (pAdr : Str) : BitVec 32 :=
  match pAdr with
  | c :: rest => if c = ch '-' then -BitVec.ofNat 32 (strToUint rest) else BitVec.ofNat 32 (strToUint pAdr)
  | [] => BitVec.ofNat 32 (strToUint pAdr)

/-! ## Turning round -/

section

variable {b : Str} {first last : Nat}

theorem getElem?_swapLoop (hle : first ≤ last) (hlast : last < b.length) (k : Nat) :
    (swapLoop b first last)[k]? = if first ≤ k ∧ k ≤ last then b[first + last - k]? else b[k]? := by
  induction hn : last - first using Nat.strong_induction_on generalizing b first last with
  | h n ih =>
  have hswapped : ∀ k, ((b.set first (b.getD last 0)).set last (b.getD first 0))[k]? =
      if k = last then b[first]? else if k = first then b[last]? else b[k]? := by
    intro k
    have hget : ∀ {i}, i < b.length → some (b.getD i 0) = b[i]? := by
      intro i hi
      rw [List.getD_eq_getElem?_getD, List.getElem?_eq_getElem hi]
      rfl
    by_cases hk : k = last
    · subst hk
      rw [if_pos rfl, List.getElem?_set_self (by rw [List.length_set]; exact hlast), hget (by omega)]
    · rw [if_neg hk, List.getElem?_set_ne (Ne.symm hk)]
      by_cases hk' : k = first
      · subst hk'
        rw [if_pos rfl, List.getElem?_set_self (by omega), hget hlast]
      · rw [if_neg hk', List.getElem?_set_ne (Ne.symm hk')]
  rw [swapLoop]
  split_ifs with hmore hk hk
  · rw [ih (last - 1 - (first + 1)) (by omega) (by omega) (by rw [List.length_set, List.length_set]; omega) rfl]
    split_ifs with hinner
    · rw [hswapped, if_neg (by omega), if_neg (by omega)]
      congr 1
      omega
    · rw [hswapped]
      split_ifs with hlast' hfirst'
      · congr 1
        omega
      · congr 1
        omega
      · omega
  · rw [ih (last - 1 - (first + 1)) (by omega) (by omega) (by rw [List.length_set, List.length_set]; omega) rfl,
      if_neg (by omega), hswapped, if_neg (by omega), if_neg (by omega)]
  · rw [hswapped]
    split_ifs with hlast' hfirst'
    · congr 1
      omega
    · congr 1
      omega
    · congr 1
      omega
  · rw [hswapped, if_neg (by omega), if_neg (by omega)]

theorem length_swapLoop (b : Str) (first last : Nat) : (swapLoop b first last).length = b.length := by
  induction hn : last - first using Nat.strong_induction_on generalizing b first last with
  | h n ih =>
  rw [swapLoop]
  split_ifs with hmore
  · rw [ih (last - 1 - (first + 1)) (by omega) _ _ _ rfl, List.length_set, List.length_set]
  · rw [List.length_set, List.length_set]

/-- **What the loop over both ends does.** -/
theorem take_swapLoop {n : Nat} (hpos : 0 < n) (hn : n ≤ b.length) : (swapLoop b 0 (n - 1)).take n = (b.take n).reverse := by
  refine List.ext_getElem? fun k => ?_
  rw [List.getElem?_take, getElem?_swapLoop (Nat.zero_le _) (by omega)]
  by_cases hk : k < n
  · have hlength : (b.take n).length = n := List.length_take_of_le hn
    rw [if_pos hk, if_pos (by omega), List.getElem?_reverse (by omega), hlength, List.getElem?_take,
      if_pos (by omega)]
    congr 1
    omega
  · rw [if_neg hk, List.getElem?_eq_none (by rw [List.length_reverse, List.length_take]; omega)]

end

/-! ## What is written -/

/-- The digits of a `size_t`, and the sign in front of them. -/
def numeral (i : Nat) (bNegative : Bool) : Str := if bNegative then ch '-' :: decimal i else decimal i

/-- What `xIntToStr` leaves where its buffer holds `text`. -/
def written (m : MemBuf) (text number : Str) : Str := (m.cut ((m.cut (text ++ number.reverse)).reverse ++ [0])).dropLast

section

variable {junk : Nat → Byte} {h : Heap Byte} {m m' : MemBuf} {i : Nat} {number : Str}

theorem cut_congr (hlimit : m'.nSizeLimit = m.nSizeLimit) (text : Str) : m'.cut text = m.cut text := by
  unfold cut
  rw [hlimit]

theorem cut_append (m : MemBuf) (text more : Str) : m.cut (m.cut text ++ more) = m.cut (text ++ more) := by
  unfold cut
  split_ifs with hlimit
  · rfl
  · rw [List.take_append, List.take_append, List.take_take, Nat.min_self, List.length_take]
    congr 2
    omega

theorem putChar_spec (hm : Represents h m) (c : Byte) :
    ∃ h' m', m.putChar junk c h = some (h', m') ∧ Represents h' m' ∧ m'.content h' = m.cut (m.content h ++ [c]) ∧
      m'.nSizeLimit = m.nSizeLimit := addBuffer_outside hm [c]

theorem digit_eq (i : Nat) : ch '0' + UInt8.ofNat (i % 10) = ch (Nat.digitChar (i % 10)) := by
  have hlt := Nat.mod_lt i (show 0 < 10 by decide)
  generalize i % 10 = d at hlt
  interval_cases d <;> rfl

theorem decimal_eq (i : Nat) : decimal i =
    if i / 10 = 0 then [ch '0' + UInt8.ofNat (i % 10)] else decimal (i / 10) ++ [ch '0' + UInt8.ofNat (i % 10)] := by
  unfold decimal
  rw [Nat.toDigits_eq_if (by decide), digit_eq]
  split_ifs with hlt hdiv hdiv
  · rw [Nat.mod_eq_of_lt hlt]
    rfl
  · omega
  · omega
  · rw [List.map_append]
    rfl

theorem putDigits_spec (hm : Represents h m) :
    ∃ h' m', m.putDigits junk i h = some (h', m') ∧ Represents h' m' ∧
      m'.content h' = m.cut (m.content h ++ (decimal i).reverse) ∧ m'.nSizeLimit = m.nSizeLimit := by
  induction i using Nat.strong_induction_on generalizing h m with
  | h i ih =>
  obtain ⟨h₁, m₁, hput, hm₁, hcontent, hlimit⟩ := @putChar_spec junk h m hm (ch '0' + UInt8.ofNat (i % 10))
  rw [putDigits, hput, Option.bind_some, decimal_eq]
  by_cases hi : 0 < i / 10
  · obtain ⟨h₂, m₂, hmore, hm₂, hcontent₂, hlimit₂⟩ := ih (i / 10) (by omega) hm₁
    refine ⟨h₂, m₂, by rw [dif_pos hi]; exact hmore, hm₂, ?_, hlimit₂.trans hlimit⟩
    rw [hcontent₂, cut_congr hlimit, hcontent, cut_append, if_neg (by omega), List.reverse_append, List.append_assoc]
    rfl
  · refine ⟨h₁, m₁, by rw [dif_neg hi], hm₁, ?_, hlimit⟩
    rw [hcontent, if_pos (by omega)]
    rfl

theorem turnRound_spec (hm : Represents h m) (hpos : 0 < m.nSize) :
    ∃ h', m.turnRound h = some h' ∧ Represents h' m ∧ m.content h' = (m.content h).reverse := by
  have hsize := hm.size_le
  have hfits := hm.fits
  have hb := hm.block (by omega)
  have hput := @Represents.put h m _ m.nSize hm hb _ (length_swapLoop (m.bytes h) 0 (m.nSize - 1)) hsize
  refine ⟨_, ?_, hput, ?_⟩
  · rw [turnRound, hb, Option.bind_some, if_pos ⟨hpos, by omega⟩]
  · rw [content, bytes_put hb, take_swapLoop hpos (by omega)]
    rfl

/-- The sign is put behind the digits. -/
theorem putNumeral_spec (hm : Represents h m) (bNegative : Bool) :
    ∃ h' m', ((m.putDigits junk i h).bind fun r => if bNegative then r.2.putChar junk (ch '-') r.1 else some r) =
        some (h', m') ∧ Represents h' m' ∧
      m'.content h' = m.cut (m.content h ++ (numeral i bNegative).reverse) ∧ m'.nSizeLimit = m.nSizeLimit := by
  obtain ⟨h₁, m₁, hdigits, hm₁, hcontent, hlimit⟩ := @putDigits_spec junk h m i hm
  cases bNegative with
  | false => exact ⟨h₁, m₁, by rw [hdigits]; rfl, hm₁, hcontent, hlimit⟩
  | true =>
    obtain ⟨h₂, m₂, hput, hm₂, hcontent₂, hlimit₂⟩ := @putChar_spec junk h₁ m₁ hm₁ (ch '-')
    refine ⟨h₂, m₂, ?_, hm₂, ?_, hlimit₂.trans hlimit⟩
    · rw [hdigits]
      exact hput
    · rw [hcontent₂, cut_congr hlimit, hcontent, cut_append, List.append_assoc]
      exact congrArg (fun l => m.cut (m.content h ++ l)) List.reverse_cons.symm

theorem length_cut_pos {text : Str} (hpos : 0 < text.length) : 0 < (m.cut text).length := by
  unfold cut
  split_ifs with hlimit
  · exact hpos
  · rw [List.length_take]
    omega

theorem xIntToStr_spec (hm : Represents h m) (hi : i ≠ 0) (bNegative : Bool) :
    ∃ h' m', m.xIntToStr junk i bNegative h = some (h', m') ∧ Represents h' m' ∧
      m'.content h' = m.written (m.content h) (numeral i bNegative) := by
  obtain ⟨h₁, m₁, hgrow, hm₁, hcontent₁, -, -, hlimit₁, -⟩ := @setRealLength_spec junk h m 12 hm
  obtain ⟨h₂, m₂, hnumeral, hm₂, hcontent₂, hlimit₂⟩ := @putNumeral_spec junk h₁ m₁ i hm₁ bNegative
  have hlimit := hlimit₂.trans hlimit₁
  rw [cut_congr hlimit₁, hcontent₁] at hcontent₂
  have hnonempty : 0 < (numeral i bNegative).length := by
    have hdecimal := List.length_pos_of_ne_nil (decimal_ne_nil i)
    unfold numeral
    split_ifs
    · exact Nat.succ_pos _
    · exact hdecimal
  have hpos : 0 < m₂.nSize := by
    rw [← hm₂.content_length, hcontent₂]
    refine length_cut_pos ?_
    rw [List.length_append, List.length_reverse]
    omega
  obtain ⟨h₃, hturn, hm₃, hcontent₃⟩ := turnRound_spec hm₂ hpos
  obtain ⟨h₄, m₄, hput, hm₄, hcontent₄, -⟩ := @putChar_spec junk h₃ m₂ hm₃ 0
  rw [cut_congr hlimit, hcontent₃, hcontent₂] at hcontent₄
  refine ⟨h₄, { m₄ with nSize := m₄.nSize - 1 }, ?_, hm₄.setLength ?_, ?_⟩
  · obtain ⟨r, hdigits, hsign⟩ := Option.bind_eq_some_iff.mp hnumeral
    rw [xIntToStr, if_neg hi, hgrow, Option.bind_some, hdigits, Option.bind_some, hsign, Option.bind_some, hturn,
      Option.bind_some, hput]
    rfl
  · exact (Nat.sub_le _ _).trans hm₄.size_le
  · rw [written, ← hcontent₄, List.dropLast_eq_take, hm₄.content_length, content, content, List.take_take]
    exact congrArg (fun k => List.take k (m₄.bytes h₄)) (Nat.min_eq_left (Nat.sub_le _ _)).symm

end

/-! ## What is told -/

/-- The digits as `intToStr` has them written. -/
def shown (i : BitVec 32) : Str := numeral ((if i.slt 0 then -i else i).signExtend 64).toNat (i.slt 0)

/-- There is room for a text, for a number and for the byte that ends it. -/
def Fits (m : MemBuf) (text number : Str) : Prop :=
  m.nSizeLimit = 0 ∨ text.length + number.length < m.nSizeLimit

/-- The buffer is empty and has the room, and the number is not the smallest one. Where a limit cuts off what is
written, that must not matter by chance. -/
def Tells (m : MemBuf) (text : Str) (i : BitVec 32) : Prop :=
  i = 0 ∨ (Fits m text (shown i) ∧ text = [] ∧ i ≠ BitVec.intMin 32) ∨
    (¬Fits m text (shown i) ∧ ((text ++ (shown i).reverse).take m.nSizeLimit).tail = (decimalInt i.toInt).reverse)

section

variable {junk : Nat → Byte} {h : Heap Byte} {m : MemBuf} {i : BitVec 32} {text number : Str}

theorem written_fits (hfits : Fits m text number) : m.written text number = number ++ text.reverse := by
  have hcut : ∀ s : Str, s.length ≤ text.length + number.length + 1 → m.cut s = s := by
    intro s hs
    unfold cut
    split_ifs with hlimit
    · rfl
    · exact List.take_of_length_le (by have hroom := hfits.resolve_left hlimit; omega)
  rw [written, hcut (text ++ number.reverse) (by rw [List.length_append, List.length_reverse]; omega),
    hcut _ (by rw [List.length_append, List.length_reverse, List.length_append, List.length_reverse, List.length_singleton]),
    List.dropLast_concat, List.reverse_append, List.reverse_reverse]

theorem written_full (hfull : ¬Fits m text number) :
    m.written text number = ((text ++ number.reverse).take m.nSizeLimit).tail.reverse := by
  unfold Fits at hfull
  rw [not_or] at hfull
  have hlength : ((text ++ number.reverse).take m.nSizeLimit).length = m.nSizeLimit := by
    rw [List.length_take, List.length_append, List.length_reverse]
    omega
  rw [written, cut, if_neg hfull.1, cut, if_neg hfull.1, List.take_append_of_le_length (by rw [List.length_reverse]; omega),
    List.take_of_length_le (by rw [List.length_reverse]; omega), List.dropLast_reverse]

theorem toNat_signExtend (x : BitVec 32) (hx : 0 ≤ x.toInt) : ((x.signExtend 64).toNat : Int) = x.toInt := by
  rw [← BitVec.toInt_signExtend_of_le (show 32 ≤ 64 by decide)] at hx ⊢
  rw [BitVec.toInt_eq_toNat_cond] at hx ⊢
  have hlt := (x.signExtend 64).isLt
  split_ifs at hx ⊢ with hsmall
  · rfl
  · omega

theorem shown_eq (hi : i ≠ BitVec.intMin 32) : shown i = decimalInt i.toInt := by
  unfold shown
  by_cases hneg : i.slt 0 = true
  · have hlt : i.toInt < 0 := by simpa [BitVec.slt] using hneg
    have htoInt := BitVec.toInt_neg_of_ne_intMin hi
    have hnat := toNat_signExtend (-i) (by omega)
    rw [if_pos hneg, hneg, numeral, if_pos rfl]
    obtain ⟨n, hn⟩ := Int.eq_negSucc_of_lt_zero hlt
    rw [hn, decimalInt]
    congr 2
    omega
  · have hge : 0 ≤ i.toInt := by simpa [BitVec.slt] using hneg
    have hnat := toNat_signExtend i hge
    rw [if_neg hneg, Bool.not_eq_true _ |>.mp hneg, numeral, if_neg Bool.false_ne_true]
    rw [← hnat]
    rfl

/-- Eleven characters are not enough for what is written of the smallest number. -/
theorem shown_intMin (text : Str) : shown (BitVec.intMin 32) ++ text ≠ decimalInt (BitVec.intMin 32).toInt := by
  intro heq
  have hshown : shown (BitVec.intMin 32) = ch '-' :: decimal 18446744071562067968 := rfl
  have hdecimal : decimalInt (BitVec.intMin 32).toInt = ch '-' :: decimal 2147483648 := rfl
  rw [hshown, hdecimal, List.cons_append, List.cons.injEq] at heq
  have hlength := congrArg List.length heq.2
  have hshort : (decimal 2147483648).length ≤ 10 := (length_decimal_le_iff (by decide)).mpr (by decide)
  have hlong : ¬(decimal 18446744071562067968).length ≤ 10 := fun hle =>
    absurd ((length_decimal_le_iff (by decide)).mp hle) (by decide)
  rw [List.length_append] at hlength
  omega

theorem intToStr_zero (hm : Represents h m) : Holds (decimalInt 0) (m.intToStr junk 0 h) := by
  have hload : (Heap.Source.outside (ascii "0" ++ [0])).load h (Heap.Source.outside (ascii "0" ++ [0])).size =
      some (ascii "0" ++ [0]) := rfl
  have hspared : m.Spared (m.capped 2) 0 (m.capped 2) (.outside (ascii "0" ++ [0])) := by
    unfold Spared
    split_ifs
    · exact fun _ hown => hown
    · exact fun hover => hover
  obtain ⟨h', m', hset, hm', hcontent, hsize, -⟩ := @setBuffer_sets junk h m _ _ hm hload (Or.inr hspared)
  have hpos : 1 ≤ m.capped 2 := by
    unfold capped
    split_ifs <;> omega
  have hfront : (m'.bytes h').take 1 = [ch '0'] := by
    have htake := congrArg (List.take 1) hcontent
    rw [content, hsize, List.take_take, List.take_take] at htake
    exact (Nat.min_eq_left hpos ▸ htake :)
  refine ⟨h', { m' with nSize := 1 }, ?_, rfl, hfront⟩
  have hcall : m.intToStr junk 0 h = (m.setBuffer junk (.outside (ascii "0" ++ [0])) h).map fun r =>
      (r.1, { r.2 with nSize := 1 }) := rfl
  rw [hcall, hset]
  rfl

theorem intToStr_iff (hm : Represents h m) (i : BitVec 32) :
    Holds (decimalInt i.toInt) (m.intToStr junk i h) ↔ Tells m (m.content h) i := by
  by_cases hi : i = 0
  · subst hi
    exact iff_of_true (intToStr_zero hm) (Or.inl rfl)
  have hcall : ∃ h' m', m.intToStr junk i h = some (h', m') ∧ Represents h' m' ∧
      m'.content h' = m.written (m.content h) (shown i) := by
    have hne : ∀ x : BitVec 32, x ≠ 0 → (x.signExtend 64).toNat ≠ 0 := by
      intro x hx hzero
      have hint := @BitVec.toInt_signExtend_of_le 32 64 x (by decide)
      rw [BitVec.toInt_eq_toNat_cond, hzero] at hint
      exact hx (BitVec.eq_of_toInt_eq hint.symm)
    unfold intToStr shown
    split_ifs with hneg
    · rw [hneg]
      exact xIntToStr_spec hm (hne _ fun hzero => hi (by simpa using hzero)) true
    · rw [Bool.not_eq_true _ |>.mp hneg]
      exact xIntToStr_spec hm (hne _ hi) false
  obtain ⟨h', m', hcall, hm', hcontent⟩ := hcall
  have hholds : Holds (decimalInt i.toInt) (m.intToStr junk i h) ↔
      m.written (m.content h) (shown i) = decimalInt i.toInt := by
    rw [hcall, ← hcontent]
    constructor
    · rintro ⟨_, _, heq, -, htext⟩
      cases heq
      exact htext
    · intro htext
      exact ⟨h', m', rfl, by rw [← htext, hm'.content_length], htext⟩
  rw [hholds, Tells, or_iff_right hi]
  by_cases hfits : Fits m (m.content h) (shown i)
  · rw [written_fits hfits, and_iff_right hfits, or_iff_left fun hfull => hfull.1 hfits]
    constructor
    · intro htext
      have hmin : i ≠ BitVec.intMin 32 := by
        rintro rfl
        exact shown_intMin _ htext
      rw [shown_eq hmin] at htext
      exact ⟨List.reverse_eq_nil_iff.mp (List.append_right_eq_self.mp htext), hmin⟩
    · rintro ⟨htext, hmin⟩
      rw [htext, shown_eq hmin]
      exact List.append_nil _
  · rw [written_full hfits, or_iff_right fun hfit => hfits hfit.1, and_iff_right hfits]
    exact List.reverse_eq_iff

/-! ## What is read back -/

theorem foldl_value (s : Str) (v : Nat) :
    s.foldl (fun v b => 10 * v + (b.toNat - 48)) v = v * 10 ^ s.length + s.foldl (fun v b => 10 * v + (b.toNat - 48)) 0 := by
  induction s generalizing v with
  | nil => simp
  | cons b s ih =>
    rw [List.foldl_cons, List.foldl_cons, ih, ih (10 * 0 + _), List.length_cons, Nat.pow_succ]
    ring

theorem strToUintLoop_eq {s : Str} (hs : ∀ b ∈ s, isDigit b = true) (nRes : Nat) (hlt : nRes < 2 ^ 64) :
    strToUintLoop s.length s nRes = (nRes + s.foldl (fun v b => 10 * v + (b.toNat - 48)) 0) % 2 ^ 64 := by
  induction s generalizing nRes with
  | nil => exact (Nat.mod_eq_of_lt hlt).symm
  | cons b s ih =>
    obtain ⟨hb, hs⟩ := List.forall_mem_cons.mp hs
    have hdigit : ((charValue b - 48) % 2 ^ 64).toNat = b.toNat - 48 := by
      unfold isDigit at hb
      rw [decide_eq_true_eq] at hb
      unfold charValue
      rw [if_pos (by omega)]
      omega
    rw [List.length_cons, strToUintLoop, List.headD_cons, List.tail_cons, hdigit, ih hs _ (Nat.mod_lt _ (by decide)),
      Nat.mod_add_mod, List.foldl_cons, foldl_value s (10 * 0 + _)]
    congr 1
    ring

theorem strToUint_decimal {n : Nat} (hn : n < 2 ^ 32) : strToUint (decimal n) = n := by
  have hlength : (decimal n).length ≤ 10 := (length_decimal_le_iff (by decide)).mpr (by omega)
  have hdigits : ∀ b ∈ decimal n, isDigit b = true := fun b hb => isDigit_of_mem_decimal hb
  have hvalue := leadingNumber_decimal n
  rw [leadingNumber, List.takeWhile_eq_self_iff.mpr hdigits] at hvalue
  have hint : (BitVec.ofNat 32 (decimal n).length).toInt = (decimal n).length := by
    rw [BitVec.toInt_eq_toNat_cond, BitVec.toNat_ofNat, Nat.mod_eq_of_lt (by omega), if_pos (by omega)]
  unfold strToUint
  dsimp only
  rw [hint, if_neg (by omega), Int.toNat_natCast, strToUintLoop_eq hdigits 0 (by decide), hvalue, Nat.zero_add,
    Nat.mod_eq_of_lt (by omega)]

/-- **The rendering is read back.** -/
theorem strToInt_decimalInt (i : BitVec 32) : strToInt (decimalInt i.toInt) = i := by
  have hlt := i.isLt
  have hint := BitVec.toInt_eq_toNat_cond i
  cases hi : i.toInt with
  | ofNat n =>
    have hn : i.toNat = n := by
      rw [hi, Int.ofNat_eq_natCast] at hint
      split_ifs at hint <;> omega
    obtain ⟨c, rest, hdecimal⟩ := List.exists_cons_of_ne_nil (decimal_ne_nil n)
    have hc : c ≠ ch '-' := (not_space_of_digit (@isDigit_of_mem_decimal n c (by rw [hdecimal]; exact List.mem_cons_self))).2.1
    have hread : strToUint (c :: rest) = n := by
      rw [← hdecimal]
      exact strToUint_decimal (by omega)
    rw [decimalInt, hdecimal, strToInt, if_neg hc, hread, ← hn]
    apply BitVec.eq_of_toNat_eq
    rw [BitVec.toNat_ofNat, Nat.mod_eq_of_lt hlt]
  | negSucc n =>
    have hn : i.toNat + (n + 1) = 2 ^ 32 := by
      rw [hi, Int.negSucc_eq] at hint
      split_ifs at hint <;> omega
    have hread : strToUint (decimal (n + 1)) = n + 1 := by
      refine strToUint_decimal ?_
      rw [hi, Int.negSucc_eq] at hint
      split_ifs at hint <;> omega
    rw [decimalInt, strToInt, if_pos rfl, hread]
    apply BitVec.eq_of_toNat_eq
    rw [BitVec.toNat_neg, BitVec.toNat_ofNat]
    omega

end

end MyServer.MemBuf
