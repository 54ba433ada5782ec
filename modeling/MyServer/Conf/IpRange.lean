import Mathlib.Data.Nat.Bitwise
import MyServer.Base.IStringStream

/-!
# Ranges of IPv4 addresses

`Ipv4Range` (ip.cpp): how a range is built from its text, and which addresses are in it.
-/

open MyServer.IStringStream

namespace MyServer.Ip

abbrev Octets := Fin 4 → Byte

/-- `m_nStart`, `m_nEnd` and `m_nMask`. -/
structure Ipv4Range where
  nStart : Octets
  nEnd : Octets
  nMask : Octets

def Ipv4Range.init : Ipv4Range := ⟨fun _ => 0, fun _ => 255, fun _ => 0⟩

def indices : List (Fin 4) := [0, 1, 2, 3]

/-- An `int` that is put into an `unsigned char`. -/
def narrow (n : Int) : Byte := UInt8.ofNat (n % 256).toNat

/-! ## The mask -/

/-- One round of the loop that sets the mask: where it stands, and the mask. -/
def maskStep (nTemp : Int) (m : Nat × Octets) (i : Nat) : Nat × Octets :=
  if h : (i : Int) < nTemp ∧ m.1 < 4 then
    (if (i + 1) % 8 = 0 then m.1 + 1 else m.1,
      Function.update m.2 ⟨m.1, h.2⟩ (m.2 ⟨m.1, h.2⟩ + 1 <<< UInt8.ofNat ((i + 1) % 8)))
  else m

/-- After 32 rounds the mask is full. -/
def maskOf (nTemp : Int) : Octets := ((List.range 32).foldl (maskStep nTemp) (0, fun _ => 0)).2

/-! ## A text -/

structure Reading where
  stream : IStringStream
  nTemp : Int
  nSep : Byte
  nAddr : Octets

def readOctet (r : Reading) (i : Fin 4) : Reading :=
  if r.stream.eofbit then r
  else
    let n := r.stream.readInt r.nTemp
    let c := n.1.readChar r.nSep
    ⟨c.1, n.2, c.2, Function.update r.nAddr i (narrow n.2)⟩

/-- The source does not initialise `nAddr`. -/
def readAddress (nAddr : Octets) (text : Str) : Reading := indices.foldl readOctet ⟨.ofText text, 0, 0, nAddr⟩

/-- `SetRange`, for `x.x.x.x` and `x.x.x.x/y`. -/
def setAddress (nAddr : Octets) (sRange : Str) : Ipv4Range × Bool :=
  let r := readAddress nAddr sRange
  let n := if r.nSep = ch '/' then r.stream.readInt 32 else (r.stream, 32)
  if n.1.eofbit then
    let nMask := maskOf n.2
    (⟨fun i => if nMask i ≠ 0 then r.nAddr i else 0, fun i => if nMask i ≠ 0 then r.nAddr i else 255, nMask⟩, true)
  else (.init, false)

structure ReadingTwo where
  start : IStringStream
  finish : IStringStream
  nTemp : Int
  nSep : Byte
  nStart : Octets
  nEnd : Octets

def readOctets (r : ReadingTwo) (i : Fin 4) : ReadingTwo :=
  if r.start.eofbit ∨ r.finish.eofbit then r
  else
    let m := r.start.readInt r.nTemp
    let c := m.1.readChar r.nSep
    let n := r.finish.readInt m.2
    let d := n.1.readChar c.2
    ⟨c.1, d.1, n.2, d.2, Function.update r.nStart i (narrow m.2), Function.update r.nEnd i (narrow n.2)⟩

def differ (nStart nEnd : Octets) (bs : Nat) : Bool :=
  nStart (Fin.ofNat 4 (bs / 8)) &&& 1 <<< UInt8.ofNat (bs % 8) ≠
    nEnd (Fin.ofNat 4 (bs / 8)) &&& 1 <<< UInt8.ofNat (bs % 8)

/-- How far the loop comes that looks for a bit in which they differ, the lowest of each byte first. -/
def commonBits (nStart nEnd : Octets) : Nat := ((List.range 32).find? (differ nStart nEnd)).getD 32

def readHosts (sStartHost sEndHost : Str) : ReadingTwo :=
  indices.foldl readOctets ⟨.ofText sStartHost, .ofText sEndHost, 0, 0, Ipv4Range.init.nStart, Ipv4Range.init.nEnd⟩

/-- `SetRange`, for two hosts. -/
def setHosts (sStartHost sEndHost : Str) : Ipv4Range × Bool :=
  let r := readHosts sStartHost sEndHost
  if r.start.eofbit ∧ r.finish.eofbit then (⟨r.nStart, r.nEnd, maskOf (commonBits r.nStart r.nEnd)⟩, true)
  else (⟨r.nStart, r.nEnd, fun _ => 0⟩, false)

def setRange (nAddr : Octets) (sRange : Str) : Ipv4Range × Bool :=
  if sRange = [] then (.init, true)
  else if ch '-' ∈ sRange then
    setHosts (sRange.takeWhile (· ≠ ch '-')) (sRange.dropWhile (· ≠ ch '-')).tail
  else setAddress nAddr sRange

/-- `IpRange::RangeFactory`. -/
def rangeFactory (nAddr : Octets) (ipRange : Str) : Option Ipv4Range :=
  if (setRange nAddr ipRange).2 then some (setRange nAddr ipRange).1 else none

/-! ## Membership -/

/-- The loop that leaves at the first byte in which the two are not the same: whether that is the greater
in the second. -/
def notAbove (a b : Octets) : List (Fin 4) → Bool
  | [] => true
  | i :: is => if a i < b i then true else if b i < a i then false else notAbove a b is

namespace Ipv4Range

/-- The part of an address that the mask leaves. -/
def host (r : Ipv4Range) (addr : Octets) : Octets := fun i => addr i &&& ~~~ r.nMask i

/-- `InRange`, of four bytes. -/
def inRange (r : Ipv4Range) (addr : Octets) : Bool :=
  indices.all (fun i => addr i &&& r.nMask i = r.nStart i &&& r.nMask i) &&
    notAbove (r.host r.nStart) (r.host addr) indices && notAbove (r.host addr) (r.host r.nEnd) indices

/-- The loop that reads the address and leaves at the first byte that is in another network. -/
def readInNetwork (r : Ipv4Range) : List (Fin 4) → Reading → Option Octets
  | [], reading => some reading.nAddr
  | i :: is, reading =>
    if reading.stream.eofbit then some reading.nAddr
    else
      let next := readOctet reading i
      if next.nAddr i &&& r.nMask i ≠ r.nStart i &&& r.nMask i then none else r.readInNetwork is next

/-- `InRange`, of a text. -/
def inRangeText (r : Ipv4Range) (nAddr : Octets) (ip : Str) : Bool :=
  match r.readInNetwork indices ⟨.ofText ip, 0, 0, nAddr⟩ with
  | none => false
  | some addr => r.inRange addr

end Ipv4Range

/-- `x.x.x.x`. -/
def dotted (a : Octets) : Str :=
  decimal (a 0).toNat ++ ch '.' :: (decimal (a 1).toNat ++ ch '.' :: (decimal (a 2).toNat ++ ch '.' ::
    decimal (a 3).toNat))

/-! ## Reading a dotted address -/

section

theorem narrow_toNat (b : Byte) : narrow b.toNat = b := by
  unfold narrow
  have hb : b.toNat < 256 := b.toNat_lt
  have hmod : ((b.toNat : Int) % 256).toNat = b.toNat := by omega
  rw [hmod]
  exact UInt8.ofNat_toNat

theorem notDigit_head {c : Byte} (h : isDigit c = false) (rest : Str) : ∀ b ∈ (c :: rest).head?, isDigit b = false := by
  rintro b hb
  cases hb
  exact h

/-- An octet and its separator. -/
theorem readOctet_sep {b c : Byte} {rest : Str} {i : Fin 4} {n : Int} {nSep : Byte} {nAddr : Octets}
    (hdigit : isDigit c = false) (hspace : isSpace c = false) :
    readOctet ⟨.ofText (decimal b.toNat ++ c :: rest), n, nSep, nAddr⟩ i =
      ⟨.ofText rest, b.toNat, c, Function.update nAddr i b⟩ := by
  have hb : b.toNat < 2 ^ 31 := lt_trans b.toNat_lt (by norm_num)
  have hint := readInt_decimal hb (notDigit_head hdigit rest) n
  have hstream : (⟨c :: rest, (c :: rest : Str) = [], false⟩ : IStringStream) = .ofText (c :: rest) := by
    simp [ofText]
  rw [hstream] at hint
  have hchar := @readChar_cons _ rest hspace nSep
  unfold readOctet
  rw [if_neg (by simp [ofText])]
  dsimp only
  rw [hint]
  dsimp only
  rw [hchar, narrow_toNat]

/-- The last octet. -/
theorem readOctet_last {b : Byte} {i : Fin 4} {n : Int} {nSep : Byte} {nAddr : Octets} :
    readOctet ⟨.ofText (decimal b.toNat), n, nSep, nAddr⟩ i =
      ⟨⟨[], true, true⟩, b.toNat, nSep, Function.update nAddr i b⟩ := by
  have hb : b.toNat < 2 ^ 31 := lt_trans b.toNat_lt (by norm_num)
  have hint := @readInt_decimal _ [] hb nofun n
  rw [List.append_nil] at hint
  have hchar := @readChar_eof ⟨[], true, false⟩ rfl nSep
  unfold readOctet
  rw [if_neg (by simp [ofText])]
  dsimp only
  rw [hint]
  dsimp only
  rw [show decide (([] : Str) = []) = true from rfl, hchar, narrow_toNat]

theorem update_all (nAddr a : Octets) : Function.update (Function.update (Function.update
    (Function.update nAddr 0 (a 0)) 1 (a 1)) 2 (a 2)) 3 (a 3) = a := by
  funext i
  fin_cases i <;> rfl

theorem readAddress_dotted (nAddr a : Octets) :
    readAddress nAddr (dotted a) = ⟨⟨[], true, true⟩, (a 3).toNat, ch '.', a⟩ := by
  unfold readAddress indices dotted
  simp only [List.foldl_cons, List.foldl_nil]
  rw [readOctet_sep (by decide) (by decide), readOctet_sep (by decide) (by decide),
    readOctet_sep (by decide) (by decide), readOctet_last, update_all]

theorem readAddress_slash (nAddr a : Octets) (rest : Str) :
    readAddress nAddr (dotted a ++ ch '/' :: rest) = ⟨.ofText rest, (a 3).toNat, ch '/', a⟩ := by
  unfold readAddress indices dotted
  simp only [List.foldl_cons, List.foldl_nil, List.append_assoc, List.cons_append]
  rw [readOctet_sep (by decide) (by decide), readOctet_sep (by decide) (by decide),
    readOctet_sep (by decide) (by decide), readOctet_sep (by decide) (by decide), update_all]

end

/-! ## Bytes and bits -/

section

variable {x y m : Byte} {j : Nat}

theorem byte_ext (h : ∀ j < 8, x.toNat.testBit j = y.toNat.testBit j) : x = y := by
  apply UInt8.toNat_inj.mp
  apply Nat.eq_of_testBit_eq
  intro j
  by_cases hj : j < 8
  · exact h j hj
  · have hx : x.toNat < 2 ^ j := lt_of_lt_of_le x.toNat_lt (Nat.pow_le_pow_right (by norm_num) (not_lt.mp hj))
    have hy : y.toNat < 2 ^ j := lt_of_lt_of_le y.toNat_lt (Nat.pow_le_pow_right (by norm_num) (not_lt.mp hj))
    rw [Nat.testBit_lt_two_pow hx, Nat.testBit_lt_two_pow hy]

theorem and_or_and_not (x m : Byte) : (x &&& m) ||| (x &&& ~~~m) = x := by
  apply UInt8.toBitVec_inj.mp
  simp only [UInt8.toBitVec_or, UInt8.toBitVec_and, UInt8.toBitVec_not]
  ext i hi
  cases h : m.toBitVec[i] <;> simp [h]

/-- A byte is its network part and its host part. -/
theorem eq_of_parts (hnet : x &&& m = y &&& m) (hhost : x &&& ~~~m = y &&& ~~~m) : x = y := by
  rw [← and_or_and_not x m, hnet, hhost, and_or_and_not]

theorem shift_toNat : ∀ j : Fin 8, ((1 : Byte) <<< UInt8.ofNat j).toNat = 2 ^ (j : Nat) := by decide

theorem and_shift_eq_iff (hj : j < 8) :
    x &&& 1 <<< UInt8.ofNat j = y &&& 1 <<< UInt8.ofNat j ↔ x.toNat.testBit j = y.toNat.testBit j := by
  have hshift : ((1 : Byte) <<< UInt8.ofNat j).toNat = 2 ^ j := shift_toNat ⟨j, hj⟩
  rw [← UInt8.toNat_inj, UInt8.toNat_and, UInt8.toNat_and, hshift, Nat.and_two_pow, Nat.and_two_pow]
  have hpos : 2 ^ j ≠ 0 := (Nat.two_pow_pos j).ne'
  cases x.toNat.testBit j <;> cases y.toNat.testBit j <;> simp [hpos.symm]

theorem testBit_eq_of_and (h : x &&& m = y &&& m) (hm : m.toNat.testBit j = true) :
    x.toNat.testBit j = y.toNat.testBit j := by
  have hbit := congrArg (fun b : Byte => b.toNat.testBit j) h
  simpa [Nat.testBit_and, hm] using hbit

end

/-! ## The mask of n bits -/

/-- The bytes before the one that bit `n` falls in are full, and those behind it are empty. In that byte the
mask has the bits 1, 2 and so on, from the lowest, and not the highest ones. -/
theorem maskOf_eq : ∀ n : Fin 33, ∀ i : Fin 4, maskOf (n : Nat) i =
    if 8 * (i : Nat) + 8 ≤ n then 255 else UInt8.ofNat (2 ^ ((n : Nat) - 8 * i + 1) - 2) := by
  decide +kernel

section

variable {n : Nat} {i : Fin 4}

theorem maskOf_full (hn : n ≤ 32) (h : 8 * (i : Nat) + 8 ≤ n) : maskOf n i = 255 :=
  (maskOf_eq ⟨n, by omega⟩ i).trans (if_pos h)

theorem maskOf_part (hn : n ≤ 32) (h : n < 8 * (i : Nat) + 8) :
    maskOf n i = UInt8.ofNat (2 ^ (n - 8 * i + 1) - 2) :=
  (maskOf_eq ⟨n, by omega⟩ i).trans (if_neg (by dsimp only; omega))

theorem maskOf_zero (hn : n ≤ 32) (h : n ≤ 8 * (i : Nat)) : maskOf n i = 0 := by
  rw [maskOf_part hn (by omega), Nat.sub_eq_zero_of_le h]
  rfl

theorem part_bit : ∀ r : Fin 8, 1 ≤ (r : Nat) →
    (UInt8.ofNat (2 ^ ((r : Nat) + 1) - 2)).toNat.testBit r = true := by
  decide

/-- The highest of the bits that the mask has in the byte that bit `n` falls in. -/
theorem maskOf_bit (hn : n ≤ 32) (hlo : 8 * (i : Nat) < n) (hhi : n < 8 * (i : Nat) + 8) :
    (maskOf n i).toNat.testBit (n - 8 * i) = true := by
  rw [maskOf_part hn hhi]
  exact part_bit ⟨n - 8 * i, by omega⟩ (by dsimp only; omega)

theorem maskOf_ne_zero (hn : n ≤ 32) (h : 8 * (i : Nat) < n) : maskOf n i ≠ 0 := by
  intro hzero
  rcases lt_or_ge n (8 * (i : Nat) + 8) with hhi | hhi
  · have hbit := maskOf_bit hn h hhi
    rw [hzero] at hbit
    simp at hbit
  · rw [maskOf_full hn hhi] at hzero
    exact absurd hzero (by decide)

end

/-! ## Comparing byte by byte -/

section

variable {a b c : Octets} {is : List (Fin 4)}

theorem notAbove_of_le (h : ∀ i ∈ is, a i ≤ b i) : notAbove a b is = true := by
  induction is with
  | nil => rfl
  | cons i is ih =>
    obtain ⟨hi, his⟩ := List.forall_mem_cons.mp h
    unfold notAbove
    split_ifs with hlt hgt
    · rfl
    · exact absurd hgt (UInt8.not_lt.mpr hi)
    · exact ih his

/-- Between two addresses that begin alike there are only those that begin like them. -/
theorem between_append {front : List (Fin 4)} (h : ∀ i ∈ front, a i = c i) :
    (notAbove a b (front ++ is) = true ∧ notAbove b c (front ++ is) = true) ↔
      (∀ i ∈ front, b i = a i) ∧ notAbove a b is = true ∧ notAbove b c is = true := by
  induction front with
  | nil => simp
  | cons i front ih =>
    obtain ⟨hi, hfront⟩ := List.forall_mem_cons.mp h
    rw [List.forall_mem_cons, and_assoc, ← ih hfront]
    simp only [List.cons_append, notAbove]
    rcases lt_trichotomy (a i).toNat (b i).toNat with hlt | heq | hgt
    · rw [← UInt8.lt_iff_toNat_lt] at hlt
      have hne : b i ≠ a i := (UInt8.ne_of_lt hlt).symm
      have hc : c i < b i := hi ▸ hlt
      simp [hlt, hc, hne, UInt8.lt_asymm hc]
    · rw [UInt8.toNat_inj] at heq
      have hc : b i = c i := heq ▸ hi
      simp [heq, ← hc]
    · rw [← UInt8.lt_iff_toNat_lt] at hgt
      have hne : b i ≠ a i := UInt8.ne_of_lt hgt
      simp [hgt, hne, UInt8.lt_asymm hgt]

end

/-! ## Which addresses are in a range -/

theorem mem_take : ∀ k : Fin 5, ∀ i : Fin 4, i ∈ indices.take k ↔ (i : Nat) < k := by decide

theorem mem_drop : ∀ k : Fin 5, ∀ i : Fin 4, i ∈ indices.drop k ↔ (k : Nat) ≤ i := by decide

theorem mem_indices (i : Fin 4) : i ∈ indices := (mem_drop 0 i).mpr (Nat.zero_le _)

section

variable {r : Ipv4Range} {a : Octets} {k : Nat}

/-- The hosts of a range agree in its first bytes, where an address has to be like them. -/
theorem inRange_iff (hk : k ≤ 4) (hfront : ∀ i : Fin 4, (i : Nat) < k → r.host r.nStart i = r.host r.nEnd i) :
    r.inRange a = true ↔ (∀ i, a i &&& r.nMask i = r.nStart i &&& r.nMask i) ∧
      (∀ i : Fin 4, (i : Nat) < k → r.host a i = r.host r.nStart i) ∧
      notAbove (r.host r.nStart) (r.host a) (indices.drop k) = true ∧
      notAbove (r.host a) (r.host r.nEnd) (indices.drop k) = true := by
  have htake : ∀ i, i ∈ indices.take k ↔ (i : Nat) < k := mem_take ⟨k, by omega⟩
  have hbetween := @between_append (r.host r.nStart) (r.host a) (r.host r.nEnd) (indices.drop k) (indices.take k)
    (fun i hi => hfront i ((htake i).mp hi))
  rw [List.take_append_drop] at hbetween
  unfold Ipv4Range.inRange
  rw [Bool.and_eq_true, Bool.and_eq_true, and_assoc, hbetween, List.all_eq_true]
  refine and_congr ⟨fun h i => of_decide_eq_true (h i (mem_indices i)), fun h i _ => decide_eq_true (h i)⟩ ?_
  exact and_congr_left' ⟨fun h i hi => h i ((htake i).mpr hi), fun h i hi => h i ((htake i).mp hi)⟩

theorem readInNetwork_sep {b c : Byte} {rest : Str} {i : Fin 4} {is : List (Fin 4)} {n : Int} {nSep : Byte}
    {nAddr : Octets} (hdigit : isDigit c = false) (hspace : isSpace c = false) :
    r.readInNetwork (i :: is) ⟨.ofText (decimal b.toNat ++ c :: rest), n, nSep, nAddr⟩ =
      if b &&& r.nMask i = r.nStart i &&& r.nMask i then
        r.readInNetwork is ⟨.ofText rest, b.toNat, c, Function.update nAddr i b⟩
      else none := by
  have hopen : (ofText (decimal b.toNat ++ c :: rest)).eofbit ≠ true := Bool.false_ne_true
  have hread := @readOctet_sep b c rest i n nSep nAddr hdigit hspace
  rw [Ipv4Range.readInNetwork, if_neg hopen, hread]
  simp only [Function.update_self, ne_eq, ite_not]

theorem readInNetwork_last {b : Byte} {i : Fin 4} {n : Int} {nSep : Byte} {nAddr : Octets} :
    r.readInNetwork [i] ⟨.ofText (decimal b.toNat), n, nSep, nAddr⟩ =
      if b &&& r.nMask i = r.nStart i &&& r.nMask i then some (Function.update nAddr i b) else none := by
  have hopen : (ofText (decimal b.toNat)).eofbit ≠ true := Bool.false_ne_true
  have hread := @readOctet_last b i n nSep nAddr
  rw [Ipv4Range.readInNetwork, if_neg hopen, hread]
  simp only [Function.update_self, ne_eq, ite_not]
  rfl

/-- The text of an address is read as that address. -/
theorem inRangeText_dotted (nAddr : Octets) : r.inRangeText nAddr (dotted a) = r.inRange a := by
  have hlost : ∀ i, ¬ a i &&& r.nMask i = r.nStart i &&& r.nMask i → r.inRange a = false := by
    intro i hi
    have hall : indices.all (fun i => decide (a i &&& r.nMask i = r.nStart i &&& r.nMask i)) = false :=
      List.all_eq_false.mpr ⟨i, mem_indices i, by simp [hi]⟩
    rw [Ipv4Range.inRange, hall, Bool.false_and, Bool.false_and]
  unfold Ipv4Range.inRangeText dotted indices
  rw [readInNetwork_sep (by decide) (by decide)]
  split_ifs with h0
  · rw [readInNetwork_sep (by decide) (by decide)]
    split_ifs with h1
    · rw [readInNetwork_sep (by decide) (by decide)]
      split_ifs with h2
      · rw [readInNetwork_last]
        split_ifs with h3
        · rw [update_all]
        · exact (hlost 3 h3).symm
      · exact (hlost 2 h2).symm
    · exact (hlost 1 h1).symm
  · exact (hlost 0 h0).symm

end

/-! ## A network -/

/-- The range of `b/n`. -/
def network (b : Octets) (n : Nat) : Ipv4Range :=
  ⟨fun i => if maskOf n i ≠ 0 then b i else 0, fun i => if maskOf n i ≠ 0 then b i else 255, maskOf n⟩

/-- The bit of an address, from the most significant one. -/
def bitOf (a : Octets) (k : Nat) : Bool := (a (Fin.ofNat 4 (k / 8))).toNat.testBit (7 - k % 8)

def AgreeFirst (n : Nat) (a b : Octets) : Prop := ∀ k < n, bitOf a k = bitOf b k

section

variable {n : Nat} {a b : Octets}

theorem notMem_dotted {c : Byte} (hdigit : isDigit c = false) (hdot : c ≠ ch '.') : c ∉ dotted a := by
  have hdec : ∀ k, c ∉ decimal k := fun k h => by
    rw [isDigit_of_mem_decimal h] at hdigit
    exact absurd hdigit (by simp)
  simp [dotted, hdec, hdot]

theorem rangeFactory_network (nAddr b : Octets) (hn : n ≤ 32) :
    rangeFactory nAddr (dotted b ++ ch '/' :: decimal n) = some (network b n) := by
  have hne : dotted b ++ ch '/' :: decimal n ≠ [] := by simp
  have hdash : ch '-' ∉ dotted b ++ ch '/' :: decimal n := by
    have hdec : ch '-' ∉ decimal n := fun h => absurd (isDigit_of_mem_decimal h) (by decide)
    have hdot : ch '-' ∉ dotted b := notMem_dotted (by decide) (by decide)
    simp only [List.mem_append, List.mem_cons, not_or]
    exact ⟨hdot, by decide, hdec⟩
  have hint := @readInt_decimal n [] (by omega) nofun 32
  rw [List.append_nil] at hint
  unfold rangeFactory setRange
  rw [if_neg hne, if_neg hdash, setAddress, readAddress_slash]
  dsimp only
  rw [if_pos rfl, hint]
  rfl

/-- The bytes that the first `n` bits reach into. -/
theorem network_inRange_iff (hn : n ≤ 32) :
    (network b n).inRange a = true ↔ ∀ i : Fin 4, 8 * (i : Nat) < n → a i = b i := by
  have hstart : ∀ i : Fin 4, 8 * (i : Nat) < n → (network b n).nStart i = b i := fun i hi =>
    if_pos (maskOf_ne_zero hn hi)
  have hend : ∀ i : Fin 4, 8 * (i : Nat) < n → (network b n).nEnd i = b i := fun i hi =>
    if_pos (maskOf_ne_zero hn hi)
  have hzero : ∀ i : Fin 4, n ≤ 8 * (i : Nat) → (network b n).nMask i = 0 := fun i hi => maskOf_zero hn hi
  have hback : ∀ i ∈ indices.drop ((n + 7) / 8), n ≤ 8 * (i : Nat) := by
    intro i hi
    have hle := (mem_drop ⟨(n + 7) / 8, by omega⟩ i).mp hi
    dsimp only at hle
    omega
  rw [inRange_iff (k := (n + 7) / 8) (by omega)
    (fun i hi => by rw [Ipv4Range.host, Ipv4Range.host, hstart i (by omega), hend i (by omega)])]
  constructor
  · rintro ⟨hnet, hhost, -⟩ i hi
    refine eq_of_parts (m := (network b n).nMask i) ?_ ?_
    · rw [hnet i, hstart i hi]
    · have hpart := hhost i (by omega)
      rwa [Ipv4Range.host, Ipv4Range.host, hstart i hi] at hpart
  · intro h
    refine ⟨fun i => ?_, fun i hi => ?_, notAbove_of_le fun i hi => ?_, notAbove_of_le fun i hi => ?_⟩
    · rcases lt_or_ge (8 * (i : Nat)) n with hi | hi
      · rw [h i hi, hstart i hi]
      · rw [hzero i hi, UInt8.and_zero, UInt8.and_zero]
    · rw [Ipv4Range.host, Ipv4Range.host, h i (by omega), hstart i (by omega)]
    · have hs : (network b n).nStart i = 0 := if_neg (not_not.mpr (maskOf_zero hn (hback i hi)))
      rw [Ipv4Range.host, hs, UInt8.zero_and]
      exact UInt8.le_iff_toNat_le.mpr (Nat.zero_le _)
    · have he : (network b n).nEnd i = 255 := if_neg (not_not.mpr (maskOf_zero hn (hback i hi)))
      rw [Ipv4Range.host, Ipv4Range.host, he, hzero i (hback i hi)]
      exact UInt8.le_iff_toNat_le.mpr (Nat.le_of_lt_succ (UInt8.toNat_lt _))

theorem bitOf_eq (i : Fin 4) {j : Nat} (hj : j < 8) : bitOf a (8 * i + (7 - j)) = (a i).toNat.testBit j := by
  have hdiv : (8 * (i : Nat) + (7 - j)) / 8 = i := by omega
  have hmod : 7 - (8 * (i : Nat) + (7 - j)) % 8 = j := by omega
  rw [bitOf, hdiv, hmod, Fin.ofNat_val_eq_self]

/-- Whole bytes agree when their bits do. -/
theorem agreeFirst_iff (hn : n ≤ 32) (hdvd : 8 ∣ n) :
    AgreeFirst n a b ↔ ∀ i : Fin 4, 8 * (i : Nat) < n → a i = b i := by
  constructor
  · intro h i hi
    refine byte_ext fun j hj => ?_
    have hbit := h (8 * i + (7 - j)) (by omega)
    rwa [bitOf_eq i hj, bitOf_eq i hj] at hbit
  · intro h k hk
    have hval : ((Fin.ofNat 4 (k / 8) : Fin 4) : Nat) = k / 8 := Nat.mod_eq_of_lt (by omega)
    rw [bitOf, bitOf, h _ (by rw [hval]; omega)]

/-- The address that differs in one bit. -/
def flip (b : Octets) (n : Nat) : Octets :=
  Function.update b (Fin.ofNat 4 (n / 8)) (b (Fin.ofNat 4 (n / 8)) ^^^ 1 <<< UInt8.ofNat (7 - n % 8))

theorem flip_agreeFirst (hn : n < 32) : AgreeFirst n (flip b n) b := by
  intro k hk
  unfold bitOf flip
  by_cases hbyte : k / 8 = n / 8
  · have hshift : ((1 : Byte) <<< UInt8.ofNat (7 - n % 8)).toNat = 2 ^ (7 - n % 8) :=
      shift_toNat ⟨7 - n % 8, by omega⟩
    rw [hbyte, Function.update_self, UInt8.toNat_xor, Nat.testBit_xor, hshift,
      Nat.testBit_two_pow_of_ne (by omega), Bool.xor_false]
  · have hval : ∀ m < 32, ((Fin.ofNat 4 (m / 8) : Fin 4) : Nat) = m / 8 := fun m hm => Nat.mod_eq_of_lt (by omega)
    rw [Function.update_of_ne]
    intro heq
    have heq := congrArg Fin.val heq
    rw [hval k (by omega), hval n hn] at heq
    exact hbyte heq

theorem flip_ne (b : Octets) (n : Nat) : flip b n (Fin.ofNat 4 (n / 8)) ≠ b (Fin.ofNat 4 (n / 8)) := by
  have hshift : ((1 : Byte) <<< UInt8.ofNat (7 - n % 8)).toNat = 2 ^ (7 - n % 8) :=
    shift_toNat ⟨7 - n % 8, by omega⟩
  have hbit : ((1 : Byte) <<< UInt8.ofNat (7 - n % 8)) ≠ 0 := by
    intro hzero
    rw [hzero] at hshift
    exact absurd hshift.symm (Nat.two_pow_pos _).ne'
  rw [flip, Function.update_self]
  intro heq
  refine hbit ((UInt8.xor_right_inj (b (Fin.ofNat 4 (n / 8)))).mp ?_)
  rw [heq, UInt8.xor_zero]

/-- **A network of n bits** has the addresses that agree with it in their first n bits when and only when n is a
multiple of 8. -/
theorem network_iff (nAddr nAddr' b : Octets) (hn : n ≤ 32) :
    ∃ r, rangeFactory nAddr (dotted b ++ ch '/' :: decimal n) = some r ∧
      ((∀ a, r.inRangeText nAddr' (dotted a) = true ↔ AgreeFirst n a b) ↔ 8 ∣ n) := by
  refine ⟨network b n, rangeFactory_network nAddr b hn, ?_⟩
  simp only [inRangeText_dotted, network_inRange_iff hn]
  constructor
  · intro h
    by_contra hdvd
    have hbyte := (h (flip b n)).mpr (flip_agreeFirst (by omega)) (Fin.ofNat 4 (n / 8))
      (by rw [show ((Fin.ofNat 4 (n / 8) : Fin 4) : Nat) = n / 8 from Nat.mod_eq_of_lt (by omega)]; omega)
    exact flip_ne b n hbyte
  · exact fun hdvd a => (agreeFirst_iff hn hdvd).symm

theorem network_24 :
    ∃ r, rangeFactory (fun _ => 0) (dotted ![192, 168, 0, 0] ++ ch '/' :: decimal 24) = some r ∧
      ((∀ a, r.inRangeText (fun _ => 0) (dotted a) = true ↔ AgreeFirst 24 a ![192, 168, 0, 0]) ↔ 8 ∣ 24) :=
  network_iff (fun _ => 0) (fun _ => 0) ![192, 168, 0, 0] (by norm_num)

/-- 192.168.50.0 is not in 192.168.51.0/23. -/
theorem not_network : ¬ ∀ (nAddr nAddr' b : Octets) (n : Nat), n ≤ 32 →
    ∃ r, rangeFactory nAddr (dotted b ++ ch '/' :: decimal n) = some r ∧
      ∀ a, r.inRangeText nAddr' (dotted a) = true ↔ AgreeFirst n a b := by
  intro h
  obtain ⟨r, hr, hin⟩ := h (fun _ => 0) (fun _ => 0) ![192, 168, 51, 0] 23 (by norm_num)
  rw [rangeFactory_network _ _ (by norm_num)] at hr
  cases hr
  have hagree : AgreeFirst 23 ![192, 168, 50, 0] ![192, 168, 51, 0] := by
    unfold AgreeFirst
    decide
  have hmem := (hin ![192, 168, 50, 0]).mpr hagree
  rw [inRangeText_dotted, network_inRange_iff (by norm_num)] at hmem
  exact absurd (hmem 2 (by norm_num)) (by decide)

end

/-! ## An interval -/

/-- An address as a 32-bit number. -/
def value (a : Octets) : Nat := (((a 0).toNat * 256 + (a 1).toNat) * 256 + (a 2).toNat) * 256 + (a 3).toNat

/-- The first byte in which two addresses differ, `k`, differs in its lowest bit. -/
def OddDifference (s e : Octets) : Prop :=
  ∀ k, (∀ j < k, s j = e j) → s k ≠ e k → (s k).toNat % 2 ≠ (e k).toNat % 2

section

variable {s e a : Octets}

theorem readOctets_eq {r : ReadingTwo} (hstart : r.start.eofbit = false) (hfinish : r.finish.eofbit = false) (i : Fin 4) :
    readOctets r i =
      let x := readOctet ⟨r.start, r.nTemp, r.nSep, r.nStart⟩ i
      let y := readOctet ⟨r.finish, x.nTemp, x.nSep, r.nEnd⟩ i
      ⟨x.stream, y.stream, y.nTemp, y.nSep, x.nAddr, y.nAddr⟩ := by
  simp [readOctets, readOctet, hstart, hfinish]

theorem readOctets_sep {b b' c c' : Byte} {rest rest' : Str} {i : Fin 4} {n : Int} {nSep : Byte} {nStart nEnd : Octets}
    (hdigit : isDigit c = false) (hspace : isSpace c = false) (hdigit' : isDigit c' = false) (hspace' : isSpace c' = false) :
    readOctets ⟨.ofText (decimal b.toNat ++ c :: rest), .ofText (decimal b'.toNat ++ c' :: rest'), n, nSep, nStart, nEnd⟩ i =
      ⟨.ofText rest, .ofText rest', b'.toNat, c', Function.update nStart i b, Function.update nEnd i b'⟩ := by
  rw [readOctets_eq rfl rfl]
  dsimp only
  rw [readOctet_sep hdigit hspace, readOctet_sep hdigit' hspace']

theorem readOctets_last {b b' : Byte} {i : Fin 4} {n : Int} {nSep : Byte} {nStart nEnd : Octets} :
    readOctets ⟨.ofText (decimal b.toNat), .ofText (decimal b'.toNat), n, nSep, nStart, nEnd⟩ i =
      ⟨⟨[], true, true⟩, ⟨[], true, true⟩, b'.toNat, nSep, Function.update nStart i b, Function.update nEnd i b'⟩ := by
  rw [readOctets_eq rfl rfl]
  dsimp only
  rw [readOctet_last, readOctet_last]

theorem readHosts_dotted (s e : Octets) : readHosts (dotted s) (dotted e) =
    ⟨⟨[], true, true⟩, ⟨[], true, true⟩, (e 3).toNat, ch '.', s, e⟩ := by
  unfold readHosts dotted indices
  simp only [List.foldl_cons, List.foldl_nil]
  rw [readOctets_sep (by decide) (by decide) (by decide) (by decide), readOctets_sep (by decide) (by decide) (by decide)
    (by decide), readOctets_sep (by decide) (by decide) (by decide) (by decide), readOctets_last, update_all, update_all]

theorem setHosts_dotted (s e : Octets) :
    setHosts (dotted s) (dotted e) = (⟨s, e, maskOf (commonBits s e)⟩, true) := by
  unfold setHosts
  rw [readHosts_dotted]
  exact if_pos ⟨rfl, rfl⟩

/-! ### How far two addresses agree, the lowest bit of each byte first -/

theorem differ_eq_false_iff (i : Fin 4) {j : Nat} (hj : j < 8) :
    differ s e (8 * i + j) = false ↔ (s i).toNat.testBit j = (e i).toNat.testBit j := by
  have hdiv : (8 * (i : Nat) + j) / 8 = i := by omega
  have hmod : (8 * (i : Nat) + j) % 8 = j := by omega
  rw [← and_shift_eq_iff hj, differ, hdiv, hmod, Fin.ofNat_val_eq_self]
  simp

theorem commonBits_le (s e : Octets) : commonBits s e ≤ 32 := by
  unfold commonBits
  cases h : (List.range 32).find? (differ s e) with
  | none => exact le_refl 32
  | some m =>
    have hm := List.find?_range_eq_some.mp h
    exact (List.mem_range.mp hm.2.1).le

theorem differ_of_lt {m : Nat} (h : m < commonBits s e) : differ s e m = false := by
  unfold commonBits at h
  cases hfind : (List.range 32).find? (differ s e) with
  | none =>
    rw [hfind] at h
    have hall := List.find?_eq_none.mp hfind m (List.mem_range.mpr h)
    exact Bool.eq_false_of_not_eq_true hall
  | some n =>
    rw [hfind] at h
    have hn := (List.find?_range_eq_some.mp hfind).2.2 m h
    simpa using hn

theorem differ_commonBits (h : commonBits s e < 32) : differ s e (commonBits s e) = true := by
  unfold commonBits at h ⊢
  cases hfind : (List.range 32).find? (differ s e) with
  | none =>
    rw [hfind] at h
    exact absurd h (lt_irrefl 32)
  | some n => exact (List.find?_range_eq_some.mp hfind).1

theorem eq_of_commonBits {i : Fin 4} (h : 8 * (i : Nat) + 8 ≤ commonBits s e) : s i = e i := by
  refine byte_ext fun j hj => ?_
  exact (differ_eq_false_iff i hj).mp (differ_of_lt (by omega))

/-- The loop stops in the first byte that differs. -/
theorem commonBits_in {k : Fin 4} (hfront : ∀ j < k, s j = e j) (hne : s k ≠ e k) :
    8 * (k : Nat) ≤ commonBits s e ∧ commonBits s e < 8 * (k : Nat) + 8 := by
  constructor
  · by_contra hlt
    rw [not_le] at hlt
    have hn : commonBits s e < 32 := by omega
    have hdiffer := differ_commonBits hn
    have hsplit : commonBits s e = 8 * (commonBits s e / 8) + commonBits s e % 8 := by omega
    have hbit := (@differ_eq_false_iff s e ⟨commonBits s e / 8, by omega⟩ _
      (Nat.mod_lt (commonBits s e) (by norm_num))).mpr (by rw [hfront _ (Fin.lt_def.mpr (by dsimp only; omega))])
    dsimp only at hbit
    rw [← hsplit, hdiffer] at hbit
    exact absurd hbit (by simp)
  · by_contra hge
    rw [not_lt] at hge
    exact hne (eq_of_commonBits hge)

/-- Where the lowest bit of that byte differs, the mask has whole bytes. -/
theorem commonBits_of_odd (h : OddDifference s e) : 8 ∣ commonBits s e := by
  have hle := commonBits_le s e
  by_contra hdvd
  have hlt : commonBits s e < 32 := by omega
  let k : Fin 4 := ⟨commonBits s e / 8, by omega⟩
  have hfront : ∀ j < k, s j = e j := fun j hj => eq_of_commonBits (by have := Fin.lt_def.mp hj; dsimp only [k] at this; omega)
  have hdiffer := differ_commonBits hlt
  have hsplit : commonBits s e = 8 * (k : Nat) + commonBits s e % 8 := by dsimp only [k]; omega
  have hne : s k ≠ e k := by
    intro heq
    have hbit := (@differ_eq_false_iff s e k (commonBits s e % 8) (Nat.mod_lt _ (by norm_num))).mpr (by rw [heq])
    rw [← hsplit, hdiffer] at hbit
    exact absurd hbit (by simp)
  have hodd := h k hfront hne
  have hlow : differ s e (8 * (k : Nat) + 0) = false := differ_of_lt (by dsimp only [k]; omega)
  have hbit := (differ_eq_false_iff k (by norm_num)).mp hlow
  rw [Nat.testBit_zero, Nat.testBit_zero] at hbit
  have hparity := decide_eq_decide.mp hbit
  omega

theorem notAbove_congr {a a' b b' : Octets} {is : List (Fin 4)} (h : ∀ i ∈ is, a i = a' i ∧ b i = b' i) :
    notAbove a b is = notAbove a' b' is := by
  induction is with
  | nil => rfl
  | cons i is ih =>
    obtain ⟨⟨ha, hb⟩, his⟩ := List.forall_mem_cons.mp h
    rw [notAbove, notAbove, ha, hb, ih his]

theorem notAbove_cons_iff (i : Fin 4) (is : List (Fin 4)) :
    notAbove s a (i :: is) = true ↔ (s i).toNat < (a i).toNat ∨ (s i).toNat = (a i).toNat ∧ notAbove s a is = true := by
  simp only [notAbove, UInt8.lt_iff_toNat_lt]
  split_ifs with hlt hgt
  · exact iff_of_true rfl (.inl hlt)
  · refine iff_of_false (by simp) ?_
    omega
  · rw [and_iff_right (Nat.le_antisymm (not_lt.mp hgt) (not_lt.mp hlt)), or_iff_right hlt]

theorem notAbove_indices : notAbove s a indices = true ↔ value s ≤ value a := by
  have hs := fun i => (s i).toNat_lt
  have ha := fun i => (a i).toNat_lt
  have h0 := hs 0
  have h1 := hs 1
  have h2 := hs 2
  have h3 := hs 3
  have g0 := ha 0
  have g1 := ha 1
  have g2 := ha 2
  have g3 := ha 3
  rw [indices, notAbove_cons_iff, notAbove_cons_iff, notAbove_cons_iff, notAbove_cons_iff]
  simp only [notAbove, value, and_true]
  omega

/-- With a mask of whole bytes the range is the interval. -/
theorem wholeBytes_inRange_iff {m : Octets} {k : Nat} (hk : k ≤ 4) (hfull : ∀ i : Fin 4, (i : Nat) < k → m i = 255)
    (hzero : ∀ i : Fin 4, k ≤ (i : Nat) → m i = 0) (hsame : ∀ i : Fin 4, (i : Nat) < k → s i = e i) :
    (⟨s, e, m⟩ : Ipv4Range).inRange a = true ↔ value s ≤ value a ∧ value a ≤ value e := by
  have htake : ∀ i, i ∈ indices.take k ↔ (i : Nat) < k := mem_take ⟨k, by omega⟩
  have hdrop : ∀ i, i ∈ indices.drop k ↔ k ≤ (i : Nat) := mem_drop ⟨k, by omega⟩
  have hnone : ∀ x : Byte, x &&& ~~~255 = 0 := fun x => UInt8.and_zero
  have hall : ∀ x : Byte, x &&& ~~~0 = x := fun x => UInt8.and_neg_one
  have hcut : ∀ x y : Octets, notAbove (fun i => x i &&& ~~~ m i) (fun i => y i &&& ~~~ m i) (indices.drop k) =
      notAbove x y (indices.drop k) := by
    intro x y
    refine notAbove_congr fun i hi => ?_
    rw [hzero i ((hdrop i).mp hi), hall, hall]
    exact ⟨rfl, rfl⟩
  have hbetween := @between_append s a e (indices.drop k) (indices.take k) (fun i hi => hsame i ((htake i).mp hi))
  rw [List.take_append_drop, notAbove_indices, notAbove_indices] at hbetween
  have hhost : ∀ i : Fin 4, (i : Nat) < k → (⟨s, e, m⟩ : Ipv4Range).host s i = (⟨s, e, m⟩ : Ipv4Range).host e i :=
    fun i hi => congrArg (· &&& ~~~ m i) (hsame i hi)
  rw [hbetween, inRange_iff hk hhost]
  unfold Ipv4Range.host
  dsimp only
  rw [hcut, hcut]
  constructor
  · rintro ⟨hnet, -, hrest⟩
    refine ⟨fun i hi => ?_, hrest⟩
    refine eq_of_parts (hnet i) ?_
    rw [hfull i ((htake i).mp hi), hnone, hnone]
  · rintro ⟨hfront, hrest⟩
    refine ⟨fun i => ?_, fun i hi => ?_, hrest⟩
    · rcases lt_or_ge (i : Nat) k with hi | hi
      · rw [hfront i ((htake i).mpr hi)]
      · rw [hzero i hi, UInt8.and_zero, UInt8.and_zero]
    · rw [hfront i ((htake i).mpr hi)]

theorem hosts_inRange_iff (h : 8 ∣ commonBits s e) :
    (⟨s, e, maskOf (commonBits s e)⟩ : Ipv4Range).inRange a = true ↔ value s ≤ value a ∧ value a ≤ value e := by
  have hle := commonBits_le s e
  obtain ⟨k, hk⟩ := h
  refine wholeBytes_inRange_iff (k := k) (by omega) (fun i hi => ?_) (fun i hi => ?_) (fun i hi => ?_)
  · exact maskOf_full hle (by omega)
  · exact maskOf_zero hle (by omega)
  · exact eq_of_commonBits (by omega)

/-- The end of an interval whose mask has a bit in which it differs from the start. -/
theorem inRange_end {k : Fin 4} (hfront : ∀ j < k, s j = e j) (hne : s k ≠ e k)
    (heven : (s k).toNat % 2 = (e k).toNat % 2) :
    (⟨s, e, maskOf (commonBits s e)⟩ : Ipv4Range).inRange e = false := by
  have hle := commonBits_le s e
  obtain ⟨hlo, hhi⟩ := commonBits_in hfront hne
  have hdiffer : differ s e (commonBits s e) = true := differ_commonBits (by omega)
  have hfirst : commonBits s e ≠ 8 * (k : Nat) := by
    intro heq
    have hbit : differ s e (8 * (k : Nat) + 0) = false := by
      refine (differ_eq_false_iff k (by norm_num)).mpr ?_
      rw [Nat.testBit_zero, Nat.testBit_zero, heven]
    rw [Nat.add_zero, ← heq, hdiffer] at hbit
    exact absurd hbit (by simp)
  by_contra hin
  have hnet := ((inRange_iff (k := 0) (by norm_num) (fun i hi => absurd hi (Nat.not_lt_zero i))).mp
    (Bool.eq_true_of_not_eq_false hin)).1 k
  have hbit := testBit_eq_of_and hnet (maskOf_bit hle (by omega) hhi)
  have hsame := (@differ_eq_false_iff s e k (commonBits s e - 8 * k) (by omega)).mpr hbit.symm
  rw [show 8 * (k : Nat) + (commonBits s e - 8 * k) = commonBits s e by omega, hdiffer] at hsame
  exact absurd hsame (by simp)

/-- **An interval** has the addresses between its ends when and only when the first byte in which these differ
differs in its lowest bit. -/
theorem interval_iff (nAddr : Octets) (h : value s ≤ value e) :
    (setHosts (dotted s) (dotted e)).2 = true ∧
      ((∀ a, (setHosts (dotted s) (dotted e)).1.inRangeText nAddr (dotted a) = true ↔
        value s ≤ value a ∧ value a ≤ value e) ↔ OddDifference s e) := by
  rw [setHosts_dotted]
  simp only [inRangeText_dotted, true_and]
  constructor
  · intro hin k hfront hne heven
    have hend := (hin e).mpr ⟨h, le_refl _⟩
    rw [inRange_end hfront hne heven] at hend
    exact absurd hend (by simp)
  · exact fun hodd a => hosts_inRange_iff (commonBits_of_odd hodd)

theorem interval_200 :
    (setHosts (dotted ![192, 168, 0, 100]) (dotted ![192, 168, 0, 201])).2 = true ∧
      ((∀ a, (setHosts (dotted ![192, 168, 0, 100]) (dotted ![192, 168, 0, 201])).1.inRangeText (fun _ => 0) (dotted a) =
        true ↔ value ![192, 168, 0, 100] ≤ value a ∧ value a ≤ value ![192, 168, 0, 201]) ↔
        OddDifference ![192, 168, 0, 100] ![192, 168, 0, 201]) :=
  interval_iff (fun _ => 0) (by decide)

/-- 192.168.0.200 is not in 192.168.0.100-192.168.0.200. -/
theorem not_interval : ¬ ∀ (nAddr s e : Octets), value s ≤ value e →
    (setHosts (dotted s) (dotted e)).2 = true ∧
      ∀ a, (setHosts (dotted s) (dotted e)).1.inRangeText nAddr (dotted a) = true ↔
        value s ≤ value a ∧ value a ≤ value e := by
  intro h
  have hend := ((h (fun _ => 0) ![192, 168, 0, 100] ![192, 168, 0, 200] (by decide)).2 ![192, 168, 0, 200]).mpr
    ⟨by decide, le_refl _⟩
  rw [setHosts_dotted, inRangeText_dotted, inRange_end (k := 3) (by decide) (by decide) (by decide)] at hend
  exact absurd hend (by simp)

end

end MyServer.Ip
