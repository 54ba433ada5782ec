import MyServer.MemBuf.Numbers

/-!
# Hexadecimal text in a `MemBuf`

The parameters of `hex` hide the length of the buffer, so that the byte behind the text stays in it.
-/

namespace MyServer.MemBuf

def hexChar (n : Nat) : Byte := (ascii "0123456789abcdef").getD n 0

def hexCharToNumber (c : Byte) : Nat :=
  if 48 ≤ c.toNat ∧ c.toNat ≤ 57 then c.toNat - 48
  else if 97 ≤ c.toNat ∧ c.toNat ≤ 102 then c.toNat - 87
  else if 65 ≤ c.toNat ∧ c.toNat ≤ 70 then c.toNat - 55
  else 0

section

variable (junk : Nat → Byte)

/-- The loop of `hex`. -/
def putHex : Str → Heap Byte → MemBuf → Option (Heap Byte × MemBuf)
  | [], h, m => some (h, m)
  | c :: s, h, m =>
    (m.putChar junk (hexChar (c.toNat / 16)) h).bind fun r =>
    (r.2.putChar junk (hexChar (c.toNat % 16)) r.1).bind fun r => putHex s r.1 r.2

def hex (s : Str) (h : Heap Byte) (m : MemBuf) : Option (Heap Byte × MemBuf) :=
  (m.setRealLength junk (s.length * 2 + 1) h).bind fun r =>
  (putHex junk s r.1 r.2).bind fun r =>
  -- The length that is set behind this is the parameter.
  r.2.putChar junk 0 r.1

/-- The loop of `hexToData`. -/
def putData : Str → Heap Byte → MemBuf → Option (Heap Byte × MemBuf)
  | a :: b :: s, h, m =>
    (m.putChar junk (UInt8.ofNat (16 * hexCharToNumber a + hexCharToNumber b)) h).bind fun r => putData s r.1 r.2
  | _, h, m => some (h, m)

def hexToData (src : Heap.Source Byte) (h : Heap Byte) : Option (Heap Byte × MemBuf) :=
  if src.size % 2 = 1 then (new.setBuffer junk (.outside [0]) h).map fun r => (r.1, r.2.copy)
  else
    (src.load h src.size).bind fun text =>
    (MemBuf.setRealLength junk (src.size / 2) h { new with bCanDelete := false }).bind fun r =>
    (putData junk text r.1 r.2).map fun r => (r.1, r.2.copy)

end

def hexText (s : Str) : Str := s.flatMap fun c => [hexChar (c.toNat / 16), hexChar (c.toNat % 16)]

/-- `hex` gives a text of two characters a byte, and `hexToData` gives the bytes of it. -/
def HexTold (junk : Nat → Byte) (h : Heap Byte) (m : MemBuf) (s : Str) : Prop :=
  ∃ h' m', m.hex junk s h = some (h', m') ∧ m'.nSize = 2 * s.length ∧
    Holds s (hexToData junk (.inside m'.buffer 0 (2 * s.length)) h')

section

variable {junk : Nat → Byte} {h : Heap Byte} {m : MemBuf} {s : Str}

theorem length_hexText (s : Str) : (hexText s).length = 2 * s.length := by
  induction s with
  | nil => rfl
  | cons c s ih =>
    change (hexText s).length + 2 = 2 * (s.length + 1)
    omega

theorem hexCharToNumber_hexChar {n : Nat} (hn : n < 16) : hexCharToNumber (hexChar n) = n := by
  interval_cases n <;> rfl

theorem putHex_spec (hm : Represents h m) :
    ∃ h' m', putHex junk s h m = some (h', m') ∧ Represents h' m' ∧ m'.content h' = m.cut (m.content h ++ hexText s) ∧
      m'.nSizeLimit = m.nSizeLimit := by
  induction s generalizing h m with
  | nil =>
    refine ⟨h, m, rfl, hm, ?_, rfl⟩
    have hlimit := hm.limit
    have hlength := hm.content_length
    have hsize := hm.size_le
    have hnil : hexText [] = [] := rfl
    rw [hnil, List.append_nil, cut]
    split_ifs with hzero
    · rfl
    · rw [List.take_of_length_le (by omega)]
  | cons c s ih =>
    obtain ⟨h₁, m₁, hput₁, hm₁, hcontent₁, hlimit₁⟩ := @putChar_spec junk h m hm (hexChar (c.toNat / 16))
    obtain ⟨h₂, m₂, hput₂, hm₂, hcontent₂, hlimit₂⟩ := @putChar_spec junk h₁ m₁ hm₁ (hexChar (c.toNat % 16))
    obtain ⟨h₃, m₃, hput₃, hm₃, hcontent₃, hlimit₃⟩ := ih hm₂
    have hlimit := hlimit₂.trans hlimit₁
    refine ⟨h₃, m₃, ?_, hm₃, ?_, hlimit₃.trans hlimit⟩
    · rw [putHex, hput₁, Option.bind_some, hput₂, Option.bind_some, hput₃]
    · rw [hcontent₃, cut_congr hlimit, hcontent₂, cut_congr hlimit₁, hcontent₁, cut_append, List.append_assoc, cut_append,
        List.append_assoc]
      rfl

theorem hex_spec (hm : Represents h m) :
    ∃ h' m', m.hex junk s h = some (h', m') ∧ Represents h' m' ∧
      m'.content h' = m.cut (m.content h ++ (hexText s ++ [0])) := by
  obtain ⟨h₁, m₁, hgrow, hm₁, hcontent₁, -, -, hlimit₁, -⟩ := @setRealLength_spec junk h m (s.length * 2 + 1) hm
  obtain ⟨h₂, m₂, hput, hm₂, hcontent₂, hlimit₂⟩ := @putHex_spec junk h₁ m₁ s hm₁
  obtain ⟨h₃, m₃, hend, hm₃, hcontent₃, -⟩ := @putChar_spec junk h₂ m₂ hm₂ 0
  refine ⟨h₃, m₃, ?_, hm₃, ?_⟩
  · rw [hex, hgrow, Option.bind_some, hput, Option.bind_some, hend]
  · rw [hcontent₃, cut_congr (hlimit₂.trans hlimit₁), hcontent₂, cut_congr hlimit₁, hcontent₁, cut_append,
      List.append_assoc]

theorem putData_spec (hm : Represents h m) (hlimit : m.nSizeLimit = 0) :
    ∃ h' m', putData junk (hexText s) h m = some (h', m') ∧ Represents h' m' ∧ m'.content h' = m.content h ++ s := by
  induction s generalizing h m with
  | nil => exact ⟨h, m, rfl, hm, (List.append_nil _).symm⟩
  | cons c s ih =>
    have hlt := c.toNat_lt
    have hbyte : UInt8.ofNat (16 * hexCharToNumber (hexChar (c.toNat / 16)) + hexCharToNumber (hexChar (c.toNat % 16))) =
        c := by
      rw [hexCharToNumber_hexChar (by omega), hexCharToNumber_hexChar (by omega), Nat.div_add_mod]
      exact UInt8.ofNat_toNat
    obtain ⟨h₁, m₁, hput, hm₁, hcontent₁, hlimit₁⟩ := @putChar_spec junk h m hm c
    obtain ⟨h₂, m₂, hrest, hm₂, hcontent₂⟩ := ih hm₁ (hlimit₁.trans hlimit)
    refine ⟨h₂, m₂, ?_, hm₂, ?_⟩
    · have hcons : hexText (c :: s) = hexChar (c.toNat / 16) :: hexChar (c.toNat % 16) :: hexText s := rfl
      rw [hcons, putData, hbyte, hput, Option.bind_some, hrest]
    · rw [hcontent₂, hcontent₁, cut, if_pos hlimit, List.append_assoc]
      rfl

/-- **What `hex` writes is read back.** -/
theorem hexToData_hexText {src : Heap.Source Byte} (hload : src.load h src.size = some (hexText s)) :
    Holds s (hexToData junk src h) := by
  have hsize := Heap.load_length hload
  rw [length_hexText] at hsize
  have hnew : Represents h { new with bCanDelete := false } := ⟨le_rfl, Or.inl rfl, (represents_new h).allocated, le_rfl⟩
  obtain ⟨h₁, m₁, hgrow, hm₁, hcontent₁, -, -, hlimit₁, -⟩ := @setRealLength_spec junk h _ (src.size / 2) hnew
  obtain ⟨h₂, m₂, hput, hm₂, hcontent₂⟩ := @putData_spec junk h₁ m₁ s hm₁ hlimit₁
  have htext : m₂.copy.content h₂ = s := by
    have hnil : content h { new with bCanDelete := false } = [] := rfl
    rw [hcontent₁, hnil, List.nil_append] at hcontent₂
    exact hcontent₂
  refine ⟨h₂, m₂.copy, ?_, ?_, htext⟩
  · rw [hexToData, if_neg (by omega), hload, Option.bind_some, hgrow, Option.bind_some, hput]
    rfl
  · rw [← htext, hm₂.copy.content_length]

theorem hexTold_iff (hm : Represents h m) (hempty : m.nSize = 0) :
    HexTold junk h m s ↔ s ≠ [] ∧ m.nSizeLimit = 2 * s.length := by
  obtain ⟨h', m', hcall, hm', hcontent⟩ := @hex_spec junk h m s hm
  have hnil : m.content h = [] := by
    rw [content, hempty, List.take_zero]
  rw [hnil, List.nil_append] at hcontent
  have hlength : m'.nSize = (m.cut (hexText s ++ [0])).length := by rw [← hcontent, hm'.content_length]
  have hwhole : (hexText s ++ [0]).length = 2 * s.length + 1 := by
    rw [List.length_append, length_hexText]
    rfl
  have hsize : m'.nSize = 2 * s.length ↔ s ≠ [] ∧ m.nSizeLimit = 2 * s.length := by
    rw [hlength, cut, ← List.length_pos_iff]
    split_ifs with hlimit
    · rw [hwhole]
      omega
    · rw [List.length_take, hwhole]
      omega
  constructor
  · rintro ⟨_, _, heq, hn, -⟩
    cases hcall.symm.trans heq
    exact hsize.mp hn
  · intro hcond
    refine ⟨h', m', hcall, hsize.mpr hcond, hexToData_hexText ?_⟩
    have htext : m'.content h' = hexText s := by
      rw [hcontent, cut, if_neg (by have hpos := List.length_pos_iff.mpr hcond.1; omega), hcond.2, ← length_hexText,
        List.take_left]
    rw [← hsize.mpr hcond, ← htext]
    exact load_whole hm'

/-- **The numbers and the texts that are told.** -/
theorem told_iff (junk : Nat → Byte) (h : Heap Byte) (m e : MemBuf) (i : BitVec 32) (s : Str) (hm : Represents h m)
    (he : Represents h e) (hempty : e.nSize = 0) :
    (Holds (decimalInt i.toInt) (m.intToStr junk i h) ∧ strToInt (decimalInt i.toInt) = i ↔ Tells m (m.content h) i) ∧
      (HexTold junk h e s ↔ s ≠ [] ∧ e.nSizeLimit = 2 * s.length) := by
  rw [and_iff_left (strToInt_decimalInt i)]
  exact ⟨intToStr_iff hm i, hexTold_iff he hempty⟩

end

theorem told_seven : (Holds (decimalInt (7 : BitVec 32).toInt) (new.intToStr (fun _ => 0) 7 []) ∧
      strToInt (decimalInt (7 : BitVec 32).toInt) = 7 ↔ Tells new (new.content []) 7) ∧
    (HexTold (fun _ => 0) [] new [7] ↔ [(7 : Byte)] ≠ [] ∧ new.nSizeLimit = 2 * [(7 : Byte)].length) :=
  told_iff (fun _ => 0) [] new new 7 [7] (represents_new []) (represents_new []) rfl

/-- The byte behind the text of an empty string is counted. -/
theorem hex_counts_end : ¬∀ (junk : Nat → Byte) (h : Heap Byte) (m e : MemBuf) (i : BitVec 32) (s : Str), Represents h m →
    Represents h e → e.nSize = 0 → (Holds (decimalInt i.toInt) (m.intToStr junk i h) ∧
      strToInt (decimalInt i.toInt) = i) ∧ HexTold junk h e s := by
  intro hall
  have hnew := represents_new []
  exact ((hexTold_iff hnew rfl).mp (hall (fun _ => 0) [] new new 0 [] hnew hnew rfl).2).1 rfl

end MyServer.MemBuf
