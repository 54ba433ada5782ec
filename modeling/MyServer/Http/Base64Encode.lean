import MyServer.Http.Base64Decode

/-!
# The encoder of Base64

`CBase64Utils::encode` (mime_utils.cpp), and which texts come back from the decoder.
-/

open MyServer.Base64 MyServer.HeaderLines

namespace MyServer.RequestHeader

def MaxLineLength : Nat := 76

structure Encoding where
  s : Str
  count : Nat
  tmp : BitVec 32
  LineLen : Nat
  fresult : Str

/-- `(tmp >> 8) & 0xFFFFFF`. -/
def masked (tmp : BitVec 32) : BitVec 32 := tmp.sshiftRight 8 &&& 0xFFFFFF#32

/-- `base64chars[(tmp >> shift) & 0x3F]`. -/
def charOf (tmp : BitVec 32) (shift : Nat) : Byte := base64chars.getD (tmp.sshiftRight shift &&& 0x3F#32).toNat 0

/-- The three bytes that were read are written. -/
def Encoding.flush (e : Encoding) : Encoding :=
  let fresult := e.fresult ++ [18, 12, 6, 0].map (charOf (masked e.tmp))
  if MaxLineLength ≤ e.LineLen + 4 then { e with tmp := 0, fresult := fresult ++ crlf, LineLen := 0 }
  else { e with tmp := 0, fresult, LineLen := e.LineLen + 4 }

/-- One more byte. `256 - (0 - *s)` is the byte as it is without a sign. -/
def Encoding.read (e : Encoding) : Option Encoding :=
  match e.s with
  | [] => none
  | c :: s => some { e with s, tmp := (e.tmp ||| c.toBitVec.setWidth 32) <<< 8, count := e.count + 1 }

def encodeLoop (bufsize : Nat) : Nat → Encoding → Option Encoding
  | 0, e => some e
  | fuel + 1, e =>
    if bufsize < e.count then some e
    else if e.count % 3 = 0 ∧ e.count ≠ 0 then
      if bufsize - e.count < 3 then some e.flush
      else e.flush.read.bind (encodeLoop bufsize fuel)
    else e.read.bind (encodeLoop bufsize fuel)

/-- One turn of the loop over what is left, where a byte is also taken with its sign. -/
def Encoding.tail (rest : Int) (e : Encoding) (i : Nat) : Option Encoding :=
  if i < rest then
    match e.s with
    | [] => none
    | c :: s =>
      some { e with s, count := e.count + 1,
                    tmp := (e.tmp ||| c.toBitVec.setWidth 32 ||| c.toBitVec.signExtend 32) <<< 8 }
  else some { e with tmp := (e.tmp ||| 0) <<< 8 }

/-- What is written behind whole groups. -/
def Encoding.finish (bufsize : Nat) (e : Encoding) : Option Str :=
  let rest := ((bufsize : Int) - e.count).tmod 3
  if rest = 0 then some e.fresult
  else
    ([0, 1, 2].foldlM (Encoding.tail rest) { e with tmp := 0 }).map fun e =>
      let shifts := (if 1 ≤ rest then [18, 12] else []) ++ (if 2 ≤ rest then [6] else []) ++
        if 3 ≤ rest then [0] else []
      e.fresult ++ shifts.map (charOf (masked e.tmp)) ++ List.replicate (3 - rest).toNat (ch '=')

/-- `input` is what memory has there. The buffer is cleared before it is written to. -/
def encode (input : Str) (bufsize : Nat) : Option Str :=
  -- The product is an int.
  if 2 ^ 31 ≤ bufsize * 4 then none
  else
    let alsize := bufsize * 4 / 3
    let size := alsize + alsize / 76 * 2 + 10
    match (encodeLoop bufsize (bufsize + 1) ⟨input, 0, 0, 0, []⟩).bind (Encoding.finish bufsize) with
    | none => none
    | some text => if size < text.length then none else some (text ++ List.replicate (size - text.length) 0)

/-! ## Groups -/

theorem toNat_or_byte {tmp : BitVec 32} (htmp : tmp.toNat % 256 = 0) (c : Byte) :
    (tmp ||| c.toBitVec.setWidth 32).toNat = tmp.toNat + c.toNat := by
  have hc := c.toNat_lt
  have hbyte : (c.toBitVec.setWidth 32).toNat = c.toNat := by
    rw [BitVec.toNat_setWidth]
    exact Nat.mod_eq_of_lt (by change c.toNat < _; omega)
  have hsplit : tmp.toNat = (tmp.toNat / 256) <<< 8 := by
    rw [Nat.shiftLeft_eq]
    omega
  rw [BitVec.toNat_or, hbyte, hsplit, Nat.shiftLeft_add_eq_or_of_lt hc]

/-- Three bytes, as they are put together. -/
def packed (a b c : Byte) : BitVec 32 :=
  ((((0 ||| a.toBitVec.setWidth 32) <<< 8 ||| b.toBitVec.setWidth 32) <<< 8) ||| c.toBitVec.setWidth 32) <<< 8

theorem toNat_packed (a b c : Byte) : (packed a b c).toNat = number a b c * 256 := by
  have ha := a.toNat_lt
  have hb := b.toNat_lt
  have hc := c.toNat_lt
  have hone : ((0 ||| a.toBitVec.setWidth 32) <<< 8 : BitVec 32).toNat = a.toNat * 256 := by
    rw [BitVec.toNat_shiftLeft, toNat_or_byte (by rfl), Nat.shiftLeft_eq]
    simp
    omega
  have htwo : (((0 ||| a.toBitVec.setWidth 32) <<< 8 ||| b.toBitVec.setWidth 32) <<< 8 : BitVec 32).toNat =
      (a.toNat * 256 + b.toNat) * 256 := by
    rw [BitVec.toNat_shiftLeft, toNat_or_byte (by rw [hone]; omega), hone, Nat.shiftLeft_eq]
    omega
  unfold packed
  rw [BitVec.toNat_shiftLeft, toNat_or_byte (by rw [htwo]; omega), htwo, Nat.shiftLeft_eq]
  unfold number
  omega

theorem toNat_masked (tmp : BitVec 32) : (masked tmp).toNat = tmp.toNat / 256 := by
  have hmask : ∀ i < 32, (0xFFFFFF#32).getLsbD i = decide (i < 24) := by decide
  have hshift : masked tmp = tmp >>> 8 := by
    apply BitVec.eq_of_getLsbD_eq
    intro i hi
    rw [masked, BitVec.getLsbD_and, BitVec.getLsbD_sshiftRight, BitVec.getLsbD_ushiftRight, hmask i hi]
    by_cases hlow : i < 24
    · simp [hlow, hi, (by omega : 8 + i < 32)]
    · simp [hlow, BitVec.getLsbD_of_ge tmp (8 + i) (by omega)]
  rw [hshift, BitVec.toNat_ushiftRight, Nat.shiftRight_eq_div_pow]

theorem charOf_eq {tmp : BitVec 32} (h : tmp.toNat < 2 ^ 24) (shift : Nat) :
    charOf tmp shift = digit (tmp.toNat / 2 ^ shift % 64) := by
  have hmsb : tmp.msb = false := BitVec.msb_eq_false_iff_two_mul_lt.mpr (by omega)
  have hmask : (tmp.sshiftRight shift &&& 0x3F#32).toNat = tmp.toNat / 2 ^ shift % 64 := by
    have hpow : (0x3F#32).toNat = 2 ^ 6 - 1 := rfl
    rw [BitVec.toNat_and, hpow, Nat.and_two_pow_sub_one_eq_mod, BitVec.toNat_sshiftRight_of_msb_false hmsb,
      Nat.shiftRight_eq_div_pow]
  unfold charOf digit
  rw [hmask]

theorem chars_packed (a b c : Byte) :
    [18, 12, 6, 0].map (charOf (masked (packed a b c))) = (digits (number a b c)).map digit := by
  have hnumber := number_lt a b c
  have hnat : (masked (packed a b c)).toNat = number a b c := by
    rw [toNat_masked, toNat_packed, Nat.mul_div_cancel _ (by decide)]
  have hchar : ∀ shift, charOf (masked (packed a b c)) shift = digit (number a b c / 2 ^ shift % 64) := by
    intro shift
    rw [charOf_eq (by rw [hnat]; exact hnumber), hnat]
  have hhigh : number a b c / 262144 % 64 = number a b c / 262144 := Nat.mod_eq_of_lt (by omega)
  simp [hchar, digits, hhigh]

/-! ## Whole groups -/

/-- What is written for the whole groups, in lines. -/
def wrapped (LineLen : Nat) : Str → Str
  | a :: b :: c :: s =>
    (digits (number a b c)).map digit ++
      if MaxLineLength ≤ LineLen + 4 then crlf ++ wrapped 0 s else wrapped (LineLen + 4) s
  | _ => []

theorem flush_packed (e : Encoding) {a b c : Byte} (htmp : e.tmp = packed a b c) :
    e.flush = { e with
      tmp := 0
      LineLen := if MaxLineLength ≤ e.LineLen + 4 then 0 else e.LineLen + 4
      fresult := e.fresult ++ ((digits (number a b c)).map digit ++
        if MaxLineLength ≤ e.LineLen + 4 then crlf else []) } := by
  unfold Encoding.flush
  rw [htmp, chars_packed]
  split_ifs <;> simp

/-- The bytes of a group are read. -/
theorem encodeLoop_read {bufsize fuel : Nat} {e : Encoding} {a b c : Byte} {s : Str} (hs : e.s = a :: b :: c :: s)
    (htmp : e.tmp = 0) (hcount : e.count % 3 = 0) (hroom : e.count + 3 ≤ bufsize) :
    e.read.bind (encodeLoop bufsize (fuel + 2)) =
      encodeLoop bufsize fuel { e with s, tmp := packed a b c, count := e.count + 3 } := by
  have hread : ∀ {e : Encoding} {c : Byte} {s : Str}, e.s = c :: s →
      e.read = some { e with s, tmp := (e.tmp ||| c.toBitVec.setWidth 32) <<< 8, count := e.count + 1 } := by
    intro e c s hs
    unfold Encoding.read
    rw [hs]
  have hturn : ∀ {n : Nat} {e : Encoding}, ¬ bufsize < e.count → e.count % 3 ≠ 0 →
      encodeLoop bufsize (n + 1) e = e.read.bind (encodeLoop bufsize n) := by
    intro n e hle hmod
    rw [encodeLoop, if_neg hle, if_neg (by simp [hmod])]
  rw [hread hs, Option.bind_some, hturn (by dsimp only; omega) (by dsimp only; omega), hread rfl, Option.bind_some,
    hturn (by dsimp only; omega) (by dsimp only; omega), hread rfl, Option.bind_some, htmp]
  rfl

theorem exists_group {s : Str} (h : 3 ≤ s.length) : ∃ a b c text, s = a :: b :: c :: text := by
  match s, h with
  | a :: b :: c :: text, _ => exact ⟨a, b, c, text, rfl⟩

theorem wrapped_short {s : Str} (h : s.length < 3) (LineLen : Nat) : wrapped LineLen s = [] := by
  match s, h with
  | [], _ => rfl
  | [_], _ => rfl
  | [_, _], _ => rfl

section

variable {bufsize : Nat} {more text : Str} {e : Encoding} {a b c : Byte}

/-- The last group. -/
theorem encodeLoop_last (hs : e.s = text ++ more) (htmp : e.tmp = packed a b c) (hcount : e.count % 3 = 0)
    (hpos : e.count ≠ 0) (hsize : text.length + e.count = bufsize) (hshort : text.length < 3) (fuel : Nat) :
    ∃ LineLen, encodeLoop bufsize (fuel + 1) e = some
      ⟨text.drop (text.length / 3 * 3) ++ more, bufsize - text.length % 3, 0, LineLen,
        e.fresult ++ wrapped e.LineLen (a :: b :: c :: text)⟩ := by
  refine ⟨if MaxLineLength ≤ e.LineLen + 4 then 0 else e.LineLen + 4, ?_⟩
  have hend : bufsize - e.count < 3 := by omega
  have hat : bufsize - text.length % 3 = e.count := by omega
  rw [encodeLoop, if_neg (by omega), if_pos ⟨hcount, hpos⟩, if_pos hend, flush_packed e htmp, hat,
    Nat.div_eq_of_lt hshort, hs, wrapped, wrapped_short hshort, wrapped_short hshort]
  simp

/-- The loop, when a group was read and is not written yet. -/
theorem encodeLoop_groups (hs : e.s = text ++ more) (htmp : e.tmp = packed a b c) (hcount : e.count % 3 = 0)
    (hpos : e.count ≠ 0) (hsize : text.length + e.count = bufsize) (fuel : Nat) (hfuel : text.length < fuel) :
    ∃ LineLen, encodeLoop bufsize fuel e = some
      ⟨text.drop (text.length / 3 * 3) ++ more, bufsize - text.length % 3, 0, LineLen,
        e.fresult ++ wrapped e.LineLen (a :: b :: c :: text)⟩ := by
  induction text using Base64.encode.induct generalizing e a b c fuel with
  | case1 =>
    obtain ⟨fuel, rfl⟩ : ∃ m, fuel = m + 1 := ⟨fuel - 1, by omega⟩
    exact encodeLoop_last hs htmp hcount hpos hsize (by simp) fuel
  | case2 x =>
    obtain ⟨fuel, rfl⟩ : ∃ m, fuel = m + 1 := ⟨fuel - 1, by omega⟩
    exact encodeLoop_last hs htmp hcount hpos hsize (by simp) fuel
  | case3 x y =>
    obtain ⟨fuel, rfl⟩ : ∃ m, fuel = m + 1 := ⟨fuel - 1, by omega⟩
    exact encodeLoop_last hs htmp hcount hpos hsize (by simp) fuel
  | case4 x y z text ih =>
    simp only [List.length_cons] at hsize hfuel
    obtain ⟨fuel, rfl⟩ : ∃ m, fuel = m + 3 := ⟨fuel - 3, by omega⟩
    have hgoes : ¬ bufsize - e.count < 3 := by omega
    rw [encodeLoop, if_neg (by omega), if_pos ⟨hcount, hpos⟩, if_neg hgoes,
      encodeLoop_read (by rw [flush_packed e htmp]; exact hs) (by rw [flush_packed e htmp])
        (by rw [flush_packed e htmp]; exact hcount) (by rw [flush_packed e htmp]; dsimp only; omega),
      flush_packed e htmp]
    obtain ⟨LineLen, hloop⟩ := @ih ⟨text ++ more, e.count + 3, packed x y z,
      if MaxLineLength ≤ e.LineLen + 4 then 0 else e.LineLen + 4,
      e.fresult ++ ((digits (number a b c)).map digit ++ if MaxLineLength ≤ e.LineLen + 4 then crlf else [])⟩
      x y z rfl rfl (by dsimp only; omega) (by simp) (by dsimp only; omega) fuel (by omega)
    refine ⟨LineLen, hloop.trans ?_⟩
    have hmod : (text.length + 1 + 1 + 1) % 3 = text.length % 3 := by omega
    have hdrop : (x :: y :: z :: text).drop ((text.length + 1 + 1 + 1) / 3 * 3) = text.drop (text.length / 3 * 3) := by
      have hplace : (text.length + 1 + 1 + 1) / 3 * 3 = text.length / 3 * 3 + 1 + 1 + 1 := by omega
      rw [hplace]
      rfl
    have hwrapped : wrapped e.LineLen (a :: b :: c :: x :: y :: z :: text) =
        (digits (number a b c)).map digit ++ ((if MaxLineLength ≤ e.LineLen + 4 then crlf else []) ++
          wrapped (if MaxLineLength ≤ e.LineLen + 4 then 0 else e.LineLen + 4) (x :: y :: z :: text)) := by
      rw [wrapped]
      split_ifs <;> rfl
    simp only [List.length_cons, hmod, hdrop, hwrapped, List.append_assoc]

/-- The whole groups of a text that has one. -/
theorem encodeLoop_all {s : Str} (hlong : 3 ≤ s.length) (more : Str) :
    ∃ LineLen, encodeLoop s.length (s.length + 1) ⟨s ++ more, 0, 0, 0, []⟩ = some
      ⟨s.drop (s.length / 3 * 3) ++ more, s.length - s.length % 3, 0, LineLen, wrapped 0 s⟩ := by
  obtain ⟨a, b, c, text, rfl⟩ := exists_group hlong
  simp only [List.length_cons]
  rw [encodeLoop, if_neg (by dsimp only; omega), if_neg (by simp)]
  have hread := @encodeLoop_read (text.length + 1 + 1 + 1) (text.length + 1)
    ⟨a :: b :: c :: text ++ more, 0, 0, 0, []⟩ a b c (text ++ more) rfl rfl rfl (by simp)
  obtain ⟨LineLen, hloop⟩ := @encodeLoop_groups (text.length + 1 + 1 + 1) more text
    ⟨text ++ more, 3, packed a b c, 0, []⟩ a b c rfl rfl (by simp) (by simp) (by simp) (text.length + 1) (by omega)
  refine ⟨LineLen, hread.trans (hloop.trans ?_)⟩
  have hmod : (text.length + 1 + 1 + 1) % 3 = text.length % 3 := by omega
  have hplace : (text.length + 1 + 1 + 1) / 3 * 3 = text.length / 3 * 3 + 1 + 1 + 1 := by omega
  rw [hmod, hplace]
  rfl

end

/-! ## What is left -/

/-- The bytes that are left are there to be read. -/
theorem tails_some {rest : Int} (is : List Nat) {e : Encoding} {n : Nat} (hroom : rest ≤ n + e.s.length)
    (hfrom : is = List.range' n is.length) :
    ∃ e', is.foldlM (Encoding.tail rest) e = some e' ∧ e'.fresult = e.fresult := by
  induction is generalizing e n with
  | nil => exact ⟨e, rfl, rfl⟩
  | cons i is ih =>
    rw [List.length_cons, List.range'_succ] at hfrom
    obtain ⟨rfl, hfrom⟩ := List.cons.inj hfrom
    rw [List.foldlM_cons]
    by_cases hi : (i : Int) < rest
    · obtain ⟨c, s, hs⟩ : ∃ c s, e.s = c :: s :=
        List.exists_cons_of_ne_nil (fun hnil => by rw [hnil, List.length_nil] at hroom; omega)
      have htail : e.tail rest i = some ⟨s, e.count + 1,
          (e.tmp ||| c.toBitVec.setWidth 32 ||| c.toBitVec.signExtend 32) <<< 8, e.LineLen, e.fresult⟩ := by
        unfold Encoding.tail
        rw [if_pos hi, hs]
      rw [hs, List.length_cons] at hroom
      rw [htail]
      exact @ih ⟨s, e.count + 1, (e.tmp ||| c.toBitVec.setWidth 32 ||| c.toBitVec.signExtend 32) <<< 8, e.LineLen,
        e.fresult⟩ (i + 1) (by push_cast at hroom ⊢; omega) hfrom
    · have htail : e.tail rest i = some { e with tmp := (e.tmp ||| 0) <<< 8 } := if_neg hi
      rw [htail]
      exact @ih ⟨e.s, e.count, (e.tmp ||| 0) <<< 8, e.LineLen, e.fresult⟩ (i + 1) (by push_cast at hroom ⊢; omega) hfrom

theorem chars_masked (tmp : BitVec 32) (shifts : List Nat) :
    ∃ ds : List Nat, (∀ d ∈ ds, d < 64) ∧ ds.length = shifts.length ∧ shifts.map (charOf (masked tmp)) = ds.map digit := by
  have hlt : (masked tmp).toNat < 2 ^ 24 := by
    rw [toNat_masked]
    have htmp := tmp.isLt
    omega
  refine ⟨shifts.map fun shift => (masked tmp).toNat / 2 ^ shift % 64, ?_, List.length_map _, ?_⟩
  · simp only [List.forall_mem_map]
    exact fun shift _ => Nat.mod_lt _ (by decide)
  · rw [List.map_map]
    apply List.map_congr_left
    intro shift _
    rw [charOf_eq hlt shift, Function.comp_apply]

/-- One digit more than there are bytes left, whatever they come to. -/
theorem finish_tail {bufsize : Nat} {e : Encoding} {tail more : Str} (hs : e.s = tail ++ more)
    (hcount : tail.length + e.count = bufsize) (hshort : tail.length < 3) (hne : tail ≠ []) :
    ∃ ds : List Nat, (∀ d ∈ ds, d < 64) ∧ ds.length = tail.length + 1 ∧
      e.finish bufsize = some (e.fresult ++ (ds.map digit ++ List.replicate (3 - tail.length) (ch '='))) := by
  have hrest : ((bufsize : Int) - e.count).tmod 3 = tail.length := by
    have hsub : (bufsize : Int) - e.count = tail.length := by omega
    rw [hsub, Int.tmod_eq_emod_of_nonneg (by omega)]
    omega
  have hpos : (tail.length : Int) ≠ 0 := by simpa using hne
  obtain ⟨e', htails, hfresult⟩ := @tails_some tail.length [0, 1, 2] { e with tmp := 0 } 0
    (by dsimp only; rw [hs, List.length_append]; push_cast; omega) rfl
  obtain ⟨ds, hds, hlength, hchars⟩ := chars_masked e'.tmp ((if 1 ≤ (tail.length : Int) then [18, 12] else []) ++
    (if 2 ≤ (tail.length : Int) then [6] else []) ++ if 3 ≤ (tail.length : Int) then [0] else [])
  refine ⟨ds, hds, ?_, ?_⟩
  · rw [hlength]
    match tail, hne, hshort with
    | [x], _, _ => rfl
    | [x, y], _, _ => rfl
  · have hpads : (3 - (tail.length : Int)).toNat = 3 - tail.length := by omega
    unfold Encoding.finish
    rw [hrest]
    dsimp only
    rw [if_neg hpos, htails, Option.map_some, hchars, hfresult, hpads, List.append_assoc]

/-! ## What the decoder makes of the lines -/

section

variable {LineLen : Nat}

/-- Where the next group stands. -/
def nextLen (LineLen : Nat) : Nat := if MaxLineLength ≤ LineLen + 4 then 0 else LineLen + 4

theorem wrapped_cons (a b c : Byte) (s : Str) :
    wrapped LineLen (a :: b :: c :: s) = (digits (number a b c)).map digit ++
      ((if MaxLineLength ≤ LineLen + 4 then crlf else []) ++ wrapped (nextLen LineLen) s) := by
  unfold nextLen
  rw [wrapped]
  split_ifs <;> rfl

/-- Lines are of nineteen groups. -/
theorem length_wrapped (s : Str) (hmod : LineLen % 4 = 0) (hlt : LineLen < 76) :
    (wrapped LineLen s).length = s.length / 3 * 4 + (LineLen / 4 + s.length / 3) / 19 * 2 := by
  induction s using Base64.encode.induct generalizing LineLen with
  | case1 => simp [wrapped]; omega
  | case2 a => simp [wrapped]; omega
  | case3 a b => simp [wrapped]; omega
  | case4 a b c s ih =>
    have hnext : nextLen LineLen % 4 = 0 ∧ nextLen LineLen < 76 := by
      unfold nextLen MaxLineLength
      split_ifs <;> omega
    have hfour : ((digits (number a b c)).map digit).length = 4 := rfl
    have hdiv : (s.length + 1 + 1 + 1) / 3 = s.length / 3 + 1 := by omega
    rw [wrapped_cons, List.length_append, List.length_append, ih hnext.1 hnext.2, hfour]
    unfold nextLen MaxLineLength
    simp only [List.length_cons, hdiv]
    split_ifs
    · have hcrlf : crlf.length = 2 := rfl
      rw [hcrlf]
      omega
    · rw [List.length_nil]
      omega

theorem sextets_wrapped {s : Str} (hlong : 3 ≤ s.length) (hmod : LineLen % 4 = 0) (hlt : LineLen < 76) :
    ∃ vs : List (BitVec 32), vs.length = s.length / 3 * 4 ∧
      (∀ ws, octets (vs ++ ws) = s.take (s.length / 3 * 3) ++ octets ws) ∧
      ∀ rest, sextets false (wrapped LineLen s ++ rest) =
        (sextets false ((if (LineLen / 4 + s.length / 3) % 19 = 0 then crlf else []) ++ rest)).map (vs ++ ·) := by
  induction s using Base64.encode.induct generalizing LineLen with
  | case1 => simp at hlong
  | case2 a => simp at hlong
  | case3 a b => simp at hlong
  | case4 a b c s ih =>
    have hds := lt_of_mem_digits (number_lt a b c)
    have hnext : nextLen LineLen % 4 = 0 ∧ nextLen LineLen < 76 := by
      unfold nextLen MaxLineLength
      split_ifs <;> omega
    have hdiv : (s.length + 1 + 1 + 1) / 3 = s.length / 3 + 1 := by omega
    have hplace : (s.length / 3 + 1) * 3 = s.length / 3 * 3 + 1 + 1 + 1 := by omega
    simp only [List.length_cons, hdiv, hplace]
    by_cases hshort : s.length < 3
    · have hbreak : (LineLen / 4 + (s.length / 3 + 1)) % 19 = 0 ↔ MaxLineLength ≤ LineLen + 4 := by
        unfold MaxLineLength
        omega
      have hnone : s.length / 3 = 0 := Nat.div_eq_of_lt hshort
      refine ⟨words (digits (number a b c)), by rw [hnone]; rfl, fun ws => ?_, fun rest => ?_⟩
      · rw [octets_group, hnone]
        rfl
      · simp only [wrapped_cons, wrapped_short hshort, hbreak, List.append_nil, List.append_assoc, sextets_digits hds]
    · obtain ⟨vs, hlength, hoctets, hsextets⟩ := ih (not_lt.mp hshort) hnext.1 hnext.2
      have hsame : (nextLen LineLen / 4 + s.length / 3) % 19 = (LineLen / 4 + (s.length / 3 + 1)) % 19 := by
        unfold nextLen MaxLineLength
        split_ifs <;> omega
      -- A line break is passed over, since there is a group behind it.
      have hbreak : ∀ rest, sextets false ((if MaxLineLength ≤ LineLen + 4 then crlf else []) ++
          (wrapped (nextLen LineLen) s ++ rest)) = sextets false (wrapped (nextLen LineLen) s ++ rest) := by
        intro rest
        obtain ⟨x, y, z, text, rfl⟩ := exists_group (not_lt.mp hshort)
        split_ifs
        · exact sextets_break (lt_of_mem_digits (number_lt x y z) _ List.mem_cons_self) _
        · rfl
      refine ⟨words (digits (number a b c)) ++ vs, ?_, fun ws => ?_, fun rest => ?_⟩
      · rw [List.length_append, hlength]
        simp only [words, digits, List.length_map, List.length_cons, List.length_nil]
        omega
      · rw [List.append_assoc, octets_group, hoctets]
        rfl
      · rw [wrapped_cons, List.append_assoc, List.append_assoc, sextets_digits hds, hbreak, hsextets, hsame,
          Option.map_map]
        simp only [Function.comp_def, List.append_assoc]

end

/-! ## The texts that come back -/

/-- What is written behind the groups. -/
def IsTail (s tail : Str) : Prop :=
  (s.length % 3 = 0 ∧ tail = []) ∨ (s.length % 3 ≠ 0 ∧ ∃ ds : List Nat, (∀ d ∈ ds, d < 64) ∧
    ds.length = s.length % 3 + 1 ∧ tail = ds.map digit ++ List.replicate (3 - s.length % 3) (ch '='))

theorem IsTail.length_le {s tail : Str} (h : IsTail s tail) : tail.length ≤ 4 := by
  obtain ⟨-, rfl⟩ | ⟨hmod, ds, -, hlength, rfl⟩ := h
  · simp
  · rw [List.length_append, List.length_map, List.length_replicate]
    omega

/-- What the encoder writes for a text of three bytes and more, in a buffer that has zeros behind it. -/
theorem encode_long {s : Str} (hlong : 3 ≤ s.length) (hsize : s.length * 4 < 2 ^ 31) (more : Str) :
    ∃ (tail : Str) (n : Nat), IsTail s tail ∧
      encode (s ++ more) s.length = some (wrapped 0 s ++ tail ++ List.replicate (n + 2) 0) := by
  obtain ⟨LineLen, hloop⟩ := encodeLoop_all hlong more
  have hdrop : (s.drop (s.length / 3 * 3)).length = s.length % 3 := by
    rw [List.length_drop]
    omega
  obtain ⟨tail, htail, hfinish⟩ : ∃ tail, IsTail s tail ∧ Encoding.finish s.length
      ⟨s.drop (s.length / 3 * 3) ++ more, s.length - s.length % 3, 0, LineLen, wrapped 0 s⟩ =
        some (wrapped 0 s ++ tail) := by
    by_cases hmod : s.length % 3 = 0
    · refine ⟨[], Or.inl ⟨hmod, rfl⟩, ?_⟩
      unfold Encoding.finish
      simp [hmod]
    · obtain ⟨ds, hds, hlength, hfinish⟩ := @finish_tail s.length
        ⟨s.drop (s.length / 3 * 3) ++ more, s.length - s.length % 3, 0, LineLen, wrapped 0 s⟩
        (s.drop (s.length / 3 * 3)) more rfl (by dsimp only; omega) (by omega)
        (List.ne_nil_of_length_pos (by omega))
      rw [hdrop] at hlength hfinish
      exact ⟨_, Or.inr ⟨hmod, ds, hds, hlength, rfl⟩, hfinish⟩
  have hle := htail.length_le
  have hlength : (wrapped 0 s ++ tail).length = s.length / 3 * 4 + s.length / 3 / 19 * 2 + tail.length := by
    rw [List.length_append, length_wrapped s rfl (by decide), Nat.zero_div, Nat.zero_add]
  refine ⟨tail, s.length * 4 / 3 + s.length * 4 / 3 / 76 * 2 + 10 - (wrapped 0 s ++ tail).length - 2, htail, ?_⟩
  have hroom : (wrapped 0 s ++ tail).length + 2 ≤ s.length * 4 / 3 + s.length * 4 / 3 / 76 * 2 + 10 := by
    rw [hlength]
    omega
  unfold encode
  rw [if_neg (by omega), hloop]
  dsimp only
  rw [Option.bind_some, hfinish]
  dsimp only
  rw [if_neg (by omega), Nat.sub_add_cancel (by omega)]

/-- Fewer than three bytes are not written, but one more than there are is read. -/
theorem encode_short {s : Str} (hshort : s.length < 3) (more : Str) :
    encode (s ++ more) s.length = if more = [] then none
      else some (ascii "====" ++ List.replicate (s.length + 6) 0) := by
  match s, hshort, more with
  | [], _, [] | [_], _, [] | [_, _], _, [] => rfl
  | [], _, _ :: _ => rfl
  | [x], _, m :: more =>
    have hone : encode ([x] ++ m :: more) 1 = some (ascii "====" ++ List.replicate 7 0) := rfl
    rw [if_neg nofun]
    exact hone
  | [x, y], _, m :: more =>
    have htwo : encode ([x, y] ++ m :: more) 2 = some (ascii "====" ++ List.replicate 8 0) := rfl
    rw [if_neg nofun]
    exact htwo

/-- What the decoder finds in it. -/
theorem sextets_encoded {s tail : Str} (hlong : 3 ≤ s.length) (htail : IsTail s tail) :
    ∃ vs, sextets false (wrapped 0 s ++ tail) = some vs ∧
      (toldLength vs.length = s.length ↔ 3 ∣ s.length ∧ ¬ 57 ∣ s.length) ∧
      (3 ∣ s.length ∧ ¬ 57 ∣ s.length → octets vs = s) := by
  obtain ⟨vs, hlength, hoctets, hsextets⟩ := @sextets_wrapped 0 s hlong rfl (by decide)
  rw [Nat.zero_div, Nat.zero_add] at hsextets
  rw [hsextets]
  unfold toldLength
  obtain ⟨hmod, rfl⟩ | ⟨hmod, ds, hds, hcount, rfl⟩ := htail
  · by_cases hfull : s.length / 3 % 19 = 0
    · refine ⟨vs ++ [SKIP], by rw [if_pos hfull]; rfl, ?_, ?_⟩
      · rw [List.length_append, hlength, List.length_singleton, if_neg (by omega)]
        omega
      · omega
    · refine ⟨vs ++ [], by rw [if_neg hfull]; rfl, ?_, fun _ => ?_⟩
      · rw [List.append_nil, hlength, if_pos (by omega)]
        omega
      · have hall : s.length / 3 * 3 = s.length := by omega
        rw [hoctets, hall, List.take_length]
        exact List.append_nil s
  · have hends : sextets false (ds.map digit ++ List.replicate (3 - s.length % 3) (ch '=')) = some (words ds) := by
      obtain ⟨n, hn⟩ : ∃ n, 3 - s.length % 3 = n + 1 := ⟨2 - s.length % 3, by omega⟩
      rw [sextets_digits hds, hn, List.replicate_succ, sextets_text, if_pos rfl, Option.map_some, List.append_nil]
    refine ⟨vs ++ words ds, ?_, ?_, by omega⟩
    · split_ifs
      · obtain ⟨d, rest, rfl⟩ := List.exists_cons_of_ne_nil (List.ne_nil_of_length_pos (by omega) : ds ≠ [])
        rw [List.map_cons, List.cons_append, sextets_break (hds d List.mem_cons_self), ← List.cons_append,
          ← List.map_cons, hends]
        rfl
      · rw [List.nil_append, hends]
        rfl
    · rw [List.length_append, hlength, words, List.length_map, hcount, if_neg (by omega)]
      omega

/-- There is no byte in it that ends a string. -/
theorem zero_notMem_encoded {s tail : Str} (htail : IsTail s tail) : (0 : Byte) ∉ wrapped 0 s ++ tail := by
  have hdigits : ∀ ds : List Nat, (∀ d ∈ ds, d < 64) → (0 : Byte) ∉ ds.map digit := by
    intro ds hds hmem
    obtain ⟨d, hd, hzero⟩ := List.mem_map.mp hmem
    have hskip := (digit_facts d (hds d hd)).2.1
    rw [hzero] at hskip
    exact hskip rfl
  have hwrapped : ∀ LineLen, (0 : Byte) ∉ wrapped LineLen s := by
    clear htail
    induction s using Base64.encode.induct with
    | case1 => simp [wrapped]
    | case2 a => simp [wrapped]
    | case3 a b => simp [wrapped]
    | case4 a b c s ih =>
      intro LineLen
      rw [wrapped_cons, List.mem_append, List.mem_append, not_or, not_or]
      refine ⟨hdigits _ (lt_of_mem_digits (number_lt a b c)), ?_, ih _⟩
      split_ifs <;> decide
  rw [List.mem_append, not_or]
  refine ⟨hwrapped 0, ?_⟩
  obtain ⟨-, rfl⟩ | ⟨-, ds, hds, -, rfl⟩ := htail
  · exact List.not_mem_nil
  · rw [List.mem_append, not_or]
    exact ⟨hdigits ds hds, fun hmem => absurd (List.eq_of_mem_replicate hmem) (by decide)⟩

/-- A text in memory, with `more` behind it, is what comes back when it is encoded and decoded. -/
def ComesBack (s more : Str) : Prop :=
  ∃ encoded bytes, encode (s ++ more) s.length = some encoded ∧
    decode encoded (cstr encoded).length = some (bytes, s.length) ∧ bytes.take s.length = s

theorem comesBack_short {s : Str} (hshort : s.length < 3) (more : Str) : ComesBack s more ↔ s = [] ∧ more ≠ [] := by
  have hdecode : ∀ n, decode (ascii "====" ++ List.replicate (n + 6) 0) 4 = some ([], 0) := by
    intro n
    rfl
  have hcstr : ∀ n, (cstr (ascii "====" ++ List.replicate (n + 6) 0)).length = 4 := by
    intro n
    rfl
  unfold ComesBack
  rw [encode_short hshort]
  constructor
  · rintro ⟨encoded, bytes, hencode, hback, -⟩
    split_ifs at hencode with hmore
    rw [← Option.some.inj hencode, hcstr, hdecode] at hback
    exact ⟨List.eq_nil_of_length_eq_zero (congrArg Prod.snd (Option.some.inj hback)).symm, hmore⟩
  · rintro ⟨rfl, hmore⟩
    exact ⟨_, [], if_neg hmore, by rw [hcstr, hdecode]; rfl, rfl⟩

theorem comesBack_long {s : Str} (hlong : 3 ≤ s.length) (hsize : s.length * 4 < 2 ^ 31) (more : Str) :
    ComesBack s more ↔ 3 ∣ s.length ∧ ¬ 57 ∣ s.length := by
  obtain ⟨tail, n, htail, hencode⟩ := encode_long hlong hsize more
  obtain ⟨vs, hsextets, htold, hoctets⟩ := sextets_encoded hlong htail
  have hcstr : cstr (wrapped 0 s ++ tail ++ List.replicate (n + 2) 0) = wrapped 0 s ++ tail := by
    rw [cstr_append (zero_notMem_encoded htail)]
    exact List.append_nil _
  have hone : (wrapped 0 s ++ tail).length ≠ 1 := by
    rw [List.length_append, length_wrapped s rfl (by decide)]
    omega
  have hdecode := decode_eq (List.replicate_succ : List.replicate (n + 2) (0 : Byte) = _) (by simp)
    (by decide) (wrapped 0 s ++ tail)
  rw [hsextets, Option.bind_some, if_neg fun h => hone h.1] at hdecode
  unfold ComesBack
  rw [hencode]
  constructor
  · rintro ⟨encoded, bytes, hsome, hback, -⟩
    rw [← Option.some.inj hsome, hcstr, hdecode] at hback
    exact htold.mp (congrArg Prod.snd (Option.some.inj hback))
  · intro hwhole
    refine ⟨_, _, rfl, by rw [hcstr, hdecode, htold.mpr hwhole], ?_⟩
    rw [hoctets hwhole, List.take_length]

/-- **Which texts come back**: of those that have whole groups only, the ones whose last line is not full. -/
theorem comesBack_iff (s more : Str) :
    ComesBack s more ↔ s.length * 4 < 2 ^ 31 ∧ 3 ∣ s.length ∧ if s = [] then more ≠ [] else ¬ 57 ∣ s.length := by
  by_cases hshort : s.length < 3
  · rw [comesBack_short hshort]
    split_ifs with hnil
    · subst hnil
      simp
    · have hpos := List.length_pos_iff.mpr hnil
      have hno : ¬ 3 ∣ s.length := by omega
      simp [hnil, hno]
  · have hne : s ≠ [] := by
      rintro rfl
      exact hshort (by decide)
    rw [if_neg hne]
    by_cases hsize : s.length * 4 < 2 ^ 31
    · rw [comesBack_long (not_lt.mp hshort) hsize, and_iff_right hsize]
    · have hnone : encode (s ++ more) s.length = none := if_pos (not_lt.mp hsize)
      refine iff_of_false ?_ fun h => hsize h.1
      rintro ⟨encoded, bytes, hsome, -⟩
      exact absurd (hnone.symm.trans hsome) nofun

/-- A single byte is not written at all. -/
theorem not_comesBack : ¬ ∀ s more : Str, ComesBack s more := by
  intro h
  have hone := (comesBack_short (by decide) [0]).mp (h (ascii "M") [0])
  exact absurd hone.1 (by decide)

end MyServer.RequestHeader
