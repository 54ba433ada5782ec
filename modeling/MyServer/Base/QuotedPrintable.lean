import MyServer.Bytes

/-!
# Quoted-printable text

`CQPUtils` (mime_utils.cpp). A `char*` that is read to its NUL is the list of the bytes before it.
-/

namespace MyServer.CQPUtils

def MaxLineLength : Nat := 76

/-- `QpEncodeMap` has `NOSKIP` there. -/
def noSkip (b : Byte) : Bool :=
  let n := b.toNat
  n = 10 ∨ n = 13 ∨ n = 32 ∨ (37 ≤ n ∧ n ≤ 60) ∨ n = 62 ∨ n = 63 ∨ (65 ≤ n ∧ n ≤ 90) ∨ n = 95 ∨ (97 ≤ n ∧ n ≤ 122)

/-- `hexmap`, without its `SKIP`. It has no upper bound below 256, and a byte above 127 is a negative index. -/
def hexmap (b : Byte) : Option Nat :=
  let n := b.toNat
  if 48 ≤ n ∧ n ≤ 57 then some (n - 48) else if 65 ≤ n ∧ n ≤ 70 then some (n - 55) else none

/-- A digit as `%X` writes it. -/
def hexDigit (n : Nat) : Byte := if n < 10 then UInt8.ofNat (n + 48) else UInt8.ofNat (n + 55)

/-- What `snprintf (mids, 3, "%X", mid)` leaves in the first two. -/
def mids (mid : Byte) : Str :=
  if mid.toNat < 16 then [hexDigit mid.toNat, 0] else [hexDigit (mid.toNat / 16), hexDigit (mid.toNat % 16)]

/-! ## Encoding -/

structure Encoding where
  BufSize : Nat
  UsedSize : Nat
  LineLen : Nat
  /-- What was written at `fresult`. -/
  written : Str
  /-- How often the buffer was given to `realloc`. -/
  grown : Nat
  /-- `fresult` points into the block that `finalresult` is. -/
  owned : Bool

variable (stays : Nat → Bool)

/-- `stays n`: the block is where it was after it was given to `realloc` for the `n`-th time. -/
def Encoding.expandBuffer (e : Encoding) (AddVal : Nat) : Encoding :=
  if e.BufSize - AddVal ≤ e.UsedSize then
    { e with BufSize := e.BufSize + 10, grown := e.grown + 1, owned := e.owned && stays e.grown }
  else e

/-- What is written outside of the block is undefined. -/
def Encoding.write (e : Encoding) (text : Str) : Option Encoding :=
  if e.owned = true ∧ e.written.length + text.length ≤ e.BufSize then
    some { e with written := e.written ++ text }
  else none

def softBreak : Str := ch '=' :: crlf

def Encoding.breakLine (e : Encoding) : Option Encoding :=
  if MaxLineLength - 4 ≤ e.LineLen then
    ((e.expandBuffer stays 5).write softBreak).map fun e => { e with UsedSize := e.UsedSize + 3, LineLen := 0 }
  else some e

/-- One turn of the loop, at the character `c`. -/
def Encoding.turn (e : Encoding) (c : Byte) : Option Encoding :=
  let e := if c = ch '\n' then { e with LineLen := 0 } else e
  (e.breakLine stays).bind fun e =>
    if noSkip c then
      ((e.expandBuffer stays 3).write [c]).map fun e =>
        { e with UsedSize := e.UsedSize + 1, LineLen := e.LineLen + 1 }
    else
      ((e.expandBuffer stays 5).write (ch '=' :: mids c)).map fun e =>
        { e with UsedSize := e.UsedSize + 3, LineLen := e.LineLen + 2 }

/-- What is in the buffer. -/
def encode (input : Str) : Option Str :=
  -- The size is an int, and a negative one is not allocated.
  if 2 ^ 31 ≤ input.length + 10 then none
  else
    ((input.foldlM (Encoding.turn stays) ⟨input.length + 10, 0, 0, [], 0, true⟩).bind
      (Encoding.write · [0])).map Encoding.written

/-! ## Decoding -/

/-- What is written, and the error code. -/
def decodeLoop (ErrorCode : Nat) : Str → Option (Str × Nat)
  | [] => some ([], ErrorCode)
  | c :: s =>
    if c ≠ ch '=' then (decodeLoop ErrorCode s).map fun (text, code) => (c :: text, code)
    else
      match s with
      | a :: b :: rest =>
        if 128 ≤ a.toNat then none
        else if a = ch '\r' ∧ b = ch '\n' then decodeLoop ErrorCode rest
        else
          -- The first of the two is noted, and then the second is looked at.
          if 128 ≤ b.toNat then none
          else
            match hexmap a, hexmap b with
            | some high, some low =>
              (decodeLoop ErrorCode rest).map fun (text, code) => (UInt8.ofNat (high * 16 + low) :: text, code)
            | _, none =>
              if b = ch '\r' ∧ rest.head? = some (ch '\n') then
                decodeLoop (if hexmap a = none then 1 else ErrorCode) rest
              else decodeLoop 1 (a :: b :: rest)
            | none, some _ => decodeLoop 1 (a :: b :: rest)
      | _ => some ([], 1)

/-- The buffer that is given back, where `fresh` is what `new` found in it. -/
def decode (input : Str) (fresh : Nat → Byte) : Option (Str × Nat) :=
  (decodeLoop 0 input).map fun (text, code) =>
    (text ++ ((List.range (input.length + 1)).map fresh).drop text.length, code)

/-! ## What is written for a text -/

/-- It is written with one digit only. -/
def low (b : Byte) : Bool := !noSkip b && b.toNat < 16

def piece (b : Byte) : Str := if noSkip b then [b] else ch '=' :: mids b

/-- How far a character brings the line. -/
def width (b : Byte) : Nat := if noSkip b then 1 else 2

/-- Where the line is at a character, before a soft break. -/
def column (LineLen : Nat) (b : Byte) : Nat := if b = ch '\n' then 0 else LineLen

def broken (LineLen : Nat) (b : Byte) : Bool := MaxLineLength - 4 ≤ column LineLen b

def nextColumn (LineLen : Nat) (b : Byte) : Nat :=
  (if broken LineLen b then 0 else column LineLen b) + width b

/-- What a character adds. -/
def added (LineLen : Nat) (b : Byte) : Str := (if broken LineLen b then softBreak else []) ++ piece b

def quoted (LineLen : Nat) : Str → Str
  | [] => []
  | b :: s => added LineLen b ++ quoted (nextColumn LineLen b) s

/-- The characters that are written in digits. -/
def escapes (s : Str) : Nat := s.countP (!noSkip ·)

/-- The soft breaks. -/
def breaks (LineLen : Nat) : Str → Nat
  | [] => 0
  | b :: s => (if broken LineLen b then 1 else 0) + breaks (nextColumn LineLen b) s

theorem length_mids (b : Byte) : (mids b).length = 2 := by
  unfold mids
  split_ifs <;> rfl

theorem length_piece (b : Byte) : (piece b).length = if noSkip b then 1 else 3 := by
  unfold piece
  split_ifs
  · rfl
  · rw [List.length_cons, length_mids]

theorem length_quoted (LineLen : Nat) (s : Str) :
    (quoted LineLen s).length = s.length + 2 * escapes s + 3 * breaks LineLen s := by
  induction s generalizing LineLen with
  | nil => rfl
  | cons b s ih =>
    have hbreak : (if broken LineLen b then softBreak else []).length = 3 * if broken LineLen b then 1 else 0 := by
      split_ifs <;> rfl
    have hcount : escapes (b :: s) = escapes s + if noSkip b then 0 else 1 := by
      unfold escapes
      rw [List.countP_cons]
      cases noSkip b <;> rfl
    rw [quoted, added, List.length_append, List.length_append, ih, length_piece, hbreak, hcount, breaks, List.length_cons]
    split_ifs <;> omega

/-! ## The buffer -/

/-- The counter is right, and the pointer too. -/
structure Encoding.Sound (e : Encoding) : Prop where
  used : e.UsedSize = e.written.length
  owned : e.owned = true

section

variable {stays : Nat → Bool} {e : Encoding}

theorem emit_fits (h : e.Sound) {AddVal : Nat} {text : Str} (hroom : e.UsedSize + AddVal < e.BufSize)
    (htext : text.length ≤ AddVal) :
    (e.expandBuffer stays AddVal).write text = some { e with written := e.written ++ text } := by
  have hstay : ¬ e.BufSize - AddVal ≤ e.UsedSize := by omega
  have hused := h.used
  unfold Encoding.expandBuffer Encoding.write
  rw [if_neg hstay, if_pos ⟨h.owned, by omega⟩]

/-- A block that grows is elsewhere afterwards. -/
theorem emit_moved (hmoves : stays = fun _ => false) {AddVal : Nat} (text : Str)
    (hfull : e.BufSize - AddVal ≤ e.UsedSize) : (e.expandBuffer stays AddVal).write text = none := by
  unfold Encoding.expandBuffer Encoding.write
  rw [if_pos hfull, hmoves]
  simp

def Encoding.after (e : Encoding) (b : Byte) : Encoding :=
  { e with UsedSize := e.UsedSize + (added e.LineLen b).length, LineLen := nextColumn e.LineLen b,
           written := e.written ++ added e.LineLen b }

/-- Where the line starts again. -/
theorem turn_column (e : Encoding) (b : Byte) :
    (if b = ch '\n' then { e with LineLen := 0 } else e : Encoding) = { e with LineLen := column e.LineLen b } := by
  unfold column
  split_ifs <;> rfl

/-- The second half of a turn. -/
def Encoding.emit (stays : Nat → Bool) (e : Encoding) (b : Byte) : Option Encoding :=
  if noSkip b then
    ((e.expandBuffer stays 3).write [b]).map fun e => { e with UsedSize := e.UsedSize + 1, LineLen := e.LineLen + 1 }
  else
    ((e.expandBuffer stays 5).write (ch '=' :: mids b)).map fun e =>
      { e with UsedSize := e.UsedSize + 3, LineLen := e.LineLen + 2 }

theorem turn_eq (e : Encoding) (b : Byte) :
    e.turn stays b = (({ e with LineLen := column e.LineLen b } : Encoding).breakLine stays).bind (·.emit stays b) := by
  unfold Encoding.turn
  rw [turn_column]
  rfl

theorem emit_piece (h : e.Sound) (b : Byte) (hroom : e.UsedSize + (piece b).length + 3 ≤ e.BufSize) :
    e.emit stays b = some { e with UsedSize := e.UsedSize + (piece b).length, LineLen := e.LineLen + width b,
                                   written := e.written ++ piece b } := by
  have hlength := length_piece b
  unfold Encoding.emit piece width at *
  by_cases hplain : noSkip b = true
  · simp only [if_pos hplain] at *
    rw [emit_fits h (by omega) (by simp)]
    rfl
  · simp only [if_neg hplain] at *
    rw [emit_fits h (by omega) (by omega), hlength]
    rfl

theorem emit_piece_moved (hmoves : stays = fun _ => false) (b : Byte) (hsize : 10 ≤ e.BufSize)
    (hfull : e.BufSize < e.UsedSize + (piece b).length + 3) : e.emit stays b = none := by
  rw [length_piece] at hfull
  unfold Encoding.emit
  by_cases hplain : noSkip b = true
  · rw [if_pos hplain] at *
    rw [emit_moved hmoves _ (by omega)]
    rfl
  · rw [if_neg hplain] at *
    rw [emit_moved hmoves _ (by omega)]
    rfl

theorem length_softBreak : softBreak.length = 3 := rfl

theorem breakLine_of_not (h : ¬ MaxLineLength - 4 ≤ e.LineLen) : e.breakLine stays = some e := if_neg h

theorem breakLine_fits (h : e.Sound) (hlong : MaxLineLength - 4 ≤ e.LineLen) (hroom : e.UsedSize + 5 < e.BufSize) :
    e.breakLine stays =
      some { e with UsedSize := e.UsedSize + 3, LineLen := 0, written := e.written ++ softBreak } := by
  unfold Encoding.breakLine
  rw [if_pos hlong, emit_fits h hroom (by rw [length_softBreak]; decide)]
  rfl

theorem breakLine_moved (hmoves : stays = fun _ => false) (hlong : MaxLineLength - 4 ≤ e.LineLen)
    (hfull : e.BufSize - 5 ≤ e.UsedSize) : e.breakLine stays = none := by
  unfold Encoding.breakLine
  rw [if_pos hlong, emit_moved hmoves _ hfull]
  rfl

theorem Encoding.Sound.at (h : e.Sound) (LineLen : Nat) : ({ e with LineLen } : Encoding).Sound := ⟨h.used, h.owned⟩

theorem Encoding.Sound.broken (h : e.Sound) :
    ({ e with UsedSize := e.UsedSize + 3, LineLen := 0, written := e.written ++ softBreak } : Encoding).Sound :=
  ⟨by simp [h.used, length_softBreak], h.owned⟩

theorem turn_fits (h : e.Sound) (b : Byte) (hroom : e.UsedSize + (added e.LineLen b).length + 3 ≤ e.BufSize) :
    e.turn stays b = some (e.after b) := by
  have hpos : 0 < (piece b).length := by
    rw [length_piece]
    split_ifs <;> decide
  rw [turn_eq]
  unfold Encoding.after nextColumn added at *
  by_cases hbroken : broken e.LineLen b = true
  · have hlong : MaxLineLength - 4 ≤ column e.LineLen b := of_decide_eq_true hbroken
    simp only [if_pos hbroken, List.length_append, length_softBreak] at hroom ⊢
    rw [breakLine_fits (h.at (column e.LineLen b)) hlong (by dsimp only; omega), Option.bind_some,
      emit_piece (h.at (column e.LineLen b)).broken b (by dsimp only; omega)]
    simp [Nat.add_assoc]
  · simp only [if_neg hbroken, List.nil_append] at hroom ⊢
    rw [breakLine_of_not fun hlong => hbroken (decide_eq_true hlong), Option.bind_some, emit_piece (h.at (column e.LineLen b)) b hroom]

theorem turn_moved (h : e.Sound) (hmoves : stays = fun _ => false) (b : Byte) (hsize : 10 ≤ e.BufSize)
    (hfull : e.BufSize < e.UsedSize + (added e.LineLen b).length + 3) : e.turn stays b = none := by
  rw [turn_eq]
  unfold added at hfull
  by_cases hbroken : broken e.LineLen b = true
  · have hlong : MaxLineLength - 4 ≤ column e.LineLen b := of_decide_eq_true hbroken
    simp only [if_pos hbroken, List.length_append, length_softBreak] at hfull
    by_cases hgrows : e.BufSize - 5 ≤ e.UsedSize
    · rw [@breakLine_moved stays { e with LineLen := column e.LineLen b } hmoves hlong hgrows]
      rfl
    · rw [breakLine_fits (h.at (column e.LineLen b)) hlong (by dsimp only; omega), Option.bind_some]
      exact emit_piece_moved hmoves b hsize (by dsimp only; omega)
  · simp only [if_neg hbroken, List.nil_append] at hfull
    rw [breakLine_of_not fun hlong => hbroken (decide_eq_true hlong), Option.bind_some]
    exact emit_piece_moved hmoves b hsize hfull

theorem Encoding.Sound.after (h : e.Sound) (b : Byte) : (e.after b).Sound :=
  ⟨by simp [Encoding.after, h.used], h.owned⟩

/-- The whole loop: it does not grow the buffer. -/
theorem run_fits (s : Str) (h : e.Sound) (hroom : e.UsedSize + (quoted e.LineLen s).length + 3 ≤ e.BufSize) :
    ∃ e', s.foldlM (Encoding.turn stays) e = some e' ∧ e'.Sound ∧ e'.BufSize = e.BufSize ∧
      e'.written = e.written ++ quoted e.LineLen s := by
  induction s generalizing e with
  | nil => exact ⟨e, rfl, h, rfl, (List.append_nil _).symm⟩
  | cons b s ih =>
    rw [quoted, List.length_append] at hroom
    obtain ⟨e', hrun, hsound, hsize, hwritten⟩ := ih (h.after b) (by dsimp only [Encoding.after]; omega)
    refine ⟨e', ?_, hsound, hsize, ?_⟩
    · rw [List.foldlM_cons, turn_fits h b (by omega)]
      exact hrun
    · rw [hwritten, quoted]
      exact List.append_assoc _ _ _

/-- Or it writes where the buffer was. -/
theorem run_moved (s : Str) (h : e.Sound) (hmoves : stays = fun _ => false) (hsize : 10 ≤ e.BufSize)
    (hnow : e.UsedSize + 3 ≤ e.BufSize) (hfull : e.BufSize < e.UsedSize + (quoted e.LineLen s).length + 3) :
    s.foldlM (Encoding.turn stays) e = none := by
  induction s generalizing e with
  | nil =>
    rw [quoted, List.length_nil] at hfull
    omega
  | cons b s ih =>
    rw [quoted, List.length_append] at hfull
    rw [List.foldlM_cons]
    by_cases hturn : e.BufSize < e.UsedSize + (added e.LineLen b).length + 3
    · rw [turn_moved h hmoves b hsize hturn]
      rfl
    · rw [turn_fits h b (by omega)]
      exact ih (h.after b) hsize (by dsimp only [Encoding.after]; omega) (by dsimp only [Encoding.after]; omega)

theorem encode_fits {s : Str} (hlength : s.length + 10 < 2 ^ 31) (hroom : 2 * escapes s + 3 * breaks 0 s < 8) :
    encode stays s = some (quoted 0 s ++ [0]) := by
  have hquoted := length_quoted 0 s
  obtain ⟨e', hrun, hsound, hsize, hwritten⟩ := @run_fits stays ⟨s.length + 10, 0, 0, [], 0, true⟩ s ⟨rfl, rfl⟩
    (by dsimp only; omega)
  have hwritten' : e'.written = quoted 0 s := hwritten
  have hend : e'.write [0] = some { e' with written := e'.written ++ [0] } :=
    if_pos ⟨hsound.owned, by rw [hsize, hwritten', List.length_singleton]; dsimp only; omega⟩
  unfold encode
  rw [if_neg (not_le.mpr hlength), hrun, Option.bind_some, hend, hwritten']
  rfl

example : encode (fun _ => false) (ascii "a=b") = some (ascii "a=3Db" ++ [0]) := by decide +kernel

/-- It does not write to a block that was moved, if it writes nothing else. -/
theorem fits_of_encode {s encoded : Str} (h : encode (fun _ => false) s = some encoded) :
    s.length + 10 < 2 ^ 31 ∧ 2 * escapes s + 3 * breaks 0 s < 8 := by
  unfold encode at h
  split_ifs at h with hlength
  refine ⟨not_le.mp hlength, ?_⟩
  by_contra hfull
  have hquoted := length_quoted 0 s
  rw [run_moved s ⟨rfl, rfl⟩ rfl (by dsimp only; omega) (by dsimp only; omega) (by dsimp only; omega)] at h
  exact absurd h nofun

end

/-! ## What is read back -/

theorem digit_cases : ∀ n < 16, hexmap (hexDigit n) = some n ∧ (hexDigit n).toNat < 128 ∧ hexDigit n ≠ 0 ∧
    hexDigit n ≠ ch '\r' := by
  decide

theorem decodeLoop_plain {b : Byte} (hb : b ≠ ch '=') (ErrorCode : Nat) (rest : Str) :
    decodeLoop ErrorCode (b :: rest) = (decodeLoop ErrorCode rest).map fun (text, code) => (b :: text, code) := by
  rcases rest with _ | ⟨a, _ | ⟨c, rest⟩⟩ <;> simp [decodeLoop, hb]

theorem decodeLoop_digits {high low : Nat} (hhigh : high < 16) (hlow : low < 16) (ErrorCode : Nat) (rest : Str) :
    decodeLoop ErrorCode (ch '=' :: hexDigit high :: hexDigit low :: rest) =
      (decodeLoop ErrorCode rest).map fun (text, code) => (UInt8.ofNat (high * 16 + low) :: text, code) := by
  obtain ⟨hhex, hsmall, -, hcr⟩ := digit_cases high hhigh
  obtain ⟨hhex', hsmall', -, -⟩ := digit_cases low hlow
  rw [decodeLoop, if_neg (by simp)]
  dsimp only
  rw [if_neg (by omega), if_neg fun h => hcr h.1, if_neg (by omega), hhex, hhex']

/-- One character, and what is behind it. -/
theorem decodeLoop_piece {b : Byte} (hb : low b = false) (ErrorCode : Nat) (rest : Str) :
    decodeLoop ErrorCode (piece b ++ rest) =
      (decodeLoop ErrorCode rest).map fun (text, code) => (b :: text, code) := by
  unfold piece
  by_cases hplain : noSkip b = true
  · have hne : b ≠ ch '=' := by
      rintro rfl
      exact absurd hplain (by decide)
    rw [if_pos hplain]
    exact decodeLoop_plain hne ErrorCode rest
  · have hhigh : 16 ≤ b.toNat := by
      by_contra hlow
      simp [low, hplain] at hb
      omega
    have hlt := b.toNat_lt
    have hback : UInt8.ofNat (b.toNat / 16 * 16 + b.toNat % 16) = b := by
      rw [Nat.div_add_mod']
      exact UInt8.ofNat_toNat
    have hdigits := decodeLoop_digits (by omega : b.toNat / 16 < 16) (Nat.mod_lt b.toNat (by decide : 0 < 16))
      ErrorCode rest
    rw [hback] at hdigits
    rw [if_neg hplain, mids, if_neg (by omega)]
    exact hdigits

theorem decodeLoop_break (ErrorCode : Nat) (rest : Str) :
    decodeLoop ErrorCode (softBreak ++ rest) = decodeLoop ErrorCode rest := by
  change decodeLoop ErrorCode (ch '=' :: ch '\r' :: ch '\n' :: rest) = _
  rw [decodeLoop, if_neg (by simp)]
  dsimp only
  rw [if_neg (by decide), if_pos ⟨rfl, rfl⟩]

theorem zero_notMem_piece {b : Byte} (hzero : b ≠ 0) (hb : low b = false) : (0 : Byte) ∉ piece b := by
  unfold piece
  by_cases hplain : noSkip b = true
  · rw [if_pos hplain, List.mem_singleton]
    exact hzero.symm
  · have hhigh : 16 ≤ b.toNat := by
      by_contra hlow
      simp [low, hplain] at hb
      omega
    have hlt := b.toNat_lt
    obtain ⟨-, -, hdigit, -⟩ := digit_cases (b.toNat / 16) (by omega)
    obtain ⟨-, -, hdigit', -⟩ := digit_cases (b.toNat % 16) (by omega)
    rw [if_neg hplain, mids, if_neg (by omega)]
    simp only [List.mem_cons, List.not_mem_nil, or_false, not_or]
    exact ⟨by decide, hdigit.symm, hdigit'.symm⟩

/-- What is read of a character that is written with one digit. -/
theorem cstr_piece_low {b : Byte} (hb : low b = true) (more : Str) :
    cstr (piece b ++ more) = [ch '=', hexDigit b.toNat] := by
  simp only [low, Bool.and_eq_true, Bool.not_eq_true', decide_eq_true_eq] at hb
  obtain ⟨-, -, hdigit, -⟩ := digit_cases b.toNat hb.2
  unfold piece
  rw [hb.1, if_neg (by simp), mids, if_pos hb.2]
  have hfront : (0 : Byte) ∉ [ch '=', hexDigit b.toNat] := by
    simp only [List.mem_cons, List.not_mem_nil, or_false, not_or]
    exact ⟨by decide, hdigit.symm⟩
  exact (cstr_append hfront (0 :: more)).trans (List.append_nil _)

/-- What comes back, up to the first character that is written with one digit. -/
theorem decodeLoop_quoted (s : Str) (hzero : (0 : Byte) ∉ s) (LineLen : Nat) :
    ∃ code, decodeLoop 0 (cstr (quoted LineLen s ++ [0])) = some (s.takeWhile (!low ·), code) := by
  induction s generalizing LineLen with
  | nil => exact ⟨0, rfl⟩
  | cons b s ih =>
    rw [List.mem_cons, not_or] at hzero
    have hbreak : (0 : Byte) ∉ if broken LineLen b then softBreak else [] := by
      split_ifs <;> decide
    have hpassed : ∀ rest, decodeLoop 0 ((if broken LineLen b then softBreak else []) ++ rest) = decodeLoop 0 rest := by
      intro rest
      split_ifs
      · exact decodeLoop_break 0 rest
      · rfl
    rw [quoted, added, List.append_assoc, List.append_assoc, cstr_append hbreak, hpassed]
    by_cases hb : low b = true
    · refine ⟨1, ?_⟩
      rw [cstr_piece_low hb, List.takeWhile_cons_of_neg (by simp [hb])]
      rfl
    · rw [Bool.not_eq_true] at hb
      obtain ⟨code, hrest⟩ := ih hzero.2 (nextColumn LineLen b)
      refine ⟨code, ?_⟩
      rw [cstr_append (zero_notMem_piece (Ne.symm hzero.1) hb), decodeLoop_piece hb, hrest,
        List.takeWhile_cons_of_pos (by simp [hb])]
      rfl

/-! ## The round trip -/

/-- Wherever `realloc` puts the buffer, the encoder writes inside of the one it has, and the decoder writes the
text. -/
def WritesBack (s : Str) : Prop :=
  ∀ stays, ∃ encoded code, encode stays s = some encoded ∧ decodeLoop 0 (cstr encoded) = some (s, code)

/-- And whatever `new` gives, the decoder returns the text as a string. -/
def ReturnsText (s : Str) : Prop :=
  ∀ stays fresh, ∃ encoded code rest, encode stays s = some encoded ∧
    decode (cstr encoded) fresh = some (s ++ 0 :: rest, code)

/-- What is written is known wherever the buffer does not grow, and it does not where a moved one is harmless. -/
theorem encode_unmoved {s encoded : Str} (h : encode (fun _ => false) s = some encoded) :
    s.length + 10 < 2 ^ 31 ∧ 2 * escapes s + 3 * breaks 0 s < 8 ∧ encoded = quoted 0 s ++ [0] := by
  obtain ⟨hlength, hroom⟩ := fits_of_encode h
  exact ⟨hlength, hroom, Option.some.inj (h.symm.trans (encode_fits hlength hroom))⟩

theorem takeWhile_low_iff (s : Str) : s.takeWhile (!low ·) = s ↔ ∀ b ∈ s, low b = false := by
  simp [List.takeWhile_eq_self_iff]

/-- There is no NUL in what is decoded, nor in what was in memory before. -/
theorem not_returnsText {s : Str} (hzero : (0 : Byte) ∉ s) : ¬ ReturnsText s := by
  intro h
  obtain ⟨encoded, code, rest, hencode, hdecode⟩ := h (fun _ => false) fun _ => 1
  obtain ⟨-, -, rfl⟩ := encode_unmoved hencode
  obtain ⟨code', hloop⟩ := decodeLoop_quoted s hzero 0
  rw [decode, hloop] at hdecode
  have hbuffer := congrArg Prod.fst (Option.some.inj hdecode)
  dsimp only at hbuffer
  have hmem : (0 : Byte) ∈ s ++ 0 :: rest := List.mem_append_right _ List.mem_cons_self
  rw [← hbuffer] at hmem
  rcases List.mem_append.mp hmem with hmem | hmem
  · exact hzero ((List.takeWhile_prefix _).subset hmem)
  · obtain ⟨-, -, hone⟩ := List.mem_map.mp (List.mem_of_mem_drop hmem)
    exact absurd hone (by decide)

theorem writesBack_iff {s : Str} (hzero : (0 : Byte) ∉ s) :
    WritesBack s ↔ s.length + 10 < 2 ^ 31 ∧ (∀ b ∈ s, low b = false) ∧ 2 * escapes s + 3 * breaks 0 s < 8 := by
  obtain ⟨code', hloop⟩ := decodeLoop_quoted s hzero 0
  constructor
  · intro h
    obtain ⟨encoded, code, hencode, hback⟩ := h fun _ => false
    obtain ⟨hlength, hroom, rfl⟩ := encode_unmoved hencode
    have htext := congrArg Prod.fst (Option.some.inj (hloop.symm.trans hback))
    exact ⟨hlength, (takeWhile_low_iff s).mp htext, hroom⟩
  · rintro ⟨hlength, hlow, hroom⟩ stays
    refine ⟨_, code', encode_fits hlength hroom, ?_⟩
    rw [hloop, (takeWhile_low_iff s).mpr hlow]

/-- **Quoted-printable text**: the decoder does not end what it returns, and the text is in front of it when no
character is written with one digit and the buffer does not grow. -/
theorem quotedPrintable_iff {s : Str} (hzero : (0 : Byte) ∉ s) :
    ¬ ReturnsText s ∧ (WritesBack s ↔
      s.length + 10 < 2 ^ 31 ∧ (∀ b ∈ s, low b = false) ∧ 2 * escapes s + 3 * breaks 0 s < 8) :=
  ⟨not_returnsText hzero, writesBack_iff hzero⟩

/-- A text that is written back, but not returned. -/
theorem word_written : ¬ ReturnsText (ascii "a=b") ∧ (WritesBack (ascii "a=b") ↔
    (ascii "a=b").length + 10 < 2 ^ 31 ∧ (∀ b ∈ ascii "a=b", low b = false) ∧
      2 * escapes (ascii "a=b") + 3 * breaks 0 (ascii "a=b") < 8) :=
  quotedPrintable_iff (by decide)

/-- A tabulator is written as `=9`. -/
theorem tab_lost : ¬ ∀ s : Str, (0 : Byte) ∉ s → ReturnsText s := by
  intro h
  exact not_returnsText (s := [9]) (by decide) (h [9] (by decide))

end MyServer.CQPUtils
