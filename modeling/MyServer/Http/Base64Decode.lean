import MyServer.Http.AuthInside
import MyServer.Lib.Base64

/-!
# What the decoder of Base64 gives

The values of the characters that it takes, and the bytes and the length that come of them.
-/

open MyServer.Base64 MyServer.HeaderLines

namespace MyServer.RequestHeader

/-! ## The characters that are taken -/

/-- Their values. The first `=` ends the text, but not among characters that are passed over; after
those the last character of the text is taken whatever it is, and when there is none, the one
behind it. -/
def sextets (passing : Bool) : Str → Option (List (BitVec 32))
  | [] => some (if passing then [SKIP] else [])
  | c :: text =>
    if passing = true ∧ text = [] then some [base64map c]
    else if passing = false ∧ c = ch '=' then some []
    else if 128 ≤ c.toNat then none
    else if base64map c ≠ SKIP then (sextets false text).map (base64map c :: ·)
    else sextets true text

theorem sextets_text (c : Byte) (text : Str) :
    sextets false (c :: text) =
      if c = ch '=' then some []
      else if 128 ≤ c.toNat then none
      else if base64map c ≠ SKIP then (sextets false text).map (base64map c :: ·)
      else sextets true text := by
  simp [sextets]

theorem sextets_passing (c : Byte) (text : Str) :
    sextets true (c :: text) =
      if text = [] then some [base64map c]
      else if 128 ≤ c.toNat then none
      else if base64map c ≠ SKIP then (sextets false text).map (base64map c :: ·)
      else sextets true text := by
  simp [sextets]

/-- One turn, less what it leaves of the text. -/
def Decoding.put (d : Decoding) (value : BitVec 32) : Decoding :=
  let std := (d.std ||| value) <<< 6
  if d.count % 4 = 0 then
    { d with count := d.count + 1, std := 0, result := d.result ++ bytesOf (std.sshiftRight 6),
             resultlen := d.resultlen + 3 }
  else { d with std, count := d.count + 1 }

/-- Without what is left of the text. -/
def Decoding.kept (d : Decoding) : Decoding := { d with s := [], bufsize := 0 }

theorem Decoding.kept_turn (d : Decoding) (c : Byte) (s : Str) (bufsize : Int) :
    (d.turn c s bufsize).kept = d.kept.put (base64map c) := by
  unfold Decoding.turn Decoding.put Decoding.kept
  split_ifs <;> rfl

theorem Decoding.count_turn (d : Decoding) (c : Byte) (s : Str) (bufsize : Int) :
    (d.turn c s bufsize).count = d.count + 1 := by
  unfold Decoding.turn
  split_ifs <;> rfl

theorem Decoding.s_turn (d : Decoding) (c : Byte) (s : Str) (bufsize : Int) : (d.turn c s bufsize).s = s := by
  unfold Decoding.turn
  split_ifs <;> rfl

theorem Decoding.bufsize_turn (d : Decoding) (c : Byte) (s : Str) (bufsize : Int) :
    (d.turn c s bufsize).bufsize = bufsize := by
  unfold Decoding.turn
  split_ifs <;> rfl

section

variable {tail : Str} {b : Byte} {more : Str}

/-- Where nothing is left to be told of. -/
theorem decodeLoop_done (fuel : Nat) {d : Decoding} (hs : d.s ≠ []) (hdone : d.bufsize < d.count) :
    decodeLoop fuel d = some d := by
  obtain ⟨c, rest, hcons⟩ := List.exists_cons_of_ne_nil hs
  exact decodeLoop_stopped hcons (Or.inr hdone) fuel

/-- The last character that is told of. -/
theorem decodeLoop_last {fuel : Nat} {d : Decoding} {c : Byte} {bufsize : Int} (htail : tail ≠ [])
    (hdone : bufsize ≤ d.count) :
    (decodeLoop fuel (d.turn c tail bufsize)).map Decoding.kept = some (d.kept.put (base64map c)) := by
  rw [decodeLoop_done fuel (by rwa [Decoding.s_turn])
    (by rw [Decoding.bufsize_turn, Decoding.count_turn]; push_cast; omega)]
  exact congrArg some (Decoding.kept_turn d c tail bufsize)

/-- The loop at a text, and behind characters that it passed over. -/
theorem decodeLoop_eq (htail : tail = b :: more) (hmore : more ≠ []) (hb : base64map b = SKIP) (text : Str) :
    (∀ (d : Decoding) (fuel : Nat), d.s = text ++ tail → (text.length : Int) + d.count = d.bufsize + 1 →
      text.length ≤ fuel →
        (decodeLoop fuel d).map Decoding.kept = (sextets false text).map fun vs => vs.foldl Decoding.put d.kept) ∧
    ∀ (d : Decoding) (bufsize : Int) (fuel : Nat), (text.length : Int) + d.count = bufsize + 1 →
      text.length ≤ fuel →
        (decodeFrom fuel d (if bufsize ≤ d.count then some (text ++ tail, bufsize)
          else skipped d.count (text ++ tail) bufsize)).map Decoding.kept =
            (sextets true text).map fun vs => vs.foldl Decoding.put d.kept := by
  have hne : tail ≠ [] := by rw [htail]; exact nofun
  induction text with
  | nil =>
    constructor
    · intro d fuel hs hcount _
      rw [List.length_nil] at hcount
      rw [decodeLoop_done fuel (by rwa [hs]) (by push_cast at hcount; omega)]
      rfl
    · intro d bufsize fuel hcount _
      rw [List.length_nil] at hcount
      have hlast : bufsize ≤ d.count := by push_cast at hcount; omega
      rw [if_pos hlast, List.nil_append, htail, decodeFrom, decodeLoop_last hmore hlast, hb]
      rfl
  | cons c text ih =>
    obtain ⟨ihText, ihPassing⟩ := ih
    -- The character is taken, and the text behind it is read.
    have htaken : ∀ (d : Decoding) (bufsize : Int) (fuel : Nat), (text.length : Int) + d.count = bufsize →
        text.length ≤ fuel →
          (decodeLoop fuel (d.turn c (text ++ tail) bufsize)).map Decoding.kept =
            ((sextets false text).map (base64map c :: ·)).map fun vs => vs.foldl Decoding.put d.kept := by
      intro d bufsize fuel hcount hfuel
      have hturn := ihText (d.turn c (text ++ tail) bufsize) fuel (d.s_turn c _ _)
        (by rw [Decoding.count_turn, Decoding.bufsize_turn]; push_cast; omega) hfuel
      rw [hturn, Option.map_map, Decoding.kept_turn]
      rfl
    -- The character is looked up, and passed over or taken.
    have hlooked : ∀ (d : Decoding) (bufsize : Int) (fuel : Nat), (text.length : Int) + d.count = bufsize →
        text.length ≤ fuel →
          (decodeFrom fuel d (skipped d.count (c :: (text ++ tail)) bufsize)).map Decoding.kept =
            (if 128 ≤ c.toNat then none
              else if base64map c ≠ SKIP then (sextets false text).map (base64map c :: ·)
              else sextets true text).map fun vs => vs.foldl Decoding.put d.kept := by
      intro d bufsize fuel hcount hfuel
      rw [skipped]
      by_cases hhigh : 128 ≤ c.toNat
      · rw [if_pos hhigh, if_pos hhigh]
        rfl
      · rw [if_neg hhigh, if_neg hhigh]
        by_cases hskip : base64map c ≠ SKIP
        · rw [if_pos hskip, if_pos hskip]
          exact htaken d bufsize fuel hcount hfuel
        · rw [if_neg hskip, if_neg hskip]
          exact ihPassing d (bufsize - 1) fuel (by omega) hfuel
    constructor
    · intro d fuel hs hcount hfuel
      rw [List.length_cons] at hcount hfuel
      push_cast at hcount
      obtain ⟨fuel, rfl⟩ : ∃ n, fuel = n + 1 := ⟨fuel - 1, by omega⟩
      rw [sextets_text]
      by_cases hstop : c = ch '='
      · rw [decodeLoop_stopped hs (Or.inl hstop), if_pos hstop]
        rfl
      · have hgoes : ¬ (c = ch '=' ∨ d.bufsize < d.count) := by
          rw [not_or]
          exact ⟨hstop, by omega⟩
        rw [decodeLoop_turn hs hgoes, if_neg hstop]
        exact hlooked d d.bufsize fuel (by omega) (by omega)
    · intro d bufsize fuel hcount hfuel
      rw [List.length_cons] at hcount hfuel
      push_cast at hcount
      rw [sextets_passing]
      by_cases hnil : text = []
      · subst hnil
        have hlast : bufsize ≤ d.count := by
          rw [List.length_nil] at hcount
          push_cast at hcount
          omega
        rw [if_pos hlast, if_pos rfl]
        change (decodeLoop fuel (d.turn c tail bufsize)).map Decoding.kept = _
        rw [decodeLoop_last hne hlast]
        rfl
      · have hlong : ¬ bufsize ≤ d.count := by
          have hpos := List.length_pos_iff.mpr hnil
          omega
        rw [if_neg hlong, if_neg hnil, List.cons_append]
        exact hlooked d bufsize fuel (by omega) (by omega)

end

/-! ## The bytes that are written -/

/-- The characters of a group, as they are put together. -/
def word (vs : List (BitVec 32)) : BitVec 32 := vs.foldl (fun std v => (std ||| v) <<< 6) 0

/-- A group that is not whole gives three bytes too. -/
def octets : List (BitVec 32) → Str
  | [] => []
  | a :: b :: c :: d :: vs => bytesOf ((word [a, b, c, d]).sshiftRight 6) ++ octets vs
  | vs => bytesOf ((word vs <<< (6 * (4 - vs.length))).sshiftRight 6)

/-- The length that is told. -/
def toldLength (n : Nat) : Nat := n / 4 * 3 + if n % 4 = 0 then 0 else 4 - n % 4

theorem Decoding.put_part {d : Decoding} (h : d.count % 4 ≠ 0) (v : BitVec 32) :
    d.put v = { d with std := (d.std ||| v) <<< 6, count := d.count + 1 } := if_neg h

theorem Decoding.put_whole {d : Decoding} (h : d.count % 4 = 0) (v : BitVec 32) :
    d.put v = { d with count := d.count + 1, std := 0,
                       result := d.result ++ bytesOf (((d.std ||| v) <<< 6).sshiftRight 6),
                       resultlen := d.resultlen + 3 } := if_pos h

section

variable {d : Decoding}

theorem put_one (hcount : d.count % 4 = 1) (hstd : d.std = 0) (v : BitVec 32) :
    d.put v = { d with std := word [v], count := d.count + 1 } := by
  rw [Decoding.put_part (by omega), hstd]
  rfl

theorem put_two (hcount : d.count % 4 = 1) (hstd : d.std = 0) (v w : BitVec 32) :
    (d.put v).put w = { d with std := word [v, w], count := d.count + 2 } := by
  rw [put_one hcount hstd, Decoding.put_part (by dsimp only; omega)]
  rfl

theorem put_three (hcount : d.count % 4 = 1) (hstd : d.std = 0) (v w x : BitVec 32) :
    ((d.put v).put w).put x = { d with std := word [v, w, x], count := d.count + 3 } := by
  rw [put_two hcount hstd, Decoding.put_part (by dsimp only; omega)]
  rfl

theorem put_four (hcount : d.count % 4 = 1) (hstd : d.std = 0) (v w x y : BitVec 32) :
    (((d.put v).put w).put x).put y =
      { d with std := 0, count := d.count + 4,
               result := d.result ++ bytesOf ((word [v, w, x, y]).sshiftRight 6), resultlen := d.resultlen + 3 } := by
  rw [put_three hcount hstd, Decoding.put_whole (by dsimp only; omega)]
  rfl

/-- A group that is not whole. -/
theorem short_cases {vs : List (BitVec 32)} (hnil : vs ≠ [])
    (hshort : ∀ v w x y (rest : List (BitVec 32)), vs ≠ v :: w :: x :: y :: rest) :
    ∃ v, vs = [v] ∨ (∃ w, vs = [v, w]) ∨ ∃ w x, vs = [v, w, x] := by
  match vs, hnil, hshort with
  | [v], _, _ => exact ⟨v, Or.inl rfl⟩
  | [v, w], _, _ => exact ⟨v, Or.inr (Or.inl ⟨w, rfl⟩)⟩
  | [v, w, x], _, _ => exact ⟨v, Or.inr (Or.inr ⟨w, x, rfl⟩)⟩
  | v :: w :: x :: y :: rest, _, hshort => exact absurd rfl (hshort v w x y rest)

theorem finish_part {vs : List (BitVec 32)} (hcount : d.count % 4 = 1) (hput : vs.foldl Decoding.put d =
    { d with std := word vs, count := d.count + vs.length }) (hpos : vs.length ≠ 0) (hlt : vs.length < 4) :
    (vs.foldl Decoding.put d).finish =
      (d.result ++ bytesOf ((word vs <<< (6 * (4 - vs.length))).sshiftRight 6),
        d.resultlen + toldLength vs.length) := by
  have hmod : (d.count + vs.length - 1) % 4 = vs.length := by omega
  have htold : toldLength vs.length = 4 - vs.length := by
    unfold toldLength
    rw [Nat.div_eq_of_lt hlt, Nat.mod_eq_of_lt hlt, if_neg hpos]
    omega
  rw [hput, Decoding.finish, htold]
  simp only [hmod, if_neg hpos]

theorem finish_put (vs : List (BitVec 32)) (hcount : d.count % 4 = 1) (hstd : d.std = 0) :
    (vs.foldl Decoding.put d).finish = (d.result ++ octets vs, d.resultlen + toldLength vs.length) := by
  induction vs using octets.induct generalizing d with
  | case1 =>
    have hnone : (d.count - 1) % 4 = 0 := by omega
    simp [Decoding.finish, hnone, octets, toldLength]
  | case2 v w x y vs ih =>
    have hlength : toldLength (v :: w :: x :: y :: vs).length = 3 + toldLength vs.length := by
      have hdiv : (vs.length + 4) / 4 = vs.length / 4 + 1 := by omega
      have hmod : (vs.length + 4) % 4 = vs.length % 4 := by omega
      simp only [List.length_cons, Nat.add_assoc, Nat.reduceAdd, toldLength, hdiv, hmod]
      omega
    rw [List.foldl_cons, List.foldl_cons, List.foldl_cons, List.foldl_cons, put_four hcount hstd,
      ih (by dsimp only; omega) rfl, octets, hlength, List.append_assoc, Nat.add_assoc]
  | case3 vs hnil hshort =>
    obtain ⟨v, rfl | ⟨w, rfl⟩ | ⟨w, x, rfl⟩⟩ := short_cases hnil hshort
    · exact finish_part hcount (put_one hcount hstd v) (by simp) (by simp)
    · exact finish_part hcount (put_two hcount hstd v w) (by simp) (by simp)
    · exact finish_part hcount (put_three hcount hstd v w x) (by simp) (by simp)

end

theorem length_octets (vs : List (BitVec 32)) : (octets vs).length = (vs.length + 3) / 4 * 3 := by
  induction vs using octets.induct with
  | case1 => rfl
  | case2 v w x y vs ih =>
    have hbytes : (bytesOf ((word [v, w, x, y]).sshiftRight 6)).length = 3 := rfl
    rw [octets, List.length_append, ih, hbytes]
    simp only [List.length_cons]
    omega
  | case3 vs hnil hshort =>
    obtain ⟨v, rfl | ⟨w, rfl⟩ | ⟨w, x, rfl⟩⟩ := short_cases hnil hshort <;> simp [octets, bytesOf]

/-! ## The decoder -/

theorem length_sextets (text : Str) : (∀ vs, sextets false text = some vs → vs.length ≤ text.length) ∧
    ∀ vs, sextets true text = some vs → vs.length ≤ text.length + 1 := by
  induction text with
  | nil => simp [sextets]
  | cons c text ih =>
    obtain ⟨ihText, ihPassing⟩ := ih
    constructor
    · intro vs h
      rw [sextets_text] at h
      split_ifs at h with hstop hhigh hskip
      · simp [← Option.some.inj h]
      · obtain ⟨vs', hvs', rfl⟩ := Option.map_eq_some_iff.mp h
        simpa using ihText vs' hvs'
      · exact ihPassing vs h
    · intro vs h
      rw [sextets_passing] at h
      split_ifs at h with hlast hhigh hskip
      · simp [← Option.some.inj h]
      · obtain ⟨vs', hvs', rfl⟩ := Option.map_eq_some_iff.mp h
        have hle := ihText vs' hvs'
        simp only [List.length_cons]
        omega
      · exact (ihPassing vs h).trans (by simp)

/-- What is decoded of a text that memory goes on behind. -/
theorem decode_eq {tail : Str} {b : Byte} {more : Str} (htail : tail = b :: more) (hmore : more ≠ [])
    (hb : base64map b = SKIP) (text : Str) :
    decode (text ++ tail) text.length =
      (sextets false text).bind fun vs =>
        if text.length = 1 ∧ vs ≠ [] then none else some (octets vs, toldLength vs.length) := by
  have hloop := (decodeLoop_eq htail hmore hb text).1 ⟨text ++ tail, 1, text.length, 0, [], 0⟩ (text.length + 1) rfl
    (by push_cast; rfl) (by omega)
  have hfinish : ∀ vs : List (BitVec 32), (vs.foldl Decoding.put ⟨[], 1, 0, 0, [], 0⟩).finish =
      (octets vs, toldLength vs.length) := by
    intro vs
    rw [finish_put vs rfl rfl, List.nil_append, Nat.zero_add]
  rw [decode_finish]
  cases hd : decodeLoop (text.length + 1) ⟨text ++ tail, 1, text.length, 0, [], 0⟩ with
  | none =>
    rw [hd] at hloop
    cases hs : sextets false text with
    | none => rfl
    | some vs =>
      rw [hs] at hloop
      cases hloop
  | some d =>
    rw [hd] at hloop
    cases hs : sextets false text with
    | none =>
      rw [hs] at hloop
      cases hloop
    | some vs =>
      rw [hs] at hloop
      have hkept : d.kept = vs.foldl Decoding.put ⟨[], 1, 0, 0, [], 0⟩ := Option.some.inj hloop
      have hd' : d.finish = (octets vs, toldLength vs.length) := by
        have : d.kept.finish = d.finish := rfl
        rw [← this, hkept, hfinish]
      have hbuffer : text.length + 1 < (octets vs).length ↔ text.length = 1 ∧ vs ≠ [] := by
        have hle := (length_sextets text).1 vs hs
        rw [length_octets, ← List.length_pos_iff]
        omega
      rw [Option.bind_some, Option.bind_some, hd']
      simp only [hbuffer]

/-! ## Digits -/

def base64chars : Str := ascii "ABCDEFGHIJKLMNOPQRSTUVWXYZabcdefghijklmnopqrstuvwxyz0123456789+/"

def digit (d : Nat) : Byte := base64chars.getD d 0

/-- As the decoder has them. -/
def words (ds : List Nat) : List (BitVec 32) := ds.map (BitVec.ofNat 32)

theorem digit_facts : ∀ d < 64, base64map (digit d) = BitVec.ofNat 32 d ∧ base64map (digit d) ≠ SKIP ∧
    digit d ≠ ch '=' ∧ (digit d).toNat < 128 := by
  unfold digit base64chars
  rw [ascii_ofList]
  decide +kernel

section

variable {d : Nat} {ds : List Nat} {n : Nat}

theorem sextets_digit (hd : d < 64) (text : Str) :
    sextets false (digit d :: text) = (sextets false text).map (BitVec.ofNat 32 d :: ·) := by
  obtain ⟨hmap, hskip, hpad, hlow⟩ := digit_facts d hd
  rw [sextets_text, if_neg hpad, if_neg (by omega), if_pos hskip, hmap]

/-- A line break in front of a digit is passed over. -/
theorem sextets_break (hd : d < 64) (text : Str) :
    sextets false (crlf ++ digit d :: text) = sextets false (digit d :: text) := by
  obtain ⟨hmap, hskip, hpad, hlow⟩ := digit_facts d hd
  have hpassing : sextets true (digit d :: text) = sextets false (digit d :: text) := by
    rw [sextets_digit hd, sextets_passing, if_neg (by omega : ¬ 128 ≤ (digit d).toNat), if_pos hskip, hmap]
    split_ifs with hnil
    · rw [hnil]
      rfl
    · rfl
  rw [← hpassing]
  change sextets false (ch '\r' :: LF :: digit d :: text) = _
  rw [sextets_text, if_neg (by decide), if_neg (by decide), if_neg (by decide), sextets_passing, if_neg nofun,
    if_neg (by decide), if_neg (by decide)]

theorem sextets_digits (hds : ∀ d ∈ ds, d < 64) (text : Str) :
    sextets false (ds.map digit ++ text) = (sextets false text).map (words ds ++ ·) := by
  induction ds with
  | nil => simp [words]
  | cons d ds ih =>
    obtain ⟨hd, hds⟩ := List.forall_mem_cons.mp hds
    rw [List.map_cons, List.cons_append, sextets_digit hd, ih hds, Option.map_map]
    rfl

theorem toNat_or_digit {std : BitVec 32} (hstd : std.toNat % 64 = 0) (hd : d < 64) :
    (std ||| BitVec.ofNat 32 d).toNat = std.toNat + d := by
  rw [BitVec.toNat_or, BitVec.toNat_ofNat, Nat.mod_eq_of_lt (by omega)]
  have hsplit : std.toNat = (std.toNat / 64) <<< 6 := by
    rw [Nat.shiftLeft_eq]
    omega
  rw [hsplit, Nat.shiftLeft_add_eq_or_of_lt (by omega)]

theorem toNat_word (hds : ∀ d ∈ ds, d < 64) (hlength : ds.length ≤ 4) :
    (word (words ds)).toNat = value ds * 64 ∧ value ds < 64 ^ ds.length := by
  induction ds using List.reverseRecOn with
  | nil => simp [word, words, value]
  | append_singleton ds d ih =>
    obtain ⟨hds, hd⟩ := List.forall_mem_append.mp hds
    have hd : d < 64 := hd d (List.mem_singleton_self d)
    rw [List.length_append, List.length_singleton] at hlength
    obtain ⟨hword, hvalue⟩ := ih hds (by omega)
    have hbound : value ds < 64 ^ 3 := hvalue.trans_le (Nat.pow_le_pow_right (by decide) (by omega))
    have hsnoc : word (words (ds ++ [d])) = (word (words ds) ||| BitVec.ofNat 32 d) <<< 6 := by
      simp [word, words]
    have hvalue' : value (ds ++ [d]) = value ds * 64 + d := by simp [value]
    constructor
    · rw [hsnoc, hvalue', BitVec.toNat_shiftLeft, toNat_or_digit (by rw [hword]; omega) hd, hword, Nat.shiftLeft_eq]
      omega
    · rw [hvalue', List.length_append, List.length_singleton, Nat.pow_succ]
      omega

theorem bytesOf_eq {std : BitVec 32} (h : std.toNat < 2 ^ 31) : bytesOf std = bytes std.toNat := by
  have hmsb : std.msb = false := BitVec.msb_eq_false_iff_two_mul_lt.mpr (by omega)
  simp [bytesOf, bytes, BitVec.sshiftRight_eq_of_msb_false hmsb, Nat.shiftRight_eq_div_pow]

/-- A group of digits, whole or not. -/
theorem bytesOf_word (hds : ∀ d ∈ ds, d < 64) (hlength : ds.length ≤ 4) :
    bytesOf ((word (words ds) <<< (6 * (4 - ds.length))).sshiftRight 6) =
      bytes (value ds * 64 ^ (4 - ds.length)) := by
  obtain ⟨hword, hvalue⟩ := toNat_word hds hlength
  have hbound : value ds * 64 ^ (4 - ds.length) < 64 ^ 4 := by
    calc value ds * 64 ^ (4 - ds.length) < 64 ^ ds.length * 64 ^ (4 - ds.length) :=
          Nat.mul_lt_mul_of_pos_right hvalue (Nat.pow_pos (by decide))
      _ = 64 ^ 4 := by rw [← Nat.pow_add]; congr 1; omega
  have hshift : (word (words ds) <<< (6 * (4 - ds.length))).toNat = value ds * 64 ^ (4 - ds.length) * 64 := by
    rw [BitVec.toNat_shiftLeft, hword, Nat.shiftLeft_eq, Nat.pow_mul]
    have hmul : value ds * 64 * (2 ^ 6) ^ (4 - ds.length) = value ds * 64 ^ (4 - ds.length) * 64 := by ring
    rw [hmul, Nat.mod_eq_of_lt (by omega)]
  have hmsb : (word (words ds) <<< (6 * (4 - ds.length))).msb = false :=
    BitVec.msb_eq_false_iff_two_mul_lt.mpr (by rw [hshift]; omega)
  have hnat : ((word (words ds) <<< (6 * (4 - ds.length))).sshiftRight 6).toNat = value ds * 64 ^ (4 - ds.length) := by
    rw [BitVec.toNat_sshiftRight_of_msb_false hmsb, hshift, Nat.shiftRight_eq_div_pow]
    omega
  rw [bytesOf_eq (by rw [hnat]; omega), hnat]

end

/-! ## Texts that are written as they should be -/

/-- Base 64 without line breaks. -/
def standard (s : Str) : Str := encode digit (ch '=') s

theorem octets_group (a b c : Byte) (ws : List (BitVec 32)) :
    octets (words (digits (number a b c)) ++ ws) = a :: b :: c :: octets ws := by
  have hgroup := bytesOf_word (lt_of_mem_digits (number_lt a b c)) (by simp [digits])
  have hfour : (digits (number a b c)).length = 4 := rfl
  rw [value_digits (number_lt a b c), hfour, Nat.sub_self, Nat.mul_zero, BitVec.shiftLeft_zero, Nat.pow_zero,
    Nat.mul_one, bytes_number] at hgroup
  change bytesOf ((word (words (digits (number a b c)))).sshiftRight 6) ++ octets ws = _
  rw [hgroup]
  rfl

/-- The values of a text are groups of digits, of which the last may not be whole. -/
theorem sextets_standard (s : Str) : ∃ vs, sextets false (standard s) = some vs ∧
    vs.length = (s.length * 4 + 2) / 3 ∧ octets vs = s ++ List.replicate ((3 - s.length % 3) % 3) 0 := by
  unfold standard
  induction s using encode.induct with
  | case1 => exact ⟨[], rfl, rfl, rfl⟩
  | case2 a =>
    have hds : ∀ d ∈ (digits (number a 0 0)).take 2, d < 64 := fun d hd =>
      lt_of_mem_digits (number_lt a 0 0) d (List.mem_of_mem_take hd)
    refine ⟨words ((digits (number a 0 0)).take 2), ?_, by simp [words, digits], ?_⟩
    · rw [encode, sextets_digits hds, sextets_text, if_pos (by rfl)]
      simp
    · have hoctets := bytesOf_word hds (by simp [digits])
      change octets (words ((digits (number a 0 0)).take 2)) = bytes (value ((digits (number a 0 0)).take 2) * 4096)
        at hoctets
      rw [hoctets, value_one, bytes_number]
      rfl
  | case3 a b =>
    have hds : ∀ d ∈ (digits (number a b 0)).take 3, d < 64 := fun d hd =>
      lt_of_mem_digits (number_lt a b 0) d (List.mem_of_mem_take hd)
    refine ⟨words ((digits (number a b 0)).take 3), ?_, by simp [words, digits], ?_⟩
    · rw [encode, sextets_digits hds, sextets_text, if_pos (by rfl)]
      simp
    · have hoctets := bytesOf_word hds (by simp [digits])
      change octets (words ((digits (number a b 0)).take 3)) = bytes (value ((digits (number a b 0)).take 3) * 64)
        at hoctets
      rw [hoctets, value_two, bytes_number]
      rfl
  | case4 a b c text ih =>
    have hds := lt_of_mem_digits (number_lt a b c)
    obtain ⟨vs, hvs, hlength, hoctets⟩ := ih
    refine ⟨words (digits (number a b c)) ++ vs, ?_, ?_, ?_⟩
    · rw [encode, sextets_digits hds, hvs]
      rfl
    · simp only [words, digits, List.length_append, List.length_map, List.length_cons, List.length_nil, hlength]
      omega
    · have hmod : (a :: b :: c :: text).length % 3 = text.length % 3 := by
        simp only [List.length_cons]
        omega
      rw [hmod, octets_group, hoctets]
      rfl

end MyServer.RequestHeader
