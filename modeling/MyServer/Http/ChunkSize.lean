import MyServer.Http.SourceReads

/-!
# Chunk sizes

The reader takes at most 19 characters of a size line, and `hexToInt` answers 0
for whatever is not a number below `2 ^ 32`.
-/

namespace MyServer

def hexValue (s : Str) : Nat := s.foldl (fun u b => u * 16 + hexDigit b) 0

/-- A size line writes the number `n`: digits up to a `;` or the end. -/
def WritesSize (line : Str) (n : Nat) : Prop :=
  line.takeWhile (· ≠ ch ';') ≠ [] ∧ (line.takeWhile (· ≠ ch ';')).all isHexDigit ∧
    hexValue (line.takeWhile (· ≠ ch ';')) = n

/-- What the reader makes of the characters that it has: `dataToRead`. -/
def sizeOf (buffer : Str) : Nat := (BitVec.ofInt 64 (hexToInt buffer)).toNat

/-! ## `hexToInt` -/

theorem le_foldl_hex (s : Str) (u : Nat) : u ≤ s.foldl (fun u b => u * 16 + hexDigit b) u := by
  induction s generalizing u with
  | nil => exact le_rfl
  | cons b s ih =>
    have := ih (u * 16 + hexDigit b)
    rw [List.foldl_cons]
    omega

theorem hexDigit_lt {b : Byte} (h : isHexDigit b) : hexDigit b < 16 := by
  unfold isHexDigit at h
  unfold hexDigit
  simp only [decide_eq_true_eq] at h
  split_ifs <;> omega

theorem hexLoop_of_hex {s : Str} (h : s.all isHexDigit) {u : Nat} (hu : u < 2 ^ 32) :
    hexLoop u s = if s.foldl (fun u b => u * 16 + hexDigit b) u < 2 ^ 32 then
      s.foldl (fun u b => u * 16 + hexDigit b) u else 0 := by
  induction s generalizing u with
  | nil => exact (if_pos hu).symm
  | cons b s ih =>
    rw [List.all_cons, Bool.and_eq_true] at h
    have hb := hexDigit_lt h.1
    rw [hexLoop, if_neg (by simp [h.1]), List.foldl_cons]
    split_ifs with hover hlt hlt
    · have := le_foldl_hex s (u * 16 + hexDigit b)
      omega
    · rfl
    · rw [ih h.2 (by omega), if_pos hlt]
    · rw [ih h.2 (by omega), if_neg hlt]

theorem hexLoop_of_not_hex {s : Str} (h : ¬ s.all isHexDigit) (u : Nat) : hexLoop u s = 0 := by
  induction s generalizing u with
  | nil => exact absurd rfl h
  | cons b s ih =>
    rw [hexLoop]
    split_ifs with hb
    · rfl
    · rfl
    · apply ih
      intro hs
      rw [List.all_cons, hs, Bool.and_true] at h
      simp [h] at hb

theorem sizeOf_eq (buffer : Str) :
    sizeOf buffer = (BitVec.ofInt 64 (BitVec.ofNat 32
      (if (cstr buffer).all isHexDigit ∧ hexValue (cstr buffer) < 2 ^ 32 then
        hexValue (cstr buffer) else 0)).toInt).toNat := by
  unfold sizeOf hexToInt
  by_cases h : (cstr buffer).all isHexDigit
  · rw [hexLoop_of_hex h (by norm_num)]
    simp only [h, true_and, hexValue]
  · rw [hexLoop_of_not_hex h, if_neg (fun hand => h hand.1)]

theorem toULong_of_lt {u : Nat} (h : u < 2 ^ 31) :
    (BitVec.ofInt 64 (BitVec.ofNat 32 u).toInt).toNat = u := by
  have hint : (BitVec.ofNat 32 u).toInt = u := by
    rw [BitVec.toInt_eq_toNat_of_lt, BitVec.toNat_ofNat, Nat.mod_eq_of_lt (by omega)]
    rw [BitVec.toNat_ofNat]
    omega
  rw [hint, BitVec.toNat_ofInt]
  omega

/-- **A number below `2 ^ 31`** is read for what it is. -/
theorem sizeOf_of_hex {buffer : Str} (h : (cstr buffer).all isHexDigit)
    (hlt : hexValue (cstr buffer) < 2 ^ 31) : sizeOf buffer = hexValue (cstr buffer) := by
  rw [sizeOf_eq, if_pos ⟨h, by omega⟩]
  exact toULong_of_lt hlt

/-- **What is no number** is read as 0. -/
theorem sizeOf_of_not_hex {buffer : Str} (h : ¬ (cstr buffer).all isHexDigit) :
    sizeOf buffer = 0 := by
  rw [sizeOf_eq, if_neg (fun hand => h hand.1)]
  exact toULong_of_lt (by norm_num)

theorem hexDigit_ne {b : Byte} (h : isHexDigit b) : b ≠ 0 ∧ b ≠ ch '\r' ∧ b ≠ ch ';' := by
  refine ⟨?_, ?_, ?_⟩ <;>
  · rintro rfl
    revert h
    decide

theorem cstr_of_hex {s : Str} (h : s.all isHexDigit) : cstr s = s := by
  unfold cstr
  rw [List.takeWhile_eq_self_iff]
  intro b hb
  simpa using (hexDigit_ne (List.all_eq_true.mp h b hb)).1

/-! ## The size line -/

def sizeChars (line : Str) : Str := (line.takeWhile (· ≠ ch '\r')).take 19

theorem readSizeChars_eq {t : Str} {b : Byte} {u : Str} (hcr : ch '\r' ∉ t) {room : Nat}
    (hend : b = ch '\r' ∧ t.length ≤ room ∨ t.length = room) {c : Conn}
    (hproper : Fragments.Proper c.socket) (hunread : c.unread = t ++ b :: u) (buffer : Str) :
    ∃ c', readSizeChars c buffer room = some (buffer ++ t, c') ∧ c'.unread = u ∧
      Fragments.Proper c'.socket ∧ ∀ k, 0 < k → (c'.CutAt k ↔ c.CutAt (t.length + 1 + k)) := by
  induction t generalizing room c buffer with
  | nil =>
    obtain ⟨c', hread, hu, hproper', hcuts⟩ := read_one hproper hunread
    refine ⟨c', ?_, hu, hproper', fun k hk => ?_⟩
    · unfold readSizeChars
      cases room with
      | zero => simp [hread]
      | succ room =>
        have hb : b = ch '\r' := hend.elim And.left fun h => by cases h
        simp [hread, hb]
    · rw [hcuts k hk, List.length_nil, Nat.zero_add]
  | cons a t ih =>
    have ha : a ≠ ch '\r' := fun h => hcr (h ▸ List.mem_cons_self)
    rw [List.length_cons] at hend
    obtain ⟨room, rfl⟩ : ∃ r, room = r + 1 := ⟨room - 1, by omega⟩
    obtain ⟨c₁, hread, hu₁, hproper₁, hcuts₁⟩ := read_one hproper hunread
    have hend₁ : b = ch '\r' ∧ t.length ≤ room ∨ t.length = room :=
      hend.imp (fun h => ⟨h.1, by omega⟩) (fun h => by omega)
    obtain ⟨c', hrest, hu, hproper', hcuts⟩ := ih (fun h => hcr (List.mem_cons_of_mem a h))
      hend₁ hproper₁ hu₁ (buffer ++ [a])
    refine ⟨c', ?_, hu, hproper', fun k hk => ?_⟩
    · rw [readSizeChars, hread]
      simp [ha, hrest]
    · rw [hcuts k hk, hcuts₁ _ (by omega), List.length_cons]
      congr! 1
      omega

/-- **The size line**, as far as it is read: what is kept, the byte that ends it and one more. -/
theorem readSizeLine_eq {t : Str} {b d : Byte} {u : Str} (hcr : ch '\r' ∉ t)
    (hend : b = ch '\r' ∧ t.length ≤ 19 ∨ t.length = 19) {c : Conn}
    (hproper : Fragments.Proper c.socket) (hunread : c.unread = t ++ b :: d :: u) :
    ∃ c', readSizeLine c = some (sizeOf t, c') ∧ c'.unread = u ∧ Fragments.Proper c'.socket ∧
      ∀ k, 0 < k → (c'.CutAt k ↔ c.CutAt (t.length + 2 + k)) := by
  obtain ⟨c₁, hchars, hu₁, hproper₁, hcuts₁⟩ := readSizeChars_eq hcr hend hproper hunread []
  obtain ⟨c', hread, hu, hproper', hcuts⟩ := read_one hproper₁ hu₁
  refine ⟨c', ?_, hu, hproper', fun k hk => ?_⟩
  · unfold readSizeLine
    rw [hchars]
    simp [hread, sizeOf]
  · rw [hcuts k hk, hcuts₁ _ (by omega)]
    congr! 1
    omega

theorem exists_two_of_length {l : Str} {n : Nat} (h : n + 2 ≤ l.length) :
    ∃ b d u, l = l.take n ++ b :: d :: u := by
  have hlen : 2 ≤ (l.drop n).length := by
    rw [List.length_drop]
    omega
  match hdrop : l.drop n with
  | [] => simp [hdrop] at hlen
  | [_] => simp [hdrop] at hlen
  | b :: d :: u => exact ⟨b, d, u, by rw [← hdrop, List.take_append_drop]⟩

theorem sizeChars_initial (line : Str) : sizeChars line <+: line :=
  (List.take_prefix 19 _).trans (List.takeWhile_prefix _)

theorem sizeLine_split (line rest : Str) : ∃ b d u,
    line ++ crlf ++ rest = sizeChars line ++ b :: d :: u ∧ ch '\r' ∉ sizeChars line ∧
      (b = ch '\r' ∧ (sizeChars line).length ≤ 19 ∨ (sizeChars line).length = 19) := by
  have hpre := sizeChars_initial line
  have htake : (line ++ crlf ++ rest).take (sizeChars line).length = sizeChars line := by
    rw [List.append_assoc]
    exact (List.prefix_iff_eq_take.mp (hpre.trans (List.prefix_append line _))).symm
  obtain ⟨b, d, u, hsplit⟩ : ∃ b d u, line ++ crlf ++ rest =
      (line ++ crlf ++ rest).take (sizeChars line).length ++ b :: d :: u := by
    apply exists_two_of_length
    have := hpre.length_le
    simp [crlf]
    omega
  rw [htake] at hsplit
  refine ⟨b, d, u, hsplit, ?_, ?_⟩
  · intro h
    simpa using List.mem_takeWhile_imp (List.mem_of_mem_take h)
  · by_cases hlen : (sizeChars line).length = 19
    · exact Or.inr hlen
    · have hle : (sizeChars line).length ≤ 19 := List.length_take_le 19 _
      refine Or.inl ⟨?_, hle⟩
      -- All up to the first CR was kept, so the CR comes next.
      have hall : sizeChars line = line.takeWhile (· ≠ ch '\r') := by
        apply List.take_of_length_le
        unfold sizeChars at hlen
        rw [List.length_take] at hlen
        omega
      have hrest : line.dropWhile (· ≠ ch '\r') ++ crlf ++ rest = b :: d :: u := by
        refine @List.append_cancel_left _ (sizeChars line) _ _ ?_
        rw [← hsplit, hall, ← List.append_assoc, ← List.append_assoc,
          List.takeWhile_append_dropWhile]
      have hhead := List.head?_dropWhile_not (· ≠ ch '\r') line
      cases hdrop : line.dropWhile (· ≠ ch '\r') with
      | nil =>
        rw [hdrop] at hrest
        exact (List.cons.inj hrest).1.symm
      | cons x e =>
        rw [hdrop] at hrest hhead
        rw [← (List.cons.inj hrest).1]
        simpa using hhead

theorem sizeChars_append {d e : Str} (hd : d.all isHexDigit) :
    sizeChars (d ++ e) = (d ++ e.takeWhile (· ≠ ch '\r')).take 19 := by
  unfold sizeChars
  rw [List.takeWhile_append_of_pos]
  intro b hb
  simpa using (hexDigit_ne (List.all_eq_true.mp hd b hb)).2.1

theorem hexValue_take_le (s : Str) (n : Nat) : hexValue (s.take n) ≤ hexValue s := by
  have h := le_foldl_hex (s.drop n) (hexValue (s.take n))
  unfold hexValue at h ⊢
  rwa [← List.foldl_append, List.take_append_drop] at h

theorem hexValue_take_eq {s : Str} {n : Nat} (hn : n < s.length)
    (h : hexValue (s.take n) = hexValue s) : hexValue s = 0 := by
  have hsplit : hexValue s = (s.drop n).foldl (fun u b => u * 16 + hexDigit b)
      (hexValue (s.take n)) := by
    unfold hexValue
    rw [← List.foldl_append, List.take_append_drop]
  obtain ⟨b, t, hdrop⟩ : ∃ b t, s.drop n = b :: t := by
    apply List.exists_cons_of_ne_nil
    rw [Ne, List.drop_eq_nil_iff]
    omega
  rw [hdrop, List.foldl_cons, h] at hsplit
  have := le_foldl_hex t (hexValue s * 16 + hexDigit b)
  omega

theorem all_take {s : Str} (h : s.all isHexDigit) (n : Nat) : (s.take n).all isHexDigit := by
  rw [List.all_eq_true] at h ⊢
  exact fun b hb => h b (List.mem_of_mem_take hb)

theorem sizeOf_of_long {d e : Str} (hd : d.all isHexDigit) (hlt : hexValue d < 2 ^ 31)
    (hlen : 19 ≤ d.length) : sizeOf (sizeChars (d ++ e)) = hexValue (d.take 19) := by
  have htake := all_take hd 19
  have hcstr := cstr_of_hex htake
  rw [sizeChars_append hd, List.take_append_of_le_length hlen, sizeOf_of_hex, hcstr]
  · rwa [hcstr]
  · rw [hcstr]
    exact lt_of_le_of_lt (hexValue_take_le d 19) hlt

theorem sizeChars_of_plain {d : Str} (hd : d.all isHexDigit) (hlen : d.length ≤ 19) :
    sizeChars d = d := by
  have hchars := @sizeChars_append d [] hd
  rwa [List.append_nil, List.takeWhile_nil, List.append_nil, List.take_of_length_le hlen] at hchars

theorem sizeOf_of_plain {d : Str} (hd : d.all isHexDigit) (hlt : hexValue d < 2 ^ 31)
    (hlen : d.length ≤ 19) : sizeOf (sizeChars d) = hexValue d := by
  have hcstr := cstr_of_hex hd
  rw [sizeChars_of_plain hd hlen, sizeOf_of_hex, hcstr]
  · rwa [hcstr]
  · rwa [hcstr]

theorem sizeOf_of_extension {d e : Str} (hd : d.all isHexDigit) (hlen : d.length < 19) :
    sizeOf (sizeChars (d ++ ch ';' :: e)) = 0 := by
  obtain ⟨k, hk⟩ : ∃ k, 19 - d.length = k + 1 := ⟨18 - d.length, by omega⟩
  have hsemi : (ch ';' :: e).takeWhile (· ≠ ch '\r') = ch ';' :: e.takeWhile (· ≠ ch '\r') :=
    List.takeWhile_cons_of_pos (by decide)
  apply sizeOf_of_not_hex
  rw [sizeChars_append hd, hsemi, List.take_append, List.take_of_length_le hlen.le, hk,
    List.take_succ_cons, cstr, List.takeWhile_append_of_pos,
    List.takeWhile_cons_of_pos (by decide)]
  · intro hall
    rw [List.all_append, List.all_cons, Bool.and_eq_true, Bool.and_eq_true] at hall
    exact absurd hall.2.1 (by decide)
  · intro b hb
    simpa using (hexDigit_ne (List.all_eq_true.mp hd b hb)).1

/-- A line is its digits, and an extension from a `;` on if there is one. -/
theorem digits_cases (line : Str) : line.takeWhile (· ≠ ch ';') = line ∨
    ∃ e, line = line.takeWhile (· ≠ ch ';') ++ ch ';' :: e := by
  have hline := List.takeWhile_append_dropWhile (p := (· ≠ ch ';')) (l := line)
  have hhead := List.head?_dropWhile_not (· ≠ ch ';') line
  cases hdrop : line.dropWhile (· ≠ ch ';') with
  | nil =>
    rw [hdrop, List.append_nil] at hline
    exact Or.inl hline
  | cons x e =>
    rw [hdrop] at hhead hline
    have hx : x = ch ';' := by simpa using hhead
    rw [hx] at hline
    exact Or.inr ⟨e, hline.symm⟩

/-- What the reader makes of a line that writes a number below `2 ^ 31`. -/
theorem sizeOf_eq_iff {line : Str} {n : Nat} (hw : WritesSize line n) (hlt : n < 2 ^ 31) :
    sizeOf (sizeChars line) = n ↔ n = 0 ∨ (line.takeWhile (· ≠ ch ';')).length = 19 ∨
      ch ';' ∉ line ∧ line.length ≤ 19 := by
  obtain ⟨-, hhex, hvalue⟩ := hw
  have hcases := digits_cases line
  generalize line.takeWhile (· ≠ ch ';') = d at hhex hvalue hcases ⊢
  subst hvalue
  have hsemi : ch ';' ∉ d := by
    intro hmem
    exact (hexDigit_ne (List.all_eq_true.mp hhex _ hmem)).2.2 rfl
  rcases Nat.lt_trichotomy d.length 19 with hlen | hlen | hlen
  · rcases hcases with rfl | ⟨e, rfl⟩
    · exact iff_of_true (sizeOf_of_plain hhex hlt hlen.le) (Or.inr (Or.inr ⟨hsemi, hlen.le⟩))
    · rw [sizeOf_of_extension hhex hlen]
      constructor
      · exact fun h => Or.inl h.symm
      · rintro (h | h | ⟨h, -⟩)
        · exact h.symm
        · omega
        · simp at h
  · have hfull : d.take 19 = d := List.take_of_length_le hlen.le
    refine iff_of_true ?_ (Or.inr (Or.inl hlen))
    rcases hcases with rfl | ⟨e, rfl⟩
    · exact sizeOf_of_plain hhex hlt hlen.le
    · rw [sizeOf_of_long hhex hlt hlen.ge, hfull]
  · -- The rest of the digits is lost.
    have hlong : sizeOf (sizeChars line) = hexValue (d.take 19) := by
      rcases hcases with rfl | ⟨e, rfl⟩
      · have h := @sizeOf_of_long d [] hhex hlt hlen.le
        rwa [List.append_nil] at h
      · exact sizeOf_of_long hhex hlt hlen.le
    rw [hlong]
    constructor
    · exact fun h => Or.inl (hexValue_take_eq hlen h)
    · rintro (h | h | ⟨h, hle⟩)
      · have := hexValue_take_le d 19
        omega
      · omega
      · rcases hcases with rfl | ⟨e, rfl⟩
        · omega
        · simp at h

/-- The reader of a size line gives an error or the number, below `2 ^ 31`, that the line writes. -/
def SizeReadRight (line : Str) (c : Conn) : Prop :=
  readSizeLine c = none ∨ ∃ n c', readSizeLine c = some (n, c') ∧ WritesSize line n ∧ n < 2 ^ 31

/-- **Reading a chunk size.** The number is right exactly for zeros, for numbers of 19 digits, and
for shorter ones without an extension; every other line is read as some number all the same. -/
theorem sizeReadRight_iff {c : Conn} (hproper : Fragments.Proper c.socket) {line rest : Str}
    (hunread : c.unread = line ++ crlf ++ rest) :
    SizeReadRight line c ↔ ∃ n, WritesSize line n ∧ n < 2 ^ 31 ∧
      (n = 0 ∨ (line.takeWhile (· ≠ ch ';')).length = 19 ∨
        ch ';' ∉ line ∧ line.length ≤ 19) := by
  obtain ⟨b, d, u, hsplit, hcr, hend⟩ := sizeLine_split line rest
  rw [hsplit] at hunread
  obtain ⟨c', hread, -⟩ := readSizeLine_eq hcr hend hproper hunread
  unfold SizeReadRight
  rw [hread]
  constructor
  · rintro (h | ⟨n, c'', h, hw, hlt⟩)
    · cases h
    · obtain ⟨rfl, rfl⟩ := Prod.mk.inj (Option.some.inj h)
      exact ⟨_, hw, hlt, (sizeOf_eq_iff hw hlt).mp rfl⟩
  · rintro ⟨n, hw, hlt, h⟩
    refine Or.inr ⟨n, c', ?_, hw, hlt⟩
    rw [(sizeOf_eq_iff hw hlt).mpr h]

theorem sizeReadRight_one_f : SizeReadRight (ascii "1F") ⟨ascii "1F\r\nab", [], false⟩ := by
  have hunread : Conn.unread ⟨ascii "1F\r\nab", [], false⟩ = ascii "1F" ++ crlf ++ ascii "ab" := by
    decide
  refine (sizeReadRight_iff (fun f hf => ?_) hunread).mpr
    ⟨31, by unfold WritesSize; decide, by decide, Or.inr (Or.inr (by decide))⟩
  cases hf

/-- A line that is no number is taken for the zero chunk, and the body ends there with success. -/
theorem size_line_misread :
    ¬ SizeReadRight (ascii "xyz") ⟨ascii "xyz\r\nab", [], false⟩ ∧
      readChunkedPostData ⟨16, some Sink.memory, 0⟩ ⟨ascii "xyz\r\nab", [], false⟩ none =
        some (.success ⟨⟨ascii "ab", [], false⟩, [], 0, []⟩ none) := by
  have hread : readSizeLine ⟨ascii "xyz\r\nab", [], false⟩ =
      some (0, ⟨ascii "ab", [], false⟩) := by decide
  refine ⟨?_, by decide⟩
  unfold SizeReadRight
  rw [hread]
  rintro (h | ⟨n, c, -, hw, -⟩)
  · cases h
  · exact absurd hw.2.1 (by decide)

end MyServer
