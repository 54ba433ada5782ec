import MyServer.Http.DataRead
import MyServer.Http.RequestPath
import MyServer.Lib.Cells

/-!
# HTTP escape sequences

`translateEscapeString` is there for a `char*` and for a `std::string`, each a loop that writes behind what it
reads. The loop over a `std::string` goes round once for each of its characters.
-/

open MyServer.Cells MyServer.Http

namespace MyServer.Escapes

def denoted (a b : Byte) : Byte := UInt8.ofNat (16 * hexVal a + hexVal b)

/-- The character at `i`, or the one that is escaped there, and where the next one is. -/
def next (str : Str) (i : Nat) : Option (Byte × Nat) :=
  (str[i]?).bind fun c =>
  if c = ch '%' then
    (str[i + 1]?).bind fun a =>
    if a = 0 then some (c, i + 1)
    else (str[i + 2]?).map fun b => if b = 0 then (c, i + 1) else (denoted a b, i + 3)
  else some (c, i + 1)

/-- The body of both loops. The cursors are of type `int`. -/
def body (str : Str) (i j : Nat) : Option (Str × Nat × Nat) :=
  (next str i).bind fun r =>
  if r.2 < 2 ^ 31 then (put str j r.1).map fun str => (str, r.2, j + 1) else none

namespace Chars

/-- It goes round so many times at most. -/
def loop : Nat → Str → Nat → Nat → Option Str
  | 0, _, _, _ => none
  | n + 1, str, i, j =>
    (str[i]?).bind fun c =>
    if c = 0 then put str j 0 else (body str i j).bind fun r => loop n r.1 r.2.1 r.2.2

def translateEscapeString (str : Str) : Option Str := loop str.length str 0 0

end Chars

namespace StdString

/-- With the `j` that it ends with. -/
def loop : Nat → Str → Nat → Nat → Option (Str × Nat)
  | 0, str, _, j => some (str, j)
  | len + 1, str, i, j => (body str i j).bind fun r => loop len r.1 r.2.1 r.2.2

/-- The NUL behind the characters can be read. A length that is negative as an `int` never comes to 0. -/
def translateEscapeString (str : Str) : Option Str :=
  let len := (BitVec.ofNat 32 str.length).toInt
  if len < 0 then none
  else (loop len.toNat (str ++ [0]) 0 0).bind fun r => (put r.1 r.2 0).map fun b => b.take str.length

end StdString

/-- What two hexadecimal digits behind a `%` denote. -/
def decode : Str → Str
  | c :: a :: b :: s =>
    if c = ch '%' ∧ isHexDigit a ∧ isHexDigit b then denoted a b :: decode s else c :: decode (a :: b :: s)
  | s => s

/-- Both versions stay in the string and replace what is to be replaced. -/
def Agrees (s : Str) : Prop :=
  (∃ b, Chars.translateEscapeString (s ++ [0]) = some b ∧ cstr b = decode s) ∧
    StdString.translateEscapeString s = some (decode s)

/-- A `%` with two characters behind it. -/
def Escaped (s : Str) : Prop := ch '%' ∈ s.take (s.length - 2)

instance (s : Str) : Decidable (Escaped s) := by
  unfold Escaped
  infer_instance

/-- The first character, or the one that is escaped there, and how long it is. -/
def first : Str → Byte × Nat
  | c :: a :: b :: _ => if c = ch '%' then (denoted a b, 3) else (c, 1)
  | c :: _ => (c, 1)
  | [] => (0, 1)

section

variable {out mid rest s str : Str} {i j k n : Nat}

theorem first_le (hne : s ≠ []) : 1 ≤ (first s).2 ∧ (first s).2 ≤ s.length := by
  rcases s with _ | ⟨c, _ | ⟨a, _ | ⟨b, s⟩⟩⟩
  · exact absurd rfl hne
  · simp [first]
  · simp [first]
  · rw [first]
    split_ifs <;> simp

theorem translate_eq (hne : s ≠ []) (hnul : (0 : Byte) ∉ s) :
    translateEscapeString s = (first s).1 :: translateEscapeString (s.drop (first s).2) := by
  rcases s with _ | ⟨c, _ | ⟨a, _ | ⟨b, s⟩⟩⟩
  · exact absurd rfl hne
  · simp [translateEscapeString, first]
  · simp [translateEscapeString, first]
  · have ha : a ≠ 0 := by
      rintro rfl
      exact hnul (by simp)
    have hb : b ≠ 0 := by
      rintro rfl
      exact hnul (by simp)
    rw [translateEscapeString, first]
    simp only [ha, hb, ne_eq, not_false_eq_true, and_true]
    split_ifs
    · rfl
    · rfl

/-! ## One round -/

/-- What is read depends on the text that is left. -/
theorem next_eq (hne : rest ≠ []) (hnul : (0 : Byte) ∉ rest) (hleft : str.drop i = rest ++ [0]) :
    next str i = some ((first rest).1, i + (first rest).2) := by
  have hread : ∀ m, str[i + m]? = (rest ++ [0])[m]? := by
    intro m
    rw [← hleft, List.getElem?_drop]
  have hzero := hread 0
  rw [Nat.add_zero] at hzero
  unfold next
  rw [hzero, hread 1, hread 2]
  rcases rest with _ | ⟨c, _ | ⟨a, _ | ⟨b, s⟩⟩⟩
  · exact absurd rfl hne
  · simp [first]
  · simp [first]
  · have ha : a ≠ 0 := by
      rintro rfl
      exact hnul (by simp)
    have hb : b ≠ 0 := by
      rintro rfl
      exact hnul (by simp)
    simp only [List.cons_append, List.getElem?_cons_zero, List.getElem?_cons_succ, Option.bind_some, Option.map_some, first,
      if_neg ha, if_neg hb]
    split_ifs <;> rfl

/-- The text that is left lies behind `k` bytes that are not needed any more. -/
theorem body_eq (hne : rest ≠ []) (hnul : (0 : Byte) ∉ rest) (hleft : mid.drop k = rest ++ [0]) :
    ∃ mid', mid'.drop (k + (first rest).2 - 1) = rest.drop (first rest).2 ++ [0] ∧
      body (out ++ mid) (out.length + k) out.length =
        if out.length + k + (first rest).2 < 2 ^ 31 then
          some (out ++ [(first rest).1] ++ mid', out.length + k + (first rest).2, out.length + 1)
        else none := by
  obtain ⟨hpos, hle⟩ := first_le hne
  have hlength := congrArg List.length hleft
  simp only [List.length_drop, List.length_append, List.length_singleton] at hlength
  obtain ⟨m, mid', rfl⟩ := List.exists_cons_of_length_pos (show 0 < mid.length by omega)
  have hstr : (out ++ m :: mid').drop (out.length + k) = rest ++ [0] := by
    rw [← hleft, ← List.drop_drop, List.drop_left]
  refine ⟨mid', ?_, ?_⟩
  · have hdrop : mid'.drop (k + (first rest).2 - 1) = (m :: mid').drop (k + (first rest).2) := by
      obtain ⟨l, hl⟩ : ∃ l, k + (first rest).2 = l + 1 := ⟨k + (first rest).2 - 1, by omega⟩
      rw [hl]
      rfl
    rw [hdrop, ← List.drop_drop, hleft, List.drop_append_of_le_length hle]
  · unfold body
    rw [next_eq hne hnul hstr, Option.bind_some, put_append]
    rfl

/-! ## The loop over a `char*` -/

/-- It ends when the cursor does not pass the end of its type, and only then. -/
theorem chars_loop (hnul : (0 : Byte) ∉ rest) (hleft : mid.drop k = rest ++ [0]) (hn : rest.length < n)
    (hlt : out.length + k < 2 ^ 31) :
    if out.length + k + rest.length < 2 ^ 31 then
      ∃ back, Chars.loop n (out ++ mid) (out.length + k) out.length = some (out ++ translateEscapeString rest ++ 0 :: back)
    else Chars.loop n (out ++ mid) (out.length + k) out.length = none := by
  induction n generalizing out mid rest k with
  | zero => exact absurd hn (Nat.not_lt_zero _)
  | succ n ih =>
    have hread := getElem?_front out mid k
    rw [hleft] at hread
    unfold Chars.loop
    rw [hread]
    by_cases hne : rest = []
    · subst hne
      have hlt' : out.length + k + ([] : Str).length < 2 ^ 31 := hlt
      rw [if_pos hlt']
      cases mid with
      | nil =>
        rw [List.drop_nil] at hleft
        cases hleft
      | cons m back =>
        refine ⟨back, ?_⟩
        rw [List.nil_append, List.head?_cons, Option.bind_some, if_pos rfl, put_append]
        simp [translateEscapeString]
    · obtain ⟨c, s, rfl⟩ := List.exists_cons_of_ne_nil hne
      have hc : c ≠ 0 := by
        rintro rfl
        exact hnul List.mem_cons_self
      obtain ⟨hpos, hle⟩ := first_le hne
      obtain ⟨mid', hleft', hbody⟩ := @body_eq out mid _ k hne hnul hleft
      rw [List.cons_append, List.head?_cons, Option.bind_some, if_neg hc, hbody]
      generalize hfirst : first (c :: s) = r at hpos hle hleft' ⊢
      obtain ⟨d, w⟩ := r
      dsimp only at hpos hle hleft' ⊢
      by_cases hnext : out.length + k + w < 2 ^ 31
      · have hout : (out ++ [d]).length = out.length + 1 := by simp
        have hnul' : (0 : Byte) ∉ (c :: s).drop w := fun hmem => hnul (List.mem_of_mem_drop hmem)
        have hdrop : ((c :: s).drop w).length = (c :: s).length - w := List.length_drop
        have hrest := @ih (out ++ [d]) mid' _ (k + w - 1) hnul' hleft' (by omega) (by omega)
        have hi : (out ++ [d]).length + (k + w - 1) = out.length + k + w := by omega
        have htranslate : translateEscapeString (c :: s) = d :: translateEscapeString ((c :: s).drop w) := by
          rw [translate_eq hne hnul, hfirst]
        rw [if_pos hnext, Option.bind_some, ← hout, ← hi, htranslate]
        by_cases hall : out.length + k + (c :: s).length < 2 ^ 31
        · rw [if_pos hall]
          rw [if_pos (by omega)] at hrest
          obtain ⟨back, hback⟩ := hrest
          refine ⟨back, hback.trans ?_⟩
          simp
        · rw [if_neg hall]
          rw [if_neg (by omega)] at hrest
          exact hrest
      · rw [if_neg hnext, if_neg (by omega)]
        rfl

theorem cstr_append_nul (a b : Str) : cstr (a ++ 0 :: b) = cstr a := by
  by_cases hmem : (0 : Byte) ∈ a
  · exact cstr_append_of_mem hmem _
  · have hnil : cstr (0 :: b) = [] := rfl
    rw [cstr_append hmem, hnil, List.append_nil, cstr_of_notMem hmem]

/-- **The loop over a `char*`** takes any two characters behind a `%` for digits, as the request path is decoded. -/
theorem chars_translate (hnul : (0 : Byte) ∉ s) (hlt : s.length < 2 ^ 31) :
    ∃ b, Chars.translateEscapeString (s ++ [0]) = some b ∧ cstr b = decoded s := by
  have hloop := @chars_loop [] (s ++ [0]) s 0 (s ++ [0]).length hnul rfl (by simp) (by simp)
  simp only [List.nil_append, List.length_nil, Nat.zero_add] at hloop
  rw [if_pos hlt] at hloop
  obtain ⟨back, hback⟩ := hloop
  exact ⟨_, hback, cstr_append_nul _ _⟩

theorem chars_overflows (hnul : (0 : Byte) ∉ s) (hge : 2 ^ 31 ≤ s.length) :
    Chars.translateEscapeString (s ++ [0]) = none := by
  have hloop := @chars_loop [] (s ++ [0]) s 0 (s ++ [0]).length hnul rfl (by simp) (by simp)
  simp only [List.nil_append, List.length_nil, Nat.zero_add] at hloop
  rwa [if_neg (Nat.not_lt.mpr hge)] at hloop

/-! ## The loop over a `std::string` -/

theorem next_lt {r : Byte × Nat} (hnext : next str i = some r) : i < str.length ∧ i < r.2 := by
  unfold next at hnext
  obtain ⟨c, hc, hnext⟩ := Option.bind_eq_some_iff.mp hnext
  refine ⟨(List.getElem?_eq_some_iff.mp hc).1, ?_⟩
  split_ifs at hnext
  · obtain ⟨a, -, hnext⟩ := Option.bind_eq_some_iff.mp hnext
    split_ifs at hnext
    · cases hnext
      exact Nat.lt_succ_self i
    · obtain ⟨b, -, rfl⟩ := Option.map_eq_some_iff.mp hnext
      split_ifs
      · exact Nat.lt_succ_self i
      · exact Nat.lt_add_of_pos_right (by omega)
  · cases hnext
    exact Nat.lt_succ_self i

/-- More rounds than there are characters left. -/
theorem std_loop_fails (hpos : 1 ≤ n) (hge : str.length + 1 ≤ i + n) : StdString.loop n str i j = none := by
  induction n generalizing str i j with
  | zero => exact absurd hpos (by omega)
  | succ n ih =>
    unfold StdString.loop
    rw [Option.bind_eq_none_iff]
    intro r hr
    obtain ⟨d, hnext, hr⟩ := Option.bind_eq_some_iff.mp hr
    obtain ⟨hlt, hafter⟩ := next_lt hnext
    split_ifs at hr
    obtain ⟨b, hput, rfl⟩ := Option.map_eq_some_iff.mp hr
    have hlength := length_put hput
    exact ih (by omega) (by dsimp only; omega)

theorem escaped_cons {c : Byte} (hc : c ≠ ch '%' ∨ s.length < 2) : Escaped (c :: s) ↔ Escaped s := by
  unfold Escaped
  rcases Nat.lt_or_ge s.length 2 with hshort | hlong
  · have hzero : s.length - 2 = 0 := by omega
    have hzero' : (c :: s).length - 2 = 0 := by
      rw [List.length_cons]
      omega
    rw [hzero, hzero', List.take_zero, List.take_zero]
  · have hsucc : (c :: s).length - 2 = (s.length - 2) + 1 := by
      rw [List.length_cons]
      omega
    have hne := hc.resolve_right (by omega)
    rw [hsucc, List.take_succ_cons, List.mem_cons, or_iff_right (Ne.symm hne)]

/-- Up to the first escape it reads and writes the same character. -/
theorem std_loop (hnul : (0 : Byte) ∉ s) (hlt : out.length + s.length < 2 ^ 31) :
    StdString.loop s.length (out ++ (s ++ [0])) out.length out.length =
      if Escaped s then none else some (out ++ (s ++ [0]), out.length + s.length) := by
  induction s generalizing out with
  | nil => rfl
  | cons c s ih =>
    rw [List.length_cons] at hlt
    rw [List.length_cons, StdString.loop]
    by_cases hc : c ≠ ch '%' ∨ s.length < 2
    · have hone : first (c :: s) = (c, 1) := by
        rcases s with _ | ⟨a, _ | ⟨b, s⟩⟩
        · rfl
        · rfl
        · exact if_neg (hc.resolve_right (by simp))
      have hsame : body (out ++ (c :: s ++ [0])) out.length out.length =
          some (out ++ (c :: s ++ [0]), out.length + 1, out.length + 1) := by
        have hput := put_append out (s ++ [0]) c c
        have hnext := @next_eq (c :: s) (out ++ (c :: s ++ [0])) out.length (List.cons_ne_nil c s) hnul List.drop_left
        unfold body
        rw [hnext, hone, Option.bind_some, if_pos (by dsimp only; omega), List.cons_append, hput, Option.map_some]
        simp
      have hout : (out ++ [c]).length = out.length + 1 := by simp
      have hsplit : out ++ (c :: s ++ [0]) = out ++ [c] ++ (s ++ [0]) := by simp
      have hnul' : (0 : Byte) ∉ s := fun hmem => hnul (List.mem_cons_of_mem _ hmem)
      have hrest := @ih (out ++ [c]) hnul' (by omega)
      rw [hsame, Option.bind_some]
      dsimp only
      rw [hsplit, ← hout, hrest]
      simp only [escaped_cons hc, hout, Nat.add_assoc, Nat.add_comm 1]
    · rw [not_or, not_not, Nat.not_lt] at hc
      have hescaped : Escaped (c :: s) := by
        unfold Escaped
        obtain ⟨l, hl⟩ : ∃ l, (c :: s).length - 2 = l + 1 := ⟨s.length - 2, by rw [List.length_cons]; omega⟩
        rw [hl, List.take_succ_cons, hc.1]
        exact List.mem_cons_self
      have hthree : (first (c :: s)).2 = 3 := by
        rcases s with _ | ⟨a, _ | ⟨b, s⟩⟩
        · exact absurd hc.2 (by simp)
        · exact absurd hc.2 (by simp)
        · exact congrArg Prod.snd (if_pos hc.1)
      obtain ⟨mid', hleft, hbody⟩ := @body_eq out (c :: s ++ [0]) _ 0 (List.cons_ne_nil c s) hnul rfl
      rw [hthree] at hleft hbody
      have hlength := congrArg List.length hleft
      simp only [List.length_drop, List.length_append, List.length_cons, List.length_nil] at hlength
      rw [Nat.add_zero, if_pos (by omega)] at hbody
      rw [hbody, Option.bind_some, if_pos hescaped]
      refine std_loop_fails (by omega) ?_
      simp only [List.length_append, List.length_cons, List.length_nil]
      omega

/-- **The loop over a `std::string`** is left in time only where nothing is escaped. -/
theorem std_translate (hnul : (0 : Byte) ∉ s) (hlt : s.length < 2 ^ 31) :
    StdString.translateEscapeString s = if Escaped s then none else some s := by
  have hint : (BitVec.ofNat 32 s.length).toInt = s.length := by
    have hnat : (BitVec.ofNat 32 s.length).toNat = s.length := by
      rw [BitVec.toNat_ofNat]
      omega
    rw [BitVec.toInt_eq_toNat_of_lt (by omega), hnat]
  have hloop := @std_loop [] s hnul (by simpa using hlt)
  simp only [List.nil_append, List.length_nil, Nat.zero_add] at hloop
  unfold StdString.translateEscapeString
  rw [hint]
  dsimp only
  rw [if_neg (by omega), Int.toNat_natCast, hloop]
  split_ifs with hescaped
  · rfl
  · rw [Option.bind_some]
    have hput := put_append s [] 0 0
    rw [hput, Option.map_some]
    simp

/-! ## Texts in which nothing is escaped -/

theorem translate_of_not_escaped (hescaped : ¬Escaped s) : translateEscapeString s = s := by
  induction s with
  | nil => rfl
  | cons c s ih =>
    rcases s with _ | ⟨a, _ | ⟨b, s⟩⟩
    · rfl
    · rfl
    · have hc : c ≠ ch '%' := by
        rintro rfl
        exact hescaped List.mem_cons_self
      rw [translateEscapeString, if_neg (fun hall => hc hall.1),
        ih (fun hrest => hescaped ((escaped_cons (Or.inl hc)).mpr hrest))]

theorem decode_of_not_escaped (hescaped : ¬Escaped s) : decode s = s := by
  induction s with
  | nil => rfl
  | cons c s ih =>
    rcases s with _ | ⟨a, _ | ⟨b, s⟩⟩
    · rfl
    · rfl
    · have hc : c ≠ ch '%' := by
        rintro rfl
        exact hescaped List.mem_cons_self
      rw [decode, if_neg (fun hall => hc hall.1), ih (fun hrest => hescaped ((escaped_cons (Or.inl hc)).mpr hrest))]

/-- **The two versions.** They agree exactly on the texts that are not changed. -/
theorem escapes_agree_iff (s : Str) (hnul : (0 : Byte) ∉ s) : Agrees s ↔ s.length < 2 ^ 31 ∧ ¬Escaped s := by
  constructor
  · rintro ⟨⟨b, hchars, -⟩, hstd⟩
    have hlt : s.length < 2 ^ 31 := by
      by_contra hge
      rw [chars_overflows hnul (Nat.le_of_not_lt hge)] at hchars
      cases hchars
    refine ⟨hlt, fun hescaped => ?_⟩
    rw [std_translate hnul hlt, if_pos hescaped] at hstd
    cases hstd
  · rintro ⟨hlt, hescaped⟩
    obtain ⟨b, hchars, hb⟩ := chars_translate hnul hlt
    rw [decoded, translate_of_not_escaped hescaped, cstr_of_notMem hnul] at hb
    refine ⟨⟨b, hchars, ?_⟩, ?_⟩
    · rw [hb, decode_of_not_escaped hescaped]
    · rw [std_translate hnul hlt, if_neg hescaped, decode_of_not_escaped hescaped]

end

theorem escapes_agree_percent : Agrees (ascii "a%2") :=
  (escapes_agree_iff (ascii "a%2") (by decide)).mpr ⟨by decide, by decide⟩

/-- `%41`: the second of the three rounds reads the NUL and the third what is behind it. -/
theorem escape_reads_behind : ¬∀ s : Str, (0 : Byte) ∉ s → Agrees s := by
  intro h
  have hstd := (h (ascii "%41") (by decide)).2
  exact absurd hstd (by decide)

end MyServer.Escapes
