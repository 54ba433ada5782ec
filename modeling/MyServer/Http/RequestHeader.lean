import MyServer.Http.HeaderLines

/-!
# The header of a request, as it is scanned

`validHTTPRequest` on a buffer in which a NUL follows the bytes that were read. An LF is taken for the end
of the header by what stands two bytes behind it, which may be the byte behind that NUL.
-/

open MyServer.HeaderLines

namespace MyServer.RequestHeader

/-- -1, an HTTP error, or 200 with the characters of the header. -/
inductive Check
  | incomplete
  | error (code : Nat)
  | valid (nchars : Nat)
deriving DecidableEq

/-- The loop, `i` being the place and the first argument what is left of the 8 KB. -/
def validLoop (req : Nat → Byte) (size : Nat) : Nat → Nat → Nat → Nat → Check
  | 0, i, _, _ => .valid (i + 3)
  | left + 1, i, nLinechars, nLines =>
    if req i = LF then
      if req (i + 2) = LF then if size < i + 3 then .error 400 else .valid (i + 3)
      else if 25 ≤ nLines then .error 400
      -- The LF itself is the first character of the next line.
      else validLoop req size left (i + 1) 1 (nLines + 1)
    else if req i = 0 then .incomplete
    else if 2048 ≤ nLinechars then .error (if nLines = 0 then 414 else 400)
    else validLoop req size left (i + 1) (nLinechars + 1) nLines

def validHTTPRequest (req : Nat → Byte) (size : Nat) : Check := validLoop req size (2 ^ 13) 0 0 0

/-! ## Texts that the scan passes -/

/-- No line gets to 2048 characters, `k` being those that are already counted, and there is no NUL. -/
def Short (k : Nat) : Str → Prop
  | [] => True
  | b :: text => if b = LF then Short 1 text else b ≠ 0 ∧ k < 2048 ∧ Short (k + 1) text

theorem Short.front {k : Nat} {a b : Str} (h : Short k (a ++ b)) : Short k a := by
  induction a generalizing k with
  | nil => trivial
  | cons c a ih =>
    rw [List.cons_append] at h
    unfold Short at h ⊢
    split_ifs at h ⊢ with hlf
    · exact ih h
    · exact ⟨h.1, h.2.1, ih h.2.2⟩

theorem short_line {l rest : Str} {k : Nat} (hl : LF ∉ l ∧ (0 : Byte) ∉ l) (hk : k + l.length + 1 ≤ 2048)
    (h : Short 1 rest) : Short k (l ++ crlf ++ rest) := by
  induction l generalizing k with
  | nil =>
    rw [List.length_nil] at hk
    exact ⟨by decide, by omega, h⟩
  | cons c l ih =>
    have hc := List.mem_cons_self (a := c) (l := l)
    have hlf : c ≠ LF := fun heq => hl.1 (heq ▸ hc)
    have hzero : c ≠ 0 := fun heq => hl.2 (heq ▸ hc)
    rw [List.length_cons] at hk
    rw [List.cons_append, List.cons_append, Short, if_neg hlf]
    exact ⟨hzero, by omega, ih ⟨fun hm => hl.1 (List.mem_cons_of_mem c hm), fun hm =>
      hl.2 (List.mem_cons_of_mem c hm)⟩ (by omega)⟩

theorem short_lines {lines : List Str} (hlines : ∀ l ∈ lines, LF ∉ l ∧ (0 : Byte) ∉ l)
    (hlengths : ∀ l ∈ lines, l.length + 2 ≤ 2048) : Short 1 (lines.flatMap (· ++ crlf) ++ crlf) := by
  induction lines with
  | nil => exact ⟨by decide, by decide, trivial⟩
  | cons l lines ih =>
    obtain ⟨hl, hlines⟩ := List.forall_mem_cons.mp hlines
    obtain ⟨hlength, hlengths⟩ := List.forall_mem_cons.mp hlengths
    rw [List.flatMap_cons, List.append_assoc]
    exact short_line hl (by omega) (ih hlines hlengths)

/-- The scan takes it: at most 25 fields, and with its CR no line of more than 2048 characters. Those of
a field are counted with the LF before it. -/
structure Fits (header : Header) : Prop where
  first : header.first.length + 1 ≤ 2048
  fields : ∀ l ∈ header.fields, l.length + 2 ≤ 2048
  number : header.fields.length ≤ 25

theorem Fits.short {header : Header} (h : Fits header) : Short 0 header.bytes := by
  obtain ⟨⟨-, hfirst⟩, hfields⟩ := List.forall_mem_cons.mp header.line
  have hlength := h.first
  unfold Header.bytes Header.lines
  rw [List.flatMap_cons, List.append_assoc]
  exact short_line hfirst (by omega) (short_lines (fun l hl => (hfields l hl).2) h.fields)

theorem count_lines {lines : List Str} (hlines : ∀ l ∈ lines, LF ∉ l) :
    (lines.flatMap (· ++ crlf)).count LF = lines.length := by
  induction lines with
  | nil => rfl
  | cons l lines ih =>
    obtain ⟨hl, hlines⟩ := List.forall_mem_cons.mp hlines
    rw [List.flatMap_cons, List.count_append, List.count_append, ih hlines, List.count_eq_zero_of_not_mem hl,
      List.length_cons, Nat.zero_add, Nat.add_comm]
    rfl

section

variable {req : Nat → Byte} {size : Nat}

/-- The scan comes to the end of such a text when nothing in it looks like the end of a header. -/
theorem validLoop_pass {text : Str} {left i nLinechars nLines : Nat} (hshort : Short nLinechars text)
    (hcount : nLines + text.count LF ≤ 25) (hreq : ∀ j (hj : j < text.length), req (i + j) = text[j])
    (hinside : ∀ j < text.length, req (i + j) = LF → req (i + j + 2) ≠ LF) :
    ∃ k n, validLoop req size (text.length + left) i nLinechars nLines =
      validLoop req size left (i + text.length) k n := by
  induction text generalizing i nLinechars nLines with
  | nil => exact ⟨nLinechars, nLines, by rw [List.length_nil, Nat.zero_add, Nat.add_zero]⟩
  | cons b text ih =>
    have hb : req i = b := hreq 0 (Nat.succ_pos _)
    have hturns : (b :: text).length + left = text.length + left + 1 := by
      rw [List.length_cons]
      omega
    have hplace : i + (b :: text).length = i + 1 + text.length := by
      rw [List.length_cons]
      omega
    have hreq' : ∀ j (hj : j < text.length), req (i + 1 + j) = text[j] := by
      intro j hj
      have h := hreq (j + 1) (Nat.succ_lt_succ hj)
      rwa [List.getElem_cons_succ, show i + (j + 1) = i + 1 + j by omega] at h
    have hinside' : ∀ j < text.length, req (i + 1 + j) = LF → req (i + 1 + j + 2) ≠ LF := by
      intro j hj
      have h := hinside (j + 1) (Nat.succ_lt_succ hj)
      rwa [show i + (j + 1) = i + 1 + j by omega] at h
    rw [hturns, hplace, validLoop]
    by_cases hlf : b = LF
    · have hnext := hinside 0 (Nat.succ_pos _) (hb.trans hlf)
      rw [hlf, List.count_cons_self] at hcount
      rw [Short, if_pos hlf] at hshort
      rw [if_pos (hb.trans hlf), if_neg hnext, if_neg (by omega)]
      exact ih hshort (by omega) hreq' hinside'
    · rw [Short, if_neg hlf] at hshort
      rw [List.count_cons_of_ne hlf] at hcount
      rw [if_neg (by rwa [hb]), if_neg (by rw [hb]; exact hshort.1), if_neg (by omega)]
      exact ih hshort.2.2 hcount hreq' hinside'

end

/-! ## Whole headers, and parts of one -/

/-- What is in the buffer when this much was read. -/
def filled (content : Str) (stale : Nat → Byte) : Nat → Byte := memory (content ++ [0]) stale

theorem filled_of_lt {content : Str} (stale : Nat → Byte) {i : Nat} (hi : i < content.length) :
    filled content stale i = content[i] := by
  unfold filled memory
  rw [List.getD_eq_getElem?_getD, List.getElem?_append_left hi, List.getElem?_eq_getElem hi, Option.getD_some]

theorem filled_length (content : Str) (stale : Nat → Byte) : filled content stale content.length = 0 := by
  unfold filled memory
  simp

theorem filled_behind {content : Str} {stale : Nat → Byte} {i : Nat} (hi : content.length < i) :
    filled content stale i = stale i := by
  unfold filled memory
  rw [List.getD_eq_getElem?_getD, List.getElem?_eq_none (by rw [List.length_append]; exact hi), Option.getD_none]

theorem inside_get {text : Str} (h : Inside text) {j : Nat} (hj : j + 3 < text.length) (hlf : text[j] = LF) :
    text[j + 2] ≠ LF := by
  induction j generalizing text with
  | zero =>
    match text, h, hj with
    | x :: y :: z :: w :: rest, h, _ => exact ((h.2 nofun).2.1 hlf).2.2
  | succ j ih =>
    match text, h, hj with
    | x :: y :: z :: w :: rest, h, hj =>
      exact ih (h.2 nofun).2.2 (by simpa using hj) hlf

section

variable {header : Header} {stale : Nat → Byte} {size : Nat}

/-- A text is taken for a header when the end of one is at its end and nowhere before. -/
theorem valid_text {text front rest : Str} {behind : Nat → Byte} (htext : text = front ++ [LF] ++ crlf)
    (hshort : Short 0 text) (hcount : text.count LF ≤ 27)
    (hinside : ∀ j < text.length - 3, text.getD j 0 = LF → text.getD (j + 2) 0 ≠ LF)
    (hlength : text.length < 2 ^ 13 + 3) (hsize : text.length ≤ size) :
    validHTTPRequest (memory (text ++ rest) behind) size = .valid text.length := by
  have hbytes : text.length = front.length + 3 := by
    rw [htext, List.length_append, List.length_append]
    rfl
  have hget : ∀ j < text.length, memory (text ++ rest) behind j = text.getD j 0 := by
    intro j hj
    unfold memory
    rw [List.getD_eq_getElem?_getD, List.getD_eq_getElem?_getD, List.getElem?_append_left hj,
      List.getElem?_eq_getElem hj, Option.getD_some, Option.getD_some]
  have hfrontShort : Short 0 front := by
    rw [htext, List.append_assoc] at hshort
    exact hshort.front
  have hfrontCount : front.count LF + 2 = text.count LF := by
    rw [htext, List.count_append, List.count_append]
    rfl
  obtain ⟨k, n, hpass⟩ := @validLoop_pass (memory (text ++ rest) behind) size front
    (2 ^ 13 - front.length) 0 0 0 hfrontShort (by omega)
    (by
      intro j hj
      rw [Nat.zero_add, hget j (by omega), htext, List.append_assoc, List.getD_eq_getElem?_getD,
        List.getElem?_append_left hj, List.getElem?_eq_getElem hj, Option.getD_some])
    (by
      intro j hj
      rw [Nat.zero_add, hget j (by omega), hget (j + 2) (by omega)]
      exact hinside j (by omega))
  have hfirst : memory (text ++ rest) behind front.length = LF := by
    rw [hget _ (by omega), htext]
    simp
  have hsecond : memory (text ++ rest) behind (front.length + 2) = LF := by
    rw [hget _ (by omega), htext]
    simp [crlf, LF]
  rw [show front.length + (2 ^ 13 - front.length) = 2 ^ 13 by omega, Nat.zero_add] at hpass
  rw [validHTTPRequest, hpass, show 2 ^ 13 - front.length = 2 ^ 13 - front.length - 1 + 1 by omega, validLoop,
    if_pos hfirst, if_pos hsecond, if_neg (by omega), hbytes]

/-- **A whole header is found, whatever follows it.** -/
theorem valid_memory (hfits : Fits header) {rest : Str} {behind : Nat → Byte}
    (hlength : header.bytes.length < 2 ^ 13 + 3) (hsize : header.bytes.length ≤ size) :
    validHTTPRequest (memory (header.bytes ++ rest) behind) size = .valid header.bytes.length := by
  obtain ⟨front, hfront, -, -⟩ := header.split
  have hcount : header.bytes.count LF = header.fields.length + 2 := by
    unfold Header.bytes
    have hlines := @count_lines header.lines fun l hl => (header.line l hl).2.1
    rw [List.count_append, hlines]
    rfl
  have htext : header.bytes = front ++ [LF] ++ crlf := by
    rw [hfront, List.append_assoc]
    rfl
  apply valid_text htext hfits.short
  · rw [hcount]
    exact Nat.add_le_add_right hfits.number 2
  · intro j hj hlf
    have hlt : j < header.bytes.length := by omega
    have hnext : j + 2 < header.bytes.length := by omega
    rw [List.getD_eq_getElem?_getD, List.getElem?_eq_getElem hlt, Option.getD_some] at hlf
    rw [List.getD_eq_getElem?_getD, List.getElem?_eq_getElem hnext, Option.getD_some]
    exact inside_get header.inside (by omega) hlf
  · exact hlength
  · exact hsize

theorem valid_whole (hfits : Fits header) {rest : Str} (hlength : (header.bytes ++ rest).length < 2 ^ 13)
    (hsize : 2 ^ 13 ≤ size) :
    validHTTPRequest (filled (header.bytes ++ rest) stale) size = .valid header.bytes.length := by
  rw [List.length_append] at hlength
  unfold filled
  rw [List.append_assoc]
  exact valid_memory hfits (by omega) (by omega)

/-- **Part of a header is waited for.** The byte behind the NUL must not look like the end of it. -/
theorem incomplete_part (hfits : Fits header) {part more : Str} (hpart : header.bytes = part ++ more)
    (hmore : more ≠ []) (hlength : part.length < 2 ^ 13) (hcount : part.count LF ≤ 25)
    (hbehind : part.getLast? = some LF → stale (part.length + 1) ≠ LF) :
    validHTTPRequest (filled part stale) size = .incomplete := by
  have hshort : Short 0 part := by
    have h := hfits.short
    rw [hpart] at h
    exact h.front
  have hpos := List.length_pos_iff.mpr hmore
  have hbytes : header.bytes.length = part.length + more.length := by rw [hpart, List.length_append]
  have hget : ∀ j (hj : j < part.length), filled part stale j = header.bytes[j] := by
    intro j hj
    rw [filled_of_lt stale hj]
    simp [hpart, hj]
  have hinside : ∀ j < part.length, filled part stale j = LF → filled part stale (j + 2) ≠ LF := by
    intro j hj hlf
    rcases Nat.lt_trichotomy (j + 2) part.length with hlt | heq | hgt
    · rw [hget j hj] at hlf
      rw [hget _ hlt]
      exact inside_get header.inside (by omega) hlf
    · rw [heq, filled_length]
      decide
    · rw [filled_behind hgt]
      have hlast : j + 1 = part.length := by omega
      rw [show j + 2 = part.length + 1 by omega]
      apply hbehind
      rw [List.getLast?_eq_getElem?, show part.length - 1 = j by omega, List.getElem?_eq_getElem hj,
        ← filled_of_lt stale hj, hlf]
  obtain ⟨k, n, hpass⟩ := @validLoop_pass (filled part stale) size part
    (2 ^ 13 - part.length) 0 0 0 hshort (by omega)
    (by
      intro j hj
      rw [Nat.zero_add, filled_of_lt stale hj])
    (by
      intro j hj
      rw [Nat.zero_add]
      exact hinside j hj)
  rw [show part.length + (2 ^ 13 - part.length) = 2 ^ 13 by omega, Nat.zero_add] at hpass
  have hzero := filled_length part stale
  rw [validHTTPRequest, hpass, show 2 ^ 13 - part.length = 2 ^ 13 - part.length - 1 + 1 by omega, validLoop,
    if_neg (by rw [hzero]; decide), if_pos hzero]

end

end MyServer.RequestHeader
