import MyServer.Http.FileSend

/-!
# The interval that is served for a Range line

A line is accepted whatever stands in it, and the bounds are not compared with the
size of the file.
-/

namespace MyServer

/-- A range as the protocol means it. -/
inductive ByteRange
  | between (a b : Nat)
  | onwards (a : Nat)
  | suffix (n : Nat)

/-- The first byte, and the one after the last. -/
def ByteRange.interval (filesize : Nat) : ByteRange → Int × Int
  | between a b => (a, min (b + 1 : Int) filesize)
  | onwards a => (a, filesize)
  | suffix n => ((filesize - n : ℕ), filesize)

/-! ## The text of a line -/

def WritesNumber (digits : Str) (n : Nat) : Prop :=
  digits ≠ [] ∧ (∀ b ∈ digits, isDigit b) ∧ leadingNumber digits = n

def ByteRange.Writes (text : Str) : ByteRange → Prop
  | between a b => ∃ d e, text = d ++ ch '-' :: e ∧ WritesNumber d a ∧ WritesNumber e b
  | onwards a => ∃ d, text = d ++ [ch '-'] ∧ WritesNumber d a
  | suffix n => ∃ d, text = ch '-' :: d ∧ WritesNumber d n

def lineOf (token : Str) : Str := token.takeWhile fun c => c ≠ ch '\r' ∧ c ≠ ch '\n'

/-- The line says which bytes it asks for. -/
def Says (line : Str) (range : ByteRange) : Prop :=
  ∃ type text, line = type ++ ch '=' :: text ∧ type.map toLower = ascii "bytes" ∧ range.Writes text

/-- Up to `most` characters: the first one, and others until one that stops. -/
def upTo (stop : Byte → Bool) (most : Nat) : Str → Str
  | [] => []
  | c :: rest => c :: (rest.take (most - 1)).takeWhile fun d => !stop d

def afterType (token : Str) : Str :=
  token.drop ((upTo (· = ch '=') HTTP_REQUEST_RANGE_TYPE_DIM token).length + 1)

/-- The up to 12 characters after the first `=`. -/
def firstBound (token : Str) : Str :=
  upTo (fun c => c = ch '-' ∨ c = ch '\r') 12 (afterType token)

/-- The up to 12 characters after the one that ended the first bound. -/
def secondBound (token : Str) : Str :=
  upTo (· = ch '\r') 12 ((afterType token).drop ((firstBound token).length + 1))

/-- The number that a bound starts with, `=` and what follows it not counted. -/
def boundNumber (bound : Str) : Int := atoll (cutEquals bound)

/-- 0 for an empty bound as well. -/
def endNumber (bound : Str) : Int :=
  if (cutEquals bound).head? = some (ch '\r') then 0 else boundNumber bound

theorem readField_eq (stop : Byte → Bool) (more : Nat) (text : Str) :
    readField stop more text =
      (upTo stop (more + 1) text, text.drop (upTo stop (more + 1) text).length) := by
  induction more generalizing text with
  | zero => cases text <;> simp [readField, upTo]
  | succ more ih =>
    cases text with
    | nil => simp [readField, upTo]
    | cons c rest =>
      cases rest with
      | nil => simp [readField, upTo]
      | cons d rest =>
        unfold readField
        cases hd : stop d with
        | true => simp [upTo, hd]
        | false =>
          rw [if_neg (by simp [hd]), ih]
          simp [upTo, hd]

theorem rangeFields_eq (token : Str) :
    (rangeFields token).2 = (cutEquals (firstBound token), cutEquals (secondBound token)) := by
  unfold rangeFields
  simp only [readField_eq, List.tail_drop]
  rfl

/-! ## What is safe -/

/-- The interval lies in the file and no number of the header has wrapped around. -/
structure HttpRange.Sound (r : HttpRange) (filesize : Nat) : Prop where
  nonneg : 0 ≤ r.rangeByteBegin
  ordered : r.rangeByteBegin ≤ r.lastByte filesize
  inside : r.lastByte filesize ≤ filesize
  length : (r.bytesToSend filesize : Int) = r.lastByte filesize - r.rangeByteBegin
  header : ∀ x ∈ r.contentRange filesize,
    (x.1 : Int) = r.rangeByteBegin ∧ (x.2.1 : Int) = r.lastByte filesize - 1

/-- The line is refused, or what is served is sound and what the line says. -/
def RangeSafe (token : Str) (filesize : Nat) : Prop :=
  ∀ x, readReqRangeLine token = .ok x → x.2.1.Sound filesize ∧
    ∀ range, Says (lineOf token) range →
      range.interval filesize = (x.2.1.rangeByteBegin, x.2.1.lastByte filesize)

theorem sound_iff {r : HttpRange} (hr : r.Accepted) {filesize : Nat} (hsize : filesize < 2 ^ 63) :
    r.Sound filesize ↔
      0 ≤ r.rangeByteBegin ∧ r.rangeByteBegin ≤ filesize ∧ (r.rangeByteEnd ≠ 0 → 0 < filesize) := by
  have hordered := hr.ordered
  constructor
  · rintro ⟨h0, hle, hin, -, hheader⟩
    refine ⟨h0, by omega, fun hend => ?_⟩
    have h := (hheader _ (by unfold HttpRange.contentRange; rw [if_pos (Or.inr hend)]; rfl)).2
    dsimp only at h
    omega
  · rintro ⟨h0, hle, hpos⟩
    have hlast : r.lastByte filesize ≤ filesize ∧ r.rangeByteBegin ≤ r.lastByte filesize ∧
        ((r.rangeByteBegin ≠ 0 ∨ r.rangeByteEnd ≠ 0) → 0 < r.lastByte filesize) := by
      unfold HttpRange.lastByte
      split_ifs with hend
      · exact ⟨le_rfl, hle, by omega⟩
      · have := hpos hend
        exact ⟨by omega, by omega, by omega⟩
    refine ⟨h0, hlast.2.1, hlast.1, ?_, fun x hx => ?_⟩
    · unfold HttpRange.bytesToSend
      omega
    · unfold HttpRange.contentRange at hx
      split_ifs at hx with h
      · obtain rfl := Option.some.inj hx
        have := hlast.2.2 h
        dsimp only
        omega
      · cases hx

/-! ## When the line is refused -/

/-- No end of the line is found, or the second bound is the smaller one. -/
def Refused (token : Str) : Prop :=
  getEndLine token (HTTP_REQUEST_RANGE_TYPE_DIM + 30) = none ∨
    (cutEquals (secondBound token)).head? ≠ some (ch '\r') ∧
      boundNumber (secondBound token) < boundNumber (firstBound token)

/-- The bounds that are stored for a line that is not refused. -/
def boundsOf (token : Str) : HttpRange :=
  ⟨boundNumber (firstBound token), endNumber (secondBound token)⟩

theorem rangeBounds_eq (first second : Str) :
    rangeBounds (cutEquals first) (cutEquals second) =
      if (cutEquals second).head? ≠ some (ch '\r') ∧ boundNumber second < boundNumber first then
        .error 400
      else .ok ⟨boundNumber first, endNumber second⟩ := by
  have hbegin : (if cutEquals first = [] then 0 else atoll (cutEquals first)) = boundNumber first := by
    unfold boundNumber
    split_ifs with h
    · rw [h]
      rfl
    · rfl
  unfold rangeBounds
  rw [hbegin]
  change (if (cutEquals second).head? = some (ch '\r')
    then (.ok ⟨boundNumber first, 0⟩ : Except Nat HttpRange)
    else if boundNumber second < boundNumber first then .error 400
    else .ok ⟨boundNumber first, boundNumber second⟩) = _
  unfold endNumber
  by_cases hend : (cutEquals second).head? = some (ch '\r')
  · simp [hend]
  · simp [hend]

theorem Refused.not_ok {token : Str} (h : Refused token) (x : Str × HttpRange × Nat) :
    readReqRangeLine token ≠ .ok x := by
  unfold readReqRangeLine
  simp only [rangeFields_eq, rangeBounds_eq]
  rcases h with h | h
  · rw [h]
    simp
  · rw [if_pos h]
    cases getEndLine token (HTTP_REQUEST_RANGE_TYPE_DIM + 30) <;> simp [Except.map]

theorem ok_of_not_refused {token : Str} (h : ¬ Refused token) :
    ∃ type lenOut, readReqRangeLine token = .ok (type, boundsOf token, lenOut) := by
  unfold Refused at h
  rw [not_or] at h
  unfold readReqRangeLine
  simp only [rangeFields_eq, rangeBounds_eq]
  rw [if_neg h.2]
  cases hend : getEndLine token (HTTP_REQUEST_RANGE_TYPE_DIM + 30) with
  | none => exact absurd hend h.1
  | some lenOut => exact ⟨_, lenOut, rfl⟩

theorem rangeSafe_iff_bounds (token : Str) (filesize : Nat) :
    RangeSafe token filesize ↔ Refused token ∨ (boundsOf token).Sound filesize ∧
      ∀ range, Says (lineOf token) range → range.interval filesize =
        ((boundsOf token).rangeByteBegin, (boundsOf token).lastByte filesize) := by
  by_cases h : Refused token
  · simp only [h, true_or, iff_true]
    exact fun x hx => absurd hx (h.not_ok x)
  · obtain ⟨type, lenOut, hok⟩ := ok_of_not_refused h
    simp only [h, false_or]
    constructor
    · exact fun hsafe => hsafe _ hok
    · intro hsafe x hx
      obtain rfl := Except.ok.inj (hok.symm.trans hx)
      exact hsafe

/-! ## Suffix ranges -/

theorem not_equals_of_bytes {type : Str} (h : type.map toLower = ascii "bytes") :
    type.length = 5 ∧ ∀ c ∈ type, c ≠ ch '=' := by
  have hlen := congrArg List.length h
  rw [List.length_map] at hlen
  refine ⟨hlen, fun c hc heq => ?_⟩
  have hmem : toLower c ∈ ascii "bytes" := h ▸ List.mem_map_of_mem hc
  rw [heq] at hmem
  exact absurd hmem (by decide)

/-- A field of the right length that holds nothing that stops is taken whole. -/
theorem upTo_append {stop : Byte → Bool} {most : Nat} {field : Str} (hne : field ≠ [])
    (hclear : ∀ c ∈ field.tail, stop c = false) (hlen : field.length ≤ most) {c : Byte}
    (hc : stop c = true) (text : Str) : upTo stop most (field ++ c :: text) = field := by
  obtain ⟨first, rest, rfl⟩ := List.exists_cons_of_ne_nil hne
  rw [List.length_cons] at hlen
  change first :: ((rest ++ c :: text).take (most - 1)).takeWhile _ = _
  rw [List.take_append, List.take_of_length_le (by omega), List.takeWhile_append_of_pos]
  · cases most - 1 - rest.length with
    | zero => simp
    | succ n => simp [hc]
  · intro d hd
    simpa using hclear d hd

theorem afterType_eq {type text : Str} (h : type.map toLower = ascii "bytes") :
    afterType (type ++ ch '=' :: text) = text := by
  obtain ⟨hlen, hne⟩ := not_equals_of_bytes h
  have hnil : type ≠ [] := List.ne_nil_of_length_pos (by omega)
  unfold afterType
  have hclear : ∀ c ∈ type.tail, decide (c = ch '=') = false :=
    fun c hc => decide_eq_false (hne c (List.mem_of_mem_tail hc))
  rw [upTo_append hnil hclear (hlen.le.trans (by decide)) (by decide), ← List.drop_drop,
    List.drop_left]
  rfl

/-- The first bound of a suffix range starts with the `-`. -/
theorem suffix_bound_nonpos {token : Str} {n : Nat} (h : Says (lineOf token) (.suffix n)) :
    boundNumber (firstBound token) ≤ 0 := by
  obtain ⟨type, text, hline, htype, d, rfl, -⟩ := h
  have htoken : token = type ++ ch '=' :: (ch '-' :: (d ++ token.dropWhile fun c =>
      c ≠ ch '\r' ∧ c ≠ ch '\n')) := by
    conv_lhs => rw [← List.takeWhile_append_dropWhile (p := fun c => c ≠ ch '\r' ∧ c ≠ ch '\n')
      (l := token)]
    change lineOf token ++ _ = _
    rw [hline]
    simp
  have hfirst : ∃ t, firstBound token = ch '-' :: t := by
    unfold firstBound
    rw [htoken, afterType_eq htype]
    exact ⟨_, rfl⟩
  obtain ⟨t, ht⟩ := hfirst
  rw [ht]
  have hcut : ∃ u, cutEquals (ch '-' :: t) = ch '-' :: u := by
    unfold cutEquals cstr
    rw [List.takeWhile_cons_of_pos (by decide), List.takeWhile_cons_of_pos (by decide)]
    exact ⟨_, rfl⟩
  obtain ⟨u, hu⟩ := hcut
  unfold boundNumber atoll
  rw [hu]
  have hstr : (cstr (ch '-' :: u)).dropWhile isSpace = ch '-' :: cstr u := by
    unfold cstr
    rw [List.takeWhile_cons_of_pos (by decide), List.dropWhile_cons_of_neg (by decide)]
  rw [hstr]
  simp

/-! ## Which lines are safe -/

/-- The numbers `a` and `b` of the bounds give the interval of the range; `b` is 0 where there is
no second bound. -/
def ByteRange.Fits (a b : Int) (filesize : Nat) : ByteRange → Prop
  | between x y => a = x ∧
      if b = 0 then filesize ≤ y + 1 else b = y ∨ (filesize : Int) ≤ b + 1 ∧ filesize ≤ y + 1
  | onwards x => a = x ∧ (b = 0 ∨ (filesize : Int) ≤ b + 1)
  | suffix n => a = 0 ∧ filesize ≤ n ∧ (b = 0 ∨ (filesize : Int) ≤ b + 1)

/-- The numbers lie within the file and give what the line says. -/
def BoundsFit (line : Str) (a b : Int) (filesize : Nat) : Prop :=
  0 ≤ a ∧ a ≤ filesize ∧ (b ≠ 0 → 0 < filesize) ∧
    ∀ range, Says line range → range.Fits a b filesize

/-- The condition on the text of the line. -/
def SafeText (token : Str) (filesize : Nat) : Prop :=
  Refused token ∨ BoundsFit (lineOf token) (boundNumber (firstBound token))
    (endNumber (secondBound token)) filesize

theorem interval_eq_iff {r : HttpRange} {filesize : Nat} (h0 : 0 ≤ r.rangeByteBegin)
    (hr : r.Accepted) {range : ByteRange}
    (hsuffix : ∀ n, range = .suffix n → r.rangeByteBegin ≤ 0) :
    range.interval filesize = (r.rangeByteBegin, r.lastByte filesize) ↔
      range.Fits r.rangeByteBegin r.rangeByteEnd filesize := by
  have hordered := hr.ordered
  unfold ByteRange.interval ByteRange.Fits HttpRange.lastByte
  cases range with
  | between x y =>
    dsimp only
    rw [Prod.mk.injEq, @eq_comm _ (x : Int)]
    apply and_congr_right
    intro hx
    split_ifs <;> omega
  | onwards x =>
    dsimp only
    rw [Prod.mk.injEq, @eq_comm _ (x : Int)]
    apply and_congr_right
    intro hx
    split_ifs <;> omega
  | suffix n =>
    have hle := hsuffix n rfl
    dsimp only
    rw [Prod.mk.injEq]
    split_ifs <;> omega

/-- **Range arithmetic.** A line is safe for a file exactly where it is refused, or its bounds lie
within the file and give the range that it says. -/
theorem rangeSafe_iff (token : Str) {filesize : Nat} (hsize : filesize < 2 ^ 63) :
    RangeSafe token filesize ↔ SafeText token filesize := by
  rw [rangeSafe_iff_bounds]
  unfold SafeText BoundsFit
  by_cases h : Refused token
  · simp only [h, true_or]
  · obtain ⟨type, lenOut, hok⟩ := ok_of_not_refused h
    have hr := readReqRangeLine_accepted hok
    simp only [h, false_or, sound_iff hr hsize, and_assoc]
    apply and_congr_right
    intro h0
    apply and_congr_right
    intro hin
    apply and_congr_right
    intro hpos
    apply forall_congr'
    intro range
    apply imp_congr_right
    intro hwritten
    exact interval_eq_iff h0 hr fun n hn => suffix_bound_nonpos (hn ▸ hwritten)

/-! ## The three forms -/

theorem not_dash_of_digit {b : Byte} (h : isDigit b) : b ≠ ch '-' := by
  rintro rfl
  exact absurd h (by decide)

theorem takeWhile_dash {d e : Str} (hd : ∀ b ∈ d, isDigit b) :
    (d ++ ch '-' :: e).takeWhile (· ≠ ch '-') = d := by
  rw [List.takeWhile_append_of_pos]
  · simp
  · intro b hb
    simpa using not_dash_of_digit (hd b hb)

/-- The digits on both sides of the `-`. -/
def ByteRange.Parts (d e : Str) : ByteRange → Prop
  | between a b => WritesNumber d a ∧ WritesNumber e b
  | onwards a => WritesNumber d a ∧ e = []
  | suffix n => d = [] ∧ WritesNumber e n

theorem writes_iff_parts {text : Str} {range : ByteRange} :
    range.Writes text ↔ ∃ d e, text = d ++ ch '-' :: e ∧ range.Parts d e := by
  cases range with
  | between a b => exact Iff.rfl
  | onwards a =>
    constructor
    · rintro ⟨d, rfl, hd⟩
      exact ⟨d, [], rfl, hd, rfl⟩
    · rintro ⟨d, e, rfl, hd, rfl⟩
      exact ⟨d, rfl, hd⟩
  | suffix n =>
    constructor
    · rintro ⟨e, rfl, he⟩
      exact ⟨[], e, rfl, rfl, he⟩
    · rintro ⟨d, e, rfl, rfl, he⟩
      exact ⟨e, rfl, he⟩

theorem ByteRange.Parts.digits {d e : Str} {range : ByteRange} (h : range.Parts d e) :
    ∀ b ∈ d, isDigit b := by
  cases range with
  | between a b => exact h.1.2.1
  | onwards a => exact h.1.2.1
  | suffix n =>
    rw [h.1]
    exact fun b hb => absurd hb List.not_mem_nil

theorem ByteRange.Parts.unique {d e : Str} {range range' : ByteRange} (h : range.Parts d e)
    (h' : range'.Parts d e) : range = range' := by
  cases range <;> cases range' <;> simp only [Parts, WritesNumber] at h h' <;> aesop

/-- A line says at most one range. -/
theorem says_unique {type text : Str} (htype : type.map toLower = ascii "bytes")
    {range range' : ByteRange} (h : range.Writes text)
    (hwritten : Says (type ++ ch '=' :: text) range') : range' = range := by
  obtain ⟨type', text', heq, htype', h'⟩ := hwritten
  have hlen : type.length = type'.length := by
    rw [(not_equals_of_bytes htype).1, (not_equals_of_bytes htype').1]
  obtain ⟨rfl, htext⟩ := List.append_inj heq hlen
  obtain ⟨-, rfl⟩ := List.cons.inj htext
  obtain ⟨d, e, rfl, hparts⟩ := writes_iff_parts.mp h
  obtain ⟨d', e', heq, hparts'⟩ := writes_iff_parts.mp h'
  have hd : d = d' := by
    rw [← takeWhile_dash (e := e) hparts.digits, heq, takeWhile_dash hparts'.digits]
  subst hd
  obtain ⟨-, rfl⟩ := List.cons.inj (List.append_cancel_left heq)
  exact hparts'.unique hparts

theorem boundsFit_iff {type text : Str} (htype : type.map toLower = ascii "bytes")
    {range : ByteRange} (h : range.Writes text) (a b : Int) (filesize : Nat) :
    BoundsFit (type ++ ch '=' :: text) a b filesize ↔
      0 ≤ a ∧ a ≤ filesize ∧ (b ≠ 0 → 0 < filesize) ∧ range.Fits a b filesize := by
  unfold BoundsFit
  constructor
  · exact fun ⟨h0, hin, hpos, hfits⟩ => ⟨h0, hin, hpos, hfits range ⟨type, text, rfl, htype, h⟩⟩
  · exact fun ⟨h0, hin, hpos, hfits⟩ =>
      ⟨h0, hin, hpos, fun _ hwritten => says_unique htype h hwritten ▸ hfits⟩

/-- A character of a line that no loop takes for something else. -/
def Ordinary (c : Byte) : Prop := c ≠ 0 ∧ c ≠ ch '\r' ∧ c ≠ ch '\n'

theorem ordinary_of_digit {c : Byte} (h : isDigit c) : Ordinary c := by
  refine ⟨?_, ?_, ?_⟩ <;> rintro rfl <;> exact absurd h (by decide)

theorem ordinary_of_bytes {type : Str} (h : type.map toLower = ascii "bytes") :
    ∀ c ∈ type, Ordinary c := by
  intro c hc
  have hmem : toLower c ∈ ascii "bytes" := h ▸ List.mem_map_of_mem hc
  refine ⟨?_, ?_, ?_⟩ <;> rintro rfl <;> exact absurd hmem (by decide)

theorem getEndLine_append {line : Str} (h : ∀ c ∈ line, Ordinary c) (after : Str) {max : Nat}
    (hmax : line.length < max) : getEndLine (line ++ ch '\r' :: after) max = some line.length := by
  induction line generalizing max with
  | nil =>
    obtain ⟨max, rfl⟩ := Nat.exists_eq_succ_of_ne_zero (by omega : max ≠ 0)
    rfl
  | cons c line ih =>
    obtain ⟨max, rfl⟩ := Nat.exists_eq_succ_of_ne_zero (by omega : max ≠ 0)
    obtain ⟨h0, hcr, hlf⟩ := h c List.mem_cons_self
    have hline := ih (fun d hd => h d (List.mem_cons_of_mem c hd)) (by simpa using hmax)
    simp [getEndLine, h0, hcr, hlf, hline]

theorem lineOf_append {line : Str} (h : ∀ c ∈ line, Ordinary c) (after : Str) :
    lineOf (line ++ ch '\r' :: after) = line := by
  unfold lineOf
  rw [List.takeWhile_append_of_pos]
  · simp
  · intro c hc
    simpa using (h c hc).2

theorem cutEquals_digits {d : Str} (hd : ∀ c ∈ d, isDigit c) : cutEquals d = d := by
  unfold cutEquals cstr
  have hequals : ∀ c ∈ d, c ≠ ch '=' := by
    rintro c hc rfl
    exact absurd (hd _ hc) (by decide)
  have hall : d.takeWhile (· ≠ ch '=') = d := List.takeWhile_eq_self_iff.mpr (by simpa using hequals)
  rw [hall]
  exact List.takeWhile_eq_self_iff.mpr (by simpa using fun c hc => (ordinary_of_digit (hd c hc)).1)

theorem atoll_digits {d : Str} (hd : ∀ c ∈ d, isDigit c) : atoll d = leadingNumber d := by
  have hcstr : cstr d = d := by
    unfold cstr
    exact List.takeWhile_eq_self_iff.mpr (by simpa using fun c hc => (ordinary_of_digit (hd c hc)).1)
  unfold atoll
  rw [hcstr]
  cases d with
  | nil => rfl
  | cons c d =>
    have hc := hd c List.mem_cons_self
    have hspace : isSpace c = false := by
      unfold isDigit at hc
      unfold isSpace
      rw [decide_eq_true_eq] at hc
      rw [decide_eq_false_iff_not]
      rintro (rfl | h)
      · exact absurd hc (by decide)
      · omega
    rw [List.dropWhile_cons_of_neg (by simp [hspace])]
    dsimp only
    rw [if_neg (not_dash_of_digit hc), if_neg]
    rintro rfl
    exact absurd hc (by decide)

theorem boundNumber_digits {d : Str} {n : Nat} (h : WritesNumber d n) : boundNumber d = n := by
  unfold boundNumber
  rw [cutEquals_digits h.2.1, atoll_digits h.2.1, h.2.2]

section Line

variable {type : Str} (htype : type.map toLower = ascii "bytes") (after : Str) {filesize : Nat}
  (hsize : filesize < 2 ^ 63)

/-- The line with the digits `d` and `e` on both sides of the `-`. -/
def rangeLine (type d e : Str) : Str := type ++ ch '=' :: (d ++ ch '-' :: e)

include htype

theorem rangeLine_ordinary {d e : Str} (hd : ∀ c ∈ d, isDigit c) (he : ∀ c ∈ e, isDigit c) :
    ∀ c ∈ rangeLine type d e, Ordinary c := by
  unfold rangeLine
  simp only [List.mem_append, List.mem_cons]
  rintro c (hc | rfl | hc | rfl | hc)
  · exact ordinary_of_bytes htype c hc
  · exact ⟨by decide, by decide, by decide⟩
  · exact ordinary_of_digit (hd c hc)
  · exact ⟨by decide, by decide, by decide⟩
  · exact ordinary_of_digit (he c hc)

/-- The end of a line with short numbers is found. -/
theorem rangeLine_end {d e : Str} (hd : ∀ c ∈ d, isDigit c) (he : ∀ c ∈ e, isDigit c)
    (hdlen : d.length ≤ 12) (helen : e.length ≤ 12) :
    getEndLine (rangeLine type d e ++ ch '\r' :: after) (HTTP_REQUEST_RANGE_TYPE_DIM + 30) ≠ none := by
  have hlen := (not_equals_of_bytes htype).1
  rw [getEndLine_append (rangeLine_ordinary htype hd he)]
  · simp
  · unfold rangeLine HTTP_REQUEST_RANGE_TYPE_DIM
    simp only [List.length_append, List.length_cons]
    omega

theorem afterType_rangeLine (d e : Str) :
    afterType (rangeLine type d e ++ ch '\r' :: after) = d ++ ch '-' :: (e ++ ch '\r' :: after) := by
  unfold rangeLine
  rw [List.append_assoc, List.cons_append, List.append_assoc, List.cons_append, afterType_eq htype]

theorem firstBound_rangeLine {d : Str} (e : Str) (hd : ∀ c ∈ d, isDigit c) (hne : d ≠ [])
    (hdlen : d.length ≤ 12) : firstBound (rangeLine type d e ++ ch '\r' :: after) = d := by
  unfold firstBound
  rw [afterType_rangeLine htype]
  apply upTo_append hne _ hdlen (by decide)
  intro c hc
  have hdigit := hd c (List.mem_of_mem_tail hc)
  have hdash := not_dash_of_digit hdigit
  have hcr := (ordinary_of_digit hdigit).2.1
  simp [hdash, hcr]

theorem afterBound_rangeLine {d : Str} (e : Str) (hd : ∀ c ∈ d, isDigit c) (hne : d ≠ [])
    (hdlen : d.length ≤ 12) :
    secondBound (rangeLine type d e ++ ch '\r' :: after) =
      upTo (· = ch '\r') 12 (e ++ ch '\r' :: after) := by
  unfold secondBound
  rw [firstBound_rangeLine htype after e hd hne hdlen, afterType_rangeLine htype, ← List.drop_drop,
    List.drop_left]
  rfl

include hsize

/-- A range with both bounds is safe when it is refused, or begins in the file and does not end in
its first byte. -/
theorem between_safe_iff {d e : Str} {a b : Nat} (hd : WritesNumber d a) (he : WritesNumber e b)
    (hdlen : d.length ≤ 12) (helen : e.length ≤ 12) :
    RangeSafe (rangeLine type d e ++ ch '\r' :: after) filesize ↔
      b < a ∨ a ≤ filesize ∧ if b = 0 then filesize ≤ 1 else 0 < filesize := by
  have hfirst := firstBound_rangeLine htype after e hd.2.1 hd.1 hdlen
  have hsecond : secondBound (rangeLine type d e ++ ch '\r' :: after) = e := by
    rw [afterBound_rangeLine htype after e hd.2.1 hd.1 hdlen]
    apply upTo_append he.1 _ helen (by decide)
    intro c hc
    simpa using (ordinary_of_digit (he.2.1 c (List.mem_of_mem_tail hc))).2.1
  have hhead : (cutEquals e).head? ≠ some (ch '\r') := by
    rw [cutEquals_digits he.2.1]
    intro h
    exact (ordinary_of_digit (he.2.1 _ (List.mem_of_mem_head? h))).2.1 rfl
  have hline := lineOf_append (rangeLine_ordinary htype hd.2.1 he.2.1) after
  have hend := rangeLine_end htype after hd.2.1 he.2.1 hdlen helen
  have hwrites : (ByteRange.between a b).Writes (d ++ ch '-' :: e) := ⟨d, e, rfl, hd, he⟩
  rw [rangeSafe_iff _ hsize]
  unfold SafeText Refused endNumber
  rw [hline, hfirst, hsecond, if_neg hhead, boundNumber_digits hd, boundNumber_digits he]
  have hfits := boundsFit_iff htype hwrites a b filesize
  unfold rangeLine at hend ⊢
  rw [hfits]
  simp only [hend, hhead, ByteRange.Fits, ne_eq, not_false_eq_true, true_and, false_or]
  rcases Nat.eq_zero_or_pos b with rfl | hb
  · rw [if_pos Nat.cast_zero, if_pos rfl]
    omega
  · rw [if_neg (by omega), if_neg (by omega)]
    simp only [true_or, and_true]
    omega

/-- A range without an end is safe when it begins in the file. -/
theorem onwards_safe_iff {d : Str} {a : Nat} (hd : WritesNumber d a) (hdlen : d.length ≤ 12) :
    RangeSafe (rangeLine type d [] ++ ch '\r' :: after) filesize ↔ a ≤ filesize := by
  have hnil : ∀ c ∈ ([] : Str), isDigit c := fun c hc => absurd hc List.not_mem_nil
  have hfirst := firstBound_rangeLine htype after [] hd.2.1 hd.1 hdlen
  have hhead : (cutEquals (secondBound (rangeLine type d [] ++ ch '\r' :: after))).head? =
      some (ch '\r') := by
    rw [afterBound_rangeLine htype after [] hd.2.1 hd.1 hdlen, List.nil_append]
    unfold upTo cutEquals cstr
    rw [List.takeWhile_cons_of_pos (by decide), List.takeWhile_cons_of_pos (by decide)]
    rfl
  have hline := lineOf_append (rangeLine_ordinary htype hd.2.1 hnil) after
  have hend := rangeLine_end htype after hd.2.1 hnil hdlen (by simp)
  have hwrites : (ByteRange.onwards a).Writes (d ++ [ch '-']) := ⟨d, rfl, hd⟩
  rw [rangeSafe_iff _ hsize]
  unfold SafeText Refused endNumber
  rw [hline, hfirst, if_pos hhead, boundNumber_digits hd]
  have hfits := boundsFit_iff htype hwrites a 0 filesize
  unfold rangeLine at hend hhead ⊢
  rw [hfits]
  simp only [hend, hhead, ByteRange.Fits, ne_eq, not_true, false_and, false_or, true_or,
    and_true, IsEmpty.forall_iff]
  omega

/-- A suffix range is never safe for a file with something in it, unless the line is refused. -/
theorem suffix_refused_of_safe {e : Str} {n : Nat} (he : WritesNumber e n) (helen : e.length ≤ 11)
    (hpos : 0 < filesize) (h : RangeSafe (rangeLine type [] e ++ ch '\r' :: after) filesize) :
    Refused (rangeLine type [] e ++ ch '\r' :: after) := by
  have hnil : ∀ c ∈ ([] : Str), isDigit c := fun c hc => absurd hc List.not_mem_nil
  have hline := lineOf_append (rangeLine_ordinary htype hnil he.2.1) after
  have hfirst : firstBound (rangeLine type [] e ++ ch '\r' :: after) = ch '-' :: e := by
    unfold firstBound
    rw [afterType_rangeLine htype, List.nil_append, ← List.cons_append]
    apply upTo_append (List.cons_ne_nil _ _) _ (Nat.succ_le_succ helen) (by decide)
    intro c hc
    have hdash := not_dash_of_digit (he.2.1 c hc)
    have hcr := (ordinary_of_digit (he.2.1 c hc)).2.1
    simp [hdash, hcr]
  have hnumber : boundNumber (ch '-' :: e) = -n := by
    have hcut : cutEquals (ch '-' :: e) = ch '-' :: cutEquals e := by
      unfold cutEquals cstr
      rw [List.takeWhile_cons_of_pos (by decide), List.takeWhile_cons_of_pos (by decide)]
    have hcstr : cstr (ch '-' :: e) = ch '-' :: e := by
      unfold cstr
      rw [List.takeWhile_cons_of_pos (by decide), List.takeWhile_eq_self_iff.mpr]
      simpa using fun c hc => (ordinary_of_digit (he.2.1 c hc)).1
    unfold boundNumber atoll
    rw [hcut, cutEquals_digits he.2.1, hcstr, List.dropWhile_cons_of_neg (by decide)]
    dsimp only
    rw [if_pos rfl, he.2.2]
  rcases (rangeSafe_iff _ hsize).mp h with hrefused | ⟨-, -, -, hfits⟩
  · exact hrefused
  · rw [hline, hfirst, hnumber] at hfits
    obtain ⟨ha, hn, -⟩ := hfits (.suffix n) ⟨type, _, rfl, htype, e, rfl, he⟩
    omega

end Line

theorem hello_range_safe : RangeSafe (ascii "bytes=1-3\r\n\r\n") 5 := by
  refine (rangeSafe_iff (ascii "bytes=1-3\r\n\r\n") (by norm_num)).mpr (Or.inr ⟨?_, ?_, ?_, ?_⟩)
  · decide +kernel
  · decide +kernel
  · exact fun _ => by norm_num
  · intro range hwritten
    have hwrites : (ByteRange.between 1 3).Writes (ascii "1-3") :=
      ⟨ascii "1", ascii "3", rfl, ⟨by decide, by decide +kernel, rfl⟩, by decide, by decide +kernel, rfl⟩
    obtain rfl := @says_unique (ascii "bytes") (ascii "1-3") (by decide) _ range hwrites hwritten
    unfold ByteRange.Fits
    decide +kernel

/-- The last five bytes of a file of three: the interval begins before the file and is eight bytes
long. -/
theorem suffix_begins_before_file :
    readReqRangeLine (ascii "bytes=-5\r\nHost: a\r\n\r\n") = .ok (ascii "bytes", ⟨-5, 0⟩, 8) ∧
      HttpRange.bytesToSend ⟨-5, 0⟩ 3 = 8 ∧
      HttpRange.contentRange ⟨-5, 0⟩ 3 = some (18446744073709551611, 2, 3) ∧
      ¬ RangeSafe (ascii "bytes=-5\r\nHost: a\r\n\r\n") 3 := by
  have hok : readReqRangeLine (ascii "bytes=-5\r\nHost: a\r\n\r\n") =
      .ok (ascii "bytes", ⟨-5, 0⟩, 8) := by rfl
  refine ⟨hok, by decide +kernel, by decide +kernel, fun hsafe => ?_⟩
  exact absurd (hsafe _ hok).1.nonneg (by decide)

end MyServer
