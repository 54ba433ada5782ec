import MyServer.Http.RequestTurns

/-!
# Where the Range line is read

The loops over its fields know where the line ends only when the character is looked at: the type is looked
for without it, and the character that ends a field is skipped whatever it is.
-/

open MyServer.HeaderLines

namespace MyServer.RequestHeader

def typeField (text : Str) : Str × Str := readField (· = ch '=') (HTTP_REQUEST_RANGE_TYPE_DIM - 1) text

def firstField (text : Str) : Str × Str := readField (fun c => c = ch '-' ∨ c = ch '\r') 11 text

def secondField (text : Str) : Str × Str := readField (· = ch '\r') 11 text

/-- The line is too long to be taken, or there is something in it behind the type, and its first bound is
ended inside the line. A number of 11 digits is more than any that is read out of the next line. -/
def RangeInside (value : Str) : Prop :=
  HTTP_REQUEST_RANGE_TYPE_DIM + 30 ≤ value.length ∨
    (typeField value).2.tail ≠ [] ∧
      ((firstField (typeField value).2.tail).2 ≠ [] ∨
        99999999999 ≤ boundNumber (firstField (typeField value).2.tail).1)

/-! ## Fields -/

section

variable {stop : Byte → Bool} {more : Nat} {text : Str}

theorem readField_turn (stop : Byte → Bool) (more : Nat) (c d : Byte) (rest : Str) :
    readField stop (more + 1) (c :: d :: rest) =
      if stop d = true then ([c], d :: rest)
      else (c :: (readField stop more (d :: rest)).1, (readField stop more (d :: rest)).2) := by
  rw [readField, List.head?_cons, Option.all_some]

theorem readField_stopped (h : (readField stop more text).2 ≠ []) (behind : Str) :
    readField stop more (text ++ behind) =
      ((readField stop more text).1, (readField stop more text).2 ++ behind) := by
  induction more generalizing text with
  | zero =>
    cases text with
    | nil => exact absurd rfl h
    | cons c rest => rfl
  | succ more ih =>
    match text with
    | [] => exact absurd rfl h
    | [c] => exact absurd rfl h
    | c :: d :: rest =>
      rw [List.cons_append, List.cons_append, readField_turn, readField_turn]
      rw [readField_turn] at h
      by_cases hd : stop d = true
      · rw [if_pos hd, if_pos hd]
        rfl
      · rw [if_neg hd] at h
        have hrest := ih h
        rw [List.cons_append] at hrest
        rw [if_neg hd, if_neg hd, hrest]

theorem readField_ended {c : Byte} (hne : text ≠ []) (hc : stop c = true) (behind : Str) :
    readField stop more (text ++ c :: behind) =
      ((readField stop more text).1, (readField stop more text).2 ++ c :: behind) := by
  induction more generalizing text with
  | zero =>
    cases text with
    | nil => exact absurd rfl hne
    | cons d rest => rfl
  | succ more ih =>
    match text with
    | [] => exact absurd rfl hne
    | [d] => simp [readField, hc]
    | d :: e :: rest =>
      rw [List.cons_append, List.cons_append, readField_turn, readField_turn]
      by_cases he : stop e = true
      · rw [if_pos he, if_pos he]
        rfl
      · have hrest := ih (List.cons_ne_nil e rest)
        rw [List.cons_append] at hrest
        rw [if_neg he, if_neg he, hrest]

/-- Nothing stops the loop before its count does. -/
theorem readField_through (hne : text ≠ []) (hclear : ∀ c ∈ text.tail, stop c = false)
    (hlength : text.length = more + 1) (behind : Str) : readField stop more (text ++ behind) = (text, behind) := by
  induction more generalizing text with
  | zero =>
    obtain ⟨c, rfl⟩ := List.length_eq_one_iff.mp hlength
    rfl
  | succ more ih =>
    match text, hlength with
    | c :: d :: rest, hlength =>
      obtain ⟨hd, hrest⟩ := List.forall_mem_cons.mp hclear
      have hih := ih (List.cons_ne_nil d rest) hrest (by simpa using hlength)
      rw [List.cons_append] at hih
      rw [List.cons_append, List.cons_append, readField_turn, if_neg (by rw [hd]; exact Bool.false_ne_true), hih]

/-- A field that takes all there is. -/
theorem readField_all (h : (readField stop more text).2 = []) :
    (readField stop more text).1 = text ∧ text.length ≤ more + 1 ∧ ∀ c ∈ text.tail, stop c = false := by
  induction more generalizing text with
  | zero =>
    cases text with
    | nil => exact ⟨rfl, Nat.zero_le _, nofun⟩
    | cons c rest =>
      obtain rfl : rest = [] := h
      exact ⟨rfl, le_rfl, nofun⟩
  | succ more ih =>
    match text with
    | [] => exact ⟨rfl, Nat.zero_le _, nofun⟩
    | [c] => exact ⟨rfl, by simp, nofun⟩
    | c :: d :: rest =>
      rw [readField_turn] at h ⊢
      by_cases hd : stop d = true
      · rw [if_pos hd] at h
        exact absurd h (List.cons_ne_nil d rest)
      · rw [if_neg hd] at h ⊢
        obtain ⟨hall, hlength, hclear⟩ := ih h
        exact ⟨by rw [hall], by simpa using hlength, List.forall_mem_cons.mpr ⟨Bool.eq_false_iff.mpr hd, hclear⟩⟩

theorem readField_head (c : Byte) (rest : Str) : (readField stop more (c :: rest)).1.head? = some c := by
  cases more with
  | zero => rfl
  | succ more =>
    unfold readField
    split_ifs <;> rfl

end

/-! ## Bounds -/

theorem cutEquals_cons {c : Byte} (hc : c ≠ ch '=' ∧ c ≠ 0) (s : Str) : cutEquals (c :: s) = c :: cutEquals s := by
  unfold cutEquals cstr
  rw [List.takeWhile_cons_of_pos (by simpa using hc.1), List.takeWhile_cons_of_pos (by simpa using hc.2)]

/-- Not more than 11 characters behind a line end. -/
theorem boundNumber_lf {s : Str} (h : s.length ≤ 11) : boundNumber (LF :: s) ≤ 99999999999 := by
  have hlf : LF ≠ ch '=' ∧ LF ≠ 0 := by decide
  have hskip : boundNumber (LF :: s) = atoll (cutEquals s) := by
    unfold boundNumber
    rw [cutEquals_cons hlf]
    unfold atoll
    have hcstr : cstr (LF :: cutEquals s) = LF :: cstr (cutEquals s) := List.takeWhile_cons_of_pos (by decide)
    rw [hcstr, List.dropWhile_cons_of_pos (by decide)]
  have habs := abs_lt.mp (atoll_abs_lt (cutEquals s))
  have hpow : (10 : Int) ^ (cutEquals s).length ≤ 10 ^ 11 :=
    pow_le_pow_right₀ (by norm_num) ((cutEquals_length_le s).trans h)
  rw [hskip]
  omega

theorem endNumber_lf (s : Str) : (cutEquals (LF :: s)).head? ≠ some (ch '\r') ∧
    endNumber (LF :: s) = boundNumber (LF :: s) := by
  have hhead : (cutEquals (LF :: s)).head? ≠ some (ch '\r') := by
    rw [cutEquals_cons (by decide)]
    exact fun h => absurd (Option.some.inj h) (by decide)
  exact ⟨hhead, if_neg hhead⟩

/-! ## Lines that are read inside -/

section

variable {value : Str}

theorem readRange_eq (hone : OneLine value) (more : Str) :
    readReqRangeLine (value ++ crlf ++ more) =
      if value.length < HTTP_REQUEST_RANGE_TYPE_DIM + 30 then
        let type := typeField (value ++ crlf ++ more)
        let first := firstField type.2.tail
        (rangeBounds (cutEquals first.1) (cutEquals (secondField first.2.tail).1)).map fun range =>
          (type.1.map fun c => if c = ch '=' then 0 else c, range, value.length)
      else .error 400 := by
  unfold readReqRangeLine
  rw [getEndLine_value hone]
  split_ifs <;> rfl

theorem typeField_inside (h : (typeField value).2.tail ≠ []) (more : Str) :
    (typeField (value ++ crlf ++ more)).1 = (typeField value).1 ∧
      (typeField (value ++ crlf ++ more)).2.tail = (typeField value).2.tail ++ ch '\r' :: LF :: more := by
  have hne : (typeField value).2 ≠ [] := fun hnil => h (by rw [hnil]; rfl)
  have hread := readField_stopped hne (crlf ++ more)
  have hshape : typeField (value ++ crlf ++ more) =
      ((typeField value).1, (typeField value).2 ++ (crlf ++ more)) := by
    rw [List.append_assoc]
    exact hread
  rw [hshape]
  refine ⟨rfl, ?_⟩
  rw [List.tail_append_of_ne_nil hne]
  rfl

theorem firstField_inside {text : Str} (h : text ≠ []) (more : Str) :
    firstField (text ++ ch '\r' :: more) = ((firstField text).1, (firstField text).2 ++ ch '\r' :: more) :=
  readField_ended h (by decide) more

/-- Whatever is behind the line, it is refused, or it gives this type and these bounds. -/
theorem range_inside (hone : OneLine value) (h : RangeInside value) :
    ∃ type range, ∀ more, (∃ code, readReqRangeLine (value ++ crlf ++ more) = .error code) ∨
      readReqRangeLine (value ++ crlf ++ more) = .ok (type, range, value.length) := by
  by_cases hshort : value.length < HTTP_REQUEST_RANGE_TYPE_DIM + 30
  · obtain ⟨htype, hends⟩ := h.resolve_left (by omega)
    set text := (typeField value).2.tail with htext
    have hread : ∀ more, readReqRangeLine (value ++ crlf ++ more) =
        (rangeBounds (cutEquals (firstField text).1)
          (cutEquals (secondField ((firstField text).2 ++ ch '\r' :: LF :: more).tail).1)).map fun range =>
            ((typeField value).1.map fun c => if c = ch '=' then 0 else c, range, value.length) := by
      intro more
      obtain ⟨hfront, hbehind⟩ := typeField_inside htype more
      rw [readRange_eq hone, if_pos hshort]
      simp only [hfront, hbehind, ← htext, firstField_inside htype]
    -- What the bounds come to decides it, and they must not come from what is behind the line.
    suffices hsame : ∃ range, ∀ more, (∃ code, rangeBounds (cutEquals (firstField text).1)
        (cutEquals (secondField ((firstField text).2 ++ ch '\r' :: LF :: more).tail).1) = .error code) ∨
        rangeBounds (cutEquals (firstField text).1)
          (cutEquals (secondField ((firstField text).2 ++ ch '\r' :: LF :: more).tail).1) = .ok range by
      obtain ⟨range, hrange⟩ := hsame
      refine ⟨(typeField value).1.map fun c => if c = ch '=' then 0 else c, range, fun more => ?_⟩
      rw [hread]
      rcases hrange more with ⟨code, hcode⟩ | hok
      · exact Or.inl ⟨code, by rw [hcode]; rfl⟩
      · exact Or.inr (by rw [hok]; rfl)
    by_cases hfirst : (firstField text).2 = []
    · have hlimit := hends.resolve_left (fun hne => hne hfirst)
      refine ⟨⟨boundNumber (firstField text).1, boundNumber (firstField text).1⟩, fun more => ?_⟩
      obtain ⟨s, hs⟩ : ∃ s, (secondField (LF :: more)).1 = LF :: s := by
        have hhead := @readField_head (fun c => c = ch '\r') 11 LF more
        exact ⟨_, (List.cons_head?_tail hhead).symm⟩
      have hlength : s.length ≤ 11 := by
        have hle := readField_length_le (fun c => c = ch '\r') 11 (LF :: more)
        change (secondField (LF :: more)).1.length ≤ 12 at hle
        rw [hs, List.length_cons] at hle
        omega
      have hle := boundNumber_lf hlength
      obtain ⟨hhead, hend⟩ := endNumber_lf s
      rw [hfirst, List.nil_append, List.tail_cons, hs, rangeBounds_eq]
      by_cases hlt : boundNumber (LF :: s) < boundNumber (firstField text).1
      · exact Or.inl ⟨400, if_pos ⟨hhead, hlt⟩⟩
      · refine Or.inr ?_
        rw [if_neg fun h => hlt h.2, hend]
        congr 2
        omega
    · by_cases hsecond : (firstField text).2.tail = []
      · -- The second bound starts with the end of the line, which is what is told from a number.
        refine ⟨⟨boundNumber (firstField text).1, 0⟩, fun more => Or.inr ?_⟩
        have hhead : (cutEquals (secondField (ch '\r' :: LF :: more)).1).head? = some (ch '\r') := by
          obtain ⟨s, hs⟩ : ∃ s, (secondField (ch '\r' :: LF :: more)).1 = ch '\r' :: s :=
            ⟨_, (List.cons_head?_tail (readField_head _ _)).symm⟩
          rw [hs, cutEquals_cons (by decide)]
          rfl
        rw [List.tail_append_of_ne_nil hfirst, hsecond, List.nil_append, rangeBounds_eq,
          if_neg fun h => h.1 hhead]
        unfold endNumber
        rw [if_pos hhead]
      · have hread' : ∀ more, (secondField ((firstField text).2 ++ ch '\r' :: LF :: more).tail).1 =
            (secondField (firstField text).2.tail).1 := by
          intro more
          have hended := @readField_ended (fun c => decide (c = ch '\r')) 11 _ (ch '\r') hsecond (by decide) (LF :: more)
          rw [List.tail_append_of_ne_nil hfirst]
          unfold secondField
          rw [hended]
        simp only [hread']
        cases rangeBounds (cutEquals (firstField text).1) (cutEquals (secondField (firstField text).2.tail).1) with
        | error code => exact ⟨⟨0, 0⟩, fun _ => Or.inl ⟨code, rfl⟩⟩
        | ok range => exact ⟨range, fun _ => Or.inr rfl⟩
  · refine ⟨[], ⟨0, 0⟩, fun more => Or.inl ⟨400, ?_⟩⟩
    rw [readRange_eq hone, if_neg hshort]

end

/-! ## Lines that are not -/

/-- Names of one length for the line behind. -/
def letters : Str := List.replicate 60 (ch 'a')

def nines : Str := List.replicate 60 (ch '9')

def less : Str := ascii "99999999998" ++ List.replicate 49 (ch 'a')

/-- How two lines behind it make the line say two things. -/
structure Differs (value a b : Str) : Prop where
  first : ∀ more, ∃ type range, readReqRangeLine (value ++ crlf ++ (a ++ more)) = .ok (type, range, value.length)
  second : ∀ more, ∃ type range, readReqRangeLine (value ++ crlf ++ (b ++ more)) = .ok (type, range, value.length)
  apart : ∀ more more' x y, readReqRangeLine (value ++ crlf ++ (a ++ more)) = .ok x →
    readReqRangeLine (value ++ crlf ++ (b ++ more')) = .ok y → x.2.1 ≠ y.2.1

theorem Differs.of_ok {value a b : Str} {r r' : HttpRange} (hne : r ≠ r')
    (ha : ∀ more, ∃ type, readReqRangeLine (value ++ crlf ++ (a ++ more)) = .ok (type, r, value.length))
    (hb : ∀ more, ∃ type, readReqRangeLine (value ++ crlf ++ (b ++ more)) = .ok (type, r', value.length)) :
    Differs value a b where
  first more := (ha more).imp fun type h => ⟨r, h⟩
  second more := (hb more).imp fun type h => ⟨r', h⟩
  apart more more' x y hx hy heq := by
    obtain ⟨type, hr⟩ := ha more
    obtain ⟨type', hr'⟩ := hb more'
    obtain rfl := Except.ok.inj (hx.symm.trans hr)
    obtain rfl := Except.ok.inj (hy.symm.trans hr')
    exact hne heq

theorem fields_run {s : Str} {c : Byte} (hs : s.length ≤ 11) (hclear : ∀ b ∈ s.tail, b ≠ ch '-' ∧ b ≠ ch '\r')
    (hc : c ≠ ch '-' ∧ c ≠ ch '\r') {m : Nat} (hm : 25 ≤ m) (more : Str) :
    let first := firstField (s ++ (List.replicate m c ++ more))
    first.1 = s ++ List.replicate (12 - s.length) c ∧ (secondField first.2.tail).1 = List.replicate 12 c := by
  have hrun : ∀ n, ∀ b ∈ List.replicate n c, b = c := fun n b hb => List.eq_of_mem_replicate hb
  obtain ⟨k, rfl⟩ := Nat.exists_eq_add_of_le hm
  have hsplit : s ++ (List.replicate (25 + k) c ++ more) = (s ++ List.replicate (12 - s.length) c) ++
      (c :: (List.replicate 12 c ++ (List.replicate (k + s.length) c ++ more))) := by
    have hcount : 25 + k = 12 - s.length + (1 + (12 + (k + s.length))) := by omega
    rw [hcount, List.replicate_add, List.replicate_add, List.replicate_add]
    simp
  have hfirst := @readField_through (fun b => decide (b = ch '-' ∨ b = ch '\r')) 11
    (s ++ List.replicate (12 - s.length) c) (by
      obtain ⟨n, hn⟩ : ∃ n, 12 - s.length = n + 1 := ⟨11 - s.length, by omega⟩
      rw [hn, List.replicate_succ]
      simp) (by
      intro b hb
      have hb' : b ∈ s.tail ∨ b = c := by
        cases s with
        | nil => exact Or.inr (hrun _ b (List.mem_of_mem_tail hb))
        | cons d s =>
          rcases List.mem_append.mp hb with hb | hb
          · exact Or.inl hb
          · exact Or.inr (hrun _ b hb)
      rcases hb' with hb | rfl
      · simpa using hclear b hb
      · simpa using hc) (by simp; omega)
    (c :: (List.replicate 12 c ++ (List.replicate (k + s.length) c ++ more)))
  have hsecond := @readField_through (fun b => decide (b = ch '\r')) 11 (List.replicate 12 c)
    (by simp) (by
      intro b hb
      rw [hrun _ b (List.mem_of_mem_tail hb)]
      simpa using hc.2) (by simp) (List.replicate (k + s.length) c ++ more)
  intro first
  have heq : first = (s ++ List.replicate (12 - s.length) c,
      c :: (List.replicate 12 c ++ (List.replicate (k + s.length) c ++ more))) := by
    change firstField _ = _
    rw [hsplit]
    exact hfirst
  rw [heq]
  exact ⟨rfl, congrArg Prod.fst hsecond⟩

/-- Where the bounds are read when the type has taken the line, and perhaps more. -/
theorem type_run {value : Str} (hone : OneLine value) (h : (typeField value).2.tail = []) :
    ∃ s m, (s = [] ∨ s = [LF] ∨ s = crlf) ∧ 25 ≤ m ∧ ∀ c, c ≠ ch '=' → ∀ more,
      (typeField (value ++ crlf ++ (List.replicate 60 c ++ more))).2.tail = s ++ (List.replicate m c ++ more) := by
  have hdim : HTTP_REQUEST_RANGE_TYPE_DIM - 1 = 15 := rfl
  by_cases hnil : (typeField value).2 = []
  · obtain ⟨-, hlength, hclear⟩ := readField_all hnil
    rw [hdim] at hlength
    have hcrlf : ∀ b ∈ crlf, b ≠ ch '=' := by decide
    have hvalue : ∀ b ∈ (value ++ crlf).tail, decide (b = ch '=') = false := by
      intro b hb
      cases value with
      | nil => exact decide_eq_false (hcrlf b (List.mem_of_mem_tail hb))
      | cons d value =>
        rcases List.mem_append.mp hb with hb | hb
        · exact hclear b hb
        · exact decide_eq_false (hcrlf b hb)
    -- The type is 16 characters long; how many of them are behind the line tells where the bounds start.
    rcases Nat.lt_trichotomy value.length 15 with hlt | heq | hgt
    · refine ⟨[], 45 + value.length, Or.inl rfl, by omega, fun c hc more => ?_⟩
      have hread := @readField_through (fun b => decide (b = ch '=')) 15
        (value ++ crlf ++ List.replicate (14 - value.length) c) (by simp [crlf]) (by
          intro b hb
          have htail : (value ++ crlf ++ List.replicate (14 - value.length) c).tail =
              (value ++ crlf).tail ++ List.replicate (14 - value.length) c :=
            List.tail_append_of_ne_nil (by simp [crlf])
          rw [htail] at hb
          rcases List.mem_append.mp hb with hb | hb
          · exact hvalue b hb
          · rw [List.eq_of_mem_replicate hb]
            exact decide_eq_false hc) (by simp [crlf]; omega) (c :: (List.replicate (45 + value.length) c ++ more))
      have hsplit : value ++ crlf ++ (List.replicate 60 c ++ more) =
          value ++ crlf ++ List.replicate (14 - value.length) c ++
            (c :: (List.replicate (45 + value.length) c ++ more)) := by
        have hcount : 60 = 14 - value.length + (1 + (45 + value.length)) := by omega
        rw [hcount, List.replicate_add, List.replicate_add]
        simp
      rw [hsplit]
      exact congrArg (fun r => r.2.tail) hread
    · refine ⟨[], 60, Or.inl rfl, by omega, fun c _ more => ?_⟩
      have hread := @readField_through (fun b => decide (b = ch '=')) 15 (value ++ [ch '\r']) (by simp) (by
          intro b hb
          apply hvalue
          have htail : (value ++ crlf).tail = (value ++ [ch '\r']).tail ++ [LF] := by
            rw [← List.tail_append_of_ne_nil (by simp)]
            simp [crlf, LF]
          rw [htail]
          exact List.mem_append_left _ hb) (by simp [heq]) (LF :: (List.replicate 60 c ++ more))
      have hsplit : value ++ crlf ++ (List.replicate 60 c ++ more) =
          value ++ [ch '\r'] ++ LF :: (List.replicate 60 c ++ more) := by simp [crlf, LF]
      rw [hsplit]
      exact congrArg (fun r => r.2.tail) hread
    · refine ⟨[LF], 60, Or.inr (Or.inl rfl), by omega, fun c _ more => ?_⟩
      have hne : value ≠ [] := by
        rintro rfl
        exact absurd hgt (by decide)
      have hread := @readField_through (fun b => decide (b = ch '=')) 15 value hne hclear (by omega)
        (crlf ++ (List.replicate 60 c ++ more))
      rw [List.append_assoc]
      exact congrArg (fun r => r.2.tail) hread
  · refine ⟨crlf, 60, Or.inr (Or.inr rfl), by omega, fun c _ more => ?_⟩
    have hread := readField_stopped hnil (crlf ++ (List.replicate 60 c ++ more))
    have hshape : typeField (value ++ crlf ++ (List.replicate 60 c ++ more)) =
        ((typeField value).1, (typeField value).2 ++ (crlf ++ (List.replicate 60 c ++ more))) := by
      rw [List.append_assoc]
      exact hread
    rw [hshape, List.tail_append_of_ne_nil hnil, h]
    rfl

section

variable {value : Str}

/-- What is read of a line whose bounds are behind it. -/
theorem read_run (hone : OneLine value) (hshort : value.length < HTTP_REQUEST_RANGE_TYPE_DIM + 30) {s : Str}
    (hs : s = [] ∨ s = [LF] ∨ s = crlf) {m : Nat} (hm : 25 ≤ m) {c : Byte} (hc : c ≠ ch '-' ∧ c ≠ ch '\r')
    {more : Str} (htype : (typeField (value ++ crlf ++ (List.replicate 60 c ++ more))).2.tail =
      s ++ (List.replicate m c ++ more)) {r : HttpRange}
    (hr : rangeBounds (cutEquals (s ++ List.replicate (12 - s.length) c)) (cutEquals (List.replicate 12 c)) = .ok r) :
    ∃ type, readReqRangeLine (value ++ crlf ++ (List.replicate 60 c ++ more)) = .ok (type, r, value.length) := by
  have hs' : s.length ≤ 11 ∧ ∀ b ∈ s.tail, b ≠ ch '-' ∧ b ≠ ch '\r' := by
    rcases hs with rfl | rfl | rfl
    · exact ⟨by decide, nofun⟩
    · exact ⟨by decide, nofun⟩
    · exact ⟨by decide, by decide⟩
  obtain ⟨hfirst, hsecond⟩ := fields_run hs'.1 hs'.2 hc hm more
  rw [readRange_eq hone, if_pos hshort]
  dsimp only
  rw [htype, hfirst, hsecond, hr]
  exact ⟨_, rfl⟩

theorem differs_run (hone : OneLine value) (hshort : value.length < HTTP_REQUEST_RANGE_TYPE_DIM + 30)
    (h : (typeField value).2.tail = []) : Differs value letters nines := by
  obtain ⟨s, m, hs, hm, htype⟩ := type_run hone h
  have ha : ch 'a' ≠ ch '=' ∧ ch 'a' ≠ ch '-' ∧ ch 'a' ≠ ch '\r' := by decide
  have h9 : ch '9' ≠ ch '=' ∧ ch '9' ≠ ch '-' ∧ ch '9' ≠ ch '\r' := by decide
  have hletters : rangeBounds (cutEquals (s ++ List.replicate (12 - s.length) (ch 'a')))
      (cutEquals (List.replicate 12 (ch 'a'))) = .ok ⟨0, 0⟩ := by
    rcases hs with rfl | rfl | rfl <;> rfl
  obtain ⟨r, hr, hne⟩ : ∃ r : HttpRange, rangeBounds (cutEquals (s ++ List.replicate (12 - s.length) (ch '9')))
      (cutEquals (List.replicate 12 (ch '9'))) = .ok r ∧ (⟨0, 0⟩ : HttpRange) ≠ r := by
    rcases hs with rfl | rfl | rfl
    · exact ⟨⟨999999999999, 999999999999⟩, rfl, fun h => absurd (congrArg HttpRange.rangeByteBegin h) (by decide)⟩
    · exact ⟨⟨99999999999, 999999999999⟩, rfl, fun h => absurd (congrArg HttpRange.rangeByteBegin h) (by decide)⟩
    · exact ⟨⟨9999999999, 999999999999⟩, rfl, fun h => absurd (congrArg HttpRange.rangeByteBegin h) (by decide)⟩
  exact Differs.of_ok hne (fun more => read_run hone hshort hs hm ha.2 (htype _ ha.1 more) hletters)
    fun more => read_run hone hshort hs hm h9.2 (htype _ h9.1 more) hr

/-- The second bound is read behind the line. -/
theorem read_behind (hone : OneLine value) (hshort : value.length < HTTP_REQUEST_RANGE_TYPE_DIM + 30)
    (htype : (typeField value).2.tail ≠ []) (hfirst : (firstField (typeField value).2.tail).2 = []) {front : Str}
    (hfront : front.length = 11) (hclear : ∀ b ∈ front, b ≠ ch '\r')
    (hle : boundNumber (firstField (typeField value).2.tail).1 ≤ boundNumber (LF :: front)) (more : Str) :
    ∃ type, readReqRangeLine (value ++ crlf ++ (front ++ more)) =
      .ok (type, ⟨boundNumber (firstField (typeField value).2.tail).1, boundNumber (LF :: front)⟩, value.length) := by
  obtain ⟨-, hbehind⟩ := typeField_inside htype (front ++ more)
  have hsecond := @readField_through (fun b => decide (b = ch '\r')) 11 (LF :: front) (List.cons_ne_nil _ _)
    (fun b hb => decide_eq_false (hclear b hb)) (by simp [hfront]) more
  have hsecond' : (secondField (LF :: (front ++ more))).1 = LF :: front := congrArg Prod.fst hsecond
  obtain ⟨hhead, hend⟩ := endNumber_lf front
  rw [readRange_eq hone, if_pos hshort]
  dsimp only
  rw [hbehind, firstField_inside htype, hfirst, List.nil_append, List.tail_cons, hsecond', rangeBounds_eq,
    if_neg fun h => absurd h.2 (not_lt.mpr hle), hend]
  exact ⟨_, rfl⟩

/-- Any other line is read differently with another line behind it. -/
theorem range_outside (hone : OneLine value) (h : ¬ RangeInside value) :
    value.length < HTTP_REQUEST_RANGE_TYPE_DIM + 30 ∧ (Differs value letters nines ∨ Differs value nines less) := by
  unfold RangeInside at h
  rw [not_or, not_le] at h
  obtain ⟨hshort, hout⟩ := h
  refine ⟨hshort, ?_⟩
  by_cases htype : (typeField value).2.tail = []
  · exact Or.inl (differs_run hone hshort htype)
  · refine Or.inr ?_
    rw [not_and, not_or, not_not, not_le] at hout
    obtain ⟨hfirst, hlimit⟩ := hout htype
    have hnines : nines = List.replicate 11 (ch '9') ++ List.replicate 49 (ch '9') := rfl
    have hnumbers : boundNumber (LF :: List.replicate 11 (ch '9')) = 99999999999 ∧
        boundNumber (LF :: ascii "99999999998") = 99999999998 := ⟨rfl, rfl⟩
    have hne : (⟨boundNumber (firstField (typeField value).2.tail).1,
        boundNumber (LF :: List.replicate 11 (ch '9'))⟩ : HttpRange) ≠
          ⟨boundNumber (firstField (typeField value).2.tail).1, boundNumber (LF :: ascii "99999999998")⟩ := by
      intro heq
      have hends := congrArg HttpRange.rangeByteEnd heq
      dsimp only at hends
      rw [hnumbers.1, hnumbers.2] at hends
      exact absurd hends (by decide)
    refine Differs.of_ok hne (fun more => ?_) fun more => ?_
    · have hread := @read_behind value hone hshort htype hfirst (List.replicate 11 (ch '9')) rfl (by decide)
        (by omega) (List.replicate 49 (ch '9') ++ more)
      rwa [hnines, List.append_assoc (List.replicate 11 (ch '9'))]
    · have hread := @read_behind value hone hshort htype hfirst (ascii "99999999998") rfl (by decide)
        (by omega) (List.replicate 49 (ch 'a') ++ more)
      unfold less
      rwa [List.append_assoc (ascii "99999999998")]

end

end MyServer.RequestHeader
