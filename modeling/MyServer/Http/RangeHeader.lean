import MyServer.Decimal

/-!
# The Range line of a request

Fields are cut out of the line by loops that take their first character whatever it
is. No bound given and the bound 0 are the same to everything that comes later.
-/

namespace MyServer

/-! ## The line -/

/-- The first CR or LF among the first `max` characters, `max` not being 0. -/
def getEndLine : Str → Nat → Option Nat
  | [], _ => none
  | _, 0 => none
  | c :: rest, max + 1 =>
    if c = 0 then none
    else if c = ch '\r' ∨ c = ch '\n' then some 0
    else (getEndLine rest max).map (· + 1)

/-- `do field[i++] = *p; while (*(++p) != ... && i < limit)`, where `limit` is `more + 1`, and what
`p` points to then. -/
def readField (stop : Byte → Bool) : Nat → Str → Str × Str
  | _, [] => ([], [])
  | 0, c :: rest => ([c], rest)
  | more + 1, c :: rest =>
    if rest.head?.all stop then ([c], rest)
    else
      let r := readField stop more rest
      (c :: r.1, r.2)

/-- A field after each `=` in it was made a NUL. -/
def cutEquals (field : Str) : Str := cstr (field.takeWhile (· ≠ ch '='))

def HTTP_REQUEST_RANGE_TYPE_DIM : Nat := 16

structure HttpRange where
  rangeByteBegin : Int
  rangeByteEnd : Int

/-- The texts of the type and of the two bounds, and the line is left alone after them. -/
def rangeFields (token : Str) : Str × Str × Str :=
  let type := readField (· = ch '=') (HTTP_REQUEST_RANGE_TYPE_DIM - 1) token
  let first := readField (fun c => c = ch '-' ∨ c = ch '\r') 11 type.2.tail
  let second := readField (· = ch '\r') 11 first.2.tail
  (type.1.map fun c => if c = ch '=' then 0 else c, cutEquals first.1, cutEquals second.1)

def rangeBounds (first second : Str) : Except Nat HttpRange :=
  let rangeByteBegin := if first = [] then 0 else atoll first
  if second.head? = some (ch '\r') then .ok ⟨rangeByteBegin, 0⟩
  else if atoll second < rangeByteBegin then .error 400
  else .ok ⟨rangeByteBegin, atoll second⟩

/-- The type, the bounds and the length of the line. `token` goes on to where memory ends. -/
def readReqRangeLine (token : Str) : Except Nat (Str × HttpRange × Nat) :=
  match getEndLine token (HTTP_REQUEST_RANGE_TYPE_DIM + 30) with
  | none => .error 400
  | some lenOut =>
    let fields := rangeFields token
    (rangeBounds fields.2.1 fields.2.2).map fun range => (fields.1, range, lenOut)

/-! ## Bounds of accepted lines -/

theorem digits_lt {s : Str} (hs : ∀ b ∈ s, isDigit b) (v : Nat) :
    s.foldl (fun v b => 10 * v + (b.toNat - 48)) v < 10 ^ s.length * (v + 1) := by
  induction s generalizing v with
  | nil => simp
  | cons b s ih =>
    have hb := hs b List.mem_cons_self
    unfold isDigit at hb
    rw [decide_eq_true_eq] at hb
    apply lt_of_lt_of_le (ih (fun c hc => hs c (List.mem_cons_of_mem b hc)) _)
    rw [List.length_cons, pow_succ, mul_assoc]
    apply Nat.mul_le_mul_left
    dsimp only
    omega

theorem leadingNumber_lt (s : Str) : leadingNumber s < 10 ^ s.length := by
  unfold leadingNumber
  have hdigits : ∀ b ∈ s.takeWhile isDigit, isDigit b := fun b hb => List.mem_takeWhile_imp hb
  have hlt := digits_lt hdigits 0
  rw [Nat.zero_add, Nat.mul_one] at hlt
  exact lt_of_lt_of_le hlt (Nat.pow_le_pow_right (by norm_num) (List.takeWhile_sublist _).length_le)

theorem atoll_abs_lt (s : Str) : |atoll s| < 10 ^ s.length := by
  have hlen : ((cstr s).dropWhile isSpace).length ≤ s.length :=
    le_trans (List.dropWhile_sublist _).length_le (List.takeWhile_sublist _).length_le
  unfold atoll
  revert hlen
  cases (cstr s).dropWhile isSpace with
  | nil => simp
  | cons c rest =>
    intro hlen
    have hrest : leadingNumber rest < 10 ^ s.length :=
      lt_of_lt_of_le (leadingNumber_lt rest) (Nat.pow_le_pow_right (by norm_num) (by
        rw [List.length_cons] at hlen
        omega))
    have hall : leadingNumber (c :: rest) < 10 ^ s.length :=
      lt_of_lt_of_le (leadingNumber_lt _) (Nat.pow_le_pow_right (by norm_num) hlen)
    dsimp only
    split_ifs
    · rw [abs_neg, Nat.abs_cast]
      exact_mod_cast hrest
    · rw [Nat.abs_cast]
      exact_mod_cast hrest
    · rw [Nat.abs_cast]
      exact_mod_cast hall

theorem readField_length_le (stop : Byte → Bool) (more : Nat) (text : Str) :
    (readField stop more text).1.length ≤ more + 1 := by
  induction more generalizing text with
  | zero => cases text <;> simp [readField]
  | succ more ih =>
    cases text with
    | nil => simp [readField]
    | cons c rest =>
      unfold readField
      split_ifs
      · simp
      · simpa using ih rest

theorem cutEquals_length_le (field : Str) : (cutEquals field).length ≤ field.length :=
  le_trans (List.takeWhile_sublist _).length_le (List.takeWhile_sublist _).length_le

theorem rangeFields_length_le (token : Str) :
    (rangeFields token).2.1.length ≤ 12 ∧ (rangeFields token).2.2.length ≤ 12 :=
  ⟨le_trans (cutEquals_length_le _) (readField_length_le _ 11 _),
    le_trans (cutEquals_length_le _) (readField_length_le _ 11 _)⟩

/-- What the bounds of every accepted line satisfy; as numbers of type `off_t` they are small. -/
structure HttpRange.Accepted (r : HttpRange) : Prop where
  ordered : r.rangeByteEnd = 0 ∨ r.rangeByteBegin ≤ r.rangeByteEnd
  begin_lt : |r.rangeByteBegin| < 2 ^ 62
  end_lt : |r.rangeByteEnd| < 2 ^ 62

theorem atoll_field_lt {field : Str} (h : field.length ≤ 12) : |atoll field| < 2 ^ 62 := by
  apply lt_of_lt_of_le (atoll_abs_lt field)
  apply le_trans (pow_le_pow_right₀ (by norm_num) h)
  norm_num

theorem rangeBounds_accepted {first second : Str} (hfirst : first.length ≤ 12)
    (hsecond : second.length ≤ 12) {r : HttpRange} (h : rangeBounds first second = .ok r) :
    r.Accepted := by
  have hbegin : |if first = [] then 0 else atoll first| < 2 ^ 62 := by
    split_ifs
    · norm_num
    · exact atoll_field_lt hfirst
  unfold rangeBounds at h
  generalize (if first = [] then 0 else atoll first) = rangeByteBegin at h hbegin
  dsimp only at h
  split_ifs at h with hend hrefused
  · obtain rfl := Except.ok.inj h
    exact ⟨Or.inl rfl, hbegin, by norm_num⟩
  · obtain rfl := Except.ok.inj h
    exact ⟨Or.inr (not_lt.mp hrefused), hbegin, atoll_field_lt hsecond⟩

theorem readReqRangeLine_ok {token : Str} {x : Str × HttpRange × Nat}
    (h : readReqRangeLine token = .ok x) :
    rangeBounds (rangeFields token).2.1 (rangeFields token).2.2 = .ok x.2.1 := by
  unfold readReqRangeLine at h
  split at h
  · cases h
  · dsimp only at h
    cases hb : rangeBounds (rangeFields token).2.1 (rangeFields token).2.2 with
    | error e => simp [hb, Except.map] at h
    | ok r =>
      rw [hb] at h
      obtain rfl := Except.ok.inj h
      rfl

theorem readReqRangeLine_accepted {token : Str} {x : Str × HttpRange × Nat}
    (h : readReqRangeLine token = .ok x) : x.2.1.Accepted := by
  obtain ⟨hfirst, hsecond⟩ := rangeFields_length_le token
  exact rangeBounds_accepted hfirst hsecond (readReqRangeLine_ok h)

example : (readReqRangeLine (ascii "bytes=10-20\r\n\r\n")).map
    (fun x => (x.2.1.rangeByteBegin, x.2.1.rangeByteEnd)) = .ok (10, 20) := by decide +kernel

end MyServer
