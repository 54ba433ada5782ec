import MyServer.Decimal

/-!
# `std::istringstream`

The extraction of an `int` and of a `char`, in the default format.
-/

namespace MyServer

/-- `rest` is what is not read yet. -/
structure IStringStream where
  rest : Str
  eofbit : Bool
  failbit : Bool
deriving DecidableEq

namespace IStringStream

def ofText (text : Str) : IStringStream := ⟨text, false, false⟩

def good (s : IStringStream) : Bool := !s.eofbit && !s.failbit

/-- What each extraction begins with. -/
def sentry (s : IStringStream) : IStringStream :=
  if s.good then
    let rest := s.rest.dropWhile isSpace
    if rest = [] then ⟨[], true, true⟩ else { s with rest := rest }
  else { s with failbit := true }

def intMax : Int := 2 ^ 31 - 1
def intMin : Int := -2 ^ 31

/-- Behind the sign. -/
def getDigits (negative : Bool) (body : Str) : IStringStream × Int :=
  let rest := body.dropWhile isDigit
  if body.takeWhile isDigit = [] then (⟨rest, rest = [], true⟩, 0)
  else
    let value : Int := if negative then -leadingNumber body else leadingNumber body
    if value < intMin then (⟨rest, rest = [], true⟩, intMin)
    else if intMax < value then (⟨rest, rest = [], true⟩, intMax)
    else (⟨rest, rest = [], false⟩, value)

/-- The number at the front of a text that is at no white space, with what is behind it. -/
def getInt (text : Str) : IStringStream × Int :=
  if text.head? = some (ch '-') then getDigits true text.tail
  else if text.head? = some (ch '+') then getDigits false text.tail
  else getDigits false text

/-- `s >> n`; `n` stays as it is when there is nothing to read. -/
def readInt (s : IStringStream) (n : Int) : IStringStream × Int :=
  let s := s.sentry
  if s.good then getInt s.rest else (s, n)

/-- `s >> c`. -/
def readChar (s : IStringStream) (c : Byte) : IStringStream × Byte :=
  let s := s.sentry
  if s.good then ({ s with rest := s.rest.tail }, s.rest.headD c) else (s, c)

/-! ## A text that is decimal numbers and separators -/

theorem takeWhile_digits {digits rest : Str} (hdigits : ∀ b ∈ digits, isDigit b = true)
    (hrest : ∀ b ∈ rest.head?, isDigit b = false) : (digits ++ rest).takeWhile isDigit = digits := by
  rw [List.takeWhile_append_of_pos hdigits]
  cases rest with
  | nil => simp
  | cons b rest => simp [hrest b rfl]

theorem dropWhile_digits {digits rest : Str} (hdigits : ∀ b ∈ digits, isDigit b = true)
    (hrest : ∀ b ∈ rest.head?, isDigit b = false) : (digits ++ rest).dropWhile isDigit = rest := by
  rw [List.dropWhile_append_of_pos hdigits]
  cases rest with
  | nil => rfl
  | cons b rest => exact List.dropWhile_cons_of_neg (by simp [hrest b rfl])

theorem leadingNumber_append {digits rest : Str} (hdigits : ∀ b ∈ digits, isDigit b = true)
    (hrest : ∀ b ∈ rest.head?, isDigit b = false) : leadingNumber (digits ++ rest) = leadingNumber digits := by
  have hall : digits.takeWhile isDigit = digits := List.takeWhile_eq_self_iff.mpr hdigits
  unfold leadingNumber
  rw [takeWhile_digits hdigits hrest, hall]

theorem sentry_ofText {b : Byte} {rest : Str} (h : isSpace b = false) :
    (ofText (b :: rest)).sentry = ofText (b :: rest) := by
  have hskip : (b :: rest).dropWhile isSpace = b :: rest := List.dropWhile_cons_of_neg (by simp [h])
  simp [sentry, good, ofText, hskip]

/-- A number that an `int` has room for is read whole. -/
theorem readInt_digits {digits rest : Str} (hne : digits ≠ []) (hdigits : ∀ b ∈ digits, isDigit b = true)
    (hrest : ∀ b ∈ rest.head?, isDigit b = false) (hmax : leadingNumber digits < 2 ^ 31) (n : Int) :
    readInt (ofText (digits ++ rest)) n = ((⟨rest, rest = [], false⟩ : IStringStream), (leadingNumber digits : Int)) := by
  obtain ⟨b, digits', rfl⟩ := List.exists_cons_of_ne_nil hne
  have hb := not_space_of_digit (hdigits b List.mem_cons_self)
  have hminus : (b :: digits' ++ rest).head? ≠ some (ch '-') := fun h => hb.2.1 (Option.some.inj h)
  have hplus : (b :: digits' ++ rest).head? ≠ some (ch '+') := fun h => hb.2.2 (Option.some.inj h)
  have hgood : (ofText (b :: digits' ++ rest)).good = true := rfl
  unfold readInt
  rw [List.cons_append, sentry_ofText hb.1, ← List.cons_append]
  dsimp only
  rw [if_pos hgood, getInt, ofText, if_neg hminus, if_neg hplus, getDigits, takeWhile_digits hdigits hrest,
    dropWhile_digits hdigits hrest, leadingNumber_append hdigits hrest]
  dsimp only
  rw [if_neg (List.cons_ne_nil _ _), if_neg Bool.false_ne_true, if_neg (by unfold intMin; omega),
    if_neg (by unfold intMax; omega)]

theorem readInt_decimal {k : Nat} {rest : Str} (hmax : k < 2 ^ 31) (hrest : ∀ b ∈ rest.head?, isDigit b = false)
    (n : Int) : readInt (ofText (decimal k ++ rest)) n = ((⟨rest, rest = [], false⟩ : IStringStream), (k : Int)) := by
  have hread := readInt_digits (decimal_ne_nil k) (fun b hb => isDigit_of_mem_decimal hb) hrest
    (by rwa [leadingNumber_decimal]) n
  rwa [leadingNumber_decimal] at hread

theorem readChar_cons {b : Byte} {rest : Str} (h : isSpace b = false) (c : Byte) :
    readChar (ofText (b :: rest)) c = (ofText rest, b) := by
  unfold readChar
  rw [sentry_ofText h]
  rfl

/-- Nothing is read from a stream that is at its end. -/
theorem readChar_eof {s : IStringStream} (h : s.eofbit = true) (c : Byte) :
    readChar s c = ({ s with failbit := true }, c) := by
  have hgood : s.good = false := by simp [good, h]
  have hgood' : ({ s with failbit := true } : IStringStream).good = false := by simp [good]
  simp [readChar, sentry, hgood, hgood']

end IStringStream

end MyServer
