import MyServer.Base.IStringStream
import MyServer.Http.ResponseHeader
import MyServer.Log.RotatedName

/-!
# Dates

`getRFC822GMTTime` and `getTime` (stringutils.cpp). A pointer is the memory from there on, up to where it
ends.
-/

open MyServer.ResponseHeader (atoi)
open MyServer.Rotation (Tm dayName monthName two digit SPACE COLON dayText isDigit_digit digits_two digits_dayText
  length_dayName length_monthName clock)

namespace MyServer.HttpDate

/-! ## gmtime -/

/-- In which of the pieces a place is, and where in it. -/
def place : List Nat → Nat → Nat × Nat
  | [], d => (0, d)
  | n :: lengths, d => if d < n then (0, d) else ((place lengths (d - n)).1 + 1, (place lengths (d - n)).2)

def isLeap (year : Nat) : Bool := year % 4 = 0 ∧ (year % 100 ≠ 0 ∨ year % 400 = 0)

def yearLength (year : Nat) : Nat := if isLeap year then 366 else 365

def monthLengths (leap : Bool) : List Nat := [31, if leap then 29 else 28, 31, 30, 31, 30, 31, 31, 30, 31, 30, 31]

/-- The years from 2000 on; behind 400 of them the calendar starts again. -/
def yearLengths : List Nat := (List.range 400).map yearLength

theorem place_lt {lengths : List Nat} {d : Nat} (h : d < lengths.sum) :
    ∃ n, lengths[(place lengths d).1]? = some n ∧ (place lengths d).2 < n := by
  induction lengths generalizing d with
  | nil => exact absurd h (Nat.not_lt_zero d)
  | cons n lengths ih =>
    rw [List.sum_cons] at h
    unfold place
    split_ifs with hd
    · exact ⟨n, rfl, hd⟩
    · exact ih (by omega)

theorem yearLengths_sum : yearLengths.sum = 146097 := by decide +kernel

theorem monthLengths_sum (year : Nat) : (monthLengths (isLeap year)).sum = yearLength year := by
  unfold yearLength
  cases isLeap year <;> rfl

/-- The month and the day of the month, both from 0 on. -/
def date (doe : Nat) : Nat × Nat :=
  let (year, yday) := place yearLengths doe
  place (monthLengths (isLeap year)) yday

theorem date_range {doe : Nat} (h : doe < 146097) : (date doe).1 < 12 ∧ (date doe).2 < 31 := by
  obtain ⟨n, hn, hyday⟩ := place_lt (yearLengths_sum ▸ h)
  obtain ⟨hyear, hlength⟩ : (place yearLengths doe).1 < 400 ∧ yearLength (place yearLengths doe).1 = n := by
    simpa [yearLengths, List.getElem?_eq_some_iff] using hn
  rw [← hlength, ← monthLengths_sum] at hyday
  obtain ⟨m, hm, hday⟩ := place_lt hyday
  have hlengths : ∀ leap, ∀ m ∈ monthLengths leap, m ≤ 31 := by decide
  have hle := hlengths _ m (List.mem_of_getElem? hm)
  obtain ⟨hmonth, -⟩ := List.getElem?_eq_some_iff.mp hm
  exact ⟨hmonth, lt_of_lt_of_le hday hle⟩

/-- The time in UTC, where its year has four digits. -/
def gmtime (ltime : Int) : Option Tm :=
  let days := ltime / 86400
  let secs := (ltime % 86400).toNat
  -- 10957 days are up to the year 2000.
  let doe := ((days - 10957) % 146097).toNat
  let year := 2000 + 400 * ((days - 10957) / 146097) + (place yearLengths doe).1
  have hdate : (date doe).1 < 12 ∧ (date doe).2 < 31 := date_range (by omega)
  have hsecs : secs < 86400 := by omega
  if h : 1000 ≤ year ∧ year ≤ 9999 then
    some {
      wday := Fin.ofNat 7 ((days + 4) % 7).toNat
      mday := (date doe).2 + 1
      mon := ⟨(date doe).1, hdate.1⟩
      year := year.toNat
      hour := secs / 3600
      min := secs / 60 % 60
      sec := secs % 60
      mday_range := by omega
      year_range := by omega
      hour_range := by omega
      min_range := by omega
      sec_range := by omega }
  else none

/-! ## The text -/

/-- `asctime` adds 1900 to the year it is given. It is undefined for a year of five digits, unless the system
says that it writes those, too. -/
def asctime (wide : Bool) (t : Tm) : Option Str :=
  if 9999 < t.year + 1900 ∧ wide = false then none
  else
    let mday := [if t.mday < 10 then SPACE else digit (t.mday / 10), digit (t.mday % 10)]
    some (dayName t.wday ++ [SPACE] ++ monthName t.mon ++ [SPACE] ++ mday ++ [SPACE] ++ two t.hour ++ [COLON] ++
      two t.min ++ [COLON] ++ two t.sec ++ [SPACE] ++ decimal (t.year + 1900) ++ [ch '\n'])

/-- 1900 is already added to the year when `asctime` gets it. -/
def getRFC822GMTTime (wide : Bool) (gmTime : Tm) : Option Str :=
  (asctime wide gmTime).map fun text =>
    let asct := fun i => text.getD i 0
    [asct 0, asct 1, asct 2, ch ','] ++ (if asct 8 ≠ SPACE then [SPACE] else []) ++
      [asct 8, asct 9, SPACE, asct 4, asct 5, asct 6, SPACE] ++
      -- The next characters go over what is behind the fourth.
      (decimal gmTime.year ++ [0, 0, 0]).take 4 ++
      [SPACE, asct 11, asct 12, COLON, asct 14, asct 15, COLON, asct 17, asct 18, SPACE, ch 'G', ch 'M', ch 'T',
        0, 0, 0]

/-! ## What is read of it -/

/-- `struct tm`. -/
structure StructTm where
  tm_sec : Int
  tm_min : Int
  tm_hour : Int
  tm_mday : Int
  tm_mon : Int
  tm_year : Int
  tm_wday : Int
  tm_yday : Int
  tm_isdst : Int

/-- Up to 30 characters into `lb`, or up to `stop`, which is no end at the first place where `i` is asked for.
`none` is a read where no memory is. -/
def scanLoop (stop : Byte) : Nat → Bool → Str → Option (Str × Str)
  | 0, _, str => some ([], str)
  | _ + 1, _, [] => none
  | left + 1, ends, c :: str =>
    if ends = true ∧ c = stop then some ([0], str)
    else (scanLoop stop left true str).map fun next => (c :: next.1, next.2)

/-- What is not written of `lb` stays. -/
def scan (stop : Byte) (ends : Bool) (lb str : Str) : Option (Str × Str) :=
  (scanLoop stop 30 ends str).map fun next => (next.1 ++ lb.drop next.1.length, next.2)

/-- `lb[0] + lb[1] + lb[3]`. -/
def codeOf (lb : Str) : Int :=
  (lb.getD 0 0).toInt8.toInt + (lb.getD 1 0).toInt8.toInt + (lb.getD 3 0).toInt8.toInt

def dayCodes : List (Int × Int) := [(310, 0), (298, 1), (302, 2), (288, 3), (305, 4), (289, 5), (296, 6)]

def monthCodes : List (Int × Int) :=
  [(281, 0), (269, 1), (288, 2), (291, 3), (295, 4), (301, 5), (299, 6), (285, 7), (296, 8), (294, 9), (307, 10),
    (268, 11)]

/-- Both switches set the day of the week. -/
def StructTm.switch (t : StructTm) (codes : List (Int × Int)) (lb : Str) : StructTm :=
  { t with tm_wday := (codes.lookup (codeOf lb)).getD t.tm_wday }

/-- What `mktime` gets. `lb` and `t` come in as they are on the stack. -/
def getTime (str lb : Str) (t : StructTm) : Option StructTm := do
  let (lb, str) ← scan (ch ',') true lb str
  let t := t.switch dayCodes lb
  let (lb, str) ← scan SPACE false lb str.tail
  let t := { t with tm_mday := atoi lb }
  let (lb, str) ← scan SPACE false lb str
  let t := t.switch monthCodes lb
  let (lb, str) ← scan SPACE false lb str
  let t := { t with tm_year := atoi lb - 1900 }
  let (lb, str) ← scan COLON false lb str
  let t := { t with tm_hour := atoi lb }
  let (lb, str) ← scan COLON false lb str
  let t := { t with tm_min := atoi lb }
  let (lb, _) ← scan COLON false lb str
  pure { t with tm_sec := atoi lb, tm_yday := 0, tm_wday := 0, tm_isdst := -1 }

/-! ## Words and numbers -/

theorem scanLoop_append {stop : Byte} {word : Str} (hstop : stop ∉ word) {ends : Bool}
    (hends : ends = true ∨ word ≠ []) (left : Nat) (str : Str) :
    scanLoop stop (word.length + left) ends (word ++ str) =
      (scanLoop stop left true str).map fun next => (word ++ next.1, next.2) := by
  induction word generalizing ends with
  | nil =>
    obtain rfl := hends.resolve_right (not_not.mpr rfl)
    rw [List.length_nil, Nat.zero_add, List.nil_append]
    cases scanLoop stop left true str <;> rfl
  | cons c word ih =>
    obtain ⟨hc, hword⟩ := List.ne_and_not_mem_of_not_mem_cons hstop
    have hturns : (c :: word).length + left = word.length + left + 1 := by
      rw [List.length_cons]
      omega
    rw [hturns, List.cons_append, scanLoop, if_neg fun h => hc h.2.symm, ih hword (Or.inl rfl), Option.map_map]
    rfl

/-- A word with its end. -/
theorem scan_word {stop : Byte} {word : Str} (hstop : stop ∉ word) {ends : Bool} (hends : ends = true ∨ word ≠ [])
    (hlength : word.length < 30) (lb str : Str) :
    scan stop ends lb (word ++ stop :: str) = some (word ++ 0 :: lb.drop (word.length + 1), str) := by
  obtain ⟨left, hleft⟩ : ∃ left, 30 = word.length + (left + 1) := ⟨30 - word.length - 1, by omega⟩
  unfold scan
  rw [hleft, scanLoop_append hstop hends, scanLoop, if_pos ⟨rfl, rfl⟩]
  simp

/-- There has to be memory up to the end, or for all 30 characters. -/
theorem scanLoop_isSome {stop : Byte} {left : Nat} {str : Str} :
    (scanLoop stop left true str).isSome ↔ left ≤ str.length ∨ stop ∈ str := by
  induction str generalizing left with
  | nil => cases left <;> simp [scanLoop]
  | cons c str ih =>
    cases left with
    | zero => simp [scanLoop]
    | succ left =>
      rw [scanLoop]
      by_cases hc : c = stop
      · rw [if_pos ⟨rfl, hc⟩, hc]
        simp
      · have hstop : stop ≠ c := fun h => hc h.symm
        rw [if_neg fun h => hc h.2, Option.isSome_map, ih]
        simp [hstop]

/-- The digits in front of another character are a number. -/
theorem atoi_digits {digits rest : Str} (hne : digits ≠ []) (hdigits : ∀ b ∈ digits, isDigit b = true)
    (hrest : ∀ b ∈ rest.head?, isDigit b = false) (hmax : leadingNumber digits < 2 ^ 31) :
    atoi (digits ++ rest) = leadingNumber digits := by
  obtain ⟨c, digits', rfl⟩ := List.exists_cons_of_ne_nil hne
  obtain ⟨hspace, hminus, hplus⟩ := not_space_of_digit (hdigits c List.mem_cons_self)
  have hzero : (0 : Byte) ∉ c :: digits' := fun h => absurd (hdigits 0 h) (by decide)
  have hcstr : ∀ b ∈ (cstr rest).head?, isDigit b = false := by
    cases rest with
    | nil => exact hrest
    | cons b rest =>
      unfold cstr
      by_cases hb : b = 0
      · rw [List.takeWhile_cons_of_neg (by simp [hb])]
        exact nofun
      · rw [List.takeWhile_cons_of_pos (by simp [hb])]
        exact hrest
  have hatoll : atoll (c :: digits' ++ rest) = leadingNumber (c :: digits') := by
    unfold atoll
    rw [cstr_append hzero, List.cons_append, List.dropWhile_cons_of_neg (by simp [hspace])]
    dsimp only
    rw [if_neg hminus, if_neg hplus, ← List.cons_append, IStringStream.leadingNumber_append hdigits hcstr]
  unfold atoi
  rw [hatoll]
  exact BitVec.toInt_ofInt_eq_self (by norm_num) (by omega) (by omega)

theorem digit_toNat {n : Nat} (h : n < 10) : (digit n).toNat - 48 = n := by
  unfold digit
  rw [UInt8.toNat_ofNat_of_lt' (by simp only [UInt8.size]; omega)]
  omega

theorem leadingNumber_two {n : Nat} (h : n < 100) : leadingNumber (two n) = n := by
  have htens : n / 10 < 10 := by omega
  have hones : n % 10 < 10 := Nat.mod_lt n (by norm_num)
  unfold leadingNumber two
  rw [List.takeWhile_cons_of_pos (isDigit_digit htens), List.takeWhile_cons_of_pos (isDigit_digit hones),
    List.takeWhile_nil]
  simp only [List.foldl_cons, List.foldl_nil, digit_toNat htens, digit_toNat hones]
  omega

theorem leadingNumber_dayText {n : Nat} (h : n < 100) : leadingNumber (dayText n) = n := by
  unfold dayText
  split_ifs with hday
  · unfold leadingNumber
    rw [List.takeWhile_cons_of_pos (isDigit_digit hday), List.takeWhile_nil]
    simp only [List.foldl_cons, List.foldl_nil, digit_toNat hday]
    omega
  · exact leadingNumber_two h

/-! ## The date between -/

theorem length_decimal_year (t : Tm) : (decimal t.year).length = 4 := by
  obtain ⟨hlow, hhigh⟩ := t.year_range
  have hle : (decimal t.year).length ≤ 4 := (length_decimal_le_iff (by norm_num)).mpr (by omega)
  have hge : ¬(decimal t.year).length ≤ 3 := fun h => by
    have hlt := (length_decimal_le_iff (by norm_num)).mp h
    omega
  omega

theorem digit_ne_space {n : Nat} (h : n < 10) : digit n ≠ SPACE := fun heq =>
  absurd (isDigit_digit h) (by rw [heq]; decide)

/-- The text of a date. -/
theorem getRFC822GMTTime_eq {wide : Bool} {t : Tm} (h : wide = true ∨ t.year < 8100) :
    getRFC822GMTTime wide t =
      some (dayName t.wday ++ ch ',' :: SPACE :: (clock t ++ SPACE :: (ascii "GMT" ++ [0, 0, 0]))) := by
  have hasctime : ¬(9999 < t.year + 1900 ∧ wide = false) := by
    rintro ⟨hyear, hwide⟩
    rcases h with h | h
    · rw [h] at hwide
      cases hwide
    · omega
  have hyear : (decimal t.year ++ [0, 0, 0]).take 4 = decimal t.year := by
    rw [← length_decimal_year t, List.take_left]
  obtain ⟨d₀, d₁, d₂, hday⟩ := List.length_eq_three.mp (length_dayName t.wday)
  obtain ⟨m₀, m₁, m₂, hmonth⟩ := List.length_eq_three.mp (length_monthName t.mon)
  have hgmt : ascii "GMT" = [ch 'G', ch 'M', ch 'T'] := rfl
  have hmday := t.mday_range
  unfold getRFC822GMTTime asctime clock dayText
  rw [if_neg hasctime, Option.map_some, hyear, hday, hmonth, hgmt]
  by_cases hlt : t.mday < 10
  · simp [hlt, two, Nat.mod_eq_of_lt hlt]
  · have htens := digit_ne_space (show t.mday / 10 < 10 by omega)
    simp [hlt, htens, two]

theorem getRFC822GMTTime_none {wide : Bool} {t : Tm} (h : ¬(wide = true ∨ t.year < 8100)) :
    getRFC822GMTTime wide t = none := by
  obtain ⟨hwide, hyear⟩ := not_or.mp h
  unfold getRFC822GMTTime asctime
  rw [if_pos ⟨by omega, by simpa using hwide⟩]
  rfl

/-! ## What is passed to mktime -/

/-- The last field has no end, and the scan for one goes on behind the text. -/
def Readable (behind : Str) : Prop := 23 ≤ behind.length ∨ COLON ∈ behind

/-- What is read of a date: all but the month. -/
def read (t : Tm) (unset : StructTm) : StructTm where
  tm_sec := t.sec
  tm_min := t.min
  tm_hour := t.hour
  tm_mday := t.mday
  tm_mon := unset.tm_mon
  tm_year := t.year - 1900
  tm_wday := 0
  tm_yday := 0
  tm_isdst := -1

theorem scan_number {stop : Byte} {word : Str} (hne : word ≠ []) (hdigits : ∀ b ∈ word, isDigit b = true)
    (hstop : isDigit stop = false) (hlength : word.length < 30) (hmax : leadingNumber word < 2 ^ 31) (lb str : Str) :
    ∃ lb', scan stop false lb (word ++ stop :: str) = some (lb', str) ∧ atoi lb' = leadingNumber word := by
  have hnot : stop ∉ word := fun h => by
    rw [hdigits stop h] at hstop
    cases hstop
  refine ⟨_, scan_word hnot (Or.inr hne) hlength lb str, atoi_digits hne hdigits ?_ hmax⟩
  intro b hb
  obtain rfl := Option.some.inj hb
  decide

theorem two_ne_nil (n : Nat) : two n ≠ [] := List.cons_ne_nil _ _

theorem length_two (n : Nat) : (two n).length = 2 := rfl

theorem scan_two {n : Nat} (h : n < 100) {stop : Byte} (hstop : isDigit stop = false) (lb str : Str) :
    ∃ lb', scan stop false lb (two n ++ stop :: str) = some (lb', str) ∧ atoi lb' = n := by
  have hvalue := leadingNumber_two h
  have hscan := scan_number (two_ne_nil n) (digits_two h) hstop (by rw [length_two]; decide) (by omega) lb str
  rwa [hvalue] at hscan

/-- The scan for the seconds. -/
theorem scan_sec {n : Nat} (h : n < 100) (lb behind : Str) :
    (Readable behind ∧ ∃ lb' str, scan COLON false lb (two n ++ SPACE :: (ascii "GMT" ++ 0 :: behind)) =
        some (lb', str) ∧ atoi lb' = n) ∨
      ¬Readable behind ∧ scan COLON false lb (two n ++ SPACE :: (ascii "GMT" ++ 0 :: behind)) = none := by
  have hcolon : COLON ∉ two n ++ [SPACE] := by
    rw [List.mem_append, not_or]
    exact ⟨fun hmem => absurd (digits_two h COLON hmem) (by decide), by decide⟩
  have hshape : two n ++ SPACE :: (ascii "GMT" ++ 0 :: behind) =
      (two n ++ [SPACE]) ++ (ascii "GMT" ++ 0 :: behind) := by
    rw [List.append_assoc]
    rfl
  have hwhole := @scanLoop_append COLON (two n ++ [SPACE]) hcolon false
    (Or.inr (List.append_ne_nil_of_right_ne_nil _ (List.cons_ne_nil _ _))) 27 (ascii "GMT" ++ 0 :: behind)
  have hreadable : (scanLoop COLON 27 true (ascii "GMT" ++ 0 :: behind)).isSome ↔ Readable behind := by
    have hgmt : ascii "GMT" = [ch 'G', ch 'M', ch 'T'] := rfl
    have hother : COLON ≠ ch 'G' ∧ COLON ≠ ch 'M' ∧ COLON ≠ ch 'T' ∧ COLON ≠ 0 := by decide
    rw [scanLoop_isSome, hgmt, Readable]
    simp only [List.cons_append, List.nil_append, List.length_cons, List.mem_cons, hother, false_or]
    have hroom : 27 ≤ behind.length + 1 + 1 + 1 + 1 ↔ 23 ≤ behind.length := by omega
    rw [hroom]
  unfold scan
  rw [hshape, show 30 = (two n ++ [SPACE]).length + 27 from rfl, hwhole]
  cases hscan : scanLoop COLON 27 true (ascii "GMT" ++ 0 :: behind) with
  | none => exact Or.inr ⟨fun hr => by rw [hscan] at hreadable; exact absurd (hreadable.mpr hr) nofun, rfl⟩
  | some next =>
    left
    rw [hscan] at hreadable
    refine ⟨hreadable.mp rfl, _, _, rfl, ?_⟩
    have hvalue := leadingNumber_two h
    have hspace : isDigit SPACE = false := by decide
    dsimp only
    rw [List.append_assoc, List.append_assoc, List.singleton_append, atoi_digits (two_ne_nil n) (digits_two h)
      (by intro b hb; rwa [← Option.some.inj hb]) (by omega), hvalue]

/-- **What `getTime` makes of a date.** No month is set at all: the switch for it sets the day of the week. -/
theorem getTime_eq (t : Tm) (behind lb : Str) (unset : StructTm) :
    Readable behind ∧ getTime (dayName t.wday ++ ch ',' :: SPACE :: (clock t ++ SPACE :: (ascii "GMT" ++ 0 :: behind)))
        lb unset = some (read t unset) ∨
      ¬Readable behind ∧ getTime (dayName t.wday ++ ch ',' :: SPACE ::
        (clock t ++ SPACE :: (ascii "GMT" ++ 0 :: behind))) lb unset = none := by
  have hmday := t.mday_range
  have hyear := t.year_range
  have hhour := t.hour_range
  have hmin := t.min_range
  have hsec := t.sec_range
  have hcomma : ∀ i, ch ',' ∉ dayName i := by decide
  have hspace : ∀ i, SPACE ∉ monthName i := by decide
  have hnames : (dayName t.wday).length < 30 ∧ (monthName t.mon).length < 30 := by
    rw [length_dayName, length_monthName]
    exact ⟨by decide, by decide⟩
  have hmonthNe : monthName t.mon ≠ [] := by
    rw [← List.length_pos_iff, length_monthName]
    decide
  have hdayNe : dayText t.mday ≠ [] := by
    unfold dayText
    split_ifs <;> exact List.cons_ne_nil _ _
  have hdayLength : (dayText t.mday).length < 30 := by
    unfold dayText
    split_ifs
    · exact (by decide : 1 < 30)
    · rw [length_two]
      decide
  have hdayValue := leadingNumber_dayText (show t.mday < 100 by omega)
  have hyearValue := leadingNumber_decimal t.year
  have hnoDigit : isDigit SPACE = false ∧ isDigit COLON = false := by decide
  obtain ⟨lb₁, h₁⟩ : ∃ lb₁, ∀ str, scan (ch ',') true lb (dayName t.wday ++ ch ',' :: str) = some (lb₁, str) :=
    ⟨_, fun str => scan_word (hcomma t.wday) (Or.inl rfl) hnames.1 lb str⟩
  obtain ⟨lb₂, h₂, v₂⟩ := scan_number hdayNe (digits_dayText (by omega)) hnoDigit.1 hdayLength (by omega) lb₁
    (monthName t.mon ++ SPACE :: (decimal t.year ++ SPACE :: (two t.hour ++ COLON :: (two t.min ++ COLON ::
      (two t.sec ++ SPACE :: (ascii "GMT" ++ 0 :: behind))))))
  obtain ⟨lb₃, h₃⟩ : ∃ lb₃, ∀ str, scan SPACE false lb₂ (monthName t.mon ++ SPACE :: str) = some (lb₃, str) :=
    ⟨_, fun str => scan_word (hspace t.mon) (Or.inr hmonthNe) hnames.2 lb₂ str⟩
  obtain ⟨lb₄, h₄, v₄⟩ := scan_number (decimal_ne_nil t.year) (fun b hb => isDigit_of_mem_decimal hb) hnoDigit.1
    (by rw [length_decimal_year]; decide) (by omega) lb₃ (two t.hour ++ COLON :: (two t.min ++ COLON ::
      (two t.sec ++ SPACE :: (ascii "GMT" ++ 0 :: behind))))
  obtain ⟨lb₅, h₅, v₅⟩ := scan_two (show t.hour < 100 by omega) hnoDigit.2 lb₄ (two t.min ++ COLON ::
    (two t.sec ++ SPACE :: (ascii "GMT" ++ 0 :: behind)))
  obtain ⟨lb₆, h₆, v₆⟩ := scan_two (show t.min < 100 by omega) hnoDigit.2 lb₅
    (two t.sec ++ SPACE :: (ascii "GMT" ++ 0 :: behind))
  have hclock : clock t ++ SPACE :: (ascii "GMT" ++ 0 :: behind) = dayText t.mday ++ SPACE :: (monthName t.mon ++
      SPACE :: (decimal t.year ++ SPACE :: (two t.hour ++ COLON :: (two t.min ++ COLON :: (two t.sec ++
        SPACE :: (ascii "GMT" ++ 0 :: behind)))))) := by
    simp only [clock, List.append_assoc, List.cons_append]
  unfold getTime
  rw [hclock]
  simp only [h₁, h₂, h₃, h₄, h₅, h₆, Option.bind_eq_bind, Option.bind_some, List.tail_cons]
  rcases scan_sec (show t.sec < 100 by omega) lb₆ behind with ⟨hreadable, lb₇, str, h₇, v₇⟩ | ⟨hnot, h₇⟩
  · left
    refine ⟨hreadable, ?_⟩
    rw [h₇, Option.bind_some, v₂, v₄, v₅, v₆, v₇, hdayValue, hyearValue]
    rfl
  · right
    refine ⟨hnot, ?_⟩
    rw [h₇]
    rfl

/-! ## The round trip -/

/-- The string of the time is read back: `behind` is what memory has behind it, and `lb` and `unset` are what
the stack has. -/
def RoundTrips (wide : Bool) (ltime : Int) (behind lb : Str) (unset : StructTm) : Prop :=
  ∃ gmTime text t, gmtime ltime = some gmTime ∧ getRFC822GMTTime wide gmTime = some text ∧
    getTime (cstr text ++ 0 :: behind) lb unset = some t ∧ t.tm_year = gmTime.year - 1900 ∧
    t.tm_mon = (gmTime.mon : Nat) ∧ t.tm_mday = gmTime.mday ∧ t.tm_hour = gmTime.hour ∧ t.tm_min = gmTime.min ∧
    t.tm_sec = gmTime.sec

theorem zero_notMem_date (t : Tm) :
    (0 : Byte) ∉ dayName t.wday ++ ch ',' :: SPACE :: (clock t ++ SPACE :: ascii "GMT") := by
  have hmday := t.mday_range
  have hhour := t.hour_range
  have hmin := t.min_range
  have hsec := t.sec_range
  have hdigits : ∀ word : Str, (∀ b ∈ word, isDigit b = true) → (0 : Byte) ∉ word := fun word h hmem =>
    absurd (h 0 hmem) (by decide)
  have hdays : ∀ i, (0 : Byte) ∉ dayName i := by decide
  have hmonths : ∀ i, (0 : Byte) ∉ monthName i := by decide
  have hmarks : (0 : Byte) ≠ ch ',' ∧ (0 : Byte) ≠ SPACE ∧ (0 : Byte) ≠ COLON ∧ (0 : Byte) ∉ ascii "GMT" := by decide
  simp only [clock, List.mem_append, List.mem_cons, hmarks, hdays, hmonths, false_or, or_false]
  simp only [hdigits _ (digits_dayText (show t.mday < 100 by omega)), hdigits _ (digits_two (show t.hour < 100 by omega)),
    hdigits _ (digits_two (show t.min < 100 by omega)), hdigits _ (digits_two (show t.sec < 100 by omega)),
    hdigits _ fun b hb => isDigit_of_mem_decimal hb, or_self, not_false_eq_true]

theorem cstr_date (t : Tm) :
    cstr (dayName t.wday ++ ch ',' :: SPACE :: (clock t ++ SPACE :: (ascii "GMT" ++ [0, 0, 0]))) =
      dayName t.wday ++ ch ',' :: SPACE :: (clock t ++ SPACE :: ascii "GMT") := by
  have hshape : dayName t.wday ++ ch ',' :: SPACE :: (clock t ++ SPACE :: (ascii "GMT" ++ [0, 0, 0])) =
      (dayName t.wday ++ ch ',' :: SPACE :: (clock t ++ SPACE :: ascii "GMT")) ++ [0, 0, 0] := by
    simp only [List.append_assoc, List.cons_append]
  have hzeros : cstr [0, 0, 0] = [] := by decide
  rw [hshape, cstr_append (zero_notMem_date t), hzeros, List.append_nil]

/-- What is passed for a date, in one of the two cases. -/
theorem passed_iff (t : Tm) (wide : Bool) (behind lb : Str) (unset : StructTm) (p : StructTm → Prop) :
    (∃ text passed, getRFC822GMTTime wide t = some text ∧ getTime (cstr text ++ 0 :: behind) lb unset = some passed ∧
        p passed) ↔ (wide = true ∨ t.year < 8100) ∧ Readable behind ∧ p (read t unset) := by
  by_cases hwide : wide = true ∨ t.year < 8100
  · have htext := getRFC822GMTTime_eq hwide
    have hmemory : cstr (dayName t.wday ++ ch ',' :: SPACE :: (clock t ++ SPACE :: (ascii "GMT" ++ [0, 0, 0]))) ++
        0 :: behind = dayName t.wday ++ ch ',' :: SPACE :: (clock t ++ SPACE :: (ascii "GMT" ++ 0 :: behind)) := by
      rw [cstr_date]
      simp only [List.append_assoc, List.cons_append]
    rw [htext]
    rcases getTime_eq t behind lb unset with ⟨hreadable, hget⟩ | ⟨hnot, hget⟩
    · constructor
      · rintro ⟨text, passed, hsome, hpassed, hp⟩
        obtain rfl := Option.some.inj hsome
        rw [hmemory, hget] at hpassed
        obtain rfl := Option.some.inj hpassed
        exact ⟨hwide, hreadable, hp⟩
      · rintro ⟨-, -, hp⟩
        exact ⟨_, _, rfl, by rw [hmemory, hget], hp⟩
    · constructor
      · rintro ⟨text, passed, hsome, hpassed, -⟩
        obtain rfl := Option.some.inj hsome
        rw [hmemory, hget] at hpassed
        cases hpassed
      · rintro ⟨-, hreadable, -⟩
        exact absurd hreadable hnot
  · rw [getRFC822GMTTime_none hwide]
    constructor
    · rintro ⟨text, passed, hsome, -⟩
      cases hsome
    · exact fun h => absurd h.1 hwide

/-- **A date is read back** when the month is on the stack already. -/
theorem roundTrips_iff {ltime : Int} {t : Tm} (htime : gmtime ltime = some t) (wide : Bool) (behind lb : Str)
    (unset : StructTm) : RoundTrips wide ltime behind lb unset ↔
      (wide = true ∨ t.year < 8100) ∧ Readable behind ∧ unset.tm_mon = (t.mon : Nat) := by
  have hsplit : RoundTrips wide ltime behind lb unset ↔ ∃ text passed, getRFC822GMTTime wide t = some text ∧
      getTime (cstr text ++ 0 :: behind) lb unset = some passed ∧ passed.tm_year = t.year - 1900 ∧
      passed.tm_mon = (t.mon : Nat) ∧ passed.tm_mday = t.mday ∧ passed.tm_hour = t.hour ∧ passed.tm_min = t.min ∧
      passed.tm_sec = t.sec := by
    constructor
    · rintro ⟨gmTime, text, passed, hgm, hrest⟩
      obtain rfl := Option.some.inj (htime.symm.trans hgm)
      exact ⟨text, passed, hrest⟩
    · rintro ⟨text, passed, hrest⟩
      exact ⟨t, text, passed, htime, hrest⟩
  rw [hsplit, passed_iff t wide behind lb unset fun passed => passed.tm_year = t.year - 1900 ∧
    passed.tm_mon = (t.mon : Nat) ∧ passed.tm_mday = t.mday ∧ passed.tm_hour = t.hour ∧ passed.tm_min = t.min ∧
    passed.tm_sec = t.sec]
  simp [read]

example : (gmtime 784111777).bind (getRFC822GMTTime false) =
    some (ascii "Sun, 6 Nov 1994 08:49:37 GMT" ++ [0, 0, 0]) := by decide +kernel

/-- A stack of zeros, as for a date in January. -/
def zeros : StructTm := ⟨0, 0, 0, 0, 0, 0, 0, 0, 0⟩

theorem gmtime_zero : ∃ t : Tm, gmtime 0 = some t ∧ t.year = 1970 ∧ t.mon = 0 := by
  have hepoch : ((gmtime 0).map fun t => (t.year, t.mon)) = some (1970, 0) := by decide +kernel
  obtain ⟨t, ht, heq⟩ := Option.map_eq_some_iff.mp hepoch
  exact ⟨t, ht, (Prod.mk.inj heq).1, (Prod.mk.inj heq).2⟩

theorem roundTrips_zero : ∃ t : Tm, gmtime 0 = some t ∧ RoundTrips false 0 [COLON] [] zeros := by
  obtain ⟨t, htime, hyear, hmon⟩ := gmtime_zero
  refine ⟨t, htime, (roundTrips_iff htime false [COLON] [] zeros).mpr ⟨Or.inr (by omega), Or.inr ?_, ?_⟩⟩
  · exact List.mem_singleton_self COLON
  · rw [hmon]
    rfl

/-- In February a stack of zeros gives another month. -/
theorem not_roundTrips : ¬∀ (wide : Bool) (ltime : Int) (t : Tm) (behind lb : Str) (unset : StructTm),
    gmtime ltime = some t → RoundTrips wide ltime behind lb unset := by
  intro hall
  have hfebruary : ((gmtime 2678400).map fun t => t.mon) = some 1 := by decide +kernel
  obtain ⟨t, htime, hmon⟩ := Option.map_eq_some_iff.mp hfebruary
  obtain ⟨gmTime, text, passed, hgm, htext, hpassed, -, hmonth, -⟩ := hall true 2678400 t [COLON] [] zeros htime
  obtain rfl := Option.some.inj (htime.symm.trans hgm)
  have hboth := (passed_iff t true [COLON] [] zeros fun passed => passed.tm_mon = (t.mon : Nat)).mp
    ⟨text, passed, htext, hpassed, hmonth⟩
  rw [hmon] at hboth
  have hzero : zeros.tm_mon = ((1 : Fin 12) : Nat) := hboth.2.2
  exact absurd hzero (by decide)

end MyServer.HttpDate
