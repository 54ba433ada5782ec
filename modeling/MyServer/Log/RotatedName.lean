import Mathlib.Data.List.DropRight
import MyServer.Decimal
import MyServer.Files.FileSystem
import MyServer.Lib.Separated

/-!
# The name that a log file rotates to

`FileStream::makeNewFileName` (file_stream.cpp), with the local time as `getRFC822LocalTime` writes it
(stringutils.cpp).
-/

open MyServer.Files (completePath splitPath dot slash)
open MyServer.Separated (fields fields_inj)

namespace MyServer.Rotation

/-- `struct tm`, of a year of four digits. -/
structure Tm where
  wday : Fin 7
  mday : Nat
  mon : Fin 12
  year : Nat
  hour : Nat
  min : Nat
  sec : Nat
  mday_range : 1 ≤ mday ∧ mday ≤ 31
  year_range : 1000 ≤ year ∧ year ≤ 9999
  hour_range : hour ≤ 23
  min_range : min ≤ 59
  sec_range : sec ≤ 60

def dayName (i : Fin 7) : Str :=
  [ascii "Sun", ascii "Mon", ascii "Tue", ascii "Wed", ascii "Thu", ascii "Fri", ascii "Sat"].get i

def monthName (i : Fin 12) : Str :=
  [ascii "Jan", ascii "Feb", ascii "Mar", ascii "Apr", ascii "May", ascii "Jun", ascii "Jul", ascii "Aug",
    ascii "Sep", ascii "Oct", ascii "Nov", ascii "Dec"].get i

def SPACE : Byte := ch ' '
def COLON : Byte := ch ':'

def digit (n : Nat) : Byte := UInt8.ofNat (48 + n)

/-- `%.2d`. -/
def two (n : Nat) : Str := [digit (n / 10), digit (n % 10)]

/-- The characters are taken from their places in `asctime`, where a day below ten has a blank before it. -/
def getRFC822LocalTime (t : Tm) : Str :=
  let asct8 := if t.mday < 10 then SPACE else digit (t.mday / 10)
  let asct9 := digit (t.mday % 10)
  dayName t.wday ++ [ch ','] ++ (if asct8 ≠ SPACE then [SPACE] else []) ++ [asct8, asct9, SPACE] ++
    monthName t.mon ++ [SPACE] ++ decimal t.year ++ [SPACE] ++
    two t.hour ++ [COLON] ++ two t.min ++ [COLON] ++ two t.sec ++ [SPACE]

def trim (s : Str) : Str := (s.rdropWhile (· = SPACE)).dropWhile (· = SPACE)

/-- The time in the new name. -/
def stamp (t : Tm) : Str :=
  (trim (((getRFC822LocalTime t).drop 5).take 32)).map fun c => if c = SPACE ∨ c = COLON then dot else c

/-- All behind the last dot. -/
def getFileExt (filename : Str) : Str :=
  if dot ∈ filename then (filename.reverse.takeWhile (· ≠ dot)).reverse else []

/-- `filename.substr (0, filename.find (sub))`. -/
def untilFirst (sub : Str) : Str → Str
  | [] => []
  | c :: cs => if sub <+: c :: cs then [] else c :: untilFirst sub cs

/-- What of a file's name comes first in the new one. -/
def stem (filename : Str) : Str :=
  if getFileExt filename ≠ [] then untilFirst (dot :: getFileExt filename) filename else filename

/-- The file's part of the new name. -/
def rotated (filename : Str) (t : Tm) : Str :=
  stem filename ++ [dot] ++ stamp t ++
    (if getFileExt filename ≠ [] then [dot] else []) ++ getFileExt filename

def makeNewFileName (wd oldFileName : Str) (t : Tm) : Str :=
  let path := splitPath (completePath wd oldFileName)
  path.1 ++ rotated path.2 t

/-! ## The stamp -/

def dayText (n : Nat) : Str := if n < 10 then [digit n] else two n

/-- The fields of a stamp. -/
def stampFields (t : Tm) : List Str :=
  [dayText t.mday, monthName t.mon, decimal t.year, two t.hour, two t.min, two t.sec]

theorem isDigit_digit {n : Nat} (h : n < 10) : isDigit (digit n) = true := by
  unfold isDigit digit
  rw [UInt8.toNat_ofNat_of_lt' (by simp only [UInt8.size]; omega)]
  simp only [decide_eq_true_eq]
  omega

/-- Nothing in a field is a dot, nor is made one. -/
def Plain (s : Str) : Prop := ∀ c ∈ s, c ≠ SPACE ∧ c ≠ COLON ∧ c ≠ dot

theorem plain_of_digits {s : Str} (h : ∀ c ∈ s, isDigit c = true) : Plain s := by
  intro c hc
  have hdigit := h c hc
  refine ⟨?_, ?_, ?_⟩
  · rintro rfl
    exact absurd hdigit (by decide)
  · rintro rfl
    exact absurd hdigit (by decide)
  · rintro rfl
    exact absurd hdigit (by decide)

theorem digits_two {n : Nat} (h : n < 100) : ∀ c ∈ two n, isDigit c = true := by
  unfold two
  rw [List.forall_mem_cons, List.forall_mem_cons]
  exact ⟨isDigit_digit (by omega), isDigit_digit (by omega), nofun⟩

theorem digits_dayText {n : Nat} (h : n < 100) : ∀ c ∈ dayText n, isDigit c = true := by
  unfold dayText
  split_ifs with hlt
  · rw [List.forall_mem_singleton]
    exact isDigit_digit hlt
  · exact digits_two h

theorem plain_monthName (i : Fin 12) : Plain (monthName i) := by
  revert i
  unfold Plain
  decide

theorem plain_fields (t : Tm) : ∀ x ∈ stampFields t, Plain x := by
  have hmday := t.mday_range
  have hhour := t.hour_range
  have hmin := t.min_range
  have hsec := t.sec_range
  unfold stampFields
  simp only [List.forall_mem_cons]
  exact ⟨plain_of_digits (digits_dayText (by omega)), plain_monthName _,
    plain_of_digits fun c hc => isDigit_of_mem_decimal hc, plain_of_digits (digits_two (by omega)),
    plain_of_digits (digits_two (by omega)), plain_of_digits (digits_two (by omega)), nofun⟩

theorem dot_notMem {s : Str} (h : Plain s) : dot ∉ s := fun hmem => (h dot hmem).2.2 rfl

theorem map_plain {s : Str} (h : Plain s) : s.map (fun c => if c = SPACE ∨ c = COLON then dot else c) = s := by
  rw [List.map_congr_left (g := id), List.map_id]
  intro c hc
  rw [if_neg (not_or.mpr ⟨(h c hc).1, (h c hc).2.1⟩)]
  rfl

/-- What is left of the time between its blanks. -/
def clock (t : Tm) : Str :=
  dayText t.mday ++ SPACE :: monthName t.mon ++ SPACE :: decimal t.year ++ SPACE :: two t.hour ++
    COLON :: two t.min ++ COLON :: two t.sec

theorem getRFC822LocalTime_eq (t : Tm) :
    getRFC822LocalTime t = dayName t.wday ++ [ch ',', SPACE] ++ clock t ++ [SPACE] := by
  have hdigit : ∀ n, n < 10 → digit n ≠ SPACE := fun n hn heq => absurd (isDigit_digit hn) (by rw [heq]; decide)
  have hmday := t.mday_range
  unfold getRFC822LocalTime clock dayText
  by_cases hlt : t.mday < 10
  · simp [hlt, Nat.mod_eq_of_lt hlt]
  · simp [hlt, hdigit (t.mday / 10) (by omega), two]

theorem length_dayName (i : Fin 7) : (dayName i).length = 3 := by
  revert i
  decide

theorem length_monthName (i : Fin 12) : (monthName i).length = 3 := by
  revert i
  decide

theorem length_clock (t : Tm) : (clock t).length ≤ 20 := by
  have hyear : (decimal t.year).length ≤ 4 := by
    rw [length_decimal_le_iff (by norm_num)]
    have hrange := t.year_range
    omega
  have hday : (dayText t.mday).length ≤ 2 := by
    unfold dayText
    split_ifs
    · exact Nat.one_le_ofNat
    · exact le_refl 2
  unfold clock
  simp only [List.length_append, List.length_cons, length_monthName, two, List.length_nil]
  omega

theorem trim_clock (t : Tm) : trim (clock t ++ [SPACE]) = clock t := by
  have hmday := t.mday_range
  have hsec := t.sec_range
  have hfirst : ∃ c cs, clock t = c :: cs ∧ c ≠ SPACE := by
    have hplain := plain_of_digits (digits_dayText (by omega : t.mday < 100))
    have hne : dayText t.mday ≠ [] := by
      unfold dayText
      split_ifs
      · exact List.cons_ne_nil _ _
      · exact List.cons_ne_nil _ _
    obtain ⟨c, cs, hday⟩ := List.exists_cons_of_ne_nil hne
    refine ⟨c, _, by unfold clock; rw [hday]; rfl, ?_⟩
    exact (hplain c (hday ▸ List.mem_cons_self)).1
  have hlast : ∃ front c, clock t = front ++ [c] ∧ c ≠ SPACE := by
    refine ⟨dayText t.mday ++ SPACE :: monthName t.mon ++ SPACE :: decimal t.year ++ SPACE :: two t.hour ++
      COLON :: two t.min ++ COLON :: [digit (t.sec / 10)], digit (t.sec % 10), by simp [clock, two], ?_⟩
    exact (plain_of_digits (digits_two (by omega : t.sec < 100)) _ (by simp [two])).1
  obtain ⟨c, cs, hcons, hc⟩ := hfirst
  obtain ⟨front, d, hsnoc, hd⟩ := hlast
  unfold trim
  rw [List.rdropWhile_concat_pos _ _ _ (by simp)]
  conv_lhs => rw [hsnoc]
  rw [List.rdropWhile_concat_neg _ _ _ (by simpa using hd), ← hsnoc, hcons,
    List.dropWhile_cons_of_neg (by simpa using hc)]

/-- A stamp is six fields, with a dot between them. -/
theorem stamp_eq (t : Tm) : dot :: stamp t = fields dot (stampFields t) := by
  have hdrop : ((getRFC822LocalTime t).drop 5).take 32 = clock t ++ [SPACE] := by
    have hlen : (dayName t.wday ++ [ch ',', SPACE]).length = 5 := by
      rw [List.length_append, length_dayName]
      rfl
    rw [getRFC822LocalTime_eq, List.append_assoc, ← hlen, List.drop_left, List.take_of_length_le]
    have hclock := length_clock t
    rw [List.length_append, List.length_singleton]
    omega
  have hplain := plain_fields t
  unfold stampFields at hplain
  simp only [List.forall_mem_cons] at hplain
  obtain ⟨hday, hmonth, hyear, hhour, hmin, hsec, -⟩ := hplain
  unfold stamp
  rw [hdrop, trim_clock]
  unfold clock stampFields
  simp only [List.map_append, List.map_cons, map_plain hday, map_plain hmonth, map_plain hyear, map_plain hhour,
    map_plain hmin, map_plain hsec, true_or, or_true, if_true, Separated.fields_cons, Separated.fields_nil]
  simp

/-! ## The name -/

def extField (filename : Str) : List Str := if getFileExt filename ≠ [] then [getFileExt filename] else []

theorem dot_notMem_ext (filename : Str) : dot ∉ getFileExt filename := by
  unfold getFileExt
  split_ifs
  · intro hmem
    have hdot := List.mem_takeWhile_imp (List.mem_reverse.mp hmem)
    simp at hdot
  · exact List.not_mem_nil

theorem rotated_eq (filename : Str) (t : Tm) :
    rotated filename t = stem filename ++ fields dot (stampFields t ++ extField filename) := by
  unfold rotated extField
  rw [Separated.fields_append, ← stamp_eq]
  split_ifs with hext
  · simp
  · simp [not_not.mp hext]

/-- A day is no month. -/
theorem dayText_ne_monthName {n : Nat} (h : n < 100) (i : Fin 12) : dayText n ≠ monthName i := by
  intro heq
  have hmonth : ∀ i, ∃ c ∈ monthName i, isDigit c = false := by decide
  obtain ⟨c, hc, hdigit⟩ := hmonth i
  rw [digits_dayText h c (heq ▸ hc)] at hdigit
  exact absurd hdigit nofun

theorem fields_no_dot (t : Tm) (filename : Str) : ∀ x ∈ stampFields t ++ extField filename, dot ∉ x := by
  intro x hx
  rcases List.mem_append.mp hx with hx | hx
  · exact dot_notMem (plain_fields t x hx)
  · unfold extField at hx
    split_ifs at hx
    · exact List.mem_singleton.mp hx ▸ dot_notMem_ext filename
    · exact absurd hx List.not_mem_nil

/-- A file without an extension never rotates onto the name of one with an extension. -/
theorem rotated_ne_of_ext {f g : Str} (hf : getFileExt f = []) (hg : getFileExt g ≠ []) (t u : Tm) :
    rotated f t ≠ rotated g u := by
  intro heq
  have hmday := t.mday_range
  have hfields : stampFields t = (stampFields u ++ extField g).tail := by
    rw [rotated_eq, rotated_eq] at heq
    have hfield : extField f = [] := if_neg (not_not.mpr hf)
    have hcons : stem g ++ fields dot (stampFields u ++ extField g) =
        (stem g ++ dot :: dayText u.mday) ++ fields dot (stampFields u ++ extField g).tail := by
      simp [stampFields]
    rw [hfield, List.append_nil, hcons] at heq
    refine (fields_inj (fun x hx => dot_notMem (plain_fields t x hx))
      (fun x hx => fields_no_dot u g x (List.mem_of_mem_tail hx)) ?_ heq).2
    unfold extField
    rw [if_pos hg]
    rfl
  exact dayText_ne_monthName (by omega) u.mon (congrArg (List.headD · []) hfields)

/-- **Two names** can rotate onto one another's when and only when they have the same extension and are the
same up to the first place where it stands. -/
theorem rotated_meet_iff (f g : Str) :
    (∃ t u, rotated f t = rotated g u) ↔ stem f = stem g ∧ getFileExt f = getFileExt g := by
  constructor
  · rintro ⟨t, u, heq⟩
    by_cases hf : getFileExt f = []
    · by_cases hg : getFileExt g = []
      · rw [rotated_eq, rotated_eq] at heq
        have hff : extField f = [] := if_neg (not_not.mpr hf)
        have hgg : extField g = [] := if_neg (not_not.mpr hg)
        obtain ⟨hstem, -⟩ := fields_inj (fields_no_dot t f) (fields_no_dot u g) (by simp [hff, hgg, stampFields]) heq
        exact ⟨hstem, hf.trans hg.symm⟩
      · exact absurd heq (rotated_ne_of_ext hf hg t u)
    · by_cases hg : getFileExt g = []
      · exact absurd heq.symm (rotated_ne_of_ext hg hf u t)
      · rw [rotated_eq, rotated_eq] at heq
        have hff : extField f = [getFileExt f] := if_pos hf
        have hgg : extField g = [getFileExt g] := if_pos hg
        obtain ⟨hstem, hfields⟩ :=
          fields_inj (fields_no_dot t f) (fields_no_dot u g) (by simp [hff, hgg, stampFields]) heq
        rw [hff, hgg] at hfields
        have hlast := congrArg (List.getLast? ·) hfields
        simp only [List.getLast?_append_cons, List.getLast?_singleton, Option.some.injEq] at hlast
        exact ⟨hstem, hlast⟩
  · rintro ⟨hstem, hext⟩
    have hfields : extField f = extField g := by
      unfold extField
      rw [hext]
    let t : Tm := ⟨0, 1, 0, 2000, 0, 0, 0, by decide, by decide, by decide, by decide, by decide⟩
    exact ⟨t, t, by rw [rotated_eq, rotated_eq, hstem, hfields]⟩

example : stem (ascii "a.log.log") = stem (ascii "a.log") := by decide

end MyServer.Rotation
