import MyServer.Control.Header
import MyServer.Http.RequestFields
import MyServer.Http.ResponseRoundTrip

/-!
# A control request that is written and read

The header in the form that control_header.cpp gives and pycontrol.py sends: a command, a version and options, and
then the lines.
-/

open MyServer.RequestHeader (getCharInString getCharInString_some getCharInString_append)
open MyServer.ResponseHeader (atoi atoi_decimalInt)

namespace MyServer.Control

/-! ## The header that is written -/

/-- A line behind the first one. `len` has the text of the number. -/
inductive Line where
  | auth (login password : Str)
  | connection (text : Str)
  | len (text : Str)
  | other (text : Str)

def Line.text : Line → Str
  | .auth login password => ascii "/AUTH " ++ (login ++ ch ':' :: password)
  | .connection text => ascii "/CONNECTION " ++ text
  | .len text => ascii "/LEN " ++ text
  | .other text => text

/-- What a line says. Eleven characters of a number count. -/
def Line.enter (header : ControlHeader) : Line → ControlHeader
  | .auth login password => { header with authLogin := login, authPassword := password }
  | .connection text => { header with connection := text }
  | .len text => { header with length := atoi (text.take 11) }
  | .other _ => header

/-- A text with none of the characters in it, and no NUL. -/
def Clean (characters text : Str) : Prop := ∀ b ∈ text, b ≠ 0 ∧ b ∉ characters

/-- One of the three lines that say something. -/
def Known (text : Str) : Prop :=
  ascii "/AUTH " <+: text ∨ ascii "/CONNECTION " <+: text ∨ ascii "/LEN " <+: text

/-- The fields have the sizes that the header has for them. -/
def Line.Fits : Line → Prop
  | .auth login password =>
    Clean [ch ':', ch '\r'] login ∧ login.length < 64 ∧ Clean CR password ∧ password.length < 64
  | .connection text => Clean CR text ∧ text.length < 32
  | .len text => ∃ n : Int, text = decimalInt n ∧ -2 ^ 31 ≤ n ∧ n < 2 ^ 31
  | .other text => Clean CR text ∧ text ≠ [] ∧ ¬Known text

def linesText (lines : List Line) : Str := lines.flatMap fun l => l.text ++ crlf

structure Request where
  command : Str
  version : Str
  /-- `none` where not even the space is behind the version. -/
  options : Option Str
  lines : List Line
  command_clean : Clean [ch ' '] command
  command_lt : command.length < 32
  version_clean : Clean [ch ' ', ch '\r'] version
  version_lt : version.length < 12
  options_clean : ∀ o ∈ options, Clean CR o
  options_lt : ∀ o ∈ options, o.length < 64
  lines_fit : ∀ l ∈ lines, l.Fits
  lines_le : lines.length ≤ 18

namespace Request

variable (r : Request)

def firstLine : Str :=
  ch '/' :: (r.command ++ ch ' ' :: (r.version ++ r.options.elim [] (List.cons (ch ' ')) ++ crlf))

def render : Str := r.firstLine ++ (linesText r.lines ++ crlf)

/-- The first line, read into a header that had this connection. -/
def start (connection : Str) : ControlHeader :=
  { ControlHeader.reset connection with
    command := r.command
    version := r.version
    cmdOptions := r.options.getD [] }

/-- The fields of the request. Of several lines of a kind the last counts. -/
def header (connection : Str) : ControlHeader := r.lines.foldl Line.enter (r.start connection)

/-- The request is recovered, whatever is behind it. -/
def Recovers (connection data : Str) : Prop :=
  parse_header connection (r.render ++ data) (r.render ++ data).length = .ok (r.header connection) r.render.length

end Request

/-! ## When it is read -/

/-- A space comes within 32 characters. -/
def Spaced (text : Str) : Prop := ch ' ' ∈ (text.take 32).takeWhile (· ≠ 0)

def Line.Short : Line → Prop
  | .auth login password => Clean [ch ':'] login ∧ login.length < 64 ∧ Clean CR password ∧ password.length < 64
  | .connection text | .len text => Clean CR text ∧ text.length < 32
  | .other text => Clean CR text ∧ text ≠ [] ∧ ¬Known text ∧ text.length < 32

/-- The lines are short enough, and from the beginning of each a space is near. -/
def Readable : List Line → Str → Prop
  | [], _ => True
  | l :: lines, behind => l.Short ∧ Spaced (l.text ++ crlf ++ (linesText lines ++ behind)) ∧ Readable lines behind

/-- The options are given and short, and the lines are readable. With no space behind the version, the first 31
characters behind that line hold no line's end, and what is left without the first of them is readable lines that say
the same. -/
def Request.Plain (r : Request) (connection data : Str) : Prop :=
  match r.options with
  | some o => o.length < 32 ∧ Readable r.lines (crlf ++ data)
  | none =>
    ch '\r' ∉ (linesText r.lines ++ crlf).take 31 ∧
      ∃ lines : List Line, lines.length ≤ 18 ∧ linesText lines = (linesText r.lines).tail ∧
        Readable lines (crlf ++ data) ∧ lines.foldl Line.enter (r.start connection) = r.header connection

/-! ## Fields -/

theorem Clean.mono {characters few text : Str} (h : Clean characters text) (hsub : few ⊆ characters) :
    Clean few text :=
  fun b hb => ⟨(h b hb).1, fun hmem => (h b hb).2 (hsub hmem)⟩

theorem Clean.notMem {characters text : Str} {c : Byte} (h : Clean characters text) (hc : c ∈ characters) : c ∉ text :=
  fun hmem => (h c hmem).2 hc

theorem Clean.cstr_eq {characters text : Str} (h : Clean characters text) : cstr text = text :=
  cstr_of_notMem fun hmem => (h 0 hmem).1 rfl

theorem strlcpy_clean {characters text after : Str} {size : Nat} (h : Clean characters text)
    (hlt : text.length < size) : strlcpy (text ++ after) (min (text.length + 1) size) = text := by
  have hsize : min (text.length + 1) size - 1 = text.length := by omega
  rw [strlcpy, hsize, List.take_left, h.cstr_eq]

/-- What of a number fits into `tmp_buff`. -/
theorem strlcpy_number {characters text after : Str} (h : Clean characters text) :
    strlcpy (text ++ after) (min (text.length + 1) 12) = text.take 11 := by
  have hsize : min (text.length + 1) 12 - 1 = min 11 text.length := by omega
  have hclean : Clean characters (text.take 11) := fun b hb => h b (List.mem_of_mem_take hb)
  rw [strlcpy, hsize, ← List.take_take, List.take_left, hclean.cstr_eq]

theorem getCharInString_clean {characters text : Str} {c : Byte} {max : Nat} (h : Clean characters text)
    (hc : c ≠ 0 ∧ c ∈ characters) (after : Str) : getCharInString characters (text ++ c :: after) max =
      if text.length < max then some text.length else none := by
  induction text generalizing max with
  | nil => cases max <;> simp [getCharInString, hc.1, hc.2]
  | cons b text ih =>
    obtain ⟨⟨hzero, hb⟩, htext⟩ := List.forall_mem_cons.mp h
    cases max with
    | zero => rfl
    | succ max =>
      rw [List.cons_append, getCharInString, if_neg hzero, if_neg hb, ih htext, List.length_cons]
      split_ifs <;> first | rfl | omega

theorem getCharInString_one {c : Byte} {text : Str} {max n : Nat} (h : getCharInString [c] text max = some n) :
    ∃ line after, text = line ++ c :: after ∧ line.length = n ∧ Clean [c] line ∧ n < max := by
  induction text generalizing max n with
  | nil => cases h
  | cons b text ih =>
    cases max with
    | zero => cases h
    | succ max =>
      rw [getCharInString] at h
      split_ifs at h with hzero hfound
      · obtain rfl := Option.some.inj h
        obtain rfl := List.mem_singleton.mp hfound
        exact ⟨[], text, rfl, rfl, List.forall_mem_nil _, by omega⟩
      · obtain ⟨m, hm, rfl⟩ := Option.map_eq_some_iff.mp h
        obtain ⟨line, after, rfl, rfl, hline, hlt⟩ := ih hm
        exact ⟨b :: line, after, rfl, rfl, List.forall_mem_cons.mpr ⟨⟨hzero, hfound⟩, hline⟩, by omega⟩

theorem spaced_iff (text : Str) : Spaced text ↔ getCharInString [ch ' '] text 32 ≠ none := by
  unfold Spaced
  generalize 32 = max
  induction text generalizing max with
  | nil => simp [getCharInString]
  | cons b text ih =>
    cases max with
    | zero => simp [getCharInString]
    | succ max =>
      rw [List.take_succ_cons, getCharInString]
      by_cases hzero : b = 0
      · simp [hzero]
      · rw [List.takeWhile_cons_of_pos (by simpa using hzero), List.mem_cons, if_neg hzero]
        by_cases hb : b = ch ' '
        · simp [hb]
        · rw [if_neg (by simpa using hb), ih, Ne, Ne, Option.map_eq_none_iff]
          exact or_iff_right (Ne.symm hb)

/-! ## A line -/

section

variable {header : ControlHeader} {after : Str}

theorem known_stop {text : Str} (after : Str) : Known (text ++ ch '\r' :: after) ↔ Known text := by
  have hcr : ch '\r' ∉ ascii "/AUTH " ∧ ch '\r' ∉ ascii "/CONNECTION " ∧ ch '\r' ∉ ascii "/LEN " := by decide
  unfold Known
  rw [isPrefix_stop hcr.1, isPrefix_stop hcr.2.1, isPrefix_stop hcr.2.2]

theorem not_known_iff {text : Str} : ¬Known text ↔
    ¬ascii "/AUTH " <+: text ∧ ¬ascii "/CONNECTION " <+: text ∧ ¬ascii "/LEN " <+: text := by
  rw [Known, not_or, not_or]

theorem length_auth (login password : Str) :
    (Line.auth login password).text.length = 6 + (login.length + (password.length + 1)) := by
  rw [Line.text, List.length_append, List.length_append, List.length_cons]
  rfl

theorem length_connection (text : Str) : (Line.connection text).text.length = 12 + text.length := by
  rw [Line.text, List.length_append]
  rfl

theorem length_len (text : Str) : (Line.len text).text.length = 5 + text.length := by
  rw [Line.text, List.length_append]
  rfl

/-- **A short line** is read as what it says. -/
theorem parseLine_short {l : Line} (hl : l.Short) :
    parseLine header (l.text ++ ch '\r' :: after) = some (l.enter header, l.text.length + 2) := by
  have hcr : ch '\r' ≠ 0 ∧ ch '\r' ∈ CR := by decide
  have hcolon : ch ':' ≠ 0 ∧ ch ':' ∈ [ch ':'] := by decide
  cases l with
  | auth login password =>
    obtain ⟨hlogin, hlt, hpassword, hlt'⟩ := hl
    have htext : (Line.auth login password).text ++ ch '\r' :: after =
        ascii "/AUTH " ++ (login ++ ch ':' :: (password ++ ch '\r' :: after)) := by
      simp [Line.text]
    have hdrop : (ascii "/AUTH " ++ (login ++ ch ':' :: (password ++ ch '\r' :: after))).drop 6 =
        login ++ ch ':' :: (password ++ ch '\r' :: after) := rfl
    have hdrop' : (ascii "/AUTH " ++ (login ++ ch ':' :: (password ++ ch '\r' :: after))).drop
        (6 + (login.length + 1)) = password ++ ch '\r' :: after := by
      rw [← List.drop_drop, hdrop, ← List.drop_drop, List.drop_left]
      rfl
    rw [htext, parseLine, if_pos (List.prefix_append _ _), hdrop, getCharInString_clean hlogin hcolon, if_pos hlt]
    dsimp only
    rw [hdrop', getCharInString_clean hpassword hcr, if_pos hlt']
    dsimp only
    rw [strlcpy_clean hlogin hlt, strlcpy_clean hpassword hlt', length_auth,
      show 6 + (login.length + 1) + (password.length + 2) = 6 + (login.length + (password.length + 1)) + 2 by omega]
    rfl
  | connection text =>
    obtain ⟨htext, hlt⟩ := hl
    have hdrop : ((Line.connection text).text ++ ch '\r' :: after).drop 12 = text ++ ch '\r' :: after := rfl
    have hauth : ¬ascii "/AUTH " <+: (Line.connection text).text ++ ch '\r' :: after := by
      rw [← List.isPrefixOf_iff_prefix]
      exact Bool.false_ne_true
    have hpre : ascii "/CONNECTION " <+: (Line.connection text).text ++ ch '\r' :: after := by
      rw [Line.text, List.append_assoc]
      exact List.prefix_append _ _
    rw [parseLine, if_neg hauth, if_pos hpre, hdrop, getCharInString_clean htext hcr, if_pos hlt]
    dsimp only
    rw [strlcpy_clean htext hlt, length_connection, Nat.add_assoc]
    rfl
  | len text =>
    obtain ⟨htext, hlt⟩ := hl
    have hdrop : ((Line.len text).text ++ ch '\r' :: after).drop 5 = text ++ ch '\r' :: after := rfl
    have hauth : ¬ascii "/AUTH " <+: (Line.len text).text ++ ch '\r' :: after := by
      rw [← List.isPrefixOf_iff_prefix]
      exact Bool.false_ne_true
    have hconnection : ¬ascii "/CONNECTION " <+: (Line.len text).text ++ ch '\r' :: after := by
      rw [← List.isPrefixOf_iff_prefix]
      exact Bool.false_ne_true
    have hpre : ascii "/LEN " <+: (Line.len text).text ++ ch '\r' :: after := by
      rw [Line.text, List.append_assoc]
      exact List.prefix_append _ _
    rw [parseLine, if_neg hauth, if_neg hconnection, if_pos hpre, hdrop, getCharInString_clean htext hcr, if_pos hlt]
    dsimp only
    rw [strlcpy_number htext, length_len, Nat.add_assoc]
    rfl
  | other text =>
    obtain ⟨htext, -, hknown, hlt⟩ := hl
    obtain ⟨hauth, hconnection, hlen⟩ := not_known_iff.mp (mt (known_stop after).mp hknown)
    rw [Line.text, parseLine, if_neg hauth, if_neg hconnection, if_neg hlen, getCharInString_clean htext hcr,
      if_pos hlt]
    rfl

/-- **A line that is read** is a short one, or an empty one. -/
theorem exists_line {header' : ControlHeader} {field : Str} {n : Nat} (h : parseLine header field = some (header', n)) :
    ∃ (l : Line) (after : Str), field = l.text ++ ch '\r' :: after ∧ n = l.text.length + 2 ∧
      header' = l.enter header ∧ (l.text ≠ [] → l.Short) := by
  unfold parseLine at h
  split_ifs at h with hauth hconnection hlen
  · obtain ⟨field, rfl⟩ := hauth
    rw [show (ascii "/AUTH " ++ field).drop 6 = field from rfl] at h
    split at h
    · cases h
    rename_i i hi
    obtain ⟨login, rest, rfl, rfl, hlogin, hlt⟩ := getCharInString_one hi
    have hdrop : (ascii "/AUTH " ++ (login ++ ch ':' :: rest)).drop (6 + (login.length + 1)) = rest := by
      rw [← List.drop_drop, ← List.drop_drop]
      change ((login ++ ch ':' :: rest).drop login.length).drop 1 = rest
      rw [List.drop_left]
      rfl
    dsimp only at h
    rw [hdrop] at h
    split at h
    · cases h
    rename_i j hj
    obtain ⟨password, after, rfl, rfl, hpassword, hlt'⟩ := getCharInString_one hj
    rw [strlcpy_clean hlogin hlt, strlcpy_clean hpassword hlt'] at h
    obtain ⟨rfl, rfl⟩ := Prod.mk.inj (Option.some.inj h)
    refine ⟨.auth login password, after, ?_, ?_, rfl, fun _ => ⟨hlogin, hlt, hpassword, hlt'⟩⟩
    · simp [Line.text]
    · rw [length_auth]
      omega
  · obtain ⟨field, rfl⟩ := hconnection
    rw [show (ascii "/CONNECTION " ++ field).drop 12 = field from rfl] at h
    split at h
    · cases h
    rename_i i hi
    obtain ⟨text, after, rfl, rfl, htext, hlt⟩ := getCharInString_one hi
    rw [strlcpy_clean htext hlt] at h
    obtain ⟨rfl, rfl⟩ := Prod.mk.inj (Option.some.inj h)
    refine ⟨.connection text, after, ?_, ?_, rfl, fun _ => ⟨htext, hlt⟩⟩
    · rw [Line.text, List.append_assoc]
    · rw [length_connection, Nat.add_assoc]
  · obtain ⟨field, rfl⟩ := hlen
    rw [show (ascii "/LEN " ++ field).drop 5 = field from rfl] at h
    split at h
    · cases h
    rename_i i hi
    obtain ⟨text, after, rfl, rfl, htext, hlt⟩ := getCharInString_one hi
    rw [strlcpy_number htext] at h
    obtain ⟨rfl, rfl⟩ := Prod.mk.inj (Option.some.inj h)
    refine ⟨.len text, after, ?_, ?_, rfl, fun _ => ⟨htext, hlt⟩⟩
    · rw [Line.text, List.append_assoc]
    · rw [length_len, Nat.add_assoc]
  · obtain ⟨i, hi, heq⟩ := Option.map_eq_some_iff.mp h
    obtain ⟨text, after, rfl, rfl, htext, hlt⟩ := getCharInString_one hi
    obtain ⟨rfl, rfl⟩ := Prod.mk.inj heq
    refine ⟨.other text, after, rfl, rfl, rfl, fun hne => ⟨htext, hne, ?_, hlt⟩⟩
    exact mt (known_stop after).mpr (not_known_iff.mpr ⟨hauth, hconnection, hlen⟩)

end

/-! ## Lines -/

theorem not_crlf_cons {b : Byte} (hb : b ≠ ch '\r') (text : Str) : ¬crlf <+: b :: text := by
  intro h
  obtain ⟨_, heq, -⟩ := (List.prefix_cons_iff.mp h).resolve_left nofun
  exact hb (List.cons.inj heq).1.symm

/-- A line with something in it is not the end of the header. -/
theorem Line.not_crlf {l : Line} (hother : ∀ text, l = .other text → Clean CR text ∧ text ≠ []) (after : Str) :
    ¬crlf <+: l.text ++ after := by
  cases l with
  | auth login password => exact not_crlf_cons (by decide) _
  | connection text => exact not_crlf_cons (by decide) _
  | len text => exact not_crlf_cons (by decide) _
  | other text =>
    obtain ⟨htext, hne⟩ := hother text rfl
    obtain ⟨b, text, rfl⟩ := List.exists_cons_of_ne_nil hne
    refine not_crlf_cons ?_ _
    rintro rfl
    exact htext.notMem List.mem_cons_self List.mem_cons_self

theorem Line.Short.not_crlf {l : Line} (hl : l.Short) (after : Str) : ¬crlf <+: l.text ++ after := by
  refine Line.not_crlf ?_ after
  rintro text rfl
  exact ⟨hl.1, hl.2.1⟩

theorem Line.Fits.not_crlf {l : Line} (hl : l.Fits) (after : Str) : ¬crlf <+: l.text ++ after := by
  refine Line.not_crlf ?_ after
  rintro text rfl
  exact ⟨hl.1, hl.2.1⟩

theorem linesText_cons (l : Line) (lines : List Line) (behind : Str) :
    linesText (l :: lines) ++ behind = l.text ++ ch '\r' :: ch '\n' :: (linesText lines ++ behind) := by
  rw [linesText, List.flatMap_cons, List.append_assoc, List.append_assoc]
  rfl

theorem length_linesText_cons (l : Line) (lines : List Line) :
    (linesText (l :: lines)).length = l.text.length + 2 + (linesText lines).length := by
  rw [linesText, List.flatMap_cons, List.length_append, List.length_append]
  rfl

theorem drop_line (text after : Str) : (text ++ ch '\r' :: ch '\n' :: after).drop (text.length + 2) = after := by
  rw [← List.drop_drop, List.drop_left]
  rfl

section

variable {more offset : Nat} {header : ControlHeader} {lines : List Line} {data : Str}

/-- **Readable lines** are read as what they say. -/
theorem parseLines_readable (h : Readable lines (crlf ++ data)) (hmore : lines.length < more) :
    parseLines more header offset (linesText lines ++ (crlf ++ data)) =
      .ok (lines.foldl Line.enter header) (offset + (linesText lines).length + 2) := by
  induction lines generalizing more offset header with
  | nil =>
    obtain ⟨more, rfl⟩ := Nat.exists_eq_succ_of_ne_zero (by omega : more ≠ 0)
    exact if_pos (List.prefix_append crlf data)
  | cons l lines ih =>
    obtain ⟨more, rfl⟩ := Nat.exists_eq_succ_of_ne_zero (by omega : more ≠ 0)
    obtain ⟨hshort, hspaced, hlines⟩ := h
    have htext : l.text ++ crlf ++ (linesText lines ++ (crlf ++ data)) =
        l.text ++ ch '\r' :: ch '\n' :: (linesText lines ++ (crlf ++ data)) := List.append_assoc _ _ _
    rw [htext, spaced_iff] at hspaced
    rw [linesText_cons, parseLines, if_neg (hshort.not_crlf _), if_neg hspaced, parseLine_short hshort]
    dsimp only
    rw [drop_line, ih hlines (by rw [List.length_cons] at hmore; omega), length_linesText_cons]
    congr 1
    omega

theorem decimalInt_clean {n : Int} (hlo : -2 ^ 31 ≤ n) (hhi : n < 2 ^ 31) :
    Clean CR (decimalInt n) ∧ (decimalInt n).length ≤ 11 := by
  have hdigits : ∀ m : Nat, Clean CR (decimal m) := by
    intro m b hb
    have hdigit := isDigit_of_mem_decimal hb
    refine ⟨?_, ?_⟩
    · rintro rfl
      exact absurd hdigit (by decide)
    · intro hmem
      rw [List.mem_singleton.mp hmem] at hdigit
      exact absurd hdigit (by decide)
  have hlength : ∀ m : Nat, m ≤ 2 ^ 31 → (decimal m).length ≤ 10 := fun m hm =>
    (length_decimal_le_iff (by norm_num)).mpr (by norm_num at hm ⊢; omega)
  cases n with
  | ofNat m =>
    have hm : (m : Int) < 2 ^ 31 := hhi
    have := hlength m (by omega)
    exact ⟨hdigits m, Nat.le_succ_of_le this⟩
  | negSucc m =>
    have := hlength (m + 1) (by omega)
    refine ⟨List.forall_mem_cons.mpr ⟨by decide, hdigits (m + 1)⟩, ?_⟩
    change (decimal (m + 1)).length + 1 ≤ 11
    omega

/-- A line that fits is short, unless it is another line. -/
theorem Line.Fits.short {l : Line} (hl : l.Fits) (hother : ∀ text, l = .other text → text.length < 32) : l.Short := by
  cases l with
  | auth login password =>
    obtain ⟨hlogin, hlt, hpassword, hlt'⟩ := hl
    exact ⟨hlogin.mono (List.cons_subset_cons _ (List.nil_subset _)), hlt, hpassword, hlt'⟩
  | connection text => exact hl
  | len text =>
    obtain ⟨n, rfl, hlo, hhi⟩ := hl
    obtain ⟨hclean, hlength⟩ := decimalInt_clean hlo hhi
    exact ⟨hclean, by omega⟩
  | other text =>
    obtain ⟨htext, hne, hknown⟩ := hl
    exact ⟨htext, hne, hknown, hother text rfl⟩

theorem Line.Fits.clean {l : Line} (hl : l.Fits) : Clean CR l.text := by
  have happend : ∀ {a b : Str}, Clean CR a → Clean CR b → Clean CR (a ++ b) := fun ha hb c hc =>
    (List.mem_append.mp hc).elim (ha c) (hb c)
  have hauth : Clean CR (ascii "/AUTH ") := by unfold Clean; decide
  have hconnection : Clean CR (ascii "/CONNECTION ") := by unfold Clean; decide
  have hlen : Clean CR (ascii "/LEN ") := by unfold Clean; decide
  cases l with
  | auth login password =>
    obtain ⟨hlogin, -, hpassword, -⟩ := hl
    have hcolon : Clean CR (ch ':' :: password) := List.forall_mem_cons.mpr ⟨by decide, hpassword⟩
    exact happend hauth (happend (hlogin.mono (List.subset_cons_self _ _)) hcolon)
  | connection text => exact happend hconnection hl.1
  | len text =>
    obtain ⟨n, rfl, hlo, hhi⟩ := hl
    exact happend hlen (decimalInt_clean hlo hhi).1
  | other text => exact hl.1

/-- **Lines that fit** are readable when they are read. -/
theorem readable_of_ok {header' : ControlHeader} {len : Nat} (hfits : ∀ l ∈ lines, l.Fits)
    (h : parseLines more header offset (linesText lines ++ (crlf ++ data)) = .ok header' len) :
    Readable lines (crlf ++ data) := by
  induction lines generalizing more offset header with
  | nil => trivial
  | cons l lines ih =>
    obtain ⟨hl, hlines⟩ := List.forall_mem_cons.mp hfits
    cases more with
    | zero => cases h
    | succ more =>
      rw [linesText_cons, parseLines, if_neg (hl.not_crlf _)] at h
      split_ifs at h with hspaced
      have hshort : l.Short := by
        refine hl.short ?_
        rintro text rfl
        by_contra hlong
        have hcr : ch '\r' ≠ 0 ∧ ch '\r' ∈ CR := by decide
        obtain ⟨hauth, hconnection, hlen⟩ := not_known_iff.mp (mt (known_stop _).mp hl.2.2)
        rw [Line.text, parseLine, if_neg hauth, if_neg hconnection, if_neg hlen, getCharInString_clean hl.1 hcr,
          if_neg hlong] at h
        cases h
      refine ⟨hshort, ?_, ?_⟩
      · rw [spaced_iff, List.append_assoc]
        exact hspaced
      · rw [parseLine_short hshort] at h
        dsimp only at h
        rw [drop_line] at h
        exact ih hlines h

/-- Each line's end is a whole one. -/
def Paired : Str → Prop
  | [] => True
  | b :: text => (b = ch '\r' → ∃ rest, text = ch '\n' :: rest) ∧ Paired text

theorem paired_append {a b : Str} (ha : ch '\r' ∉ a) : Paired (a ++ b) ↔ Paired b := by
  induction a with
  | nil => exact Iff.rfl
  | cons c a ih =>
    rw [List.mem_cons, not_or] at ha
    rw [List.cons_append, Paired, ih ha.2]
    exact and_iff_right fun heq => absurd heq.symm ha.1

theorem Paired.behind {a b : Str} (h : Paired (a ++ b)) : Paired b := by
  induction a with
  | nil => exact h
  | cons c a ih => exact ih h.2

theorem linesText_paired (hfits : ∀ l ∈ lines, l.Fits) : Paired (linesText lines) := by
  induction lines with
  | nil => trivial
  | cons l lines ih =>
    obtain ⟨hl, hlines⟩ := List.forall_mem_cons.mp hfits
    have h := linesText_cons l lines []
    rw [List.append_nil, List.append_nil] at h
    rw [h, paired_append (hl.clean.notMem List.mem_cons_self)]
    exact ⟨fun _ => ⟨_, rfl⟩, nofun, ih hlines⟩

/-- **Any text that is read to its end** is readable lines. -/
theorem exists_lines {body : Str} {header' : ControlHeader} (hpaired : Paired body)
    (h : parseLines more header offset (body ++ (crlf ++ data)) = .ok header' (offset + body.length + 2)) :
    ∃ lines : List Line, lines.length < more ∧ linesText lines = body ∧ Readable lines (crlf ++ data) ∧
      lines.foldl Line.enter header = header' := by
  induction more generalizing offset header body with
  | zero => cases h
  | succ more ih =>
    rw [parseLines] at h
    split_ifs at h with hend hspaced
    · obtain ⟨rfl, hlen⟩ := Parsed.ok.inj h
      have hnil : body = [] := List.length_eq_zero_iff.mp (by omega)
      exact ⟨[], Nat.succ_pos more, hnil.symm, trivial, rfl⟩
    · split at h
      · cases h
      rename_i header₁ n hline
      have hle := parseLines_le h
      obtain ⟨l, after, htext, rfl, rfl, hshort⟩ := exists_line hline
      obtain ⟨rest, rfl⟩ : ∃ rest, body = l.text ++ ch '\r' :: ch '\n' :: rest := by
        rcases List.append_eq_append_iff.mp htext with ⟨text', htext', -⟩ | ⟨back, rfl, hback⟩
        · have hlen := congrArg List.length htext'
          rw [List.length_append] at hlen
          omega
        · rw [List.length_append] at hle
          obtain ⟨c, rest, rfl⟩ := List.exists_cons_of_length_pos (by omega : 0 < back.length)
          obtain ⟨rest, rfl⟩ := hpaired.behind.1 (List.cons.inj hback).1.symm
          obtain ⟨rfl, -⟩ := List.cons.inj hback
          exact ⟨rest, rfl⟩
      have hbody : l.text ++ ch '\r' :: ch '\n' :: rest ++ (crlf ++ data) =
          l.text ++ ch '\r' :: ch '\n' :: (rest ++ (crlf ++ data)) := List.append_assoc _ _ _
      rw [hbody] at h hspaced hend
      have hl : l.Short := by
        apply hshort
        intro hnil
        rw [hnil] at hend
        exact hend (List.prefix_append crlf (rest ++ (crlf ++ data)))
      rw [drop_line] at h
      have hlen : offset + (l.text ++ ch '\r' :: ch '\n' :: rest).length + 2 =
          offset + (l.text.length + 2) + rest.length + 2 := by
        rw [List.length_append, List.length_cons, List.length_cons]
        omega
      rw [hlen] at h
      obtain ⟨lines, hmore, rfl, hlines, hfold⟩ := ih hpaired.behind.2.2 h
      have htextline := linesText_cons l lines []
      rw [List.append_nil, List.append_nil] at htextline
      refine ⟨l :: lines, Nat.succ_lt_succ hmore, htextline, ⟨hl, ?_, hlines⟩, hfold⟩
      rw [spaced_iff, List.append_assoc]
      exact hspaced

theorem parseLines_cmdOptions {field : Str} {header' : ControlHeader} {len : Nat}
    (h : parseLines more header offset field = .ok header' len) : header'.cmdOptions = header.cmdOptions := by
  induction more generalizing offset header field with
  | zero => cases h
  | succ more ih =>
    rw [parseLines] at h
    split_ifs at h
    · rw [(Parsed.ok.inj h).1]
    · split at h
      · cases h
      rename_i hline
      obtain ⟨l, -, -, -, rfl, -⟩ := exists_line hline
      rw [ih h]
      cases l <;> rfl

end

theorem foldl_enter_cmdOptions (lines : List Line) (header : ControlHeader) :
    (lines.foldl Line.enter header).cmdOptions = header.cmdOptions := by
  induction lines generalizing header with
  | nil => rfl
  | cons l lines ih =>
    rw [List.foldl_cons, ih]
    cases l <;> rfl

/-! ## The first line -/

namespace Request

variable (r : Request)

theorem header_cmdOptions (connection : Str) : (r.header connection).cmdOptions = r.options.getD [] :=
  foldl_enter_cmdOptions _ _

/-- What is read up to the version, and what then follows. -/
theorem parse_header_first {c : Byte} (hc : c ∈ [ch ' ', ch '\r']) (connection text : Str) {n : Nat} (hn : n ≠ 0) :
    parse_header connection (ch '/' :: (r.command ++ ch ' ' :: (r.version ++ c :: text))) n =
      parseLines 19 { r.start connection with cmdOptions := (parseOptions text).1 }
        (3 + r.command.length + r.version.length + (parseOptions text).2) (text.drop (parseOptions text).2) := by
  have hspace : ch ' ' ≠ 0 ∧ ch ' ' ∈ [ch ' '] := by decide
  have hzero : c ≠ 0 := by
    rintro rfl
    exact absurd hc (by decide)
  have hdrop : (ch '/' :: (r.command ++ ch ' ' :: (r.version ++ c :: text))).drop 1 =
      r.command ++ ch ' ' :: (r.version ++ c :: text) := rfl
  have hdrop' : (ch '/' :: (r.command ++ ch ' ' :: (r.version ++ c :: text))).drop (1 + (r.command.length + 1)) =
      r.version ++ c :: text := by
    rw [← List.drop_drop, hdrop, ← List.drop_drop, List.drop_left]
    rfl
  have hdrop'' : (ch '/' :: (r.command ++ ch ' ' :: (r.version ++ c :: text))).drop
      (1 + (r.command.length + 1) + (r.version.length + 1)) = text := by
    rw [← List.drop_drop, hdrop', ← List.drop_drop, List.drop_left]
    rfl
  have hversion := r.version_lt
  rw [parse_header, if_neg hn, hdrop, getCharInString_clean r.command_clean hspace, if_pos r.command_lt]
  dsimp only
  rw [hdrop', getCharInString_clean r.version_clean ⟨hzero, hc⟩, if_pos (by omega)]
  dsimp only
  rw [strlcpy_clean r.command_clean r.command_lt, strlcpy_clean r.version_clean r.version_lt, hdrop'',
    ← List.drop_drop, hdrop'']
  congr 1
  omega

theorem length_render : r.render.length =
    r.command.length + r.version.length + (r.options.elim [] (List.cons (ch ' '))).length + (linesText r.lines).length +
      6 := by
  have hcrlf : crlf.length = 2 := rfl
  rw [render, firstLine]
  simp only [List.length_append, List.length_cons, hcrlf]
  omega

theorem length_ne_zero (data : Str) : (r.render ++ data).length ≠ 0 := by
  rw [List.length_append, length_render]
  omega

theorem parseOptions_clean {o : Str} (ho : Clean CR o) (after : Str) :
    parseOptions (o ++ ch '\r' :: after) = if o.length < 32 then (o, o.length + 2) else ([], 2) := by
  have hcr : ch '\r' ≠ 0 ∧ ch '\r' ∈ CR := by decide
  rw [parseOptions, getCharInString_clean ho hcr]
  split_ifs with hlt
  · dsimp only
    rw [strlcpy_clean ho (by omega)]
  · rfl

/-- **With options** they have to be short. -/
theorem recovers_some_iff {o : Str} (ho : r.options = some o) (connection data : Str) :
    r.Recovers connection data ↔ o.length < 32 ∧ Readable r.lines (crlf ++ data) := by
  have hclean : Clean CR o := r.options_clean o ho
  have htext : r.render ++ data = ch '/' :: (r.command ++ ch ' ' :: (r.version ++ ch ' ' ::
      (o ++ ch '\r' :: ch '\n' :: (linesText r.lines ++ (crlf ++ data))))) := by
    simp [render, firstLine, ho, crlf]
  have hparse := r.parse_header_first List.mem_cons_self connection
    (o ++ ch '\r' :: ch '\n' :: (linesText r.lines ++ (crlf ++ data))) (r.length_ne_zero data)
  rw [← htext, parseOptions_clean hclean] at hparse
  have hoptions : (r.header connection).cmdOptions = o := by
    rw [header_cmdOptions, ho]
    rfl
  rw [Recovers, hparse]
  by_cases hlt : o.length < 32
  · have hlen : r.render.length =
        3 + r.command.length + r.version.length + (o.length + 2) + (linesText r.lines).length + 2 := by
      rw [length_render, ho, Option.elim_some, List.length_cons]
      omega
    have hstart : { r.start connection with cmdOptions := o } = r.start connection := by
      rw [start, ho]
      rfl
    rw [if_pos hlt, and_iff_right hlt, hlen]
    dsimp only
    rw [hstart, drop_line]
    constructor
    · exact readable_of_ok r.lines_fit
    · exact fun h => parseLines_readable h (Nat.lt_succ_of_le r.lines_le)
  · rw [if_neg hlt]
    constructor
    · intro h
      have hnil := parseLines_cmdOptions h
      rw [hoptions] at hnil
      rw [hnil] at hlt
      exact absurd (Nat.succ_pos 31) hlt
    · exact fun h => absurd h.1 hlt

theorem mem_take_first {a : Str} {c : Byte} (ha : c ∉ a) (b : Str) (n : Nat) :
    c ∈ (a ++ c :: b).take n ↔ a.length < n := by
  constructor
  · intro hmem
    by_contra hle
    rw [List.take_append_of_le_length (by omega)] at hmem
    exact ha (List.mem_of_mem_take hmem)
  · intro hlt
    obtain ⟨k, rfl⟩ := Nat.exists_eq_add_of_lt hlt
    rw [Nat.add_assoc, List.take_length_add_append]
    exact List.mem_append_right a List.mem_cons_self

theorem linesText_nul {lines : List Line} (hfits : ∀ l ∈ lines, l.Fits) : (0 : Byte) ∉ linesText lines := by
  intro hmem
  obtain ⟨l, hl, hmem⟩ := List.mem_flatMap.mp hmem
  rcases List.mem_append.mp hmem with hmem | hmem
  · exact ((hfits l hl).clean 0 hmem).1 rfl
  · exact absurd hmem (by decide)

/-- **Without options**, not even a space, the next line is taken for them, unless it is long. -/
theorem recovers_none_iff (ho : r.options = none) (connection data : Str) :
    r.Recovers connection data ↔ ch '\r' ∉ (linesText r.lines ++ crlf).take 31 ∧
      ∃ lines : List Line, lines.length ≤ 18 ∧ linesText lines = (linesText r.lines).tail ∧
        Readable lines (crlf ++ data) ∧ lines.foldl Line.enter (r.start connection) = r.header connection := by
  have htext : r.render ++ data = ch '/' :: (r.command ++ ch ' ' :: (r.version ++ ch '\r' ::
      (ch '\n' :: (linesText r.lines ++ (crlf ++ data))))) := by
    simp [render, firstLine, ho, crlf]
  have hoptions : (r.header connection).cmdOptions = [] := by
    rw [header_cmdOptions, ho]
    rfl
  have hstart : { r.start connection with cmdOptions := [] } = r.start connection := by
    rw [start, ho]
    rfl
  -- the first end of a line behind the version
  obtain ⟨a, b, hab, ha⟩ := List.eq_append_cons_of_mem
    (List.mem_append_right (linesText r.lines) (by decide : ch '\r' ∈ crlf))
  have hclean : Clean CR (ch '\n' :: a) := by
    refine List.forall_mem_cons.mpr ⟨by decide, fun c hc => ⟨?_, ?_⟩⟩
    · rintro rfl
      have hmem : (0 : Byte) ∈ linesText r.lines ++ crlf := hab ▸ List.mem_append_left _ hc
      rcases List.mem_append.mp hmem with hmem | hmem
      · exact linesText_nul r.lines_fit hmem
      · exact absurd hmem (by decide)
    · intro hmem
      exact ha (List.mem_singleton.mp hmem ▸ hc)
  have hfirst : ch '\n' :: (linesText r.lines ++ (crlf ++ data)) = (ch '\n' :: a) ++ ch '\r' :: (b ++ data) := by
    rw [← List.append_assoc, hab, List.append_assoc]
    rfl
  have hparse := r.parse_header_first (List.mem_cons_of_mem _ List.mem_cons_self) connection
    (ch '\n' :: (linesText r.lines ++ (crlf ++ data))) (r.length_ne_zero data)
  rw [← htext, congrArg parseOptions hfirst, parseOptions_clean hclean, List.length_cons] at hparse
  rw [Recovers, hparse, hab, mem_take_first ha]
  by_cases hlt : a.length < 31
  · rw [if_pos (by omega)]
    constructor
    · intro h
      have hnil := parseLines_cmdOptions h
      rw [hoptions] at hnil
      cases hnil
    · exact fun h => absurd hlt h.1
  · rw [if_neg (by omega), and_iff_right hlt]
    dsimp only
    rw [hstart]
    obtain ⟨x, body, hbody⟩ : ∃ x body, linesText r.lines = x :: body := by
      cases hlines : linesText r.lines with
      | nil =>
        have hlen : 2 = (a ++ ch '\r' :: b).length := by rw [← hab, hlines]; rfl
        rw [List.length_append] at hlen
        omega
      | cons x body => exact ⟨x, body, rfl⟩
    have hlen : r.render.length = 3 + r.command.length + r.version.length + 2 + body.length + 2 := by
      rw [length_render, ho, hbody, List.length_cons]
      change _ + 0 + _ + _ = _
      omega
    have hpaired := linesText_paired r.lines_fit
    rw [hbody] at hpaired
    rw [hlen, hbody, List.tail_cons]
    change parseLines 19 (r.start connection) _ (body ++ (crlf ++ data)) = _ ↔ _
    constructor
    · intro h
      obtain ⟨lines, hmore, hlines, hreadable, hfold⟩ := exists_lines hpaired.2 h
      exact ⟨lines, Nat.le_of_lt_succ hmore, hlines, hreadable, hfold⟩
    · rintro ⟨lines, hmore, rfl, hreadable, hfold⟩
      rw [← hfold]
      exact parseLines_readable hreadable (Nat.lt_succ_of_le hmore)

/-- **The request is recovered** exactly when it is plain. -/
theorem recovers_iff (connection data : Str) : r.Recovers connection data ↔ r.Plain connection data := by
  unfold Plain
  cases ho : r.options with
  | some o => exact r.recovers_some_iff ho connection data
  | none => exact r.recovers_none_iff ho connection data

/-- Options of 32 characters. -/
def longOptions : Request where
  command := ascii "VERSION"
  version := ascii "CONTROL/1.0"
  options := some (List.replicate 32 (ch 'x'))
  lines := []
  command_clean := by unfold Clean; decide
  command_lt := by decide
  version_clean := by unfold Clean; decide
  version_lt := by decide
  options_clean := by unfold Clean; decide
  options_lt := by decide
  lines_fit := List.forall_mem_nil _
  lines_le := Nat.zero_le _

/-- They are not found, and the next line begins in the middle of them. -/
theorem not_recovers : parse_header [] (longOptions.render ++ []) (longOptions.render ++ []).length = .incomplete ∧
    ¬longOptions.Recovers [] [] := by
  have hparse : parse_header [] (longOptions.render ++ []) (longOptions.render ++ []).length = .incomplete := by decide
  refine ⟨hparse, fun h => ?_⟩
  rw [Recovers, hparse] at h
  cases h

end Request

end MyServer.Control
