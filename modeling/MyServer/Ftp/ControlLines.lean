import MyServer.Bytes
import MyServer.Lib.Fragments
import MyServer.Server.ReturnCodes

/-!
# The lines of a control connection (ftp_lexer.lpp, ftp_parser.ypp)

What one read gives is parsed on its own. The grammar is known on whole lines only, as every command ends with
the token of a CRLF, and a byte that no rule of the lexer takes is passed over.
-/

namespace MyServer.FtpControl

def CR : Byte := ch '\r'
def LF : Byte := ch '\n'

/-- The answers of `IAC DO`, `DONT`, `WILL` and `WONT` are left out. The NUL behind the bytes ends the loop. -/
def escapeTelnet : Str → Str
  | [] => []
  | b :: text =>
    if b = 255 then
      match text with
      | [] => []
      | c :: text =>
        if c = 0 then []
        else if 251 ≤ c ∧ c ≤ 254 then
          match text with
          | [] => []
          | _ :: text => escapeTelnet text
        else if c = 255 then c :: escapeTelnet text
        else escapeTelnet text
    else b :: escapeTelnet text

theorem escapeTelnet_of_notMem {text : Str} (h : (255 : Byte) ∉ text) : escapeTelnet text = text := by
  induction text with
  | nil => rfl
  | cons b text ih =>
    obtain ⟨hb, htext⟩ := not_or.mp (mt List.mem_cons.mpr h)
    rw [escapeTelnet.eq_def]
    simp [Ne.symm hb, ih htext]

/-! ## Lines -/

/-- No rule takes it: it is neither printable nor a part of a CRLF. -/
def stray (b : Byte) : Bool := b < 32 || 126 < b

/-- Between two lines such a byte is nothing, in a line it is for the grammar. -/
def push (line : Str) (b : Byte) : Str := if line = [] ∧ stray b then [] else line ++ [b]

/-- The lines that are complete, but for empty ones, and what is behind the last CRLF. -/
def lexLines : Str → Str → List Str × Str
  | line, [] => ([], line)
  | line, [b] => ([], push line b)
  | line, b :: c :: text =>
    if b = CR ∧ c = LF then
      let rest := lexLines [] text
      (if line = [] then rest.1 else line :: rest.1, rest.2)
    else lexLines (push line b) (c :: text)

def complete (text : Str) : List Str := (lexLines [] text).1
def unfinished (text : Str) : Str := (lexLines [] text).2

@[simp] theorem push_ne_nil {line : Str} (h : line ≠ []) (b : Byte) : push line b = line ++ [b] := by
  simp [push, h]

@[simp] theorem push_nil_stray {b : Byte} (h : stray b) : push [] b = [] := by simp [push, h]

@[simp] theorem stray_CR : stray CR := by decide
@[simp] theorem stray_LF : stray LF := by decide

theorem foldl_push_nil (text : Str) : text.foldl push [] = text.dropWhile stray := by
  induction text with
  | nil => rfl
  | cons b text ih =>
    by_cases hb : stray b
    · rw [List.foldl_cons, push_nil_stray hb, ih, List.dropWhile_cons_of_pos hb]
    · have hopen : ∀ line : Str, line ≠ [] → text.foldl push line = line ++ text := by
        clear ih hb
        induction text with
        | nil => simp
        | cons c text ih =>
          intro line hline
          rw [List.foldl_cons, push_ne_nil hline, ih _ (by simp), List.append_assoc, List.singleton_append]
      rw [List.foldl_cons, push, if_neg (by simp [hb]), hopen _ (by simp), List.dropWhile_cons_of_neg hb]
      rfl

theorem lexLines_cons_cons (line : Str) (b c : Byte) (text : Str) : lexLines line (b :: c :: text) =
    if b = CR ∧ c = LF then (if line = [] then complete text else line :: complete text, unfinished text)
    else lexLines (push line b) (c :: text) := rfl

theorem lexLines_LF (text : Str) : lexLines [] (LF :: text) = lexLines [] text := by
  cases text with
  | nil => simp [lexLines]
  | cons c text =>
    rw [lexLines_cons_cons, if_neg fun h => absurd h.1 (by decide), push_nil_stray stray_LF]

/-- **A text whose lines are closed can be read apart from what follows.** An empty line may even be cut: both
halves of its CRLF are nothing. -/
theorem lexLines_append {line text : Str} (more : Str) (h : (lexLines line text).2 = []) :
    lexLines line (text ++ more) = ((lexLines line text).1 ++ complete more, unfinished more) := by
  fun_induction lexLines line text with
  | case1 line =>
    obtain rfl : line = [] := h
    simp [complete, unfinished]
  | case2 line b =>
    have hline : line = [] := by
      by_contra hne
      simp [hne] at h
    subst hline
    have hb : stray b := by
      by_contra hb
      simp [push, hb] at h
    rw [List.singleton_append, List.nil_append]
    cases more with
    | nil => simp [lexLines, complete, unfinished, hb]
    | cons c more =>
      rw [lexLines_cons_cons, push_nil_stray hb, if_pos rfl]
      split_ifs with hcrlf
      · rw [hcrlf.2]
        simp only [complete, unfinished, lexLines_LF]
      · rfl
  | case3 line b c text hcrlf rest ih =>
    rw [List.cons_append, List.cons_append, lexLines_cons_cons, if_pos hcrlf, complete, unfinished, ih h]
    split_ifs <;> simp [rest]
  | case4 line b c text hcrlf ih =>
    rw [List.cons_append, List.cons_append, lexLines_cons_cons, if_neg hcrlf]
    exact ih h

theorem complete_append {text : Str} (more : Str) (h : unfinished text = []) :
    complete (text ++ more) = complete text ++ complete more := by
  unfold complete
  rw [lexLines_append more h]
  rfl

theorem unfinished_append {text : Str} (more : Str) (h : unfinished text = []) :
    unfinished (text ++ more) = unfinished more := by
  unfold unfinished
  rw [lexLines_append more h]
  rfl

theorem lexLines_line {line text : Str} (hline : CR ∉ text) (more : Str) :
    lexLines line (text ++ crlf ++ more) =
      ((if text.foldl push line = [] then [] else [text.foldl push line]) ++ complete more, unfinished more) := by
  induction text generalizing line with
  | nil =>
    rw [List.nil_append, List.foldl_nil]
    change lexLines line (CR :: LF :: more) = _
    rw [lexLines_cons_cons, if_pos ⟨rfl, rfl⟩]
    split_ifs <;> rfl
  | cons b text ih =>
    obtain ⟨hb, htext⟩ := not_or.mp (mt List.mem_cons.mpr hline)
    have hstep : ∀ c rest, lexLines line (b :: c :: rest) = lexLines (push line b) (c :: rest) :=
      fun c rest => by rw [lexLines_cons_cons, if_neg fun h => hb h.1.symm]
    obtain ⟨c, rest, heq⟩ := List.exists_cons_of_ne_nil (l := text ++ crlf ++ more) (by simp [crlf])
    rw [List.cons_append, List.cons_append, heq, hstep, ← heq, ih htext, List.foldl_cons]

/-- A line without the bytes that are nothing. -/
def said (line : Str) : Str := line.dropWhile stray

/-- **Of the lines that were sent, the ones that say something.** -/
theorem lexLines_lines {lines : List Str} (hlines : ∀ line ∈ lines, CR ∉ line) :
    lexLines [] (lines.flatMap (· ++ crlf)) = ((lines.map said).filter (· ≠ []), []) := by
  induction lines with
  | nil => rfl
  | cons line lines ih =>
    obtain ⟨hline, hlines⟩ := List.forall_mem_cons.mp hlines
    rw [List.flatMap_cons, lexLines_line hline, complete, unfinished, ih hlines, foldl_push_nil, List.map_cons,
      ← said]
    by_cases hsaid : said line = [] <;> simp [hsaid]

end MyServer.FtpControl
