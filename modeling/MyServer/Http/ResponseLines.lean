import MyServer.Http.ProxyHeader

/-!
# The lines of a response, each by itself

The parse as a fold over the lines: what a line gives is a function of its own name and its own text.
-/

open MyServer.HeaderLines

namespace MyServer.ResponseHeader

/-! ## Tokens -/

section

variable {seps skip token rest : Str} {sep : Byte}

theorem strtok_token (hskip : ∀ b ∈ skip, b ∈ seps) (hne : token ≠ []) (htoken : ∀ b ∈ token, b ∉ seps)
    (hsep : sep ∈ seps) : strtok seps (skip ++ (token ++ sep :: rest)) = (some token, rest) := by
  have hfront : (skip ++ (token ++ sep :: rest)).dropWhile (· ∈ seps) = token ++ sep :: rest := by
    obtain ⟨c, token, rfl⟩ := List.exists_cons_of_ne_nil hne
    rw [List.dropWhile_append_of_pos (by simpa using hskip), List.cons_append,
      List.dropWhile_cons_of_neg (by simpa using htoken c List.mem_cons_self)]
  have hall : ∀ b ∈ token, decide (b ∉ seps) = true := by simpa using htoken
  unfold strtok
  rw [hfront]
  dsimp only
  rw [if_neg (by simp), List.takeWhile_append_of_pos hall, List.dropWhile_append_of_pos hall,
    List.takeWhile_cons_of_neg (by simpa using hsep), List.dropWhile_cons_of_neg (by simpa using hsep)]
  simp

theorem strtok_front (hne : token ≠ []) (htoken : ∀ b ∈ token, b ∉ seps) (hsep : sep ∈ seps) :
    strtok seps (token ++ sep :: rest) = (some token, rest) :=
  @strtok_token seps [] token rest sep (List.forall_mem_nil _) hne htoken hsep

end

/-! ## What stands in a line -/

/-- The separators of a status code. -/
def codeSeps : Str := ascii " ,\t\n\r"

/-- `HTTP/1.1 200 OK`, with a reason. -/
structure StatusLine where
  ver : Str
  code : Str
  reason : Str
  http : ascii "HTTP/" <+: ver
  ver_one : OneLine ver
  ver_space : ch ' ' ∉ ver
  code_ne : code ≠ []
  code_one : OneLine code
  code_seps : ∀ b ∈ code, b ∉ codeSeps
  reason_ne : reason ≠ []
  reason_one : OneLine reason

def StatusLine.line (first : StatusLine) : Str :=
  first.ver ++ ch ' ' :: (first.code ++ ch ' ' :: first.reason)

/-- `Name: value`, with anything behind the colon, a space at least. -/
structure Field where
  name : Str
  text : Str
  name_ne : name ≠ []
  name_zero : (0 : Byte) ∉ name
  name_seps : ∀ b ∈ name, b ∉ cmdSeps
  text_ne : text ≠ []
  text_one : OneLine text

namespace Field

def line (field : Field) : Str := field.name ++ ch ':' :: field.text

def command (field : Field) : Str := field.name.take 95

def value (field : Field) : Str := field.text.dropWhile (· = ch ' ')

def isStatus (field : Field) : Bool := caseEq field.command (ascii "Status")

def isLength (field : Field) : Bool := caseEq field.command (ascii "Content-length")

def fits (field : Field) : Bool :=
  field.isStatus || field.isLength || field.value.length ≤ HTTP_RESPONSE_OTHER_DIM

end Field

/-- What a line does to the response. -/
def HttpResponseHeader.line (response : HttpResponseHeader) (field : Field) : HttpResponseHeader :=
  if field.isStatus then
    { response with
      httpStatus := if response.httpStatus = 200 then atoi field.value else response.httpStatus }
  else if field.isLength then { response with contentLength := field.value }
  else response.store field.command field.value

def HttpResponseHeader.first (response : HttpResponseHeader) (first : StatusLine) : HttpResponseHeader where
  httpStatus := atoi first.code
  ver := first.ver.take 95
  contentLength := response.contentLength
  errorType := first.reason
  other := response.other

/-! ## The lines as a header -/

theorem notMem_cmdSeps {b : Byte} (h : b ∉ cmdSeps) : b ≠ ch '\r' ∧ b ≠ LF := by
  refine ⟨?_, ?_⟩ <;>
  · rintro rfl
    exact h (by decide)

theorem notMem_lineSeps {s : Str} (h : OneLine s) : ∀ b ∈ s, b ∉ lineSeps := by
  intro b hb
  simp [lineSeps, (h b hb).1, (h b hb).2.1]

theorem StatusLine.one (first : StatusLine) : OneLine first.line :=
  first.ver_one.append (.cons (by decide) (first.code_one.append (.cons (by decide) first.reason_one)))

theorem Field.one (field : Field) : OneLine field.line := by
  have hname : OneLine field.name := fun b hb =>
    ⟨(notMem_cmdSeps (field.name_seps b hb)).1, (notMem_cmdSeps (field.name_seps b hb)).2, fun hzero =>
      field.name_zero (hzero ▸ hb)⟩
  exact hname.append (.cons (by decide) field.text_one)

/-- The response as it is sent. -/
def responseHeader (first : StatusLine) (fields : List Field) : Header where
  first := first.line
  fields := fields.map Field.line
  line l hl := by
    rcases List.mem_cons.mp hl with rfl | hl
    · exact ⟨by simp [StatusLine.line], first.one.line⟩
    · obtain ⟨field, -, rfl⟩ := List.mem_map.mp hl
      exact ⟨by simp [Field.line], field.one.line⟩

def fieldLines (fields : List Field) : Str := fields.flatMap fun field => field.line ++ crlf

theorem responseHeader_bytes (first : StatusLine) (fields : List Field) :
    (responseHeader first fields).bytes = first.line ++ crlf ++ (fieldLines fields ++ crlf) := by
  simp [Header.bytes, Header.lines, responseHeader, fieldLines, List.flatMap_map]

/-! ## The parse as a fold -/

theorem parseLoop_fields {fields : List Field} {fuel : Nat} (hfuel : fields.length ≤ fuel)
    (response : HttpResponseHeader) :
    parseLoop fuel false response (strtok cmdSeps (LF :: (fieldLines fields ++ crlf))).1
        (strtok cmdSeps (LF :: (fieldLines fields ++ crlf))).2 =
      .returned (fields.all Field.fits)
        ((fields.takeWhile Field.fits).foldl HttpResponseHeader.line response) := by
  induction fields generalizing fuel response with
  | nil =>
    have hend : strtok cmdSeps (LF :: (fieldLines [] ++ crlf)) = (none, []) := by decide
    rw [hend]
    cases fuel <;> rfl
  | cons field fields ih =>
    obtain ⟨fuel, rfl⟩ := Nat.exists_eq_add_of_le' (Nat.one_le_of_lt hfuel)
    have hname : strtok cmdSeps (LF :: (fieldLines (field :: fields) ++ crlf)) =
        (some field.name, field.text ++ ch '\r' :: LF :: (fieldLines fields ++ crlf)) := by
      have hshape : LF :: (fieldLines (field :: fields) ++ crlf) = [LF] ++ (field.name ++
          ch ':' :: (field.text ++ ch '\r' :: LF :: (fieldLines fields ++ crlf))) := by
        simp [fieldLines, Field.line, crlf, LF]
      rw [hshape]
      exact strtok_token (by decide) field.name_ne field.name_seps (by decide)
    have htext : strtok lineSeps (field.text ++ ch '\r' :: LF :: (fieldLines fields ++ crlf)) =
        (some field.text, LF :: (fieldLines fields ++ crlf)) :=
      strtok_front field.text_ne (notMem_lineSeps field.text_one) (by decide)
    rw [hname, parseLoop, if_neg Bool.false_ne_true, htext]
    have hrest := ih (Nat.le_of_succ_le_succ hfuel)
    simp only [skipSpaces, Option.map_some]
    change (if field.isStatus = true then _ else if field.isLength = true then _ else
      if HTTP_RESPONSE_OTHER_DIM < field.value.length then _ else _) = _
    have hline : ∀ next, response.line field = next → field.fits = true →
        parseLoop fuel false next (strtok cmdSeps (LF :: (fieldLines fields ++ crlf))).1
            (strtok cmdSeps (LF :: (fieldLines fields ++ crlf))).2 =
          .returned ((field :: fields).all Field.fits)
            (((field :: fields).takeWhile Field.fits).foldl HttpResponseHeader.line response) := by
      rintro _ rfl hfits
      rw [hrest, List.all_cons, hfits, Bool.true_and, List.takeWhile_cons_of_pos hfits, List.foldl_cons]
    by_cases hstatus : field.isStatus = true
    · rw [if_pos hstatus]
      exact hline _ (by simp [HttpResponseHeader.line, hstatus]; rfl) (by simp [Field.fits, hstatus])
    · rw [if_neg hstatus]
      by_cases hlength : field.isLength = true
      · rw [if_pos hlength]
        exact hline _ (by simp [HttpResponseHeader.line, hstatus, hlength]; rfl)
          (by simp [Field.fits, hlength])
      · rw [if_neg hlength]
        by_cases hlong : HTTP_RESPONSE_OTHER_DIM < field.value.length
        · have hfits : field.fits = false := by simp [Field.fits, hstatus, hlength, hlong]
          rw [if_pos hlong, List.all_cons, hfits, Bool.false_and,
            List.takeWhile_cons_of_neg (by rw [hfits]; exact Bool.false_ne_true), List.foldl_nil]
        · rw [if_neg hlong]
          exact hline _ (by simp [HttpResponseHeader.line, hstatus, hlength]; rfl)
            (by simp [Field.fits, Nat.le_of_not_lt hlong])

/-- **The parse of a response.** -/
theorem parse_response (first : StatusLine) (fields : List Field) (response : HttpResponseHeader) :
    parse (responseHeader first fields).bytes response = .returned (fields.all Field.fits)
      ((fields.takeWhile Field.fits).foldl HttpResponseHeader.line (response.first first)) := by
  have hver : strtok (ascii " ") (first.line ++ crlf ++ (fieldLines fields ++ crlf)) = (some first.ver,
      first.code ++ ch ' ' :: (first.reason ++ ch '\r' :: LF :: (fieldLines fields ++ crlf))) := by
    have hshape : first.line ++ crlf ++ (fieldLines fields ++ crlf) = first.ver ++ ch ' ' :: (first.code ++
        ch ' ' :: (first.reason ++ ch '\r' :: LF :: (fieldLines fields ++ crlf))) := by
      simp [StatusLine.line, crlf, LF]
    rw [hshape]
    refine strtok_front ?_ ?_ (by decide)
    · rintro hnil
      exact absurd (hnil ▸ first.http) (by decide)
    · rintro b hb hsp
      obtain rfl : b = ch ' ' := by simpa [ascii] using hsp
      exact first.ver_space hb
  have hcode : strtok (ascii " ,\t\n\r") (first.code ++ ch ' ' :: (first.reason ++ ch '\r' :: LF ::
      (fieldLines fields ++ crlf))) = (some first.code, first.reason ++ ch '\r' :: LF ::
        (fieldLines fields ++ crlf)) := strtok_front first.code_ne first.code_seps (by decide)
  have hreason : strtok lineSeps (first.reason ++ ch '\r' :: LF :: (fieldLines fields ++ crlf)) =
      (some first.reason, LF :: (fieldLines fields ++ crlf)) :=
    strtok_front first.reason_ne (notMem_lineSeps first.reason_one) (by decide)
  have hhttp : (ascii "HTTP/" <+: first.line ++ crlf ++ (fieldLines fields ++ crlf)) := by
    simp only [StatusLine.line, List.append_assoc]
    exact first.http.trans (List.prefix_append _ _)
  have hfuel : fields.length ≤ (first.line ++ crlf ++ (fieldLines fields ++ crlf)).length := by
    have hlen : fields.length ≤ (fieldLines fields).length := by
      induction fields with
      | nil => exact le_rfl
      | cons field fields ih =>
        simp [fieldLines, crlf] at ih ⊢
        omega
    simp only [List.length_append]
    omega
  unfold parse
  rw [responseHeader_bytes]
  simp only [hhttp, decide_true, if_true, hver]
  rw [parseLoop, if_pos rfl]
  simp only [statusLine, hcode, hreason]
  exact parseLoop_fields hfuel _

end MyServer.ResponseHeader
