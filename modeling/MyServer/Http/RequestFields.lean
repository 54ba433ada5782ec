import MyServer.Http.RangeServed
import MyServer.Http.RequestParse

/-!
# The lines of a request, each by itself

The request line is taken apart by lengths, and the loop over the fields comes back to the start of a line
behind every one of them.
-/

open MyServer.HeaderLines
open MyServer.ResponseHeader (HTTP_RESPONSE_OTHER_DIM)

namespace MyServer.RequestHeader

/-! ## What stands in a line -/

/-- `GET /a?b HTTP/1.1`, each part within the limits of the parser. -/
structure RequestLine where
  method : Str
  uri : Str
  query : Option Str
  ver : Str
  method_ne : method ≠ []
  method_one : OneLine method
  method_seps : ∀ b ∈ method, b ∉ ascii ": ,\t\n\r"
  method_length : method.length < HTTP_REQUEST_CMD_DIM
  uri_ne : uri ≠ []
  uri_one : OneLine uri
  uri_seps : ∀ b ∈ uri, b ≠ ch '?' ∧ b ≠ ch ' '
  query_one : ∀ q ∈ query, OneLine q
  query_space : ∀ q ∈ query, ch ' ' ∉ q
  ver_ne : ver ≠ []
  ver_one : OneLine ver
  ver_space : ch ' ' ∉ ver
  ver_length : ver.length < HTTP_REQUEST_VER_DIM

namespace RequestLine

/-- What stands between the method and the version. -/
def target (first : RequestLine) : Str := first.uri ++ first.query.elim [] (ch '?' :: ·)

def line (first : RequestLine) : Str := first.method ++ ch ' ' :: (first.target ++ ch ' ' :: first.ver)

end RequestLine

/-- `Name: value`. The loop takes a line end inside a name for part of it. -/
structure Field where
  name : Str
  value : Str
  name_zero : (0 : Byte) ∉ name
  name_colon : ch ':' ∉ name
  name_first : name.head? ≠ some (ch '\r')
  value_one : OneLine value
  value_trimmed : value.head? ≠ some (ch ' ')

namespace Field

def line (field : Field) : Str := field.name ++ ch ':' :: ch ' ' :: field.value

def key (field : Field) : Str := field.name.map toLower

def isLength (field : Field) : Bool := caseEq field.name (ascii "Content-length")

/-- A field of which only the value is stored. -/
structure Plain (field : Field) : Prop where
  name_length : field.name.length ≤ 95
  authorization : caseEq field.name (ascii "Authorization") = false
  range : caseEq field.name (ascii "Range") = false
  length : field.isLength = true → field.value.length < HTTP_REQUEST_CONTENT_LENGTH_DIM

end Field

/-- One whose line is one line. -/
structure PlainField extends Field where
  name_one : OneLine name
  plain : toField.Plain

theorem PlainField.one (field : PlainField) : OneLine field.line :=
  field.name_one.append (.cons (by decide) (.cons (by decide) field.value_one))

def fieldLines (fields : List Field) : Str := fields.flatMap fun field => field.line ++ crlf

theorem length_le_fieldLines (fields : List Field) : fields.length ≤ (fieldLines fields).length := by
  induction fields with
  | nil => exact le_rfl
  | cons field fields ih =>
    have hsplit : fieldLines (field :: fields) = field.line ++ crlf ++ fieldLines fields := List.flatMap_cons
    have hcrlf : crlf.length = 2 := rfl
    rw [hsplit, List.length_append, List.length_append, List.length_cons]
    omega

/-- What a line does to the request, when its name is new. -/
def HttpRequestHeader.line (request : HttpRequestHeader) (field : Field) : HttpRequestHeader :=
  if field.isLength then { request with contentLength := field.value }
  else { request with other := fun n => if n = field.key then some field.value else request.other n }

/-! ## Scans -/

section

variable {line after : Str} {max : Nat}

theorem getEndLine_line (h : OneLine line) (hmax : line.length < max) :
    getEndLine (line ++ ch '\r' :: after) max = some line.length :=
  getEndLine_append (fun c hc => ⟨(h c hc).2.2, (h c hc).1, (h c hc).2.1⟩) after hmax

theorem getCharInString_append {characters : Str} {c : Byte} (hline : ∀ b ∈ line, b ≠ 0 ∧ b ∉ characters)
    (hc : c ≠ 0 ∧ c ∈ characters) (hmax : line.length < max) :
    getCharInString characters (line ++ c :: after) max = some line.length := by
  induction line generalizing max with
  | nil =>
    obtain ⟨max, rfl⟩ := Nat.exists_eq_succ_of_ne_zero (by omega : max ≠ 0)
    simp [getCharInString, hc.1, hc.2]
  | cons b line ih =>
    obtain ⟨max, rfl⟩ := Nat.exists_eq_succ_of_ne_zero (by omega : max ≠ 0)
    obtain ⟨hb, hline⟩ := List.forall_mem_cons.mp hline
    have hrest := ih hline (by simpa using hmax)
    simp [getCharInString, hb.1, hb.2, hrest]

end

/-! ## The fields -/

/-- What the loop does behind a line. -/
def resume (input : Str) (maxTotchars fuel : Nat) (token : Str) (request : HttpRequestHeader)
    (connection : Connection) : Parsed :=
  if input.length - token.length < maxTotchars ∧ token.head? ≠ some (ch '\r') then
    parseLoop input maxTotchars fuel false token (getCharInString (ascii ":") token maxTotchars) request
      connection
  else .ok maxTotchars request connection

section

variable {input before more : Str} {maxTotchars fuel : Nat} {request : HttpRequestHeader}
  {connection : Connection}

theorem behindName_append {name value : Str} (hvalue : value.head? ≠ some (ch ' ')) :
    behindName (name ++ ch ':' :: ch ' ' :: value) name.length = value := by
  unfold behindName
  rw [List.drop_left]
  simp only [List.head?_cons, if_true, List.tail_cons]
  rw [List.dropWhile_cons_of_pos (by decide)]
  cases value with
  | nil => rfl
  | cons c value => exact List.dropWhile_cons_of_neg (by simpa using hvalue)

theorem readLine_field {field : Field} (hplain : field.Plain) (hmax : field.value.length < maxTotchars)
    (hlong : field.value.length ≤ HTTP_RESPONSE_OTHER_DIM) (hnew : request.other field.key = none) :
    readLine maxTotchars (field.value ++ ch '\r' :: more) field.name field.name.length request connection =
      .ok (request.line field) connection field.value.length := by
  have hauth : ¬ caseEq field.name (ascii "Authorization") = true := by
    rw [hplain.authorization]
    exact Bool.false_ne_true
  have hrange : ¬ caseEq field.name (ascii "Range") = true := by
    rw [hplain.range]
    exact Bool.false_ne_true
  unfold readLine HttpRequestHeader.line
  rw [if_neg hauth]
  by_cases hlength : field.isLength = true
  · have hname : caseEq field.name (ascii "Content-length") = true := hlength
    rw [if_pos hname, if_pos hlength, getEndLine_line field.value_one (hplain.length hlength)]
    simp
  · have hname : ¬ caseEq field.name (ascii "Content-length") = true := hlength
    rw [if_neg hname, if_neg hrange, if_neg hlength, getEndLine_line field.value_one hmax]
    have hkey : request.other (field.name.map toLower) = none := hnew
    simp only [HttpRequestHeader.store, hkey, Nat.min_eq_right hlong, List.take_left]
    rfl

theorem resume_field {field : Field} (hplain : field.Plain) (hlong : field.value.length ≤ HTTP_RESPONSE_OTHER_DIM)
    (hinput : input = before ++ (field.line ++ crlf ++ more)) (hmax : (before ++ field.line).length < maxTotchars)
    (hnew : request.other field.key = none) :
    resume input maxTotchars (fuel + 1) (field.line ++ crlf ++ more) request connection =
      resume input maxTotchars fuel more (request.line field) connection := by
  have hshape : field.line ++ crlf ++ more =
      field.name ++ ch ':' :: ch ' ' :: (field.value ++ ch '\r' :: LF :: more) := by
    simp [Field.line, crlf, LF]
  have hlength : (before ++ field.line).length = before.length + (field.name.length + (field.value.length + 2)) := by
    simp [Field.line]
  rw [hlength] at hmax
  have hplace : input.length - (field.line ++ crlf ++ more).length < maxTotchars := by
    rw [hinput, List.length_append, Nat.add_sub_cancel]
    omega
  have hhead : (field.line ++ crlf ++ more).head? ≠ some (ch '\r') := by
    have hfirst := field.name_first
    rw [hshape]
    cases hname : field.name with
    | nil => exact fun h => absurd h (by simp; decide)
    | cons c name =>
      rw [hname] at hfirst
      simpa using hfirst
  have hcolon : getCharInString (ascii ":") (field.line ++ crlf ++ more) maxTotchars =
      some field.name.length := by
    rw [hshape]
    apply getCharInString_append
    · intro b hb
      have hne : b ≠ ch ':' := fun heq => field.name_colon (heq ▸ hb)
      exact ⟨fun hzero => field.name_zero (hzero ▸ hb), by simpa [ascii] using hne⟩
    · decide
    · omega
  have hname : (field.line ++ crlf ++ more).take (min 95 field.name.length) = field.name := by
    rw [Nat.min_eq_right hplain.name_length, hshape, List.take_left]
  have hvalue : behindName (field.line ++ crlf ++ more) field.name.length =
      field.value ++ ch '\r' :: LF :: more := by
    rw [hshape]
    apply behindName_append
    cases hvalue : field.value with
    | nil => exact fun h => absurd h (by simp; decide)
    | cons c value =>
      have htrimmed := field.value_trimmed
      rw [hvalue] at htrimmed
      simpa using htrimmed
  rw [resume, if_pos ⟨hplace, hhead⟩, hcolon, parseLoop]
  simp only [Bool.false_eq_true, if_false, hname, hvalue]
  rw [readLine_field hplain (by omega) hlong hnew]
  have hdrop : (field.value ++ ch '\r' :: LF :: more).drop (field.value.length + 2) = more := by
    rw [← List.drop_drop, List.drop_left]
    rfl
  simp only [hdrop]
  rfl

theorem line_other_of_ne {field : Field} {n : Str} (h : n ≠ field.key) :
    (request.line field).other n = request.other n := by
  unfold HttpRequestHeader.line
  split_ifs
  · rfl
  · exact if_neg h

/-- The loop over lines that are all plain. -/
theorem resume_fields {fields : List Field} (hplain : ∀ field ∈ fields, field.Plain)
    (hlong : ∀ field ∈ fields, field.value.length ≤ HTTP_RESPONSE_OTHER_DIM)
    (hinput : input = before ++ (fieldLines fields ++ more))
    (hmax : (before ++ fieldLines fields).length ≤ maxTotchars) (hnodup : (fields.map Field.key).Nodup)
    (hnew : ∀ field ∈ fields, request.other field.key = none) :
    resume input maxTotchars (fuel + fields.length) (fieldLines fields ++ more) request connection =
      resume input maxTotchars fuel more (fields.foldl HttpRequestHeader.line request) connection := by
  induction fields generalizing before request with
  | nil => rfl
  | cons field fields ih =>
    obtain ⟨hfirst, hplain⟩ := List.forall_mem_cons.mp hplain
    obtain ⟨hfirstLong, hlong⟩ := List.forall_mem_cons.mp hlong
    obtain ⟨hfirstNew, hnew⟩ := List.forall_mem_cons.mp hnew
    obtain ⟨hnotMem, hnodup⟩ := List.nodup_cons.mp hnodup
    have hshape : fieldLines (field :: fields) ++ more = field.line ++ crlf ++ (fieldLines fields ++ more) := by
      simp [fieldLines]
    have hlength : (before ++ fieldLines (field :: fields)).length =
        (before ++ (field.line ++ crlf) ++ fieldLines fields).length := by
      simp [fieldLines]
    have hcrlf : crlf.length = 2 := rfl
    rw [hshape] at hinput ⊢
    rw [hlength] at hmax
    have hfuel : fuel + (field :: fields).length = fuel + fields.length + 1 := rfl
    rw [hfuel, resume_field hfirst hfirstLong hinput _ hfirstNew, List.foldl_cons]
    · apply ih hplain hlong _ hmax hnodup
      · intro next hnext
        have hne : next.key ≠ field.key := by
          intro heq
          exact hnotMem (heq ▸ List.mem_map_of_mem hnext)
        rw [line_other_of_ne hne]
        exact hnew next hnext
      · rw [hinput]
        simp
    · simp only [List.length_append] at hmax ⊢
      omega

theorem resume_end (after : Str) : resume input maxTotchars fuel (crlf ++ after) request connection =
    .ok maxTotchars request connection := by
  unfold resume
  rw [if_neg]
  rintro ⟨-, h⟩
  exact h rfl

/-- To the end of the header, the turns being as many as there are bytes. -/
theorem resume_lines {fields : List Field} (hplain : ∀ field ∈ fields, field.Plain)
    (hlong : ∀ field ∈ fields, field.value.length ≤ HTTP_RESPONSE_OTHER_DIM) {after : Str}
    (hinput : input = before ++ (fieldLines fields ++ (crlf ++ after)))
    (hmax : (before ++ fieldLines fields).length ≤ maxTotchars) (hnodup : (fields.map Field.key).Nodup)
    (hnew : ∀ field ∈ fields, request.other field.key = none) :
    resume input maxTotchars input.length (fieldLines fields ++ (crlf ++ after)) request connection =
      .ok maxTotchars (fields.foldl HttpRequestHeader.line request) connection := by
  obtain ⟨fuel, hfuel⟩ : ∃ fuel, input.length = fuel + fields.length := by
    have hle := length_le_fieldLines fields
    refine ⟨input.length - fields.length, ?_⟩
    rw [hinput]
    simp only [List.length_append]
    omega
  rw [hfuel, resume_fields hplain hlong hinput hmax hnodup hnew, resume_end]

end

end MyServer.RequestHeader
