import MyServer.Http.RequestKept

/-!
# One turn of the loop over the lines of a request

Whatever the line is: the turn for its name, and for ordinary lines that it depends on nothing behind the
line.
-/

open MyServer.HeaderLines
open MyServer.ResponseHeader (HTTP_RESPONSE_OTHER_DIM)

namespace MyServer.RequestHeader

/-! ## A turn -/

/-- Where the loop is behind a line. -/
def goOn (input : Str) (maxTotchars fuel : Nat) (value : Str) : Line → Parsed
  | .undefined => .undefined
  | .error code request => .error code request
  | .ok request connection tokenOff => resume input maxTotchars fuel (value.drop (tokenOff + 2)) request connection

section

variable {input before name value more : Str} {maxTotchars fuel blanks : Nat} {request : HttpRequestHeader}
  {connection : Connection}

theorem behindName_blanks (hvalue : value.head? ≠ some (ch ' ')) :
    behindName (name ++ ch ':' :: (List.replicate blanks (ch ' ') ++ value)) name.length = value := by
  have hblanks : ∀ b ∈ List.replicate blanks (ch ' '), decide (b = ch ' ') = true := fun b hb =>
    decide_eq_true (List.eq_of_mem_replicate hb)
  unfold behindName
  rw [List.drop_left]
  simp only [List.head?_cons, if_true, List.tail_cons]
  rw [List.dropWhile_append_of_pos hblanks]
  cases value with
  | nil => rfl
  | cons c value => exact List.dropWhile_cons_of_neg (by simpa using hvalue)

theorem head_append_crlf (hvalue : value.head? ≠ some (ch ' ')) (more : Str) :
    (value ++ crlf ++ more).head? ≠ some (ch ' ') := by
  cases value with
  | nil => exact fun h => absurd (Option.some.inj h) (by decide)
  | cons c value => exact hvalue

/-- The name is what comes before the first colon, be there line ends in it or not. -/
theorem resume_turn (hzero : (0 : Byte) ∉ name) (hcolon : ch ':' ∉ name) (hfirst : name.head? ≠ some (ch '\r'))
    (hvalue : value.head? ≠ some (ch ' '))
    (hinput : input = before ++ (name ++ ch ':' :: (List.replicate blanks (ch ' ') ++ (value ++ crlf ++ more))))
    (hmax : (before ++ name).length < maxTotchars) :
    resume input maxTotchars (fuel + 1)
        (name ++ ch ':' :: (List.replicate blanks (ch ' ') ++ (value ++ crlf ++ more))) request connection =
      goOn input maxTotchars fuel (value ++ crlf ++ more)
        (readLine maxTotchars (value ++ crlf ++ more) (name.take 95) name.length request connection) := by
  rw [List.length_append] at hmax
  have hplace : input.length - (name ++ ch ':' :: (List.replicate blanks (ch ' ') ++
      (value ++ crlf ++ more))).length < maxTotchars := by
    rw [hinput, List.length_append, Nat.add_sub_cancel]
    omega
  have hhead : (name ++ ch ':' :: (List.replicate blanks (ch ' ') ++ (value ++ crlf ++ more))).head? ≠
      some (ch '\r') := by
    cases name with
    | nil => exact fun h => absurd (Option.some.inj h) (by decide)
    | cons c name => exact hfirst
  have hname : getCharInString (ascii ":")
      (name ++ ch ':' :: (List.replicate blanks (ch ' ') ++ (value ++ crlf ++ more))) maxTotchars =
        some name.length := by
    apply getCharInString_append
    · intro b hb
      have hne : b ≠ ch ':' := fun heq => hcolon (heq ▸ hb)
      exact ⟨fun heq => hzero (heq ▸ hb), by simpa [ascii] using hne⟩
    · decide
    · omega
  have hcommand : (name ++ ch ':' :: (List.replicate blanks (ch ' ') ++ (value ++ crlf ++ more))).take
      (min 95 name.length) = name.take 95 := by
    rw [← List.take_take, List.take_left]
  rw [resume, if_pos ⟨hplace, hhead⟩, hname, parseLoop]
  simp only [Bool.false_eq_true, if_false, hcommand, behindName_blanks (head_append_crlf hvalue more)]
  unfold goOn
  cases readLine maxTotchars (value ++ crlf ++ more) (name.take 95) name.length request connection <;> rfl

end

/-! ## Lines -/

/-- A line behind the first one. -/
structure HeaderLine where
  name : Str
  blanks : Nat
  value : Str
  name_one : OneLine name
  name_colon : ch ':' ∉ name
  value_one : OneLine value
  value_trimmed : value.head? ≠ some (ch ' ')

namespace HeaderLine

def text (line : HeaderLine) : Str :=
  line.name ++ ch ':' :: (List.replicate line.blanks (ch ' ') ++ line.value)

/-- As much of the name as is compared. -/
def command (line : HeaderLine) : Str := line.name.take 95

structure Ordinary (line : HeaderLine) : Prop where
  authorization : caseEq line.command (ascii "Authorization") = false
  range : caseEq line.command (ascii "Range") = false

/-- What an ordinary line gives. -/
def given (line : HeaderLine) (request : HttpRequestHeader) (connection : Connection) : Line :=
  if caseEq line.command (ascii "Content-length") then
    if line.value.length < HTTP_REQUEST_CONTENT_LENGTH_DIM then
      .ok { request with contentLength := line.value } connection line.value.length
    else .error 400 request
  else
    match request.store line.command line.value line.value.length with
    | none => .undefined
    | some request => .ok request connection line.value.length

theorem one (line : HeaderLine) : OneLine line.text := by
  have hblanks : OneLine (List.replicate line.blanks (ch ' ')) := by
    intro b hb
    rw [List.eq_of_mem_replicate hb]
    decide
  exact line.name_one.append (.cons (by decide) (hblanks.append line.value_one))

theorem head (line : HeaderLine) : line.name.head? ≠ some (ch '\r') := fun h =>
  (line.name_one _ (List.mem_of_head? h)).1 rfl

theorem text_ne (line : HeaderLine) : line.text ≠ [] := by simp [text]

end HeaderLine

def linesText (lines : List HeaderLine) : Str := lines.flatMap fun line => line.text ++ crlf

/-- What ordinary lines give, one after the other. -/
def runLines : List HeaderLine → HttpRequestHeader → Connection → Line
  | [], request, connection => .ok request connection 0
  | line :: lines, request, connection =>
    match line.given request connection with
    | .undefined => .undefined
    | .error code request => .error code request
    | .ok request connection _ => runLines lines request connection

/-- What the turns give, and where the loop is then. -/
def Line.andThen (line : Line) (next : HttpRequestHeader → Connection → Parsed) : Parsed :=
  match line with
  | .undefined => .undefined
  | .error code request => .error code request
  | .ok request connection _ => next request connection

section

variable {input before more : Str} {maxTotchars fuel : Nat} {request : HttpRequestHeader}
  {connection : Connection}

theorem resume_line (line : HeaderLine) (hinput : input = before ++ (line.text ++ crlf ++ more))
    (hmax : (before ++ line.text).length < maxTotchars) :
    resume input maxTotchars (fuel + 1) (line.text ++ crlf ++ more) request connection =
      goOn input maxTotchars fuel (line.value ++ crlf ++ more)
        (readLine maxTotchars (line.value ++ crlf ++ more) line.command line.name.length request connection) := by
  have hshape : line.text ++ crlf ++ more =
      line.name ++ ch ':' :: (List.replicate line.blanks (ch ' ') ++ (line.value ++ crlf ++ more)) := by
    simp [HeaderLine.text]
  rw [hshape] at hinput ⊢
  apply resume_turn line.name_one.line.2 line.name_colon line.head line.value_trimmed hinput
  simp only [HeaderLine.text, List.length_append, List.length_cons] at hmax ⊢
  omega

/-- The value of a line, as the scan for its end finds it. -/
theorem getEndLine_value {value : Str} (h : OneLine value) (more : Str) (max : Nat) :
    getEndLine (value ++ crlf ++ more) max = if value.length < max then some value.length else none := by
  have hshape : value ++ crlf ++ more = value ++ ch '\r' :: LF :: more := by simp [crlf, LF]
  rw [hshape]
  split_ifs with hlt
  · exact getEndLine_line h hlt
  · cases hend : getEndLine (value ++ ch '\r' :: LF :: more) max with
    | none => rfl
    | some n =>
      exfalso
      have hwide := @getEndLine_line value (LF :: more) (value.length + 1) h (by omega)
      obtain ⟨line, c, after, htext, rfl, hc, hone, hn⟩ := getEndLine_some hend
      obtain ⟨line', c', after', htext', hlength, hc', hone', -⟩ := getEndLine_some hwide
      have hle : line.length < line'.length := by omega
      -- The shorter of the two ends at a character of the longer one.
      have hget : line'[line.length]? = some c := by
        have h₁ := congrArg (fun s => s[line.length]?) (htext.symm.trans htext')
        simp only [List.getElem?_append_right le_rfl, Nat.sub_self, List.getElem?_append_left hle] at h₁
        exact h₁.symm
      have hmem := hone' c (List.mem_of_getElem? hget)
      rcases hc with hc | hc
      · exact hmem.1 hc
      · exact hmem.2.1 hc

theorem store_front (value more command : Str) :
    request.store command (value ++ more) value.length = request.store command value value.length := by
  have htake : ∀ n, (value ++ more).take (min n value.length) = value.take (min n value.length) := fun n =>
    List.take_append_of_le_length (min_le_right _ _)
  unfold HttpRequestHeader.store
  simp only [htake]

/-- Nothing behind an ordinary line counts. -/
theorem readLine_ordinary {line : HeaderLine} (h : line.Ordinary) (hmax : line.value.length < maxTotchars) :
    readLine maxTotchars (line.value ++ crlf ++ more) line.command line.name.length request connection =
      line.given request connection := by
  have htake : (line.value ++ crlf ++ more).take line.value.length = line.value := by
    rw [List.append_assoc, List.take_left]
  have hstore : ∀ command, request.store command (line.value ++ crlf ++ more) line.value.length =
      request.store command line.value line.value.length := by
    intro command
    rw [List.append_assoc]
    exact store_front line.value (crlf ++ more) command
  unfold HeaderLine.given readLine
  rw [h.authorization, h.range]
  simp only [Bool.false_eq_true, if_false, getEndLine_value line.value_one, if_pos hmax, hstore]
  by_cases hlength : caseEq line.command (ascii "Content-length") = true
  · rw [if_pos hlength, if_pos hlength]
    by_cases hshort : line.value.length < HTTP_REQUEST_CONTENT_LENGTH_DIM
    · rw [if_pos hshort, if_pos hshort]
      dsimp only
      rw [htake]
    · rw [if_neg hshort, if_neg hshort]
  · refine (if_neg hlength).trans (Eq.trans ?_ (if_neg hlength).symm)
    cases request.store line.command line.value line.value.length <;> rfl

theorem given_ok {line : HeaderLine} {request' : HttpRequestHeader} {connection' : Connection} {tokenOff : Nat}
    (hok : line.given request connection = .ok request' connection' tokenOff) : tokenOff = line.value.length := by
  unfold HeaderLine.given at hok
  split_ifs at hok
  · exact (Line.ok.inj hok).2.2.symm
  · split at hok
    · exact absurd hok nofun
    · exact (Line.ok.inj hok).2.2.symm

theorem drop_value (value more : Str) : (value ++ crlf ++ more).drop (value.length + 2) = more := by
  rw [List.append_assoc, ← List.drop_drop, List.drop_left]
  rfl

/-- The loop over ordinary lines. -/
theorem resume_run {lines : List HeaderLine} (hordinary : ∀ line ∈ lines, line.Ordinary)
    (hinput : input = before ++ (linesText lines ++ more))
    (hmax : (before ++ linesText lines).length ≤ maxTotchars) :
    resume input maxTotchars (fuel + lines.length) (linesText lines ++ more) request connection =
      (runLines lines request connection).andThen (resume input maxTotchars fuel more) := by
  induction lines generalizing before request connection with
  | nil => rfl
  | cons line lines ih =>
    obtain ⟨hfirst, hordinary⟩ := List.forall_mem_cons.mp hordinary
    have hcrlf : crlf.length = 2 := rfl
    have hcons : linesText (line :: lines) = line.text ++ crlf ++ linesText lines := List.flatMap_cons
    have hshape : linesText (line :: lines) ++ more = line.text ++ crlf ++ (linesText lines ++ more) := by
      rw [hcons, List.append_assoc]
    have hlength : (linesText (line :: lines)).length = line.text.length + 2 + (linesText lines).length := by
      rw [hcons, List.length_append, List.length_append, hcrlf]
    rw [List.length_append, hlength] at hmax
    rw [hshape] at hinput ⊢
    have hvalue : line.value.length ≤ line.text.length := by
      simp only [HeaderLine.text, List.length_append, List.length_cons]
      omega
    have hfuel : fuel + (line :: lines).length = fuel + lines.length + 1 := rfl
    rw [hfuel, resume_line line hinput (by rw [List.length_append]; omega),
      readLine_ordinary hfirst (by omega), runLines]
    cases hgiven : line.given request connection with
    | undefined => rfl
    | error code request => rfl
    | ok request' connection' tokenOff =>
      obtain rfl := given_ok hgiven
      unfold goOn
      dsimp only
      rw [drop_value]
      refine @ih (before ++ (line.text ++ crlf)) request' connection' hordinary ?_ ?_
      · rw [hinput]
        simp
      · simp only [List.length_append, hcrlf]
        omega

end

/-! ## The whole request -/

/-- The request with these lines. -/
def headerOf (first : RequestLine) (lines : List HeaderLine) : Header where
  first := first.line
  fields := lines.map HeaderLine.text
  line l hl := by
    have hone : OneLine first.line := first.method_one.append (.cons (by decide) first.target_one)
    rcases List.mem_cons.mp hl with rfl | hl
    · exact ⟨by simp [RequestLine.line], hone.line⟩
    · obtain ⟨line, -, rfl⟩ := List.mem_map.mp hl
      exact ⟨line.text_ne, line.one.line⟩

theorem headerOf_bytes (first : RequestLine) (lines : List HeaderLine) :
    (headerOf first lines).bytes = first.line ++ crlf ++ (linesText lines ++ crlf) := by
  simp [Header.bytes, Header.lines, headerOf, linesText, List.flatMap_map]

theorem length_le_linesText (lines : List HeaderLine) : lines.length ≤ (linesText lines).length := by
  induction lines with
  | nil => exact le_rfl
  | cons line lines ih =>
    have hcons : linesText (line :: lines) = line.text ++ crlf ++ linesText lines := List.flatMap_cons
    have hcrlf : crlf.length = 2 := rfl
    rw [hcons, List.length_append, List.length_append, List.length_cons]
    omega

section

variable {first : RequestLine} {lines : List HeaderLine} {inputSize : Nat}

theorem target_length (hlimits : Limits (headerOf first lines) inputSize) :
    first.target.length < HTTP_REQUEST_URI_DIM - 1 := by
  have hdim : HTTP_REQUEST_URI_DIM = 4096 := rfl
  have hline := hlimits.lines.first
  change first.line.length + 1 ≤ 2048 at hline
  simp only [RequestLine.line, List.length_append, List.length_cons] at hline
  omega

/-- The loop is at the first of the lines. -/
theorem build_lines (hlimits : Limits (headerOf first lines) inputSize) (rest : Str) (connection : Connection) :
    buildHTTPRequestHeaderStruct ((headerOf first lines).bytes ++ rest) inputSize .free connection =
      resume ((headerOf first lines).bytes ++ rest) (headerOf first lines).bytes.length
        ((headerOf first lines).bytes ++ rest).length (linesText lines ++ (crlf ++ rest))
        (HttpRequestHeader.free.requested first) connection := by
  have hvalid := @valid_memory _ _ hlimits.lines rest (fun _ => 0) hlimits.length hlimits.size
  have hshape : (headerOf first lines).bytes ++ rest =
      first.line ++ crlf ++ (linesText lines ++ (crlf ++ rest)) := by
    rw [headerOf_bytes]
    simp only [List.append_assoc]
  exact build_first first .free connection hshape hvalid (target_length hlimits)

/-- A request of ordinary lines. -/
theorem build_ordinary (hlimits : Limits (headerOf first lines) inputSize)
    (hordinary : ∀ line ∈ lines, line.Ordinary) (rest : Str) (connection : Connection) :
    buildHTTPRequestHeaderStruct ((headerOf first lines).bytes ++ rest) inputSize .free connection =
      (runLines lines (HttpRequestHeader.free.requested first) connection).andThen
        (.ok (headerOf first lines).bytes.length) := by
  have hshape : (headerOf first lines).bytes ++ rest =
      first.line ++ crlf ++ (linesText lines ++ (crlf ++ rest)) := by
    rw [headerOf_bytes]
    simp only [List.append_assoc]
  have hmax : (first.line ++ crlf ++ linesText lines).length ≤ (headerOf first lines).bytes.length := by
    rw [headerOf_bytes]
    simp only [List.length_append]
    omega
  obtain ⟨fuel, hfuel⟩ : ∃ fuel, ((headerOf first lines).bytes ++ rest).length = fuel + lines.length := by
    have hle := length_le_linesText lines
    refine ⟨((headerOf first lines).bytes ++ rest).length - lines.length, ?_⟩
    rw [hshape]
    simp only [List.length_append]
    omega
  rw [build_lines hlimits, hfuel, resume_run hordinary hshape hmax]
  cases runLines lines (HttpRequestHeader.free.requested first) connection with
  | undefined => rfl
  | error code request => rfl
  | ok request connection tokenOff => exact resume_end rest

end

end MyServer.RequestHeader
