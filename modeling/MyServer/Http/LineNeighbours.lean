import MyServer.Http.AuthInside

/-!
# What the Authorization and Range lines leave alone

A line is read inside when neither what it gives nor where the loop is behind it depends on the lines around
it.
-/

open MyServer.HeaderLines
open MyServer.ResponseHeader (HTTP_RESPONSE_OTHER_DIM)

namespace MyServer.RequestHeader

/-! ## What the two lines give -/

structure Own where
  auth : Str
  digest : Digest
  rangeType : Str
  range : HttpRange
  login : Str
  password : Str

def Own.connection (own : Own) : Connection := ⟨own.login, own.password⟩

def ownOf (request : HttpRequestHeader) (connection : Connection) : Own where
  auth := request.auth
  digest := request.digest
  rangeType := request.rangeType
  range := request.range
  login := connection.login
  password := connection.password

def HttpRequestHeader.withOwn (request : HttpRequestHeader) (own : Own) : HttpRequestHeader :=
  { request with auth := own.auth, digest := own.digest, rangeType := own.rangeType, range := own.range }

/-- What other lines give. -/
structure SameOrdinary (a b : HttpRequestHeader) : Prop where
  cmd : a.cmd = b.cmd
  uri : a.uri = b.uri
  uriOpts : a.uriOpts = b.uriOpts
  ver : a.ver = b.ver
  uriEndsWithSlash : a.uriEndsWithSlash = b.uriEndsWithSlash
  contentLength : a.contentLength = b.contentLength
  other : a.other = b.other

/-- The same but for what the two lines give. -/
def Line.withOwn (own : Own) : Line → Line
  | .undefined => .undefined
  | .error code request => .error code (request.withOwn own)
  | .ok request _ tokenOff => .ok (request.withOwn own) own.connection tokenOff

section

variable {request : HttpRequestHeader} {connection : Connection}

theorem store_withOwn (own : Own) (command token : Str) (tokenOff : Nat) :
    (request.withOwn own).store command token tokenOff =
      (request.store command token tokenOff).map (HttpRequestHeader.withOwn · own) := by
  unfold HttpRequestHeader.store
  cases hother : request.other (command.map toLower) with
  | none =>
    have hother' : (request.withOwn own).other (command.map toLower) = none := hother
    simp only [hother, hother']
    rfl
  | some old =>
    have hother' : (request.withOwn own).other (command.map toLower) = some old := hother
    simp only [hother, hother']
    split_ifs <;> rfl

theorem given_withOwn (line : HeaderLine) (own : Own) :
    line.given (request.withOwn own) own.connection = (line.given request connection).withOwn own := by
  unfold HeaderLine.given
  rw [store_withOwn]
  split_ifs
  · rfl
  · rfl
  · cases request.store line.command line.value line.value.length <;> rfl

theorem runLines_withOwn (lines : List HeaderLine) (own : Own) :
    runLines lines (request.withOwn own) own.connection = (runLines lines request connection).withOwn own := by
  induction lines generalizing request connection with
  | nil => rfl
  | cons line lines ih =>
    rw [runLines, runLines, given_withOwn line own]
    cases line.given request connection with
    | undefined => rfl
    | error code request => rfl
    | ok request connection tokenOff => exact ih

theorem runLines_own {lines : List HeaderLine} {request' : HttpRequestHeader} {connection' : Connection}
    {tokenOff : Nat} (h : runLines lines request connection = .ok request' connection' tokenOff) :
    ownOf request' connection' = ownOf request connection := by
  have hsame : runLines lines request connection =
      (runLines lines request connection).withOwn (ownOf request connection) :=
    @runLines_withOwn request connection lines (ownOf request connection)
  rw [h] at hsame
  obtain ⟨hrequest, hconnection, -⟩ := Line.ok.inj hsame
  rw [hrequest, hconnection]
  rfl

theorem runLines_append (before after : List HeaderLine) :
    runLines (before ++ after) request connection =
      match runLines before request connection with
      | .undefined => .undefined
      | .error code request => .error code request
      | .ok request connection _ => runLines after request connection := by
  induction before generalizing request connection with
  | nil => rfl
  | cons line before ih =>
    rw [List.cons_append, runLines, runLines]
    cases line.given request connection with
    | undefined => rfl
    | error code request => rfl
    | ok request connection tokenOff => exact ih

end

/-! ## The claim about one line -/

inductive Special
  | authorization
  | range

def Special.name : Special → Str
  | .authorization => ascii "Authorization"
  | .range => ascii "Range"

/-- A line of one of the two kinds, with the name in any case and anything behind the colon. -/
structure SpecialLine extends HeaderLine where
  special : Special
  named : caseEq name special.name = true

/-- A request is refused, or it gives what `without` gives, and `own`. -/
def LeftAlone (own : Own) (without : Parsed) : Parsed → Prop
  | .ok _ request connection => ∃ n request' connection', without = .ok n request' connection' ∧
      SameOrdinary request request' ∧ ownOf request connection = own
  | .undefined => without = .undefined
  | .error _ _ => True
  | .incomplete => True

/-- In every request with the line, whatever stands around it: the request is refused, or what the other
lines give is what they give without it, and what the line gives is always the same. -/
def Undisturbed (line : SpecialLine) : Prop :=
  ∃ own : Connection → Own, ∀ (first : RequestLine) (before after : List HeaderLine) (rest : Str)
    (inputSize : Nat) (connection : Connection), (∀ l ∈ before ++ after, l.Ordinary) →
      Limits (headerOf first (before ++ line.toHeaderLine :: after)) inputSize →
      let parse := fun lines =>
        buildHTTPRequestHeaderStruct ((headerOf first lines).bytes ++ rest) inputSize .free connection
      LeftAlone (own connection) (parse (before ++ after)) (parse (before ++ line.toHeaderLine :: after))

/-! ## Lines that are read inside -/

def tailName (text : Str) : Str := text.takeWhile (· ≠ ch ':')

def tailValue (text : Str) : Str := (text.dropWhile (· ≠ ch ':')).tail.dropWhile (· = ch ' ')

theorem tailValue_suffix (text : Str) : tailValue text <:+ text :=
  (List.dropWhile_suffix _).trans ((List.tail_suffix _).trans (List.dropWhile_suffix _))

/-- The scheme is known and its credentials are read inside, or there is none that is found, or the value is as
long as the name of the line. The length that the loop goes on by is that of the name otherwise, so what it
comes to in the line must be such a line again, or be refused. -/
def AuthInside (value : Str) : Prop :=
  match getCharInString (ascii " ") value HTTP_REQUEST_AUTH_DIM with
  | none => 13 ≤ value.length
  | some tokenOff =>
    if value.take tokenOff = ascii "Basic" then BasicInside (value.drop 6)
    else if value.take tokenOff = ascii "Digest" then True
    else if _ : 16 ≤ value.length then
      ch ':' ∈ value.drop 15 ∧
        (if caseEq ((tailName (value.drop 15)).take 95) (ascii "Authorization") then
          AuthInside (tailValue (value.drop 15))
        else if caseEq ((tailName (value.drop 15)).take 95) (ascii "Content-length") then
          HTTP_REQUEST_CONTENT_LENGTH_DIM ≤ (tailValue (value.drop 15)).length
        else if caseEq ((tailName (value.drop 15)).take 95) (ascii "Range") then
          RangeInside (tailValue (value.drop 15))
        else False)
    else value.length = 13
termination_by value.length
decreasing_by
  have hle := (tailValue_suffix (value.drop 15)).length_le
  rw [List.length_drop] at hle
  omega

/-- Too long for the scan, or read inside. -/
def SpecialLine.Inside (line : SpecialLine) : Prop :=
  2046 < line.text.length ∨
    match line.special with
    | .authorization => AuthInside line.value
    | .range => RangeInside line.value

/-! ## Turns over the two lines -/

theorem length_of_caseEq {name other : Str} (hzero : (0 : Byte) ∉ name) (hother : (0 : Byte) ∉ other)
    (h : caseEq name other = true) : name.length = other.length := by
  unfold caseEq at h
  rw [decide_eq_true_eq, cstr_of_notMem hzero, cstr_of_notMem hother] at h
  simpa using congrArg List.length h

section

variable {input before more : Str} {maxTotchars fuel : Nat} {request : HttpRequestHeader}
  {connection : Connection} {line : HeaderLine}

theorem name_length {other : Str} (hother : (0 : Byte) ∉ other) (hshort : other.length < 95)
    (h : caseEq line.command other = true) : line.name.length = other.length := by
  have hzero : (0 : Byte) ∉ line.command := fun hmem =>
    line.name_one.line.2 ((List.take_subset 95 line.name) hmem)
  have hlength := length_of_caseEq hzero hother h
  unfold HeaderLine.command at hlength
  rw [List.length_take] at hlength
  omega

theorem turn_authorization (h : caseEq line.command (ascii "Authorization") = true)
    (hinput : input = before ++ (line.text ++ crlf ++ more)) (hmax : (before ++ line.text).length < maxTotchars) :
    resume input maxTotchars (fuel + 1) (line.text ++ crlf ++ more) request connection =
      match readReqAuthLine (line.value ++ crlf ++ more) request.digest 13 with
      | .undefined => .undefined
      | .error code => .error code request
      | .ok c lenOut =>
        resume input maxTotchars fuel ((line.value ++ crlf ++ more).drop (lenOut + 2))
          { request with auth := c.auth, digest := c.digest } ⟨c.login, c.password⟩ := by
  have hlength : line.name.length = 13 := name_length (by decide) (by decide) h
  rw [resume_line line hinput hmax, hlength]
  unfold readLine
  rw [if_pos h]
  cases readReqAuthLine (line.value ++ crlf ++ more) request.digest 13 <;> rfl

theorem turn_range (h : caseEq line.command (ascii "Range") = true)
    (hinput : input = before ++ (line.text ++ crlf ++ more)) (hmax : (before ++ line.text).length < maxTotchars) :
    resume input maxTotchars (fuel + 1) (line.text ++ crlf ++ more) request connection =
      match readReqRangeLine (line.value ++ crlf ++ more) with
      | .error code => .error code request
      | .ok (rangeType, range, lenOut) =>
        resume input maxTotchars fuel ((line.value ++ crlf ++ more).drop (lenOut + 2))
          { request with rangeType, range } connection := by
  have hother : ∀ other : Str, (0 : Byte) ∉ other → other.length < 95 → other.length ≠ 5 →
      ¬ caseEq line.command other = true := by
    intro other hzero hshort hne heq
    have hlength : line.name.length = 5 := name_length (by decide) (by decide) h
    exact hne ((name_length hzero hshort heq).symm.trans hlength)
  rw [resume_line line hinput hmax]
  unfold readLine
  rw [if_neg (hother _ (by decide) (by decide) (by decide)), if_neg (hother _ (by decide) (by decide) (by decide)),
    if_pos h]
  cases readReqRangeLine (line.value ++ crlf ++ more) <;> rfl

end

/-! ## Lines that are passed -/

/-- Where the loop gets to the line, the request is refused, or the loop gets to what is behind the line and
the line has given what it always gives. -/
def Passes (text : Str) : Prop :=
  ∃ own : Own → Own, ∀ (input before more : Str) (maxTotchars fuel : Nat) (request : HttpRequestHeader)
    (connection : Connection), input = before ++ (text ++ crlf ++ more) → (before ++ text).length < maxTotchars →
      (∃ code refused, resume input maxTotchars (fuel + text.length) (text ++ crlf ++ more) request connection =
        .error code refused) ∨
      ∃ left, resume input maxTotchars (fuel + text.length) (text ++ crlf ++ more) request connection =
        resume input maxTotchars (fuel + left) more (request.withOwn (own (ownOf request connection)))
          (own (ownOf request connection)).connection

section

variable {line : HeaderLine}

theorem length_text (line : HeaderLine) :
    line.text.length = line.name.length + 1 + line.blanks + line.value.length := by
  simp only [HeaderLine.text, List.length_append, List.length_cons, List.length_replicate]
  omega

/-- The line goes on in itself. -/
def tailLine (text : Str) (hone : OneLine text) : HeaderLine where
  name := tailName text
  blanks := ((text.dropWhile (· ≠ ch ':')).tail.takeWhile (· = ch ' ')).length
  value := tailValue text
  name_one b hb := hone b ((List.takeWhile_prefix _).subset hb)
  name_colon hmem := by
    have h := List.mem_takeWhile_imp hmem
    simp at h
  value_one b hb := hone b ((tailValue_suffix text).subset hb)
  value_trimmed := head_dropWhile_space _

theorem tailLine_text {text : Str} (hone : OneLine text) (h : ch ':' ∈ text) : (tailLine text hone).text = text := by
  have hsplit := @List.takeWhile_append_dropWhile _ (fun b => decide (b ≠ ch ':')) text
  obtain ⟨rest, hrest⟩ : ∃ rest, text.dropWhile (fun b => decide (b ≠ ch ':')) = ch ':' :: rest := by
    cases hdrop : text.dropWhile (fun b => decide (b ≠ ch ':')) with
    | nil =>
      have hall := List.dropWhile_eq_nil_iff.mp hdrop (ch ':') h
      simp at hall
    | cons c rest =>
      have hhead := List.head?_dropWhile_not (fun b => decide (b ≠ ch ':')) text
      rw [hdrop] at hhead
      obtain rfl : c = ch ':' := by simpa using hhead
      exact ⟨rest, rfl⟩
  have hblanks := @List.takeWhile_append_dropWhile _ (fun b => decide (b = ch ' ')) rest
  have hspaces : rest.takeWhile (fun b => decide (b = ch ' ')) =
      List.replicate (rest.takeWhile fun b => decide (b = ch ' ')).length (ch ' ') := by
    apply List.eq_replicate_of_mem
    intro b hb
    simpa using List.mem_takeWhile_imp hb
  change text.takeWhile (fun b => decide (b ≠ ch ':')) ++ ch ':' ::
    (List.replicate ((text.dropWhile fun b => decide (b ≠ ch ':')).tail.takeWhile fun b => decide (b = ch ' ')).length
      (ch ' ') ++ (text.dropWhile fun b => decide (b ≠ ch ':')).tail.dropWhile fun b => decide (b = ch ' ')) = text
  rw [hrest, List.tail_cons, ← hspaces, hblanks, ← hrest, hsplit]

/-- A line of credentials that the loop comes back into, at the sixteenth character of them. -/
theorem drop_credentials (hlong : 15 ≤ line.value.length) (more : Str) :
    (line.value ++ crlf ++ more).drop (13 + 2) = line.value.drop 15 ++ crlf ++ more := by
  rw [List.append_assoc, List.drop_append_of_le_length hlong, ← List.append_assoc]

theorem passes_range (h : caseEq line.command (ascii "Range") = true) (hinside : RangeInside line.value) :
    Passes line.text := by
  obtain ⟨type, range, hread⟩ := range_inside line.value_one hinside
  refine ⟨fun own => { own with rangeType := type, range }, fun input before more maxTotchars fuel request connection
    hinput hmax => ?_⟩
  obtain ⟨k, hk⟩ : ∃ k, line.text.length = k + 1 := ⟨line.text.length - 1, by rw [length_text]; omega⟩
  rw [hk, ← Nat.add_assoc, turn_range h hinput hmax]
  rcases hread more with ⟨code, hcode⟩ | hok
  · rw [hcode]
    exact Or.inl ⟨code, request, rfl⟩
  · rw [hok]
    refine Or.inr ⟨k, ?_⟩
    dsimp only
    rw [drop_value]
    rfl

theorem ordinary_of_length (h : caseEq line.command (ascii "Content-length") = true) : line.Ordinary := by
  have hlength : line.name.length = 14 := name_length (by decide) (by decide) h
  have hother : ∀ other : Str, (0 : Byte) ∉ other → other.length < 95 → other.length ≠ 14 →
      caseEq line.command other = false := fun other hzero hshort hne =>
    Bool.eq_false_iff.mpr fun heq => hne ((name_length hzero hshort heq).symm.trans hlength)
  exact ⟨hother _ (by decide) (by decide) (by decide), hother _ (by decide) (by decide) (by decide)⟩

theorem passes_length (h : caseEq line.command (ascii "Content-length") = true)
    (hlong : HTTP_REQUEST_CONTENT_LENGTH_DIM ≤ line.value.length) : Passes line.text := by
  refine ⟨id, fun input before more maxTotchars fuel request connection hinput hmax => Or.inl ⟨400, request, ?_⟩⟩
  obtain ⟨k, hk⟩ : ∃ k, line.text.length = k + 1 := ⟨line.text.length - 1, by rw [length_text]; omega⟩
  have hvalue : line.value.length < maxTotchars := by
    rw [List.length_append, length_text] at hmax
    omega
  rw [hk, ← Nat.add_assoc, resume_line line hinput hmax, readLine_ordinary (ordinary_of_length h) hvalue]
  unfold HeaderLine.given
  rw [if_pos h, if_neg (not_lt.mpr hlong)]
  rfl

/-- Where the loop is behind a scheme that it does not know. -/
theorem turn_other (h : caseEq line.command (ascii "Authorization") = true) {auth : Str}
    (hread : ∀ more digest, readReqAuthLine (line.value ++ crlf ++ more) digest 13 = .ok ⟨auth, [], [], digest⟩ 13)
    {input before more : Str} {maxTotchars fuel : Nat} {request : HttpRequestHeader} {connection : Connection}
    (hinput : input = before ++ (line.text ++ crlf ++ more)) (hmax : (before ++ line.text).length < maxTotchars) :
    resume input maxTotchars (fuel + 1) (line.text ++ crlf ++ more) request connection =
      resume input maxTotchars fuel ((line.value ++ crlf ++ more).drop (13 + 2)) { request with auth } ⟨[], []⟩ := by
  rw [turn_authorization h hinput hmax, hread]

/-- The text of the line up to where the loop comes back into it. -/
theorem text_split (h : caseEq line.command (ascii "Authorization") = true) (hlong : 15 ≤ line.value.length) :
    ∃ front, line.text = front ++ line.value.drop 15 ∧ 29 ≤ front.length := by
  have hlength : line.name.length = 13 := name_length (by decide) (by decide) h
  refine ⟨line.name ++ ch ':' :: (List.replicate line.blanks (ch ' ') ++ line.value.take 15), ?_, ?_⟩
  · simp [HeaderLine.text]
  · simp only [List.length_append, List.length_cons, List.length_replicate, List.length_take]
    omega

theorem Passes.through (h : caseEq line.command (ascii "Authorization") = true) (hlong : 15 ≤ line.value.length)
    {auth : Str} (hread : ∀ more digest,
      readReqAuthLine (line.value ++ crlf ++ more) digest 13 = .ok ⟨auth, [], [], digest⟩ 13)
    (htail : Passes (line.value.drop 15)) : Passes line.text := by
  obtain ⟨own, hpasses⟩ := htail
  obtain ⟨front, htext, hfront⟩ := text_split h hlong
  refine ⟨fun o => own { o with auth, login := [], password := [] },
    fun input before more maxTotchars fuel request connection hinput hmax => ?_⟩
  have hlength : line.text.length = front.length + (line.value.drop 15).length := by
    rw [htext, List.length_append]
  have hfuel : fuel + line.text.length = fuel + (front.length - 1) + (line.value.drop 15).length + 1 := by omega
  have hinput' : input = before ++ front ++ (line.value.drop 15 ++ crlf ++ more) := by
    rw [hinput, htext]
    simp only [List.append_assoc]
  have hmax' : (before ++ front ++ line.value.drop 15).length < maxTotchars := by
    rwa [List.append_assoc, ← htext]
  rw [hfuel, turn_other h hread hinput hmax, drop_credentials hlong]
  rcases hpasses input (before ++ front) more maxTotchars (fuel + (front.length - 1)) { request with auth } ⟨[], []⟩
    hinput' hmax' with hrefused | ⟨left, hpassed⟩
  · exact Or.inl hrefused
  · refine Or.inr ⟨front.length - 1 + left, ?_⟩
    rw [hpassed, Nat.add_assoc]
    rfl

theorem passes_authorization (h : caseEq line.command (ascii "Authorization") = true)
    (hinside : AuthInside line.value) : Passes line.text := by
  induction hn : line.value.length using Nat.strong_induction_on generalizing line with
  | _ n ih =>
  subst hn
  obtain ⟨k, hk⟩ : ∃ k, line.text.length = k + 1 := ⟨line.text.length - 1, by rw [length_text]; omega⟩
  -- A line that is refused, or gives its credentials and the length of its value.
  have hwhole : ∀ credentials : Digest → Credentials, (∀ more digest,
      readReqAuthLine (line.value ++ crlf ++ more) digest 13 = .error 400 ∨
        readReqAuthLine (line.value ++ crlf ++ more) digest 13 = .ok (credentials digest) line.value.length) →
      Passes line.text := by
    intro credentials hread
    refine ⟨fun own => { own with
      auth := (credentials own.digest).auth
      digest := (credentials own.digest).digest
      login := (credentials own.digest).login
      password := (credentials own.digest).password },
      fun input before more maxTotchars fuel request connection hinput hmax => ?_⟩
    rw [hk, ← Nat.add_assoc, turn_authorization h hinput hmax]
    rcases hread more request.digest with hcode | hok
    · rw [hcode]
      exact Or.inl ⟨400, request, rfl⟩
    · rw [hok]
      refine Or.inr ⟨k, ?_⟩
      dsimp only
      rw [drop_value]
      rfl
  rw [AuthInside] at hinside
  cases hscheme : getCharInString (ascii " ") line.value HTTP_REQUEST_AUTH_DIM with
  | none =>
    rw [hscheme] at hinside
    apply hwhole fun digest => ⟨line.value ++ crlf, [], [], digest⟩
    intro more digest
    refine (auth_long line.value_one line.value_trimmed hscheme hinside more digest 13).imp_right fun hlong => ?_
    rw [hlong.1]
    exact hlong.2
  | some tokenOff =>
    rw [hscheme] at hinside
    dsimp only at hinside
    by_cases hbasic : line.value.take tokenOff = ascii "Basic"
    · rw [if_pos hbasic] at hinside
      obtain ⟨credentials, hread⟩ := (auth_basic line.value_one line.value_trimmed hscheme hbasic).1 hinside
      exact hwhole credentials fun more digest => hread more digest 13
    · by_cases hdigest : line.value.take tokenOff = ascii "Digest"
      · obtain ⟨credentials, hread⟩ := auth_digest line.value_one line.value_trimmed hscheme hdigest
        exact hwhole credentials fun more digest => hread more digest 13
      · rw [if_neg hbasic, if_neg hdigest] at hinside
        have hread : ∀ more digest, readReqAuthLine (line.value ++ crlf ++ more) digest 13 =
            .ok ⟨line.value.take tokenOff, [], [], digest⟩ 13 := by
          intro more digest
          rw [readAuth_eq line.value_trimmed hscheme, if_neg hbasic, if_neg hdigest]
        by_cases hlong : 16 ≤ line.value.length
        · rw [dif_pos hlong] at hinside
          obtain ⟨hcolon, htail⟩ := hinside
          have hone : OneLine (line.value.drop 15) := fun b hb => line.value_one b (List.mem_of_mem_drop hb)
          have hle := (tailValue_suffix (line.value.drop 15)).length_le
          rw [List.length_drop] at hle
          have hpasses : Passes (tailLine (line.value.drop 15) hone).text := by
            split_ifs at htail with hauth hlength hrange
            · exact ih _ (lt_of_le_of_lt hle (by omega)) hauth htail rfl
            · exact passes_length hlength htail
            · exact passes_range hrange htail
          rw [tailLine_text hone hcolon] at hpasses
          exact hpasses.through h (by omega) hread
        · rw [dif_neg hlong] at hinside
          apply hwhole fun digest => ⟨line.value.take tokenOff, [], [], digest⟩
          intro more digest
          rw [hread, hinside]
          exact Or.inr rfl

end

end MyServer.RequestHeader
