import MyServer.Http.AuthLine
import MyServer.Http.RequestHeader

/-!
# The header of a request, as it is parsed

`HttpHeaders::buildHTTPRequestHeaderStruct`. `input` is the buffer up to where memory ends, and `token` is
the part of it that the pointer points to.
-/

open MyServer.HeaderLines
open MyServer.ResponseHeader (HTTP_RESPONSE_OTHER_DIM)

namespace MyServer.RequestHeader

def HTTP_REQUEST_CMD_DIM : Nat := 16
def HTTP_REQUEST_VER_DIM : Nat := 10
def HTTP_REQUEST_CONTENT_LENGTH_DIM : Nat := 12
def HTTP_REQUEST_URI_DIM : Nat := 4096
def HTTP_REQUEST_URI_OPTS_DIM : Nat := 4096

/-- `other` under the names in lower case. -/
structure HttpRequestHeader where
  cmd : Str
  uri : Str
  uriOpts : Str
  ver : Str
  auth : Str
  contentLength : Str
  rangeType : Str
  range : HttpRange
  uriEndsWithSlash : Bool
  digest : Digest
  other : Str → Option Str

def HttpRequestHeader.free : HttpRequestHeader where
  cmd := []
  uri := []
  uriOpts := []
  ver := []
  auth := []
  contentLength := []
  rangeType := []
  range := ⟨0, 0⟩
  uriEndsWithSlash := false
  digest := Digest.free
  other _ := none

/-- What the parser sets of it. -/
structure Connection where
  login : Str
  password : Str

/-- `erase (find_last_not_of (t) + 1)`. -/
def trimRight (s t : Str) : Str := s.rdropWhile (· ∈ t)

/-- `trimLeft` is called with its default. -/
def trim (s t : Str) : Str := (trimRight s t).dropWhile (· = ch ' ')

/-! ## The first line -/

/-- The first line is kept for the log. -/
def HttpRequestHeader.log (request : HttpRequestHeader) (input : Str) : HttpRequestHeader :=
  { request with
    uri :=
      match getEndLine input HTTP_REQUEST_URI_DIM with
      | some (tokenOff + 1) => input.take (min HTTP_REQUEST_URI_DIM (tokenOff + 1))
      | _ => input.take HTTP_REQUEST_URI_DIM }

def HttpRequestHeader.refuse (request : HttpRequestHeader) (input : Str) : HttpRequestHeader :=
  { request with ver := [], cmd := [] }.log input

/-- `token[max]`, which may be in front of the token. -/
def charAt (input token : Str) (max : Int) : Byte :=
  let place := ((input.length - token.length : Nat) : Int) + max
  if 0 ≤ place then input.getD place.toNat 0 else 0

/-- Back to a space, over so many characters at most. -/
def seekSpace (input token : Str) : Nat → Int → Int
  | 0, max => max
  | steps + 1, max => if charAt input token max = ch ' ' then max else seekSpace input token steps (max - 1)

/-- `++j` in the loop and `j++` of it. -/
def queryLoop (i : Nat) (max : Int) : Nat → Nat → Nat
  | 0, j => j
  | fuel + 1, j =>
    if ((i + j + 1 : Nat) : Int) < max ∧ j < HTTP_REQUEST_URI_OPTS_DIM - 1 then queryLoop i max fuel (j + 2)
    else j

/-- The URI, the query and the version, each as far as it is told from the next one. -/
structure FirstLine where
  uri : Str
  uriOpts : Str
  ver : Str

/-- `token` is behind the method, and `tokenOff` the length of what is left of the line; `none` is a line
that is refused. -/
def firstLine (input token : Str) (tokenOff : Nat) : Option FirstLine :=
  let max := seekSpace input token HTTP_REQUEST_VER_DIM tokenOff
  let uri := (token.take (min max.toNat HTTP_REQUEST_URI_DIM)).takeWhile fun c => c ≠ ch '?' ∧ c ≠ ch ' '
  let i := uri.length
  let containOpts := i < min max.toNat HTTP_REQUEST_URI_DIM ∧ token[i]? = some (ch '?')
  if i = 0 then none
  else
    let j := if containOpts then queryLoop i max HTTP_REQUEST_URI_OPTS_DIM 0 else 0
    let uriOpts := (token.drop (i + 1)).take j
    let behind := token.drop (i + j + 1)
    let spaces := ((behind.take 10).takeWhile (· = ch ' ')).length
    if spaces = 10 then none
    else
      let ver := ((behind.drop spaces).take HTTP_REQUEST_VER_DIM).takeWhile fun c => c ≠ ch '\r' ∧ c ≠ ch '\n'
      if ver.length = HTTP_REQUEST_VER_DIM then none else some ⟨uri, uriOpts, ver⟩

def HttpRequestHeader.first (request : HttpRequestHeader) (line : FirstLine) : HttpRequestHeader :=
  { request with
    uri := trimRight line.uri (ascii " /")
    uriOpts := trim line.uriOpts (ascii " ")
    ver := if line.ver = [] then request.ver else line.ver
    uriEndsWithSlash := line.uri.getLast? = some (ch '/') }

/-! ## The fields -/

/-- A second value is appended to the first one. Nothing can be appended to one that is too long already:
the difference is negative, and that is no length. -/
def HttpRequestHeader.store (request : HttpRequestHeader) (command token : Str) (tokenOff : Nat) :
    Option HttpRequestHeader :=
  let name := command.map toLower
  let put value := { request with other := fun n => if n = name then some value else request.other n }
  match request.other name with
  | some old =>
    let old := old ++ ascii ", "
    if HTTP_RESPONSE_OTHER_DIM < old.length then none
    else some (put (old ++ token.take (min (HTTP_RESPONSE_OTHER_DIM - old.length) tokenOff)))
  | none => some (put (token.take (min HTTP_RESPONSE_OTHER_DIM tokenOff)))

/-- What one line comes to: the request, the connection, and the length that the pointer goes on by. A
refused line may leave some of its fields in the request. -/
inductive Line
  | undefined
  | error (code : Nat) (request : HttpRequestHeader)
  | ok (request : HttpRequestHeader) (connection : Connection) (tokenOff : Nat)

/-- The line with the method, which `tokenOff` is the length of. -/
def readFirst (input token : Str) (command : Str) (tokenOff : Nat) (request : HttpRequestHeader)
    (connection : Connection) : Line :=
  let request := { request with cmd := command.take (min HTTP_REQUEST_CMD_DIM tokenOff) }
  match getEndLine token (HTTP_REQUEST_VER_DIM + HTTP_REQUEST_URI_DIM + 10) with
  | none => .error 400 (request.refuse input)
  | some tokenOff =>
    if HTTP_REQUEST_URI_DIM + 200 < tokenOff then .error 400 (request.refuse input)
    else
      match firstLine input token tokenOff with
      | none => .error 400 (request.refuse input)
      | some line => .ok (request.first line) connection tokenOff

/-- A line behind it; its name has the length `tokenOff`, and `token` is at its value. -/
def readLine (maxTotchars : Nat) (token command : Str) (tokenOff : Nat) (request : HttpRequestHeader)
    (connection : Connection) : Line :=
  if caseEq command (ascii "Authorization") then
    match readReqAuthLine token request.digest tokenOff with
    | .undefined => .undefined
    | .error code => .error code request
    | .ok c lenOut => .ok { request with auth := c.auth, digest := c.digest } ⟨c.login, c.password⟩ lenOut
  else if caseEq command (ascii "Content-length") then
    match getEndLine token HTTP_REQUEST_CONTENT_LENGTH_DIM with
    | none => .error 400 request
    | some tokenOff => .ok { request with contentLength := token.take tokenOff } connection tokenOff
  else if caseEq command (ascii "Range") then
    match readReqRangeLine token with
    | .error code => .error code request
    | .ok (rangeType, range, lenOut) => .ok { request with rangeType, range } connection lenOut
  else
    match getEndLine token maxTotchars with
    | none => .error 400 request
    | some tokenOff =>
      match request.store command token tokenOff with
      | none => .undefined
      | some request => .ok request connection tokenOff

/-! ## The loop -/

/-- -1, an error, or 200 with the characters of the header. -/
inductive Parsed
  | undefined
  | incomplete
  | error (code : Nat) (request : HttpRequestHeader)
  | ok (nHeaderChars : Nat) (request : HttpRequestHeader) (connection : Connection)

/-- The name is behind the pointer now, and so are the colon and the spaces. -/
def behindName (token : Str) (tokenOff : Nat) : Str :=
  let token := token.drop tokenOff
  (if token.head? = some (ch ':') then token.tail else token).dropWhile (· = ch ' ')

/-- `token` starts a line, and `tokenOff` is where its name ends. -/
def parseLoop (input : Str) (maxTotchars : Nat) : Nat → Bool → Str → Option Nat → HttpRequestHeader →
    Connection → Parsed
  | 0, _, _, _, request, connection => .ok maxTotchars request connection
  | _ + 1, _, _, none, request, _ => .error 400 request
  | fuel + 1, isFirst, token, some tokenOff, request, connection =>
    let command := token.take (min 95 tokenOff)
    let value := behindName token tokenOff
    match
      if isFirst then readFirst input value command tokenOff request connection
      else readLine maxTotchars value command tokenOff request connection with
    | .undefined => .undefined
    | .error code request => .error code request
    | .ok request connection tokenOff =>
      let token := value.drop (tokenOff + 2)
      if input.length - token.length < maxTotchars ∧ token.head? ≠ some (ch '\r') then
        parseLoop input maxTotchars fuel false token (getCharInString (ascii ":") token maxTotchars) request
          connection
      else .ok maxTotchars request connection

def buildHTTPRequestHeaderStruct (input : Str) (inputSize : Nat) (request : HttpRequestHeader)
    (connection : Connection) : Parsed :=
  match validHTTPRequest (memory input fun _ => 0) inputSize with
  | .incomplete => .incomplete
  | .error code => .error code (request.log input)
  | .valid maxTotchars =>
    match getCharInString (ascii ": ,\t\n\r") input HTTP_REQUEST_CMD_DIM with
    | none => .error 400 (request.log input)
    | some tokenOff => parseLoop input maxTotchars (input.length + 1) true input (some tokenOff) request connection

end MyServer.RequestHeader
