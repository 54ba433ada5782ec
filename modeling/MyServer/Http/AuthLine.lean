import Mathlib.Data.List.DropRight
import MyServer.Http.RangeHeader
import MyServer.Http.ResponseHeader

/-!
# The Authorization line of a request

`HttpHeaders::readReqAuthLine`, and `CBase64Utils::decode` for it (http_headers.cpp, mime_utils.cpp). A
pointer is the text that it points to, up to where memory ends.
-/

open MyServer.ResponseHeader (strtok)

namespace MyServer.RequestHeader

/-- The first of the characters among the first `max`, `max` not being 0. -/
def getCharInString (characters : Str) : Str → Nat → Option Nat
  | [], _ => none
  | _, 0 => none
  | c :: rest, max + 1 =>
    if c = 0 then none
    else if c ∈ characters then some 0
    else (getCharInString characters rest max).map (· + 1)

/-- `trim (str, trimchars)`: what is left of the string between its other characters. -/
def trimChars (trimchars str : Str) : Str := (str.dropWhile (· ∈ trimchars)).rdropWhile (· ∈ trimchars)

/-! ## Base64 -/

/-- `'\202'`, as the `int` that it is promoted to. -/
def SKIP : BitVec 32 := BitVec.ofInt 32 (-126)

def base64map (b : Byte) : BitVec 32 :=
  let n := b.toNat
  if 65 ≤ n ∧ n ≤ 90 then BitVec.ofNat 32 (n - 65)
  else if 97 ≤ n ∧ n ≤ 122 then BitVec.ofNat 32 (n - 97 + 26)
  else if 48 ≤ n ∧ n ≤ 57 then BitVec.ofNat 32 (n - 48 + 52)
  else if n = 43 then 62
  else if n = 47 then 63
  else SKIP

structure Decoding where
  s : Str
  count : Nat
  bufsize : Int
  std : BitVec 32
  result : Str
  resultlen : Nat

/-- What is not of the alphabet. A byte above 127 is a negative index, so it is nothing that can be
followed, nor is the end of memory. -/
def skipped (count : Nat) : Str → Int → Option (Str × Int)
  | [], _ => none
  | c :: rest, bufsize =>
    if 128 ≤ c.toNat then none
    else if base64map c ≠ SKIP then some (c :: rest, bufsize)
    else if bufsize - 1 ≤ count then some (rest, bufsize - 1)
    else skipped count rest (bufsize - 1)

def bytesOf (std : BitVec 32) : Str :=
  [16, 8, 0].map fun shift => UInt8.ofNat (std.sshiftRight shift).toNat

/-- One turn, with the character at `s`. -/
def Decoding.turn (d : Decoding) (c : Byte) (s : Str) (bufsize : Int) : Decoding :=
  let std := (d.std ||| base64map c) <<< 6
  if d.count % 4 = 0 then
    { s, bufsize, count := d.count + 1, std := 0
      result := d.result ++ bytesOf (std.sshiftRight 6), resultlen := d.resultlen + 3 }
  else { d with s, bufsize, std, count := d.count + 1 }

def decodeLoop : Nat → Decoding → Option Decoding
  | 0, d => some d
  | fuel + 1, d =>
    match d.s with
    | [] => none
    | c :: _ =>
      if c = ch '=' ∨ d.bufsize < d.count then some d
      else
        match skipped d.count d.s d.bufsize with
        | some (c :: s, bufsize) => decodeLoop fuel (d.turn c s bufsize)
        | _ => none

/-- The bytes that are written and the length that is told, which is not their number. -/
def decode (input : Str) (bufsize : Nat) : Option (Str × Nat) :=
  match decodeLoop (bufsize + 1) ⟨input, 1, bufsize, 0, [], 0⟩ with
  | none => none
  | some d =>
    let part := (d.count - 1) % 4
    let (result, resultlen) :=
      if part = 0 then (d.result, d.resultlen)
      else (d.result ++ bytesOf ((d.std <<< (6 * (4 - part))).sshiftRight 6), d.resultlen + (4 - part))
    -- The buffer has one byte more than the text.
    if bufsize + 1 < result.length then none else some (result, resultlen)

/-! ## The line -/

structure Digest where
  digestRealm : Str
  digestOpaque : Str
  digestNonce : Str
  digestCnonce : Str
  digestUri : Str
  digestMethod : Str
  digestUsername : Str
  digestResponse : Str
  digestQop : Str
  digestNc : Str

def Digest.free : Digest := ⟨[], [], [], [], [], [], [], [], [], []⟩

def Digest.store (d : Digest) (name value : Str) : Digest :=
  if caseEq name (ascii "nonce") then { d with digestNonce := value.take 48 }
  else if caseEq name (ascii "opaque") then { d with digestOpaque := value.take 48 }
  else if caseEq name (ascii "uri") then { d with digestUri := value.take 1024 }
  else if caseEq name (ascii "method") then { d with digestMethod := value.take 16 }
  else if caseEq name (ascii "qop") then { d with digestQop := value.take 16 }
  else if caseEq name (ascii "realm") then { d with digestRealm := value.take 48 }
  else if caseEq name (ascii "cnonce") then { d with digestCnonce := value.take 48 }
  else if caseEq name (ascii "username") then { d with digestUsername := value.take 48 }
  else if caseEq name (ascii "response") then { d with digestResponse := value.take 48 }
  else if caseEq name (ascii "nc") then { d with digestNc := value.take 10 }
  else d

/-- What the line says: the scheme, and what is set of the connection and of the request. -/
structure Credentials where
  auth : Str
  login : Str
  password : Str
  digest : Digest

/-- The loop over `name=value` parts. -/
def digestLoop : Nat → Option Str → Str → Digest × Str → Digest × Str
  | 0, _, _, state | _ + 1, none, _, state => state
  | fuel + 1, some digestToken, rest, (digest, login) =>
    let name := trimChars (ascii " ") digestToken
    let seps := if caseEq name (ascii "nonce") || caseEq name (ascii "opaque") then ascii "," else ascii "\r\n,"
    let (value, rest) := strtok seps rest
    let state :=
      match value.map (trimChars (ascii "\" ")) with
      | none => (digest, login)
      | some value =>
        (digest.store name value, if caseEq name (ascii "username") then value else login)
    let (digestToken, rest) := strtok (ascii "=") rest
    digestLoop fuel digestToken rest state

inductive AuthLine
  /-- Memory is read or written that is not there. -/
  | undefined
  | error (code : Nat)
  | ok (credentials : Credentials) (lenOut : Nat)

/-- `line` starts with the scheme. -/
def readBasic (line : Str) (digest : Digest) (before : Nat) : AuthLine :=
  let base64 := line.drop 6
  match getEndLine base64 64 with
  | none => .error 400
  | some len =>
    match decode base64 len with
    | none => .undefined
    | some (decodedPw, len) =>
      let i := decodedPw.idxOf (ch ':')
      -- The colon is looked for without an end, and a length of -1 is copied when it is too far.
      if len ≤ i then .undefined
      else
        match getEndLine line 100 with
        | none => .error 400
        | some tokenOff =>
          let password := (decodedPw.drop (i + 1)).take (len - i - 1)
          .ok ⟨ascii "Basic", cstr (decodedPw.take i), cstr password, digest⟩ (tokenOff + before)

/-- `text` is behind the scheme and the spaces. -/
def readDigest (text : Str) (digest : Digest) (before : Nat) : AuthLine :=
  match getEndLine text 1024 with
  | none => .error 400
  | some tokenOff =>
    match strtok (ascii "=") (text.take tokenOff) with
    | (none, _) => .error 400
    | (digestToken, rest) =>
      let (digest, login) := digestLoop (tokenOff + 1) digestToken rest (digest, [])
      .ok ⟨ascii "Digest", login, [], digest⟩ (tokenOff + before)

def HTTP_REQUEST_AUTH_DIM : Nat := 16

/-- `lenOut` comes in as the length of the name of the line, and stays that for other schemes. -/
def readReqAuthLine (token : Str) (digest : Digest) (lenOut : Nat) : AuthLine :=
  let line := token.dropWhile (· = ch ' ')
  match getCharInString (ascii " ") line HTTP_REQUEST_AUTH_DIM with
  | none => .error 400
  | some tokenOff =>
    let auth := line.take tokenOff
    if auth = ascii "Basic" then readBasic line digest (token.length - line.length)
    else if auth = ascii "Digest" then
      let text := (line.drop tokenOff).dropWhile (· = ch ' ')
      readDigest text digest (token.length - text.length)
    else .ok ⟨auth, [], [], digest⟩ lenOut

end MyServer.RequestHeader
