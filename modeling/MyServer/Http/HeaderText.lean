import MyServer.Decimal

/-!
# Headers written into a buffer (http_headers.cpp, securestr.cpp)

The position goes on by what `myserver_strlcpy` returns, which is the length of the
text it was given. The size that it is told is a difference.
-/

namespace MyServer.HeaderText

def MAX : Nat := 8192

def toUpper (b : Byte) : Byte := if 97 ≤ b.toNat ∧ b.toNat ≤ 122 then b - 32 else b

/-! ## The buffer -/

/-- What stands behind `str`, up to where `pos` has got. -/
structure Output where
  memory : Nat → Byte
  pos : Nat
  /-- So far every position and every size lay inside the buffer, and so did what was written. -/
  inside : Bool

def store (memory : Nat → Byte) (dst : Nat) (bytes : Str) : Nat → Byte := fun i =>
  if dst ≤ i ∧ i < dst + bytes.length then bytes.getD (i - dst) 0 else memory i

def strlcpy (memory : Nat → Byte) (dst : Nat) (src : Str) (size : Nat) : Nat → Byte :=
  let ret := (cstr src).length
  let tc := min ret size
  if tc = 0 then memory
  else
    let tc := if size ≤ ret then tc - 1 else tc
    store memory dst ((cstr src).take tc ++ [0])

/-- `MAX - (long)(pos - str)`, as the `unsigned int` that it is passed as. -/
def room (pos : Nat) : Nat := (BitVec.ofInt 32 (MAX - pos)).toNat

namespace Output

/-- `pos += myserver_strlcpy (pos, src, MAX - (long)(pos - str))`; what is returned is an `unsigned int`. -/
def copy (src : Str) (o : Output) : Output where
  memory := strlcpy o.memory o.pos src (room o.pos)
  pos := o.pos + (cstr src).length % 2 ^ 32
  inside := o.inside && o.pos < MAX

/-- `pos += sprintf (pos, ...)`. -/
def sprintf (text : Str) (o : Output) : Output where
  memory := store o.memory o.pos (text ++ [0])
  pos := o.pos + text.length
  inside := o.inside && o.pos + text.length < MAX

/-- `while (old_pos++ != pos)`, with so many steps to go. -/
def capitaliseLoop (old_pos : Nat) : Nat → (Nat → Byte) → Nat → Byte
  | 0, memory => memory
  | steps + 1, memory =>
    capitaliseLoop (old_pos + 1) steps
      (if memory old_pos = ch '-' then
        Function.update memory (old_pos + 1) (toUpper (memory (old_pos + 1)))
      else memory)

def copyName (name : Str) (o : Output) : Output :=
  let copied := o.copy name
  let first := Function.update copied.memory o.pos (toUpper (copied.memory o.pos))
  { copied with
    memory := capitaliseLoop o.pos (copied.pos - o.pos) first
    inside := copied.inside && copied.pos < MAX }

/-- `sprintf (buffer, "%llu", ...)` into a local array of twelve characters, and its copy. -/
def copyNumber (value : BitVec 64) (o : Output) : Output :=
  let digits := decimal value.toNat
  { o.copy digits with inside := (o.copy digits).inside && digits.length < 12 }

end Output

inductive Piece where
  | copy (src : Str)
  | sprintf (text : Str)
  | name (src : Str)
  | number (value : BitVec 64)

def Piece.write : Piece → Output → Output
  | .copy src => Output.copy src
  | .sprintf text => Output.sprintf text
  | .name src => Output.copyName src
  | .number value => Output.copyNumber value

def write (pieces : List Piece) (o : Output) : Output := pieces.foldl (fun o piece => piece.write o) o

/-! ## Headers -/

structure Entry where
  name : Str
  value : Str

/-- `other` lists the fields by their keys, in the order of the hash map's iterator. -/
structure HttpResponseHeader where
  httpStatus : Int
  ver : Str
  contentLength : Str
  errorType : Str
  other : List (Str × Entry)

def Entry.response (e : Entry) : List Piece :=
  [.name e.name, .copy (ascii ": "), .copy e.value, .copy crlf]

/-- `HttpErrors::getErrorMessage` gives what the table of messages has. -/
def HttpResponseHeader.status (response : HttpResponseHeader) (messages : Int → Str) : List Piece :=
  if response.httpStatus ≠ 200 then
    let errorType :=
      cstr (if response.errorType = [] then messages response.httpStatus else response.errorType)
    .sprintf (cstr response.ver ++ [ch ' '] ++ decimalInt response.httpStatus ++ [ch ' '] ++ errorType ++
        crlf) ::
      (if errorType ≠ [] then [.sprintf (ascii "Status: " ++ errorType ++ crlf)] else [])
  else [.sprintf (cstr response.ver ++ ascii " 200 OK" ++ crlf)]

/-- Not written when the answer is sent in chunks. -/
def HttpResponseHeader.length (response : HttpResponseHeader) : List Piece :=
  if response.contentLength ≠ [] ∧
      ¬ (response.other.lookup (ascii "transfer-encoding")).any fun e => ascii "chunked" <:+: e.value then
    [.copy (ascii "Content-length: "), .copy response.contentLength, .copy crlf]
  else []

def responsePieces (messages : Int → Str) (response : HttpResponseHeader) : List Piece :=
  response.status messages ++ response.length ++ response.other.flatMap (fun e => e.2.response) ++
    [.copy (ascii "Accept-Ranges: bytes" ++ crlf), .copy crlf]

/-- The buffer has anything in it when it is given. The number that is returned is `pos`. -/
def buildHTTPResponseHeader (messages : Int → Str) (memory : Nat → Byte)
    (response : HttpResponseHeader) : Output :=
  write (responsePieces messages response) ⟨memory, 0, true⟩

structure HttpRequestHeader where
  cmd : Str
  uri : Str
  uriOpts : Str
  ver : Str
  auth : Str
  contentLength : Str
  rangeType : Str
  rangeByteBegin : BitVec 64
  rangeByteEnd : BitVec 64
  /-- NULL entries are left out. -/
  other : List Entry

def field (name : String) (value : Str) : List Piece :=
  if value = [] then [] else [.copy (ascii name), .copy value, .copy crlf]

/-- A bound is written when it is negative. -/
def bound (value : BitVec 64) : List Piece := if value.toInt < 0 then [.number value] else []

def HttpRequestHeader.range (request : HttpRequestHeader) : List Piece :=
  if request.rangeType = [] then []
  else
    [.copy (ascii "Range: "), .copy request.rangeType, .copy (ascii " ")] ++
      bound request.rangeByteBegin ++ [.copy (ascii "-")] ++ bound request.rangeByteEnd ++ [.copy crlf]

def requestPieces (request : HttpRequestHeader) : List Piece :=
  [Piece.copy request.cmd, Piece.copy (ascii " "), Piece.copy request.uri, Piece.copy (ascii " ")] ++
    (if request.uriOpts = [] then []
      else [Piece.copy (ascii "?"), Piece.copy request.uriOpts, Piece.copy (ascii " ")]) ++
    [Piece.copy request.ver, Piece.copy crlf] ++ field "Authorization: " request.auth ++
    field "Content-length: " request.contentLength ++ request.range ++
    request.other.flatMap (fun e =>
      [Piece.copy e.name, Piece.copy (ascii ": "), Piece.copy e.value, Piece.copy crlf]) ++
    [Piece.copy crlf]

def buildHTTPRequestHeader (memory : Nat → Byte) (request : HttpRequestHeader) : Output :=
  write (requestPieces request) ⟨memory, 0, true⟩

end MyServer.HeaderText
