import MyServer.Bytes
import MyServer.Lib.Fragments

/-!
# Reading a request or response body

First what is left in the buffer that the header was read into, then the socket.
-/

namespace MyServer

/-- A body's source. `buffered` is what `inBuffer` still holds from `*inBufferPos` on, `socket` what
arrives, one fragment a `recv`: an empty fragment is a timeout, and after the last one `recv` fails
if `broken` and finds the end otherwise. -/
structure Conn where
  buffered : Str
  socket : List Str
  broken : Bool
deriving DecidableEq

namespace Conn

def unread (c : Conn) : Str := c.buffered ++ c.socket.flatten

/-- `recv` with room for `n` bytes. -/
def recv (c : Conn) (n : Nat) : Option (Str × Conn) :=
  if c.socket = [] ∧ c.broken then none
  else some ((Fragments.take n c.socket).1, { c with socket := (Fragments.take n c.socket).2 })

end Conn

/-- The bytes that were read (`nbr` of them), and whether -1 was returned. -/
structure ReadResult where
  bytes : Str
  failed : Bool
  conn : Conn

def readContiguousPrimitivePostData (c : Conn) (outBufferSize : Nat) : ReadResult :=
  let got := c.buffered.take outBufferSize
  let c := { c with buffered := c.buffered.drop outBufferSize }
  if got.length = outBufferSize then ⟨got, false, c⟩
  else
    match c.recv (outBufferSize - got.length) with
    | none => ⟨got, true, c⟩
    | some (more, c) => ⟨got ++ more, false, c⟩

/-! ## The size line -/

def isHexDigit (b : Byte) : Bool :=
  (48 ≤ b.toNat ∧ b.toNat ≤ 57) ∨ (65 ≤ b.toNat ∧ b.toNat ≤ 70) ∨ (97 ≤ b.toNat ∧ b.toNat ≤ 102)

def hexDigit (b : Byte) : Nat :=
  if b.toNat ≤ 57 then b.toNat - 48
  else if 97 ≤ b.toNat then b.toNat - 97 + 10
  else b.toNat - 65 + 10

def hexLoop (u : Nat) : Str → Nat
  | [] => u
  | b :: s =>
    if !isHexDigit b then 0
    else if 0x10000000 ≤ u then 0
    else hexLoop (u * 16 + hexDigit b) s

/-- The sum is an `u_long`, what is returned an `int`. -/
def hexToInt (str : Str) : Int := (BitVec.ofNat 32 (hexLoop 0 (cstr str))).toInt

example : hexToInt (ascii "1F") = 31 ∧ hexToInt (ascii "FFFFFFFF") = -1 := by decide

/-- The characters of the size line up to `'\r'`, at most 19 of them. -/
def readSizeChars (c : Conn) (buffer : Str) : Nat → Option (Str × Conn)
  | 0 =>
    let r := readContiguousPrimitivePostData c 1
    if r.bytes.length ≠ 1 then none else some (buffer, r.conn)
  | room + 1 =>
    let r := readContiguousPrimitivePostData c 1
    match r.bytes with
    | [ch'] =>
      if ch' = ch '\r' then some (buffer, r.conn)
      else if r.failed then some (buffer ++ [ch'], r.conn)
      else readSizeChars r.conn (buffer ++ [ch']) room
    | _ => none

/-- `dataToRead`, from a size line; a negative `int` becomes a large `u_long`. -/
def readSizeLine (c : Conn) : Option (Nat × Conn) :=
  match readSizeChars c [] 19 with
  | none => none
  | some (buffer, c) =>
    let r := readContiguousPrimitivePostData c 1
    if r.failed then none else some ((BitVec.ofInt 64 (hexToInt buffer)).toNat, r.conn)

/-! ## Chunks -/

/-- A stream to write to: what it answers to `write` when it already holds something, an error or
the number of bytes that it took. -/
structure Sink where
  write : Str → Str → Option Nat

def Sink.Accepts (out : Sink) : Prop := ∀ written bytes, out.write written bytes = some bytes.length

def Sink.memory : Sink := ⟨fun _ bytes => some bytes.length⟩

theorem Sink.memory_accepts : Sink.memory.Accepts := fun _ _ => rfl

/-- What one call of `readChunkedPostData` is given besides the source. -/
structure ChunkedCall where
  outBufferSize : Nat
  out : Option Sink
  maxChunks : Int

/-- `outBuffer` is what the last read put there, `written` what `out` took. -/
structure Progress where
  conn : Conn
  outBuffer : Str
  outNbr : Nat
  written : Str
deriving DecidableEq

def deliver (p : ChunkedCall) (s : Progress) (r : ReadResult) : Option Progress :=
  let nbr := r.bytes.length
  match p.out with
  | none => some { s with conn := r.conn, outBuffer := r.bytes, outNbr := s.outNbr + nbr }
  | some out =>
    match out.write s.written r.bytes with
    | none => none
    | some nbw =>
      if nbw ≠ nbr then none
      else some {
        conn := r.conn
        outBuffer := r.bytes
        outNbr := s.outNbr + nbw
        written := s.written ++ r.bytes }

/-- How the payload loop ends: with -1, with 0 for the whole call and so many bytes of the chunk
unread, or the next chunk follows. -/
inductive PayloadEnd
  | failed
  | returned (remaining : Nat) (s : Progress)
  | left (s : Progress)

/-- `none` is out of fuel. -/
def readPayload (p : ChunkedCall) (dataToRead : Nat) : Nat → Nat → Progress → Option PayloadEnd
  | 0, _, _ => none
  | fuel + 1, chunkNbr, s =>
    if chunkNbr < dataToRead then
      let r := readContiguousPrimitivePostData s.conn (min p.outBufferSize (dataToRead - chunkNbr))
      if r.bytes.length = 0 then some .failed
      else
        let chunkNbr := chunkNbr + r.bytes.length
        match deliver p s r with
        | none => some .failed
        | some s =>
          if r.failed then some (.left s)
          else
            -- Only what the call returns is looked at, not how many of the two bytes it read.
            let e : ReadResult :=
              if chunkNbr = dataToRead then readContiguousPrimitivePostData s.conn 2
              else ⟨[], false, s.conn⟩
            let s := { s with conn := e.conn }
            if e.failed then some .failed
            else if p.out.isNone then some (.returned (dataToRead - chunkNbr) s)
            else readPayload p dataToRead fuel chunkNbr s
    else some (.left s)

/-- -1, or 0 with what the call leaves behind; `remainingChunk` may be a null pointer. -/
inductive ChunkedResult
  | failure
  | success (s : Progress) (remainingChunk : Option Nat)
deriving DecidableEq

def readChunks (p : ChunkedCall) (remainingChunk : Option Nat) :
    Nat → Nat → Progress → Option ChunkedResult
  | 0, _, _ => none
  | fuel + 1, n, s =>
    if p.maxChunks = 0 ∨ n < p.maxChunks then
      let size :=
        if remainingChunk.getD 0 ≠ 0 then some (remainingChunk.getD 0, s.conn)
        else readSizeLine s.conn
      match size with
      | none => some .failure
      | some (dataToRead, conn) =>
        let s := { s with conn }
        if dataToRead = 0 then some (.success s (remainingChunk.map fun _ => 0))
        else
          match readPayload p dataToRead (conn.unread.length + 1) 0 s with
          | none => none
          | some .failed => some .failure
          | some (.returned k s) => some (.success s (remainingChunk.map fun _ => k))
          | some (.left s) => readChunks p remainingChunk fuel (n + 1) s
    else some (.success s (remainingChunk.map fun _ => 0))

def readChunkedPostData (p : ChunkedCall) (c : Conn) (remainingChunk : Option Nat) :
    Option ChunkedResult :=
  readChunks p remainingChunk (c.unread.length + 1) 0 ⟨c, [], 0, []⟩

/-- The chunked loop of `Proxy::readPayLoad`: one read of the server's answer at a time, until one
has no bytes. What it hands on is kept; `none` is a failure or out of fuel. -/
def readPayLoad (bufferSize : Nat) : Nat → Conn → Nat → Str → Option (Str × Conn)
  | 0, _, _, _ => none
  | fuel + 1, c, remainingChunkSize, sent =>
    match readChunkedPostData ⟨bufferSize, none, 1⟩ c (some remainingChunkSize) with
    | some (.success s remaining) =>
      if s.outNbr = 0 then some (sent, s.conn)
      else readPayLoad bufferSize fuel s.conn (remaining.getD 0) (sent ++ s.outBuffer)
    | _ => none

end MyServer
