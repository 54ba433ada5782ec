import MyServer.Http.DataHandler
import MyServer.Http.RangeHeader

/-!
# Sending a file

The header counts from the bounds of the range. The body is then either copied to the
socket by the file itself, which is told where to begin only, or read and appended
piece by piece.
-/

namespace MyServer

/-- How many of the bytes that are there one `read` or `sendfile` moves. -/
structure Kernel where
  move : Nat → Nat → Nat
  move_le : ∀ offset n, move offset n ≤ n
  move_pos : ∀ offset n, 0 < n → 0 < move offset n

/-- A `CachedFile`, and a `File` where `sendfile` is there and where it is not. -/
inductive FileKind
  | cached
  | sendfile
  | readWrite
deriving DecidableEq

structure OpenFile where
  kind : FileKind
  content : Str

namespace OpenFile

variable (k : Kernel) (f : OpenFile)

def size : Nat := f.content.length

/-- The position afterwards, `none` for an exception. A cached file stays where it is when the
position lies behind its end, and does not look at the other side. -/
def seek (initialByte : Int) : Option Int :=
  match f.kind with
  | .cached => some (if (f.size : Int) < initialByte then 0 else initialByte)
  | .sendfile | .readWrite => if initialByte < 0 then none else some initialByte

/-- `none` where memory before the buffer is read. -/
def read (position : Int) (n : Nat) : Option Str :=
  match f.kind with
  | .cached => if position < 0 then none else some ((f.content.drop position.toNat).take n)
  | .sendfile | .readWrite =>
    some ((f.content.drop position.toNat).take
      (k.move position.toNat (min n (f.size - position.toNat))))

end OpenFile

/-- `Socket::write` hands the length on as an `int`. -/
def socketSink : Sink where
  write _ bytes :=
    if bytes.length % 2 ^ 32 < 2 ^ 31 then some (bytes.length % 2 ^ 32) else none

def fileSinks : Sinks := ⟨socketSink, Sink.memory⟩

/-- How the sending of a body ends. -/
inductive Sending
  | done (s : Streams Unit)
  | thrown
  | stray
  | endless

section Fast

variable (k : Kernel) (f : OpenFile)

/-- The loop around `sendfile`; where nothing is moved any more it goes on for ever. -/
def sendfileLoop (offset : Nat) (s : Streams Unit) : Sending :=
  let n := k.move offset (f.size - offset)
  let s := { s with channel := s.channel ++ (f.content.drop offset).take n }
  if offset + n = f.size then .done s
  else if n = 0 then .endless
  else sendfileLoop (offset + n) s
termination_by f.size - offset
decreasing_by
  have := k.move_le offset (f.size - offset)
  omega

/-- The loop of `read` and `write`. -/
def copyLoop (realLength offset : Nat) (s : Streams Unit) : Sending :=
  let n := k.move offset (min realLength (f.size - offset))
  if n = 0 then .done s
  else
    let r := writeTo fileSinks .channel ((f.content.drop offset).take n) s
    if r.1 then .thrown else copyLoop realLength (offset + n) r.2
termination_by f.size - offset
decreasing_by
  have := k.move_le offset (min realLength (f.size - offset))
  omega

def fastCopyToSocket (realLength : Nat) (firstByte : Int) (s : Streams Unit) : Sending :=
  match f.kind with
  | .cached =>
    if firstByte < 0 ∨ (f.size : Int) < firstByte then .stray
    else
      let r := writeTo fileSinks .channel (f.content.drop firstByte.toNat) s
      if r.1 then .thrown else .done r.2
  -- The error of a negative offset ends the loop, and 0 is returned.
  | .sendfile => if firstByte < 0 then .done s else sendfileLoop k f firstByte.toNat s
  | .readWrite => if firstByte < 0 then .thrown else copyLoop k f realLength firstByte.toNat s

end Fast

/-- The parts of the thread context that decide how a file is sent. -/
structure SendContext where
  appendOutputs : Bool
  ssl : Bool
  realLength : Nat

/-- The chain without filters. -/
def SendContext.chain (td : SendContext) : FiltersChain Unit :=
  ⟨[], if td.appendOutputs then .outputData else .channel⟩

/-- The loop for the rest of the file. -/
def sendRest (td : SendContext) (k : Kernel) (f : OpenFile) (position : Int) (bytesToSend : Nat)
    (s : Streams Unit) : Sending :=
  if bytesToSend = 0 then .done (td.chain.flush fileSinks s).2
  else
    match f.read k position (min bytesToSend (td.realLength / 2)) with
    | none => .stray
    | some bytes =>
      if bytes.length = 0 then .done (td.chain.flush fileSinks s).2
      else
        sendRest td k f (position + bytes.length) (bytesToSend - bytes.length)
          (appendFilteredToHTTPChannel fileSinks bytes td.chain td.appendOutputs false
            td.realLength s).streams
termination_by bytesToSend

namespace HttpRange

def lastByte (r : HttpRange) (filesize : Nat) : Int :=
  if r.rangeByteEnd = 0 then filesize else min (r.rangeByteEnd + 1) filesize

/-- A `size_t`. -/
def bytesToSend (r : HttpRange) (filesize : Nat) : Nat :=
  ((r.lastByte filesize - r.rangeByteBegin) % 2 ^ 64).toNat

/-- The status and the numbers of the Content-Range header, each cast to `u_long`. -/
def status (r : HttpRange) : Nat :=
  if r.rangeByteBegin ≠ 0 ∨ r.rangeByteEnd ≠ 0 then 206 else 200

def contentRange (r : HttpRange) (filesize : Nat) : Option (Nat × Nat × Nat) :=
  if r.rangeByteBegin ≠ 0 ∨ r.rangeByteEnd ≠ 0 then
    some ((r.rangeByteBegin % 2 ^ 64).toNat, ((r.lastByte filesize - 1) % 2 ^ 64).toNat, filesize)
  else none

end HttpRange

/-- The body that `HttpFile::send` sends without filters. -/
def sendBody (td : SendContext) (k : Kernel) (f : OpenFile) (r : HttpRange) (s : Streams Unit) :
    Sending :=
  if !td.appendOutputs && !td.ssl then fastCopyToSocket k f td.realLength r.rangeByteBegin s
  else
    match f.seek r.rangeByteBegin with
    | none => .thrown
    | some position => sendRest td k f position (r.bytesToSend f.size) s

end MyServer
