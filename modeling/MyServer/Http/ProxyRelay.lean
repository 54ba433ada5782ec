import MyServer.Decimal
import MyServer.Http.ChunkedBody
import MyServer.Http.ChunkedStream

/-!
# The body of an upstream response

`Proxy::readPayLoad` whole: a body ends with its chunks, with its `Content-Length`, or with the connection.
-/

namespace MyServer.Proxy

structure Response where
  contentLength : Str
  serverTransferEncoding : Option Str

/-- `RET_OK` or `RET_FAILURE`, and the bytes that went to `appendDataToHTTPChannel` until then. -/
structure Relay where
  ok : Bool
  forwarded : Str
deriving DecidableEq

def atol (s : Str) : Int := max (-2 ^ 63) (min (2 ^ 63 - 1) (atoll s))

/-- An `u_long`, so the check for a negative length never holds. -/
def contentLength (res : Response) : Nat :=
  if res.contentLength = [] then 0 else (BitVec.ofInt 64 (atol res.contentLength)).toNat

section

variable (bufferSize : Nat)

/-- The loop over the chunks; `none` is out of fuel. -/
def chunkedLoop : Nat → Conn → Nat → Str → Option Relay
  | 0, _, _, _ => none
  | fuel + 1, c, remainingChunkSize, sent =>
    match readChunkedPostData ⟨bufferSize, none, 1⟩ c (some remainingChunkSize) with
    | none => none
    | some .failure => some ⟨false, sent⟩
    | some (.success s remaining) =>
      if s.outNbr = 0 then some ⟨true, sent⟩
      else chunkedLoop fuel s.conn (remaining.getD 0) (sent ++ s.outBuffer)

/-- The loop without an encoding; `contentLength` is 0 where there is none. -/
def plainLoop (contentLength : Nat) : Nat → Conn → Nat → Str → Option Relay
  | 0, _, _, _ => none
  | fuel + 1, c, length, sent =>
    let len := if contentLength ≠ 0 ∧ length < bufferSize then length else bufferSize
    if len = 0 then some ⟨true, sent⟩
    else
      let r := readContiguousPrimitivePostData c len
      if contentLength = 0 ∧ r.bytes.length = 0 then some ⟨true, sent⟩
      else
        let length := if length ≠ 0 then length - r.bytes.length else length
        if r.failed ∨ contentLength ≠ 0 ∧ length = 0 then some ⟨true, sent ++ r.bytes⟩
        else plainLoop contentLength fuel r.conn length (sent ++ r.bytes)

def readPayLoad (fuel : Nat) (res : Response) (c : Conn) : Option Relay :=
  match res.serverTransferEncoding with
  | none => plainLoop bufferSize (contentLength res) fuel c (contentLength res) []
  | some encoding =>
    if encoding ≠ ascii "chunked" then some ⟨false, []⟩ else chunkedLoop bufferSize fuel c 0 []

end

/-! ## What a body is -/

/-- The payload in the first `n` bytes of these chunks. -/
def payloadWithin : Nat → List Chunk → Str
  | _, [] => []
  | n, chunk :: chunks =>
    chunk.payload.take (n - (chunk.line.length + 2)) ++ payloadWithin (n - chunk.encode.length) chunks

/-- How the upstream server ends the body. -/
inductive Framing
  | length (text : Str)
  | chunked (body : Body)
  | close

namespace Framing

def response : Framing → Response
  | length text => ⟨text, none⟩
  | chunked _ => ⟨[], some (ascii "chunked")⟩
  | close => ⟨[], none⟩

/-- What may arrive from it: something that starts as the body does, or has all of it. -/
def Sends : Framing → Str → Prop
  | length text, _ => text ≠ []
  | chunked body, received => ∃ rest, received <+: body.encode ++ rest
  | close, _ => True

def bodyOf : Framing → Str → Str
  | length text, received => received.take (contentLength ⟨text, none⟩)
  | chunked body, received => payloadWithin received.length body.chunks
  | close, received => received

end Framing

/-- The relay ends, and what it has forwarded are the bytes of the body that arrived. -/
def Exact (bufferSize : Nat) (framing : Framing) (c : Conn) : Prop :=
  ∃ reads relay, (∀ fuel, reads ≤ fuel → readPayLoad bufferSize fuel framing.response c = some relay) ∧
    relay.forwarded = framing.bodyOf c.unread

/-! ## Without an encoding -/

section

variable {bufferSize : Nat}

/-- **A turn of the plain loop** whose length is not reached before. -/
theorem plainLoop_turn {contentLength length : Nat} (fuel : Nat) (c : Conn) (sent : Str) {len : Nat}
    (hlen : (if contentLength ≠ 0 ∧ length < bufferSize then length else bufferSize) = len) (hpos : len ≠ 0) :
    plainLoop bufferSize contentLength (fuel + 1) c length sent =
      if contentLength = 0 ∧ (readContiguousPrimitivePostData c len).bytes.length = 0 then some ⟨true, sent⟩
      else
        if (readContiguousPrimitivePostData c len).failed ∨ contentLength ≠ 0 ∧
            length - (readContiguousPrimitivePostData c len).bytes.length = 0 then
          some ⟨true, sent ++ (readContiguousPrimitivePostData c len).bytes⟩
        else plainLoop bufferSize contentLength fuel (readContiguousPrimitivePostData c len).conn
          (length - (readContiguousPrimitivePostData c len).bytes.length)
          (sent ++ (readContiguousPrimitivePostData c len).bytes) := by
  rw [plainLoop]
  dsimp only
  rw [hlen, if_neg hpos]
  have hlength : ∀ n, (if length ≠ 0 then length - n else length) = length - n := by
    intro n
    split_ifs <;> omega
  rw [hlength]

theorem unread_of_failed {c : Conn} {n : Nat} (hproper : Fragments.Proper c.socket)
    (hfailed : (readContiguousPrimitivePostData c n).failed = true) :
    (readContiguousPrimitivePostData c n).bytes = c.unread := by
  obtain ⟨hbroken, hsocket, hshort⟩ := (read_after hproper n).2.2.2.mp hfailed
  unfold readContiguousPrimitivePostData Conn.recv Conn.unread
  dsimp only
  rw [List.take_of_length_le hshort.le, if_neg (by omega), if_pos ⟨hsocket, hbroken⟩, hsocket]
  exact (List.append_nil _).symm

theorem unread_nil {c : Conn} (hproper : Fragments.Proper c.socket) (hnil : c.unread = []) :
    c.buffered = [] ∧ c.socket = [] := by
  obtain ⟨hbuffered, hflat⟩ := List.append_eq_nil_iff.mp hnil
  refine ⟨hbuffered, ?_⟩
  cases hsocket : c.socket with
  | nil => rfl
  | cons f fs =>
    rw [hsocket] at hproper hflat
    exact absurd (List.append_eq_nil_iff.mp hflat).1 (hproper f List.mem_cons_self)

/-- Without a length everything is forwarded until the connection ends. -/
theorem plainLoop_close {c : Conn} (hsize : 0 < bufferSize) (hproper : Fragments.Proper c.socket)
    {fuel : Nat} (hfuel : c.unread.length < fuel) (sent : Str) :
    plainLoop bufferSize 0 fuel c 0 sent = some ⟨true, sent ++ c.unread⟩ := by
  induction fuel generalizing c sent with
  | zero => omega
  | succ fuel ih =>
    obtain ⟨hafter, -, hne, -⟩ := read_after hproper bufferSize
    have hunread := read_unread c bufferSize
    rw [plainLoop_turn fuel c sent (by rw [if_neg (by simp)]) (by omega)]
    by_cases hnil : c.unread = []
    · have hbytes := hafter.length_le
      rw [hnil, List.length_nil] at hbytes
      rw [if_pos ⟨rfl, by omega⟩, hnil, List.append_nil]
    · have hpos := List.length_pos_iff.mpr (hne hsize hnil)
      have hrest := hafter.length
      have hle := hafter.length_le
      rw [if_neg (by omega)]
      by_cases hfailed : (readContiguousPrimitivePostData c bufferSize).failed = true
      · rw [if_pos (Or.inl hfailed), unread_of_failed hproper hfailed]
      · rw [if_neg (by simp [hfailed]), Nat.zero_sub, ih hafter.proper (by omega), List.append_assoc,
          hunread]

/-- With a length the loop ends when that many bytes were there, or the socket fails. -/
theorem plainLoop_length {n length : Nat} {c : Conn} (hn : n ≠ 0) (hsize : 0 < bufferSize)
    (hproper : Fragments.Proper c.socket) (hlength : 0 < length)
    (hends : length ≤ c.unread.length ∨ c.broken = true) {fuel : Nat} (hfuel : c.unread.length < fuel)
    (sent : Str) :
    plainLoop bufferSize n fuel c length sent = some ⟨true, sent ++ c.unread.take length⟩ := by
  induction fuel generalizing c length sent with
  | zero => omega
  | succ fuel ih =>
    set len := if n ≠ 0 ∧ length < bufferSize then length else bufferSize with hlen
    have hlen_le : 0 < len ∧ len ≤ length := by
      rw [hlen]
      split_ifs with h <;> omega
    obtain ⟨hafter, hle, hne, hfails⟩ := read_after hproper len
    have hunread := read_unread c len
    rw [plainLoop_turn fuel c sent hlen.symm (by omega), if_neg (by omega)]
    by_cases hfailed : (readContiguousPrimitivePostData c len).failed = true
    · have hall := unread_of_failed hproper hfailed
      rw [if_pos (Or.inl hfailed), ← hall, List.take_of_length_le (by omega)]
    · have htake : c.unread.take (readContiguousPrimitivePostData c len).bytes.length =
          (readContiguousPrimitivePostData c len).bytes := by
        rw [← hunread, List.take_left]
      by_cases hend : length - (readContiguousPrimitivePostData c len).bytes.length = 0
      · have hexact : length = (readContiguousPrimitivePostData c len).bytes.length := by omega
        rw [if_pos (Or.inr ⟨hn, hend⟩), hexact, htake]
      · have hnil : c.unread ≠ [] := by
          intro hnil
          obtain ⟨hbuffered, hsocket⟩ := unread_nil hproper hnil
          rw [hnil, List.length_nil] at hends
          have hbroken := hends.resolve_left (by omega)
          exact hfailed (hfails.mpr ⟨hbroken, hsocket, by rw [hbuffered]; exact hlen_le.1⟩)
        have hpos := List.length_pos_iff.mpr (hne hlen_le.1 hnil)
        have hrest := hafter.length
        have hle' := hafter.length_le
        have hends' : length - (readContiguousPrimitivePostData c len).bytes.length ≤
            (readContiguousPrimitivePostData c len).conn.unread.length ∨
              (readContiguousPrimitivePostData c len).conn.broken = true := by
          rw [hafter.broken]
          exact hends.imp_left fun h => by omega
        have hsplit : c.unread.take length = (readContiguousPrimitivePostData c len).bytes ++
            (readContiguousPrimitivePostData c len).conn.unread.take
              (length - (readContiguousPrimitivePostData c len).bytes.length) := by
          rw [← hunread, List.take_append, List.take_of_length_le (by omega)]
        rw [if_neg (by simp [hfailed, hend]), ih hafter.proper (by omega) hends' (by omega),
          List.append_assoc, hsplit]

theorem plainLoop_never {n length : Nat} {c : Conn} (hn : n ≠ 0) (hsize : 0 < bufferSize)
    (hproper : Fragments.Proper c.socket) (hshort : c.unread.length < length) (hopen : c.broken = false)
    (fuel : Nat) (sent : Str) : plainLoop bufferSize n fuel c length sent = none := by
  induction fuel generalizing c length sent with
  | zero => rfl
  | succ fuel ih =>
    set len := if n ≠ 0 ∧ length < bufferSize then length else bufferSize with hlen
    have hpos : 0 < len := by
      rw [hlen]
      split_ifs <;> omega
    obtain ⟨hafter, hle, hne, hfails⟩ := read_after hproper len
    have hrest := hafter.length
    have hle' := hafter.length_le
    have hfailed : ¬ (readContiguousPrimitivePostData c len).failed = true := by
      rw [hfails, hopen]
      nofun
    rw [plainLoop_turn fuel c sent hlen.symm (by omega), if_neg (by omega), if_neg]
    · exact ih hafter.proper (by omega) (hafter.broken.trans hopen) _
    · rintro (h | ⟨-, h⟩)
      · exact hfailed h
      · omega

end

end MyServer.Proxy
