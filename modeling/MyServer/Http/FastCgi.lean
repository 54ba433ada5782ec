import MyServer.Bytes
import MyServer.Lib.Fragments

/-!
# Reading a FastCGI response (fastcgi.cpp)

The records of the FastCGI server arrive in fragments. The reader looks only at
the `value` of what arrives, so that each byte can carry where it stood.
-/

namespace MyServer.FastCgi

def FCGIEND_REQUEST : Byte := 3
def FCGISTDOUT : Byte := 6
def FCGISTDERR : Byte := 7

/-- `FcgiHeader`, without the fields that are not looked at. -/
structure FcgiHeader where
  type : Byte
  contentLengthB1 : Byte
  contentLengthB0 : Byte
  paddingLength : Byte

def FcgiHeader.ofBytes (bs : Str) : FcgiHeader :=
  ⟨bs.getD 1 0, bs.getD 4 0, bs.getD 5 0, bs.getD 6 0⟩

def FcgiHeader.dim (h : FcgiHeader) : Nat :=
  h.contentLengthB1.toNat <<< 8 ||| h.contentLengthB0.toNat

/-- What `handleHeader` asks of the parsed header. -/
structure Response where
  xSendfile : Bool
  location : Bool
  successful : Bool

/-- `realLength` is `server.buffer_size`, which the server does not take below 81920. The parser sees
the buffer from its start, and may be any function. -/
structure Env where
  realLength : Nat
  realLength_ge : 81920 ≤ realLength
  allowSendfile : Bool
  appendOutputs : Bool
  onlyHeader : Bool
  sendHeaderFails : Bool
  buildHTTPResponseHeaderStruct : Str → Response

/-- Where the header ends: `i + 4` for the first empty line, and 0 if there is none. -/
def headerSizeFrom (i : Nat) : Str → Nat
  | [] => 0
  | b :: bs => if (b :: bs).take 4 = crlf ++ crlf then i + 4 else headerSizeFrom (i + 1) bs

def headerSize (bs : Str) : Nat := headerSizeFrom 0 bs

/-- What becomes of the first data: the search runs past the buffer, the response is complete, or
the header is sent and the rest is forwarded. -/
inductive Handled (α : Type) where
  | overrun
  | completed
  | started (successful : Bool) (rest : List α)

/-- What `sendData` comes to: the search runs past the buffer, the loop ends or waits for good, or
data was forwarded, under a status that was a success or not. -/
inductive Sent (α : Type) where
  | overrun
  | ended
  | forwarded (successful : Bool) (data : List α) (fs : List (List α))

section Reader

variable {α : Type}

def Handled.sent : Handled α → List (List α) → Sent α
  | .overrun, _ => .overrun
  | .completed, _ => .ended
  | .started successful rest, fs => .forwarded successful rest fs

/-- What is forwarded, with what is forwarded after it. -/
def Sent.andThen : Sent α → (Bool → List (List α) → Option (List α)) → Option (List α)
  | .overrun, _ => none
  | .ended, _ => some []
  | .forwarded successful data fs, next => (next successful fs).map (data ++ ·)

section AndThen

variable (next : Bool → List (List α) → Option (List α))

@[simp] theorem andThen_overrun : Sent.overrun.andThen next = none := rfl
@[simp] theorem andThen_ended : Sent.ended.andThen next = some [] := rfl
@[simp] theorem andThen_forwarded (successful : Bool) (data : List α) (fs : List (List α)) :
    (Sent.forwarded successful data fs).andThen next = (next successful fs).map (data ++ ·) := rfl

end AndThen

variable (value : α → Byte) (env : Env)

/-- The bound of the search is `size - 3`, which wraps below 3. -/
def handleHeader (buffer : List α) : Handled α :=
  let bs := buffer.map value
  let response := env.buildHTTPResponseHeaderStruct bs
  if buffer.length < 3 then .overrun
  else if env.allowSendfile ∧ response.xSendfile then .completed
  else if ¬ env.appendOutputs ∧ response.location then .completed
  else if env.sendHeaderFails then .completed
  else .started response.successful
    (if response.successful then buffer.drop (headerSize bs) else [])

/-- The loop of `sendData` after the header. Each read begins at the start of the buffer, and the
last one is left in it. -/
def lastRead (dim : Nat) : Nat → Nat → List (List α) → Option (List α × List (List α))
  | 0, _, _ => none
  | fuel + 1, dataRead, fs =>
    let r := Fragments.take (min env.realLength dim) fs
    if r.1 = [] then none
    else if dataRead + r.1.length < dim then lastRead dim fuel (dataRead + r.1.length) r.2
    else some r

/-- `headerSent` says whether the status was a success, once the header is sent. Before that one
read is made, whatever the length of the record. -/
def sendData (dim : Nat) (headerSent : Option Bool) (fs : List (List α)) : Sent α :=
  match headerSent with
  | none =>
    let r := Fragments.take (min env.realLength dim) fs
    if r.1 = [] then .ended else (handleHeader value env r.1).sent r.2
  | some successful =>
    match lastRead env dim dim 0 fs with
    | none => .ended
    | some (buffer, fs) =>
      if env.onlyHeader ∨ ¬ successful then .ended else .forwarded successful buffer fs

def readHeader (fs : List (List α)) : Option (List α × List (List α)) := Fragments.takeAll 8 8 fs

def readPadding (paddingLength : Nat) (fs : List (List α)) : Option (List α × List (List α)) :=
  let toPad := if env.realLength < paddingLength then env.realLength else paddingLength
  Fragments.takeAll toPad toPad fs

/-- The loop goes on behind the padding, if it comes. -/
def afterPadding (header : FcgiHeader) (fs : List (List α))
    (next : List (List α) → Option (List α)) : Option (List α) :=
  match readPadding env header.paddingLength.toNat fs with
  | none => some []
  | some (_, fs) => next fs

/-- The loop of `send` over the records: what it forwards to the client from here on, or nothing if
it reads past its buffer. Where the server sends no more, the loop waits for good. -/
def loop : Nat → Option Bool → List (List α) → Option (List α)
  | 0, _, _ => some []
  | fuel + 1, headerSent, fs =>
    match readHeader fs with
    | none => some []
    | some (head, fs) =>
      let header := FcgiHeader.ofBytes (head.map value)
      if header.dim = 0 then some []
      else if header.type = FCGISTDERR then some []
      else if header.type = FCGIEND_REQUEST then some []
      else if header.type = FCGISTDOUT then
        (sendData value env header.dim headerSent fs).andThen fun successful fs =>
          afterPadding env header fs (loop fuel (some successful))
      else afterPadding env header fs (loop fuel headerSent)

/-- Each record takes eight bytes at least. -/
def send (fs : List (List α)) : Option (List α) := loop value env fs.flatten.length none fs

end Reader

/-! ## Only the values are looked at -/

section Map

variable {α β : Type} (g : α → β) (value : β → Byte) (env : Env)

def Handled.map : Handled α → Handled β
  | .overrun => .overrun
  | .completed => .completed
  | .started successful rest => .started successful (rest.map g)

def Sent.map : Sent α → Sent β
  | .overrun => .overrun
  | .ended => .ended
  | .forwarded successful data fs => .forwarded successful (data.map g) (fs.map (List.map g))

theorem handleHeader_map (buffer : List α) :
    handleHeader value env (buffer.map g) = (handleHeader (value ∘ g) env buffer).map g := by
  unfold handleHeader
  dsimp only
  rw [List.length_map, List.map_map, ← List.map_drop]
  split_ifs <;> rfl

theorem lastRead_map (dim fuel dataRead : Nat) (fs : List (List α)) :
    lastRead env dim fuel dataRead (fs.map (List.map g)) =
      (lastRead env dim fuel dataRead fs).map fun r => (r.1.map g, r.2.map (List.map g)) := by
  induction fuel generalizing dataRead fs with
  | zero => rfl
  | succ fuel ih =>
    unfold lastRead
    rw [Fragments.take_map]
    dsimp only
    rw [ih, List.length_map]
    simp only [List.map_eq_nil_iff]
    split_ifs <;> rfl

theorem sendData_map (dim : Nat) (headerSent : Option Bool) (fs : List (List α)) :
    sendData value env dim headerSent (fs.map (List.map g)) =
      (sendData (value ∘ g) env dim headerSent fs).map g := by
  unfold sendData
  cases headerSent with
  | none =>
    dsimp only
    rw [Fragments.take_map, handleHeader_map]
    simp only [List.map_eq_nil_iff]
    split
    · rfl
    · cases handleHeader (value ∘ g) env (Fragments.take (min env.realLength dim) fs).1 <;> rfl
  | some successful =>
    dsimp only
    rw [lastRead_map]
    cases lastRead env dim dim 0 fs with
    | none => rfl
    | some r =>
      dsimp only [Option.map_some]
      split <;> rfl

theorem afterPadding_map {header : FcgiHeader} {fs : List (List α)}
    {next : List (List α) → Option (List α)} {next' : List (List β) → Option (List β)}
    (h : ∀ fs, next' (fs.map (List.map g)) = (next fs).map (List.map g)) :
    afterPadding env header (fs.map (List.map g)) next' =
      (afterPadding env header fs next).map (List.map g) := by
  unfold afterPadding readPadding
  dsimp only
  rw [Fragments.takeAll_map]
  cases Fragments.takeAll _ _ fs with
  | none => rfl
  | some r => exact h r.2

theorem andThen_map {sent : Sent α} {next : Bool → List (List α) → Option (List α)}
    {next' : Bool → List (List β) → Option (List β)}
    (h : ∀ successful fs, next' successful (fs.map (List.map g)) =
      (next successful fs).map (List.map g)) :
    (sent.map g).andThen next' = (sent.andThen next).map (List.map g) := by
  cases sent with
  | overrun => rfl
  | ended => rfl
  | forwarded successful data fs =>
    rw [Sent.map, andThen_forwarded, andThen_forwarded, h, Option.map_map, Option.map_map]
    congr 1
    funext l
    simp

theorem loop_map (fuel : Nat) (headerSent : Option Bool) (fs : List (List α)) :
    loop value env fuel headerSent (fs.map (List.map g)) =
      (loop (value ∘ g) env fuel headerSent fs).map (List.map g) := by
  induction fuel generalizing headerSent fs with
  | zero => rfl
  | succ fuel ih =>
    unfold loop readHeader
    rw [Fragments.takeAll_map]
    cases Fragments.takeAll 8 8 fs with
    | none => rfl
    | some r =>
      have hpadding : ∀ header headerSent fs,
          afterPadding env header (fs.map (List.map g)) (loop value env fuel headerSent) =
            (afterPadding env header fs (loop (value ∘ g) env fuel headerSent)).map (List.map g) :=
        fun header headerSent fs => afterPadding_map g env (ih headerSent)
      dsimp only [Option.map_some]
      rw [List.map_map, sendData_map, hpadding,
        andThen_map g (fun successful fs => hpadding _ (some successful) fs)]
      split_ifs <;> rfl

/-- **The run on bytes** is the run on what carries them. -/
theorem send_map (fs : List (List α)) :
    send value env (fs.map (List.map g)) = (send (value ∘ g) env fs).map (List.map g) := by
  unfold send
  rw [loop_map, ← List.map_flatten, List.length_map]

end Map

end MyServer.FastCgi
