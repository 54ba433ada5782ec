import MyServer.Http.ResponseHeader

/-!
# The header of a CGI reply

`Cgi::sendHeader` (cgi.cpp) reads from the pipe of the process into the auxiliary buffer, which earlier requests have
used too, until it finds the end of the header there.
-/

open MyServer.HeaderLines (LF)
open MyServer.ResponseHeader

namespace MyServer.CgiHeader

/-! ## The code -/

def CR : Byte := ch '\r'

/-- The auxiliary buffer, and the memory behind it, as the call finds it. -/
structure AuxBuffer where
  bytes : Nat → Byte
  realLength : Nat
  realLength_pos : 0 < realLength

/-- What one turn of the loop meets. -/
inductive Event where
  /-- `waitForData` returns 0. -/
  | timeout
  /-- `read` fails. -/
  | broken
  /-- What `pipeTerminated` says, and what there is to be read. -/
  | read (term : Bool) (bytes : Str)

/-- The bytes are stored at an offset. -/
def store (mem : Nat → Byte) (offset : Nat) (bytes : Str) : Nat → Byte := fun i =>
  if offset ≤ i ∧ i < offset + bytes.length then bytes.getD (i - offset) 0 else mem i

/-- Where the header ends, if it is here that its end begins. -/
def terminator (buff : Nat → Byte) (i : Nat) : Option Nat :=
  if buff i = CR ∧ buff (i + 1) = LF ∧ buff (i + 2) = CR ∧ buff (i + 3) = LF then some (i + 4)
  else if buff i = LF ∧ buff (i + 1) = LF then some (i + 2)
  else none

/-- `headerChecked` is 4 in every turn. -/
def search (buff : Nat → Byte) (headerOffset : Nat) : Option Nat :=
  (List.range' 4 (headerOffset - 4)).findSome? (terminator buff)

/-- How the loop comes to its end. -/
inductive Scanned where
  | waits
  | error
  | left (headerSize headerOffset : Nat) (mem : Nat → Byte)

/-- What does not fit into the buffer stays in the pipe, and no other turn reads it. -/
def headerLoop (realLength : Nat) : List Event → (Nat → Byte) → Nat → Scanned
  | [], mem, headerOffset =>
    if realLength - headerOffset - 1 < 512 then .left 0 headerOffset mem else .waits
  | event :: events, mem, headerOffset =>
    if realLength - headerOffset - 1 < 512 then .left 0 headerOffset mem
    else
      match event with
      | .timeout => .left 0 headerOffset mem
      | .broken => .error
      | .read term bytes =>
        let read := bytes.take (realLength - headerOffset - 1)
        if read = [] ∧ term then .left 0 headerOffset mem
        else
          let mem := store mem headerOffset read
          let headerOffset := headerOffset + read.length
          if headerOffset = 0 then .error
          else
            match search mem headerOffset with
            | some headerSize => .left headerSize headerOffset mem
            | none => headerLoop realLength events mem headerOffset

/-- The response behind `buildHTTPResponseHeaderStruct`. `none` is an exception. -/
def responseAfter (input : Nat → Byte) (response : HttpResponseHeader) : Option HttpResponseHeader :=
  match buildHTTPResponseHeaderStruct input response with
  | .notValid => some response
  | .parsed _ _ .nullPointer => none
  | .parsed _ _ (.returned _ response) => some response

inductive Ending where
  | threw
  | redirect (response : HttpResponseHeader) (location : Str)
  /-- The response, and the data that is passed on. `none` is a length that has wrapped. -/
  | sent (response : HttpResponseHeader) (data : Option Str)

inductive Outcome where
  | waits
  /-- `raiseHTTPError (500)` -/
  | error
  | replied (headerSize headerOffset : Nat) (ending : Ending)

/-- Once there is a response. -/
def ending (appendOutputs : Bool) (after : Option HttpResponseHeader) (data : Option Str) : Ending :=
  match after with
  | none => .threw
  | some response =>
    match response.other (ascii "location") with
    | some location => if appendOutputs = false ∧ location ≠ [] then .redirect response location else .sent response data
    | none => .sent response data

/-- `response` is the one of the request, with the `Connection` of one that is kept. -/
def sendHeader (nph appendOutputs : Bool) (response : HttpResponseHeader) (buffer : AuxBuffer) (events : List Event) :
    Outcome :=
  if nph then .replied 0 0 (.sent response (some []))
  else
    match headerLoop buffer.realLength events buffer.bytes 0 with
    | .waits => .waits
    | .error => .error
    | .left headerSize headerOffset mem =>
      let after := if headerSize ≠ 0 then responseAfter mem response else some response
      let data := if headerSize ≤ headerOffset then
          some ((List.range' headerSize (headerOffset - headerSize)).map mem)
        else none
      .replied headerSize headerOffset (ending appendOutputs after data)

/-! ## The output of a process -/

/-- A text, and zeros behind it. -/
def fill (text : Str) : Nat → Byte := fun i => text.getD i 0

/-- A header block, which ends in one of two ways, and a body. -/
structure Output where
  block : Str
  crlf : Bool
  body : Str
  first : ∀ i < block.length, terminator (fill (block ++ if crlf then [CR, LF, CR, LF] else [LF, LF])) i = none

namespace Output

variable (out : Output)

def header : Str := out.block ++ if out.crlf then [CR, LF, CR, LF] else [LF, LF]

def bytes : Str := out.header ++ out.body

end Output

/-- How the bytes come through the pipe. -/
structure Split (bytes : Str) where
  reads : List (Bool × Str)
  nonempty : ∀ r ∈ reads, r.2 ≠ []
  whole : reads.flatMap Prod.snd = bytes

/-- The reads, and then the end of the pipe. -/
def Split.events {bytes : Str} (split : Split bytes) : List Event :=
  split.reads.map (fun r => .read r.1 r.2) ++ [.read true []]

/-- The header is what it is, and the data passed on is what was read of the body. -/
def Detects (out : Output) (split : Split out.bytes) (buffer : AuxBuffer) (appendOutputs : Bool)
    (response : HttpResponseHeader) : Prop :=
  ∃ read, read <+: out.body ∧ sendHeader false appendOutputs response buffer split.events =
    .replied out.header.length (out.header ++ read).length
      (ending appendOutputs (responseAfter (fill out.header) response) (some read))

/-! ## When it is found -/

/-- How far the buffer is filled, turn by turn. -/
def offsets (realLength : Nat) : Nat → List (Bool × Str) → List Nat
  | offset, [] => [offset]
  | offset, r :: reads => offset :: offsets realLength (offset + min r.2.length (realLength - offset - 1)) reads

/-- The buffer when so much of the output has been read into it. -/
def holding (text : Str) (stale : Nat → Byte) (offset : Nat) : Nat → Byte := fun i =>
  if i < offset then text.getD i 0 else stale i

/-- The bytes read do not end in a place where what lies behind them makes an end of a header. -/
def Unfooled (text : Str) (stale : Nat → Byte) (o : Nat) : Prop :=
  ∀ i, 4 ≤ i → i < o → terminator (holding text stale o) i = none

/-- All turns up to the one at which the header is there leave room, and nothing ends it before. -/
def Reaches (out : Output) (stale : Nat → Byte) (realLength o : Nat) (reads : List (Bool × Str)) : Prop :=
  ∀ p ∈ offsets realLength o reads, p < out.header.length → p + 513 ≤ realLength ∧ Unfooled out.bytes stale p

/-- The header does not end within the first places; until all of it is there, enough room is left, and what lies
behind the bytes read does not make an end of them; and the byte behind it does not change what it says. -/
structure Undisturbed (out : Output) (split : Split out.bytes) (buffer : AuxBuffer)
    (response : HttpResponseHeader) : Prop where
  far : 4 ≤ out.block.length
  before : Reaches out buffer.bytes buffer.realLength 0 split.reads
  behind : out.crlf = false →
    ∀ o, (offsets buffer.realLength 0 split.reads).find? (fun o => out.header.length ≤ o) = some o →
      responseAfter (fill (out.header ++ [holding out.bytes buffer.bytes o out.header.length])) response =
        responseAfter (fill out.header) response

/-! ## Ends of headers -/

section

variable {mem mem' : Nat → Byte} {i e : Nat}

theorem terminator_cases (h : terminator mem i = some e) :
    (e = i + 4 ∧ mem i = CR ∧ mem (i + 1) = LF ∧ mem (i + 2) = CR ∧ mem (i + 3) = LF) ∨
      (e = i + 2 ∧ mem i = LF ∧ mem (i + 1) = LF) := by
  unfold terminator at h
  split_ifs at h with hcrlf hlf
  · exact Or.inl ⟨(Option.some.inj h).symm, hcrlf⟩
  · exact Or.inr ⟨(Option.some.inj h).symm, hlf⟩

theorem terminator_ne_none (h : mem i = CR ∧ mem (i + 1) = LF ∧ mem (i + 2) = CR ∧ mem (i + 3) = LF ∨
    mem i = LF ∧ mem (i + 1) = LF) : terminator mem i ≠ none := by
  unfold terminator
  split_ifs with hcrlf hlf
  · exact nofun
  · exact nofun
  · exact fun _ => h.elim hcrlf hlf

/-- Two ends of a header in one place are the same one. -/
theorem terminator_inj {j : Nat} (hi : terminator mem i = some e) (hj : terminator mem j = some e) : i = j := by
  have hne : CR ≠ LF := by decide
  rcases terminator_cases hi with ⟨rfl, -, -, hcr, -⟩ | ⟨rfl, hlf, -⟩
  · rcases terminator_cases hj with ⟨heq, -⟩ | ⟨heq, hlf, -⟩
    · omega
    · obtain rfl : j = i + 2 := by omega
      exact absurd (hcr.symm.trans hlf) hne
  · rcases terminator_cases hj with ⟨heq, -, -, hcr, -⟩ | ⟨heq, -⟩
    · obtain rfl : i = j + 2 := by omega
      exact absurd (hcr.symm.trans hlf) hne
    · omega

theorem search_eq_none {headerOffset : Nat} :
    search mem headerOffset = none ↔ ∀ i, 4 ≤ i → i < headerOffset → terminator mem i = none := by
  rw [search, List.findSome?_eq_none_iff]
  constructor
  · intro h i hi hlt
    exact h i (List.mem_range'_1.mpr (by omega))
  · intro h i hmem
    have := List.mem_range'_1.mp hmem
    exact h i (by omega) (by omega)

theorem search_eq_some {headerOffset : Nat} (h : search mem headerOffset = some e) :
    ∃ i, 4 ≤ i ∧ i < headerOffset ∧ terminator mem i = some e := by
  obtain ⟨i, hmem, hi⟩ := List.exists_of_findSome?_eq_some h
  have := List.mem_range'_1.mp hmem
  exact ⟨i, by omega, by omega, hi⟩

/-- The first end of a header is found. -/
theorem search_first {headerOffset : Nat} (hi : 4 ≤ i) (hlt : i < headerOffset) (hend : terminator mem i = some e)
    (hbefore : ∀ j < i, terminator mem j = none) : search mem headerOffset = some e := by
  have hsplit : List.range' 4 (headerOffset - 4) =
      List.range' 4 (i - 4) ++ i :: List.range' (i + 1) (headerOffset - i - 1) := by
    have hcons : i :: List.range' (i + 1) (headerOffset - i - 1) = List.range' i (headerOffset - i) := by
      rw [← List.range'_succ]
      congr 1
      omega
    have happend := @List.range'_append_1 4 (i - 4) (headerOffset - i)
    rw [show 4 + (i - 4) = i by omega, show i - 4 + (headerOffset - i) = headerOffset - 4 by omega] at happend
    rw [hcons, happend]
  have hnone : (List.range' 4 (i - 4)).findSome? (terminator mem) = none := by
    rw [List.findSome?_eq_none_iff]
    intro j hmem
    have := List.mem_range'_1.mp hmem
    exact hbefore j (by omega)
  rw [search, hsplit, List.findSome?_append, hnone, Option.none_or, List.findSome?_cons, hend]

end

/-! ## The header of the output -/

namespace Output

variable {out : Output} {mem : Nat → Byte}

def size (out : Output) : Nat := if out.crlf then 4 else 2

theorem length_header : out.header.length = out.block.length + out.size := by
  rw [header, List.length_append, size]
  split_ifs <;> rfl

/-- The memory has the header. -/
def In (out : Output) (mem : Nat → Byte) : Prop := ∀ i < out.header.length, mem i = fill out.header i

theorem In.ending (hmem : out.In mem) {k : Nat} (hk : k < out.size) :
    mem (out.block.length + k) = (if out.crlf then [CR, LF, CR, LF] else [LF, LF]).getD k 0 := by
  rw [hmem _ (by rw [length_header]; omega), fill, header, List.getD_eq_getElem?_getD,
    List.getElem?_append_right (Nat.le_add_right _ _), Nat.add_sub_cancel_left, List.getD_eq_getElem?_getD]

theorem In.crlf (hmem : out.In mem) (hcrlf : out.crlf = true) :
    mem out.block.length = CR ∧ mem (out.block.length + 1) = LF ∧ mem (out.block.length + 2) = CR ∧
      mem (out.block.length + 3) = LF := by
  have hsize : out.size = 4 := by rw [size, hcrlf]; rfl
  have h := fun k hk => @In.ending out mem hmem k hk
  rw [hsize, hcrlf] at h
  exact ⟨h 0 (by omega), h 1 (by omega), h 2 (by omega), h 3 (by omega)⟩

theorem In.lf (hmem : out.In mem) (hcrlf : out.crlf = false) :
    mem out.block.length = LF ∧ mem (out.block.length + 1) = LF := by
  have hsize : out.size = 2 := by rw [size, hcrlf]; rfl
  have h := fun k hk => @In.ending out mem hmem k hk
  rw [hsize, hcrlf] at h
  exact ⟨h 0 (by omega), h 1 (by omega)⟩

theorem In.terminator (hmem : out.In mem) : terminator mem out.block.length = some out.header.length := by
  rw [length_header, size]
  cases hcrlf : out.crlf with
  | true => exact if_pos (hmem.crlf hcrlf)
  | false =>
    have hlf := hmem.lf hcrlf
    have hne : ¬(mem out.block.length = CR ∧ mem (out.block.length + 1) = LF ∧ mem (out.block.length + 2) = CR ∧
        mem (out.block.length + 3) = LF) := by
      rw [hlf.1]
      exact fun h => absurd h.1 (by decide)
    rw [CgiHeader.terminator, if_neg hne, if_pos hlf]
    rfl

/-- Nothing before ends the header, whatever is behind it. -/
theorem In.first (hmem : out.In mem) : ∀ i < out.block.length, CgiHeader.terminator mem i = none := by
  intro i hi
  cases hend : CgiHeader.terminator mem i with
  | none => rfl
  | some e =>
    have hfirst := out.first i hi
    change CgiHeader.terminator (fill out.header) i = none at hfirst
    have hsize : 2 ≤ out.size := by unfold size; split_ifs <;> omega
    have hlength := @length_header out
    refine absurd hfirst (terminator_ne_none ?_)
    rcases terminator_cases hend with ⟨-, h₀, h₁, h₂, h₃⟩ | ⟨-, h₀, h₁⟩
    · have hin : i + 3 < out.header.length := by
        by_contra hout
        have hcrlf : out.crlf = false := by
          cases hcrlf : out.crlf with
          | false => rfl
          | true =>
            have hfour : out.size = 4 := by rw [size, hcrlf]; rfl
            omega
        have htwo : out.size = 2 := by rw [size, hcrlf]; rfl
        have hlf := (hmem.lf hcrlf).2
        rw [show out.block.length + 1 = i + 2 by omega, h₂] at hlf
        exact absurd hlf (by decide)
      left
      rw [← hmem i (by omega), ← hmem (i + 1) (by omega), ← hmem (i + 2) (by omega), ← hmem (i + 3) hin]
      exact ⟨h₀, h₁, h₂, h₃⟩
    · right
      rw [← hmem i (by omega), ← hmem (i + 1) (by omega)]
      exact ⟨h₀, h₁⟩

/-- Once the header is there, it is found unless it ends within the first places. -/
theorem In.search (hmem : out.In mem) (hfar : 4 ≤ out.block.length) {headerOffset : Nat}
    (hle : out.header.length ≤ headerOffset) : search mem headerOffset = some out.header.length := by
  have hlength := @length_header out
  have hsize : 2 ≤ out.size := by unfold size; split_ifs <;> omega
  exact search_first hfar (by omega) hmem.terminator hmem.first

end Output

/-! ## The buffer -/

section

variable {text : Str} {stale : Nat → Byte}

theorem holding_zero : holding text stale 0 = stale := by
  funext i
  exact if_neg (Nat.not_lt_zero i)

/-- One more read. -/
theorem store_holding {offset : Nat} {read : Str} (hread : read <+: text.drop offset) :
    store (holding text stale offset) offset read = holding text stale (offset + read.length) := by
  funext i
  unfold store holding
  by_cases hin : offset ≤ i ∧ i < offset + read.length
  · rw [if_pos hin, if_pos hin.2]
    have hget : read[i - offset]? = (text.drop offset)[i - offset]? := by
      obtain ⟨rest, hrest⟩ := hread
      rw [← hrest, List.getElem?_append_left (by omega)]
    rw [List.getD_eq_getElem?_getD, hget, List.getElem?_drop, Nat.add_sub_cancel' hin.1, List.getD_eq_getElem?_getD]
  · rw [if_neg hin]
    by_cases hlt : i < offset
    · rw [if_pos hlt, if_pos (by omega)]
    · rw [if_neg hlt, if_neg (by omega)]

theorem Output.in_holding {out : Output} {offset : Nat} (hle : out.header.length ≤ offset) :
    out.In (holding out.bytes stale offset) := by
  intro i hi
  rw [holding, if_pos (by omega), Output.bytes, fill, List.getD_eq_getElem?_getD, List.getElem?_append_left hi,
    List.getD_eq_getElem?_getD]

end

/-! ## The loop -/

/-- Where the loop is left, the buffer has all that it had, and an end of a header is where one was found. -/
theorem headerLoop_left {realLength : Nat} {events : List Event} {mem mem' : Nat → Byte} {o s o' : Nat}
    (h : headerLoop realLength events mem o = .left s o' mem') :
    o ≤ o' ∧ (∀ i < o, mem' i = mem i) ∧ (s = 0 ∨ ∃ i, 4 ≤ i ∧ terminator mem' i = some s) := by
  induction events generalizing mem o with
  | nil =>
    unfold headerLoop at h
    split_ifs at h
    cases h
    exact ⟨le_rfl, fun _ _ => rfl, Or.inl rfl⟩
  | cons event events ih =>
    have hstay : Scanned.left 0 o mem = .left s o' mem' →
        o ≤ o' ∧ (∀ i < o, mem' i = mem i) ∧ (s = 0 ∨ ∃ i, 4 ≤ i ∧ terminator mem' i = some s) := by
      intro h
      cases h
      exact ⟨le_rfl, fun _ _ => rfl, Or.inl rfl⟩
    unfold headerLoop at h
    split_ifs at h
    · exact hstay h
    cases event with
    | timeout => exact hstay h
    | broken => cases h
    | read term bytes =>
      dsimp only at h
      split_ifs at h
      · exact hstay h
      have hkept : ∀ i < o, store mem o (bytes.take (realLength - o - 1)) i = mem i :=
        fun i hi => if_neg (by omega)
      split at h
      · rename_i hsearch
        cases h
        obtain ⟨i, hi, -, hend⟩ := search_eq_some hsearch
        exact ⟨Nat.le_add_right _ _, hkept, Or.inr ⟨i, hi, hend⟩⟩
      · obtain ⟨hle, hmem, hfound⟩ := ih h
        exact ⟨by omega, fun i hi => (hmem i (by omega)).trans (hkept i hi), hfound⟩

theorem le_of_mem_offsets {realLength o p : Nat} {reads : List (Bool × Str)} (h : p ∈ offsets realLength o reads) :
    o ≤ p := by
  induction reads generalizing o with
  | nil => exact (List.mem_singleton.mp h).ge
  | cons r reads ih =>
    rcases List.mem_cons.mp h with rfl | h
    · exact le_rfl
    · have := ih h
      omega

theorem headerLoop_full {realLength o : Nat} {events : List Event} {mem : Nat → Byte} (h : ¬o + 513 ≤ realLength) :
    headerLoop realLength events mem o = .left 0 o mem := by
  cases events <;> exact if_pos (by omega)

/-- A turn that reads something. -/
theorem headerLoop_read {text : Str} {stale : Nat → Byte} {realLength o : Nat} {term : Bool} {bytes : Str}
    {events : List Event} (hroom : o + 513 ≤ realLength) (hbytes : bytes ≠ []) (hread : bytes <+: text.drop o) :
    headerLoop realLength (.read term bytes :: events) (holding text stale o) o =
      let o := o + min bytes.length (realLength - o - 1)
      match search (holding text stale o) o with
      | some headerSize => .left headerSize o (holding text stale o)
      | none => headerLoop realLength events (holding text stale o) o := by
  have hlen : (bytes.take (realLength - o - 1)).length = min bytes.length (realLength - o - 1) := by
    rw [List.length_take, Nat.min_comm]
  have hpos := List.length_pos_iff.mpr hbytes
  have hne : ¬(bytes.take (realLength - o - 1) = [] ∧ term = true) := by
    rintro ⟨hnil, -⟩
    rw [hnil, List.length_nil] at hlen
    omega
  rw [headerLoop, if_neg (by omega)]
  dsimp only
  rw [if_neg hne, store_holding ((List.take_prefix _ _).trans hread), hlen, if_neg (by omega)]

/-- What is left behind a read, when there is room to read on. -/
theorem drop_next {text read rest : Str} {realLength o : Nat} (hdrop : text.drop o = read ++ rest)
    (hroom : o + min read.length (realLength - o - 1) + 513 ≤ realLength) :
    text.drop (o + min read.length (realLength - o - 1)) = rest := by
  have hmin : min read.length (realLength - o - 1) = read.length := by omega
  rw [hmin, ← List.drop_drop, hdrop, List.drop_left]

theorem mem_offsets_self (realLength o : Nat) (reads : List (Bool × Str)) : o ∈ offsets realLength o reads := by
  cases reads <;> exact List.mem_cons_self

theorem find_offsets {realLength o n : Nat} (reads : List (Bool × Str)) (h : n ≤ o) :
    (offsets realLength o reads).find? (fun p => n ≤ p) = some o := by
  cases reads <;> exact List.find?_cons_of_pos (by simpa using h)

namespace Output

variable {out : Output}

theorem two_le_size : 2 ≤ out.size := by
  unfold size
  split_ifs <;> omega

/-- Where the header was found, it is far enough behind. -/
theorem In.far {mem : Nat → Byte} (hmem : out.In mem)
    (h : out.header.length = 0 ∨ ∃ i, 4 ≤ i ∧ CgiHeader.terminator mem i = some out.header.length) :
    4 ≤ out.block.length := by
  have hlength := @length_header out
  have htwo := @two_le_size out
  rcases h with hzero | ⟨i, hi, hend⟩
  · omega
  · rwa [← terminator_inj hend hmem.terminator]

end Output

section

variable {out : Output} {stale : Nat → Byte} {realLength o o' : Nat} {mem' : Nat → Byte}

theorem headerLoop_full_iff {reads : List (Bool × Str)} (events : List Event) (ho : o < out.header.length)
    (hroom : ¬o + 513 ≤ realLength) :
    headerLoop realLength events (holding out.bytes stale o) o = .left out.header.length o' mem' ∧
        out.header.length ≤ o' ↔
      4 ≤ out.block.length ∧ Reaches out stale realLength o reads ∧
        (offsets realLength o reads).find? (fun p => out.header.length ≤ p) = some o' ∧
        mem' = holding out.bytes stale o' := by
  rw [headerLoop_full hroom]
  refine iff_of_false ?_ fun h => hroom (h.2.1 o (mem_offsets_self _ _ _) ho).1
  rintro ⟨hleft, -⟩
  have hzero := (Scanned.left.inj hleft).1
  omega

/-- The turn at which the header is there. -/
theorem headerLoop_last (events : List Event) (hle : out.header.length ≤ o) :
    ((match search (holding out.bytes stale o) o with
      | some headerSize => Scanned.left headerSize o (holding out.bytes stale o)
      | none => headerLoop realLength events (holding out.bytes stale o) o) = .left out.header.length o' mem' ∧
        out.header.length ≤ o') ↔ 4 ≤ out.block.length ∧ o = o' ∧ mem' = holding out.bytes stale o' := by
  have hin := @Output.in_holding stale out o hle
  by_cases hfar : 4 ≤ out.block.length
  · rw [hin.search hfar hle, and_iff_right hfar]
    constructor
    · rintro ⟨hleft, -⟩
      obtain ⟨-, rfl, rfl⟩ := Scanned.left.inj hleft
      exact ⟨rfl, rfl⟩
    · rintro ⟨rfl, rfl⟩
      exact ⟨rfl, hle⟩
  · refine iff_of_false ?_ fun h => hfar h.1
    rintro ⟨hleft, hle'⟩
    refine hfar ?_
    cases hsearch : search (holding out.bytes stale o) o with
    | some s =>
      rw [hsearch] at hleft
      obtain ⟨rfl, -, -⟩ := Scanned.left.inj hleft
      obtain ⟨i, hi, -, hend⟩ := search_eq_some hsearch
      exact hin.far (Or.inr ⟨i, hi, hend⟩)
    | none =>
      rw [hsearch] at hleft
      obtain ⟨-, hmem, hfound⟩ := headerLoop_left hleft
      have hin' : out.In mem' := fun i hi => (hmem i (by omega)).trans (hin i hi)
      exact hin'.far hfound

/-- **The loop finds the header** exactly when it is far enough behind, there is room for it, and nothing makes it
end before. -/
theorem headerLoop_iff {reads : List (Bool × Str)} (hnonempty : ∀ r ∈ reads, r.2 ≠ []) (ho : o < out.header.length)
    (hbytes : o + 513 ≤ realLength → out.bytes.drop o = reads.flatMap Prod.snd) (hun : Unfooled out.bytes stale o) :
    headerLoop realLength (reads.map (fun r => .read r.1 r.2) ++ [.read true []]) (holding out.bytes stale o) o =
        .left out.header.length o' mem' ∧ out.header.length ≤ o' ↔
      4 ≤ out.block.length ∧ Reaches out stale realLength o reads ∧
        (offsets realLength o reads).find? (fun p => out.header.length ≤ p) = some o' ∧
        mem' = holding out.bytes stale o' := by
  induction reads generalizing o with
  | nil =>
    by_cases hroom : o + 513 ≤ realLength
    · -- all has been read, and that is the header at least
      have hlen := congrArg List.length (hbytes hroom)
      rw [List.length_drop, Output.bytes, List.length_append, List.flatMap_nil, List.length_nil] at hlen
      omega
    · exact headerLoop_full_iff _ ho hroom
  | cons r reads ih =>
    by_cases hroom : o + 513 ≤ realLength
    swap
    · exact headerLoop_full_iff _ ho hroom
    obtain ⟨hr, hreads⟩ := List.forall_mem_cons.mp hnonempty
    have hdrop := hbytes hroom
    rw [List.flatMap_cons] at hdrop
    rw [List.map_cons, List.cons_append, headerLoop_read hroom hr ⟨_, hdrop.symm⟩]
    dsimp only
    have hoffsets : offsets realLength o (r :: reads) =
        o :: offsets realLength (o + min r.2.length (realLength - o - 1)) reads := rfl
    have hreaches : Reaches out stale realLength o (r :: reads) ↔
        Reaches out stale realLength (o + min r.2.length (realLength - o - 1)) reads := by
      unfold Reaches
      rw [hoffsets, List.forall_mem_cons]
      exact and_iff_right fun _ => ⟨hroom, hun⟩
    have hpos := List.length_pos_iff.mpr hr
    rw [hreaches, hoffsets, List.find?_cons_of_neg (by simpa using ho)]
    generalize hnext : o + min r.2.length (realLength - o - 1) = next
    by_cases hle : out.header.length ≤ next
    · have hreached : Reaches out stale realLength next reads := fun p hp hlt =>
        absurd (le_of_mem_offsets hp) (by omega)
      rw [headerLoop_last _ hle, find_offsets reads hle, and_iff_right hreached, Option.some_inj]
    · by_cases hfooled : Unfooled out.bytes stale next
      · rw [search_eq_none.mpr hfooled]
        subst hnext
        exact ih hreads (by omega) (drop_next hdrop) hfooled
      · refine iff_of_false ?_ fun h => hfooled (h.2.1 next (mem_offsets_self _ _ _) (by omega)).2
        rintro ⟨hleft, hle'⟩
        cases hsearch : search (holding out.bytes stale next) next with
        | none => exact hfooled (search_eq_none.mp hsearch)
        | some s =>
          rw [hsearch] at hleft
          obtain ⟨-, rfl, -⟩ := Scanned.left.inj hleft
          exact hle hle'

end

/-! ## What is read -/

theorem le_of_mem_offsets' {realLength o p : Nat} {reads : List (Bool × Str)} (h : p ∈ offsets realLength o reads) :
    p ≤ o + (reads.flatMap Prod.snd).length := by
  induction reads generalizing o with
  | nil => exact (List.mem_singleton.mp h).le
  | cons r reads ih =>
    rw [List.flatMap_cons, List.length_append]
    rcases List.mem_cons.mp h with rfl | h
    · exact Nat.le_add_right _ _
    · have := ih h
      omega

/-- Where there is room for it, the whole header comes. -/
theorem exists_offset {out : Output} {stale : Nat → Byte} {realLength o : Nat} {reads : List (Bool × Str)}
    (hreaches : Reaches out stale realLength o reads)
    (hbytes : o + 513 ≤ realLength → out.bytes.drop o = reads.flatMap Prod.snd) :
    ∃ p ∈ offsets realLength o reads, out.header.length ≤ p := by
  induction reads generalizing o with
  | nil =>
    refine ⟨o, mem_offsets_self _ _ _, ?_⟩
    by_contra hlt
    have hlen := congrArg List.length (hbytes (hreaches o (mem_offsets_self _ _ _) (by omega)).1)
    rw [List.length_drop, Output.bytes, List.length_append, List.flatMap_nil, List.length_nil] at hlen
    omega
  | cons r reads ih =>
    by_cases hle : out.header.length ≤ o
    · exact ⟨o, mem_offsets_self _ _ _, hle⟩
    have hdrop := hbytes (hreaches o (mem_offsets_self _ _ _) (by omega)).1
    obtain ⟨p, hp, hle⟩ := ih (fun p hp => hreaches p (List.mem_cons_of_mem o hp)) (drop_next hdrop)
    exact ⟨p, List.mem_cons_of_mem o hp, hle⟩

theorem map_holding {text : Str} {stale : Nat → Byte} {o n : Nat} (ho : o ≤ text.length) :
    (List.range' n (o - n)).map (holding text stale o) = (text.drop n).take (o - n) := by
  apply List.ext_getElem?
  intro k
  by_cases hk : k < o - n
  · have hin : n + k < text.length := by omega
    rw [List.getElem?_map, List.getElem?_range' hk, List.getElem?_take_of_lt hk, List.getElem?_drop,
      List.getElem?_eq_getElem hin, Option.map_some, holding, Nat.one_mul, if_pos (by omega),
      List.getD_eq_getElem?_getD, List.getElem?_eq_getElem hin, Option.getD_some]
  · rw [List.getElem?_eq_none (by simp; omega), List.getElem?_eq_none (by simp; omega)]

/-! ## The response -/

section

variable {a b : Nat → Byte} {i : Nat}

theorem stops_congr (h : ∀ j < i + 3, a j = b j) : ∀ k ≤ i, stops a k = stops b k := by
  intro k hk
  rw [stops, stops, h k (by omega), h (k + 1) (by omega), h (k + 2) (by omega)]

/-- The scan does not go on behind a place where it stops. -/
theorem validLoop_congr (h : ∀ j < i + 3, a j = b j) (hstop : stops a i = true) {fuel k c l : Nat} (hk : k ≤ i) :
    validLoop a fuel k c l = validLoop b fuel k c l ∧ ∀ r ∈ validLoop a fuel k c l, r.2 ≤ i := by
  induction fuel generalizing k c l with
  | zero => exact ⟨rfl, fun r hr => absurd hr (Option.not_mem_none r)⟩
  | succ fuel ih =>
    rw [validLoop, validLoop, ← stops_congr h k hk, ← h k (by omega)]
    by_cases hhere : stops a k = true
    · rw [if_pos hhere, if_pos hhere]
      exact ⟨rfl, fun r hr => by obtain rfl := Option.some.inj hr; exact hk⟩
    · have hlt : k + 1 ≤ i := by
        rcases Nat.lt_or_eq_of_le hk with hlt | rfl
        · exact hlt
        · exact absurd hstop hhere
      rw [if_neg hhere, if_neg hhere]
      split_ifs
      · exact ih hlt
      · exact ⟨rfl, fun r hr => absurd hr (Option.not_mem_none r)⟩
      · exact ih hlt

theorem responseAfter_congr (h : ∀ j < i + 3, a j = b j) (hstop : stops a i = true) (response : HttpResponseHeader) :
    responseAfter a response = responseAfter b response := by
  obtain ⟨heq, hle⟩ := @validLoop_congr a b i h hstop 8323 0 0 0 (Nat.zero_le i)
  have hbuilt : buildHTTPResponseHeaderStruct a response = buildHTTPResponseHeaderStruct b response := by
    rw [buildHTTPResponseHeaderStruct, buildHTTPResponseHeaderStruct, ← h 0 (by omega), validHTTPResponse,
      validHTTPResponse, ← heq]
    cases hloop : validLoop a 8323 0 0 0 with
    | none => rfl
    | some r =>
      have hr := hle r hloop
      have hmap : (List.range (r.2 + 3)).map a = (List.range (r.2 + 3)).map b := by
        refine List.map_congr_left fun j hj => h j ?_
        have := List.mem_range.mp hj
        omega
      obtain ⟨lines, m⟩ := r
      dsimp only at hmap ⊢
      by_cases hlines : lines = 0
      · rw [if_pos hlines]
      · rw [if_neg hlines]
        dsimp only
        rw [hmap]
  rw [responseAfter, hbuilt, responseAfter]

end

theorem ending_inj {appendOutputs : Bool} {after after' : Option HttpResponseHeader} {data data' : Option Str}
    (h : ending appendOutputs after data = ending appendOutputs after' data') : after = after' := by
  have hresponse : ∀ (after : Option HttpResponseHeader) (data : Option Str),
      (match ending appendOutputs after data with
        | .threw => none
        | .redirect response _ => some response
        | .sent response _ => some response) = after := by
    intro after data
    cases after with
    | none => rfl
    | some response =>
      unfold ending
      dsimp only
      cases response.other (ascii "location") with
      | none => rfl
      | some location => dsimp only; split_ifs <;> rfl
  rw [← hresponse after data, h, hresponse]

/-- The response of a header in memory is that of the header, but for the byte behind two LFs. -/
theorem responseAfter_header {out : Output} {mem : Nat → Byte} (hmem : out.In mem) (response : HttpResponseHeader) :
    responseAfter mem response =
      responseAfter (fill (out.header ++ if out.crlf then [] else [mem out.header.length])) response := by
  have hlength := @Output.length_header out
  cases hcrlf : out.crlf with
  | true =>
    have hsize : out.size = 4 := by rw [Output.size, hcrlf]; rfl
    obtain ⟨-, h₁, -, h₃⟩ := hmem.crlf hcrlf
    rw [if_pos rfl, List.append_nil]
    refine @responseAfter_congr _ _ (out.block.length + 1) (fun j hj => hmem j (by omega)) ?_ response
    rw [stops, h₁, show out.block.length + 1 + 2 = out.block.length + 3 by omega, h₃]
    rfl
  | false =>
    have hsize : out.size = 2 := by rw [Output.size, hcrlf]; rfl
    obtain ⟨h₀, h₁⟩ := hmem.lf hcrlf
    rw [if_neg Bool.false_ne_true]
    refine @responseAfter_congr _ _ out.block.length (fun j hj => ?_) ?_ response
    · rw [fill, List.getD_eq_getElem?_getD]
      by_cases hlt : j < out.header.length
      · rw [List.getElem?_append_left hlt, ← List.getD_eq_getElem?_getD]
        exact hmem j hlt
      · obtain rfl : j = out.header.length := by omega
        rw [List.getElem?_append_right le_rfl, Nat.sub_self]
        rfl
    · rw [stops, h₀, h₁]
      simp

theorem sendHeader_left {appendOutputs : Bool} {response : HttpResponseHeader} {buffer : AuxBuffer} {events : List Event}
    {s o : Nat} {mem : Nat → Byte} (h : headerLoop buffer.realLength events buffer.bytes 0 = .left s o mem) :
    sendHeader false appendOutputs response buffer events =
      .replied s o (ending appendOutputs (if s ≠ 0 then responseAfter mem response else some response)
        (if s ≤ o then some ((List.range' s (o - s)).map mem) else none)) := by
  rw [sendHeader, if_neg Bool.false_ne_true, h]

/-- **The header is found** as it is exactly when nothing disturbs it. -/
theorem detects_iff (out : Output) (split : Split out.bytes) (buffer : AuxBuffer) (appendOutputs : Bool)
    (response : HttpResponseHeader) :
    Detects out split buffer appendOutputs response ↔ Undisturbed out split buffer response := by
  have hlength := @Output.length_header out
  have htwo := @Output.two_le_size out
  have hwhole : ∀ o, o = 0 → out.bytes.drop o = split.reads.flatMap Prod.snd := by
    rintro _ rfl
    exact split.whole.symm
  have hloop := fun o' mem' => @headerLoop_iff out buffer.bytes buffer.realLength 0 o' mem' split.reads split.nonempty
    (by omega) (fun _ => hwhole 0 rfl) (fun i _ hi => absurd hi (Nat.not_lt_zero i))
  rw [holding_zero] at hloop
  have hne : out.header.length ≠ 0 := by omega
  constructor
  · rintro ⟨read, -, hsend⟩
    unfold sendHeader at hsend
    rw [if_neg Bool.false_ne_true] at hsend
    cases hleft : headerLoop buffer.realLength split.events buffer.bytes 0 with
    | waits => rw [hleft] at hsend; cases hsend
    | error => rw [hleft] at hsend; cases hsend
    | left s o' mem' =>
      rw [hleft] at hsend
      obtain ⟨rfl, ho', hending⟩ := Outcome.replied.inj hsend
      rw [if_pos hne] at hending
      have hle : out.header.length ≤ o' := by
        rw [ho', List.length_append]
        exact Nat.le_add_right _ _
      obtain ⟨hfar, hreaches, hfind, rfl⟩ := (hloop o' mem').mp ⟨hleft, hle⟩
      refine ⟨hfar, hreaches, fun hcrlf o ho => ?_⟩
      obtain rfl := Option.some.inj (ho.symm.trans hfind)
      have hresponse := responseAfter_header (@Output.in_holding buffer.bytes out o hle) response
      rw [hcrlf, if_neg Bool.false_ne_true] at hresponse
      rw [← hresponse]
      exact ending_inj hending
  · rintro ⟨hfar, hreaches, hbehind⟩
    obtain ⟨p, hp, hpe⟩ := exists_offset hreaches (fun _ => hwhole 0 rfl)
    obtain ⟨o', hfind⟩ : ∃ o', (offsets buffer.realLength 0 split.reads).find?
        (fun o => out.header.length ≤ o) = some o' :=
      Option.isSome_iff_exists.mp (List.find?_isSome.mpr ⟨p, hp, decide_eq_true hpe⟩)
    obtain ⟨hleft, hle⟩ := (hloop o' _).mpr ⟨hfar, hreaches, hfind, rfl⟩
    have hresponse := responseAfter_header (@Output.in_holding buffer.bytes out o' hle) response
    have hlast := le_of_mem_offsets' (List.mem_of_find?_eq_some hfind)
    rw [split.whole, Nat.zero_add] at hlast
    have hbody : out.bytes.drop out.header.length = out.body := List.drop_left
    refine ⟨out.body.take (o' - out.header.length), List.take_prefix _ _, ?_⟩
    have hread : (out.header ++ out.body.take (o' - out.header.length)).length = o' := by
      rw [Output.bytes, List.length_append] at hlast
      rw [List.length_append, List.length_take]
      omega
    have hafter : responseAfter (holding out.bytes buffer.bytes o') response =
        responseAfter (fill out.header) response := by
      cases hcrlf : out.crlf with
      | true =>
        rw [hresponse, hcrlf, if_pos rfl, List.append_nil]
      | false =>
        rw [hresponse, hcrlf, if_neg Bool.false_ne_true]
        exact hbehind hcrlf o' hfind
    have hevents : headerLoop buffer.realLength split.events buffer.bytes 0 = _ := hleft
    rw [sendHeader_left hevents, if_pos hne, hafter, if_pos hle, map_holding hlast, hbody, hread]

/-- Two lines, with a body. -/
def twoLines : Output where
  block := ascii "X: yz\nA: b"
  crlf := false
  body := ascii "body"
  first := by decide

/-- The first line, and then the rest. -/
def lineFirst : Split twoLines.bytes where
  reads := [(true, ascii "X: yz\n"), (true, ascii "A: b\n\nbody")]
  nonempty := by decide
  whole := by decide

/-- An LF of an earlier request lies behind the first line, and a length wraps. -/
theorem not_detects :
    (∀ response, ∃ ending, sendHeader false false response ⟨fun _ => LF, 1024, by decide⟩ lineFirst.events =
      .replied 7 6 ending) ∧
      ∀ response, ¬Detects twoLines lineFirst ⟨fun _ => LF, 1024, by decide⟩ false response := by
  have hsend : ∀ response, ∃ ending, sendHeader false false response ⟨fun _ => LF, 1024, by decide⟩
      lineFirst.events = .replied 7 6 ending := by
    intro response
    have hleft : headerLoop 1024 lineFirst.events (fun _ => LF) 0 =
        .left 7 6 (store (fun _ => LF) 0 (ascii "X: yz\n")) := rfl
    exact ⟨_, sendHeader_left hleft⟩
  refine ⟨hsend, ?_⟩
  rintro response ⟨read, -, hreplied⟩
  obtain ⟨ending, hsend⟩ := hsend response
  have hsize := (Outcome.replied.inj (hsend.symm.trans hreplied)).1
  exact absurd hsize (by decide)

end MyServer.CgiHeader
