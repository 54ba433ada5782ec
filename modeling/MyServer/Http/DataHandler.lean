import MyServer.Http.DataRead
import Mathlib.Data.Nat.Digits.Defs

/-!
# Sending data over the HTTP channel

A filters chain writes through its filters to a stream. What a filter does in
one call is a conversation with its parent, so that every filter is covered.
-/

namespace MyServer

/-- Writes to the parent, each of which comes back with whether it failed, and then an answer. -/
inductive Answer (σ : Type)
  | ret (failed : Bool) (state : σ)
  | write (bytes : Str) (next : Bool → Answer σ)

structure Filter (σ : Type) where
  modifyData : Bool
  write : σ → Str → Answer σ
  flush : σ → Answer σ
  getFooter : σ → Option Str

inductive StreamName
  | channel
  | outputData
  | tmpStream
deriving DecidableEq

/-- A `MemoryStream` over a `MemBuf` with a size limit, 0 for none. -/
structure MemoryStream where
  data : Str
  readSeek : Nat
  sizeLimit : Nat
deriving DecidableEq

namespace MemoryStream

/-- What does not fit is dropped, and no error is returned. -/
def write (m : MemoryStream) (bytes : Str) : MemoryStream :=
  { m with data := m.data ++
      if m.sizeLimit = 0 then bytes else bytes.take (m.sizeLimit - m.data.length) }

def read (m : MemoryStream) (len : Nat) : Str × MemoryStream :=
  let bytes := (m.data.drop m.readSeek).take len
  (bytes, { m with readSeek := m.readSeek + bytes.length })

end MemoryStream

/-- The streams and the states of the filters; a filter's state stands under the number of filters
between it and the stream. -/
structure Streams (σ : Type) where
  states : Nat → σ
  channel : Str
  outputData : Str
  tmpStream : MemoryStream

/-- What the socket and the file answer to a write. -/
structure Sinks where
  channel : Sink
  outputData : Sink

/-- The filters from `firstFilter` on; the last one's parent is the stream. -/
structure FiltersChain (σ : Type) where
  filters : List (Filter σ)
  stream : StreamName

/-- A call that may fail. -/
abbrev Attempt (σ : Type) := Streams σ → Bool × Streams σ

/-- One call after the other, up to the first that fails. -/
def inOrder {σ : Type} : List (Attempt σ) → Attempt σ
  | [], s => (false, s)
  | f :: fs, s => if (f s).1 then (true, (f s).2) else inOrder fs (f s).2

section Write

variable {σ : Type} (sinks : Sinks)

def writeTo (stream : StreamName) (bytes : Str) : Attempt σ := fun s =>
  match stream with
  | .channel =>
    match sinks.channel.write s.channel bytes with
    | none => (true, s)
    | some n => (false, { s with channel := s.channel ++ bytes.take n })
  | .outputData =>
    match sinks.outputData.write s.outputData bytes with
    | none => (true, s)
    | some n => (false, { s with outputData := s.outputData ++ bytes.take n })
  | .tmpStream => (false, { s with tmpStream := s.tmpStream.write bytes })

def Answer.run (parent : Str → Attempt σ) : Answer σ → Streams σ → (Bool × σ) × Streams σ
  | ret failed state, s => ((failed, state), s)
  | write bytes next, s => (next (parent bytes s).1).run parent (parent bytes s).2

/-- The answer of the filter that stands over `below` others. -/
def converse (below : Nat) (parent : Str → Attempt σ) (call : σ → Answer σ) : Attempt σ := fun s =>
  let r := (call (s.states below)).run parent s
  (r.1.1, { r.2 with states := Function.update r.2.states below r.1.2 })

def writeThrough (stream : StreamName) : List (Filter σ) → Str → Attempt σ
  | [], bytes => writeTo sinks stream bytes
  | f :: fs, bytes => converse fs.length (writeThrough stream fs) (f.write · bytes)

/-- The footers, from the last filter to the first. What the write of one answers is not looked
at. -/
def writeFooters (stream : StreamName) : List (Filter σ) → Attempt σ
  | [], s => (false, s)
  | f :: fs, s =>
    let r := writeFooters stream fs s
    if r.1 then (true, r.2)
    else
      match f.getFooter (r.2.states fs.length) with
      | none => (true, r.2)
      | some footer => (false, (writeThrough sinks stream fs footer r.2).2)

namespace FiltersChain

def setStream (chain : FiltersChain σ) (stream : StreamName) : FiltersChain σ :=
  { chain with stream }

def hasModifiersFilters (chain : FiltersChain σ) : Bool := chain.filters.any Filter.modifyData

def write (chain : FiltersChain σ) (bytes : Str) : Attempt σ :=
  writeThrough sinks chain.stream chain.filters bytes

/-- The streams have nothing to flush. -/
def flush (chain : FiltersChain σ) : Attempt σ :=
  inOrder [
    match chain.filters with
    | [] => fun s => (false, s)
    | f :: fs => converse fs.length (writeThrough sinks chain.stream fs) f.flush,
    writeFooters sinks chain.stream chain.filters]

end FiltersChain

/-- `out << hex << n` -/
def toHex (n : Nat) : Str := (Nat.toDigits 16 n).map ch

/-- The overload with seven arguments. -/
def appendDataToHTTPChannel (buffer : Str) (chain : FiltersChain σ) (append useChunks : Bool) :
    Attempt σ :=
  if chain.hasModifiersFilters then fun s => (true, s)
  else if append then writeTo sinks .outputData buffer
  else
    inOrder [
      if useChunks then
        inOrder [chain.flush sinks, writeTo sinks chain.stream (toHex buffer.length ++ crlf)]
      else fun s => (false, s),
      if buffer.length ≠ 0 then chain.write sinks buffer else fun s => (false, s),
      if useChunks then writeTo sinks chain.stream crlf else fun s => (false, s)]

/-- What the overload with nine arguments leaves behind. -/
structure Filtered (σ : Type) where
  failed : Bool
  chain : FiltersChain σ
  streams : Streams σ

/-- The overload with nine arguments. -/
def appendFilteredToHTTPChannel (buffer : Str) (chain : FiltersChain σ) (append useChunks : Bool)
    (realBufferSize : Nat) (s : Streams σ) : Filtered σ :=
  if !chain.hasModifiersFilters then
    let r := appendDataToHTTPChannel sinks buffer chain append useChunks s
    ⟨r.1, chain, r.2⟩
  else
    let redirected := chain.setStream .tmpStream
    let w := redirected.write sinks buffer s
    if w.1 then ⟨true, redirected, w.2⟩
    else
      let m := w.2.tmpStream.read realBufferSize
      let restored := redirected.setStream chain.stream
      let r := appendDataToHTTPChannel sinks m.1 restored append useChunks
        { w.2 with tmpStream := m.2 }
      ⟨r.1, restored, r.2⟩

end Write

/-! ## Filters that leave the data alone -/

section Transparent

variable {σ : Type} {sinks : Sinks}

/-- A filter whose `modifyData` is 0 passes on what it is given and adds nothing. -/
structure Filter.Transparent (f : Filter σ) : Prop where
  modifyData : f.modifyData = false
  write : ∀ state bytes, f.write state bytes = .write bytes fun failed => .ret failed state
  flush : ∀ state, f.flush state = .ret false state
  getFooter : ∀ state, f.getFooter state = some []

theorem converse_ret (below : Nat) (parent : Str → Attempt σ) {call : σ → Answer σ}
    (hcall : ∀ state, call state = .ret false state) (s : Streams σ) :
    converse below parent call s = (false, s) := by
  unfold converse
  rw [hcall]
  simp [Answer.run]

theorem writeThrough_transparent {stream : StreamName} {fs : List (Filter σ)}
    (hfs : ∀ f ∈ fs, f.Transparent) (bytes : Str) (s : Streams σ) :
    writeThrough sinks stream fs bytes s = writeTo sinks stream bytes s := by
  have hstates : (writeTo sinks stream bytes s).2.states = s.states := by
    unfold writeTo
    cases stream with
    | channel => cases sinks.channel.write s.channel bytes <;> rfl
    | outputData => cases sinks.outputData.write s.outputData bytes <;> rfl
    | tmpStream => rfl
  induction fs with
  | nil => rfl
  | cons f fs ih =>
    have hf := hfs f List.mem_cons_self
    have htail := ih fun g hg => hfs g (List.mem_cons_of_mem f hg)
    unfold writeThrough converse
    dsimp only
    rw [hf.write]
    simp only [Answer.run]
    rw [htail, ← hstates, Function.update_eq_self]

theorem writeFooters_transparent {stream : StreamName} {fs : List (Filter σ)}
    (hfs : ∀ f ∈ fs, f.Transparent) {s : Streams σ}
    (hnil : writeTo sinks stream [] s = (false, s)) :
    writeFooters sinks stream fs s = (false, s) := by
  induction fs with
  | nil => rfl
  | cons f fs ih =>
    have hf := hfs f List.mem_cons_self
    have htail : ∀ g ∈ fs, g.Transparent := fun g hg => hfs g (List.mem_cons_of_mem f hg)
    unfold writeFooters
    dsimp only
    rw [ih htail, hf.getFooter]
    dsimp only
    rw [writeThrough_transparent htail, hnil]
    rfl

theorem FiltersChain.flush_transparent {chain : FiltersChain σ}
    (hchain : ∀ f ∈ chain.filters, f.Transparent) {s : Streams σ}
    (hnil : writeTo sinks chain.stream [] s = (false, s)) :
    chain.flush sinks s = (false, s) := by
  have hfooters := writeFooters_transparent hchain hnil
  unfold flush
  cases h : chain.filters with
  | nil => rfl
  | cons f fs =>
    have hf := hchain f (h ▸ List.mem_cons_self)
    rw [h] at hfooters
    simp [inOrder, converse_ret _ _ hf.flush, hfooters]

theorem FiltersChain.no_modifiers {chain : FiltersChain σ}
    (hchain : ∀ f ∈ chain.filters, f.Transparent) : chain.hasModifiersFilters = false := by
  unfold hasModifiersFilters
  rw [List.any_eq_false]
  intro f hf
  simp [(hchain f hf).modifyData]

end Transparent

end MyServer
