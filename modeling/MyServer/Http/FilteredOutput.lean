import MyServer.Http.ChunkEncode

/-!
# Chunks through a filter that modifies data

The chain is turned to a memory stream for the time of one write. The overload
that is called afterwards refuses every chain with such a filter, so nothing ever
arrives; the chain is turned back only where the write succeeds.
-/

namespace MyServer

variable {σ : Type}

/-- What a chain makes of a buffer when it writes to `tmpStream`. -/
def FiltersChain.intoMemory (sinks : Sinks) (chain : FiltersChain σ) (buffer : Str) : Attempt σ :=
  (chain.setStream .tmpStream).write sinks buffer

/-- No filter answers the buffer with an error when all that it writes is taken. -/
def FiltersChain.Takes (sinks : Sinks) (chain : FiltersChain σ) (buffer : Str) (s : Streams σ) :
    Prop := (chain.intoMemory sinks buffer s).1 = false

/-- The bytes that the chain adds to `tmpStream` for a buffer. -/
def FiltersChain.output (sinks : Sinks) (chain : FiltersChain σ) (buffer : Str) (s : Streams σ) :
    Str := (chain.intoMemory sinks buffer s).2.tmpStream.data.drop s.tmpStream.data.length

/-- Chunks that a reader decodes to the payload, once the terminator follows. -/
def DecodesTo (chunks payload : Str) : Prop :=
  ReadsBack ⟨1, some Sink.memory, 0⟩ ⟨chunks ++ ascii "0\r\n\r\n", [], false⟩ [payload]

/-- The output of the chain for the buffer is on the channel in chunks, or an error is returned; and
in both cases the chain ends in the stream that it ended in before. -/
def Filtered.Delivers (sinks : Sinks) (chain : FiltersChain σ) (buffer : Str) (s : Streams σ)
    (r : Filtered σ) : Prop :=
  (r.failed = false ∧ (∃ chunks, r.streams.channel = s.channel ++ chunks ∧
      DecodesTo chunks (chain.output sinks buffer s)) ∨
    r.failed = true) ∧
    r.chain.stream = chain.stream

theorem append_of_modifiers {sinks : Sinks} {chain : FiltersChain σ}
    (h : chain.hasModifiersFilters = true) (buffer : Str) (append useChunks : Bool)
    (s : Streams σ) : appendDataToHTTPChannel sinks buffer chain append useChunks s = (true, s) := by
  unfold appendDataToHTTPChannel
  rw [if_pos h]

/-- Every call with such a chain returns an error. -/
theorem appendFiltered_failed {sinks : Sinks} {chain : FiltersChain σ}
    (h : chain.hasModifiersFilters = true) (buffer : Str) (append useChunks : Bool)
    (realBufferSize : Nat) (s : Streams σ) :
    (appendFilteredToHTTPChannel sinks buffer chain append useChunks realBufferSize s).failed =
      true := by
  have hrestored : ((chain.setStream .tmpStream).setStream chain.stream).hasModifiersFilters =
      true := h
  unfold appendFilteredToHTTPChannel
  simp only [h, Bool.not_true, Bool.false_eq_true, if_false, append_of_modifiers hrestored]
  split_ifs <;> rfl

theorem appendFiltered_stream {sinks : Sinks} {chain : FiltersChain σ}
    (h : chain.hasModifiersFilters = true) (buffer : Str) (append useChunks : Bool)
    (realBufferSize : Nat) (s : Streams σ) :
    (appendFilteredToHTTPChannel sinks buffer chain append useChunks realBufferSize s).chain.stream =
      if (chain.intoMemory sinks buffer s).1 then .tmpStream else chain.stream := by
  unfold appendFilteredToHTTPChannel FiltersChain.intoMemory
  simp only [h, Bool.not_true, Bool.false_eq_true, if_false]
  split_ifs <;> rfl

/-- **Filtered output.** A call with a filter that modifies data does what it should exactly where
the chain takes the buffer, or ended in the memory stream before. -/
theorem appendFiltered_delivers_iff (sinks : Sinks) {chain : FiltersChain σ}
    (h : chain.hasModifiersFilters = true) (buffer : Str) (append : Bool) (realBufferSize : Nat)
    (s : Streams σ) :
    (appendFilteredToHTTPChannel sinks buffer chain append true realBufferSize s).Delivers sinks
        chain buffer s ↔
      chain.Takes sinks buffer s ∨ chain.stream = .tmpStream := by
  unfold Filtered.Delivers FiltersChain.Takes
  rw [appendFiltered_failed h, appendFiltered_stream h]
  simp only [or_true, true_and]
  cases (chain.intoMemory sinks buffer s).1 with
  | false => simp
  | true =>
    simp only [if_true, Bool.true_eq_false, false_or]
    exact eq_comm

/-- A filter that doubles every byte and refuses an empty buffer. -/
def doubler : Filter Unit where
  modifyData := true
  write _ bytes :=
    if bytes = [] then .ret true ()
    else .write (bytes.flatMap fun b => [b, b]) fun failed => .ret failed ()
  flush _ := .ret false ()
  getFooter _ := some []

theorem doubler_delivers :
    (appendFilteredToHTTPChannel plainSinks (ascii "ab") ⟨[doubler], .channel⟩ false true 16
      emptyStreams).Delivers plainSinks ⟨[doubler], .channel⟩ (ascii "ab") emptyStreams :=
  (@appendFiltered_delivers_iff Unit plainSinks ⟨[doubler], .channel⟩ rfl (ascii "ab") false 16
    emptyStreams).mpr (Or.inl (by unfold FiltersChain.Takes; decide))

/-- After a write that a filter refuses the chain is left with the memory stream. -/
theorem doubler_not_restored :
    (appendFilteredToHTTPChannel plainSinks [] ⟨[doubler], .channel⟩ false true 16
        emptyStreams).chain.stream = .tmpStream ∧
      ¬ (appendFilteredToHTTPChannel plainSinks [] ⟨[doubler], .channel⟩ false true 16
        emptyStreams).Delivers plainSinks ⟨[doubler], .channel⟩ [] emptyStreams := by
  have hstream : (appendFilteredToHTTPChannel plainSinks [] ⟨[doubler], .channel⟩ false true 16
      emptyStreams).chain.stream = .tmpStream := by decide
  refine ⟨hstream, fun hdelivers => ?_⟩
  have h := hdelivers.2
  rw [hstream] at h
  cases h

end MyServer
