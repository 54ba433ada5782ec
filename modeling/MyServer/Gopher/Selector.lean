import MyServer.Gopher.Engine
import MyServer.Lib.Separated

/-!
# Reading the selector

The loop of `Gopher::controlConnection`, with the array that it reads to.
-/

open MyServer.Separated

namespace MyServer.Gopher

/-- What a client sends, as it arrives: the first part is read before the loop, and ended with a NUL. -/
structure Fragments where
  first : Str
  chunks : List Str
  first_fits : first ≠ [] ∧ first.length < 8192
  chunks_fit : ∀ chunk ∈ chunks, chunk ≠ [] ∧ chunk.length ≤ 256

/-! ## The code -/

/-- What is not read to of the array stays, and all of it at the end of the stream. -/
def read (buffer : Str) : List Str → Str × List Str
  | [] => (buffer, [])
  | chunk :: chunks => (chunk ++ buffer.drop chunk.length, chunks)

/-- `command += buffer`. With no NUL in the array the bytes behind it are read too. -/
def appendBuffer (command buffer : Str) : Option Str :=
  if 0 ∈ buffer then some (command ++ cstr buffer) else none

def readLoop : Nat → Str → Str → List Str → Option Str
  | 0, _, _, _ => none
  | fuel + 1, command, buffer, chunks =>
    if ch '\n' ∈ command then some command
    else
      let next := read buffer chunks
      (appendBuffer command next.1).bind fun command => readLoop fuel command next.1 next.2

/-- What is handed to the engine. -/
def selector (fuel : Nat) (b1 buffer : Str) (chunks : List Str) : Option Str :=
  (readLoop fuel (cstr b1) buffer chunks).map substrRequest

/-! ## What is to be handed over -/

def Fragments.stream (f : Fragments) : Str := f.first ++ f.chunks.flatten

/-- A line ends with LF or CRLF, the last one with the stream. -/
def firstLine (stream : Str) : Str :=
  let line := stream.takeWhile (· ≠ ch '\n')
  if ch '\n' ∈ stream ∧ line.getLast? = some (ch '\r') then line.dropLast else line

/-- The loop ends, whatever was in the array, and hands over the first line. -/
def Fragments.Selected (f : Fragments) : Prop :=
  ∀ buffer : Str, buffer.length = 256 →
    ∃ fuel, selector fuel f.first buffer f.chunks = some (firstLine f.stream)

/-- The line has no NUL and ends with CRLF, in the first part, or in the next one and a NUL comes behind it. -/
def Fragments.Early (f : Fragments) : Prop :=
  ∃ line rest : Str, 0 ∉ line ∧ ch '\n' ∉ line ∧
    (f.first = line ++ crlf ++ rest ∨
      ∃ chunk chunks, f.chunks = chunk :: chunks ∧ ch '\n' ∉ f.first ∧
        f.first ++ chunk = line ++ crlf ++ rest ∧ 0 ∈ rest)

/-! ## The line -/

theorem firstLine_append {l : Str} (hl : ch '\n' ∉ l) (r : Str) :
    firstLine (l ++ ch '\n' :: r) = if l.getLast? = some (ch '\r') then l.dropLast else l := by
  simp only [firstLine, takeWhile_append_cons hl, List.mem_append, List.mem_cons_self, or_true, true_and]

theorem substrRequest_append {l : Str} (hl : ch '\n' ∉ l) (r : Str) :
    substrRequest (l ++ ch '\n' :: r) = if l = [] then ch '\n' :: r else l.dropLast := by
  have hidx : (l ++ ch '\n' :: r).idxOf (ch '\n') = l.length := by
    rw [List.idxOf_append_of_notMem hl, List.idxOf_cons_self, Nat.add_zero]
  simp only [substrRequest, hidx, List.length_eq_zero_iff]
  split_ifs with hempty
  · rw [hempty, List.nil_append]
  · rw [List.take_append_of_le_length (Nat.sub_le _ 1), List.dropLast_eq_take]

/-- The byte before the LF is cut off, whatever it is. -/
theorem substrRequest_eq_firstLine_iff {l : Str} (hl : ch '\n' ∉ l) (r s : Str) :
    substrRequest (l ++ ch '\n' :: r) = firstLine (l ++ ch '\n' :: s) ↔ ∃ line, l = line ++ [ch '\r'] := by
  rw [substrRequest_append hl, firstLine_append hl]
  obtain rfl | ⟨line, b, rfl⟩ := List.eq_nil_or_concat' l
  · simp
  · rw [if_neg (by simp), List.getLast?_concat, List.dropLast_concat]
    constructor
    · intro h
      split_ifs at h with hcr
      · exact ⟨line, by rw [Option.some.inj hcr]⟩
      · have := congrArg List.length h
        simp at this
    · rintro ⟨line', h⟩
      obtain ⟨-, hb⟩ := List.append_inj' h rfl
      rw [if_pos (by rw [List.singleton_inj.mp hb])]

/-! ## The loop -/

@[simp] theorem readLoop_zero (command buffer : Str) (chunks : List Str) :
    readLoop 0 command buffer chunks = none := rfl

theorem read_cons (buffer chunk : Str) (chunks : List Str) :
    read buffer (chunk :: chunks) = (chunk ++ buffer.drop chunk.length, chunks) := rfl

theorem readLoop_succ_iff {fuel : Nat} {command buffer result : Str} {chunks : List Str} :
    readLoop (fuel + 1) command buffer chunks = some result ↔
      (ch '\n' ∈ command ∧ command = result) ∨
        (ch '\n' ∉ command ∧ 0 ∈ (read buffer chunks).1 ∧
          readLoop fuel (command ++ cstr (read buffer chunks).1) (read buffer chunks).1 (read buffer chunks).2 =
            some result) := by
  rw [readLoop]
  by_cases hmem : ch '\n' ∈ command
  · simp [hmem]
  · by_cases hzero : 0 ∈ (read buffer chunks).1 <;> simp [hmem, appendBuffer, hzero]

theorem zero_notMem_readLoop {fuel : Nat} {command buffer result : Str} {chunks : List Str}
    (hzero : 0 ∉ command) (h : readLoop fuel command buffer chunks = some result) : 0 ∉ result := by
  induction fuel generalizing command buffer chunks with
  | zero => exact absurd h (by simp)
  | succ fuel ih =>
    obtain ⟨-, rfl⟩ | ⟨-, -, hnext⟩ := readLoop_succ_iff.mp h
    · exact hzero
    · refine ih ?_ hnext
      rw [List.mem_append, not_or]
      exact ⟨hzero, zero_notMem_cstr _⟩

theorem zero_notMem_selector {fuel : Nat} {b1 buffer result : Str} {chunks : List Str}
    (h : selector fuel b1 buffer chunks = some result) : 0 ∉ result := by
  obtain ⟨command, hcommand, rfl⟩ := Option.map_eq_some_iff.mp h
  have hzero := zero_notMem_readLoop (zero_notMem_cstr b1) hcommand
  unfold substrRequest
  dsimp only
  split_ifs
  · exact hzero
  · exact fun hmem => hzero (List.mem_of_mem_take hmem)

/-- Without an LF in what arrives and in the array, the loop does not end. -/
theorem readLoop_eq_none {fuel : Nat} {command buffer : Str} {chunks : List Str} (hcommand : ch '\n' ∉ command)
    (hbuffer : ch '\n' ∉ buffer) (hchunks : ∀ chunk ∈ chunks, ch '\n' ∉ chunk) :
    readLoop fuel command buffer chunks = none := by
  induction fuel generalizing command buffer chunks with
  | zero => rfl
  | succ fuel ih =>
    have hnext : ch '\n' ∉ (read buffer chunks).1 ∧ ∀ chunk ∈ (read buffer chunks).2, ch '\n' ∉ chunk := by
      cases chunks with
      | nil => exact ⟨hbuffer, hchunks⟩
      | cons chunk chunks =>
        obtain ⟨hchunk, hrest⟩ := List.forall_mem_cons.mp hchunks
        refine ⟨?_, hrest⟩
        rw [read_cons, List.mem_append, not_or]
        exact ⟨hchunk, fun hmem => hbuffer (List.mem_of_mem_drop hmem)⟩
    rw [Option.eq_none_iff_forall_ne_some]
    intro result hresult
    obtain ⟨hmem, -⟩ | ⟨-, -, hloop⟩ := readLoop_succ_iff.mp hresult
    · exact hcommand hmem
    · rw [ih ?_ hnext.1 hnext.2] at hloop
      · exact absurd hloop (by simp)
      · rw [List.mem_append, not_or]
        exact ⟨hcommand, fun hmem => hnext.1 (List.takeWhile_subset _ hmem)⟩

/-- The request of the engine, with what the array showed of each part for the parts. -/
theorem readCommand_of_readLoop {fuel : Nat} {command buffer result : Str} {chunks : List Str}
    (h : readLoop fuel command buffer chunks = some result) :
    ∃ reads, readCommand command reads = some result := by
  induction fuel generalizing command buffer chunks with
  | zero => exact absurd h (by simp)
  | succ fuel ih =>
    obtain ⟨hmem, rfl⟩ | ⟨hmem, -, hnext⟩ := readLoop_succ_iff.mp h
    · exact ⟨[], by rw [readCommand, if_pos hmem]⟩
    · obtain ⟨reads, hreads⟩ := ih hnext
      exact ⟨(read buffer chunks).1 :: reads, by rw [readCommand, if_neg hmem, hreads]⟩

theorem request_of_selector {fuel : Nat} {b1 buffer result : Str} {chunks : List Str}
    (h : selector fuel b1 buffer chunks = some result) : ∃ reads, request b1 reads = some result := by
  obtain ⟨command, hcommand, rfl⟩ := Option.map_eq_some_iff.mp h
  obtain ⟨reads, hreads⟩ := readCommand_of_readLoop hcommand
  exact ⟨reads, by rw [request, hreads, Option.map_some]⟩

/-! ## The line in what arrives -/

theorem readLoop_of_mem {command : Str} (hmem : ch '\n' ∈ command) (fuel : Nat) (buffer : Str)
    (chunks : List Str) : readLoop (fuel + 1) command buffer chunks = some command :=
  readLoop_succ_iff.mpr (.inl ⟨hmem, rfl⟩)

theorem eq_of_readLoop {fuel : Nat} {command buffer result : Str} {chunks : List Str} (hmem : ch '\n' ∈ command)
    (h : readLoop fuel command buffer chunks = some result) : result = command := by
  cases fuel with
  | zero => exact absurd h (by simp)
  | succ fuel =>
    rw [readLoop_of_mem hmem] at h
    exact (Option.some.inj h).symm

theorem next_of_readLoop {fuel : Nat} {command buffer result : Str} {chunks : List Str} (hmem : ch '\n' ∉ command)
    (h : readLoop fuel command buffer chunks = some result) : 0 ∈ (read buffer chunks).1 ∧
      ∃ fuel, readLoop fuel (command ++ cstr (read buffer chunks).1) (read buffer chunks).1 (read buffer chunks).2 =
        some result := by
  cases fuel with
  | zero => exact absurd h (by simp)
  | succ fuel =>
    obtain ⟨-, hnext⟩ := (readLoop_succ_iff.mp h).resolve_left fun h => hmem h.1
    exact ⟨hnext.1, fuel, hnext.2⟩

theorem notMem_cr {line : Str} {b : Byte} (h : b ∉ line) (hcr : b ≠ ch '\r') : b ∉ line ++ [ch '\r'] := by
  rw [List.mem_append, List.mem_singleton, not_or]
  exact ⟨h, hcr⟩

theorem zero_notMem_line {l r : Str} (hl : ch '\n' ∉ l) (h : 0 ∉ firstLine (l ++ ch '\n' :: r)) : 0 ∉ l := by
  rw [firstLine_append hl] at h
  split_ifs at h with hcr
  · obtain ⟨line, rfl⟩ := List.getLast?_eq_some_iff.mp hcr
    rw [List.dropLast_concat] at h
    exact notMem_cr h (by decide)
  · exact h

theorem cstr_line {l : Str} (hzero : 0 ∉ l) (r : Str) : cstr (l ++ ch '\n' :: r) = l ++ ch '\n' :: cstr r := by
  rw [cstr_append hzero]
  rfl

theorem lf_mem (l r : Str) : ch '\n' ∈ l ++ ch '\n' :: r := by simp

variable {f : Fragments}

theorem Fragments.Selected.mem (h : f.Selected) : ch '\n' ∈ f.stream := by
  by_contra hmem
  rw [stream, List.mem_append, List.mem_flatten, not_or] at hmem
  obtain ⟨fuel, hfuel⟩ := h (List.replicate 256 0) List.length_replicate
  rw [selector, readLoop_eq_none] at hfuel
  · exact absurd hfuel (by simp)
  · exact fun h => hmem.1 (List.takeWhile_subset _ h)
  · exact fun h => absurd (List.eq_of_mem_replicate h) (by decide)
  · exact fun chunk hchunk h => hmem.2 ⟨chunk, hchunk, h⟩

/-- The line is found by the LF that ends it. -/
theorem Fragments.Selected.line (h : f.Selected) {l r : Str} (hl : ch '\n' ∉ l)
    (hstream : f.stream = l ++ ch '\n' :: r) : 0 ∉ l := by
  obtain ⟨fuel, hfuel⟩ := h (List.replicate 256 0) List.length_replicate
  have hzero := zero_notMem_selector hfuel
  rw [hstream] at hzero
  exact zero_notMem_line hl hzero

theorem Fragments.Selected.early_of_mem (h : f.Selected) (hfirst : ch '\n' ∈ f.first) : f.Early := by
  obtain ⟨fuel, hfuel⟩ := h (List.replicate 256 0) List.length_replicate
  obtain ⟨command, hcommand, hrequest⟩ := Option.map_eq_some_iff.mp hfuel
  obtain ⟨l, r, hl, hlf⟩ := List.eq_append_cons_of_mem hfirst
  have hstream : f.stream = l ++ ch '\n' :: (r ++ f.chunks.flatten) := by simp [stream, hl]
  have hzero := h.line hlf hstream
  rw [hl, cstr_line hzero] at hcommand
  rw [eq_of_readLoop (lf_mem _ _) hcommand, hstream] at hrequest
  obtain ⟨line, rfl⟩ := (substrRequest_eq_firstLine_iff hlf _ _).mp hrequest
  refine ⟨line, r, fun hmem => hzero (List.mem_append_left _ hmem),
    fun hmem => hlf (List.mem_append_left _ hmem), .inl ?_⟩
  simp [hl, crlf]

/-- With no NUL in what is read, what was in the array decides. -/
theorem Fragments.Selected.zero_mem (h : f.Selected) (hfirst : ch '\n' ∉ cstr f.first) {chunk : Str}
    {chunks : List Str} (hchunks : f.chunks = chunk :: chunks) : 0 ∈ chunk := by
  obtain ⟨fuel, hfuel⟩ := h (List.replicate 256 1) List.length_replicate
  obtain ⟨command, hcommand, -⟩ := Option.map_eq_some_iff.mp hfuel
  rw [hchunks] at hcommand
  have hmem := (next_of_readLoop hfirst hcommand).1
  rw [read_cons, List.mem_append] at hmem
  refine hmem.resolve_right fun hmem => ?_
  exact absurd (List.eq_of_mem_replicate (List.mem_of_mem_drop hmem)) (by decide)

/-- The line is in the first read: behind the NUL in it, it would go on. -/
theorem Fragments.Selected.lf_mem_chunk (h : f.Selected) (hfirst : ch '\n' ∉ f.first) {chunk : Str}
    {chunks : List Str} (hchunks : f.chunks = chunk :: chunks) (hzero : 0 ∈ chunk) : ch '\n' ∈ chunk := by
  by_contra hlf
  have hmem := h.mem
  rw [stream, hchunks, List.flatten_cons, List.mem_append, List.mem_append] at hmem
  obtain ⟨a, b, hab, ha⟩ := List.eq_append_cons_of_mem ((hmem.resolve_left hfirst).resolve_left hlf)
  have hl : ch '\n' ∉ f.first ++ chunk ++ a := by simp [hfirst, hlf, ha]
  have hline := h.line hl (r := b) (by rw [stream, hchunks, List.flatten_cons, hab]; simp)
  simp [hzero] at hline

theorem Fragments.Selected.early_of_notMem (h : f.Selected) (hfirst : ch '\n' ∉ f.first) : f.Early := by
  have hcstr : ch '\n' ∉ cstr f.first := fun hmem => hfirst (List.takeWhile_subset _ hmem)
  have hflatten : ch '\n' ∈ f.chunks.flatten := (List.mem_append.mp h.mem).resolve_left hfirst
  obtain ⟨chunk, chunks, hchunks⟩ := List.exists_cons_of_ne_nil (show f.chunks ≠ [] by
    rintro heq
    simp [heq] at hflatten)
  have hchunk := h.zero_mem hcstr hchunks
  obtain ⟨a, b, hab, ha⟩ := List.eq_append_cons_of_mem (h.lf_mem_chunk hfirst hchunks hchunk)
  have hl : ch '\n' ∉ f.first ++ a := by simp [hfirst, ha]
  have hstream : f.stream = f.first ++ a ++ ch '\n' :: (b ++ chunks.flatten) := by simp [stream, hchunks, hab]
  have hzero := h.line hl hstream
  have hzeros : 0 ∉ f.first ∧ 0 ∉ a := by simpa using hzero
  obtain ⟨fuel, hfuel⟩ := h (List.replicate 256 0) List.length_replicate
  obtain ⟨command, hcommand, hrequest⟩ := Option.map_eq_some_iff.mp hfuel
  rw [hchunks] at hcommand
  obtain ⟨-, fuel, hnext⟩ := next_of_readLoop hcstr hcommand
  rw [read_cons, cstr_append_of_mem hchunk, hab, cstr_of_notMem hzeros.1, cstr_line hzeros.2, ← List.append_assoc]
    at hnext
  rw [eq_of_readLoop (lf_mem _ _) hnext, hstream] at hrequest
  obtain ⟨line, hline⟩ := (substrRequest_eq_firstLine_iff hl _ _).mp hrequest
  rw [hline] at hl hzero
  refine ⟨line, b, fun hmem => hzero (List.mem_append_left _ hmem),
    fun hmem => hl (List.mem_append_left _ hmem), .inr ⟨chunk, chunks, hchunks, hfirst, ?_, ?_⟩⟩
  · rw [hab, ← List.append_assoc, hline]
    simp [crlf]
  · have hne : (0 : Byte) ≠ ch '\n' := by decide
    simpa [hab, hzeros.2, hne] using hchunk

/-- The first read goes on with what the first part has begun. -/
theorem split_of_append {first chunk l r : Str} (hfirst : ch '\n' ∉ first)
    (h : first ++ chunk = l ++ ch '\n' :: r) : ∃ a, l = first ++ a ∧ chunk = a ++ ch '\n' :: r := by
  obtain ⟨a, hl, hchunk⟩ | ⟨c, hc, hr⟩ := List.append_eq_append_iff.mp h
  · exact ⟨a, hl, hchunk⟩
  · cases c with
    | nil => exact ⟨[], by simpa using hc.symm, by simpa using hr.symm⟩
    | cons b c =>
      rw [List.cons_append, List.cons.injEq] at hr
      rw [hc, ← hr.1] at hfirst
      simp at hfirst

theorem Fragments.Early.selected (h : f.Early) : f.Selected := by
  obtain ⟨line, rest, hzero, hlf, hplace⟩ := h
  have hl : ch '\n' ∉ line ++ [ch '\r'] := notMem_cr hlf (by decide)
  have hz : 0 ∉ line ++ [ch '\r'] := notMem_cr hzero (by decide)
  intro buffer _
  rcases hplace with hfirst | ⟨chunk, chunks, hchunks, hnot, hline, hrest⟩
  · have hparts : f.first = line ++ [ch '\r'] ++ ch '\n' :: rest := by simp [hfirst, crlf]
    have hstream : f.stream = line ++ [ch '\r'] ++ ch '\n' :: (rest ++ f.chunks.flatten) := by
      simp [stream, hfirst, crlf]
    refine ⟨1, ?_⟩
    rw [selector, hparts, cstr_line hz, readLoop_of_mem (lf_mem _ _), Option.map_some, hstream,
      (substrRequest_eq_firstLine_iff hl _ _).mpr ⟨line, rfl⟩]
  · obtain ⟨a, ha, hchunk⟩ := split_of_append hnot (show f.first ++ chunk =
      line ++ [ch '\r'] ++ ch '\n' :: rest by simp [hline, crlf])
    have hstream : f.stream = line ++ [ch '\r'] ++ ch '\n' :: (rest ++ chunks.flatten) := by
      rw [stream, hchunks, List.flatten_cons, ← List.append_assoc, hline]
      simp [crlf]
    have hzeros : 0 ∉ f.first ∧ 0 ∉ a := by
      rw [ha] at hz
      simpa using hz
    have hmem : 0 ∈ chunk := by simp [hchunk, hrest]
    refine ⟨2, ?_⟩
    have hloop : readLoop 2 (cstr f.first) buffer f.chunks =
        some (line ++ [ch '\r'] ++ ch '\n' :: cstr rest) := by
      rw [cstr_of_notMem hzeros.1, hchunks]
      refine readLoop_succ_iff.mpr (.inr ⟨hnot, List.mem_append_left _ hmem, ?_⟩)
      rw [read_cons, cstr_append_of_mem hmem, hchunk, cstr_line hzeros.2, ← List.append_assoc, ← ha,
        readLoop_of_mem (lf_mem _ _)]
    rw [selector, hloop, Option.map_some, hstream, (substrRequest_eq_firstLine_iff hl _ _).mpr ⟨line, rfl⟩]

/-- **When the selector is the first line**: the loop looks at one read at most, and what is behind the end of it
has to be cut off by the client. -/
theorem Fragments.selected_iff (f : Fragments) : f.Selected ↔ f.Early := by
  refine ⟨fun h => ?_, Early.selected⟩
  by_cases hfirst : ch '\n' ∈ f.first
  · exact h.early_of_mem hfirst
  · exact h.early_of_notMem hfirst

/-- An empty line that ends with a bare LF: the LF itself is handed over. -/
theorem not_selected : ¬ ∀ f : Fragments, f.Selected := by
  intro h
  obtain ⟨fuel, hfuel⟩ := h ⟨[ch '\n'], [], by simp, by simp⟩ (List.replicate 256 0) List.length_replicate
  obtain ⟨command, hcommand, hrequest⟩ := Option.map_eq_some_iff.mp hfuel
  rw [eq_of_readLoop (by decide) hcommand] at hrequest
  exact absurd hrequest (by decide)

end MyServer.Gopher
