import MyServer.Bytes

/-!
# A chain of filters

`FiltersChain` and `FiltersFactory::chain` (filters_chain.cpp, filters_factory.cpp). The first filter of the
list is the one that is written to; the last writes to the stream. What a step sends to the stream is beside
the chain that it leaves.
-/

namespace MyServer.Filter

/-- A filter, by what it sends to its parent. `flush` gives nothing when there is nothing to send, and the
parent is not flushed then. -/
structure FilterKind (σ : Type) where
  name : Str
  start : σ
  getHeader : Str
  write : σ → Str → σ × List Str
  flush : σ → σ × Option Str
  getFooter : σ → Str

variable {σ : Type}

/-- Written to the first filter, and on from filter to filter. -/
def writeTo : List (FilterKind σ) → List σ → Str → List σ × Str
  | k :: ks, s :: ss, buffer =>
    let wrote := k.write s buffer
    let sent := wrote.2.foldl (fun sent piece =>
      let parent := writeTo ks sent.1 piece
      (parent.1, sent.2 ++ parent.2)) (ss, [])
    (wrote.1 :: sent.1, sent.2)
  | _, ss, buffer => (ss, buffer)

/-- `firstFilter->flush`. -/
def flushFirst : List (FilterKind σ) → List σ → List σ × Str
  | k :: ks, s :: ss =>
    let flushed := k.flush s
    match flushed.2 with
    | none => (flushed.1 :: ss, [])
    | some buffer =>
      let wrote := writeTo ks ss buffer
      let parent := flushFirst ks wrote.1
      (flushed.1 :: parent.1, wrote.2 ++ parent.2)
  | _, ss => (ss, [])

/-- The footers, from the last filter to the first, each written to the filter's parent. -/
def footers : List (FilterKind σ) → List σ → List σ × Str
  | k :: ks, s :: ss =>
    let inner := footers ks ss
    let wrote := writeTo ks inner.1 (k.getFooter s)
    (s :: wrote.1, inner.2 ++ wrote.2)
  | _, ss => (ss, [])

structure FiltersChain (σ : Type) where
  filters : List (FilterKind σ)
  states : List σ

namespace FiltersChain

def empty : FiltersChain σ := ⟨[], []⟩

def write (c : FiltersChain σ) (buffer : Str) : FiltersChain σ × Str :=
  let wrote := writeTo c.filters c.states buffer
  ({ c with states := wrote.1 }, wrote.2)

def flush (c : FiltersChain σ) : FiltersChain σ × Str :=
  let flushed := flushFirst c.filters c.states
  let footed := footers c.filters flushed.1
  ({ c with states := footed.1 }, flushed.2 ++ footed.2)

/-- The header goes through the filters that are there. -/
def addFilter (c : FiltersChain σ) (f : FilterKind σ) : FiltersChain σ × Str :=
  let wrote := if f.getHeader = [] then (c, []) else c.write f.getHeader
  (⟨f :: wrote.1.filters, f.start :: wrote.1.states⟩, wrote.2)

def getFilters (c : FiltersChain σ) : List Str := c.filters.map (·.name)

end FiltersChain

/-- `FiltersFactory::chain`. A name that no filter has leaves an empty chain, and what was sent before. -/
def chainFrom (getFilter : Str → Option (FilterKind σ)) :
    List Str → FiltersChain σ → Str → Bool × FiltersChain σ × Str
  | [], c, sent => (true, c, sent)
  | name :: names, c, sent =>
    match getFilter name with
    | none => (false, .empty, sent)
    | some f => chainFrom getFilter names (c.addFilter f).1 (sent ++ (c.addFilter f).2)

def chain (getFilter : Str → Option (FilterKind σ)) (names : List Str) : Bool × FiltersChain σ × Str :=
  chainFrom getFilter names .empty []

/-- One message after the other, and all that is sent. -/
def FiltersChain.writeAll : FiltersChain σ → List Str → FiltersChain σ × Str
  | c, [] => (c, [])
  | c, message :: messages =>
    let rest := writeAll (c.write message).1 messages
    (rest.1, (c.write message).2 ++ rest.2)

/-- What `decode` makes of a file: the chain of these names writes its headers and then messages, and what was
written is read back, before the chain is flushed and after it. -/
structure ReadsBack (getFilter : Str → Option (FilterKind σ)) (decode : Str → Str) (names : List Str) : Prop where
  built : (chain getFilter names).1 = true
  getFilters : (chain getFilter names).2.1.getFilters = names.reverse
  unfinished : ∀ messages, decode ((chain getFilter names).2.2 ++
    ((chain getFilter names).2.1.writeAll messages).2) = messages.flatten
  finished : ∀ messages, decode ((chain getFilter names).2.2 ++
    ((chain getFilter names).2.1.writeAll messages).2 ++
    ((chain getFilter names).2.1.writeAll messages).1.flush.2) = messages.flatten

/-! ## Writing message by message -/

@[simp] theorem write_filters (c : FiltersChain σ) (buffer : Str) : (c.write buffer).1.filters = c.filters := rfl

@[simp] theorem writeAll_filters (c : FiltersChain σ) (messages : List Str) :
    (c.writeAll messages).1.filters = c.filters := by
  induction messages generalizing c with
  | nil => rfl
  | cons message messages ih => exact ih (c.write message).1

theorem writeAll_append (c : FiltersChain σ) (messages : List Str) (message : Str) :
    c.writeAll (messages ++ [message]) =
      (((c.writeAll messages).1.write message).1, (c.writeAll messages).2 ++ ((c.writeAll messages).1.write message).2) := by
  induction messages generalizing c with
  | nil => simp [FiltersChain.writeAll]
  | cons first messages ih =>
    rw [List.cons_append, FiltersChain.writeAll, ih]
    simp [FiltersChain.writeAll]

/-! ## No filter, and one -/

/-- What is documented of a filter: all that it was given is in what it sent, be it flushed or not. -/
structure Documented (f : FilterKind σ) (decode : Str → Str) : Prop where
  unfinished : ∀ messages, decode (f.getHeader ++ ((⟨[f], [f.start]⟩ : FiltersChain σ).writeAll messages).2) =
    messages.flatten
  finished : ∀ messages, decode (f.getHeader ++ ((⟨[f], [f.start]⟩ : FiltersChain σ).writeAll messages).2 ++
    ((⟨[f], [f.start]⟩ : FiltersChain σ).writeAll messages).1.flush.2) = messages.flatten

theorem writeAll_empty (messages : List Str) :
    (FiltersChain.empty : FiltersChain σ).writeAll messages = (.empty, messages.flatten) := by
  induction messages with
  | nil => rfl
  | cons message messages ih =>
    have hwrite : (FiltersChain.empty : FiltersChain σ).write message = (.empty, message) := rfl
    rw [FiltersChain.writeAll, hwrite, ih]
    rfl

theorem readsBack_nil (getFilter : Str → Option (FilterKind σ)) : ReadsBack getFilter id [] where
  built := rfl
  getFilters := rfl
  unfinished messages := by
    have hchain : (chain getFilter []).2.1 = .empty := rfl
    rw [hchain, writeAll_empty]
    rfl
  finished messages := by
    have hchain : (chain getFilter []).2.1 = .empty := rfl
    rw [hchain, writeAll_empty]
    simp [FiltersChain.flush, FiltersChain.empty, flushFirst, footers, chain, chainFrom]

theorem readsBack_singleton {getFilter : Str → Option (FilterKind σ)} {f : FilterKind σ} {decode : Str → Str}
    (hf : getFilter f.name = some f) (hdoc : Documented f decode) : ReadsBack getFilter decode [f.name] := by
  have hchain : chain getFilter [f.name] = (true, ⟨[f], [f.start]⟩, f.getHeader) := by
    unfold chain chainFrom
    rw [hf]
    by_cases hheader : f.getHeader = []
    · simp [chainFrom, FiltersChain.addFilter, FiltersChain.empty, hheader]
    · simp [chainFrom, FiltersChain.addFilter, FiltersChain.empty, FiltersChain.write, writeTo, hheader]
  constructor
  · rw [hchain]
  · rw [hchain]
    rfl
  · rw [hchain]
    exact hdoc.unfinished
  · rw [hchain]
    exact hdoc.finished

end MyServer.Filter
