import MyServer.HashMap.Refinement

/-!
# The cache of files

What `CachedFileFactory::open`, `CachedFileFactory::nullReferences` and the
reference counter of `CachedFileBuffer` do, piece by piece. The hash map is the
finite map that it refines.
-/

namespace MyServer.Cache

/-- A `CachedFileFactoryRecord` and its `CachedFileBuffer`, which live and die together. -/
structure Record where
  filename : Str
  fileSize : UInt64
  /-- `S_ISLNK` of the file that the buffer was read from. -/
  symlink : Bool
  refCounter : Nat
  expireTime : UInt64
  used : Nat
  created : UInt64
  invalidCache : Bool

structure Factory where
  size : UInt64
  usedSize : UInt64
  maxSize : UInt64
  minSize : UInt64
  buffers : HashMap.Mapping Nat
  buffersToRemove : List Nat
  /-- The records by their address, `none` where there is none or none any more. -/
  heap : Nat → Option Record
  /-- The next address to be given out. -/
  next : Nat

/-- What `float spaceUsage` compares as. -/
structure Usage where
  below65 : Bool
  above65 : Bool
  above90 : Bool

/-- A file that `File::openFile` opens. -/
structure FileInfo where
  fileSize : UInt64
  symlink : Bool

/-- What a call of `open` is told by the clock, by its flags and by the system. -/
structure Answers where
  ticks : UInt64
  noFollowSymlink : Bool
  revalidates : Bool
  /-- `none` where `openFile` throws. -/
  file : Option FileInfo

/-! ## Records -/

section Heap

variable (heap : Nat → Option Record)

def refCounter (r : Nat) : Nat := (heap r).elim 0 Record.refCounter

def fileSize (r : Nat) : UInt64 := (heap r).elim 0 Record.fileSize

/-- The loop of `purgeRecords`: what it returns, the records that stay in the list, and the heap. -/
def purgeLoop : List Nat → (Nat → Option Record) → UInt64 × List Nat × (Nat → Option Record)
  | [], heap => (0, [], heap)
  | rec :: its, heap =>
    if refCounter heap rec ≠ 0 then
      let (ret, kept, heap') := purgeLoop its heap
      (ret, rec :: kept, heap')
    else
      let (ret, kept, heap') := purgeLoop its (Function.update heap rec none)
      (fileSize heap rec + ret, kept, heap')

end Heap

namespace Factory

variable (f : Factory)

/-- `CachedFileFactory::initialize` leaves the containers as they are. -/
def initializeCache (size : UInt64) : Factory :=
  { f with size := size, maxSize := 0, minSize := 0, usedSize := 0 }

def new (size : UInt64) : Factory := initializeCache ⟨0, 0, 0, 0, ∅, [], fun _ => none, 0⟩ size

def purged : UInt64 × List Nat × (Nat → Option Record) := purgeLoop f.buffersToRemove f.heap

def purgeRecords : Factory :=
  { f with
    usedSize := f.usedSize - f.purged.1
    buffersToRemove := f.purged.2.1
    heap := f.purged.2.2 }

def modify (r : Nat) (g : Record → Record) : Factory :=
  { f with heap := Function.update f.heap r ((f.heap r).map g) }

def get (filename : Str) : Option Nat := f.buffers.lookup filename

/-- An entry that has expired is compared with the file again. -/
def revalidate (r : Nat) (a : Answers) : Factory :=
  if (f.heap r).any (·.expireTime ≤ a.ticks) then
    f.modify r fun record =>
      { record with expireTime := a.ticks + 5000000, invalidCache := !a.revalidates }
  else f

/-- `record->invalidCache || noSymlink`: the file is opened without the cache. -/
def bypasses (r : Nat) (a : Answers) : Bool :=
  (f.heap r).any fun record => record.invalidCache || (!a.noFollowSymlink && record.symlink)

def tooLarge (fileSize : UInt64) : Bool :=
  (f.minSize ≠ 0 ∧ fileSize < f.minSize) ∨ (f.maxSize ≠ 0 ∧ f.maxSize < fileSize) ∨
    f.size - f.usedSize < fileSize

/-- The new record is at the address `f.next`. -/
def insert (filename : Str) (info : FileInfo) (ticks : UInt64) : Factory :=
  { f with
    buffers := f.buffers.insert filename f.next
    usedSize := f.usedSize + info.fileSize
    heap := Function.update f.heap f.next
      (some ⟨filename, info.fileSize, info.symlink, 0, ticks + 5000000, 0, ticks, false⟩)
    next := f.next + 1 }

/-- `record->used++` and `new CachedFile (buffer)`. -/
def addRef (r : Nat) : Factory :=
  f.modify r fun record => { record with used := record.used + 1, refCounter := record.refCounter + 1 }

def decRef (r : Nat) : Factory :=
  f.modify r fun record => { record with refCounter := record.refCounter - 1 }

/-- The test of `nullReferences` on the record that it has found. -/
def leaves (q : Nat) (usage : Usage) (ticks : UInt64) : Bool :=
  (f.heap q).any fun record =>
    (usage.above65 && decide (10000 < ticks - record.created)) || usage.above90 || record.invalidCache

/-- `buffers.remove` and `buffersToRemove.push_back`. -/
def remove (filename : Str) : Factory :=
  match f.get filename with
  | some q =>
    { f with buffers := f.buffers.erase filename, buffersToRemove := f.buffersToRemove ++ [q] }
  | none => f

end Factory

/-! ## Whole calls -/

inductive Outcome
  | threw
  | plain
  | cached (r : Nat)
  | done
  deriving DecidableEq

/-- Opening a file without the cache. -/
def openFile (a : Answers) : Outcome := if a.file.isSome then .plain else .threw

def openHit (f : Factory) (r : Nat) (a : Answers) : Outcome × Factory :=
  let f := f.revalidate r a
  if f.bypasses r a then (openFile a, f) else (.cached r, f.addRef r)

def openMiss (f : Factory) (filename : Str) (a : Answers) : Outcome × Factory :=
  match a.file with
  | none => (.threw, f)
  | some info =>
    if f.tooLarge info.fileSize then (.plain, f)
    else (.cached f.next, (f.insert filename info a.ticks).addRef f.next)

/-- `CachedFileFactory::open`. -/
def factoryOpen (f : Factory) (filename : Str) (a : Answers) : Outcome × Factory :=
  let f := f.purgeRecords
  match f.get filename with
  | some r => openHit f r a
  | none => openMiss f filename a

section Close

variable (spaceUsage : UInt64 → UInt64 → Usage)

/-- The record is looked up by the name of the buffer. -/
def nullReferences (f : Factory) (cfb : Record) (ticks : UInt64) : Factory :=
  if (spaceUsage f.usedSize f.size).below65 then f
  else
    match f.get cfb.filename with
    | none => f
    | some q =>
      if f.leaves q (spaceUsage f.usedSize f.size) ticks then f.remove cfb.filename else f

/-- `CachedFile::close`. -/
def close (f : Factory) (r : Nat) (ticks : UInt64) : Factory :=
  match (f.decRef r).heap r with
  | some cfb =>
    if cfb.refCounter = 0 then nullReferences spaceUsage (f.decRef r) cfb ticks else f.decRef r
  | none => f.decRef r

inductive Op
  | open (filename : Str) (a : Answers)
  | close (r : Nat) (ticks : UInt64)
  | initializeCache (size : UInt64)
  | setMaxSize (maxSize : UInt64)
  | setMinSize (minSize : UInt64)

/-- One call. Only a `CachedFile` that is open can be closed. -/
def step (f : Factory) : Op → Option (Outcome × Factory)
  | .open filename a => some (factoryOpen f filename a)
  | .close r ticks => if refCounter f.heap r = 0 then none else some (.done, close spaceUsage f r ticks)
  | .initializeCache size => some (.done, f.initializeCache size)
  | .setMaxSize maxSize => some (.done, { f with maxSize := maxSize })
  | .setMinSize minSize => some (.done, { f with minSize := minSize })

end Close

end MyServer.Cache
