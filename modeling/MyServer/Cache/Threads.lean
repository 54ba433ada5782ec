import MyServer.Cache.WellFormed
import MyServer.Lib.Run

/-!
# Threads in the cache

`open` gives its mutex back before it has made the `CachedFile`, and
`nullReferences` does not take it at all, so the calls of several threads are cut
into the pieces between which others may run.
-/

open MyServer.Run

namespace MyServer.Cache

/-- Where a thread stands. -/
inductive Call
  | idle
  /-- In `open`, with the mutex of the factory. -/
  | purges (filename : Str)
  | looksUp (filename : Str)
  | waits (filename : Str) (r : Nat)
  /-- In `open`, with the mutex of the record. -/
  | checks (filename : Str) (r : Nat)
  | takes (r : Nat)
  /-- In `open`, with no mutex: there was no record. -/
  | opensFile (filename : Str)
  /-- In `nullReferences`, with no mutex. -/
  | nulls (r : Nat)
  | wants (filename : Str) (q : Nat) (usage : Usage)
  /-- In `nullReferences`, with the mutex of the record `q`. -/
  | decides (filename : Str) (q : Nat) (usage : Usage)
  /-- Before `record->mutex.unlock ()`, the last thing in both. -/
  | unlocks (q : Nat)

structure Shared where
  factory : Factory
  /-- The thread that has the mutex of the factory. -/
  lock : Option Nat
  /-- The threads that have the mutexes of the records. -/
  owner : Nat → Option Nat
  calls : Nat → Call
  /-- The record of each `CachedFile` that is open. -/
  handles : List Nat

inductive Action
  | open (filename : Str)
  | close (r : Nat)
  | go (a : Answers)

def Shared.put (c : Shared) (t : Nat) (call : Call) : Shared :=
  { c with calls := Function.update c.calls t call }

section Steps

variable (spaceUsage : UInt64 → UInt64 → Usage)

/-- What the thread does next in the call that it is in, `none` while a mutex keeps it waiting and
where it would follow a pointer to nothing. -/
def goOn (c : Shared) (t : Nat) (a : Answers) : Call → Option Shared
  | .idle => none
  | .purges filename => some { c.put t (.looksUp filename) with factory := c.factory.purgeRecords }
  | .looksUp filename =>
    match c.factory.get filename with
    | some r => some (c.put t (.waits filename r))
    | none => some { c.put t (.opensFile filename) with lock := none }
  | .waits filename r =>
    if c.owner r = none then
      some { c.put t (.checks filename r) with
        lock := none
        owner := Function.update c.owner r (some t) }
    else none
  | .checks _ r =>
    if (c.factory.revalidate r a).bypasses r a then
      some { c.put t .idle with
        factory := c.factory.revalidate r a
        owner := Function.update c.owner r none }
    else some { c.put t (.takes r) with factory := c.factory.revalidate r a }
  | .opensFile filename =>
    match a.file with
    | none => some (c.put t .idle)
    | some info =>
      if c.factory.tooLarge info.fileSize then some (c.put t .idle)
      else
        some { c.put t (.takes c.factory.next) with
          factory := c.factory.insert filename info a.ticks
          owner := Function.update c.owner c.factory.next (some t) }
  | .takes r =>
    some { c.put t (.unlocks r) with
      factory := c.factory.addRef r
      handles := r :: c.handles }
  | .nulls r =>
    if (spaceUsage c.factory.usedSize c.factory.size).below65 then some (c.put t .idle)
    else
      match c.factory.heap r with
      | none => none
      | some cfb =>
        match c.factory.get cfb.filename with
        | none => some (c.put t .idle)
        | some q =>
          some (c.put t (.wants cfb.filename q (spaceUsage c.factory.usedSize c.factory.size)))
  | .wants filename q usage =>
    if c.owner q = none then
      some { c.put t (.decides filename q usage) with owner := Function.update c.owner q (some t) }
    else none
  | .decides filename q usage =>
    if c.factory.leaves q usage a.ticks then
      match c.factory.get filename with
      | none => none
      | some q' => some { c.put t (.unlocks q') with factory := c.factory.remove filename }
    else some (c.put t (.unlocks q))
  | .unlocks q => some { c.put t .idle with owner := Function.update c.owner q none }

/-- `CachedFile::close` up to the notification. -/
def decRef (c : Shared) (t r : Nat) : Shared :=
  { c.put t (if refCounter (c.factory.decRef r).heap r = 0 then .nulls r else .idle) with
    factory := c.factory.decRef r
    handles := c.handles.erase r }

def advance (c : Shared) (t : Nat) : Action → Option Shared
  | .open filename =>
    match c.calls t with
    | .idle => if c.lock = none then some { c.put t (.purges filename) with lock := some t } else none
    | _ => none
  | .close r =>
    match c.calls t with
    | .idle => if r ∈ c.handles then some (decRef c t r) else none
    | _ => none
  | .go a => goOn spaceUsage c t a (c.calls t)

/-- Logged is the state after each piece. -/
def threadStep (c : Shared) (i : Nat × Action) : Option (Shared × Shared) :=
  (advance spaceUsage c i.1 i.2).map fun c' => (c', c')

end Steps

def start (size : UInt64) : Shared := ⟨.new size, none, fun _ => none, fun _ => .idle, []⟩

end MyServer.Cache
