import MyServer.HashMap.Table

/-!
# Walking over the buckets

An iterator goes along `data` and the side table at once. The table keeps one
in `tempIterator` and hands out copies of it: `begin` and `end` set all of it,
`getI` leaves the place in the side table and `offset` as they were.
-/

namespace MyServer

/-- `listIter` stands for the nodes from the current one to the end of the bucket that `vectorIter` is at.
`mapIter` is an index, and none where the side table has moved since, or nobody ever set it. -/
structure MyIterator (V : Type) where
  offset : Nat
  mapIter : Option Nat
  vectorIter : Nat
  listIter : List (Shkv V)

namespace HashMap

variable {V : Type}

/-- `*mapIter` -/
def mark (h : HashMap V) (mapIter : Option Nat) : Option Nat :=
  mapIter.bind fun i => if i < h.map.size then some (h.map.get i) else none

/-- `end`. `data.end ()->end ()` is an address to compare with, and nothing is read there. -/
def endIter (h : HashMap V) : MyIterator V where
  offset := h.offset
  mapIter := some h.map.size
  vectorIter := h.data.size
  listIter := []

/-- The first marked bucket, or `capacity`. -/
def firstMarked (h : HashMap V) : Nat :=
  ((List.range h.capacity).find? fun i => h.offset ≤ h.map.get i).getD h.capacity

/-- `none` is an access outside a vector. -/
def begin (h : HashMap V) : Option (MyIterator V) :=
  if h.load ≠ 0 then
    let i := h.firstMarked
    if h.capacity ≤ h.map.size ∧ i < h.data.size then
      some { offset := h.offset, mapIter := some i, vectorIter := i, listIter := h.data.get i }
    else none
  else some h.endIter

def getI (h : HashMap V) (tempIterator : MyIterator V) (key : Str) : Option (MyIterator V) :=
  (h.slot key).map fun t =>
    match (h.live t).dropWhile fun e => e.key ≠ key with
    | [] => h.endIter
    | dataIter => { tempIterator with vectorIter := t, listIter := dataIter }

/-- `it == end ()` -/
def atEnd (h : HashMap V) (it : MyIterator V) : Prop :=
  it.vectorIter = h.data.size ∧ it.listIter = []

/-- The loop of `++`, over the `n` buckets from `vectorIter` on. -/
def seek (h : HashMap V) (offset : Nat) : Nat → Option Nat → Nat → Option (MyIterator V)
  | 0, mapIter, vectorIter => some { offset, mapIter, vectorIter, listIter := [] }
  | n + 1, mapIter, vectorIter =>
    (h.mark mapIter).bind fun m =>
      if offset ≤ m then some { offset, mapIter, vectorIter, listIter := h.data.get vectorIter }
      else seek h offset n (mapIter.map (· + 1)) (vectorIter + 1)

/-- `++it`. There is none from the end of a bucket. -/
def next (h : HashMap V) (it : MyIterator V) : Option (MyIterator V) :=
  match it.listIter with
  | [] => none
  | [_] => h.seek it.offset (h.data.size - (it.vectorIter + 1)) (it.mapIter.map (· + 1)) (it.vectorIter + 1)
  | _ :: rest => some { it with listIter := rest }

/-- A node: its bucket, and what it holds. -/
abbrev Node (V : Type) := Nat × Shkv V

/-- The nodes that a walk visits until it is at the end. A walk that leaves the vectors, or stands at the end
of another bucket, visits no list. -/
inductive Visits (h : HashMap V) : MyIterator V → List (Node V) → Prop
  | done {it} : h.atEnd it → Visits h it []
  | next {it it' e rest nodes} : it.listIter = e :: rest → h.next it = some it' → Visits h it' nodes →
      Visits h it ((it.vectorIter, e) :: nodes)

end HashMap

end MyServer
