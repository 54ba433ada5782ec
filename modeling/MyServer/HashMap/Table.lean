import MyServer.Bytes
import MyServer.Lib.Chain

/-!
# The hash map with string keys

`data` holds the buckets, `map` says for each bucket under which `offset` it was
last filled. A bucket whose mark lies below `offset` is stale: its entries are
from before the last `clear ()` and nobody reads them.
-/

namespace MyServer

structure Shkv (V : Type) where
  hash : Nat
  key : Str
  value : V

/-- A `std::vector`. What `get` gives from `size` on is left over and means nothing. -/
structure Vec (α : Type) where
  size : Nat
  get : Nat → α

namespace Vec

variable {α : Type}

def set (v : Vec α) (i : Nat) (a : α) : Vec α := { v with get := Function.update v.get i a }

def resize (v : Vec α) (n : Nat) (a : α) : Vec α :=
  { size := n, get := fun i => if i < v.size then v.get i else a }

@[simp] theorem size_set (v : Vec α) (i : Nat) (a : α) : (v.set i a).size = v.size := rfl

@[simp] theorem get_set (v : Vec α) (i : Nat) (a : α) :
    (v.set i a).get = Function.update v.get i a := rfl

@[simp] theorem size_resize (v : Vec α) (n : Nat) (a : α) : (v.resize n a).size = n := rfl

end Vec

/-- The two comparisons of `load / capacity`, an integer quotient, with the load factors. The
upper factor is positive: the constructors take 0.75 for any other. -/
structure LoadFactor where
  high : Nat → Bool
  low : Nat → Bool
  high_zero : high 0 = false

/-- 0.75 and 0.75 / 13 * 6. -/
def LoadFactor.default : LoadFactor where
  high q := 1 ≤ q
  low q := q = 0
  high_zero := rfl

structure HashMap (V : Type) where
  data : Vec (List (Shkv V))
  map : Vec Nat
  offset : Nat
  capacity : Nat
  power : Nat
  mask : Nat
  load : Nat
  factor : LoadFactor

namespace HashMap

variable {V : Type}

/-- `char` is signed. -/
def elfHashStep (h : UInt32) (c : Byte) : UInt32 :=
  let h := (h <<< 4) + c.toInt8.toInt32.toUInt32
  let x := h &&& 0xF0000000
  if x ≠ 0 then (h ^^^ (x >>> 24)) &&& ~~~x else h

/-- The length is an `int`, and no byte counts where it is negative. -/
def hash (key : Str) : Nat :=
  let len := (BitVec.ofNat 32 key.length).toInt
  ((key.take len.toNat).foldl elfHashStep 0 &&& 0x7FFFFFFF).toNat

example : hash (ascii "printf") = 0x077905a6 := by decide

/-- `power` for a wanted capacity: `4`, or `5` and one more for each bit from bit 5 on. -/
def initialPower (hashCapacity : Int) : Nat :=
  if hashCapacity > 0x10 then 5 + (hashCapacity.toNat >>> 5).size else 4

/-- `0xffffffff >> (32 - power)` -/
def maskOf (power : Nat) : Nat := 0xffffffff >>> (32 - power)

/-- All constructors. `0x1 << 31` is a negative `int`, and no vector gets that size. -/
def new (hashCapacity : Int) (factor : LoadFactor) : Option (HashMap V) :=
  let power := initialPower hashCapacity
  if 31 ≤ power then none
  else some {
    data := { size := 2 ^ power, get := fun _ => [] }
    map := { size := 2 ^ power, get := fun _ => 0 }
    offset := 1
    capacity := 2 ^ power
    power
    mask := maskOf power
    load := 0
    factor }

/-- The bucket of a key. There is none when the side table is shorter than `mask` says, or when the bucket
would be looked into and `data` is shorter. -/
def slot (h : HashMap V) (key : Str) : Option Nat :=
  let t := hash key &&& h.mask
  if t < h.map.size ∧ (h.offset ≤ h.map.get t → t < h.data.size) then some t else none

/-- `data[t]`, when `map[t] >= offset` -/
def live (h : HashMap V) (t : Nat) : List (Shkv V) :=
  if h.offset ≤ h.map.get t then h.data.get t else []

/-! ## Resizing -/

/-- `map[t] = offset; data[t].push_front (e)` -/
def moveTo (h : HashMap V) (e : Shkv V) : HashMap V :=
  let t := e.hash &&& h.mask
  { h with
    map := h.map.set t h.offset
    data := h.data.set t (e :: h.data.get t) }

/-- One bucket of `increaseSize`. An entry that moves never comes back to bucket `i`, so the loop
sees the bucket it started with. -/
def spread (h : HashMap V) (i : Nat) : HashMap V :=
  if h.offset ≤ h.map.get i then
    let bucket := h.data.get i
    let kept := bucket.filter fun e => e.hash &&& h.mask = i
    let h := (bucket.filter fun e => e.hash &&& h.mask ≠ i).foldl moveTo h
    { h with
      data := h.data.set i kept
      map := if kept = [] then h.map.set i 0 else h.map }
  else h

def increaseSize (h : HashMap V) : Option (HashMap V) :=
  let power := h.power + 1
  if 31 ≤ power then none
  else
    let h := { h with
      power
      mask := maskOf power
      data := h.data.resize (2 ^ power) []
      map := h.map.resize (2 ^ power) 0 }
    let h := (List.range h.capacity).foldl spread h
    some { h with capacity := 2 ^ power }

/-- One entry of a bucket that `decreaseSize` gives up. -/
def moveDown (h : HashMap V) (e : Shkv V) : HashMap V :=
  let t := e.hash &&& h.mask
  let h := if h.map.get t < h.offset then
      { h with map := h.map.set t h.offset, data := h.data.set t [] }
    else h
  { h with data := h.data.set t (e :: h.data.get t) }

def fold (h : HashMap V) (i : Nat) : HashMap V :=
  if h.offset ≤ h.map.get i then (h.data.get i).foldl moveDown h else h

def decreaseSize (h : HashMap V) : HashMap V :=
  let old := h.capacity
  let h := { h with power := h.power - 1, mask := h.mask >>> 1, capacity := h.capacity >>> 1 }
  let h := (List.range' h.capacity (old - h.capacity)).reverse.foldl fold h
  { h with data := h.data.resize h.capacity [], map := h.map.resize h.capacity 0 }

/-! ## Operations

`none` is an exception or an access outside a vector. -/

variable [Zero V]

def get (h : HashMap V) (key : Str) : Option V :=
  (h.slot key).map fun t =>
    match (h.live t).find? fun e => e.key = key with
    | some e => e.value
    | none => 0

def grow (h : HashMap V) : Option (HashMap V) :=
  if h.factor.high (h.load / h.capacity) then h.increaseSize else some h

def put (h : HashMap V) (key : Str) (value : V) : Option (V × HashMap V) :=
  (h.slot key).bind fun t =>
    let e : Shkv V := { hash := hash key, key, value }
    if h.offset ≤ h.map.get t then
      match (h.data.get t).find? fun e => e.key = key with
      | some old =>
        let bucket := Chain.adjustFirst Shkv.key key (fun e => { e with value }) (h.data.get t)
        some (old.value, { h with data := h.data.set t bucket })
      | none =>
        let h := { h with load := h.load + 1, data := h.data.set t (e :: h.data.get t) }
        h.grow.map fun h => (0, h)
    else if t < h.data.size then
      let h := { h with
        load := h.load + 1
        map := h.map.set t h.offset
        data := h.data.set t [e] }
      h.grow.map fun h => (0, h)
    else none

def shrink (h : HashMap V) : HashMap V :=
  if h.factor.low (h.load / h.capacity) ∧ 16 < h.capacity then h.decreaseSize else h

def remove (h : HashMap V) (key : Str) : Option (V × HashMap V) :=
  (h.slot key).map fun t =>
    match (h.live t).find? fun e => e.key = key with
    | some old =>
      let bucket := (h.data.get t).eraseP fun e => e.key = key
      let h := { h with
        load := h.load - 1
        data := h.data.set t bucket
        map := if bucket = [] then h.map.set t 0 else h.map }
      (old.value, h.shrink)
    | none => (0, h)

/-- `offset` is a 32-bit counter. When it wraps, the buckets are dropped and not made again. -/
def clear (h : HashMap V) : HashMap V :=
  let offset := (h.offset + 1) % 2 ^ 32
  if offset = 0 then
    { h with
      load := 0
      offset := 1
      data := { size := 0, get := fun _ => [] }
      map := { size := h.capacity, get := fun _ => 0 } }
  else { h with load := 0, offset }

def size (h : HashMap V) : Nat := h.load

/-! ## Runs -/

inductive Op (V : Type)
  | put (key : Str) (value : V)
  | get (key : Str)
  | remove (key : Str)
  | clear
  | size

inductive Result (V : Type)
  | value (v : V)
  | count (n : Nat)
  | done
deriving DecidableEq

def step (h : HashMap V) : Op V → Option (Result V × HashMap V)
  | .put key value => (h.put key value).map fun (v, h) => (.value v, h)
  | .get key => (h.get key).map fun v => (.value v, h)
  | .remove key => (h.remove key).map fun (v, h) => (.value v, h)
  | .clear => some (.done, h.clear)
  | .size => some (.count h.size, h)

def run (h : HashMap V) : List (Op V) → Option (List (Result V))
  | [] => some []
  | op :: ops => do
    let (r, h) ← h.step op
    let rs ← h.run ops
    return r :: rs

end HashMap

end MyServer
