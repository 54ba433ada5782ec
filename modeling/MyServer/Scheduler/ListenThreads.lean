import MyServer.Lib.OrdMap

/-!
# The ports the server listens on (listen_threads.cpp)

From `beginFastReboot` on a port that is asked for is only noted. The commit compares what is noted with the table
of the ports in use, and the rollback forgets it. A `HashMap` is a finite map here, and `order` the order in which
its iterator goes through the keys.
-/

open Std

namespace MyServer.Listen

inductive Family
  | ipv4
  | ipv6

/-- What the system and the build are like during a call. -/
structure World where
  haveIpv6 : Bool
  /-- Whether a socket can be bound to the port, and listens. -/
  bind : Family → UInt16 → Bool
  order : List UInt16 → List UInt16
  perm : ∀ ports, (order ports).Perm ports

/-- With the numbers of the sockets. -/
structure SocketInformation where
  ipv4 : Option Nat
  ipv6 : Option Nat
  port : UInt16

def SocketInformation.socket (si : SocketInformation) : Family → Option Nat
  | .ipv4 => si.ipv4
  | .ipv6 => si.ipv6

/-- `sockets` are those that listen, and `listeners` those that the scheduler was given. -/
structure ListenThreads where
  fastRebooting : Bool
  committingFastReboot : Bool
  shutdownStatus : Bool
  frPortsToAdd : List UInt16
  frPortsToRemove : List SocketInformation
  usedPorts : OrdMap UInt16 SocketInformation
  sockets : Nat → Option (Family × UInt16)
  next : Nat
  listeners : List Nat

namespace ListenThreads

variable (w : World) (s : ListenThreads)

def new : ListenThreads := ⟨false, false, false, [], [], ∅, fun _ => none, 0, []⟩

/-- `socket`, `bind` and `listen`, in one `try`. -/
def openSocket (family : Family) (port : UInt16) : Option Nat × ListenThreads :=
  if w.bind family port then
    (some s.next, { s with sockets := Function.update s.sockets s.next (some (family, port)), next := s.next + 1 })
  else (none, s)

def registerListener (si : SocketInformation) : ListenThreads :=
  { s with listeners := si.ipv6.toList ++ (si.ipv4.toList ++ s.listeners) }

def createServerAndListener (port : UInt16) : ListenThreads :=
  if s.fastRebooting then { s with frPortsToAdd := s.frPortsToAdd ++ [port] }
  else
    let (ipv4, s) := s.openSocket w .ipv4 port
    let (ipv6, s) := if w.haveIpv6 then s.openSocket w .ipv6 port else (none, s)
    if ipv4 = none ∧ ipv6 = none then s
    else
      let si : SocketInformation := ⟨ipv4, ipv6, port⟩
      { s with usedPorts := s.usedPorts.insert port si }.registerListener si

def addListeningThread (port : UInt16) : ListenThreads :=
  if ¬ (s.fastRebooting ∨ s.committingFastReboot) ∧ port ∈ s.usedPorts then s
  else s.createServerAndListener w port

/-- `initialize`. -/
def init : ListenThreads := { s with shutdownStatus := false }

def closeSocket (socket : Option Nat) : ListenThreads :=
  match socket with
  | some id => { s with sockets := Function.update s.sockets id none }
  | none => s

/-- A socket that listens is not connected, so that the `recv` of the loop throws at once. -/
def close (si : SocketInformation) : ListenThreads := (s.closeSocket si.ipv4).closeSocket si.ipv6

def listed : List SocketInformation := (w.order s.usedPorts.keys).filterMap fun port => s.usedPorts[port]?

def terminate : ListenThreads :=
  if s.fastRebooting then s
  else if s.committingFastReboot then s.frPortsToRemove.foldl close s
  else
    let s := { s with shutdownStatus := true }
    { (s.listed w).reverse.foldl close s with usedPorts := ∅ }

def beginFastReboot : ListenThreads := { s with fastRebooting := true }

/-- `registerListener (usedPorts.get (*it))`; `none` is a null pointer. -/
def registerPort (port : UInt16) : Option ListenThreads := s.usedPorts[port]?.map s.registerListener

def dropPort (port : UInt16) : Option ListenThreads :=
  s.usedPorts[port]?.map fun si =>
    { s with frPortsToRemove := s.frPortsToRemove ++ [si], usedPorts := s.usedPorts.erase si.port }

abbrev Ports := ExtTreeSet UInt16 compare

def commitFastReboot : Option ListenThreads := do
  let s := { s with fastRebooting := false, committingFastReboot := true }
  let presentPorts : Ports := .ofList ((s.listed w).map SocketInformation.port)
  let newPorts : Ports := .ofList s.frPortsToAdd
  let intersection := presentPorts.filter newPorts.contains
  let toRemove := presentPorts.filter fun port => !newPorts.contains port
  let toAdd := newPorts.filter fun port => !presentPorts.contains port
  let s ← intersection.toList.foldlM registerPort s
  let s := toAdd.toList.foldl (createServerAndListener w) s
  let s ← toRemove.toList.foldlM dropPort s
  let s := s.terminate w
  some { s with frPortsToAdd := [], frPortsToRemove := [], committingFastReboot := false }

def rollbackFastReboot : ListenThreads :=
  let s := { s with fastRebooting := false, committingFastReboot := false }
  { (s.listed w).foldl registerListener s with frPortsToAdd := [], frPortsToRemove := [] }

/-! ## Runs -/

/-- What the server does, a reboot with the ports that the new configuration asks for and its end. -/
inductive Op
  | add (port : UInt16)
  | init
  | terminate
  | reboot (ports : List UInt16) (commit : Bool)

/-- Between `beginFastReboot` and the end of a reboot. -/
def rebooting (ports : List UInt16) : ListenThreads :=
  ports.foldl (addListeningThread w) (s.beginFastReboot.terminate w).init

def step : Op → Option ListenThreads
  | .add port => some (s.addListeningThread w port)
  | .init => some s.init
  | .terminate => some (s.terminate w)
  | .reboot ports commit =>
    if commit then (s.rebooting w ports).commitFastReboot w else some ((s.rebooting w ports).rollbackFastReboot w)

inductive Reachable : ListenThreads → Prop
  | new : Reachable new
  | step {s s' : ListenThreads} {w : World} {op : Op} : Reachable s → s.step w op = some s' → Reachable s'

def Listens (port : UInt16) : Prop := ∃ id family, s.sockets id = some (family, port)

/-- The sockets that listen are those that the scheduler is given, in front of what it had. -/
def Served (s s' : ListenThreads) : Prop :=
  ∃ ids, s'.listeners = ids ++ s.listeners ∧ ∀ id, id ∈ ids ↔ s'.sockets id ≠ none

/-- The ports that were asked for, with the listeners that there were. -/
structure Committed (ports : List UInt16) (s s' : ListenThreads) : Prop where
  exact : ∀ port, s'.Listens port ↔ port ∈ ports
  kept : ∀ port ∈ ports, s.Listens port →
    s'.usedPorts[port]? = s.usedPorts[port]? ∧
      ∀ id family, s'.sockets id = some (family, port) ↔ s.sockets id = some (family, port)
  served : Served s s'

structure RolledBack (s s' : ListenThreads) : Prop where
  exact : ∀ port, s'.Listens port ↔ s.Listens port
  kept : s'.usedPorts = s.usedPorts ∧ s'.sockets = s.sockets
  served : Served s s'

end ListenThreads

end MyServer.Listen
