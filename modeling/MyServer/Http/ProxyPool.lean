import MyServer.Bytes
import MyServer.Lib.Safety

/-!
# The connections that the proxy keeps (proxy.cpp, connections_scheduler.cpp)

Requests that take a connection and give it back, and the dispatcher, which delivers one event for each time
that a connection is armed. What stands between two operations on what they share is one step.
-/

namespace MyServer.ProxyPool

structure Connection where
  handle : Nat
  toRemove : Bool
  /-- `proxySchedulerHandler` is set. -/
  schedulerHandler : Bool
  scheduled : Bool

structure ConnectionRecord where
  host : Str
  port : Nat
  connection : Nat
deriving DecidableEq

inductive Place
  | idle
  /-- It uses the connection. -/
  | request (c : Nat)
  /-- In `addConnection`, with the handler set. -/
  | admitted (cr : ConnectionRecord)
  /-- In `addConnection`, before `push_back`. -/
  | waiting (cr : ConnectionRecord)
  /-- In `addConnection`, with `toRemove` set. -/
  | refused (c : Nat)

def Place.connection : Place → Option Nat
  | .idle => none
  | .request c | .refused c => some c
  | .admitted cr | .waiting cr => some cr.connection

inductive Notice
  | read
  | timeout

inductive Delivery
  | idle
  /-- In `newData`, with the connection. -/
  | newData (handle c : Nat) (notice : Notice)
  /-- In `removeConnection`, before the lock. -/
  | removeConnection (handle c : Nat)

/-- The connections in memory by their numbers. `waiting` is the table of the scheduler, `events` are the handles
for which an event is armed or under delivery, and `ready` is what was handed to the server's threads. -/
structure Pool (threads : Nat) where
  memory : Nat → Option Connection
  next : Nat
  connections : List ConnectionRecord
  maxKeepAliveConnections : Nat
  waiting : Nat → Option Nat
  events : List Nat
  delivery : Delivery
  ready : List Nat
  place : Fin threads → Place
  undefined : Bool

inductive Event (threads : Nat)
  /-- A new socket gets a handle that no other one has, and may fail to connect. -/
  | getConnection (t : Fin threads) (host : Str) (port handle : Nat) (connects : Bool)
  | addConnection (t : Fin threads) (host : Str) (port : Nat) (keepalive : Bool)
  /-- `addConnection` goes on. -/
  | proceed (t : Fin threads)
  | fire (handle : Nat) (notice : Notice)
  /-- The dispatcher goes on. -/
  | deliver
  /-- A thread of the server is done with a connection that was ready. -/
  | deleteConnection (c : Nat)

namespace Pool

variable {threads : Nat}

def new (threads maxKeepAliveConnections : Nat) : Pool threads where
  memory := fun _ => none
  next := 0
  connections := []
  maxKeepAliveConnections := maxKeepAliveConnections
  waiting := fun _ => none
  events := []
  delivery := .idle
  ready := []
  place := fun _ => .idle
  undefined := false

variable (s : Pool threads)

def goes (t : Fin threads) (place : Place) : Pool threads := { s with place := Function.update s.place t place }

def write (c : Nat) (con : Option Connection) : Pool threads := { s with memory := Function.update s.memory c con }

def isOpen (handle : Nat) : Bool :=
  (List.range s.next).any fun c => (s.memory c).any fun con => con.handle = handle

def getConnection (t : Fin threads) (host : Str) (port handle : Nat) (connects : Bool) : Option (Pool threads) :=
  match s.connections.find? fun cr => cr.port = port ∧ cr.host = host with
  | some cr => some { s.goes t (.request cr.connection) with connections := s.connections.erase cr }
  | none =>
    if s.isOpen handle then none
    else if connects then
      some { (s.write s.next (some ⟨handle, false, false, false⟩)).goes t (.request s.next) with next := s.next + 1 }
    else some s

def addConnection (t : Fin threads) (c : Nat) (host : Str) (port : Nat) (keepalive : Bool) : Pool threads :=
  match s.memory c with
  | none => { s with undefined := true }
  | some con =>
    if keepalive = false ∨ s.maxKeepAliveConnections ≤ s.connections.length then
      (s.write c (some { con with toRemove := true })).goes t (.refused c)
    else (s.write c (some { con with schedulerHandler := true })).goes t (.admitted ⟨host, port, c⟩)

/-- The connection is in the table before the event can come. -/
def addNewWaitingConnection (t : Fin threads) (c : Nat) (place : Place) : Pool threads :=
  match s.memory c with
  | none => { s with undefined := true }
  | some con =>
    { (s.write c (some { con with scheduled := false })).goes t place with
      waiting := Function.update s.waiting con.handle (some c)
      events := con.handle :: s.events }

def delivered (handle : Nat) : Pool threads := { s with delivery := .idle, events := s.events.erase handle }

/-- Of `Server`. -/
def deleteConnection (c : Nat) (con : Connection) : Pool threads :=
  { s.write c none with waiting := Function.update s.waiting con.handle none }

def newData (handle c : Nat) (notice : Notice) : Pool threads :=
  match s.memory c with
  | none => { s with undefined := true }
  | some con =>
    if con.schedulerHandler then
      if con.toRemove then (s.write c none).delivered handle
      else { s with delivery := .removeConnection handle c }
    else
      match notice with
      | .read => { (s.write c (some { con with scheduled := true })).delivered handle with ready := c :: s.ready }
      | .timeout => if con.scheduled then s.delivered handle else (s.deleteConnection c con).delivered handle

def removeConnection (handle c : Nat) : Pool threads :=
  match s.connections.find? fun cr => cr.connection = c with
  | none => s.delivered handle
  | some cr =>
    match s.memory c with
    | none => { s with undefined := true }
    | some _ => { (s.write c none).delivered handle with connections := s.connections.erase cr }

end Pool

/-- `none` is a step that cannot be. Nothing is said of what comes after an undefined one. -/
def step {threads : Nat} (s : Pool threads) : Event threads → Option (Pool threads)
  | .getConnection t host port handle connects =>
    match s.undefined, s.place t with
    | false, .idle => s.getConnection t host port handle connects
    | _, _ => none
  | .addConnection t host port keepalive =>
    match s.undefined, s.place t with
    | false, .request c => some (s.addConnection t c host port keepalive)
    | _, _ => none
  | .proceed t =>
    match s.undefined, s.place t with
    | false, .admitted cr => some (s.addNewWaitingConnection t cr.connection (.waiting cr))
    | false, .waiting cr => some { s.goes t .idle with connections := s.connections ++ [cr] }
    | false, .refused c => some (s.addNewWaitingConnection t c .idle)
    | _, _ => none
  | .fire handle notice =>
    match s.undefined, s.delivery with
    | false, .idle =>
      if handle ∈ s.events then
        match s.waiting handle with
        | none => some (s.delivered handle)
        | some c => some { s with delivery := .newData handle c notice }
      else none
    | _, _ => none
  | .deliver =>
    match s.undefined, s.delivery with
    | false, .newData handle c notice => some (s.newData handle c notice)
    | false, .removeConnection handle c => some (s.removeConnection handle c)
    | _, _ => none
  | .deleteConnection c =>
    match s.undefined with
    | true => none
    | false =>
      if c ∈ s.ready then
        match s.memory c with
        | none => some { s with undefined := true }
        | some con => some { s.deleteConnection c con with ready := s.ready.erase c }
      else none

/-! ## What the three views are for -/

section

variable {threads : Nat}

/-- A connection is in the pool or in one request, the pool keeps to its bound, and nothing that is in it, in a
request or armed has been deleted. -/
structure Sound (s : Pool threads) : Prop where
  defined : s.undefined = false
  single : ∀ t t' c, (s.place t).connection = some c → (s.place t').connection = some c → t = t'
  apart : ∀ cr ∈ s.connections, ∀ t, (s.place t).connection ≠ some cr.connection
  pooled : (s.connections.map ConnectionRecord.connection).Nodup
  bounded : s.connections.length ≤ s.maxKeepAliveConnections
  poolAlive : ∀ cr ∈ s.connections, s.memory cr.connection ≠ none
  requestAlive : ∀ t c, (s.place t).connection = some c → s.memory c ≠ none
  eventAlive : ∀ h ∈ s.events, ∃ c, s.waiting h = some c ∧ s.memory c ≠ none

def Unarmed (s : Pool threads) (c : Nat) : Prop := ∀ con, s.memory c = some con → con.handle ∉ s.events

/-- Before `addConnection` marks or arms a connection its last event has been delivered, and the pool still has
the room that was found. -/
def Clean (s : Pool threads) : Event threads → Prop
  | .addConnection t _ _ keepalive =>
    ∀ c, s.place t = .request c → keepalive = false ∨ s.maxKeepAliveConnections ≤ s.connections.length → Unarmed s c
  | .proceed t =>
    (∀ cr, s.place t = .admitted cr → Unarmed s cr.connection) ∧
      ∀ cr, s.place t = .waiting cr → s.connections.length < s.maxKeepAliveConnections
  | _ => True

def SoundRun (events : List (Event threads)) (s : Pool threads) : Prop := Safety.Throughout step Sound events s

def CleanRun (events : List (Event threads)) (s : Pool threads) : Prop := Safety.Along step Clean events s

end

end MyServer.ProxyPool
