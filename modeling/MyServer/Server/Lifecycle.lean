import MyServer.Server.ReturnCodes
import MyServer.Scheduler.Ready

/-!
# The life of a connection (server.cpp, clients_thread.cpp, connections_scheduler.cpp)

A connection waits for the event loop, is queued as ready, or is with a worker.
The listener, the event loop and the workers take their steps in any order.
-/

namespace MyServer.Lifecycle

open Server Server.ClientsThread
open Scheduler (ReadyQueues)

abbrev ConnectionPtr := Nat
abbrev Handle := Nat

structure Connection where
  handle : Handle
  scheduled : Bool
  forceControl : Bool
  schedulerHandler : Bool
  deriving DecidableEq

/-- The `c` messages that are on their way to the event loop, the handles that it watches, and the
connections that the workers have taken. `connections` is the scheduler's map. -/
structure State where
  live : List ConnectionPtr
  info : ConnectionPtr → Connection
  connections : Handle → Option ConnectionPtr
  messages : List (Handle × ConnectionPtr)
  events : List Handle
  queues : ReadyQueues
  owned : List (Nat × ConnectionPtr)

def noneReady : ReadyQueues := ⟨fun _ => [], 0, 0, by decide⟩

def State.init : State := ⟨[], fun _ => ⟨0, false, false, false⟩, fun _ => none, [], [],
  noneReady, []⟩

/-- How giving a connection away goes. It may throw, or fail, before the connection is where it
should be, which for one that is to wait can be after it was `listed` in the map. What throws later
than that changes nothing here. -/
inductive Handover where
  | done
  | threw (listed : Bool)
  deriving DecidableEq

/-- The priorities that the scheduler finds. -/
structure Priorities where
  priority : Int
  hostPriority : Option Int

namespace State

variable (s : State) (c : ConnectionPtr)

def modify (f : Connection → Connection) : State :=
  { s with info := Function.update s.info c (f (s.info c)) }

def addReadyConnection (p : Priorities) (handover : Handover) : State :=
  let s := s.modify c fun k => { k with scheduled := true }
  if handover = .done then { s with queues := s.queues.push ⟨c, p.priority, p.hostPriority⟩ }
  else s

def list : State :=
  { s with connections := Function.update s.connections (s.info c).handle (some c) }

/-- With `lock` the event loop is asked to watch the handle, without it `event_once` does. -/
def addWaitingConnection (lock : Bool) (handover : Handover) : State :=
  let s := s.modify c fun k => { k with scheduled := false }
  match handover with
  | .threw false => s
  | .threw true => s.list c
  | .done =>
    if lock then { s.list c with messages := s.messages ++ [((s.info c).handle, c)] }
    else { s.list c with events := (s.info c).handle :: s.events }

def deleteConnection (handover : Handover) : State :=
  if handover = .done then
    { s with
      connections := Function.update s.connections (s.info c).handle none
      live := s.live.erase c }
  else s

def allowDelete : Bool := !(s.info c).scheduled

end State

/-! ## The listener -/

structure Arrival where
  handle : Handle
  refused : Bool
  fastCheck : Bool
  priorities : Priorities
  handover : Handover

def State.addConnectionToList (s : State) (c : ConnectionPtr) (a : Arrival) : State :=
  if a.refused then s
  else
    let s := { s with
      live := c :: s.live
      info := Function.update s.info c ⟨a.handle, false, a.fastCheck, false⟩ }
    if a.fastCheck then s.addReadyConnection c a.priorities a.handover
    else s.addWaitingConnection c false a.handover

/-! ## The event loop -/

inductive Event where
  | read
  | timeout
  deriving DecidableEq

def State.newData (s : State) (h : Handle) (event : Event) (p : Priorities)
    (handover : Handover) : State :=
  match s.connections h with
  | none => s
  | some c =>
    if (s.info c).schedulerHandler then s
    else if event = .read then s.addReadyConnection c p handover
    else if ¬ s.allowDelete c then s
    else s.deleteConnection c handover

/-! ## A worker -/

inductive Received where
  | threw
  | bytes (err : Int)

/-- What one iteration meets: the data that was kept, the answer of the socket, and the protocol of
the host, if there is a host and it has one, or the continuation. -/
structure Visit where
  dataRead : Nat
  recv : Received
  continuation : Option Called
  protocol : Option Request

namespace Visit

variable (v : Visit)

def received (forceControl : Bool) : Received := if forceControl then .bytes 0 else v.recv

/-- The handler of the `try` makes `DELETE_CONNECTION` of any exception. -/
def retcode : Int :=
  match v.continuation with
  | some r => r.retcode
  | none =>
    match v.protocol with
    | none => DELETE_CONNECTION
    | some r => r.controlConnection.retcode

end Visit

/-- What `controlConnections` does with its connection in the end. -/
inductive Ending where
  | threw
  | delete
  | wait
  | ready
  | nothing
  deriving DecidableEq

def Ending.ofRetcode (retcode : Int) : Ending :=
  if retcode = DELETE_CONNECTION then .delete
  else if retcode = KEEP_CONNECTION then .wait
  else if retcode = INCOMPLETE_REQUEST then .wait
  else if retcode = INCOMPLETE_REQUEST_NO_WAIT then .ready
  else .nothing

/-- The buffer takes `MYSERVER_KB (8)` less the closing zero. -/
def Visit.ending (v : Visit) (forceControl : Bool) : Ending :=
  match v.received forceControl with
  | .threw => .threw
  | .bytes err =>
    if ¬ forceControl ∧ err ≤ 0 then .delete
    else if v.dataRead + err < 8192 then Ending.ofRetcode v.retcode
    else .delete

/-- What was done with a connection that a worker had. -/
inductive Move where
  | putBack
  | deleted

inductive Outcome where
  | silent
  | controlled (moves : List Move)

def State.control (s : State) (c : ConnectionPtr) (p : Priorities) (handover : Handover) :
    Ending → List Move × State
  | .threw => ([], s)
  | .nothing => ([], s)
  | .delete => (if handover = .done then [.deleted] else [], s.deleteConnection c handover)
  | .wait => (if handover = .done then [.putBack] else [], s.addWaitingConnection c true handover)
  | .ready => (if handover = .done then [.putBack] else [], s.addReadyConnection c p handover)

/-- The worker has let go of its connection, whatever became of it. -/
def State.release (s : State) (w : Nat) : State :=
  { s with owned := s.owned.filter (·.1 ≠ w) }

/-- `forceControl` is cleared once the socket was read, and set for a request that was not waited
for. -/
def Ending.forceControl (e : Ending) (k : Connection) : Connection :=
  match e with
  | .threw => k
  | .ready => { k with forceControl := true }
  | _ => { k with forceControl := false }

/-! ## Steps -/

inductive Step where
  | accept (c : ConnectionPtr) (a : Arrival)
  | register (registered : Bool)
  | fire (h : Handle) (event : Event) (p : Priorities) (handover : Handover)
  | getConnection (w : Nat)
  | control (w : Nat) (v : Visit) (p : Priorities) (handover : Handover)

def step (s : State) : Step → Option (Outcome × State)
  -- the system gives out handles that are not open
  | .accept c a =>
    if c ∉ s.live ∧ ∀ c' ∈ s.live, (s.info c').handle ≠ a.handle then
      some (.silent, s.addConnectionToList c a)
    else none
  | .register registered =>
    match s.messages with
    | [] => none
    | (h, _) :: messages =>
      some (.silent, { s with
        messages := messages, events := if registered then h :: s.events else s.events })
  | .fire h event p handover =>
    if h ∈ s.events then
      some (.silent, { s with events := s.events.erase h }.newData h event p handover)
    else none
  | .getConnection w =>
    if w ∈ s.owned.map (·.1) then none
    else
      match s.queues.getConnection with
      | (none, queues) => some (.silent, { s with queues := queues })
      | (some (_, k), queues) =>
        some (.silent, { { s with queues := queues }.modify k.id fun k => { k with scheduled := false }
          with owned := (w, k.id) :: s.owned })
  | .control w v p handover => do
    let (_, c) ← s.owned.find? (·.1 = w)
    let ending := v.ending (s.info c).forceControl
    let r := ((s.release w).modify c ending.forceControl).control c p handover ending
    some (.controlled r.1, r.2)

end MyServer.Lifecycle
