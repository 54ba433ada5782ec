import Mathlib.Data.Finset.Basic
import MyServer.Bytes
import MyServer.Lib.OrdMap

/-!
# The log manager (log_manager.cpp)

Three tables: the stream of each location, the owners of each location, and
for each owner its categories, each with the streams of its locations. A stream
is named by a number, NULL by 0. The streams that have not been deleted are
`live`.
-/

open Std

namespace MyServer.Log

inductive LoggingLevel where
  | info
  | warning
  | error
  deriving DecidableEq, Repr

def LoggingLevel.rank : LoggingLevel → Nat
  | .info => 0
  | .warning => 1
  | .error => 2

inductive LogStreamEvent where
  | setCycle (cycle : BitVec 64)
  | log (message : Str) (level : LoggingLevel)
  | close
  | chown (uid gid : Str)
  deriving DecidableEq, Repr

/-- An address. NULL is 0. -/
abbrev Owner := Nat
abbrev StreamId := Nat
abbrev Category := OrdMap Str StreamId
abbrev Categories := OrdMap Str Category

structure LogManager where
  level : LoggingLevel
  logStreams : OrdMap Str StreamId
  logStreamOwners : OrdMap Str (List Owner)
  owners : OrdMap Owner Categories
  live : Finset StreamId
  next : StreamId

structure Triple where
  owner : Owner
  type : Str
  location : Str
  deriving DecidableEq, Repr

/-- What an operation is given. -/
inductive Target where
  | owner (owner : Owner)
  | type (owner : Owner) (type : Str)
  | location (tr : Triple)
  deriving DecidableEq, Repr

structure Delivery where
  triple : Triple
  stream : StreamId
  event : LogStreamEvent
  deriving DecidableEq, Repr

/-- What `LogStream::update` does. -/
inductive Answer where
  | returned (failure : Bool)
  | raised
  deriving DecidableEq, Repr

/-- What `add` finds outside the tables. -/
structure Surroundings where
  /-- Whether the creator of the location's protocol gives a stream. -/
  opened : Bool
  suppressWarnings : Bool
  /-- `Server::getInstance ()`. -/
  server : Option Owner
  answer : Triple → Answer
  stamp : Str
  /-- The translation of `"The %s log is shared among %i objects"`. -/
  warning : Str

/-- How a call ends. It is `undefined` when it uses a deleted stream. -/
inductive Ending where
  | returned (failure : Bool)
  | raised
  | undefined
  deriving DecidableEq, Repr

structure Result where
  ending : Ending
  delivered : List Delivery
  manager : LogManager

/-- `catch (...)`: the `failure` that was set before the call is returned. -/
def Result.caught (failure : Bool) (r : Result) : Result :=
  match r.ending with
  | .raised => { r with ending := .returned failure }
  | _ => r

namespace LogManager

def init (level : LoggingLevel) : LogManager := ⟨level, ∅, ∅, ∅, ∅, 1⟩

/-! ## What the tables hold -/

def find (m : LogManager) (tr : Triple) : Option StreamId :=
  ((m.owners.index tr.owner).index tr.type)[tr.location]?

def Registered (m : LogManager) (tr : Triple) : Prop := (m.find tr).isSome

instance (m : LogManager) (tr : Triple) : Decidable (m.Registered tr) :=
  inferInstanceAs (Decidable (_ = true))

theorem registered_of_find {m : LogManager} {tr : Triple} {ls : StreamId} (h : m.find tr = some ls) :
    m.Registered tr := by
  rw [Registered, h, Option.isSome_some]

def ownersOf (m : LogManager) (location : Str) : List Owner := m.logStreamOwners.index location

def HasOwner (m : LogManager) (owner : Owner) : Prop := owner ∈ m.owners

instance (m : LogManager) (owner : Owner) : Decidable (m.HasOwner owner) :=
  inferInstanceAs (Decidable (_ ∈ _))

def HasType (m : LogManager) (owner : Owner) (type : Str) : Prop := type ∈ m.owners.index owner

instance (m : LogManager) (owner : Owner) (type : Str) : Decidable (m.HasType owner type) :=
  inferInstanceAs (Decidable (_ ∈ _))

/-- The location has a stream and an owner. -/
def Shared (m : LogManager) (location : Str) : Prop :=
  location ∈ m.logStreams ∧ m.ownersOf location ≠ []

instance (m : LogManager) (location : Str) : Decidable (m.Shared location) :=
  inferInstanceAs (Decidable (_ ∧ _))

/-! ## Queries -/

/-- What `owners[owner]` leaves. -/
def touchOwner (m : LogManager) (owner : Owner) : LogManager :=
  { m with owners := m.owners.touch owner }

/-- What `owners[owner][type]` leaves. -/
def touchType (m : LogManager) (owner : Owner) (type : Str) : LogManager :=
  { m with owners := m.owners.assign owner (·.touch type) }

/-- What `logStreamOwners[location]` leaves. -/
def touchLocation (m : LogManager) (location : Str) : LogManager :=
  { m with logStreamOwners := m.logStreamOwners.touch location }

def empty (m : LogManager) : Bool :=
  m.logStreams.isEmpty && m.owners.isEmpty && m.logStreamOwners.isEmpty

def containsLocation (m : LogManager) (location : Str) : Bool × LogManager :=
  if location ∈ m.logStreams then (decide (m.ownersOf location ≠ []), m.touchLocation location)
  else (false, m)

def containsOwner (m : LogManager) (owner : Owner) : Bool := decide (m.HasOwner owner)

def containsType (m : LogManager) (owner : Owner) (type : Str) : Bool × LogManager :=
  (decide (m.HasType owner type), m.touchOwner owner)

def contains (m : LogManager) (tr : Triple) : Bool × LogManager :=
  let m := m.touchType tr.owner tr.type
  if m.Registered tr then (decide (tr.owner ∈ m.ownersOf tr.location), m.touchLocation tr.location)
  else (false, m)

def countOwner (m : LogManager) (owner : Owner) : Nat × LogManager :=
  (((m.owners.index owner).toList.map fun c => c.2.size).sum, m.touchOwner owner)

def countType (m : LogManager) (owner : Owner) (type : Str) : Nat × LogManager :=
  (((m.owners.index owner).index type).size, m.touchType owner type)

def count (m : LogManager) (tr : Triple) : Nat × LogManager :=
  ((m.find tr).toList.length, m.touchType tr.owner tr.type)

def getOwner (m : LogManager) (owner : Owner) : Option (List Str) × LogManager :=
  if m.containsOwner owner then
    (some ((m.owners.index owner).toList.flatMap fun c => c.2.keys), m)
  else (none, m)

def getType (m : LogManager) (owner : Owner) (type : Str) : Option (List Str) × LogManager :=
  let (found, m) := m.containsType owner type
  if found then (some ((m.owners.index owner).index type).keys, m.touchType owner type)
  else (none, m)

def get (m : LogManager) (tr : Triple) : Option StreamId × LogManager :=
  let (found, m) := m.contains tr
  (if found then m.find tr else none, m)

/-! ## Delivering -/

/-- Calls one after the other, with `failure |= …` around them. What a call throws ends the loop. -/
def each {κ : Type} (call : LogManager → κ → Result) : List κ → Bool → LogManager → Result
  | [], failure, m => ⟨.returned failure, [], m⟩
  | k :: ks, failure, m =>
    let r := call m k
    match r.ending with
    | .returned f =>
      let rest := each call ks (failure || f) r.manager
      { rest with delivered := r.delivered ++ rest.delivered }
    | _ => r

/-- `owners[owner][type][location]->update (evt, message, reply)`. -/
def update (m : LogManager) (evt : LogStreamEvent) (answer : Triple → Answer) (tr : Triple) : Result :=
  match m.find tr with
  | none => ⟨.undefined, [], m⟩
  | some ls =>
    if ls ∈ m.live then
      match answer tr with
      | .returned failure => ⟨.returned failure, [⟨tr, ls, evt⟩], m⟩
      | .raised => ⟨.raised, [⟨tr, ls, evt⟩], m⟩
    else ⟨.undefined, [⟨tr, ls, evt⟩], m⟩

def notifyLocation (evt : LogStreamEvent) (answer : Triple → Answer) (m : LogManager) (tr : Triple) :
    Result :=
  let (found, m) := m.contains tr
  if found then m.update evt answer tr else ⟨.returned true, [], m⟩

/-- Both loops run over a copy of the map. -/
def notifyType (owner : Owner) (evt : LogStreamEvent) (answer : Triple → Answer) (m : LogManager)
    (type : Str) : Result :=
  let (found, m) := m.containsType owner type
  if found then
    each (fun m location => m.notifyLocation evt answer ⟨owner, type, location⟩)
      ((m.owners.index owner).index type).keys false m
  else ⟨.returned true, [], m⟩

def notifyOwner (m : LogManager) (owner : Owner) (evt : LogStreamEvent) (answer : Triple → Answer) :
    Result :=
  if m.containsOwner owner then
    each (notifyType owner evt answer) (m.owners.index owner).keys false m
  else ⟨.returned true, [], m⟩

def notify (m : LogManager) (evt : LogStreamEvent) (answer : Triple → Answer) : Target → Result
  | .owner o => m.notifyOwner o evt answer
  | .type o t => notifyType o evt answer m t
  | .location tr => m.notifyLocation evt answer tr

def close (m : LogManager) (answer : Triple → Answer) (target : Target) : Result :=
  m.notify .close answer target

def setCycle (m : LogManager) (cycle : BitVec 64) (answer : Triple → Answer) (target : Target) : Result :=
  m.notify (.setCycle cycle) answer target

def chown (m : LogManager) (uid gid : Str) (answer : Triple → Answer) : Target → Result
  | .owner o => m.notifyOwner o (.chown uid gid) answer
  -- the type is not passed on
  | .type o _ => m.notifyOwner o (.chown uid gid) answer
  | .location tr => m.notifyLocation (.chown uid gid) answer tr

/-- `newline` is `"\n"` on the host. -/
def newline : Str := [ch '\n']

def log (m : LogManager) (message : Str) (appendNL : Bool) (level : LoggingLevel)
    (answer : Triple → Answer) (target : Target) : Result :=
  if level.rank < m.level.rank then ⟨.returned true, [], m⟩
  else
    (m.notify (.log (if appendNL then message ++ newline else message) level) answer target).caught
      false

/-- The arguments are given as the texts that `oss <<` writes for them. -/
def format : Str → List Str → Option Str
  | [], _ => some []
  | c :: fmt, args =>
    if c = ch '%' then
      match fmt with
      | [] => none
      | d :: fmt =>
        if d = ch 's' ∨ d = ch 'S' ∨ d = ch 'i' ∨ d = ch 'e' then
          (format fmt args.tail).map (args.headD [] ++ ·)
        else if d = ch '%' then (format fmt args).map (ch '%' :: ·)
        else none
    else (format fmt args).map (c :: ·)

/-- `stamp` is the time with its brackets, or empty without `ts`. -/
def logFormat (m : LogManager) (owner : Owner) (type : Str) (level : LoggingLevel) (stamp : Str)
    (appendNL : Bool) (fmt : Str) (args : List Str) (answer : Triple → Answer) : Result :=
  if level.rank < m.level.rank then ⟨.returned true, [], m⟩
  else
    match format fmt args with
    | none => ⟨.returned true, [], m⟩
    | some text =>
      let message := stamp ++ text
      (m.notify (.log (if appendNL then message ++ newline else message) level) answer
        (.type owner type)).caught false

/-! ## Adding -/

def addOwner (m : LogManager) (owner : Owner) : Bool × LogManager :=
  if owner = 0 then (true, m)
  else if m.containsOwner owner then (false, m)
  else (false, { m with owners := m.owners.insert owner ∅ })

def addType (m : LogManager) (owner : Owner) (type : Str) : Bool × LogManager :=
  if type = [] then (true, m)
  else
    let (found, m) := m.containsType owner type
    if found then (false, m)
    else (false, { m with owners := m.owners.assign owner (·.insert type ∅) })

def addStream (m : LogManager) (tr : Triple) (ls : StreamId) : Bool × LogManager :=
  let (found, m) := m.containsLocation tr.location
  let m := if found then m else { m with logStreams := m.logStreams.insert tr.location ls }
  let (found, m) := m.contains tr
  let m :=
    if found then m
    else
      { m with
        owners := m.owners.assign tr.owner (·.assign tr.type (·.insert tr.location ls)) }
  let m :=
    { m with
      logStreamOwners := m.logStreamOwners.assign tr.location
        fun l => if tr.owner ∈ l then l else l ++ [tr.owner] }
  let (found, m) := m.containsLocation tr.location
  if found then
    let (found, m) := m.contains tr
    (!found, m)
  else (true, m)

/-- `add (owner) || add (owner, type) || add (owner, type, location, ls)`. -/
def addAll (m : LogManager) (tr : Triple) (ls : StreamId) : Bool × LogManager :=
  let (failure, m) := m.addOwner tr.owner
  if failure then (true, m)
  else
    let (failure, m) := m.addType tr.owner tr.type
    if failure then (true, m) else m.addStream tr ls

/-- The text up to `"://"` and it. -/
def getProtocol : Str → Str
  | [] => []
  | c :: location =>
    if ascii "://" <+: c :: location then ascii "://"
    else
      match getProtocol location with
      | [] => []
      | protocol => c :: protocol

def protocolCheck (protocol : Str) : Bool :=
  protocol = ascii "file://" ∨ protocol = ascii "console://" ∨ protocol = ascii "socket://"

/-- Whether `LogStreamFactory::create` gives a stream. -/
def creates (location : Str) (opened : Bool) : Bool := protocolCheck (getProtocol location) && opened

def newStream (m : LogManager) : LogManager :=
  { m with live := insert m.next m.live, next := m.next + 1 }

def mainLog : Str := ascii "MAINLOG"

/-- `Server::log (MYSERVER_LOG_MSG_WARNING, …)`, which logs through the same manager. -/
def serverLog (m : LogManager) (server : Owner) (env : Surroundings) (location : Str) (size : Nat) :
    Result :=
  m.logFormat server mainLog .warning env.stamp true env.warning
    [cstr location, ascii (toString size)] env.answer

def addShared (m : LogManager) (tr : Triple) (ls : StreamId) : Bool × LogManager :=
  if ¬ m.containsOwner tr.owner then m.addAll tr ls
  else
    let (found, m) := m.containsType tr.owner tr.type
    if found then (true, m)
    else
      let (failure, m) := m.addType tr.owner tr.type
      if failure then (true, m) else m.addStream tr ls

def add (m : LogManager) (tr : Triple) (env : Surroundings) : Result :=
  let (found, m) := m.containsLocation tr.location
  if ¬ found then
    if creates tr.location env.opened then
      let (failure, m') := m.newStream.addAll tr m.next
      ⟨.returned failure, [], m'⟩
    else ⟨.returned true, [], m⟩
  else
    let oldSize := (m.ownersOf tr.location).length
    let (failure, m') := m.addShared tr (m.logStreams.index tr.location)
    let newSize := (m'.ownersOf tr.location).length
    match env.server with
    | some server =>
      if ¬ failure ∧ oldSize < newSize ∧ ¬ env.suppressWarnings then
        m'.serverLog server env tr.location newSize
      else ⟨.returned failure, [], m'⟩
    | none => ⟨.returned failure, [], m'⟩

/-! ## Removing -/

/-- The `set` of the locations in the owner's categories. -/
def locationsOf (m : LogManager) (owner : Owner) : List Str :=
  (ExtTreeSet.ofList ((m.owners.index owner).toList.flatMap fun c => c.2.keys)).toList

/-- How a `delete` ends. It ends the stream's life also when the destructor throws. -/
inductive Deleted where
  | done (m : LogManager)
  | raised (m : LogManager)
  | undefined

/-- `raises` says whether the stream's destructor throws: it closes the stream and does not catch
what that throws. -/
def deleteStream (m : LogManager) (ls : StreamId) (raises : Bool) : Deleted :=
  if ls = 0 then .done m
  else if ls ∈ m.live then
    if raises then .raised { m with live := m.live.erase ls }
    else .done { m with live := m.live.erase ls }
  else .undefined

/-- `logStreamOwners[location].remove (owner)`. -/
def unlist (m : LogManager) (owner : Owner) (location : Str) : LogManager :=
  { m with logStreamOwners := m.logStreamOwners.assign location (·.filter (· ≠ owner)) }

/-- `logStreams.erase (location)` and `logStreamOwners.erase (location)`. -/
def forget (m : LogManager) (location : Str) : LogManager :=
  { m with
    logStreams := m.logStreams.erase location
    logStreamOwners := m.logStreamOwners.erase location }

def removeLocations (owner : Owner) (raises : Str → Bool) : List Str → LogManager → Result
  | [], m => ⟨.returned false, [], m⟩
  | location :: rest, m =>
    let m := m.unlist owner location
    if m.ownersOf location = [] then
      match m.deleteStream (m.logStreams.index location) (raises location) with
      | .done m => removeLocations owner raises rest (m.forget location)
      | .raised m => ⟨.returned true, [], m⟩
      | .undefined => ⟨.undefined, [], m⟩
    else removeLocations owner raises rest m

/-- The owner's categories are erased before the streams are deleted. -/
def remove (m : LogManager) (owner : Owner) (raises : Str → Bool) : Result :=
  if m.containsOwner owner then
    removeLocations owner raises (m.locationsOf owner) { m with owners := m.owners.erase owner }
  else ⟨.returned true, [], m⟩

def deleteAll (raises : Str → Bool) : List (Str × StreamId) → LogManager → Deleted
  | [], m => .done m
  | (location, ls) :: rest, m =>
    match m.deleteStream ls (raises location) with
    | .done m => deleteAll raises rest m
    | d => d

def clear (m : LogManager) (raises : Str → Bool) : Result :=
  match deleteAll raises m.logStreams.toList m with
  | .done m =>
    let m := { m with logStreams := ∅, owners := ∅, logStreamOwners := ∅ }
    ⟨.returned (!m.empty), [], m⟩
  | .raised m => ⟨.returned (!m.empty), [], m⟩
  | .undefined => ⟨.undefined, [], m⟩

end LogManager

/-! ## Runs -/

inductive Query where
  | empty
  | containsLocation (location : Str)
  | containsOwner (owner : Owner)
  | containsType (owner : Owner) (type : Str)
  | contains (tr : Triple)
  | countOwner (owner : Owner)
  | countType (owner : Owner) (type : Str)
  | count (tr : Triple)
  | getOwner (owner : Owner)
  | getType (owner : Owner) (type : Str)
  | get (tr : Triple)

/-- The manager that a query leaves. -/
def LogManager.ask (m : LogManager) : Query → LogManager
  | .empty => m
  | .containsLocation l => (m.containsLocation l).2
  | .containsOwner _ => m
  | .containsType o t => (m.containsType o t).2
  | .contains tr => (m.contains tr).2
  | .countOwner o => (m.countOwner o).2
  | .countType o t => (m.countType o t).2
  | .count tr => (m.count tr).2
  | .getOwner o => (m.getOwner o).2
  | .getType o t => (m.getType o t).2
  | .get tr => (m.get tr).2

/-- What delivers an event. -/
inductive Message where
  | log (message : Str) (appendNL : Bool) (level : LoggingLevel) (target : Target)
  | logFormat (owner : Owner) (type : Str) (level : LoggingLevel) (stamp : Str) (appendNL : Bool)
      (fmt : Str) (args : List Str)
  | close (target : Target)
  | setCycle (cycle : BitVec 64) (target : Target)
  | chown (uid gid : Str) (target : Target)

def LogManager.send (m : LogManager) (answer : Triple → Answer) : Message → Result
  | .log message appendNL level target => m.log message appendNL level answer target
  | .logFormat o t level stamp appendNL fmt args => m.logFormat o t level stamp appendNL fmt args answer
  | .close target => m.close answer target
  | .setCycle cycle target => m.setCycle cycle answer target
  | .chown uid gid target => m.chown uid gid answer target

inductive Op where
  | add (tr : Triple) (env : Surroundings)
  | remove (owner : Owner) (raises : Str → Bool)
  | clear (raises : Str → Bool)
  | setLevel (level : LoggingLevel)
  | ask (q : Query)
  | send (answer : Triple → Answer) (msg : Message)

/-- Whether the destructor of the location's stream throws. -/
def Op.raises : Op → Str → Bool
  | .remove _ raises => raises
  | .clear raises => raises
  | _ => fun _ => false

def perform (m : LogManager) : Op → Result
  | .add tr env => m.add tr env
  | .remove o raises => m.remove o raises
  | .clear raises => m.clear raises
  | .setLevel level => ⟨.returned false, [], { m with level := level }⟩
  | .ask q => ⟨.returned false, [], m.ask q⟩
  | .send answer msg => m.send answer msg

/-- A run does not go on after a use of a deleted stream. -/
def step (m : LogManager) (op : Op) : Option (Ending × LogManager) :=
  let r := perform m op
  if r.ending = .undefined then none else some (r.ending, r.manager)

end MyServer.Log
