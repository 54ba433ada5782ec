import MyServer.Lib.Run

/-!
# The pool of worker threads (server.cpp, clients_thread.cpp)

`freeThreads` is raised when a worker starts and after each call of
`controlConnections` that returns; it is lowered inside that call and when the
worker leaves its loop. New workers are made when it falls to zero.
-/

namespace MyServer.Server

/-- Where a worker is in `clients_thread`: before its first `increaseFreeThread`, free, past the
`decreaseFreeThread` of `controlConnections`, in the last wait, or done. -/
inductive Phase where
  | starting
  | idle
  | serving
  | retiring
  | stopped
  deriving DecidableEq, Repr

structure Worker where
  isStatic : Bool
  toDestroy : Bool
  threadIsRunning : Bool
  inLoop : Bool
  timeout : BitVec 32
  phase : Phase

structure Config where
  nStaticThreads : BitVec 64
  nMaxThreads : BitVec 64

structure Pool where
  serverReady : Bool
  rebooting : Bool
  staticStarted : Nat
  threads : List Worker
  freeThreads : BitVec 64
  purgeThreadsThreshold : BitVec 64

def Pool.init : Pool := ⟨false, false, 0, [], 0, 1⟩

/-! ## The pool's own functions -/

/-- The thread that `addThread` marked for destruction and takes back. -/
def restore : List Worker → Option (List Worker)
  | [] => none
  | w :: ws =>
    if w.toDestroy then some ({ w with toDestroy := false } :: ws) else (restore ws).map (w :: ·)

/-- A new worker, if there is an address left for it and the system starts the thread. -/
def Pool.create (s : Pool) (isStatic created : Bool) (timeout : BitVec 32) : Pool :=
  if created ∧ s.threads.length + 1 < 2 ^ 64 then
    { s with threads := s.threads ++ [⟨isStatic, false, false, false, timeout, .starting⟩] }
  else s

/-- `timeout` is what the constructor left in the field of that name, which it does not set. -/
def Pool.addThread (s : Pool) (isStatic created : Bool) (timeout : BitVec 32) : Pool :=
  let s := { s with purgeThreadsThreshold := 1 }
  if s.rebooting then s
  else if isStatic then s.create true created timeout
  else
    match restore s.threads with
    | some ws => { s with threads := ws }
    | none => s.create false created timeout

def Pool.checkThreadsNumber (cfg : Config) (s : Pool) (created : Bool) (timeout : BitVec 32) : Pool :=
  if s.threads.length < cfg.nMaxThreads.toNat ∧ s.freeThreads < 1 then
    s.addThread false created timeout
  else s

def Worker.stop (w : Worker) : Worker := { w with threadIsRunning := false }

/-- `MYSERVER_SEC (20)`. -/
def purgeAfter : BitVec 64 := 20000000

def purgeFrom (threshold ticks : BitVec 64) : Nat → List Worker → List Worker
  | _, [] => []
  | destroyed, w :: ws =>
    if w.phase = .stopped then purgeFrom threshold ticks destroyed ws
    else if w.toDestroy then
      (if destroyed < threshold.toNat then w.stop else w)
        :: purgeFrom threshold ticks (destroyed + 1) ws
    else if ¬ w.isStatic ∧ purgeAfter < ticks - w.timeout.signExtend 64 then
      { w with toDestroy := true } :: purgeFrom threshold ticks (destroyed + 1) ws
    else w :: purgeFrom threshold ticks destroyed ws

def Pool.nextThreshold (cfg : Config) (s : Pool) : BitVec 64 :=
  let raised := s.purgeThreadsThreshold * 3 / 2
  if cfg.nMaxThreads < raised then cfg.nMaxThreads else raised

def Pool.purgeThreads (cfg : Config) (s : Pool) (ticks : BitVec 64) : Pool :=
  { s with
    purgeThreadsThreshold := s.nextThreshold cfg
    threads := purgeFrom (s.nextThreshold cfg) ticks 0 s.threads }

def Pool.increaseFreeThread (s : Pool) : Pool := { s with freeThreads := s.freeThreads + 1 }

def Pool.decreaseFreeThread (s : Pool) : Pool := { s with freeThreads := s.freeThreads - 1 }

/-! ## Steps -/

inductive Step where
  | addStatic (created : Bool) (timeout : BitVec 32)
  | checkThreadsNumber (created : Bool) (timeout : BitVec 32)
  | purgeThreads (ticks : BitVec 64)
  | setReady (ready : Bool)
  | setRebooting (rebooting : Bool)
  | stopAll
  | start (i : Nat)
  | enterLoop (i : Nat)
  | getConnectionThrows (i : Nat)
  | getConnection (i : Nat)
  | returns (i : Nat) (noConnection : Bool) (ticks : BitVec 32)
  | throws (i : Nat)
  | leave (i : Nat)
  | wake (i : Nat)

inductive Outcome where
  | silent
  | threw
  | retired
  deriving DecidableEq, Repr

def Pool.worker (s : Pool) (i : Nat) (p : Phase) : Option Worker :=
  s.threads[i]?.filter (·.phase = p)

def Pool.put (s : Pool) (i : Nat) (w : Worker) : Pool := { s with threads := s.threads.set i w }

/-- The end of an iteration that did not throw: the timeout is refreshed, and a worker that is to
go waits a minute before it leaves the loop. -/
def Worker.returned (w : Worker) (noConnection : Bool) (ticks : BitVec 32) : Worker :=
  { w with
    timeout := if noConnection then w.timeout else ticks
    phase := if ¬ w.isStatic ∧ w.toDestroy then .retiring else .idle }

def Worker.outcome (w : Worker) : Outcome := if ¬ w.isStatic ∧ w.toDestroy then .retired else .silent

def step (cfg : Config) (s : Pool) : Step → Option (Outcome × Pool)
  | .addStatic created timeout =>
    if s.staticStarted < cfg.nStaticThreads.toNat then
      some (.silent, { s.addThread true created timeout with staticStarted := s.staticStarted + 1 })
    else none
  | .checkThreadsNumber created timeout => some (.silent, s.checkThreadsNumber cfg created timeout)
  | .purgeThreads ticks => some (.silent, s.purgeThreads cfg ticks)
  | .setReady ready => some (.silent, { s with serverReady := ready })
  | .setRebooting rebooting => some (.silent, { s with rebooting := rebooting })
  | .stopAll => some (.silent, { s with threads := s.threads.map Worker.stop })
  | .start i => do
    let w ← s.worker i .starting
    some (.silent, (s.put i { w with threadIsRunning := true, phase := .idle }).increaseFreeThread)
  | .enterLoop i => do
    let w ← s.worker i .idle
    if s.serverReady ∨ ¬ w.threadIsRunning then some (.silent, s.put i { w with inLoop := true })
    else none
  | .getConnectionThrows i => do
    let w ← s.worker i .idle
    if w.inLoop ∧ w.threadIsRunning then some (.silent, s) else none
  | .getConnection i => do
    let w ← s.worker i .idle
    if w.inLoop ∧ w.threadIsRunning then
      some (.silent, (s.put i { w with phase := .serving }).decreaseFreeThread)
    else none
  | .returns i noConnection ticks => do
    let w ← s.worker i .serving
    some (w.outcome, (s.put i (w.returned noConnection ticks)).increaseFreeThread)
  -- both handlers go back to the top of the loop without `increaseFreeThread`
  | .throws i => do
    let w ← s.worker i .serving
    some (.threw, s.put i { w with phase := .idle })
  | .leave i => do
    let w ← s.worker i .idle
    if w.inLoop ∧ ¬ w.threadIsRunning then
      some (.silent, (s.put i { w with phase := .stopped }).decreaseFreeThread)
    else none
  | .wake i => do
    let w ← s.worker i .retiring
    some (.silent, (s.put i { w with phase := .stopped }).decreaseFreeThread)

end MyServer.Server
