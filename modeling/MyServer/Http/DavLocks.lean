import MyServer.Http.WebDav

/-!
# WebDAV locks

The lock table is a directory below the system root, with one file for each lock.
The file is named by a digest of the path that the method asks about, and each
method spells that path in its own way.
-/

open MyServer.Files MyServer.Security

namespace MyServer.Http

/-- What LOCK needs besides: whether its payload can be opened, and whether the header is sent. -/
structure LockSystem where
  dav : DavSystem
  parses : Bool
  sends : Bool

def lockLoc (sys : DavSystem) (r : DavRequest) (path : Str) : Str :=
  getVhostSys r.connection.td ++ ascii "/webdav/locks/" ++ sys.sha1 path

theorem isLocked_eq (sys : DavSystem) (r : DavRequest) (path : Str) :
    isLocked sys r path = nodeExists sys.fs (lockLoc sys r path) := rfl

/-- What LOCK makes before the first lock of a system root. -/
def lockDirs (r : DavRequest) : List Str :=
  [getVhostSys r.connection.td ++ ascii "/webdav",
    getVhostSys r.connection.td ++ ascii "/webdav" ++ ascii "/locks"]

/-- The header with the status 201 carries the digest as the lock token. -/
def lock (sys : LockSystem) (r : DavRequest) : DavAnswer :=
  if !r.enabled then .refused 503
  else if !nodeExists sys.dav.fs r.source then .refused 409
  else if !sys.parses then .refused 500
  else
    let lockLoc := lockLoc sys.dav r r.source
    let made := if nodeExists sys.dav.fs (ancestor lockLoc) then [] else lockDirs r
    if made.all sys.dav.creates then
      if sys.dav.creates lockLoc then ⟨some (if sys.sends then 201 else 500), made ++ [lockLoc]⟩
      else ⟨some 500, made⟩
    else ⟨some 500, made.takeWhile sys.dav.creates⟩

/-- The lock token of the request is not looked at. -/
def unlock (sys : DavSystem) (r : DavRequest) : DavAnswer :=
  if !r.enabled then .refused 503
  else if sys.removes (lockLoc sys r r.source) then ⟨some 204, [lockLoc sys r r.source]⟩
  else .thrown

def DavAnswer.Successful (answer : DavAnswer) : Prop := ∃ status ∈ answer.status, status / 100 = 2

/-! ## Runs of requests -/

inductive LockMethod
  | lock
  | unlock
  | command (cmd : DavCommand)

/-- One request, the answers it gets, and the file system that it leaves. -/
structure DavEvent where
  env : SecurityEnv
  sys : LockSystem
  method : LockMethod
  r : DavRequest
  after : FileSystem

namespace DavEvent

variable (e : DavEvent)

def answer : DavAnswer :=
  match e.method with
  | .lock => lock e.sys e.r
  | .unlock => unlock e.sys.dav e.r
  | .command cmd => cmd.run e.env e.sys.dav e.r

def created : List Str :=
  match e.method with
  | .lock | .command .copy | .command .mkcol => e.answer.touched
  | .command .move => e.answer.touched.drop 1
  | .unlock | .command .davdelete => []

def removed : List Str :=
  match e.method with
  | .unlock | .command .davdelete => e.answer.touched
  | .command .move => e.answer.touched.take 1
  | .lock | .command .copy | .command .mkcol => []

/-- The request comes to the file system `fs`. After it, there is what was there before and is not
removed, and what has been created. The last two of the 22 bytes that `Sha1::end` writes in
hexadecimal are none of the digest, and may differ from request to request. The texts of a request
have no NUL. -/
structure Possible (hash : Str → Str) (fs : FileSystem) : Prop where
  before : e.sys.dav.fs = fs
  digest : ∃ tail : Str, tail.length = 4 ∧ ∀ path, e.sys.dav.sha1 path = hash path ++ tail
  kept : ∀ path, nodeExists fs path → (∀ p ∈ e.removed, ¬ LeadsThrough (cstr path) p) →
    nodeExists e.after path
  fresh : ∀ path, nodeExists e.after path → (∀ p ∈ e.created, ¬ LeadsThrough (cstr path) p) →
    nodeExists fs path
  there : ∀ p ∈ e.created, nodeExists e.after p
  gone : ∀ p ∈ e.removed, (∀ q ∈ e.created, ¬ LeadsThrough q p) → ¬ nodeExists e.after p

end DavEvent

def Happens (hash : Str → Str) : FileSystem → List DavEvent → Prop
  | _, [] => True
  | fs, e :: events => e.Possible hash fs ∧ Happens hash e.after events

/-! ## Locks that are held -/

/-- What a client has been told, and the file that stands for it. -/
structure HeldLock where
  path : Str
  token : Str
  lockLoc : Str

/-- The token stands in the header that a client submits it with. -/
def DavRequest.Submits (r : DavRequest) (token : Str) : Prop :=
  ∃ value, (value ∈ r.header "If" ∨ value ∈ r.header "Lock-Token") ∧ token <:+: value

instance (r : DavRequest) (token : Str) : Decidable (r.Submits token) :=
  decidable_of_iff
    ((∃ value ∈ (r.header "If").toList, token <:+: value) ∨
      ∃ value ∈ (r.header "Lock-Token").toList, token <:+: value)
    (by simp [DavRequest.Submits, or_and_right, exists_or])

/-- The UNLOCK of the same resource with the token. -/
def Unlocks (r : DavRequest) (l : HeldLock) : Prop :=
  place r.source = place l.path ∧ r.Submits l.token

instance (r : DavRequest) (l : HeldLock) : Decidable (Unlocks r l) :=
  inferInstanceAs (Decidable (_ ∧ _))

/-- The locks held after the request. -/
def nextHeld (held : List HeldLock) (e : DavEvent) : List HeldLock :=
  match e.method with
  | .lock =>
    if e.answer.status = some 201 then
      ⟨e.r.source, e.sys.dav.sha1 e.r.source, lockLoc e.sys.dav e.r e.r.source⟩ :: held
    else held
  | .unlock => held.filter fun l => ¬ Unlocks e.r l
  | .command _ => held

/-- What holds of each request of the run and of the locks held before it. -/
def Always (P : List HeldLock → DavEvent → Prop) : List HeldLock → List DavEvent → Prop
  | _, [] => True
  | held, e :: events => P held e ∧ Always P (nextHeld held e) events

namespace DavCommand

/-- The resources that a command is about to change. -/
def targets (r : DavRequest) : DavCommand → List Str
  | .copy => (r.part.map r.target).toList
  | .davdelete => [r.source]
  | .move => r.source :: (r.part.map r.target).toList
  | .mkcol => [r.target r.uri]

/-- The paths whose locks a command asks for. -/
def asked (r : DavRequest) : DavCommand → List Str
  | .copy => (r.part.map r.target).toList
  | .davdelete => [r.source]
  | .move => (r.part.map fun part => ancestor (r.target part)).toList ++ [r.source]
  | .mkcol => [r.target r.uri]

/-- What a command takes away from where it is. -/
def takes (r : DavRequest) : DavCommand → List Str
  | .davdelete | .move => [r.source]
  | .copy | .mkcol => []

end DavCommand

/-- A held lock keeps everybody without its token from changing its resource. -/
def Respects (held : List HeldLock) (e : DavEvent) : Prop :=
  ∀ cmd, e.method = .command cmd → ∀ l ∈ held, (∃ path ∈ cmd.targets e.r, place path = place l.path) →
    ¬ e.r.Submits l.token → ¬ e.answer.Successful

end MyServer.Http
