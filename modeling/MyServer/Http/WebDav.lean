import MyServer.Http.FilePermissions

/-!
# The WebDAV commands that change files

Each command answers with a status and with the paths that it has created,
overwritten or removed on its way there.
-/

open MyServer.Files MyServer.Security

namespace MyServer.Http

/-! ## Trees -/

/-- The name of a directory entry. -/
structure EntryName where
  name : Str
  proper : toMove name = .down name
  no_slash : ∀ c ∈ name, isSlash c = false

/-- What `fts_read` returns: `fts_info` and the names from the root of the tree on. -/
structure Member where
  info : Nat
  names : List EntryName

/-- A slash that ends the root is not doubled. -/
def stripSlash (path : Str) : Str := if path.getLast? = some slash then path.dropLast else path

/-- `fts_path`. -/
def Member.path (root : Str) (m : Member) : Str :=
  if m.names = [] then root else stripSlash root ++ m.names.flatMap fun n => slash :: n.name

/-- What comes after the last slash. -/
def lastName (path : Str) : Str := (path.reverse.takeWhile fun c => !isSlash c).reverse

/-- `path.substr (0, path.rfind ("/"))` -/
def ancestor (path : Str) : Str :=
  if slash ∈ path then path.take (path.length - (lastName path).length - 1) else path

/-! ## The requests -/

/-- What the operating system answers besides `stat`. A call that fails throws. -/
structure DavSystem where
  fs : FileSystem
  sha1 : Str → Str
  opens : Str → Bool
  creates : Str → Bool
  removes : Str → Bool
  renames : Str → Str → Bool
  tree : Str → List Member

structure DavRequest where
  connection : HttpConnection
  uri : Str
  token : SecurityToken
  /-- The `int permissions` of the command before it is set. -/
  permissions : Mask
  /-- The `int overwrite` that `move` does not set. -/
  moveOverwrite : Bool

structure DavAnswer where
  /-- `none` for an exception, and for a pointer that is NULL. -/
  status : Option Nat
  touched : List Str

def DavAnswer.refused (status : Nat) : DavAnswer := ⟨some status, []⟩

def DavAnswer.thrown : DavAnswer := ⟨none, []⟩

namespace DavRequest

variable (r : DavRequest)

def root : Str := getVhostDir r.connection.td

def source : Str := r.root ++ r.uri

def header (name : String) : Option Str := r.connection.requestValue (ascii name)

/-- `"http://" + Host + "/"` is not compared with the Destination, only as many characters are
dropped. -/
def part : Option Str :=
  match r.header "Destination", r.header "Host" with
  | some destination, some host =>
    let endPos := (ascii "http://" ++ host ++ [slash]).length
    if endPos ≤ destination.length then some (destination.drop endPos) else none
  | _, _ => none

def target (part : Str) : Str := r.root ++ slash :: part

def enabled : Bool :=
  ((r.connection.vhostData (ascii "http.webdav.enable")).or
    (r.connection.serverData (ascii "http.webdav.enable"))).any fun enabled =>
      caseEq enabled (ascii "YES")

/-- Overwriting is not forbidden by the header. -/
def overwrite : Bool := r.header "Overwrite" ≠ some (ascii "F")

end DavRequest

section Commands

variable (env : SecurityEnv) (sys : DavSystem) (r : DavRequest)

def isLocked (path : Str) : Bool :=
  nodeExists sys.fs (getVhostSys r.connection.td ++ ascii "/webdav/locks/" ++ sys.sha1 path)

/-- `getFilePermissions` and the test of the write permission: `none` when it is there. -/
def writeRefused (path : Str) : Option Nat :=
  match getFilePermissions env sys.fs r.connection path false r.permissions r.token with
  | .error status => some status
  | .ok p => if p.permissions.has permissionWrite then none else some 401

/-- The loop of `FilesUtility::copyDir`. Directories are met with the value 1 before and 6 after
what is in them, files with 8. -/
def copyDir (src dest : Str) : List Member → DavAnswer
  | [] => ⟨some 201, []⟩
  | m :: members =>
    if m.info = 6 then copyDir src dest members
    else
      let srcpath := m.path src
      let finaldest := dest ++ slash :: srcpath.drop (src.length - (lastName src).length)
      if nodeExists sys.fs finaldest then .refused 412
      else if m.info = 8 ∨ m.info = 1 then
        if (m.info = 8 ∧ !sys.opens srcpath) ∨ !sys.creates finaldest then .thrown
        else
          let rest := copyDir src dest members
          ⟨rest.status, finaldest :: rest.touched⟩
      else copyDir src dest members

/-- The loop of `FilesUtility::deleteDir`. -/
def deleteDir (src : Str) : List Member → DavAnswer
  | [] => ⟨some 202, []⟩
  | m :: members =>
    if m.info = 1 then deleteDir src members
    else if !sys.removes (m.path src) then .thrown
    else
      let rest := deleteDir src members
      ⟨rest.status, m.path src :: rest.touched⟩

def copyTo (target : Str) : DavAnswer :=
  match isDirectory sys.fs r.source with
  | .error _ => .thrown
  | .ok false =>
    if !nodeExists sys.fs (ancestor target) then .refused 409
    else if !r.overwrite ∧ nodeExists sys.fs target then .refused 412
    else if !sys.opens r.source ∨ !sys.creates target then .thrown
    else ⟨some 201, [target]⟩
  | .ok true =>
    if !nodeExists sys.fs (stripSlash target) then .refused 409
    else copyDir sys r.source (stripSlash target) (sys.tree r.source)

def copy : DavAnswer :=
  if !r.enabled then .refused 503
  else
    match r.part with
    | none => .thrown
    | some part =>
      if isLocked sys r (r.target part) then .refused 423
      else
        match writeRefused env sys r (r.target part) with
        | some status => .refused status
        | none => copyTo sys r (r.target part)

def davdelete : DavAnswer :=
  if !r.enabled then .refused 503
  else if getPathRecursionLevel r.uri ≤ 0 then .refused 403
  else if isLocked sys r r.source then .refused 423
  else
    match writeRefused env sys r r.source with
    | some status => .refused status
    | none =>
      match isDirectory sys.fs r.source with
      | .error _ => .thrown
      | .ok false => if sys.removes r.source then ⟨some 202, [r.source]⟩ else .thrown
      | .ok true => deleteDir sys r.source (sys.tree r.source)

def moveTo (target : Str) : DavAnswer :=
  if !nodeExists sys.fs (ancestor target) then .refused 409
  else if !(r.moveOverwrite && r.overwrite) ∧ nodeExists sys.fs target then .refused 412
  else if sys.renames r.source target then ⟨some 201, [r.source, target]⟩
  else .thrown

def move : DavAnswer :=
  if !r.enabled then .refused 503
  else
    match r.part with
    | none => .thrown
    | some part =>
      if isLocked sys r (ancestor (r.target part)) ∨ isLocked sys r r.source then .refused 423
      else
        match writeRefused env sys r (r.target part) with
        | some status => .refused status
        | none => moveTo sys r (r.target part)

/-- The permissions are not asked for. -/
def mkcol : DavAnswer :=
  if !r.enabled then .refused 503
  else if getPathRecursionLevel r.uri ≤ 0 then .refused 403
  else if isLocked sys r (r.target r.uri) then .refused 423
  else if !nodeExists sys.fs (ancestor (r.target r.uri)) then .refused 409
  else if nodeExists sys.fs (r.target r.uri) then .refused 409
  else if sys.creates (r.target r.uri) then ⟨some 201, [r.target r.uri]⟩
  else ⟨some 500, []⟩

end Commands

inductive DavCommand
  | copy
  | davdelete
  | move
  | mkcol

def DavCommand.run (env : SecurityEnv) (sys : DavSystem) (r : DavRequest) : DavCommand → DavAnswer
  | .copy => Http.copy env sys r
  | .davdelete => Http.davdelete env sys r
  | .move => Http.move env sys r
  | .mkcol => Http.mkcol sys r

end MyServer.Http
