import MyServer.Http.RequestPath
import MyServer.Files.FileSystem
import MyServer.Security.Validator

/-!
# The permissions of an HTTP request

`Http::getFilePermissions` from the mapping on: the token it fills, the
evaluation, and the mask that it reads back.
-/

open MyServer.Files MyServer.Security

namespace MyServer.Http

inductive AuthScheme where
  | basic
  | digest
  deriving DecidableEq, Repr

/-- What `getFilePermissions` finds in the connection and in the request. -/
structure HttpConnection where
  td : HttpThreadContext
  /-- `td->request.auth`. -/
  auth : Str
  login : Str
  password : Str
  requestValue : Str → Option Str
  vhostData : Str → Option Str
  serverData : Str → Option Str
  /-- `hud->digest` where `hud->digestChecked` is set. -/
  digest : Option Bool
  /-- The result of `checkDigest`, `none` where it throws. -/
  checkDigest : Option Bool

structure FilePermissions where
  permissions : Mask
  st : SecurityToken
  authScheme : AuthScheme

/-- A resource that is mapped already is the file name itself. -/
def mapResource (c : HttpConnection) (resource : Str) (yetmapped : Bool) : Except Nat Str :=
  if yetmapped then .ok resource else requestPath c.td resource

def requestDirectory (fs : FileSystem) (filenamePath : Str) : Except Nat Str :=
  match isDirectory fs filenamePath with
  | .ok true => .ok filenamePath
  | .ok false => .ok (splitPath filenamePath).1
  | .error .fileNotFound => .ok (splitPath filenamePath).1
  | .error .other => .error 500

/-- The token as the evaluation finds it. The members that the first split of the resource sets are
overwritten before. -/
def requestToken (c : HttpConnection) (filenamePath directory : Str) (st : SecurityToken) :
    SecurityToken :=
  { st with
    server := some c.serverData
    vhost := some c.vhostData
    sysdirectory := some (c.td.host.elim [] Vhost.systemRoot)
    resource := some filenamePath
    directory := some directory
    user := if c.auth = [] then ascii "Guest" else c.login
    password := if c.auth = [] then [] else c.password }

def requestDomains (c : HttpConnection) : List SecurityDomain := [.auth, .httpRequest c.requestValue]

def securityRings : List SecurityRing := [.securityConf, .vhostConf, .serverConf]

def isDigest (st : SecurityToken) : Bool :=
  (st.getData (ascii "http.auth") securityRings).any fun authType => caseEq authType (ascii "Digest")

def readPermissions (c : HttpConnection) (st : SecurityToken) : Except Nat FilePermissions :=
  if isDigest st then
    if c.auth = ascii "Digest" then
      match c.digest.or c.checkDigest with
      | none => .error 500
      | some true => .ok ⟨st.providedMask, st, .digest⟩
      | some false => .ok ⟨st.mask, st, .digest⟩
    else .ok ⟨0, st, .digest⟩
  else .ok ⟨st.mask, st, .basic⟩

variable (env : SecurityEnv)

def evaluateRequest (c : HttpConnection) (tok : SecurityToken) : SecurityToken × Mask :=
  securityManagerMask env (requestDomains c)
    ((tok.getData (ascii "sec.validator") confRings).getD (ascii "xml")) tok

/-- The file name that a resource is mapped to and the directory that it is judged in. -/
def requestTarget (fs : FileSystem) (c : HttpConnection) (resource : Str) (yetmapped : Bool) :
    Except Nat (Str × Str) := do
  let filenamePath ← mapResource c resource yetmapped
  let directory ← requestDirectory fs filenamePath
  .ok (filenamePath, directory)

/-- `Http::getFilePermissions`. An error is the HTTP code; `permissions` is what the caller left in
`*permissions`. -/
def getFilePermissions (fs : FileSystem) (c : HttpConnection) (resource : Str) (yetmapped : Bool)
    (permissions : Mask) (st : SecurityToken) : Except Nat FilePermissions := do
  let target ← requestTarget fs c resource yetmapped
  if permissions = -1 then .error 500
  else readPermissions c (evaluateRequest env c (requestToken c target.1 target.2 st)).1

variable {env}

/-- A request whose scheme is not Digest acts on the mask that the evaluation left in the token. -/
theorem getFilePermissions_basic {fs : FileSystem} {c : HttpConnection} {resource : Str}
    {yetmapped : Bool} {permissions : Mask} {st : SecurityToken} {target : Str × Str}
    {r : FilePermissions} (htarget : requestTarget fs c resource yetmapped = .ok target)
    (h : getFilePermissions env fs c resource yetmapped permissions st = .ok r)
    (hbasic : r.authScheme = .basic) :
    r.permissions = (evaluateRequest env c (requestToken c target.1 target.2 st)).1.mask := by
  unfold getFilePermissions at h
  rw [htarget] at h
  change (if permissions = -1 then _ else _) = _ at h
  split at h
  · simp at h
  unfold readPermissions at h
  split at h
  · -- Each of the Digest outcomes sets the other scheme.
    split at h
    · split at h
      · simp at h
      · obtain rfl := Except.ok.inj h
        simp at hbasic
      · obtain rfl := Except.ok.inj h
        simp at hbasic
    · obtain rfl := Except.ok.inj h
      simp at hbasic
  · obtain rfl := Except.ok.inj h
    rfl

end MyServer.Http
