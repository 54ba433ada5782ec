import MyServer.Bytes

/-!
# The security token

`SecurityToken` carries a permission check from one party to the next: who
asks, for what, and the mask that came out.
-/

namespace MyServer.Security

abbrev Mask := BitVec 32

def permissionRead : Mask := 1
def permissionWrite : Mask := 2
def permissionExecute : Mask := 4
def permissionBrowse : Mask := 16
def permissionAll : Mask := -1

def Mask.has (m permission : Mask) : Bool := m &&& permission ≠ 0

inductive SecurityRing where
  | securityConf
  | vhostConf
  | mimeConf
  | serverConf
  deriving DecidableEq, Repr

structure SecurityToken where
  user : Str
  password : Str
  directory : Option Str
  sysdirectory : Option Str
  resource : Option Str
  mask : Mask
  providedMask : Mask
  algorithm : Str
  neededPassword : Str
  done : Bool
  authenticated : Bool
  /-- `HashMap<string, NodeTree<string>*> values`. -/
  values : Str → Option Str
  /-- The `getData` of the object that each pointer leads to, where it is not NULL. -/
  mimeRecord : Option (Str → Option Str)
  vhost : Option (Str → Option Str)
  server : Option (Str → Option Str)
  /-- `responseHeader` is not NULL. -/
  responseHeader : Bool

/-- The members that `reset` leaves alone, so that a new token holds what was in memory. -/
structure Indeterminate where
  authenticated : Bool
  providedMask : Mask

/-- `SecurityToken::SecurityToken`, which is `reset` on a new object. -/
def SecurityToken.new (g : Indeterminate) : SecurityToken where
  user := []
  password := []
  directory := none
  sysdirectory := none
  resource := none
  mask := 0
  providedMask := g.providedMask
  algorithm := []
  neededPassword := []
  done := false
  authenticated := g.authenticated
  values := fun _ => none
  mimeRecord := none
  vhost := none
  server := none
  responseHeader := false

def SecurityToken.ringData (st : SecurityToken) (name : Str) : SecurityRing → Option Str
  | .securityConf => st.values name
  | .mimeConf => st.mimeRecord.bind fun getData => getData name
  | .vhostConf => st.vhost.bind fun getData => getData name
  | .serverConf => st.server.bind fun getData => getData name

/-- `SecurityToken::getData`. The rings are asked in this order, whatever order they are named in. -/
def SecurityToken.getData (st : SecurityToken) (name : Str) (domains : List SecurityRing) :
    Option Str :=
  [.securityConf, .mimeConf, .vhostConf, .serverConf].findSome? fun ring =>
    if ring ∈ domains then st.ringData name ring else none

/-! ## Security domains -/

/-- `AuthDomain` and `HttpReqSecurityDomain`, the second with the request's `getValue`. -/
inductive SecurityDomain where
  | auth
  | httpRequest (getValue : Str → Option Str)

def SecurityDomain.name : SecurityDomain → Str
  | .auth => ascii "auth"
  | .httpRequest _ => ascii "http_request"

/-- `SecurityDomain::getValue`. An `AuthDomain` reads the token that it points to. -/
def SecurityDomain.getValue (st : SecurityToken) (name : Str) : SecurityDomain → Option Str
  | .auth =>
    if name = ascii "user" then some st.user
    else if name = ascii "password" then some st.password
    else if name = ascii "directory" then st.directory
    else if name = ascii "sysdirectory" then st.sysdirectory
    else none
  | .httpRequest getValue => getValue (cstr name)

/-- `hashedDomains->get (domain)`; of two domains with one name the later was put over the other. -/
def domainNamed (domains : List SecurityDomain) (name : Str) : Option SecurityDomain :=
  domains.reverse.find? fun d => d.name = name

/-- `Validator::getValue`, for a name of the form `domain.variable`. -/
def getValue (domains : List SecurityDomain) (st : SecurityToken) (name : Str) : Option Str :=
  if ch '.' ∈ name then
    (domainNamed domains (name.takeWhile (· ≠ ch '.'))).bind
      (SecurityDomain.getValue st ((name.dropWhile (· ≠ ch '.')).drop 1))
  else (domainNamed domains []).bind (SecurityDomain.getValue st name)

def SecurityToken.SameRequest (a b : SecurityToken) : Prop :=
  a.user = b.user ∧ a.password = b.password ∧ a.directory = b.directory ∧
    a.sysdirectory = b.sysdirectory

theorem getValue_congr {a b : SecurityToken} (h : a.SameRequest b) (domains : List SecurityDomain)
    (name : Str) : getValue domains a name = getValue domains b name := by
  obtain ⟨hu, hp, hd, hs⟩ := h
  have hdom : ∀ name, SecurityDomain.getValue a name = SecurityDomain.getValue b name := by
    intro name
    funext d
    cases d <;> simp [SecurityDomain.getValue, hu, hp, hd, hs]
  simp [getValue, hdom]

end MyServer.Security
