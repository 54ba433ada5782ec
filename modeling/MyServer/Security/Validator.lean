import MyServer.Security.Policy

/-!
# Users, verdicts and the mask that is read back

`XmlValidator` is both the validator and the authentication method of the
server. It leaves the mask in the token, and it also returns one.
-/

open MyServer.Block

namespace MyServer.Security

structure SecurityEnv where
  /-- `Regex::compile` with `REG_EXTENDED` and then `exec () == 0`. -/
  regexMatch : Str → Str → Option Bool
  /-- `cryptAlgoManager->check`, and false where there is no manager or where it throws. -/
  cryptCheck : Str → Str → Str → Bool
  /-- `SecurityCache::getParser` on a directory, a system directory and a security file name: the
  first top level node of the document. -/
  getParser : Str → Str → Str → Option XmlNode

variable (env : SecurityEnv)

def confRings : List SecurityRing := [.vhostConf, .serverConf]

/-- `XmlValidator::getParser`. -/
def getParser (st : SecurityToken) : Option XmlNode :=
  env.getParser (st.directory.getD []) (st.sysdirectory.getD [])
    ((st.getData (ascii "security.filename") confRings).getD (ascii ".security.xml"))

/-! ## Authentication -/

/-- `AuthMethod::comparePassword`; `savedPassword` is the one that the token carries. -/
def comparePassword (password savedPassword : Str) (algorithm : Option Str) : Bool :=
  match algorithm with
  | none => caseEq password savedPassword
  | some algorithm => env.cryptCheck (cstr savedPassword) password algorithm

def firstElement : XmlNode → XmlNode
  | .null => .null
  | .other next => firstElement next
  | .element name properties children next => .element name properties children next

/-- The loop that leaves `root` at the first element child of the last top level element. The
source does not initialise `root`; it is NULL here where no element is found. -/
def findRoot (root : XmlNode) : XmlNode → XmlNode
  | .null => root
  | .other next => findRoot root next
  | .element _ _ children next =>
    match firstElement children with
    | .null => findRoot root next
    | first => findRoot first next

/-- The USER element that decides for a user: the first one with a name and a password whose name
is the user's. -/
def userElement (user : Str) : XmlNode → Option (List XmlAttr)
  | .null => none
  | .other next => userElement user next
  | .element name properties _ next =>
    if name ≠ ascii "USER" then userElement user next
    else if lastContent (ascii "name") properties = some (cstr user) ∧
        (lastContent (ascii "password") properties).isSome then some properties
    else userElement user next

/-- What the body of the loop does to the token at the USER element it stops at. -/
def authenticateWith (properties : List XmlAttr) (st : SecurityToken) : SecurityToken :=
  let permissions := getPermissions properties
  let password := (lastContent (ascii "password") properties).getD []
  let algorithm := lastContent (ascii "algorithm") properties
  let st := { st with
    providedMask := permissions
    algorithm := algorithm.getD st.algorithm
    neededPassword := password }
  if comparePassword env password (cstr st.password) algorithm then
    { st with authenticated := true, mask := permissions }
  else { st with authenticated := false, mask := 0 }

/-- `XmlValidator::getPermissionMask`, the authentication method: the token and the mask that it
returns. -/
def authMethodMask (st : SecurityToken) : SecurityToken × Mask :=
  match getParser env st with
  | none => (st, 0)
  | some doc =>
    match userElement st.user (findRoot .null doc) with
    | none => (st, 0)
    | some properties =>
      (authenticateWith env properties st, (authenticateWith env properties st).mask)

/-! ## The verdict -/

/-- The loop of `XmlValidator::getPermissionMaskImpl` over the top level nodes. -/
def topLevelVerdict (domains : List SecurityDomain) : XmlNode → SecurityToken → SecurityToken × Int
  | .null, st => (st, 0)
  | .other next, st => topLevelVerdict domains next st
  | .element name properties children next, st =>
    let e := (computeXmlNode env.regexMatch domains (.element name properties children next)
      ⟨st, -1, []⟩).1
    -- By default return ALLOW.
    if e.cmd = -1 then (e.st, 1)
    else if e.cmd = 0 then (e.st, 0)
    else if e.cmd = 1 then ({ e.st with mask := permissionAll }, 1)
    else topLevelVerdict domains next e.st

def getPermissionMaskImpl (domains : List SecurityDomain) (st : SecurityToken) :
    SecurityToken × Int :=
  match getParser env st with
  | none => (st, 0)
  | some doc => topLevelVerdict env domains doc st

def getPermissionMaskInt (domains : List SecurityDomain) (st : SecurityToken) :
    SecurityToken × Mask :=
  let auth := authMethodMask env st
  let impl := getPermissionMaskImpl env domains auth.1
  ({ impl.1 with done := true }, if impl.2 = 0 then 0 else auth.2)

def validatorPermissionMask (domains : List SecurityDomain) (st : SecurityToken) :
    SecurityToken × Mask :=
  if st.done then (st, st.mask) else getPermissionMaskInt env domains st

/-- What a factory of the server holds under a name: it registers `xml` only. -/
def registered (name : Str) : Option (List SecurityDomain → SecurityToken → SecurityToken × Mask) :=
  if name = ascii "xml" then some (validatorPermissionMask env) else none

/-- `SecurityManager::getPermissionMask`; a name that is not registered stands for `xml`. The two
factories hold the same object, so the validator brings its authentication method along. -/
def securityManagerMask (domains : List SecurityDomain) (validator : Str) (st : SecurityToken) :
    SecurityToken × Mask :=
  match (registered env validator).or (registered env (ascii "xml")) with
  | none => (st, 0)
  | some getPermissionMask => getPermissionMask domains st

end MyServer.Security
