import MyServer.Http.FilePermissions
import MyServer.Ftp.CheckRights

/-!
# What the two protocols read back

Both protocols fill a token, have it evaluated and read its mask. The value
that the validator returns goes nowhere.
-/

open MyServer.Files MyServer.Http MyServer.Ftp

namespace MyServer.Security

/-- The token of a new `Http` object, once `controlConnection` has set the response header. -/
def newHttpToken (g : Indeterminate) : SecurityToken :=
  { SecurityToken.new g with responseHeader := true }

def httpToken (c : HttpConnection) (target : Str × Str) (g : Indeterminate) : SecurityToken :=
  requestToken c target.1 target.2 (newHttpToken g)

def ftpToken (systemRoot suser sPass : Str) (target : Str × Str) (g : Indeterminate) :
    SecurityToken :=
  checkToken systemRoot suser sPass target (SecurityToken.new g)

/-- Alice may read, and then every request is denied. -/
def deniedReader : XmlNode :=
  .element (ascii "SECURITY") []
    (.element (ascii "USER") [attr "name" "alice", attr "password" "secret", attr "READ" "YES"]
      .null (.element (ascii "RETURN") [attr "value" "DENY"] .null .null))
    .null

def alicesConnection : HttpConnection where
  td := ⟨[], [], some ⟨ascii "/srv/www", ascii "/srv/sys"⟩⟩
  auth := ascii "Basic"
  login := ascii "alice"
  password := ascii "secret"
  requestValue _ := none
  vhostData _ := none
  serverData _ := none
  digest := none
  checkDigest := none

end MyServer.Security
