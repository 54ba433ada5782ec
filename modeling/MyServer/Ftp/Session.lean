import MyServer.Ftp.LocalPath
import MyServer.Ftp.CheckRights
import MyServer.Lib.Run

/-!
# FTP sessions

The commands that change the file system, and the ones that change what those
look at. A request of the client is handled by an `Ftp` object of its own, and
may hold several commands.
-/

open MyServer.Files MyServer.Security

namespace MyServer.Ftp

/-- `FtpuserData::Ftpstate`, the states that a session goes through. -/
inductive FtpState where
  | noControlConnection
  | controlConnectionUp
  | userLoggedIn
  | dataConnectionUp
  deriving DecidableEq, Repr

structure FtpuserData where
  state : FtpState
  suserName : Str
  sPass : Str
  cwd : Str
  renameFrom : Str

structure FtpConfig where
  allowAnonymous : Bool
  enablestoreCmds : Bool

/-- What the world answers while one command runs. A system call that fails makes `checked` throw. -/
structure Moment where
  env : SecurityEnv
  fs : FileSystem
  /-- `OpenDataConnection`. -/
  dataConnection : Bool
  /-- The names that `ReadDirectory` finds, `none` where it finds nothing. -/
  entries : Str → Option (List Str)
  remove : Str → Bool
  mkdir : Str → Bool
  rmdir : Str → Bool
  rename : Str → Str → Bool
  /-- `openFile` for writing, by the thread of the data connection. -/
  openFile : Str → Bool
  /-- How often the loop of STOU goes round before the world changes. -/
  rounds : Nat

inductive Mutation where
  | remove (path : Str)
  | mkdir (path : Str)
  | rmdir (path : Str)
  | write (path : Str)
  | rename (before after : Str)

structure Outcome where
  data : FtpuserData
  st : SecurityToken
  replies : List Nat
  mutations : List Mutation

def reply (data : FtpuserData) (st : SecurityToken) (code : Nat) : Outcome := ⟨data, st, [code], []⟩

def changed (data : FtpuserData) (st : SecurityToken) (mutation : Mutation) : Outcome :=
  ⟨data, st, [250], [mutation]⟩

/-- `userLoggedIn`: the states are ordered, and the last two are enough. -/
def userLoggedIn (data : FtpuserData) : Bool :=
  data.state = .userLoggedIn ∨ data.state = .dataConnectionUp

def isSecurityName (st : SecurityToken) (filename : Str) : Bool :=
  caseEq filename ((st.getData (ascii "security.filename") confRings).getD (ascii ".security.xml"))

variable (cfg : FtpConfig) (host : FtpHost) (m : Moment) (data : FtpuserData) (st : SecurityToken)

def localPath (sPath : Str) : Except FileError (Option Str) := getLocalPath host m.fs data.cwd sPath
def builtPath (sPath : Str) : Except FileError (Option Str) := buildLocalPath host m.fs data.cwd sPath

/-- `checkRights` on a path, and the reply where it gives 0. -/
def withRights (user : Str × Str) (path : Str) (mask : Mask) (denied : Nat)
    (go : SecurityToken → Except FileError Outcome) : Except FileError Outcome := do
  let r ← checkRights m.env m.fs host.systemRoot user.1 user.2 path mask st
  if r.1 = 0 then .ok (reply data r.2 denied) else go r.2

def orThrow (success : Bool) (o : Outcome) : Except FileError Outcome :=
  if success then .ok o else .error .other

/-! ## Login -/

def user (sParam : Str) : Outcome :=
  if ¬ cfg.allowAnonymous ∧ caseEq data.suserName (ascii "anonymous") then reply data st 530
  else reply { data with suserName := sParam } st 331

def password (sParam : Str) : Outcome :=
  if ¬ cfg.allowAnonymous ∧ caseEq data.suserName (ascii "anonymous") then reply data st 530
  else reply { data with sPass := sParam, state := .userLoggedIn } st 230

def quit : Outcome := reply { data with state := .noControlConnection } st 221

def cwdCommand (sPath : Str) : Except FileError Outcome :=
  if ¬ userLoggedIn data then .ok (reply data st 530)
  else do
    match ← localPath host m data sPath with
    | none => .ok (reply data st 550)
    | some sLocalPath =>
      if ← isDirectory m.fs sLocalPath then
        .ok (reply { data with cwd := changeDirectory data.cwd sPath } st 250)
      else .ok (reply data st 550)

/-! ## Files -/

/-- The thread of `retrstor`, which runs on its own and leaves the data connection closed. -/
def transfer (bretr : Bool) (sLocalPath : Str) (st : SecurityToken) : Outcome :=
  let closed := { data with state := .userLoggedIn }
  if data.state = .dataConnectionUp ∨ m.dataConnection then
    ⟨closed, st, [if data.state = .dataConnectionUp then 125 else 150, 226],
      if bretr ∨ ¬ m.openFile sLocalPath then [] else [.write sLocalPath]⟩
  else ⟨closed, st, [150, 425], []⟩

def retrstor (bretr : Bool) (sPath : Str) : Except FileError Outcome :=
  if ¬ userLoggedIn data then .ok (reply data st 530)
  else do
    match ← (if bretr then localPath host m data sPath else builtPath host m data sPath) with
    | none => .ok (reply data st 550)
    | some sLocalPath =>
      if isSecurityName st (splitPath sLocalPath).2 then .ok (reply data st 550)
      else
        withRights host m data st (data.suserName, data.sPass) sLocalPath
          (if bretr then permissionRead ||| permissionBrowse else permissionWrite) 530 fun st => do
            if ← isDirectory m.fs sLocalPath then .ok (reply data st 550)
            else .ok (transfer m data bretr sLocalPath st)

/-- `stor` and `appe`, which differ in the flags of the file only. -/
def stor (sPath : Str) : Except FileError Outcome :=
  if ¬ cfg.enablestoreCmds then .ok (reply data st 532) else retrstor host m data st false sPath

/-- The name that the loop of `stou` tries: `sPath`, `sPath0`, `sPath1` and so on. -/
def stouName (sPath : Str) : Nat → Str
  | 0 => sPath
  | n + 1 => sPath ++ ascii (toString n)

def stouLoop (sPath : Str) : Nat → Nat → Except FileError (Option Str)
  | 0, _ => .ok none
  | rounds + 1, n => do
    match ← builtPath host m data (stouName sPath n) with
    | none => .ok none
    | some sOutPath =>
      if nodeExists m.fs sOutPath then stouLoop sPath rounds (n + 1) else .ok (some sOutPath)

/-- `stou`. It hands the local path to `retrstor`, which takes it for a path of the client. -/
def stou (sPath : Str) : Except FileError Outcome :=
  if ¬ cfg.enablestoreCmds then .ok (reply data st 532)
  else do
    match ← stouLoop host m data sPath m.rounds 0 with
    | none => .ok (reply data st 550)
    | some sOutPath => retrstor host m data st false sOutPath

/-- `dele`. The rights are checked on the bare file name. -/
def dele (sPath : Str) : Except FileError Outcome :=
  if ¬ userLoggedIn data then .ok (reply data st 530)
  else do
    match ← localPath host m data sPath with
    | none => .ok (reply data st 550)
    | some sLocalPath =>
      if ¬ cfg.enablestoreCmds then .ok (reply data st 532)
      else if isSecurityName st (splitPath sLocalPath).2 then .ok (reply data st 550)
      else
        withRights host m data st (resolveUser data.suserName data.sPass) (splitPath sLocalPath).2
          permissionWrite 550 fun st =>
            orThrow (m.remove sLocalPath) (changed data st (.remove sLocalPath))

def mkd (sPath : Str) : Except FileError Outcome :=
  if ¬ userLoggedIn data then .ok (reply data st 530)
  else if ¬ cfg.enablestoreCmds then .ok (reply data st 532)
  else do
    match ← builtPath host m data sPath with
    | none => .ok (reply data st 550)
    | some sLocalPath =>
      withRights host m data st (data.suserName, data.sPass) sLocalPath permissionWrite 550 fun st =>
        orThrow (m.mkdir sLocalPath) (changed data st (.mkdir sLocalPath))

def rmd (sPath : Str) : Except FileError Outcome :=
  if ¬ userLoggedIn data then .ok (reply data st 530)
  else if sPath = [] then .ok (reply data st 550)
  else if ¬ cfg.enablestoreCmds then .ok (reply data st 532)
  else do
    match ← localPath host m data sPath with
    | none => .ok (reply data st 550)
    | some sLocalPath =>
      withRights host m data st (data.suserName, data.sPass) sLocalPath permissionWrite 550 fun st =>
        orThrow (m.rmdir sLocalPath) (changed data st (.rmdir sLocalPath))

/-- `rnfr`. The name that it selects stays until the next RNFR. -/
def rnfr (sPath : Str) : Except FileError Outcome :=
  let data := { data with renameFrom := [] }
  if ¬ userLoggedIn data then .ok (reply data st 530)
  else if sPath = [] then .ok (reply data st 550)
  else do
    match ← localPath host m data sPath with
    | none => .ok ⟨data, st, [550, 550], []⟩
    | some sLocalPath =>
      if isSecurityName st (splitPath sLocalPath).2 then .ok (reply data st 550)
      else .ok (reply { data with renameFrom := sLocalPath } st 350)

/-- `Rnto`. The rights are checked on the old name only. -/
def rnto (sPath : Str) : Except FileError Outcome :=
  if ¬ userLoggedIn data then .ok (reply data st 530)
  else if sPath = [] then .ok (reply data st 550)
  else do
    match ← builtPath host m data sPath with
    | none => .ok ⟨data, st, [550, 550], []⟩
    | some sLocalPath =>
      if ¬ cfg.enablestoreCmds then .ok (reply data st 532)
      else
        withRights host m data st (data.suserName, data.sPass) data.renameFrom permissionWrite 550
          fun st =>
            if isSecurityName st (splitPath sLocalPath).2 then .ok (reply data st 550)
            else do
              let _ ← isLink m.fs data.renameFrom
              orThrow (m.rename data.renameFrom sLocalPath)
                (changed data st (.rename data.renameFrom sLocalPath))

/-- The complete file names that `list` asks the rights of, and the guest's name there. -/
def listed (sPath : Str) : Except FileError (Option (Str × List Str)) := do
  if ← isDirectory m.fs sPath then
    .ok ((m.entries sPath).map fun names => (ascii "Guest", (names.filter fun name =>
      ¬ (name.head? = some dot ∨ isSecurityName st name)).map fun name => sPath ++ name))
  else if ← isLink m.fs sPath then .ok (some (ascii "guest", []))
  else
    let (sDir, sFileName) := splitPath sPath
    .ok ((m.entries sDir).map fun names => (ascii "guest", (names.filter fun name =>
      name = sFileName).map fun name => sDir ++ name))

/-- The two checks that `list` makes for each name of the listing. -/
def listChecks (guest : Str) : List Str → SecurityToken → Except FileError SecurityToken
  | [], st => .ok st
  | name :: names, st => do
    let guestMask ← checkRights m.env m.fs host.systemRoot guest [] name permissionAll st
    let pMask ← checkRights m.env m.fs host.systemRoot data.suserName data.sPass name permissionAll
      guestMask.2
    listChecks guest names pMask.2

def list (sParam : Str) : Except FileError Outcome :=
  if ¬ userLoggedIn data then .ok (reply data st 530)
  else do
    match ← localPath host m data sParam with
    | none => .ok (reply data st 550)
    | some sLocalPath =>
      if data.state ≠ .dataConnectionUp ∧ ¬ m.dataConnection then .ok ⟨data, st, [150, 425], []⟩
      else
        -- Without the right to browse the data connection stays open.
        withRights host m { data with state := .dataConnectionUp } st (data.suserName, data.sPass)
          sLocalPath permissionBrowse 530 fun st => do
            let closed := { data with state := .userLoggedIn }
            match ← listed m st sLocalPath with
            | none => .ok (reply closed st 450)
            | some (guest, names) =>
              let st ← listChecks host m data guest names st
              .ok (reply closed st 226)

/-! ## Sessions -/

inductive Command where
  | user (sParam : Str)
  | password (sParam : Str)
  | quit
  | cwd (sPath : Str)
  | retr (sPath : Str)
  | list (sParam : Str)
  | stor (sPath : Str)
  | appe (sPath : Str)
  | stou (sPath : Str)
  | dele (sPath : Str)
  | mkd (sPath : Str)
  | rmd (sPath : Str)
  | rnfr (sPath : Str)
  | rnto (sPath : Str)
  /-- A command that looks at none of the above. -/
  | other

def execute : Command → Except FileError Outcome
  | .user sParam => .ok (user cfg data st sParam)
  | .password sParam => .ok (password cfg data st sParam)
  | .quit => .ok (quit data st)
  | .cwd sPath => cwdCommand host m data st sPath
  | .retr sPath => retrstor host m data st true sPath
  | .list sParam => list host m data st sParam
  | .stor sPath => stor cfg host m data st sPath
  | .appe sPath => stor cfg host m data st sPath
  | .stou sPath => stou cfg host m data st sPath
  | .dele sPath => dele cfg host m data st sPath
  | .mkd sPath => mkd cfg host m data st sPath
  | .rmd sPath => rmd cfg host m data st sPath
  | .rnfr sPath => rnfr host m data st sPath
  | .rnto sPath => rnto cfg host m data st sPath
  | .other => .ok ⟨data, st, [], []⟩

end MyServer.Ftp
