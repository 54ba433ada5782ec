import MyServer.Ftp.ControlReads
import MyServer.Lib.Safety

/-!
# Who is logged in (ftp.cpp)

The state of a session is that of its login and of its data connection at once. The threads that send and receive
the files change it beside the commands.
-/

open MyServer.Safety
open MyServer.FtpControl (Ftpstate Turn)

namespace MyServer.FtpLogin

structure Config where
  allowAnonymous : Bool
  allowAsynchronousCmds : Bool
  enablestoreCmds : Bool

/-- Where the thread that has `m_DataConnBusy` stands. -/
inductive Stage
  | opening
  | transferring
deriving DecidableEq

/-- `waiting` are the threads that do not have `m_DataConnBusy` yet. -/
structure FtpuserData where
  state : Ftpstate
  suserName : Str
  sPass : Str
  busy : Option Stage
  waiting : Nat
deriving DecidableEq

/-- The commands that need a login. -/
inductive Action
  | port | pasv | mode | type | stru | rest | retr | list | nlst | cwd | pwd
  | stor | stou | dele | appe | mkd | rmd | rnfr | rnto | syst | statCmd | size
deriving DecidableEq

/-- `noop` is also HELP and ALLO; `unknown` is answered 502 or 504 by the parser. -/
inductive Command
  | user (sParam : Str)
  | password (sParam : Str)
  | quit
  | abor
  | noop
  | unknown
  | action (a : Action)

/-- What the world answers while one command runs. -/
structure Moment where
  /-- `getLocalPath` or `buildLocalPath`. -/
  found : Bool
  /-- The loop of STOU ends with a name. -/
  named : Bool
  isSecurityName : Bool
  checkRights : Bool
  isDirectory : Bool
  /-- `openDataPassive` or `openDataActive`. -/
  connected : Bool

namespace FtpuserData

def start : FtpuserData := ⟨.noControlConnection, [], [], none, 0⟩

def userLoggedIn (data : FtpuserData) : Prop := data.state = .userLoggedIn ∨ data.state = .dataConnectionUp

instance (data : FtpuserData) : Decidable data.userLoggedIn := inferInstanceAs (Decidable (_ ∨ _))

def closeDataConnection (data : FtpuserData) : FtpuserData :=
  if data.state = .dataConnectionUp then { data with state := .userLoggedIn } else data

def openDataConnection (connected : Bool) (data : FtpuserData) : Option FtpuserData :=
  if data.state = .dataConnectionUp then some data
  else if connected then some { data with state := .dataConnectionUp }
  else none

end FtpuserData

/-- A name that may not log in. -/
def Barred (cfg : Config) (name : Str) : Prop := cfg.allowAnonymous = false ∧ caseEq name (ascii "anonymous") = true

instance (cfg : Config) (name : Str) : Decidable (Barred cfg name) := inferInstanceAs (Decidable (_ ∧ _))

section

variable (cfg : Config) (m : Moment) (data : FtpuserData)

/-- `user`, and its reply. It looks at the name that the session has. -/
def user (sParam : Str) : FtpuserData × Nat :=
  if Barred cfg data.suserName then (data, 530) else ({ data with suserName := sParam }, 331)

def password (sParam : Str) : FtpuserData × Nat :=
  if Barred cfg data.suserName then (data, 530)
  else ({ data with sPass := sParam, state := .userLoggedIn }, 230)

def quit : FtpuserData := { data with state := .noControlConnection }

/-- It starts the thread that sends or receives the file. -/
def retrstor : FtpuserData :=
  if m.found ∧ ¬ m.isSecurityName ∧ m.checkRights ∧ ¬ m.isDirectory then { data with waiting := data.waiting + 1 }
  else data

/-- Without the right to browse the data connection stays open. -/
def list : FtpuserData :=
  if m.found then
    match data.openDataConnection m.connected with
    | none => data
    | some data => if m.checkRights then data.closeDataConnection else data
  else data

def nlst : FtpuserData :=
  if m.found then ((data.openDataConnection m.connected).map (·.closeDataConnection)).getD data else data

/-- What a command does for a user that is logged in. -/
def act : Action → FtpuserData
  | .pasv => (data.openDataConnection m.connected).getD data
  | .retr | .stor | .stou | .appe => retrstor m data
  | .list => list m data
  | .nlst => nlst m data
  | .dele => if m.found ∧ cfg.enablestoreCmds ∧ m.isSecurityName then data.closeDataConnection else data
  | .size => if m.found ∧ m.isSecurityName then data.closeDataConnection else data
  | _ => data

/-- Whether a command gets as far as its login check. -/
def reaches : Action → Bool
  | .stor | .appe => cfg.enablestoreCmds
  | .stou => cfg.enablestoreCmds && m.named
  | _ => true

def CarriedOut (a : Action) : Prop := reaches cfg m a = true ∧ data.userLoggedIn

instance (a : Action) : Decidable (CarriedOut cfg m data a) := inferInstanceAs (Decidable (_ ∧ _))

def execute : Command → FtpuserData
  | .user sParam => (user cfg data sParam).1
  | .password sParam => (password cfg data sParam).1
  | .quit => quit data
  | .abor | .noop | .unknown => data
  | .action a => if CarriedOut cfg m data a then act cfg m data a else data

/-- The commands that begin with `waitDataConnection`, and ABOR, which joins the thread. -/
def Ready : Command → Prop
  | .user _ | .password _ | .unknown => True
  | .quit => cfg.allowAsynchronousCmds = false → data.busy = none
  | .abor =>
    (cfg.allowAsynchronousCmds = false → data.busy = none) ∧
      (data.state = .dataConnectionUp → data.busy = none ∧ data.waiting = 0)
  | .action .retr | .action .stor | .action .stou | .action .appe | .action .statCmd => True
  | .noop | .action _ => data.busy = none

instance (c : Command) : Decidable (Ready cfg data c) := by
  unfold Ready
  split <;> infer_instance

end

/-! ## A control connection -/

inductive Phase
  | idle
  | reading
  | deleted
deriving DecidableEq

structure Session where
  phase : Phase
  data : FtpuserData

inductive Event
  | read (turn : Turn)
  | command (c : Command) (m : Moment)
  | readEnd (accepted : Bool)
  /-- A thread gets `m_DataConnBusy`. -/
  | lock
  /-- It has called `OpenDataConnection`. -/
  | opened (connected : Bool)
  /-- It gives `m_DataConnBusy` back. An exception of `SendAsciiFile` leaves the data connection as it is. -/
  | finish (threw : Bool)

namespace Session

def start : Session := ⟨.idle, .start⟩

/-- `controlConnection`, up to the parser. -/
def read (turn : Turn) (s : Session) : Session :=
  let state := if turn.overload then .buisy else s.data.state
  if turn.rebooting then ⟨.deleted, { s.data with state := .unavailable }⟩
  else ⟨.reading, { s.data with state := if state = .noControlConnection then .controlConnectionUp else state }⟩

def readEnd (accepted : Bool) (s : Session) : Session :=
  { s with phase := if accepted ∧ s.data.state ≠ .noControlConnection then .idle else .deleted }

/-- The thread looks at the state, and opens the data connection where it is not up. -/
def lock (s : Session) : Session :=
  { s with data := { s.data with
      waiting := s.data.waiting - 1
      busy := some (if s.data.state = .dataConnectionUp then .transferring else .opening) } }

def opened (connected : Bool) (s : Session) : Session :=
  match s.data.openDataConnection connected with
  | some data => { s with data := { data with busy := some .transferring } }
  | none => { s with data := { s.data.closeDataConnection with busy := none } }

def finish (threw : Bool) (s : Session) : Session :=
  { s with data := { (if threw then s.data else s.data.closeDataConnection) with busy := none } }

/-- When there can be such a step. -/
def Enabled (cfg : Config) (s : Session) : Event → Prop
  | .read _ => s.phase = .idle
  | .command c _ => s.phase = .reading ∧ Ready cfg s.data c
  | .readEnd _ => s.phase = .reading
  | .lock => s.phase ≠ .deleted ∧ s.data.busy = none ∧ 0 < s.data.waiting
  | .opened _ => s.phase ≠ .deleted ∧ s.data.busy = some .opening
  | .finish _ => s.phase ≠ .deleted ∧ s.data.busy = some .transferring

instance (cfg : Config) (s : Session) (e : Event) : Decidable (s.Enabled cfg e) := by
  unfold Enabled
  split <;> infer_instance

def next (cfg : Config) (s : Session) : Event → Session
  | .read turn => s.read turn
  | .command c m => { s with data := execute cfg m s.data c }
  | .readEnd accepted => s.readEnd accepted
  | .lock => s.lock
  | .opened connected => s.opened connected
  | .finish threw => s.finish threw

def step (cfg : Config) (s : Session) (e : Event) : Option Session :=
  if s.Enabled cfg e then some (s.next cfg e) else none

end Session

/-- A run, with its last USER and the reply, whether a PASS was accepted after it, and whether the last step was
a USER or a PASS that was refused. -/
structure Watched where
  session : Session
  last : Option (Str × Nat)
  passed : Bool
  refused : Bool

namespace Watched

def start : Watched := ⟨.start, none, false, false⟩

def step (cfg : Config) (w : Watched) (e : Event) : Option Watched :=
  (w.session.step cfg e).map fun s =>
    match e with
    | .command (.user sParam) _ =>
      let reply := (user cfg w.session.data sParam).2
      ⟨s, some (sParam, reply), false, reply = 530⟩
    | .command (.password sParam) _ =>
      let reply := (password cfg w.session.data sParam).2
      ⟨s, w.last, w.passed || reply = 230, reply = 530⟩
    | _ => ⟨s, w.last, w.passed, false⟩

end Watched

/-- A command that needs a login is only carried out for the user that logged in. -/
def Rightful (cfg : Config) (w : Watched) : Prop :=
  ∀ a m, CarriedOut cfg m w.session.data a →
    w.last = some (w.session.data.suserName, 331) ∧ w.passed = true ∧ ¬ Barred cfg w.session.data.suserName

/-- Another user can still log in. -/
def Able (cfg : Config) (s : Session) : Prop :=
  ∃ events s', run (Session.step cfg) events s = some s' ∧
    s'.data.userLoggedIn ∧ s'.data.suserName ≠ s.data.suserName

def Safe (cfg : Config) (w : Watched) : Prop := Rightful cfg w ∧ (w.refused = true → Able cfg w.session)

/-- USER comes when nobody is logged in and PASS after a USER, neither of them once the session has a name that may
not log in, and no thread opens the data connection while a USER waits for its PASS. -/
def Kept (cfg : Config) (w : Watched) : Event → Prop
  | .command (.user _) _ => w.session.phase = .reading →
      ¬ w.session.data.userLoggedIn ∧ ¬ Barred cfg w.session.data.suserName
  | .command (.password _) _ => w.session.phase = .reading →
      w.last ≠ none ∧ ¬ Barred cfg w.session.data.suserName
  | .opened connected => w.session.Enabled cfg (.opened connected) → connected = true → w.passed = true
  | _ => True

/-! ## What one step can do -/

section

variable {cfg : Config} {m : Moment} {data data' : FtpuserData} {s s' : Session} {e : Event}

/-- What most steps leave: the name, and nobody logged in where nobody was. -/
structure Quiet (data data' : FtpuserData) : Prop where
  name : data'.suserName = data.suserName
  login : data'.userLoggedIn → data.userLoggedIn

theorem Quiet.refl (data : FtpuserData) : Quiet data data := ⟨rfl, id⟩

theorem Quiet.trans {data'' : FtpuserData} (h : Quiet data data') (h' : Quiet data' data'') : Quiet data data'' :=
  ⟨h'.name.trans h.name, h.login ∘ h'.login⟩

@[simp] theorem closeDataConnection_suserName : data.closeDataConnection.suserName = data.suserName := by
  unfold FtpuserData.closeDataConnection
  split <;> rfl

theorem quiet_closeDataConnection (data : FtpuserData) : Quiet data data.closeDataConnection := by
  refine ⟨closeDataConnection_suserName, fun h => ?_⟩
  unfold FtpuserData.closeDataConnection at h
  split at h
  · rename_i hup
    exact Or.inr hup
  · exact h

theorem openDataConnection_some {connected : Bool} (h : data.openDataConnection connected = some data') :
    data'.suserName = data.suserName ∧ data'.state = .dataConnectionUp := by
  unfold FtpuserData.openDataConnection at h
  split_ifs at h with hup
  · cases h
    exact ⟨rfl, hup⟩
  · cases h
    exact ⟨rfl, rfl⟩

theorem list_suserName : (list m data).suserName = data.suserName := by
  unfold list
  by_cases hfound : m.found
  · rw [if_pos hfound]
    cases h : data.openDataConnection m.connected with
    | none => rfl
    | some d =>
      have hd : d.suserName = data.suserName := (openDataConnection_some h).1
      by_cases hrights : m.checkRights
      · simp [hrights, hd]
      · simp [hrights, hd]
  · rw [if_neg hfound]

theorem nlst_suserName : (nlst m data).suserName = data.suserName := by
  unfold nlst
  split_ifs with hfound
  · cases h : data.openDataConnection m.connected with
    | none => rfl
    | some d =>
      have hd : d.suserName = data.suserName := (openDataConnection_some h).1
      rw [Option.map_some, Option.getD_some, closeDataConnection_suserName, hd]
  · rfl

/-- A command of a user that is logged in keeps the name. -/
theorem act_suserName (a : Action) : (act cfg m data a).suserName = data.suserName := by
  unfold act
  split
  · cases h : data.openDataConnection m.connected with
    | none => rfl
    | some d => exact (openDataConnection_some h).1
  case h_6 => exact list_suserName
  case h_7 => exact nlst_suserName
  case h_10 => rfl
  · unfold retrstor
    split_ifs <;> rfl
  · unfold retrstor
    split_ifs <;> rfl
  · unfold retrstor
    split_ifs <;> rfl
  · unfold retrstor
    split_ifs <;> rfl
  · split_ifs
    · exact closeDataConnection_suserName
    · rfl
  · split_ifs
    · exact closeDataConnection_suserName
    · rfl

/-- The commands but USER and PASS. -/
theorem quiet_execute {c : Command} (huser : ∀ sParam, c ≠ .user sParam) (hpassword : ∀ sParam, c ≠ .password sParam) :
    Quiet data (execute cfg m data c) := by
  cases c with
  | user sParam => exact absurd rfl (huser sParam)
  | password sParam => exact absurd rfl (hpassword sParam)
  | quit => exact ⟨rfl, fun h => absurd h (by simp [execute, quit, FtpuserData.userLoggedIn])⟩
  | abor => exact Quiet.refl data
  | noop => exact Quiet.refl data
  | unknown => exact Quiet.refl data
  | action a =>
    dsimp only [execute]
    split_ifs with h
    · exact ⟨act_suserName a, fun _ => h.2⟩
    · exact Quiet.refl data

theorem quiet_command {c : Command} (huser : ∀ sParam, c ≠ .user sParam) (hpassword : ∀ sParam, c ≠ .password sParam) :
    Quiet s.data (s.next cfg (.command c m)).data :=
  quiet_execute huser hpassword

theorem quiet_read (turn : Turn) : Quiet s.data (s.read turn).data := by
  unfold Session.read
  dsimp only
  split_ifs <;> refine ⟨rfl, fun h => ?_⟩ <;> simp_all [FtpuserData.userLoggedIn]

theorem quiet_finish (threw : Bool) : Quiet s.data (s.finish threw).data := by
  unfold Session.finish
  cases threw
  · exact (quiet_closeDataConnection s.data).trans ⟨rfl, id⟩
  · exact ⟨rfl, id⟩

/-- A data connection that cannot be opened is closed. -/
theorem quiet_opened : Quiet s.data (s.opened false).data := by
  unfold Session.opened
  cases h : s.data.openDataConnection false with
  | none => exact (quiet_closeDataConnection s.data).trans ⟨rfl, id⟩
  | some d =>
    refine ⟨(openDataConnection_some h).1, fun _ => ?_⟩
    by_contra hout
    simp [FtpuserData.openDataConnection, show s.data.state ≠ .dataConnectionUp from fun h => hout (Or.inr h)] at h

theorem opened_suserName (connected : Bool) : (s.opened connected).data.suserName = s.data.suserName := by
  unfold Session.opened
  cases h : s.data.openDataConnection connected with
  | none => exact closeDataConnection_suserName
  | some d => exact (openDataConnection_some h).1

theorem opened_loggedIn : (s.opened true).data.userLoggedIn := by
  unfold Session.opened
  cases h : s.data.openDataConnection true with
  | none =>
    unfold FtpuserData.openDataConnection at h
    split_ifs at h with hup htrue
    exact absurd rfl htrue
  | some d => exact Or.inr (openDataConnection_some h).2

end

/-! ## A name that may not log in -/

section

variable {cfg : Config} {s s' : Session} {e : Event}

theorem step_eq (h : s.step cfg e = some s') : s.Enabled cfg e ∧ s' = s.next cfg e := by
  unfold Session.step at h
  split_ifs at h with henabled
  cases h
  exact ⟨henabled, rfl⟩

theorem user_barred {data : FtpuserData} (h : Barred cfg data.suserName) (sParam : Str) :
    user cfg data sParam = (data, 530) := if_pos h

theorem user_taken {data : FtpuserData} (h : ¬ Barred cfg data.suserName) (sParam : Str) :
    user cfg data sParam = ({ data with suserName := sParam }, 331) := if_neg h

theorem password_barred {data : FtpuserData} (h : Barred cfg data.suserName) (sParam : Str) :
    password cfg data sParam = (data, 530) := if_pos h

theorem password_accepted {data : FtpuserData} (h : ¬ Barred cfg data.suserName) (sParam : Str) :
    password cfg data sParam = ({ data with sPass := sParam, state := .userLoggedIn }, 230) := if_neg h

/-- The session keeps such a name. -/
theorem step_barred (hbarred : Barred cfg s.data.suserName) (h : s.step cfg e = some s') :
    s'.data.suserName = s.data.suserName := by
  obtain ⟨-, rfl⟩ := step_eq h
  cases e with
  | read turn => exact (quiet_read turn).name
  | command c m =>
    cases c with
    | user sParam => exact congrArg (·.1.suserName) (user_barred hbarred sParam)
    | password sParam => exact congrArg (·.1.suserName) (password_barred hbarred sParam)
    | _ => exact (quiet_command (by simp) (by simp)).name
  | readEnd accepted => rfl
  | lock => rfl
  | opened connected => exact opened_suserName connected
  | finish threw => exact (quiet_finish threw).name

theorem run_barred {events : List Event} (hbarred : Barred cfg s.data.suserName)
    (h : run (Session.step cfg) events s = some s') : s'.data.suserName = s.data.suserName := by
  induction events generalizing s with
  | nil =>
    cases h
    rfl
  | cons e events ih =>
    obtain ⟨s₁, hstep, hrun⟩ := Option.bind_eq_some_iff.mp h
    have hname : s₁.data.suserName = s.data.suserName := step_barred hbarred hstep
    rw [ih (hname ▸ hbarred) hrun, hname]

/-- Nobody else can log in any more. -/
theorem not_able (hbarred : Barred cfg s.data.suserName) : ¬ Able cfg s := by
  rintro ⟨events, s', hrun, -, hother⟩
  exact hother (run_barred hbarred hrun)

end

/-! ## Runs -/

section

variable {cfg : Config} {w w' : Watched} {e : Event}

structure Inv (cfg : Config) (w : Watched) : Prop where
  known : ∀ name reply, w.last = some (name, reply) → name = w.session.data.suserName ∧ reply = 331
  passed : w.session.data.userLoggedIn → w.passed = true
  given : w.passed = true → w.last ≠ none ∧ ¬ Barred cfg w.session.data.suserName
  refused : w.refused = false

theorem inv_start : Inv cfg .start := ⟨nofun, by decide, nofun, rfl⟩

theorem Inv.safe (h : Inv cfg w) : Safe cfg w := by
  refine ⟨fun a m hcarried => ?_, fun hrefused => absurd h.refused (by simp [hrefused])⟩
  have hpassed : w.passed = true := h.passed hcarried.2
  obtain ⟨hlast, hname⟩ := h.given hpassed
  obtain ⟨⟨name, reply⟩, hsome⟩ := Option.ne_none_iff_exists'.mp hlast
  obtain ⟨rfl, rfl⟩ := h.known name reply hsome
  exact ⟨hsome, hpassed, hname⟩

theorem Inv.quiet (h : Inv cfg w) {s : Session} (hs : Quiet w.session.data s.data) :
    Inv cfg ⟨s, w.last, w.passed, false⟩ := by
  refine ⟨fun name reply hlast => ?_, fun hlogin => h.passed (hs.login hlogin), fun hpassed => ?_, rfl⟩
  · rw [hs.name]
    exact h.known name reply hlast
  · rw [hs.name]
    exact h.given hpassed

/-- **A step that is kept** keeps the login right. -/
theorem Inv.step (h : Inv cfg w) (hkept : Kept cfg w e) (hstep : w.step cfg e = some w') : Inv cfg w' := by
  obtain ⟨s, hs, rfl⟩ := Option.map_eq_some_iff.mp hstep
  obtain ⟨henabled, rfl⟩ := step_eq hs
  cases e with
  | read turn => exact h.quiet (quiet_read turn)
  | readEnd accepted => exact h.quiet (Quiet.refl _)
  | lock => exact h.quiet ⟨rfl, id⟩
  | finish threw => exact h.quiet (quiet_finish threw)
  | opened connected =>
    cases connected with
    | false => exact h.quiet quiet_opened
    | true =>
      have hpassed : w.passed = true := hkept henabled rfl
      have hname : (w.session.opened true).data.suserName = w.session.data.suserName := opened_suserName true
      refine ⟨fun name reply hlast => ?_, fun _ => hpassed, fun _ => ?_, rfl⟩
      · exact hname ▸ h.known name reply hlast
      · exact hname ▸ h.given hpassed
  | command c m =>
    cases c with
    | user sParam =>
      obtain ⟨hout, hname⟩ := hkept henabled.1
      have huser := user_taken hname sParam
      dsimp only [Session.next, execute]
      rw [huser]
      refine ⟨fun name reply hlast => ?_, fun hlogin => absurd hlogin hout, nofun, rfl⟩
      cases hlast
      exact ⟨rfl, rfl⟩
    | password sParam =>
      obtain ⟨hgiven, hname⟩ := hkept henabled.1
      have hpassword := password_accepted hname sParam
      dsimp only [Session.next, execute]
      rw [hpassword]
      exact ⟨h.known, fun _ => by simp, fun _ => ⟨hgiven, hname⟩, rfl⟩
    | _ => exact h.quiet (quiet_command (by simp) (by simp))

/-- Somebody who is logged in can ask for the directory. -/
theorem Rightful.loggedIn (h : Rightful cfg w) (hlogin : w.session.data.userLoggedIn) :
    w.last = some (w.session.data.suserName, 331) ∧ w.passed = true :=
  have hpwd := h .pwd ⟨true, true, true, true, true, true⟩ ⟨rfl, hlogin⟩
  ⟨hpwd.1, hpwd.2.1⟩

/-- A step that is not kept leaves the login wrong. -/
theorem Inv.needed (hnext : ∀ w', w.step cfg e = some w' → Safe cfg w') : Kept cfg w e := by
  have hstep : w.session.Enabled cfg e → w.session.step cfg e = some (w.session.next cfg e) := fun h => if_pos h
  cases e with
  | read turn => trivial
  | readEnd accepted => trivial
  | lock => trivial
  | finish threw => trivial
  | opened connected =>
    intro henabled hconnected
    subst hconnected
    have hsafe := hnext _ (by unfold Watched.step; rw [hstep henabled]; rfl)
    exact (hsafe.1.loggedIn opened_loggedIn).2
  | command c m =>
    cases c with
    | user sParam =>
      intro hphase
      have hsafe := hnext _ (by unfold Watched.step; rw [hstep ⟨hphase, trivial⟩]; rfl)
      dsimp only [Session.next, execute] at hsafe
      have hname : ¬ Barred cfg w.session.data.suserName := by
        intro hbarred
        rw [user_barred hbarred] at hsafe
        exact not_able hbarred (hsafe.2 rfl)
      refine ⟨fun hlogin => ?_, hname⟩
      rw [user_taken hname] at hsafe
      exact absurd (hsafe.1.loggedIn hlogin).2 (by simp)
    | password sParam =>
      intro hphase
      have hsafe := hnext _ (by unfold Watched.step; rw [hstep ⟨hphase, trivial⟩]; rfl)
      dsimp only [Session.next, execute] at hsafe
      have hname : ¬ Barred cfg w.session.data.suserName := by
        intro hbarred
        rw [password_barred hbarred] at hsafe
        exact not_able hbarred (hsafe.2 rfl)
      refine ⟨fun hnone => ?_, hname⟩
      rw [password_accepted hname] at hsafe
      have hlast := (hsafe.1.loggedIn (Or.inl rfl)).1
      exact absurd hlast (by simp [hnone])
    | _ => trivial

end

end MyServer.FtpLogin
