import Mathlib.Tactic

/-!
# What the protocols return to `ClientsThread`

The paths through `controlConnection` of each protocol, down to its return
value. Only four values have a meaning to the caller.
-/

namespace MyServer.Server

namespace ClientsThread

def DELETE_CONNECTION : Int := 1
def KEEP_CONNECTION : Int := 2
def INCOMPLETE_REQUEST : Int := 3
def INCOMPLETE_REQUEST_NO_WAIT : Int := 4

end ClientsThread

open ClientsThread

/-- The values that `ClientsThread::controlConnections` acts on. -/
def Understood (retcode : Int) : Prop :=
  retcode = DELETE_CONNECTION ∨ retcode = KEEP_CONNECTION ∨ retcode = INCOMPLETE_REQUEST ∨
    retcode = INCOMPLETE_REQUEST_NO_WAIT

instance (retcode : Int) : Decidable (Understood retcode) := inferInstanceAs (Decidable (_ ∨ _))

@[simp] theorem understood_delete : Understood DELETE_CONNECTION := by decide
@[simp] theorem understood_keep : Understood KEEP_CONNECTION := by decide
@[simp] theorem understood_incomplete : Understood INCOMPLETE_REQUEST := by decide
@[simp] theorem understood_no_wait : Understood INCOMPLETE_REQUEST_NO_WAIT := by decide
@[simp] theorem not_understood_zero : ¬ Understood 0 := by decide

theorem understood_ite {c : Prop} [Decidable c] {a b : Int} (ha : c → Understood a) (hb : ¬ c → Understood b) :
    Understood (if c then a else b) := by
  split
  next h => exact ha h
  next h => exact hb h

/-- A call that may leave by an exception. -/
inductive Called where
  | threw
  | returned (retcode : Int)

/-! ## The control protocol (control_protocol.cpp) -/

def CONTROL_OK : Int := 100

/-- One turn of the loop that waits for the body: bytes came, or five seconds are over. -/
inductive Poll where
  | recv (n : Nat)
  | timeout

/-- What `controlConnection` meets. `rest` is what came with the header, `polls` what the loop then
sees; `threw` is a `std::exception` on the way. -/
structure ControlRequest where
  threw : Bool
  toRemove : Nat
  parse_header : Int
  specifiedLength : Int
  rest : Nat
  polls : List Poll
  versionSupported : Bool
  checkAuth : Bool
  knownCommand : Bool
  keepAlive : Bool

/-- The loop runs until the body is there; its condition is about `rest` and never changes. -/
def readBody (specifiedLength : Int) : Int → List Poll → Option Int
  | _, [] => none
  | _, .timeout :: _ => none
  | dataWritten, .recv n :: polls =>
    if specifiedLength ≤ dataWritten + n then some (dataWritten + n)
    else readBody specifiedLength (dataWritten + n) polls

/-- `dataWritten` after the body, or nothing when it did not come in time. -/
def ControlRequest.dataWritten (r : ControlRequest) : Option Int :=
  if r.specifiedLength = 0 then some 0
  else if r.specifiedLength = r.rest then some r.rest
  else readBody r.specifiedLength r.rest r.polls

def ControlProtocol.controlConnection (r : ControlRequest) : Int :=
  if r.threw then DELETE_CONNECTION
  else if r.toRemove ≠ 0 then 0
  else if r.parse_header ≠ CONTROL_OK then if r.parse_header = -1 then 2 else 0
  else if r.dataWritten = none then 0
  else if ¬ r.versionSupported then 0
  else if ¬ r.checkAuth then 0
  else if r.dataWritten ≠ some r.specifiedLength then 0
  else if r.knownCommand ∧ r.keepAlive then KEEP_CONNECTION
  else DELETE_CONNECTION

/-- The request gets to its command, or is not complete. -/
def ControlRequest.Served (r : ControlRequest) : Prop :=
  r.toRemove = 0 ∧ (r.parse_header = -1 ∨
    (r.parse_header = CONTROL_OK ∧ r.versionSupported ∧ r.checkAuth ∧
      r.dataWritten = some r.specifiedLength))

instance (r : ControlRequest) : Decidable r.Served := inferInstanceAs (Decidable (_ ∧ _))

/-- **The control protocol** returns 0 where its comment says that this removes the connection. -/
theorem control_understood_iff (r : ControlRequest) :
    Understood (ControlProtocol.controlConnection r) ↔ r.threw ∨ r.Served := by
  unfold ControlProtocol.controlConnection ControlRequest.Served
  by_cases hthrew : r.threw
  · simp [hthrew]
  by_cases hremove : r.toRemove = 0
  · by_cases hparse : r.parse_header = CONTROL_OK
    · have hne : CONTROL_OK ≠ -1 := by decide
      cases hwritten : r.dataWritten with
      | none => simp [hthrew, hremove, hparse, hne]
      | some n =>
        simp only [hthrew, hremove, hparse, hne, reduceCtorEq, not_true_eq_false, ne_eq, if_false,
          false_or, true_and]
        split_ifs <;> simp_all
    · have hkeep : Understood 2 := understood_keep
      by_cases hincomplete : r.parse_header = -1
      · simp [hthrew, hremove, hincomplete, hkeep, CONTROL_OK]
      · simp [hthrew, hremove, hparse, hincomplete]
  · simp [hthrew, hremove]

/-! ## HTTP (http.cpp) -/

def RET_OK : Int := 0
def RET_FAILURE : Int := 1

/-- The directory of a user in the URI: none is named, it is not to be used, the slash is missing,
or it is mapped. -/
inductive HomeDir where
  | none
  | refused
  | redirected
  | mapped
  deriving DecidableEq

/-- What `Http::controlConnection` meets. `raised` is what `raiseHTTPError` returns, `redirected`
what `sendHTTPRedirect` does, `served` what the method's own function does. -/
structure HttpRequest where
  threw : Bool
  toRemove : Bool
  validRequest : Int
  versionKnown : Bool
  acceptsData : Bool
  expectsContinue : Bool
  readPostData : Int
  version11 : Bool
  keepAlive : Bool
  hasHost : Bool
  vhostFound : Bool
  homeDir : HomeDir
  remainingData : Bool
  vetoed : Bool
  allowMethod : Bool
  served : Int
  raised : Int
  redirected : Int

namespace HttpRequest

variable (r : HttpRequest)

/-- What is kept after an error that was raised in place of the resource. -/
def keepAfterError : Int :=
  if r.raised = RET_OK ∧ r.keepAlive ∧ r.version11 then KEEP_CONNECTION else DELETE_CONNECTION

/-- The mapping of the handlers' values to those of `ClientsThread`. -/
def mapped (ret : Int) (keepalive pipelineData : Bool) : Int :=
  if ret = RET_OK ∧ keepalive then
    if pipelineData then INCOMPLETE_REQUEST_NO_WAIT else KEEP_CONNECTION
  else DELETE_CONNECTION

/-- From the virtual host on, when nothing was answered yet. -/
def answer : Int :=
  if r.version11 ∧ ¬ r.hasHost then r.keepAfterError
  else if ¬ r.vhostFound then r.keepAfterError
  else if r.homeDir = .refused then r.raised
  else if r.homeDir = .redirected then r.redirected
  else if r.vetoed then DELETE_CONNECTION
  else if ¬ r.allowMethod then r.raised
  else mapped r.served (r.keepAlive && r.version11) (!r.acceptsData && r.remainingData)

/-- `ret` after the data of the request was read. -/
def afterData : Int := if r.acceptsData ∧ r.readPostData ≠ 0 then r.raised else -1

end HttpRequest

def Http.controlConnection (r : HttpRequest) : Int :=
  if r.threw then DELETE_CONNECTION
  else if r.toRemove then DELETE_CONNECTION
  else if r.validRequest = -1 then INCOMPLETE_REQUEST
  else if r.validRequest ≠ 200 then DELETE_CONNECTION
  else if ¬ r.versionKnown then DELETE_CONNECTION
  else if r.acceptsData ∧ r.expectsContinue then INCOMPLETE_REQUEST
  else if r.acceptsData ∧ r.readPostData < 0 then DELETE_CONNECTION
  else if r.afterData < 0 then r.answer
  else DELETE_CONNECTION

/-- Nothing ended the request before its virtual host was looked for. -/
def HttpRequest.Answered (r : HttpRequest) : Prop :=
  ¬ r.toRemove ∧ r.validRequest = 200 ∧ r.versionKnown ∧
    ¬ (r.acceptsData ∧ (r.expectsContinue ∨ r.readPostData < 0)) ∧ r.afterData < 0

def HttpRequest.Routed (r : HttpRequest) : Prop := (r.version11 → r.hasHost) ∧ r.vhostFound

/-- The value of an answer that `controlConnection` returns as it is. -/
def HttpRequest.passedOn (r : HttpRequest) : Option Int :=
  if r.homeDir = .refused then some r.raised
  else if r.homeDir = .redirected then some r.redirected
  else if ¬ r.vetoed ∧ ¬ r.allowMethod then some r.raised
  else none

theorem HttpRequest.understood_keepAfterError (r : HttpRequest) : Understood r.keepAfterError := by
  unfold keepAfterError
  split <;> simp

theorem HttpRequest.understood_mapped (ret : Int) (keepalive pipelineData : Bool) :
    Understood (mapped ret keepalive pipelineData) := by
  unfold mapped
  split_ifs <;> simp

theorem HttpRequest.understood_answer_iff (r : HttpRequest) :
    Understood r.answer ↔ ¬ r.Routed ∨ ∀ v, r.passedOn = some v → Understood v := by
  unfold answer Routed passedOn
  by_cases hhost : r.version11 ∧ ¬ r.hasHost
  · simp [hhost, r.understood_keepAfterError]
  · have hhost' : r.version11 → r.hasHost := by simpa using hhost
    by_cases hfound : r.vhostFound
    · rw [if_neg hhost, if_neg (by simpa using hfound)]
      split_ifs <;> simp_all [understood_mapped]
    · simp [hfound, r.understood_keepAfterError]

theorem Http.controlConnection_answered {r : HttpRequest} (hthrew : ¬ r.threw) (h : r.Answered) :
    Http.controlConnection r = r.answer := by
  obtain ⟨hkept, hvalid, hversion, hdata, hafter⟩ := h
  rw [Http.controlConnection, if_neg hthrew, if_neg hkept, if_neg (by omega), if_neg (not_not.mpr hvalid),
    if_neg (not_not.mpr hversion), if_neg fun h => hdata ⟨h.1, .inl h.2⟩, if_neg fun h => hdata ⟨h.1, .inr h.2⟩,
    if_pos hafter]

/-- A request that is ended early is never passed on. -/
theorem Http.understood_ended {r : HttpRequest} (h : r.threw ∨ ¬ r.Answered) :
    Understood (Http.controlConnection r) := by
  unfold Http.controlConnection
  refine understood_ite (fun _ => understood_delete) fun hthrew => ?_
  refine understood_ite (fun _ => understood_delete) fun hremoved => ?_
  refine understood_ite (fun _ => understood_incomplete) fun _ => ?_
  refine understood_ite (fun _ => understood_delete) fun hvalid => ?_
  refine understood_ite (fun _ => understood_delete) fun hversion => ?_
  refine understood_ite (fun _ => understood_incomplete) fun hexpects => ?_
  refine understood_ite (fun _ => understood_delete) fun hread => ?_
  refine understood_ite (fun hafter => ?_) fun _ => understood_delete
  refine absurd ⟨hremoved, not_not.mp hvalid, not_not.mp hversion, ?_, hafter⟩ (h.resolve_left hthrew)
  rintro ⟨hdata, hwaits | hfailed⟩
  · exact hexpects ⟨hdata, hwaits⟩
  · exact hread ⟨hdata, hfailed⟩

/-- **HTTP.** An answer that is passed on is a handler's value, where 0 is success. -/
theorem http_understood_iff (r : HttpRequest) :
    Understood (Http.controlConnection r) ↔
      r.threw ∨ ¬ r.Answered ∨ ¬ r.Routed ∨ ∀ v, r.passedOn = some v → Understood v := by
  rw [← r.understood_answer_iff]
  by_cases hended : r.threw ∨ ¬ r.Answered
  · exact iff_of_true (Http.understood_ended hended) (or_assoc.mp (.inl hended))
  · obtain ⟨hthrew, hanswered⟩ := not_or.mp hended
    rw [Http.controlConnection_answered hthrew (not_not.mp hanswered), or_iff_right hthrew, or_iff_right hanswered]

/-! ## FTP and Gopher (ftp_parser.ypp, ftp.cpp, gopher.cpp) -/

/-- `threwEarly` is before the `try` of `Ftp::controlConnection`. -/
structure FtpRequest where
  threwEarly : Bool
  rebooting : Bool
  threw : Bool
  hasBuffer : Bool
  allParsed : Bool
  yyparse : Int
  controlConnectionUp : Bool

def Ftp.parseControlConnection (r : FtpRequest) : Int :=
  if ¬ r.hasBuffer then DELETE_CONNECTION
  else if r.allParsed then KEEP_CONNECTION
  else if r.yyparse = 0 ∧ r.controlConnectionUp then KEEP_CONNECTION
  else DELETE_CONNECTION

def Ftp.controlConnection (r : FtpRequest) : Called :=
  if r.threwEarly then .threw
  else if r.rebooting then .returned DELETE_CONNECTION
  else if r.threw then .returned DELETE_CONNECTION
  else .returned (Ftp.parseControlConnection r)

def Gopher.controlConnection (threw : Bool) : Called :=
  if threw then .threw else .returned DELETE_CONNECTION

/-! ## Any of them -/

inductive Request where
  | control (r : ControlRequest)
  | http (r : HttpRequest)
  | ftp (r : FtpRequest)
  | gopher (threw : Bool)

def Request.controlConnection : Request → Called
  | .control r => .returned (ControlProtocol.controlConnection r)
  | .http r => .returned (Http.controlConnection r)
  | .ftp r => Ftp.controlConnection r
  | .gopher threw => Gopher.controlConnection threw

/-- When the caller understands what comes back. An exception it takes as `DELETE_CONNECTION`. -/
def Request.Clear : Request → Prop
  | .control r => r.threw ∨ r.Served
  | .http r => r.threw ∨ ¬ r.Answered ∨ ¬ r.Routed ∨ ∀ v, r.passedOn = some v → Understood v
  | .ftp _ => True
  | .gopher _ => True

def Called.retcode : Called → Int
  | .threw => DELETE_CONNECTION
  | .returned retcode => retcode

theorem Request.understood_iff (r : Request) : Understood r.controlConnection.retcode ↔ r.Clear := by
  cases r with
  | control r => exact control_understood_iff r
  | http r => exact http_understood_iff r
  | ftp r =>
    apply iff_of_true _ trivial
    unfold controlConnection Ftp.controlConnection Ftp.parseControlConnection
    dsimp only
    split_ifs <;> simp [Called.retcode]
  | gopher threw =>
    apply iff_of_true _ trivial
    unfold controlConnection Gopher.controlConnection
    dsimp only
    split_ifs <;> simp [Called.retcode]

end MyServer.Server
