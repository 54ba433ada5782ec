import MyServer.Ftp.ControlLines

/-!
# What becomes of the reads of a control connection (ftp_parser.ypp, ftp.cpp, clients_thread.cpp)

What the commands do to a session is a parameter, and so is the grammar of a line. The parser never asks for the
rest of a line, so that nothing of a read is kept for the next.
-/

open MyServer.Server.ClientsThread

namespace MyServer.FtpControl

/-- `m_nFtpstate`. -/
inductive Ftpstate
  | noControlConnection
  | buisy
  | unavailable
  | controlConnectionUp
  | userLoggedIn
  | dataConnectionUp
deriving DecidableEq

structure Interpreter (σ Command : Type) where
  state : σ → Ftpstate
  setState : σ → Ftpstate → σ
  /-- The grammar, on a line without its CRLF. -/
  recognise : Str → Option Command
  /-- `none` is an exception. -/
  exec : Command → σ → Option σ

/-- What `yyparse` comes to, with an exception of a command. -/
inductive Parsed
  | accepted
  | syntaxError
  | threw
deriving DecidableEq

/-- What else there is at one read. -/
structure Turn where
  overload : Bool
  rebooting : Bool

structure Session (σ : Type) (Command : Type) where
  socket : List Str
  connectionBuffer : Str
  user : σ
  live : Bool
  executed : List Command

variable {σ Command : Type} (ftp : Interpreter σ Command)

/-- The actions stand at the ends of the lines. -/
def parseLines (open' : Str) : List Str → σ → List Command × σ × Parsed
  | [], user => ([], user, if open' = [] then .accepted else .syntaxError)
  | line :: lines, user =>
    match ftp.recognise line with
    | none => ([], user, .syntaxError)
    | some command =>
      match ftp.exec command user with
      | none => ([command], user, .threw)
      | some user =>
        let rest := parseLines open' lines user
        (command :: rest.1, rest.2)

def yyparse (text : Str) (user : σ) : List Command × σ × Parsed :=
  parseLines ftp (unfinished text) (complete text) user

def parseControlConnection (content : Str) (user : σ) : List Command × σ × Int :=
  let user := if ftp.state user = .noControlConnection then ftp.setState user .controlConnectionUp else user
  let (executed, user, parsed) := yyparse ftp (cstr (escapeTelnet content)) user
  (executed, user,
    if parsed = .accepted ∧ ftp.state user ≠ .noControlConnection then KEEP_CONNECTION else DELETE_CONNECTION)

def controlConnection (turn : Turn) (content : Str) (user : σ) : List Command × σ × Int :=
  let user := if turn.overload then ftp.setState user .buisy else user
  if turn.rebooting then ([], ftp.setState user .unavailable, DELETE_CONNECTION)
  else parseControlConnection ftp content user

namespace Session

/-- A connection without data is not served. -/
def controlConnections (s : Session σ Command) (turn : Turn) : Session σ Command :=
  if s.live = false ∨ s.socket = [] then s
  else
    let (read, socket) := Fragments.take (2 ^ 13 - s.connectionBuffer.length - 1) s.socket
    if read = [] then { s with live := false }
    else
      let content := s.connectionBuffer ++ read
      let (executed, user, retcode) := controlConnection ftp turn content s.user
      let s := { s with socket := socket, user := user, executed := s.executed ++ executed }
      if retcode = DELETE_CONNECTION then { s with live := false }
      else if retcode = KEEP_CONNECTION then { s with connectionBuffer := [] }
      else if retcode = INCOMPLETE_REQUEST then { s with connectionBuffer := content }
      else s

/-- With the session that the connection has at its first read. -/
def start (socket : List Str) (user : σ) : Session σ Command := ⟨socket, [], user, true, []⟩

def run (turns : List Turn) (s : Session σ Command) : Session σ Command := turns.foldl (controlConnections ftp) s

end Session

/-- A line of the grammar, without its CRLF, a NUL or a telnet code. -/
structure IsLine (line : Str) : Prop where
  cr : CR ∉ line
  nul : (0 : Byte) ∉ line
  iac : (255 : Byte) ∉ line
  recognised : said line ≠ [] → ftp.recognise (said line) ≠ none

/-- What the lines say: an empty line is ignored. -/
def commands (lines : List Str) : List Command := ((lines.map said).filter (· ≠ [])).filterMap ftp.recognise

/-- The commands are executed, each once and in order, and the connection stays open. -/
def Carried (turns : List Turn) (reads lines : List Str) (user : σ) : Prop :=
  (Session.run ftp turns (Session.start reads user)).executed = commands ftp lines ∧
    (Session.run ftp turns (Session.start reads user)).live = true

/-- How a turn finds the session. -/
def found (turn : Turn) (user : σ) : σ :=
  let user := if turn.overload then ftp.setState user .buisy else user
  if ftp.state user = .noControlConnection then ftp.setState user .controlConnectionUp else user

/-- No command throws or leaves the control connection down behind a read, and no read comes in a reboot. -/
def Undisturbed : List (Turn × Str) → σ → Prop
  | [], _ => True
  | (turn, read) :: rest, user =>
    turn.rebooting = false ∧
      ∃ user', ((complete read).filterMap ftp.recognise).foldlM (fun user command => ftp.exec command user)
          (found ftp turn user) = some user' ∧
        ftp.state user' ≠ .noControlConnection ∧ Undisturbed rest user'

/-! ## One read -/

section

variable {ftp} {user user' : σ} {turn : Turn} {content : Str}

theorem parseLines_accepted_iff {open' : Str} {lines : List Str} :
    (parseLines ftp open' lines user).2 = (user', .accepted) ↔
      open' = [] ∧ (∀ line ∈ lines, ftp.recognise line ≠ none) ∧
        (lines.filterMap ftp.recognise).foldlM (fun user command => ftp.exec command user) user = some user' := by
  induction lines generalizing user with
  | nil =>
    by_cases hopen : open' = [] <;> simp [parseLines, hopen]
  | cons line lines ih =>
    rw [parseLines]
    cases hline : ftp.recognise line with
    | none => simp [hline]
    | some command =>
      cases hexec : ftp.exec command user with
      | none => simp [hline, hexec]
      | some user₁ =>
        simp [hline, hexec, ih]

theorem parseLines_executed {open' : Str} {lines : List Str}
    (h : (parseLines ftp open' lines user).2.2 = .accepted) :
    (parseLines ftp open' lines user).1 = lines.filterMap ftp.recognise := by
  induction lines generalizing user with
  | nil => rfl
  | cons line lines ih =>
    rw [parseLines] at h ⊢
    cases hline : ftp.recognise line with
    | none => simp [hline] at h
    | some command =>
      cases hexec : ftp.exec command user with
      | none => simp [hline, hexec] at h
      | some user₁ =>
        simp only [hline, hexec] at h ⊢
        rw [ih h, List.filterMap_cons_some hline]

/-- What keeps the connection behind a read. -/
structure Kept (ftp : Interpreter σ Command) (turn : Turn) (content : Str) (user user' : σ) : Prop where
  closed : unfinished content = []
  recognised : ∀ line ∈ complete content, ftp.recognise line ≠ none
  running : turn.rebooting = false
  executed : ((complete content).filterMap ftp.recognise).foldlM (fun user command => ftp.exec command user)
    (found ftp turn user) = some user'
  up : ftp.state user' ≠ .noControlConnection

theorem controlConnection_eq (hnul : (0 : Byte) ∉ content) (hiac : (255 : Byte) ∉ content)
    (hrunning : turn.rebooting = false) : controlConnection ftp turn content user =
      let p := parseLines ftp (unfinished content) (complete content) (found ftp turn user)
      (p.1, p.2.1,
        if p.2.2 = .accepted ∧ ftp.state p.2.1 ≠ .noControlConnection then KEEP_CONNECTION else DELETE_CONNECTION) := by
  unfold controlConnection parseControlConnection yyparse
  rw [escapeTelnet_of_notMem hiac, cstr_of_notMem hnul, hrunning]
  rfl

theorem controlConnection_kept (hnul : (0 : Byte) ∉ content) (hiac : (255 : Byte) ∉ content)
    (h : Kept ftp turn content user user') :
    controlConnection ftp turn content user =
      ((complete content).filterMap ftp.recognise, user', KEEP_CONNECTION) := by
  have hparsed := parseLines_accepted_iff.mpr ⟨h.closed, h.recognised, h.executed⟩
  have hexecuted := parseLines_executed (congrArg Prod.snd hparsed)
  rw [controlConnection_eq hnul hiac h.running]
  simp [hparsed, hexecuted, h.up]

theorem controlConnection_lost (hnul : (0 : Byte) ∉ content) (hiac : (255 : Byte) ∉ content)
    (h : ∀ user', ¬ Kept ftp turn content user user') :
    (controlConnection ftp turn content user).2.2 = DELETE_CONNECTION := by
  by_cases hrunning : turn.rebooting = false
  · rw [controlConnection_eq hnul hiac hrunning]
    dsimp only
    rw [if_neg]
    rintro ⟨hparsed, hup⟩
    obtain ⟨hclosed, hrecognised, hexecuted⟩ := parseLines_accepted_iff.mp (Prod.ext rfl hparsed)
    exact h _ ⟨hclosed, hrecognised, hrunning, hexecuted, hup⟩
  · unfold controlConnection
    simp [hrunning]

/-! ## All of them -/

variable {read : Str} {reads : List Str} {executed : List Command}

/-- What `recv` can give at once, without a NUL or a telnet code. -/
structure IsRead (read : Str) : Prop where
  some : read ≠ []
  short : read.length < 2 ^ 13
  nul : (0 : Byte) ∉ read
  iac : (255 : Byte) ∉ read

theorem controlConnections_eq (hread : IsRead read) :
    Session.controlConnections ftp ⟨read :: reads, [], user, true, executed⟩ turn =
      let r := controlConnection ftp turn read user
      if r.2.2 = DELETE_CONNECTION then ⟨reads, [], r.2.1, false, executed ++ r.1⟩
      else if r.2.2 = KEEP_CONNECTION then ⟨reads, [], r.2.1, true, executed ++ r.1⟩
      else if r.2.2 = INCOMPLETE_REQUEST then ⟨reads, read, r.2.1, true, executed ++ r.1⟩
      else ⟨reads, [], r.2.1, true, executed ++ r.1⟩ := by
  have hshort := hread.short
  have htake : Fragments.take (2 ^ 13 - ([] : Str).length - 1) (read :: reads) = (read, reads) := by
    rw [Fragments.take, List.length_nil, List.take_of_length_le (by omega), if_pos (by omega)]
  unfold Session.controlConnections
  simp only [htake, hread.some, List.nil_append]
  simp

theorem controlConnections_kept (hread : IsRead read) (h : Kept ftp turn read user user') :
    Session.controlConnections ftp ⟨read :: reads, [], user, true, executed⟩ turn =
      ⟨reads, [], user', true, executed ++ (complete read).filterMap ftp.recognise⟩ := by
  rw [controlConnections_eq hread, controlConnection_kept hread.nul hread.iac h]
  rfl

theorem controlConnections_lost (hread : IsRead read) (h : ∀ user', ¬ Kept ftp turn read user user') :
    (Session.controlConnections ftp ⟨read :: reads, [], user, true, executed⟩ turn).live = false := by
  rw [controlConnections_eq hread]
  dsimp only
  rw [if_pos (controlConnection_lost hread.nul hread.iac h)]

theorem run_dead (turns : List Turn) {s : Session σ Command} (h : s.live = false) : s.run ftp turns = s := by
  induction turns with
  | nil => rfl
  | cons turn turns ih =>
    rw [Session.run, List.foldl_cons, Session.controlConnections, if_pos (Or.inl h)]
    exact ih

/-- **Of a text that the grammar takes, every read has to end behind a line.** -/
theorem run_iff {turns : List Turn} (hturns : turns.length = reads.length) (hreads : ∀ read ∈ reads, IsRead read)
    (hclosed : unfinished reads.flatten = [])
    (hrecognised : ∀ line ∈ complete reads.flatten, ftp.recognise line ≠ none) :
    let s := Session.run ftp turns ⟨reads, [], user, true, executed⟩
    (s.executed = executed ++ (complete reads.flatten).filterMap ftp.recognise ∧ s.live = true) ↔
      (∀ read ∈ reads, unfinished read = []) ∧ Undisturbed ftp (turns.zip reads) user := by
  induction reads generalizing turns user executed with
  | nil =>
    obtain rfl := List.length_eq_zero_iff.mp hturns
    simp [Session.run, Undisturbed, complete, lexLines]
  | cons read reads ih =>
    obtain ⟨turn, turns, rfl⟩ := List.exists_cons_of_length_eq_add_one hturns
    obtain ⟨hread, hreads⟩ := List.forall_mem_cons.mp hreads
    rw [List.flatten_cons] at hclosed hrecognised ⊢
    rw [List.forall_mem_cons, List.zip_cons_cons, Undisturbed]
    by_cases hkept : ∃ user', Kept ftp turn read user user'
    · obtain ⟨user', hkept⟩ := hkept
      rw [unfinished_append _ hkept.closed] at hclosed
      rw [complete_append _ hkept.closed] at hrecognised ⊢
      have hrest := @ih user' (executed ++ (complete read).filterMap ftp.recognise) turns (Nat.succ.inj hturns) hreads
        hclosed fun line hline => hrecognised line (List.mem_append_right _ hline)
      rw [Session.run, List.foldl_cons, controlConnections_kept hread hkept, List.filterMap_append, ← List.append_assoc]
      simp [hkept.closed, hkept.running, hkept.executed, hkept.up, ← hrest, Session.run]
    · have hdead := @controlConnections_lost _ _ ftp user turn read reads executed hread fun user' h => hkept ⟨user', h⟩
      refine iff_of_false ?_ ?_
      · rintro ⟨-, hlive⟩
        rw [Session.run, List.foldl_cons, ← Session.run, run_dead turns hdead, hdead] at hlive
        cases hlive
      · rintro ⟨⟨hend, -⟩, hrunning, user', hexecuted, hup, -⟩
        rw [complete_append _ hend] at hrecognised
        exact hkept ⟨user', hend, fun line hline => hrecognised line (List.mem_append_left _ hline), hrunning,
          hexecuted, hup⟩

/-- **The commands of the lines are carried out and the connection stays open just when every read ends behind a
line** and nothing disturbs them: a line that a read cuts is not kept for the next. -/
theorem linesCarried_iff {turns : List Turn} {lines : List Str} (hlines : ∀ line ∈ lines, IsLine ftp line)
    (hturns : turns.length = reads.length) (hreads : ∀ read ∈ reads, read ≠ [] ∧ read.length < 2 ^ 13)
    (htext : reads.flatten = lines.flatMap (· ++ crlf)) :
    Carried ftp turns reads lines user ↔
      (∀ read ∈ reads, unfinished read = []) ∧ Undisturbed ftp (turns.zip reads) user := by
  have hlex := lexLines_lines fun line hline => (hlines line hline).cr
  have hclosed : unfinished reads.flatten = [] := by rw [htext, unfinished, hlex]
  have hcomplete : complete reads.flatten = (lines.map said).filter (· ≠ []) := by rw [htext, complete, hlex]
  have hclean : ∀ b, b ∉ crlf → (∀ line ∈ lines, b ∉ line) → ∀ read ∈ reads, b ∉ read := by
    intro b hb hnone read hread hmem
    have hflat : b ∈ reads.flatten := List.mem_flatten_of_mem hread hmem
    rw [htext, List.mem_flatMap] at hflat
    obtain ⟨line, hline, h⟩ := hflat
    exact (List.mem_append.mp h).elim (hnone line hline) hb
  have hnul := hclean 0 (by decide) fun line hline => (hlines line hline).nul
  have hiac := hclean 255 (by decide) fun line hline => (hlines line hline).iac
  have hrecognised : ∀ line ∈ complete reads.flatten, ftp.recognise line ≠ none := by
    intro line hline
    rw [hcomplete, List.mem_filter, List.mem_map] at hline
    obtain ⟨⟨line, hmem, rfl⟩, hne⟩ := hline
    exact (hlines line hmem).recognised (by simpa using hne)
  have hrun := @run_iff _ _ ftp user reads [] turns hturns
    (fun read hread => ⟨(hreads read hread).1, (hreads read hread).2, hnul read hread, hiac read hread⟩) hclosed
    hrecognised
  rw [hcomplete] at hrun
  exact hrun

end

/-- NOOP and QUIT. -/
def noopQuit : Interpreter Ftpstate Bool where
  state := id
  setState := fun _ state => state
  recognise := fun line =>
    if caseEq line (ascii "NOOP") then some false else if caseEq line (ascii "QUIT") then some true else none
  exec := fun quit state => some (if quit then .noControlConnection else state)

theorem isLine_noop : IsLine noopQuit (ascii "NOOP") := ⟨by decide, by decide, by decide, fun _ => by decide⟩

theorem linesCarried_two_noops :
    Carried noopQuit [⟨false, false⟩] [ascii "NOOP" ++ crlf ++ ascii "NOOP" ++ crlf] [ascii "NOOP", ascii "NOOP"]
        .userLoggedIn ↔
      (∀ read ∈ [ascii "NOOP" ++ crlf ++ ascii "NOOP" ++ crlf], unfinished read = []) ∧
        Undisturbed noopQuit ([⟨false, false⟩].zip [ascii "NOOP" ++ crlf ++ ascii "NOOP" ++ crlf]) .userLoggedIn :=
  linesCarried_iff (by simp [isLine_noop]) rfl (by decide) (by decide)

/-- A NOOP that comes in two reads closes the connection. -/
theorem not_linesCarried : IsLine noopQuit (ascii "NOOP") ∧
    [ascii "NO", ascii "OP" ++ crlf].flatten = [ascii "NOOP"].flatMap (· ++ crlf) ∧
    ¬ Carried noopQuit [⟨false, false⟩, ⟨false, false⟩] [ascii "NO", ascii "OP" ++ crlf] [ascii "NOOP"]
      .userLoggedIn := by
  refine ⟨isLine_noop, by decide, ?_⟩
  rintro ⟨-, hlive⟩
  exact absurd hlive (by decide)

end MyServer.FtpControl
