import MyServer.Control.Header
import MyServer.Server.ReturnCodes

/-!
# The body of a control request

`ControlProtocol::controlConnection` up to the command (control_protocol.cpp), and the calls that
`ClientsThread::controlConnections` makes of it until a request is answered. A connection is the reads
that are still to come on it; when there are none, nothing comes for five seconds.
-/

open MyServer.Server.ClientsThread

namespace MyServer.Control

/-- An open `File`: what is in it, and where the next read or write is. -/
structure File where
  content : Str
  pos : Nat
  inside : pos ≤ content.length
  deriving DecidableEq

namespace File

/-- `createTemporaryFile`. -/
def temporary : File := ⟨[], 0, le_refl 0⟩

/-- A write of nothing is refused, and changes nothing. -/
def writeToFile (buffer : Str) (f : File) : File where
  content := f.content.take f.pos ++ buffer ++ f.content.drop (f.pos + buffer.length)
  pos := f.pos + buffer.length
  inside := by
    have hinside := f.inside
    simp only [List.length_append, List.length_take]
    omega

theorem ext {f g : File} (hcontent : f.content = g.content) (hpos : f.pos = g.pos) : f = g := by
  cases f
  cases g
  cases hcontent
  cases hpos
  rfl

/-- What was only ever written. -/
def written (content : Str) : File := ⟨content, content.length, le_refl _⟩

@[simp] theorem written_content (content : Str) : (written content).content = content := rfl

@[simp] theorem written_nil : temporary = written [] := rfl

@[simp] theorem writeToFile_written (buffer content : Str) :
    (written content).writeToFile buffer = written (content ++ buffer) := by
  apply ext <;> simp [writeToFile, written]

end File

/-- The settings of the protocol, MD5, and what memory holds: the field that `reset` leaves out, and the
bytes of older requests behind the one that was read. -/
structure ControlProtocol where
  controlEnabled : Bool
  adminLogin : Str
  adminPassword : Str
  md5 : Str → Str
  connection : Str
  left : Str → Str

/-- `int`, from what is added up as a `size_t`. -/
def toInt (n : Int) : Int := (BitVec.ofInt 32 n).toInt

namespace ControlProtocol

def checkAuth (p : ControlProtocol) (header : ControlHeader) : Bool :=
  p.controlEnabled && cstr p.adminPassword ≠ [] &&
    caseEq p.adminLogin (p.md5 header.authLogin) && caseEq p.adminPassword (p.md5 header.authPassword)

/-- The commands that are known. -/
def commands : List Str :=
  [ascii "SHOWCONNECTIONS", ascii "KILLCONNECTION", ascii "REBOOT", ascii "GETFILE", ascii "PUTFILE",
    ascii "DISABLEREBOOT", ascii "ENABLEREBOOT", ascii "VERSION"]

/-- What a call comes to: a command is carried out with `inFile`, or an error is sent. -/
inductive Answer where
  | executed (header : ControlHeader) (inFile : Option File)
  | refused (errID : ControlError)
  deriving DecidableEq

structure Call where
  answer : Option Answer
  retcode : Int
  unread : List Str
  deriving DecidableEq

/-- The loop that reads what did not come with the header. Its condition never changes. -/
def readBody (specifiedLength : Int) : Int → File → List Str → Option (Int × File × List Str)
  | _, _, [] => none
  | dataWritten, inFile, auxBuffer :: reads =>
    let dataWritten := toInt (dataWritten + auxBuffer.length)
    let inFile := inFile.writeToFile auxBuffer
    if specifiedLength ≤ dataWritten then some (dataWritten, inFile, reads)
    else readBody specifiedLength dataWritten inFile reads

/-- What is behind the reading of the body. -/
def perform (p : ControlProtocol) (header : ControlHeader) (inFile : Option File) (dataWritten : Int)
    (unread : List Str) : Call :=
  if ¬ caseEq header.version (ascii "CONTROL/1.0") then ⟨some (.refused .badVersion), 0, unread⟩
  else if ¬ p.checkAuth header then ⟨some (.refused .auth), 0, unread⟩
  else if dataWritten ≠ header.length then ⟨some (.refused .badLen), 0, unread⟩
  else if header.command ∈ commands then
    ⟨some (.executed header inFile),
      if caseEq header.connection (ascii "keep-alive") then KEEP_CONNECTION else DELETE_CONNECTION, unread⟩
  else ⟨some (.refused .cmdNotFound), DELETE_CONNECTION, unread⟩

def controlConnection (p : ControlProtocol) (request : Str) (reads : List Str) : Call :=
  match parse_header p.connection (request ++ 0 :: p.left request) request.length with
  | .incomplete => ⟨none, 2, reads⟩
  | .refused errID => ⟨some (.refused errID), 0, reads⟩
  | .ok header realHeaderLength =>
    let specifiedLength := header.length
    if specifiedLength = 0 then p.perform header none 0 reads
    -- nbtr - realHeaderLength is a size that no write takes, and `checked::write` throws
    else if request.length < realHeaderLength then ⟨none, DELETE_CONNECTION, reads⟩
    else
      let rest := request.drop realHeaderLength
      let inFile := File.temporary.writeToFile rest
      if specifiedLength = toInt rest.length then p.perform header (some inFile) (toInt rest.length) reads
      else
        match readBody specifiedLength (toInt rest.length) inFile reads with
        | none => ⟨some (.refused .badLen), 0, []⟩
        | some (dataWritten, inFile, unread) => p.perform header (some inFile) dataWritten unread

/-- The answer to the request whose first byte is the first that is kept, or else the first that comes,
and what is unread then. Bytes are kept for the next call when the call returns `INCOMPLETE_REQUEST`. -/
def answerTo (p : ControlProtocol) : Str → List Str → Option (Answer × List Str)
  | _, [] => none
  | kept, read :: reads =>
    let call := p.controlConnection (kept ++ read) reads
    if call.retcode = INCOMPLETE_REQUEST then p.answerTo (kept ++ read) reads
    else call.answer.map fun answer => (answer, call.unread)

/-- The server lets this client have this command. -/
def Accepts (p : ControlProtocol) (header : ControlHeader) : Prop :=
  caseEq header.version (ascii "CONTROL/1.0") ∧ p.checkAuth header ∧ header.command ∈ commands

instance (p : ControlProtocol) (header : ControlHeader) : Decidable (p.Accepts header) :=
  inferInstanceAs (Decidable (_ ∧ _ ∧ _))

end ControlProtocol

open ControlProtocol

/-- A control request: the bytes of its header, what they say, and the length of the body. -/
structure ControlRequest (p : ControlProtocol) where
  bytes : Str
  header : ControlHeader
  len : Nat
  parsed : parse_header p.connection bytes bytes.length = .ok header bytes.length
  length : header.length = len
  accepted : p.Accepts header

/-- What an input file holds; a command without a body has none. -/
def held (inFile : Option File) : Str := (inFile.map File.content).getD []

/-- The command is carried out with the body, and what is behind the body is left; or the body is too
short, and an error is all there is. -/
def Framed (p : ControlProtocol) (r : ControlRequest p) (behind : Str) (reads : List Str) : Prop :=
  if r.len ≤ behind.length then
    ∃ inFile unread, p.answerTo [] reads = some (.executed r.header inFile, unread) ∧
      held inFile = behind.take r.len ∧ unread.flatten = behind.drop r.len
  else ∃ errID unread, p.answerTo [] reads = some (.refused errID, unread)

/-- The first read has the whole header. -/
def HeaderFirst (p : ControlProtocol) (r : ControlRequest p) (reads : List Str) : Prop :=
  r.bytes.length ≤ (reads.headD []).length

/-- A read ends where the body ends. -/
def BodyCut (p : ControlProtocol) (r : ControlRequest p) (behind : Str) (reads : List Str) : Prop :=
  ∃ k, (reads.take k).flatten = r.bytes ++ behind.take r.len

/-- What was read first is refused at once. Where it is only a part of a header, bytes of older requests
can end it; then the request is no better than those. -/
def RefusedAtOnce (p : ControlProtocol) (first : Str) : Prop :=
  match parse_header p.connection (first ++ 0 :: p.left first) first.length with
  | .refused _ => True
  | .incomplete => False
  | .ok header _ => header.length = 0 ∧ ¬ p.Accepts header

/-! ## The reading loop -/

theorem toInt_of_lt {n : Nat} (h : n < 2 ^ 31) : toInt n = n := by
  unfold toInt
  rw [BitVec.toInt_ofInt, Int.bmod_eq_of_le] <;> omega

/-- The loop takes whole reads. -/
theorem readBody_some {specifiedLength dataWritten dataWritten' : Int} {content : Str} {inFile : File}
    {reads unread : List Str}
    (h : readBody specifiedLength dataWritten (File.written content) reads = some (dataWritten', inFile, unread)) :
    ∃ taken, reads = taken ++ unread ∧ inFile = File.written (content ++ taken.flatten) := by
  induction reads generalizing dataWritten content with
  | nil => exact absurd h nofun
  | cons read reads ih =>
    rw [readBody] at h
    simp only [File.writeToFile_written] at h
    split_ifs at h
    · obtain ⟨-, rfl, rfl⟩ := h
      exact ⟨[read], rfl, by simp⟩
    · obtain ⟨taken, rfl, rfl⟩ := ih h
      exact ⟨read :: taken, rfl, by simp⟩

/-- Where a read ends with the body, the loop ends with it. -/
theorem readBody_cut {n dataWritten : Nat} {content : Str} {taken unread : List Str} (hlt : n < 2 ^ 31)
    (htaken : taken ≠ []) (hne : ∀ read ∈ taken, read ≠ []) (hlen : dataWritten + taken.flatten.length = n) :
    readBody n dataWritten (File.written content) (taken ++ unread) =
      some ((n : Int), File.written (content ++ taken.flatten), unread) := by
  induction taken generalizing dataWritten content with
  | nil => exact absurd rfl htaken
  | cons read taken ih =>
    rw [List.flatten_cons, List.length_append] at hlen
    have hsum : toInt ((dataWritten : Int) + read.length) = (dataWritten + read.length : Nat) := by
      rw [← Nat.cast_add]
      exact toInt_of_lt (by omega)
    rw [List.cons_append, readBody]
    simp only [File.writeToFile_written, hsum]
    by_cases htail : taken = []
    · subst htail
      have hall : dataWritten + read.length = n := by simpa using hlen
      rw [if_pos (by omega), hall]
      simp
    · obtain ⟨next, taken, rfl⟩ := List.exists_cons_of_ne_nil htail
      have hpos : 0 < next.length := List.length_pos_of_ne_nil (hne next (by simp))
      have hrest : next.length ≤ (next :: taken).flatten.length := by simp
      rw [if_neg (by omega), ih htail (fun r hr => hne r (List.mem_cons_of_mem _ hr)) (by omega)]
      simp

/-- Where the body stays too short, the loop ends after five seconds. -/
theorem readBody_short {n dataWritten : Nat} {inFile : File} {reads : List Str} (hlt : n < 2 ^ 31)
    (hlen : dataWritten + reads.flatten.length < n) : readBody n dataWritten inFile reads = none := by
  induction reads generalizing dataWritten inFile with
  | nil => rfl
  | cons read reads ih =>
    rw [List.flatten_cons, List.length_append] at hlen
    have hsum : toInt ((dataWritten : Int) + read.length) = (dataWritten + read.length : Nat) := by
      rw [← Nat.cast_add]
      exact toInt_of_lt (by omega)
    rw [readBody]
    simp only [hsum]
    rw [if_neg (by omega)]
    exact ih (by omega)

/-! ## One call -/

@[simp] theorem perform_unread (p : ControlProtocol) (header : ControlHeader) (inFile : Option File)
    (dataWritten : Int) (unread : List Str) : (p.perform header inFile dataWritten unread).unread = unread := by
  unfold perform
  split_ifs <;> rfl

theorem perform_answer (p : ControlProtocol) (header : ControlHeader) (inFile : Option File)
    (dataWritten : Int) (unread : List Str) :
    (p.Accepts header ∧ dataWritten = header.length ∧
      (p.perform header inFile dataWritten unread).answer = some (.executed header inFile)) ∨
    (¬ (p.Accepts header ∧ dataWritten = header.length) ∧
      ∃ errID, (p.perform header inFile dataWritten unread).answer = some (.refused errID)) := by
  unfold perform Accepts
  split_ifs with hversion hauth hlen hcommand
  · exact .inr ⟨fun h => hlen h.2, _, rfl⟩
  · exact .inl ⟨⟨hversion, hauth, hcommand⟩, not_not.mp hlen, rfl⟩
  · exact .inl ⟨⟨hversion, hauth, hcommand⟩, not_not.mp hlen, rfl⟩
  · exact .inr ⟨fun h => hcommand h.1.2.2, _, rfl⟩
  · exact .inr ⟨fun h => hauth h.1.2.1, _, rfl⟩
  · exact .inr ⟨fun h => hversion h.1.1, _, rfl⟩

theorem perform_retcode (p : ControlProtocol) (header : ControlHeader) (inFile : Option File)
    (dataWritten : Int) (unread : List Str) :
    (p.perform header inFile dataWritten unread).retcode ≠ INCOMPLETE_REQUEST := by
  unfold perform
  split_ifs <;> simp [INCOMPLETE_REQUEST, KEEP_CONNECTION, DELETE_CONNECTION]

/-- The protocol never asks for the rest of a request. -/
theorem controlConnection_retcode (p : ControlProtocol) (request : Str) (reads : List Str) :
    (p.controlConnection request reads).retcode ≠ INCOMPLETE_REQUEST := by
  unfold controlConnection
  split
  · exact (by decide : (2 : Int) ≠ INCOMPLETE_REQUEST)
  · exact (by decide : (0 : Int) ≠ INCOMPLETE_REQUEST)
  · dsimp only
    split_ifs
    · exact perform_retcode _ _ _ _ _
    · exact (by decide : DELETE_CONNECTION ≠ INCOMPLETE_REQUEST)
    · exact perform_retcode _ _ _ _ _
    · split
      · exact (by decide : (0 : Int) ≠ INCOMPLETE_REQUEST)
      · exact perform_retcode _ _ _ _ _

/-- So what came first is all that the answer is given to. -/
theorem answerTo_cons (p : ControlProtocol) (read : Str) (reads : List Str) :
    p.answerTo [] (read :: reads) = (p.controlConnection read reads).answer.map fun answer =>
      (answer, (p.controlConnection read reads).unread) := by
  rw [answerTo, List.nil_append]
  exact if_neg (controlConnection_retcode p read reads)

/-- What a command that is carried out had for its input. -/
theorem controlConnection_executed {p : ControlProtocol} {request : Str} {reads : List Str} {header : ControlHeader}
    {inFile : Option File} (h : (p.controlConnection request reads).answer = some (.executed header inFile)) :
    ∃ realHeaderLength,
      (header.length = 0 ∧ inFile = none ∧ (p.controlConnection request reads).unread = reads) ∨
      (header.length ≠ 0 ∧ realHeaderLength ≤ request.length ∧
        ∃ taken, reads = taken ++ (p.controlConnection request reads).unread ∧
          inFile = some (File.written (request.drop realHeaderLength ++ taken.flatten))) := by
  have hperform : ∀ {header' inFile' dataWritten unread},
      (p.perform header' inFile' dataWritten unread).answer = some (.executed header inFile) →
      header' = header ∧ inFile' = inFile := by
    intro header' inFile' dataWritten unread hanswer
    rcases perform_answer p header' inFile' dataWritten unread with ⟨-, -, hgot⟩ | ⟨-, errID, hgot⟩
    · exact Answer.executed.inj (Option.some.inj (hgot.symm.trans hanswer))
    · exact absurd (Option.some.inj (hgot.symm.trans hanswer)) nofun
  unfold controlConnection at h ⊢
  cases hparse : parse_header p.connection (request ++ 0 :: p.left request) request.length with
  | incomplete => exact absurd h (by rw [hparse]; nofun)
  | refused errID => exact absurd h (by rw [hparse]; nofun)
  | ok header' realHeaderLength =>
    rw [hparse] at h
    dsimp only at h ⊢
    refine ⟨realHeaderLength, ?_⟩
    split_ifs at h ⊢ with hzero hshort hrest
    · obtain ⟨rfl, rfl⟩ := hperform h
      exact .inl ⟨hzero, rfl, perform_unread ..⟩
    · obtain ⟨rfl, rfl⟩ := hperform h
      exact .inr ⟨hzero, by omega, [], by simp⟩
    · cases hbody : readBody header'.length (toInt (request.drop realHeaderLength).length)
          (File.temporary.writeToFile (request.drop realHeaderLength)) reads with
      | none =>
        rw [hbody] at h
        exact absurd h nofun
      | some read =>
        obtain ⟨dataWritten, file, unread⟩ := read
        rw [hbody] at h
        dsimp only at h ⊢
        obtain ⟨rfl, rfl⟩ := hperform h
        rw [File.written_nil, File.writeToFile_written] at hbody
        obtain ⟨taken, htaken, rfl⟩ := readBody_some hbody
        exact .inr ⟨hzero, by omega, taken, by rw [perform_unread]; exact htaken, rfl⟩

/-- The position in an input file is behind all that was written. -/
theorem answerTo_written {p : ControlProtocol} {reads unread : List Str} {header : ControlHeader} {inFile : Option File}
    (h : p.answerTo [] reads = some (.executed header inFile, unread)) :
    inFile = none ∨ ∃ body, inFile = some (File.written body) := by
  cases reads with
  | nil => exact absurd h nofun
  | cons read reads =>
    rw [answerTo_cons, Option.map_eq_some_iff] at h
    obtain ⟨answer, hanswer, heq⟩ := h
    obtain ⟨rfl, -⟩ := Prod.mk.inj heq
    obtain ⟨_, ⟨-, hnone, -⟩ | ⟨-, -, _, -, hsome⟩⟩ := controlConnection_executed hanswer
    · exact .inl hnone
    · exact .inr ⟨_, hsome⟩

/-! ## A request -/

namespace ControlRequest

variable {p : ControlProtocol} (r : ControlRequest p)

theorem bytes_ne_nil : r.bytes ≠ [] := by
  intro hnil
  have hparsed := r.parsed
  rw [hnil] at hparsed
  exact absurd hparsed nofun

theorem len_lt : r.len < 2 ^ 31 := by
  have hlt := parse_header_length r.parsed
  rw [r.length] at hlt
  exact_mod_cast hlt

/-- The header is read from the first read that has it. -/
theorem parse_first (first : Str) :
    parse_header p.connection ((r.bytes ++ first) ++ 0 :: p.left (r.bytes ++ first)) (r.bytes ++ first).length =
      .ok r.header r.bytes.length := by
  rw [List.append_assoc]
  exact parse_header_append r.parsed (by simp [r.bytes_ne_nil]) _

/-- What the call does that reads the whole header, with so much of the body. -/
theorem controlConnection_first (body : Str) (reads : List Str) :
    p.controlConnection (r.bytes ++ body) reads =
      if r.len = 0 then p.perform r.header none 0 reads
      else if (r.len : Int) = toInt body.length then
        p.perform r.header (some (File.written body)) (toInt body.length) reads
      else
        match readBody r.len (toInt body.length) (File.written body) reads with
        | none => ⟨some (.refused .badLen), 0, []⟩
        | some (dataWritten, inFile, unread) => p.perform r.header (some inFile) dataWritten unread := by
  have hshort : ¬ (r.bytes ++ body).length < r.bytes.length := by simp
  have hwritten : File.temporary.writeToFile body = File.written body := by simp
  unfold controlConnection
  rw [r.parse_first]
  dsimp only
  rw [if_neg hshort, List.drop_left, r.length, hwritten]
  simp only [Nat.cast_eq_zero]

theorem perform_accepted (inFile : Option File) (unread : List Str) :
    (p.perform r.header inFile r.len unread).answer = some (.executed r.header inFile) := by
  rcases perform_answer p r.header inFile r.len unread with ⟨-, -, hanswer⟩ | ⟨hnot, -⟩
  · exact hanswer
  · exact absurd ⟨r.accepted, r.length.symm⟩ hnot

/-- A part of the header has no end that an older request did not leave. -/
theorem le_of_parse {first rest : Str} (hbytes : r.bytes = first ++ rest) {header : ControlHeader} {len : Nat}
    (h : parse_header p.connection (first ++ 0 :: p.left first) first.length = .ok header len)
    (hle : len ≤ first.length) : r.bytes.length ≤ first.length := by
  have hparse := parse_header_append (parse_header_nul h hle) (n := r.bytes.length)
    (by simp [r.bytes_ne_nil]) rest
  rw [← hbytes, r.parsed] at hparse
  rw [(Parsed.ok.inj hparse).2]
  exact hle

end ControlRequest

section

variable {p : ControlProtocol} {r : ControlRequest p} {behind : Str} {reads : List Str}

theorem reads_cons (hsplit : reads.flatten = r.bytes ++ behind) : ∃ first rest, reads = first :: rest := by
  refine List.exists_cons_of_ne_nil ?_
  rintro rfl
  exact r.bytes_ne_nil (List.append_eq_nil_iff.mp hsplit.symm).1

/-- A request that is carried out as it should be was cut as it should be. -/
theorem cut_of_executed (hsplit : reads.flatten = r.bytes ++ behind) {inFile : Option File} {unread : List Str}
    (hanswer : p.answerTo [] reads = some (.executed r.header inFile, unread))
    (hheld : held inFile = behind.take r.len) (hunread : unread.flatten = behind.drop r.len) :
    HeaderFirst p r reads ∧ BodyCut p r behind reads := by
  obtain ⟨first, rest, rfl⟩ := reads_cons hsplit
  rw [answerTo_cons, Option.map_eq_some_iff] at hanswer
  obtain ⟨answer, hanswer, heq⟩ := hanswer
  obtain ⟨rfl, rfl⟩ := Prod.mk.inj heq
  rw [List.flatten_cons] at hsplit
  obtain ⟨used, ⟨hzero, -, hall⟩ | ⟨hlen, hused, taken, htaken, rfl⟩⟩ := controlConnection_executed hanswer
  · have hn : r.len = 0 := by
      have hlength := r.length
      omega
    rw [hall, hn, List.drop_zero] at hunread
    rw [hunread] at hsplit
    have hfirst : first = r.bytes := List.append_cancel_right hsplit
    exact ⟨le_of_eq (by simp [hfirst]), 1, by simp [hfirst, hn]⟩
  · have hbefore : first ++ taken.flatten = r.bytes ++ behind.take r.len := by
      apply @List.append_cancel_right _ _ (behind.drop r.len)
      rw [List.append_assoc, List.append_assoc, List.take_append_drop, ← hunread, ← List.flatten_append, ← htaken,
        hsplit]
    refine ⟨?_, taken.length + 1, ?_⟩
    · have hcount := congrArg List.length hbefore
      have hbody := congrArg List.length hheld
      simp only [held, Option.map_some, Option.getD_some, File.written_content, List.length_append, List.length_take,
        List.length_drop] at hcount hbody
      simp only [HeaderFirst, List.headD_cons]
      omega
    · rw [List.take_succ_cons, htaken, List.take_left, List.flatten_cons, hbefore]

/-- The first read, when the header is in it. -/
theorem header_read (hsplit : reads.flatten = r.bytes ++ behind) (hfirst : HeaderFirst p r reads) :
    ∃ body rest, reads = (r.bytes ++ body) :: rest ∧ body ++ rest.flatten = behind := by
  obtain ⟨first, rest, rfl⟩ := reads_cons hsplit
  rw [List.flatten_cons] at hsplit
  obtain ⟨body, rfl⟩ : r.bytes <+: first := by
    refine List.prefix_of_prefix_length_le (List.prefix_append r.bytes behind) ?_ hfirst
    exact hsplit ▸ List.prefix_append _ _
  rw [List.append_assoc, List.append_cancel_left_eq] at hsplit
  exact ⟨body, rest, rfl, hsplit⟩

/-- A request that is cut as it should be is carried out as it should be. -/
theorem executed_of_cut (hsplit : reads.flatten = r.bytes ++ behind) (hne : ∀ read ∈ reads, read ≠ [])
    (hle : r.len ≤ behind.length) (hfirst : HeaderFirst p r reads) (hcut : BodyCut p r behind reads) :
    ∃ inFile unread, p.answerTo [] reads = some (.executed r.header inFile, unread) ∧
      held inFile = behind.take r.len ∧ unread.flatten = behind.drop r.len := by
  obtain ⟨body, rest, rfl, hbehind⟩ := header_read hsplit hfirst
  obtain ⟨k, hk⟩ := hcut
  obtain ⟨j, rfl⟩ : ∃ j, k = j + 1 := by
    refine Nat.exists_eq_succ_of_ne_zero ?_
    rintro rfl
    exact r.bytes_ne_nil (List.append_eq_nil_iff.mp hk.symm).1
  rw [List.take_succ_cons, List.flatten_cons, List.append_assoc, List.append_cancel_left_eq] at hk
  have hcount := congrArg List.length hk
  rw [List.length_append, List.length_take_of_le hle] at hcount
  have hlt := r.len_lt
  have hbody : toInt body.length = body.length := toInt_of_lt (by omega)
  rw [answerTo_cons, r.controlConnection_first, hbody]
  split_ifs with hzero hall
  · -- nothing is behind the header in the first read
    have hnil : body = [] := List.length_eq_zero_iff.mp (by omega)
    have hanswer := r.perform_accepted none rest
    rw [hzero, Nat.cast_zero] at hanswer
    refine ⟨none, rest, by rw [hanswer, perform_unread]; rfl, by simp [held, hzero], ?_⟩
    rw [hzero, List.drop_zero, ← hbehind, hnil, List.nil_append]
  · -- the first read has the body too
    have hlen : r.len = body.length := by exact_mod_cast hall
    rw [← hall, r.perform_accepted, perform_unread]
    refine ⟨some (File.written body), rest, rfl, ?_, ?_⟩
    · rw [← hbehind, hlen, List.take_left]
      rfl
    · rw [← hbehind, hlen, List.drop_left]
  · -- the loop stops at the same read
    have htaken : rest.take j ≠ [] := by
      intro hnil
      rw [hnil] at hcount
      simp only [List.flatten_nil, List.length_nil] at hcount
      omega
    have hloop := @readBody_cut r.len body.length body (rest.take j) (rest.drop j) hlt htaken
      (fun read hread => hne read (List.mem_cons_of_mem _ (List.mem_of_mem_take hread))) hcount
    rw [List.take_append_drop] at hloop
    rw [hloop]
    dsimp only
    rw [r.perform_accepted, perform_unread]
    refine ⟨_, rest.drop j, rfl, ?_, ?_⟩
    · rw [← hk]
      rfl
    · have hdrop := congrArg (List.drop r.len) hbehind
      rw [← hdrop]
      conv_rhs => rw [← List.take_append_drop j rest, List.flatten_append, ← List.append_assoc]
      rw [← hcount, ← List.length_append, List.drop_left]

/-- A body that is too short is refused, once the header is read. -/
theorem refused_of_first (hsplit : reads.flatten = r.bytes ++ behind) (hlt : behind.length < r.len)
    (hfirst : HeaderFirst p r reads) :
    ∃ errID unread, p.answerTo [] reads = some (.refused errID, unread) := by
  obtain ⟨body, rest, rfl, hbehind⟩ := header_read hsplit hfirst
  have hcount := congrArg List.length hbehind
  rw [List.length_append] at hcount
  have hmax := r.len_lt
  have hbody : toInt body.length = body.length := toInt_of_lt (by omega)
  have hloop : readBody r.len body.length (File.written body) rest = none := readBody_short hmax (by omega)
  rw [answerTo_cons, r.controlConnection_first, hbody, if_neg (by omega), if_neg (by omega), hloop]
  exact ⟨_, _, rfl⟩

/-- A request whose header was not read is refused when what was read is. -/
theorem refused_iff_of_part (hsplit : reads.flatten = r.bytes ++ behind) (hfirst : ¬ HeaderFirst p r reads) :
    (∃ errID unread, p.answerTo [] reads = some (.refused errID, unread)) ↔ RefusedAtOnce p (reads.headD []) := by
  obtain ⟨first, rest, rfl⟩ := reads_cons hsplit
  rw [List.flatten_cons] at hsplit
  rw [List.headD_cons]
  simp only [HeaderFirst, List.headD_cons, not_le] at hfirst
  obtain ⟨more, hmore⟩ : first <+: r.bytes := by
    refine List.prefix_of_prefix_length_le ?_ (List.prefix_append r.bytes behind) hfirst.le
    exact hsplit ▸ List.prefix_append _ _
  rw [answerTo_cons]
  unfold RefusedAtOnce controlConnection
  cases hparse : parse_header p.connection (first ++ 0 :: p.left first) first.length with
  | incomplete => simp
  | refused errID => simp
  | ok header len =>
    have hshort : first.length < len := by
      by_contra hle
      exact absurd (r.le_of_parse hmore.symm hparse (not_lt.mp hle)) (not_le.mpr hfirst)
    dsimp only
    rw [if_pos hshort]
    by_cases hzero : header.length = 0
    · rw [if_pos hzero]
      rcases perform_answer p header none 0 rest with ⟨haccepts, -, hanswer⟩ | ⟨hnot, errID, hanswer⟩
      · simp [hanswer, hzero, haccepts]
      · have hrefused : ¬ p.Accepts header := fun haccepts => hnot ⟨haccepts, hzero.symm⟩
        simp [hanswer, hzero, hrefused]
    · rw [if_neg hzero]
      simp [hzero]

end

/-- The administrator `a` with the password `b`. -/
def admin : ControlProtocol where
  controlEnabled := true
  adminLogin := ascii "0cc175b9c0f1b6a831c399e269772661"
  adminPassword := ascii "92eb5ffee6ae2fec3ad71c777531578f"
  md5 text := if text = ascii "a" then ascii "0cc175b9c0f1b6a831c399e269772661"
    else if text = ascii "b" then ascii "92eb5ffee6ae2fec3ad71c777531578f"
    else ascii "d41d8cd98f00b204e9800998ecf8427e"
  connection := []
  left _ := []

def onePut : ControlRequest admin where
  bytes := ascii "/PUTFILE CONTROL/1.0 f\r\n/AUTH a:b\r\n/LEN 1\r\n\r\n"
  header := ⟨ascii "PUTFILE", ascii "f", ascii "a", ascii "b", ascii "CONTROL/1.0", [], 1⟩
  len := 1
  parsed := by
    repeat rw [ascii_ofList]
    decide
  length := rfl
  accepted := by
    unfold admin
    repeat rw [ascii_ofList]
    decide

end MyServer.Control
