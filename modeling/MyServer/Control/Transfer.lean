import MyServer.Control.Framing

/-!
# PUTFILE and GETFILE

`ControlProtocol::putFile`, `getFile` and `sendResponse` (control_protocol.cpp). The files are what their
paths lead to; a path can be written, and one that leads to a file can be read.
-/

namespace MyServer.Control

abbrev Files := Str → Option Str

namespace File

/-- `read`: so many bytes at most, from where the position is. -/
def read (buffersize : Nat) (f : File) : Str × File :=
  ((f.content.drop f.pos).take buffersize,
    { f with
      pos := f.pos + ((f.content.drop f.pos).take buffersize).length
      inside := by
        have hinside := f.inside
        rw [List.length_take, List.length_drop]
        omega })

/-- `seek (0)`. -/
def rewind (f : File) : File := { f with pos := 0, inside := Nat.zero_le _ }

/-- What is still to be read. -/
def remaining (f : File) : Str := f.content.drop f.pos

@[simp] theorem read_fst (buffersize : Nat) (f : File) : (f.read buffersize).1 = f.remaining.take buffersize := rfl

@[simp] theorem read_remaining (buffersize : Nat) (f : File) :
    (f.read buffersize).2.remaining = f.remaining.drop buffersize := by
  unfold read remaining
  dsimp only
  rw [← List.drop_drop, List.length_take]
  rcases le_total buffersize (f.content.drop f.pos).length with h | h
  · rw [min_eq_left h]
  · rw [min_eq_right h, List.drop_length, List.drop_of_length_le h]

@[simp] theorem written_remaining (content : Str) : (written content).remaining = [] := List.drop_length

@[simp] theorem rewind_content (f : File) : f.rewind.content = f.content := rfl

@[simp] theorem rewind_remaining (f : File) : f.rewind.remaining = f.content := rfl

/-- A read that gives bytes leaves fewer of them. -/
theorem read_lt {buffersize : Nat} {f : File} (h : (f.read buffersize).1 ≠ []) :
    (f.read buffersize).2.remaining.length < f.remaining.length := by
  have hpos := List.length_pos_of_ne_nil h
  rw [read_fst, List.length_take] at hpos
  rw [read_remaining, List.length_drop]
  omega

end File

/-- Read and write, until a read gives nothing. -/
def copyLoop (bufferSize : Nat) (source dest : File) : File :=
  if (source.read bufferSize).1 = [] then dest
  else copyLoop bufferSize (source.read bufferSize).2 (dest.writeToFile (source.read bufferSize).1)
termination_by source.remaining.length
decreasing_by exact File.read_lt ‹_›

/-- What `mapPath` asks the server for. -/
structure ConfigurationFiles where
  main : Str
  vhost : Str
  mime : Str

def mapPath (c : ConfigurationFiles) (path : Str) : Str :=
  if path = ascii "&&&server" then c.main
  else if path = ascii "&&&vhost" then c.vhost
  else if path = ascii "&&&mime" then c.mime
  else path

/-- The file is there and empty before anything is read. A body that was never opened cannot be read. -/
def putFile (c : ConfigurationFiles) (fn : Str) (inFile : Option File) (bufferSize : Nat) (files : Files) :
    Option ControlError × Files :=
  let filename := mapPath c fn
  let truncated := Function.update files filename (some [])
  match inFile with
  | none => (some .internal, truncated)
  | some inFile =>
    (none, Function.update truncated filename (some (copyLoop bufferSize inFile (File.written [])).content))

/-- Nothing when there is no such file, which `openFile` throws for. -/
def getFile (c : ConfigurationFiles) (fn : Str) (out : File) (bufferSize : Nat) (files : Files) : Option File :=
  (files (mapPath c fn)).map fun content => copyLoop bufferSize (File.written content).rewind out

def CONTROL_OK : Nat := 100

def ControlError.code : ControlError → Nat
  | .internal => 201
  | .auth => 202
  | .malformed => 203
  | .cmdNotFound => 204
  | .badLen => 205
  | .serverBusy => 206
  | .badVersion => 207

/-- The loop of `sendResponse`. It does not come back when the count is not a size that is read, nor when
there is less in the file than it is to send. -/
def sendLoop (buffersize : Nat) (dataToSend : Int) (outFile : File) : Option Str :=
  let got := outFile.read (min dataToSend.toNat buffersize)
  if dataToSend < 0 then none
  else if dataToSend - got.1.length = 0 then some got.1
  else if got.1 = [] then none
  else (sendLoop buffersize (dataToSend - got.1.length) got.2).map (got.1 ++ ·)
termination_by outFile.remaining.length
decreasing_by exact File.read_lt ‹_›

/-- `gnulib::snprintf (buffer, buffersize, ...)` of one line of the response. -/
def line (buffersize : Nat) (text : Str) : Str := (text ++ crlf).take (buffersize - 1)

/-- What goes to the client. -/
def sendResponse (buffersize errID : Nat) (outFile : Option File) : Option Str :=
  let dataLength := (outFile.map (·.content.length)).getD 0
  let header := line buffersize (ascii "/" ++ decimal errID) ++
    line buffersize (ascii "/LEN " ++ decimal (dataLength % 2 ^ 32)) ++ crlf
  match outFile with
  | none => some header
  | some outFile =>
    if dataLength = 0 then some header
    else (sendLoop buffersize (toInt dataLength) outFile).map (header ++ ·)

/-- GETFILE: the file goes through a second one, which is sent from its start. -/
def serveGet (c : ConfigurationFiles) (fn : Str) (bufferSize : Nat) (files : Files) : Option Str :=
  (getFile c fn File.temporary bufferSize files).bind fun outFile =>
    sendResponse bufferSize CONTROL_OK (some outFile.rewind)

/-- PUTFILE, which sends no data. -/
def servePut (c : ConfigurationFiles) (fn : Str) (inFile : Option File) (bufferSize : Nat) (files : Files) :
    Option Str × Files :=
  match putFile c fn inFile bufferSize files with
  | (some error, files) => (sendResponse bufferSize error.code none, files)
  | (none, files) => (sendResponse bufferSize CONTROL_OK (some File.temporary.rewind), files)

/-- The two commands among all. -/
def serve (c : ConfigurationFiles) (others : ControlHeader → Files → Option Str × Files) (header : ControlHeader)
    (inFile : Option File) (bufferSize : Nat) (files : Files) : Option Str × Files :=
  if header.command = ascii "GETFILE" then (serveGet c header.cmdOptions bufferSize files, files)
  else if header.command = ascii "PUTFILE" then servePut c header.cmdOptions inFile bufferSize files
  else others header files

/-- A response that announces a body, and sends it. -/
def announced (body : Str) : Str :=
  ascii "/" ++ decimal CONTROL_OK ++ crlf ++ (ascii "/LEN " ++ decimal body.length ++ crlf) ++ crlf ++ body

/-- The file is the body, and so is what a GETFILE behind the PUTFILE sends. -/
def ComesBack (c : ConfigurationFiles) (others : ControlHeader → Files → Option Str × Files)
    (put get : ControlHeader) (inFile : Option File) (bufferSize : Nat) (files : Files) : Prop :=
  let stored := (serve c others put inFile bufferSize files).2
  stored (mapPath c put.cmdOptions) = some (held inFile) ∧
    (serve c others get none bufferSize stored).1 = some (announced (held inFile))

/-! ## The loops -/

/-- **The copy** is what was still to be read. -/
theorem copyLoop_written {bufferSize : Nat} (hsize : 0 < bufferSize) (source : File) (content : Str) :
    copyLoop bufferSize source (File.written content) = File.written (content ++ source.remaining) := by
  induction hn : source.remaining.length using Nat.strong_induction_on generalizing source content with
  | _ n ih =>
    rw [copyLoop]
    split_ifs with hend
    · rw [File.read_fst, List.take_eq_nil_iff] at hend
      rw [hend.resolve_left hsize.ne', List.append_nil]
    · rw [File.writeToFile_written, ih _ (hn ▸ File.read_lt hend) _ _ rfl, List.append_assoc, File.read_remaining,
        File.read_fst, List.take_append_drop]

/-- **The send loop** sends all that it is to send. -/
theorem sendLoop_all {buffersize : Nat} (hsize : 0 < buffersize) (outFile : File) :
    sendLoop buffersize outFile.remaining.length outFile = some outFile.remaining := by
  induction hn : outFile.remaining.length using Nat.strong_induction_on generalizing outFile with
  | _ n ih =>
    have hgot : (outFile.read (min ((n : Int).toNat) buffersize)).1.length = min n buffersize := by
      rw [File.read_fst, List.length_take, hn, Int.toNat_natCast]
      omega
    rw [sendLoop, if_neg (by omega), hgot]
    split_ifs with hall hend
    · have hle : n ≤ min ((n : Int).toNat) buffersize := by omega
      rw [File.read_fst, List.take_of_length_le (hn ▸ hle)]
    · rw [hend] at hgot
      exact absurd hgot.symm (by simp only [List.length_nil]; omega)
    · have hlt := File.read_lt hend
      have hleft : (outFile.read (min ((n : Int).toNat) buffersize)).2.remaining.length = n - min n buffersize := by
        rw [File.read_remaining, List.length_drop, hn, Int.toNat_natCast]
      have hcast : (n : Int) - (min n buffersize : Nat) = (n - min n buffersize : Nat) := by omega
      rw [hcast, ← hleft, ih _ (hn ▸ hlt) _ rfl, File.read_remaining, File.read_fst, Option.map_some,
        List.take_append_drop]

/-! ## The commands -/

/-- `server.buffer_size` is never less than this. -/
def MIN_BUFFER : Nat := 81920

theorem line_eq {buffersize : Nat} (hsize : MIN_BUFFER ≤ buffersize) {text : Str} (hlen : text.length ≤ 100) :
    line buffersize text = text ++ crlf := by
  have hcrlf : crlf.length = 2 := rfl
  unfold line
  unfold MIN_BUFFER at hsize
  rw [List.take_of_length_le]
  rw [List.length_append]
  omega

theorem length_decimal_le {n : Nat} (h : n < 2 ^ 32) : (decimal n).length ≤ 10 := by
  rw [length_decimal_le_iff (by norm_num)]
  omega

/-- A file that is sent from its start is announced with its length, and all of it is sent. -/
theorem sendResponse_written {buffersize : Nat} (hsize : MIN_BUFFER ≤ buffersize) {content : Str}
    (hlt : content.length < 2 ^ 31) :
    sendResponse buffersize CONTROL_OK (some (File.written content).rewind) = some (announced content) := by
  have hpos : 0 < buffersize := lt_of_lt_of_le (by decide) hsize
  have hstatus : line buffersize (ascii "/" ++ decimal CONTROL_OK) = ascii "/" ++ decimal CONTROL_OK ++ crlf :=
    line_eq hsize (by decide)
  have hlen : line buffersize (ascii "/LEN " ++ decimal content.length) =
      ascii "/LEN " ++ decimal content.length ++ crlf := by
    refine line_eq hsize ?_
    have hdigits := length_decimal_le (by omega : content.length < 2 ^ 32)
    have hfive : (ascii "/LEN ").length = 5 := rfl
    rw [List.length_append]
    omega
  unfold sendResponse
  simp only [Option.map_some, Option.getD_some, File.rewind_content, File.written_content]
  rw [Nat.mod_eq_of_lt (by omega), hstatus, hlen, toInt_of_lt hlt]
  split_ifs with hzero
  · rw [List.length_eq_zero_iff.mp hzero]
    simp [announced]
  · have hloop := sendLoop_all hpos (File.written content).rewind
    rw [File.rewind_remaining, File.written_content] at hloop
    rw [hloop]
    simp [announced]

/-- **GETFILE** announces and sends the file. -/
theorem serveGet_eq (c : ConfigurationFiles) {fn : Str} {bufferSize : Nat} {files : Files} {content : Str}
    (hsize : MIN_BUFFER ≤ bufferSize) (hfile : files (mapPath c fn) = some content) (hlt : content.length < 2 ^ 31) :
    serveGet c fn bufferSize files = some (announced content) := by
  have hpos : 0 < bufferSize := lt_of_lt_of_le (by decide) hsize
  unfold serveGet getFile
  rw [hfile, Option.map_some, Option.bind_some, File.written_nil, copyLoop_written hpos, File.rewind_remaining,
    List.nil_append, File.written_content]
  exact sendResponse_written hsize hlt

/-- **PUTFILE** stores what is behind the position of its input, be it nothing. -/
theorem servePut_stored (c : ConfigurationFiles) (fn : Str) {bufferSize : Nat} (hsize : 0 < bufferSize) (files : Files)
    (inFile : Option File) :
    (servePut c fn inFile bufferSize files).2 (mapPath c fn) = some ((inFile.map File.remaining).getD []) := by
  unfold servePut putFile
  cases inFile with
  | none => simp
  | some inFile => simp [copyLoop_written hsize]

theorem serve_put (c : ConfigurationFiles) (others : ControlHeader → Files → Option Str × Files)
    {header : ControlHeader} (h : header.command = ascii "PUTFILE") (inFile : Option File) (bufferSize : Nat)
    (files : Files) :
    serve c others header inFile bufferSize files = servePut c header.cmdOptions inFile bufferSize files := by
  unfold serve
  rw [h, if_neg (by decide), if_pos rfl]

theorem serve_get (c : ConfigurationFiles) (others : ControlHeader → Files → Option Str × Files)
    {header : ControlHeader} (h : header.command = ascii "GETFILE") (inFile : Option File) (bufferSize : Nat)
    (files : Files) :
    serve c others header inFile bufferSize files = (serveGet c header.cmdOptions bufferSize files, files) := by
  unfold serve
  rw [h, if_pos rfl]

/-- **PUTFILE, then GETFILE.** The position of the input file is behind all of the body, so only an empty body
comes back. -/
theorem comesBack_put_iff (p : ControlProtocol) (c : ConfigurationFiles)
    (others : ControlHeader → Files → Option Str × Files) (put get : ControlHeader) (reads unread : List Str)
    (inFile : Option File) (bufferSize : Nat) (files : Files) (hsize : MIN_BUFFER ≤ bufferSize)
    (hput : put.command = ascii "PUTFILE") (hget : get.command = ascii "GETFILE")
    (hsame : get.cmdOptions = put.cmdOptions)
    (hexecuted : p.answerTo [] reads = some (.executed put inFile, unread)) :
    ComesBack c others put get inFile bufferSize files ↔ held inFile = [] := by
  have hpos : 0 < bufferSize := lt_of_lt_of_le (by decide) hsize
  have hremaining : (inFile.map File.remaining).getD [] = [] := by
    obtain rfl | ⟨body, rfl⟩ := answerTo_written hexecuted
    · rfl
    · simp
  have hstored := servePut_stored c put.cmdOptions hpos files inFile
  rw [hremaining] at hstored
  unfold ComesBack
  simp only [serve_put c others hput, serve_get c others hget, hsame, hstored]
  constructor
  · rintro ⟨hfile, -⟩
    exact (Option.some.inj hfile).symm
  · intro hbody
    rw [hbody]
    exact ⟨rfl, serveGet_eq c hsize hstored (by norm_num)⟩

def getF : ControlHeader := ⟨ascii "GETFILE", ascii "f", ascii "a", ascii "b", ascii "CONTROL/1.0", [], 0⟩

theorem empty_comesBack :
    ComesBack ⟨[], [], []⟩ (fun _ files => (none, files)) { getF with command := ascii "PUTFILE" } getF none MIN_BUFFER
      (fun _ => some (ascii "old")) := by
  have hexecuted : admin.answerTo [] [ascii "/PUTFILE CONTROL/1.0 f\r\n/AUTH a:b\r\n\r\n"] =
      some (.executed { getF with command := ascii "PUTFILE" } none, []) := by
    dsimp only [admin, getF]
    repeat rw [ascii_ofList]
    decide
  exact (comesBack_put_iff admin ⟨[], [], []⟩ (fun _ files => (none, files)) { getF with command := ascii "PUTFILE" }
    getF [ascii "/PUTFILE CONTROL/1.0 f\r\n/AUTH a:b\r\n\r\n"] [] none MIN_BUFFER (fun _ => some (ascii "old"))
    (le_refl _) rfl rfl rfl hexecuted).mpr rfl

/-- Of a body of one byte nothing is stored. -/
theorem not_comesBack_put : ¬ ∀ (p : ControlProtocol) (c : ConfigurationFiles)
    (others : ControlHeader → Files → Option Str × Files) (put get : ControlHeader) (reads unread : List Str)
    (inFile : Option File) (bufferSize : Nat) (files : Files), MIN_BUFFER ≤ bufferSize →
    put.command = ascii "PUTFILE" → get.command = ascii "GETFILE" → get.cmdOptions = put.cmdOptions →
    p.answerTo [] reads = some (.executed put inFile, unread) →
    ComesBack c others put get inFile bufferSize files := by
  intro h
  have hexecuted : admin.answerTo [] [onePut.bytes, ascii "x"] =
      some (.executed onePut.header (some (File.written (ascii "x"))), []) := by
    dsimp only [admin, onePut]
    repeat rw [ascii_ofList]
    decide
  obtain ⟨hfile, -⟩ := h admin ⟨[], [], []⟩ (fun _ files => (none, files)) onePut.header getF
    [onePut.bytes, ascii "x"] [] (some (File.written (ascii "x"))) MIN_BUFFER (fun _ => none) (le_refl _) rfl rfl rfl
    hexecuted
  rw [serve_put _ _ rfl, servePut_stored _ _ (by decide)] at hfile
  exact absurd (Option.some.inj hfile) nofun

end MyServer.Control
