import MyServer.Http.RequestHeader
import MyServer.Lib.Fragments

/-!
# Requests on one connection

`ClientsThread::controlConnections` puts what was left of a connection before what the socket gives, and
`Http::controlConnection` takes one request from that. The requests have no body, and what comes of one is
a function of its text.
-/

open MyServer.HeaderLines MyServer.RequestHeader

namespace MyServer.Pipelining

inductive Reply
  /-- The connection is not served again. -/
  | close
  /-- It is kept, by the branch that misses the host: this one returns before the pipelining. -/
  | bare
  | keep
deriving DecidableEq

inductive Code
  | deleteConnection
  | keepConnection
  | incompleteRequest
  /-- What is behind the header was moved to the connection buffer. -/
  | incompleteRequestNoWait (nHeaderChars : Nat)
deriving DecidableEq

/-- One connection, with what its socket will give, and the requests that were parsed and answered. -/
structure Session where
  socket : List Str
  connectionBuffer : Str
  short : connectionBuffer.length < 2 ^ 13
  forceControl : Bool
  live : Bool
  handled : List Str

namespace Session

/-- One `recv`, behind what the connection buffer holds. -/
def recv (s : Session) : Str × List Str :=
  Fragments.take (2 ^ 13 - s.connectionBuffer.length - 1) s.socket

theorem recv_short (s : Session) : (s.connectionBuffer ++ s.recv.1).length < 2 ^ 13 := by
  have hle := Fragments.take_length_le (2 ^ 13 - s.connectionBuffer.length - 1) s.socket
  have hshort := s.short
  rw [List.length_append]
  unfold recv
  omega

end Session

section

variable (reply : Str → Reply) (bufferSize : Nat)

/-- The request that is answered, and the code. -/
def controlConnection (content : Str) (stale : Nat → Byte) : Option Str × Code :=
  match validHTTPRequest (filled content stale) bufferSize with
  | .incomplete => (none, .incompleteRequest)
  | .error _ => (none, .deleteConnection)
  | .valid nHeaderChars =>
    let request := (List.range nHeaderChars).map (filled content stale)
    (some request,
      match reply request with
      | .close => .deleteConnection
      | .bare => .keepConnection
      | .keep =>
        if (cstr content).length = nHeaderChars then .keepConnection
        -- `toCopy` wraps around, and there is no memory for so much.
        else if content.length < nHeaderChars then .deleteConnection
        else .incompleteRequestNoWait nHeaderChars)

namespace Session

def control (s : Session) (stale : Nat → Byte) (content : Str) (hcontent : content.length < 2 ^ 13) : Session :=
  let answer := controlConnection reply bufferSize content stale
  let s := { s with handled := s.handled ++ answer.1.toList, forceControl := false }
  match answer.2 with
  | .deleteConnection => { s with live := false }
  | .keepConnection => { s with connectionBuffer := [], short := by decide }
  | .incompleteRequest => { s with connectionBuffer := content, short := hcontent }
  | .incompleteRequestNoWait nHeaderChars =>
    { s with
      connectionBuffer := content.drop nHeaderChars
      short := by
        rw [List.length_drop]
        omega
      forceControl := true }

/-- The thread comes with what earlier connections left in its buffer. A connection that is neither ready
nor has data is not served. -/
def controlConnections (s : Session) (stale : Nat → Byte) : Session :=
  if s.live = false then s
  else if s.forceControl then s.control reply bufferSize stale s.connectionBuffer s.short
  else if s.socket = [] then s
  else if s.recv.1 = [] then { s with live := false }
  else
    Session.control reply bufferSize { s with socket := s.recv.2 } stale (s.connectionBuffer ++ s.recv.1)
      s.recv_short

def input (s : Session) : Str :=
  if s.forceControl then s.connectionBuffer else s.connectionBuffer ++ s.recv.1

def start (socket : List Str) : Session where
  socket := socket
  connectionBuffer := []
  short := by decide
  forceControl := false
  live := true
  handled := []

/-- One turn for each of the buffers. -/
def run : List (Nat → Byte) → Session → Session
  | [], s => s
  | stale :: stales, s => run stales (s.controlConnections reply bufferSize stale)

end Session

/-- The requests are answered, each once and in order. -/
def Answered (requests : List Header) (socket : List Str) (stales : List (Nat → Byte)) : Prop :=
  (Session.run reply bufferSize stales (Session.start socket)).handled = requests.map Header.bytes

/-- Requests that come on one connection, which none but the last may close. -/
structure Sent (requests : List Header) (socket : List Str) : Prop where
  proper : Fragments.Proper socket
  text : socket.flatten = requests.flatMap Header.bytes
  short : ∀ header ∈ requests, header.bytes.length < 2 ^ 13
  fits : ∀ header ∈ requests, Fits header
  kept : ∀ header ∈ requests.dropLast, reply header.bytes ≠ .close

/-- What a turn must not come upon: a part of a header with all its lines, or with an LF at its end and one
that an earlier use left two bytes behind it; more bytes behind a request without a host. -/
structure Clean (content : Str) (stale : Nat → Byte) : Prop where
  lines : ∀ header more, Header.bytes header = content ++ more → more ≠ [] → content.count LF ≤ 25
  behind : ∀ header more, Header.bytes header = content ++ more → more ≠ [] →
    content.getLast? = some LF → stale (content.length + 1) ≠ LF
  bare : ∀ header more, content = Header.bytes header ++ more → reply header.bytes = .bare → more = []

def CleanRun : List (Nat → Byte) → Session → Prop
  | [], _ => True
  | stale :: stales, s =>
    Clean reply s.input stale ∧ CleanRun stales (s.controlConnections reply bufferSize stale)

end

/-! ## One request -/

/-- The code for a request with more behind it. -/
def Reply.code (nHeaderChars : Nat) (more : Str) : Reply → Code
  | .close => .deleteConnection
  | .bare => .keepConnection
  | .keep => if more = [] then .keepConnection else .incompleteRequestNoWait nHeaderChars

section

variable {reply : Str → Reply} {bufferSize : Nat} {stale : Nat → Byte} {header : Header} {content more : Str}

theorem controlConnection_part (hfits : Fits header) (hpart : header.bytes = content ++ more) (hmore : more ≠ [])
    (hcontent : content.length < 2 ^ 13) (hclean : Clean reply content stale) :
    controlConnection reply bufferSize content stale = (none, .incompleteRequest) := by
  have hcount := hclean.lines header more hpart hmore
  have hbehind := hclean.behind header more hpart hmore
  unfold controlConnection
  rw [incomplete_part hfits hpart hmore hcontent hcount hbehind]

theorem map_filled (hcontent : content = header.bytes ++ more) :
    (List.range header.bytes.length).map (filled content stale) = header.bytes := by
  subst hcontent
  apply List.ext_getElem
  · rw [List.length_map, List.length_range]
  · intro i hi hi'
    rw [List.getElem_map, List.getElem_range, filled_of_lt stale (by rw [List.length_append]; omega),
      List.getElem_append_left hi']

theorem controlConnection_whole (hbuffer : 2 ^ 13 ≤ bufferSize) (hfits : Fits header)
    (hcontent : (header.bytes ++ more).length < 2 ^ 13) (hzero : (0 : Byte) ∉ more) :
    controlConnection reply bufferSize (header.bytes ++ more) stale =
      (some header.bytes, (reply header.bytes).code header.bytes.length more) := by
  unfold controlConnection
  rw [valid_whole hfits hcontent hbuffer]
  dsimp only
  rw [map_filled rfl, cstr_append header.zero_notMem, cstr_of_notMem hzero, List.length_append]
  cases reply header.bytes with
  | close => rfl
  | bare => rfl
  | keep =>
    by_cases hmore : more = []
    · simp only [Reply.code]
      rw [if_pos hmore, if_pos (by rw [hmore]; rfl)]
    · have hpos := List.length_pos_iff.mpr hmore
      simp only [Reply.code]
      rw [if_neg hmore, if_neg (by omega), if_neg (by omega)]

/-! ## One turn -/

variable {s : Session} {hcontent : content.length < 2 ^ 13}

structure Todo (reply : Str → Reply) (todo : List Header) : Prop where
  short : ∀ header ∈ todo, header.bytes.length < 2 ^ 13
  fits : ∀ header ∈ todo, Fits header
  kept : ∀ header ∈ todo.dropLast, reply header.bytes ≠ .close

theorem Todo.tail {todo : List Header} (h : Todo reply (header :: todo)) : Todo reply todo := by
  refine ⟨fun g hg => h.short g (List.mem_cons_of_mem _ hg), fun g hg => h.fits g (List.mem_cons_of_mem _ hg),
    fun g hg => h.kept g ?_⟩
  cases todo with
  | nil => exact absurd hg nofun
  | cons _ _ => exact List.mem_cons_of_mem _ hg

theorem Todo.last {todo : List Header} (h : Todo reply (header :: todo)) (hclose : reply header.bytes = .close) :
    todo = [] := by
  cases todo with
  | nil => rfl
  | cons _ _ => exact absurd hclose (h.kept header List.mem_cons_self)

/-- The buffer and the socket have them, and while the connection waits the buffer has a part of one. -/
structure Pending (s : Session) (todo : List Header) : Prop where
  live : s.live = true
  proper : Fragments.Proper s.socket
  text : s.connectionBuffer ++ s.socket.flatten = todo.flatMap Header.bytes
  part : s.forceControl = false → ∀ header rest, todo = header :: rest →
    s.connectionBuffer.length < header.bytes.length
  full : s.forceControl = true → s.connectionBuffer ≠ []

/-- Or they are all answered, and the last closed the connection. -/
def Going (s : Session) (todo : List Header) : Prop := Pending s todo ∨ s.live = false ∧ todo = []

theorem control_delete {answered : Option Str}
    (h : controlConnection reply bufferSize content stale = (answered, .deleteConnection)) :
    s.control reply bufferSize stale content hcontent =
      { s with handled := s.handled ++ answered.toList, forceControl := false, live := false } := by
  unfold Session.control
  simp only [h]

theorem control_keep {answered : Option Str}
    (h : controlConnection reply bufferSize content stale = (answered, .keepConnection)) :
    s.control reply bufferSize stale content hcontent =
      { s with
        handled := s.handled ++ answered.toList, forceControl := false, connectionBuffer := [],
        short := by decide } := by
  unfold Session.control
  simp only [h]

theorem control_incomplete {answered : Option Str}
    (h : controlConnection reply bufferSize content stale = (answered, .incompleteRequest)) :
    s.control reply bufferSize stale content hcontent =
      { s with
        handled := s.handled ++ answered.toList, forceControl := false, connectionBuffer := content,
        short := hcontent } := by
  unfold Session.control
  simp only [h]

theorem control_noWait {answered : Option Str} {n : Nat}
    (h : controlConnection reply bufferSize content stale = (answered, .incompleteRequestNoWait n)) :
    s.control reply bufferSize stale content hcontent =
      { s with
        handled := s.handled ++ answered.toList, forceControl := true, connectionBuffer := content.drop n,
        short := by
          rw [List.length_drop]
          omega } := by
  unfold Session.control
  simp only [h]

theorem part_or_whole {a b c d : Str} (h : a ++ b = c ++ d) :
    (∃ more, more ≠ [] ∧ c = a ++ more) ∨ ∃ more, a = c ++ more ∧ more ++ b = d := by
  rcases List.append_eq_append_iff.mp h with ⟨more, hc, hb⟩ | ⟨more, ha, hd⟩
  · by_cases hmore : more = []
    · exact Or.inr ⟨[], by simp [hc, hmore], by simp [hb, hmore]⟩
    · exact Or.inl ⟨more, hmore, hc⟩
  · exact Or.inr ⟨more, ha, hd.symm⟩

/-- What a turn does for a connection: it waits for the rest of the request at the front, or it has answered
that one. -/
structure Served (s s' : Session) (todo todo' : List Header) : Prop where
  going : Going s' todo'
  handled : s'.handled ++ todo'.map Header.bytes = s.handled ++ todo.map Header.bytes
  progress : todo' = todo ∧ s'.forceControl = false ∨ todo'.length < todo.length

/-- With an empty buffer the connection waits for the next request. -/
theorem pending_empty {s : Session} {todo : List Header} (hlive : s.live = true)
    (hproper : Fragments.Proper s.socket) (hbuffer : s.connectionBuffer = []) (hforce : s.forceControl = false)
    (htext : s.socket.flatten = todo.flatMap Header.bytes) : Pending s todo where
  live := hlive
  proper := hproper
  text := by rw [hbuffer, List.nil_append, htext]
  part := fun _ header _ _ => by
    rw [hbuffer]
    exact List.length_pos_iff.mpr header.bytes_ne_nil
  full := fun h => absurd (hforce.symm.trans h) nofun

theorem whole_served {header : Header} {todo : List Header} (hbuffer : 2 ^ 13 ≤ bufferSize) (hlive : s.live = true)
    (hproper : Fragments.Proper s.socket) {hcontent : (header.bytes ++ more).length < 2 ^ 13}
    (hrest : more ++ s.socket.flatten = todo.flatMap Header.bytes) (htodo : Todo reply (header :: todo))
    (hclean : Clean reply (header.bytes ++ more) stale) :
    Served s (s.control reply bufferSize stale (header.bytes ++ more) hcontent) (header :: todo) todo := by
  have hzero : (0 : Byte) ∉ more := by
    intro hmem
    have h : (0 : Byte) ∈ todo.flatMap Header.bytes := by
      rw [← hrest]
      exact List.mem_append_left _ hmem
    obtain ⟨g, -, hg⟩ := List.mem_flatMap.mp h
    exact g.zero_notMem hg
  have hfits := htodo.fits header List.mem_cons_self
  have hcode := @controlConnection_whole reply _ stale _ _ hbuffer hfits hcontent hzero
  have hhandled : s.handled ++ (some header.bytes).toList ++ todo.map Header.bytes =
      s.handled ++ (header :: todo).map Header.bytes := by
    rw [List.append_assoc]
    rfl
  have hprogress : todo.length < (header :: todo).length := Nat.lt_succ_self _
  cases hreply : reply header.bytes with
  | close =>
    rw [hreply] at hcode
    rw [control_delete hcode]
    exact ⟨Or.inr ⟨rfl, htodo.last hreply⟩, hhandled, Or.inr hprogress⟩
  | bare =>
    obtain rfl := hclean.bare header more rfl hreply
    rw [hreply] at hcode
    rw [control_keep hcode]
    exact ⟨Or.inl (pending_empty hlive hproper rfl rfl hrest), hhandled, Or.inr hprogress⟩
  | keep =>
    rw [hreply, Reply.code] at hcode
    by_cases hmore : more = []
    · rw [if_pos hmore] at hcode
      rw [hmore] at hrest
      rw [control_keep hcode]
      exact ⟨Or.inl (pending_empty hlive hproper rfl rfl hrest), hhandled, Or.inr hprogress⟩
    · rw [if_neg hmore] at hcode
      rw [control_noWait hcode]
      refine ⟨Or.inl ⟨hlive, hproper, ?_, nofun, ?_⟩, hhandled, Or.inr hprogress⟩
      · change (header.bytes ++ more).drop header.bytes.length ++ s.socket.flatten = _
        rw [List.drop_left, hrest]
      · rintro -
        change (header.bytes ++ more).drop header.bytes.length ≠ []
        rwa [List.drop_left]

theorem part_served {header : Header} {todo : List Header} (hlive : s.live = true)
    (hproper : Fragments.Proper s.socket)
    (htext : content ++ s.socket.flatten = (header :: todo).flatMap Header.bytes)
    (htodo : Todo reply (header :: todo)) (hpart : header.bytes = content ++ more) (hmore : more ≠ [])
    (hclean : Clean reply content stale) :
    Served s (s.control reply bufferSize stale content hcontent) (header :: todo) (header :: todo) := by
  have hfits := htodo.fits header List.mem_cons_self
  have hlength := congrArg List.length hpart
  have hpos := List.length_pos_iff.mpr hmore
  rw [List.length_append] at hlength
  rw [control_incomplete (controlConnection_part hfits hpart hmore hcontent hclean)]
  refine ⟨Or.inl ⟨hlive, hproper, htext, ?_, nofun⟩, ?_, Or.inl ⟨rfl, rfl⟩⟩
  · rintro - h t heq
    cases heq
    change content.length < header.bytes.length
    omega
  · rw [Option.toList_none, List.append_nil]

/-- **One request is waited for or answered.** -/
theorem control_served {todo : List Header} (hbuffer : 2 ^ 13 ≤ bufferSize) (hlive : s.live = true)
    (hproper : Fragments.Proper s.socket) (hne : content ≠ [])
    (htext : content ++ s.socket.flatten = todo.flatMap Header.bytes) (htodo : Todo reply todo)
    (hclean : Clean reply content stale) :
    ∃ todo', Served s (s.control reply bufferSize stale content hcontent) todo todo' ∧ Todo reply todo' := by
  cases todo with
  | nil => exact absurd (List.append_eq_nil_iff.mp htext).1 hne
  | cons header todo =>
    rcases part_or_whole htext with ⟨more, hmore, hpart⟩ | ⟨more, rfl, hrest⟩
    · exact ⟨header :: todo, part_served hlive hproper htext htodo hpart hmore hclean, htodo⟩
    · exact ⟨todo, whole_served hbuffer hlive hproper hrest htodo hclean, htodo.tail⟩

theorem control_socket : (s.control reply bufferSize stale content hcontent).socket = s.socket := by
  unfold Session.control
  dsimp only
  split <;> rfl

/-- What is left to do: bytes to read, requests to answer, and a buffer to look at again. -/
def work (s : Session) (todo : List Header) : Nat :=
  2 * s.socket.flatten.length + 2 * todo.length + s.forceControl.toNat

theorem Served.work_le {s s' : Session} {todo todo' : List Header} (h : Served s s' todo todo')
    (hsocket : s'.socket = s.socket) : work s' todo' ≤ 2 * s.socket.flatten.length + 2 * todo.length := by
  unfold work
  rw [hsocket]
  rcases h.progress with ⟨rfl, hforce⟩ | hlt
  · rw [hforce, Bool.toNat_false]
    omega
  · have := Bool.toNat_le s'.forceControl
    omega

/-- **A turn leaves less to do,** and loses nothing. -/
theorem turn_served {todo : List Header} (hbuffer : 2 ^ 13 ≤ bufferSize) (hpending : Pending s todo)
    (htodo : Todo reply todo) (hne : todo ≠ []) (hclean : Clean reply s.input stale) :
    ∃ todo', Served s (s.controlConnections reply bufferSize stale) todo todo' ∧ Todo reply todo' ∧
      work (s.controlConnections reply bufferSize stale) todo' < work s todo := by
  unfold Session.controlConnections
  rw [if_neg (by rw [hpending.live]; exact nofun)]
  unfold Session.input at hclean
  by_cases hforce : s.forceControl = true
  · rw [if_pos hforce] at hclean
    rw [if_pos hforce]
    obtain ⟨todo', hserved, htodo'⟩ := @control_served reply _ stale _ s s.short _ hbuffer hpending.live
      hpending.proper (hpending.full hforce) hpending.text htodo hclean
    refine ⟨todo', hserved, htodo', Nat.lt_of_le_of_lt (hserved.work_le control_socket) ?_⟩
    unfold work
    rw [hforce, Bool.toNat_true]
    omega
  · rw [if_neg hforce] at hclean
    rw [if_neg hforce]
    obtain ⟨header, rest, rfl⟩ := List.exists_cons_of_ne_nil hne
    have hpart := hpending.part (Bool.eq_false_iff.mpr hforce) header rest rfl
    have hshort := htodo.short header List.mem_cons_self
    have hlength := congrArg List.length hpending.text
    rw [List.length_append, List.flatMap_cons, List.length_append] at hlength
    have hflat : s.socket.flatten ≠ [] := by
      intro hnil
      rw [hnil, List.length_nil] at hlength
      omega
    have hsocket : s.socket ≠ [] := fun hnil => hflat (by rw [hnil]; rfl)
    have hrecv : s.recv.1 ≠ [] := Fragments.take_ne_nil hpending.proper (by omega) hflat
    have hbytes : s.recv.1 ++ s.recv.2.flatten = s.socket.flatten := Fragments.take_flatten _ _
    have hcontent : s.connectionBuffer ++ s.recv.1 ≠ [] := fun h => hrecv (List.append_eq_nil_iff.mp h).2
    rw [if_neg hsocket, if_neg hrecv]
    obtain ⟨todo', hserved, htodo'⟩ := @control_served reply _ stale _
      { s with socket := s.recv.2 } s.recv_short _ hbuffer hpending.live (hpending.proper.take _) hcontent
      (by rw [List.append_assoc, hbytes, hpending.text]) htodo hclean
    refine ⟨todo', ⟨hserved.going, hserved.handled, hserved.progress⟩, htodo',
      Nat.lt_of_le_of_lt (hserved.work_le control_socket) ?_⟩
    have hfewer := congrArg List.length hbytes
    have hpos := List.length_pos_iff.mpr hrecv
    rw [List.length_append] at hfewer
    unfold work
    dsimp only
    omega

theorem turn_rest (hgoing : Going s []) : s.controlConnections reply bufferSize stale = s := by
  unfold Session.controlConnections
  rcases hgoing with hpending | ⟨hlive, -⟩
  · obtain ⟨hnil, hflat⟩ := List.append_eq_nil_iff.mp hpending.text
    have hforce : ¬ s.forceControl = true := fun h => hpending.full h hnil
    have hsocket : s.socket = [] := by
      rw [List.eq_nil_iff_forall_not_mem]
      exact fun f hf => hpending.proper f hf (List.flatten_eq_nil_iff.mp hflat f hf)
    rw [if_neg (by rw [hpending.live]; exact nofun), if_neg hforce, if_pos hsocket]
  · rw [if_pos hlive]

/-! ## Every run -/

theorem run_rest {stales : List (Nat → Byte)} (hgoing : Going s []) : s.run reply bufferSize stales = s := by
  induction stales with
  | nil => rfl
  | cons stale stales ih => rw [Session.run, turn_rest hgoing, ih]

theorem run_served (hbuffer : 2 ^ 13 ≤ bufferSize) {stales : List (Nat → Byte)} {todo : List Header}
    (hgoing : Going s todo) (htodo : Todo reply todo) (hclean : CleanRun reply bufferSize stales s) :
    ∃ todo', (s.run reply bufferSize stales).handled ++ todo'.map Header.bytes =
        s.handled ++ todo.map Header.bytes ∧ (work s todo < stales.length → todo' = []) := by
  induction stales generalizing s todo with
  | nil => exact ⟨todo, rfl, nofun⟩
  | cons stale stales ih =>
    obtain ⟨hturn, hclean⟩ := hclean
    by_cases hne : todo = []
    · subst hne
      exact ⟨[], by rw [run_rest hgoing], fun _ => rfl⟩
    · obtain hpending | ⟨-, hnil⟩ := hgoing
      · obtain ⟨todo₁, hserved, htodo₁, hwork⟩ := turn_served hbuffer hpending htodo hne hturn
        obtain ⟨todo', hhandled, hdone⟩ := ih hserved.going htodo₁ hclean
        refine ⟨todo', ?_, fun hturns => hdone ?_⟩
        · rw [Session.run, hhandled, hserved.handled]
        · rw [List.length_cons] at hturns
          omega
      · exact absurd hnil hne

end

theorem going_start {requests : List Header} {socket : List Str} (hproper : Fragments.Proper socket)
    (htext : socket.flatten = requests.flatMap Header.bytes) : Going (Session.start socket) requests :=
  Or.inl (pending_empty rfl hproper rfl rfl htext)

def home : Header where
  first := ascii "GET / HTTP/1.1"
  fields := [ascii "Host: a"]
  line l hl := by
    rcases List.mem_pair.mp hl with rfl | rfl <;> decide

theorem home_sent {socket : List Str} (hproper : Fragments.Proper socket)
    (htext : socket.flatten = home.bytes ++ home.bytes) : Sent (fun _ => .keep) [home, home] socket where
  proper := hproper
  text := htext
  short := by
    intro header hheader
    obtain rfl : header = home := by simpa using hheader
    decide
  fits := by
    intro header hheader
    obtain rfl : header = home := by simpa using hheader
    exact ⟨by decide, List.forall_mem_singleton.mpr (by decide), by decide⟩
  kept := fun _ _ => nofun

theorem clean_zero {content : Str} (hcount : content.count LF ≤ 25) :
    Clean (fun _ => .keep) content (fun _ => 0) where
  lines := fun _ _ _ _ => hcount
  behind := fun _ _ _ _ _ => by decide
  bare := fun _ _ _ => nofun

theorem cleanRun_rest {reply : Str → Reply} {bufferSize : Nat} {stale : Nat → Byte} {s : Session}
    (hrest : s.controlConnections reply bufferSize stale = s) (hclean : Clean reply s.input stale) (n : Nat) :
    CleanRun reply bufferSize (List.replicate n stale) s := by
  induction n with
  | zero => trivial
  | succ n ih => exact ⟨hclean, by rwa [hrest]⟩

end MyServer.Pipelining
