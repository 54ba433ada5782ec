import MyServer.Http.FastCgiParams
import MyServer.Http.HeaderFits
import MyServer.Http.RequestExact

/-!
# The environment of a request (env.cpp)

What `buildEnvironmentString` writes for an application, and what of it a FastCGI application reads. A field of the
request becomes a variable with `HTTP_` in front of its name.
-/

open MyServer.Cgi MyServer.FastCgi
open MyServer.HeaderText (toUpper zero_notMem_decimalInt)
open MyServer.RequestHeader (HttpRequestHeader Field PlainField RequestLine Limits requestHeader
  buildHTTPRequestHeaderStruct)

namespace MyServer.Env

/-- What a `const char*` shows, or a `string` that was made of one. -/
abbrev Text := { s : Str // (0 : Byte) ∉ s }

structure Thread where
  request : HttpRequestHeader
  /-- `request.other`, as its iterator goes through it. -/
  entries : List (Str × Str)
  version : Text
  host : Text
  serverName : Text
  localPort : Nat
  admin : Text
  /-- The size of `inputData` when it is open. -/
  inputData : Option Nat
  cgiRoot : Text
  ipAddr : Text
  port : Nat
  login : Text
  ssl : Bool
  pathInfo : Text
  pathTranslated : Text
  filenamePath : Text
  gmt : Text
  localTime : Text
  documentRoot : Text

/-- The `-` of a name, but for its first character: the loop over `HTTP_name` ends in front of it. -/
def dashes : Str → Str
  | [] => []
  | c :: name => c :: name.map fun c => if c = ch '-' then ch '_' else c

def envName (name : Str) : Str := ascii "HTTP_" ++ dashes ((cstr name).map toUpper)

/-- `rangeBuffer` is not emptied between the two bounds. -/
def range (request : HttpRequestHeader) : Str :=
  let first := if request.range.rangeByteBegin = 0 then []
    else decimalInt (BitVec.ofInt 32 request.range.rangeByteBegin).toInt
  request.rangeType ++ ch '=' :: (first ++ ch '-' :: if request.range.rangeByteEnd = 0 then []
    else first ++ decimalInt request.range.rangeByteEnd)

namespace Thread

variable (td : Thread)

/-- The variables of the server, in the order in which they are written. -/
def served : List (Str × Str) :=
  [(ascii "SERVER_SOFTWARE", ascii "GNU MyServer " ++ td.version ++ ch ' ' :: td.host),
    (ascii "REDIRECT_STATUS", ascii "TRUE"),
    (ascii "SERVER_NAME", td.serverName),
    (ascii "SERVER_SIGNATURE", ascii "<address>GNU MyServer " ++ td.version ++ ascii "</address>"),
    (ascii "SERVER_PROTOCOL", cstr td.request.ver),
    (ascii "SERVER_PORT", decimal td.localPort),
    (ascii "SERVER_ADMIN", td.admin),
    (ascii "REQUEST_METHOD", cstr td.request.cmd),
    (ascii "REQUEST_URI", cstr td.request.uri),
    (ascii "QUERY_STRING", cstr td.request.uriOpts),
    (ascii "GATEWAY_INTERFACE", ascii "CGI/1.1"),
    (ascii "CONTENT_LENGTH", if td.request.contentLength = [] then decimal (td.inputData.getD 0)
      else cstr td.request.contentLength)] ++
  (if td.request.range.rangeByteBegin = 0 ∧ td.request.range.rangeByteEnd = 0 then []
    else [(ascii "HTTP_RANGE", range td.request)]) ++
  [(ascii "CGI_ROOT", td.cgiRoot.val),
    (ascii "REMOTE_ADDR", td.ipAddr),
    (ascii "REMOTE_PORT", decimal td.port),
    (ascii "REMOTE_USER", td.login),
    (ascii "SSL", if td.ssl then ascii "ON" else ascii "OFF")] ++
  (if td.pathInfo.val = [] then [(ascii "PATH_TRANSLATED", td.filenamePath.val)]
    else [(ascii "PATH_INFO", td.pathInfo.val), (ascii "PATH_TRANSLATED", td.pathTranslated)]) ++
  [(ascii "SCRIPT_FILENAME", td.filenamePath.val),
    (ascii "SCRIPT_NAME", cstr td.request.uri),
    (ascii "SCRIPT_URL", cstr td.request.uri),
    (ascii "DATE_GMT", td.gmt),
    (ascii "DATE_LOCAL", td.localTime),
    (ascii "DOCUMENT_ROOT", td.documentRoot),
    (ascii "DOCUMENT_URI", cstr td.request.uri),
    (ascii "DOCUMENT_NAME", td.filenamePath),
    (ascii "REMOTE_IDENT", td.login),
    (ascii "AUTH_TYPE", cstr td.request.auth)] ++
  ((td.request.other (ascii "content-type")).map fun value => (ascii "CONTENT_TYPE", cstr value)).toList

/-- `buildHttpHeaderEnvString`. -/
def sent : List (Str × Str) := td.entries.map fun e => (envName e.1, cstr e.2)

/-- Each variable but the first one has a NUL in front of it, and there are five at the end. -/
def text : Str :=
  [0].intercalate ((td.served ++ td.sent).map fun p => p.1 ++ ch '=' :: p.2) ++ List.replicate 5 0

end Thread

/-- `none` when the text does not fit into the buffer of the caller: the `MemBuf` goes on in memory of its own, and
the caller does not see what is written there. -/
def buildEnvironmentString (capacity : Nat) (td : Thread) : Option Str :=
  if td.text.length ≤ capacity then some td.text else none

/-! ## The text is a block of variables -/

/-- How a variable is read whose name has a `=` in it. -/
def readAs (p : Str × Str) : Str × Str :=
  ((p.1 ++ ch '=' :: p.2).takeWhile (· ≠ ch '='), ((p.1 ++ ch '=' :: p.2).dropWhile (· ≠ ch '=')).tail)

theorem readAs_of_notMem {p : Str × Str} (h : ch '=' ∉ p.1) : readAs p = p := by
  have hall : ∀ b ∈ p.1, decide (b ≠ ch '=') = true := by
    intro b hb
    simpa using fun heq : b = ch '=' => h (heq ▸ hb)
  unfold readAs
  rw [List.takeWhile_append_of_pos hall, List.dropWhile_append_of_pos hall]
  simp

theorem exists_variable {p : Str × Str} (hname : (0 : Byte) ∉ p.1) (hvalue : (0 : Byte) ∉ p.2) :
    ∃ v : Variable, v.pair = readAs p ∧ v.bytes = p.1 ++ ch '=' :: p.2 ++ [0] := by
  have hnul : (0 : Byte) ∉ p.1 ++ ch '=' :: p.2 := by
    simp [hname, hvalue]
    decide
  have hsplit := List.takeWhile_append_dropWhile (p := (· ≠ ch '=')) (l := p.1 ++ ch '=' :: p.2)
  obtain ⟨rest, hrest⟩ : ∃ rest, (p.1 ++ ch '=' :: p.2).dropWhile (· ≠ ch '=') = ch '=' :: rest := by
    cases hdrop : (p.1 ++ ch '=' :: p.2).dropWhile (· ≠ ch '=') with
    | nil =>
      have hmem := List.dropWhile_eq_nil_iff.mp hdrop (ch '=') (by simp)
      simp at hmem
    | cons c rest =>
      have hc := List.head_dropWhile_not (p := (· ≠ ch '=')) (l := p.1 ++ ch '=' :: p.2) (by simp)
      simp only [hdrop, List.head_cons] at hc
      exact ⟨rest, by simpa using hc⟩
  refine ⟨⟨(readAs p).1, (readAs p).2, ?_, ?_, ?_⟩, rfl, ?_⟩
  · intro hmem
    simpa using List.mem_takeWhile_imp hmem
  · exact fun hmem => hnul (List.takeWhile_subset _ hmem)
  · exact fun hmem => hnul (List.dropWhile_subset _ (List.mem_of_mem_tail hmem))
  · rw [hrest] at hsplit
    simp only [Variable.bytes, readAs, hrest, List.tail_cons]
    conv_rhs => rw [← hsplit]
    simp

theorem exists_variables {l : List (Str × Str)} (h : ∀ p ∈ l, (0 : Byte) ∉ p.1 ∧ (0 : Byte) ∉ p.2) :
    ∃ vars : List Variable, vars.map Variable.pair = l.map readAs ∧
      entries vars = l.flatMap fun p => p.1 ++ ch '=' :: p.2 ++ [0] := by
  induction l with
  | nil => exact ⟨[], rfl, rfl⟩
  | cons p l ih =>
    obtain ⟨⟨hname, hvalue⟩, hl⟩ := List.forall_mem_cons.mp h
    obtain ⟨v, hpair, hbytes⟩ := exists_variable hname hvalue
    obtain ⟨vars, hpairs, hentries⟩ := ih hl
    refine ⟨v :: vars, ?_, ?_⟩
    · rw [List.map_cons, List.map_cons, hpair, hpairs]
    · rw [entries_cons, hbytes, hentries, List.flatMap_cons]

theorem intercalate_nul {l : List Str} (hl : l ≠ []) : [0].intercalate l ++ [0] = l.flatMap (· ++ [0]) := by
  induction l with
  | nil => exact absurd rfl hl
  | cons s l ih =>
    cases l with
    | nil => simp [List.intercalate]
    | cons s' l =>
      have hrest := ih (List.cons_ne_nil s' l)
      rw [List.flatMap_cons, ← hrest]
      simp [List.intercalate, List.intersperse]

/-- The names of `served`, but for `HTTP_RANGE`. -/
def serverNames : List Str :=
  ["SERVER_SOFTWARE", "REDIRECT_STATUS", "SERVER_NAME", "SERVER_SIGNATURE", "SERVER_PROTOCOL", "SERVER_PORT",
    "SERVER_ADMIN", "REQUEST_METHOD", "REQUEST_URI", "QUERY_STRING", "GATEWAY_INTERFACE", "CONTENT_LENGTH",
    "CGI_ROOT", "REMOTE_ADDR", "REMOTE_PORT", "REMOTE_USER", "SSL", "PATH_INFO", "PATH_TRANSLATED",
    "SCRIPT_FILENAME", "SCRIPT_NAME", "SCRIPT_URL", "DATE_GMT", "DATE_LOCAL", "DOCUMENT_ROOT", "DOCUMENT_URI",
    "DOCUMENT_NAME", "REMOTE_IDENT", "AUTH_TYPE", "CONTENT_TYPE"].map ascii

theorem serverNames_plain : ∀ name ∈ serverNames, (0 : Byte) ∉ name ∧ ch '=' ∉ name ∧ ¬ ascii "HTTP_" <+: name := by
  decide +kernel

theorem zero_notMem_decimal (n : Nat) : (0 : Byte) ∉ decimal n := zero_notMem_decimalInt n

theorem zero_notMem_range {request : HttpRequestHeader} (h : (0 : Byte) ∉ request.rangeType) :
    (0 : Byte) ∉ range request := by
  have hequal : (0 : Byte) ≠ ch '=' := by decide
  have hdash : (0 : Byte) ≠ ch '-' := by decide
  unfold range
  split_ifs <;> simp [h, hequal, hdash, zero_notMem_decimalInt]

section

variable {td : Thread} {p : Str × Str}

theorem served_spec (hrange : (0 : Byte) ∉ td.request.rangeType) (h : p ∈ td.served) :
    (p.1 ∈ serverNames ∨ p.1 = ascii "HTTP_RANGE" ∧
      ¬ (td.request.range.rangeByteBegin = 0 ∧ td.request.range.rangeByteEnd = 0)) ∧ (0 : Byte) ∉ p.2 := by
  have hspace : (0 : Byte) ≠ ch ' ' := by decide
  have htext : ∀ s : Text, (0 : Byte) ∉ s.val := fun s => s.2
  unfold Thread.served at h
  simp only [List.mem_append] at h
  rcases h with ((((h | h) | h) | h) | h) | h
  · simp only [List.mem_cons, List.not_mem_nil, or_false] at h
    rcases h with rfl | rfl | rfl | rfl | rfl | rfl | rfl | rfl | rfl | rfl | rfl | rfl
    all_goals refine ⟨Or.inl (by simp [serverNames]), ?_⟩
    · simp [htext, hspace]
      decide
    · decide
    · exact td.serverName.2
    · simp [htext]
      decide
    · exact zero_notMem_cstr _
    · exact zero_notMem_decimal _
    · exact td.admin.2
    · exact zero_notMem_cstr _
    · exact zero_notMem_cstr _
    · exact zero_notMem_cstr _
    · decide
    · dsimp only
      split_ifs
      · exact zero_notMem_decimal _
      · exact zero_notMem_cstr _
  · split_ifs at h with hnone
    · cases h
    · rw [List.mem_singleton.mp h]
      exact ⟨Or.inr ⟨rfl, hnone⟩, zero_notMem_range hrange⟩
  · simp only [List.mem_cons, List.not_mem_nil, or_false] at h
    rcases h with rfl | rfl | rfl | rfl | rfl
    all_goals refine ⟨Or.inl (by simp [serverNames]), ?_⟩
    · exact td.cgiRoot.2
    · exact td.ipAddr.2
    · exact zero_notMem_decimal _
    · exact td.login.2
    · dsimp only
      split_ifs <;> decide
  · split_ifs at h
    · rw [List.mem_singleton.mp h]
      exact ⟨Or.inl (by simp [serverNames]), td.filenamePath.2⟩
    · simp only [List.mem_cons, List.not_mem_nil, or_false] at h
      rcases h with rfl | rfl
      · exact ⟨Or.inl (by simp [serverNames]), td.pathInfo.2⟩
      · exact ⟨Or.inl (by simp [serverNames]), td.pathTranslated.2⟩
  · simp only [List.mem_cons, List.not_mem_nil, or_false] at h
    rcases h with rfl | rfl | rfl | rfl | rfl | rfl | rfl | rfl | rfl | rfl
    all_goals refine ⟨Or.inl (by simp [serverNames]), ?_⟩
    · exact td.filenamePath.2
    · exact zero_notMem_cstr _
    · exact zero_notMem_cstr _
    · exact td.gmt.2
    · exact td.localTime.2
    · exact td.documentRoot.2
    · exact zero_notMem_cstr _
    · exact td.filenamePath.2
    · exact td.login.2
    · exact zero_notMem_cstr _
  · obtain ⟨value, -, rfl⟩ := Option.map_eq_some_iff.mp (Option.mem_toList.mp h)
    exact ⟨Or.inl (by simp [serverNames]), zero_notMem_cstr value⟩

theorem served_name (hrange : (0 : Byte) ∉ td.request.rangeType) (h : p ∈ td.served) :
    (0 : Byte) ∉ p.1 ∧ ch '=' ∉ p.1 := by
  rcases (served_spec hrange h).1 with hname | ⟨hname, -⟩
  · have hplain := serverNames_plain p.1 hname
    exact ⟨hplain.1, hplain.2.1⟩
  · rw [hname]
    decide

theorem mem_dashes {name : Str} {b : Byte} (h : b ∈ dashes name) : b = ch '_' ∨ b ∈ name := by
  cases name with
  | nil => cases h
  | cons c name =>
    rcases List.mem_cons.mp h with rfl | h
    · exact Or.inr List.mem_cons_self
    · obtain ⟨d, hd, hb⟩ := List.mem_map.mp h
      split_ifs at hb
      · exact Or.inl hb.symm
      · exact Or.inr (List.mem_cons_of_mem c (hb ▸ hd))

/-- Only a letter comes out in upper case. -/
theorem eq_of_toUpper {b c : Byte} (hc : c.toNat < 65) (h : toUpper b = c) : b = c := by
  unfold toUpper at h
  split_ifs at h with hb
  · have hto := congrArg UInt8.toNat h
    rw [UInt8.toNat_sub_of_le _ _ (UInt8.le_iff_toNat_le.mpr (by simp; omega))] at hto
    have h32 : (32 : UInt8).toNat = 32 := rfl
    omega
  · exact h

theorem zero_notMem_envName (name : Str) : (0 : Byte) ∉ envName name := by
  intro h
  rcases List.mem_append.mp h with h | h
  · exact absurd h (by decide)
  · rcases mem_dashes h with h | h
    · exact absurd h (by decide)
    · obtain ⟨b, hb, hzero⟩ := List.mem_map.mp h
      exact zero_notMem_cstr name (eq_of_toUpper (by decide) hzero ▸ hb)

theorem equal_notMem_envName {name : Str} (hname : ch '=' ∉ name) : ch '=' ∉ envName name := by
  intro h
  rcases List.mem_append.mp h with h | h
  · exact absurd h (by decide)
  · rcases mem_dashes h with h | h
    · exact absurd h (by decide)
    · obtain ⟨b, hb, hequal⟩ := List.mem_map.mp h
      exact hname (List.takeWhile_subset _ (eq_of_toUpper (by decide) hequal ▸ hb))

end

/-! ## What an application reads -/

/-- What stands behind a block is not looked at. -/
theorem environmentLoop_append {vars : List Variable} (hvars : vars ≠ []) (fuel : Nat) (dest rest : Str) :
    environmentLoop fuel (block vars ++ rest) dest = environmentLoop fuel (block vars) dest := by
  induction vars generalizing fuel dest with
  | nil => exact absurd rfl hvars
  | cons v vars ih =>
    cases fuel with
    | zero => rfl
    | succ fuel =>
      rw [block_cons, List.append_assoc, environmentLoop, environmentLoop]
      by_cases hv : v.Short
      · rw [readVariable_bytes hv, readVariable_bytes hv]
        cases vars with
        | nil => rfl
        | cons v' vars =>
          obtain ⟨c, s, hbytes, hc⟩ := v'.bytes_head
          have hrest := ih (List.cons_ne_nil v' vars) fuel (dest ++ pairBytes v.name v.value)
          have hblock : block (v' :: vars) = c :: (s ++ block vars) := by
            rw [block_cons, hbytes, List.cons_append]
          rw [hblock, List.cons_append] at hrest ⊢
          change (if c = 0 then _ else environmentLoop fuel _ _) = if c = 0 then _ else environmentLoop fuel _ _
          rw [if_neg hc, if_neg hc]
          exact hrest
      · rw [readVariable_tooLong hv, readVariable_tooLong hv]

/-- There is room for these variables in the buffers of the scan, in the one that the pairs are written to, and in a
record. -/
structure Room (capacity : Nat) (l : List (Str × Str)) : Prop where
  short : ∀ p ∈ l, p.1.length < 99 ∧ p.2.length < 2499
  buffer : (l.flatMap fun p => pairBytes p.1 p.2).length ≤ capacity
  record : (l.flatMap fun p => pairBytes p.1 p.2).length < 65536

/-- The application reads `pairs`. -/
def Reads (capacity id : Nat) (td : Thread) (pairs : List (Str × Str)) : Prop :=
  ∃ env body, buildEnvironmentString capacity td = some env ∧ buildFASTCGIEnvironmentString env = .ok body ∧
    readEnvironment (paramsStream body id) = some pairs

section

variable {td : Thread} {capacity : Nat}

/-- **The application reads what the server says, and behind it what the client sent.** -/
theorem reads_served_sent (hrange : (0 : Byte) ∉ td.request.rangeType) (hfits : td.text.length ≤ capacity)
    (hroom : Room capacity (td.served ++ td.sent.map readAs)) (id : Nat) :
    Reads capacity id td (td.served ++ td.sent.map readAs) := by
  have hnul : ∀ p ∈ td.served ++ td.sent, (0 : Byte) ∉ p.1 ∧ (0 : Byte) ∉ p.2 := by
    intro p hp
    rcases List.mem_append.mp hp with hp | hp
    · exact ⟨(served_name hrange hp).1, (served_spec hrange hp).2⟩
    · obtain ⟨e, -, rfl⟩ := List.mem_map.mp hp
      exact ⟨zero_notMem_envName e.1, zero_notMem_cstr e.2⟩
  obtain ⟨vars, hpairs, hentries⟩ := exists_variables hnul
  have hserved : td.served.map readAs = td.served :=
    (List.map_congr_left fun p hp => readAs_of_notMem (served_name hrange hp).2).trans (List.map_id _)
  rw [List.map_append, hserved] at hpairs
  have hvars : vars ≠ [] := by
    rintro rfl
    simp [Thread.served] at hpairs
  have htext : td.text = block vars ++ List.replicate 3 0 := by
    have hne : (td.served ++ td.sent).map (fun p => p.1 ++ ch '=' :: p.2) ≠ [] := by simp [Thread.served]
    have hfive : List.replicate 5 (0 : Byte) = [0] ++ ([0] ++ List.replicate 3 0) := rfl
    rw [Thread.text, hfive, ← List.append_assoc, intercalate_nul hne, List.flatMap_map, ← hentries, block,
      List.append_assoc]
  have hbytes : pairsBytes vars = (td.served ++ td.sent.map readAs).flatMap fun p => pairBytes p.1 p.2 := by
    rw [← hpairs, List.flatMap_map]
    rfl
  have hshort : ∀ v ∈ vars, v.Short := by
    intro v hv
    exact hroom.short v.pair (hpairs ▸ List.mem_map_of_mem hv)
  refine ⟨td.text, pairsBytes vars, if_pos hfits, ?_, ?_⟩
  · have hfuel : vars.length ≤ td.text.length := by
      rw [htext, List.length_append]
      exact (length_le_length_block vars).trans (Nat.le_add_right _ _)
    unfold buildFASTCGIEnvironmentString
    rw [htext, environmentLoop_append hvars, ← htext, environmentLoop_block hvars hfuel, if_pos hshort,
      List.nil_append]
  · unfold readEnvironment
    rw [readParams_stream (hbytes ▸ hroom.record)]
    change readPairs _ _ = _
    rw [readPairs_pairsBytes hshort (length_le_length_pairsBytes vars), hpairs]

/-! ## What a client can set -/

theorem isPrefix_envName {name value : Str} : ascii "HTTP_" <+: (readAs (envName name, value)).1 := by
  have hall : ∀ b ∈ ascii "HTTP_", decide (b ≠ ch '=') = true := by decide
  unfold readAs envName
  rw [List.append_assoc, List.takeWhile_append_of_pos hall]
  exact List.prefix_append _ _

end

section

variable {first : RequestLine} {fields : List PlainField}

open MyServer.RequestHeader

/-- What is parsed of a request. -/
theorem build_requestOf (rest : Str) (inputSize : Nat) (connection : Connection)
    (hnodup : ((fields.map PlainField.toField).map Field.key).Nodup)
    (hlimits : Limits (requestHeader first fields) inputSize) :
    buildHTTPRequestHeaderStruct ((requestHeader first fields).bytes ++ rest) inputSize .free connection =
      .ok (requestHeader first fields).bytes.length (requestOf first (fields.map PlainField.toField)) connection := by
  rw [build_fold rest connection hnodup hlimits, fold_eq hnodup]
  simp [requestOf, HttpRequestHeader.requested, HttpRequestHeader.free]

theorem otherOf_iff {fields : List Field} (hnodup : (fields.map Field.key).Nodup) {key value : Str} :
    otherOf fields key = some value ↔
      ∃ field ∈ fields, field.isLength = false ∧ field.key = key ∧ field.value = value := by
  unfold otherOf
  rw [Option.map_eq_some_iff]
  constructor
  · rintro ⟨field, hfind, rfl⟩
    have hkeyed := List.find?_some hfind
    rw [Field.keyed, Bool.and_eq_true_iff, Bool.not_eq_true', decide_eq_true_eq] at hkeyed
    exact ⟨field, List.mem_of_find?_eq_some hfind, hkeyed.1, hkeyed.2, rfl⟩
  · rintro ⟨field, hmem, hlength, rfl, rfl⟩
    have hkeyed : field.keyed field.key = true := by simp [Field.keyed, hlength]
    obtain ⟨found, hfind⟩ := Option.isSome_iff_exists.mp (List.find?_isSome.mpr ⟨field, hmem, hkeyed⟩)
    have hsame := List.inj_on_of_nodup_map hnodup (List.mem_of_find?_eq_some hfind) hmem
      (Field.key_of_keyed (List.find?_some hfind))
    exact ⟨found, hfind, by rw [hsame]⟩

/-- `GET /resource/?a=b` with a `Host`. -/
def hostThread : Thread where
  request := requestOf resourceLine [hostField.toField]
  entries := [(ascii "host", ascii "localhost")]
  version := ⟨ascii "0.11", by decide⟩
  host := ⟨ascii "x86_64-pc-linux-gnu", by decide⟩
  serverName := ⟨ascii "localhost", by decide⟩
  localPort := 8080
  admin := ⟨[], by decide⟩
  inputData := none
  cgiRoot := ⟨ascii "/www", by decide⟩
  ipAddr := ⟨ascii "127.0.0.1", by decide⟩
  port := 50000
  login := ⟨[], by decide⟩
  ssl := false
  pathInfo := ⟨[], by decide⟩
  pathTranslated := ⟨[], by decide⟩
  filenamePath := ⟨ascii "/www/resource", by decide⟩
  gmt := ⟨ascii "Sun, 06 Nov 1994 08:49:37 GMT", by decide⟩
  localTime := ⟨ascii "Sun, 06 Nov 1994 08:49:37 GMT", by decide⟩
  documentRoot := ⟨ascii "/www", by decide⟩

theorem hostThread_room : Room 2048 (hostThread.served ++ hostThread.sent.map readAs) :=
  ⟨by decide +kernel, by decide +kernel, by decide +kernel⟩

end

end MyServer.Env
